import MiyaCore.SearchTree.Labels

/-!
# Local changes to a labelled tree

A change of a few nodes and labels keeps the tree, if the nodes left alone have
no child with a new label. A node split in two is such a change.
-/

namespace SearchTree

variable {ι κ δ : Type*}

section Order
variable [LinearOrder κ]

theorem Spaced.insert {lo : WithBot κ} {X Y : List (κ × δ)} {m : κ × δ} {hi : WithTop κ}
    (spaced : Spaced lo (X ++ Y) hi) (above : lastKey lo X < (m.1 : WithBot κ))
    (below : (m.1 : WithTop κ) < firstKey hi Y) : Spaced lo (X ++ m :: Y) hi := by
  induction X generalizing lo with
  | nil =>
    cases Y with
    | nil => exact ⟨above, below, trivial⟩
    | cons y Y => exact ⟨above, below.trans spaced.2.1, WithBot.coe_lt_coe.mpr
        (WithTop.coe_lt_coe.mp below), spaced.2⟩
  | cons x X ih => exact ⟨spaced.1, spaced.2.1, ih spaced.2.2 above⟩

/-- Where a key belongs among entries that enclose it. -/
theorem Spaced.cut_at {lo : WithBot κ} {l : List (κ × δ)} {hi : WithTop κ} {k : κ} (spaced : Spaced lo l hi)
    (above : lo < (k : WithBot κ)) (below : (k : WithTop κ) < hi) :
    ∃ X Y, l = X ++ Y ∧ (∀ x ∈ X, x.1 < k) ∧ (∀ y ∈ Y, k ≤ y.1) ∧ lastKey lo X < (k : WithBot κ) ∧
      (k : WithTop κ) ≤ firstKey hi Y := by
  induction l generalizing lo with
  | nil => exact ⟨[], [], rfl, by simp, by simp, above, below.le⟩
  | cons x l ih =>
    rcases lt_or_ge x.1 k with less | more
    · obtain ⟨X, Y, rfl, left, right, above', below'⟩ := ih spaced.2.2 (WithBot.coe_lt_coe.mpr less)
      exact ⟨x :: X, Y, rfl, by simpa [less] using left, right, above', below'⟩
    · refine ⟨[], x :: l, rfl, by simp, ?_, above, WithTop.coe_le_coe.mpr more⟩
      intro y member
      rcases List.mem_cons.mp member with rfl | inner
      · exact more
      · exact more.trans (WithBot.coe_lt_coe.mp ((spaced_iff.mp spaced.2.2).2 y inner).1).le

/-- A fresh entry put in at its place keeps the keys increasing. -/
theorem sorted_orderedInsert {l : List (κ × δ)} {x : κ × δ} (sorted : l.Pairwise (fun a b => a.1 < b.1))
    (fresh : ∀ y ∈ l, y.1 ≠ x.1) : (l.orderedInsert (fun a b => a.1 ≤ b.1) x).Pairwise
    (fun a b => a.1 < b.1) := by
  induction l with
  | nil => simp
  | cons y l ih =>
    obtain ⟨first, rest⟩ := List.pairwise_cons.mp sorted
    rw [List.orderedInsert_cons]
    split_ifs with before
    · have less : x.1 < y.1 := lt_of_le_of_ne before (fresh y (by simp)).symm
      refine List.pairwise_cons.mpr ⟨fun z member => ?_, sorted⟩
      rcases List.mem_cons.mp member with rfl | inner
      · exact less
      · exact less.trans (first z inner)
    · refine List.pairwise_cons.mpr ⟨fun z member => ?_, ih rest
        fun z inner => fresh z (List.mem_cons_of_mem _ inner)⟩
      rcases (List.mem_orderedInsert _).mp member with rfl | inner
      · exact not_le.mp before
      · exact first z inner

end Order

section Places
variable {α β : Type*} {A B : List α} {X : List β}

theorem exists_place {cs : List α} {i : Nat} (inside : i < cs.length) :
    ∃ A c B, cs = A ++ c :: B ∧ A.length = i := by
  refine ⟨cs.take i, cs.get ⟨i, inside⟩, cs.drop (i + 1), ?_, by simp; omega⟩
  rw [List.get_eq_getElem, ← List.drop_eq_getElem_cons, List.take_append_drop]

/-- Where a list is cut at a member, one with a member less is cut between two. -/
theorem exists_cut {c : α} {l : List β} (fits : (A ++ c :: B).length = l.length + 1) :
    ∃ X Y, l = X ++ Y ∧ A.length = X.length ∧ B.length = Y.length := by
  simp only [List.length_append, List.length_cons] at fits
  refine ⟨l.take A.length, l.drop A.length, (List.take_append_drop ..).symm, ?_, ?_⟩
  · rw [List.length_take, min_eq_left (by omega)]
  · rw [List.length_drop]
    omega

/-- Two lists of one length are both empty, or both have a last member. -/
theorem nil_or_snoc (place : A.length = X.length) :
    A = [] ∧ X = [] ∨ ∃ A' a X' x, A = A' ++ [a] ∧ X = X' ++ [x] ∧ A'.length = X'.length := by
  rcases A.eq_nil_or_concat with rfl | ⟨A, a, rfl⟩
  · exact Or.inl ⟨rfl, List.length_eq_zero_iff.mp place.symm⟩
  · obtain ⟨X, x, rfl⟩ := X.eq_nil_or_concat.resolve_left fun none => by simp [none] at place
    exact Or.inr ⟨A, a, X, x, List.concat_eq_append, List.concat_eq_append, by simpa using place⟩

end Places

section Kids
variable {g g' : ι → Option (Label κ)} {h : Nat} {lo : WithBot κ} {X Y : List (κ × δ)} {hi : WithTop κ}
    {A B : List ι} {c n : ι}

/-- The label of a child by its place. -/
theorem KidsAt.kid_label (kids : KidsAt g h lo (X ++ Y) hi (A ++ c :: B)) (fits : A.length = X.length) :
    g c = some (h, lastKey lo X, firstKey hi Y) := by
  induction X generalizing lo A with
  | nil =>
    obtain rfl := List.length_eq_zero_iff.mp fits
    cases Y with
    | nil =>
      cases B with
      | nil => exact kids
      | cons _ _ => exact kids.elim
    | cons y Y => exact kids.1
  | cons x X ih =>
    match A, fits with
    | a :: A, fits => exact ih kids.2 (by simpa using fits)

/-- The child `c` becomes two, with a new entry between them. -/
theorem KidsAt.split_kid {m : κ × δ} (kids : KidsAt g h lo (X ++ Y) hi (A ++ c :: B))
    (fits : A.length = X.length) (left : g' c = some (h, lastKey lo X, (m.1 : WithTop κ)))
    (right : g' n = some (h, (m.1 : WithBot κ), firstKey hi Y)) (same : ∀ d ∈ A ++ B, g' d = g d) :
    KidsAt g' h lo (X ++ m :: Y) hi (A ++ c :: n :: B) := by
  induction X generalizing lo A with
  | nil =>
    obtain rfl := List.length_eq_zero_iff.mp fits
    refine ⟨left, ?_⟩
    cases Y with
    | nil =>
      cases B with
      | nil => exact right
      | cons _ _ => exact kids.elim
    | cons y Y => exact ⟨right, kids.2.congr fun d member => same d (by simpa using member)⟩
  | cons x X ih =>
    match A, fits with
    | a :: A, fits =>
      exact ⟨(same a (by simp)).trans kids.1, ih kids.2 (by simpa using fits) left fun d member =>
        same d (List.mem_cons_of_mem _ member)⟩

theorem KidsAt.lower_le [LinearOrder κ] {xs : List (κ × δ)} {cs : List ι}
    (kids : KidsAt g h lo xs hi cs) (spaced : Spaced lo xs hi) (member : c ∈ cs) :
    ∃ a b, g c = some (h, a, b) ∧ lo ≤ a := by
  induction xs generalizing lo cs with
  | nil =>
    match cs, kids with
    | [d], kids =>
      obtain rfl := List.mem_singleton.mp member
      exact ⟨lo, hi, kids, le_rfl⟩
  | cons x xs ih =>
    match cs, kids with
    | d :: cs, kids =>
      rcases List.mem_cons.mp member with rfl | inner
      · exact ⟨lo, _, kids.1, le_rfl⟩
      · obtain ⟨a, b, label, above⟩ := ih kids.2 spaced.2.2 inner
        exact ⟨a, b, label, spaced.1.le.trans above⟩

/-- No child stands at two places: its lower bound tells the place. -/
theorem KidsAt.nodup [LinearOrder κ] {xs : List (κ × δ)} {cs : List ι} (kids : KidsAt g h lo xs hi cs)
    (spaced : Spaced lo xs hi) :
    cs.Nodup := by
  induction xs generalizing lo cs with
  | nil =>
    match cs, kids with
    | [d], _ => exact List.nodup_singleton d
  | cons x xs ih =>
    match cs, kids with
    | d :: cs, kids =>
      refine List.nodup_cons.mpr ⟨fun again => ?_, ih kids.2 spaced.2.2⟩
      obtain ⟨a, b, label, above⟩ := kids.2.lower_le spaced.2.2 again
      rw [kids.1] at label
      obtain ⟨rfl, -⟩ := Prod.mk.inj (Prod.mk.inj (Option.some.inj label)).2
      exact absurd spaced.1 above.not_gt

end Kids

/-- What a label with this height and these bounds says of its node. -/
def Fits [LinearOrder κ] (V : Nodes ι κ δ) (g : ι → Option (Label κ)) (p : ι) :
    Nat → WithBot κ → WithTop κ → Prop
  | 0, lo, hi => Spaced lo (V.items p) hi ∧ V.kids p = []
  | h + 1, lo, hi => Spaced lo (V.items p) hi ∧ KidsAt g h lo (V.items p) hi (V.kids p)

namespace Labelled
variable [LinearOrder κ] {V V' : Nodes ι κ δ} {g g' : ι → Option (Label κ)} {root root' : ι}
    {height height' : Nat}

theorem fits (labelled : Labelled V g root height) {p : ι} {h : Nat} {lo : WithBot κ} {hi : WithTop κ}
    (label : g p = some (h, lo, hi)) : Fits V g p h lo hi := by
  cases h with
  | zero => exact ⟨labelled.spaced label, labelled.leaf label⟩
  | succ h => exact ⟨labelled.spaced label, labelled.inner label⟩

/-- A change of the nodes and labels in `T`. -/
theorem patch (labelled : Labelled V g root height) (T : List ι)
    (same : ∀ p ∉ T, V'.items p = V.items p ∧ V'.kids p = V.kids p ∧ g' p = g p)
    (apart : ∀ p ∉ T, ∀ l, g p = some l → ∀ c ∈ V.kids p, g' c = g c)
    (fits : ∀ p ∈ T, ∀ h lo hi, g' p = some (h, lo, hi) → Fits V' g' p h lo hi)
    (top : g' root' = some (height', ⊥, ⊤)) (low : ∀ p h lo hi, g' p = some (h, lo, hi) → p = root' ∨
    h < height')
    (up : ∀ p l, g' p = some l → p = root' ∨ ∃ q l', g' q = some l' ∧ p ∈ V'.kids q) :
    Labelled V' g' root' height' := by
  have fitsAll : ∀ p h lo hi, g' p = some (h, lo, hi) → Fits V' g' p h lo hi := by
    intro p h lo hi label
    by_cases touched : p ∈ T
    · exact fits p touched h lo hi label
    · obtain ⟨items, kids, sameLabel⟩ := same p touched
      rw [sameLabel] at label
      have old := labelled.fits label
      cases h with
      | zero => exact ⟨by rw [items]; exact old.1, by rw [kids]; exact old.2⟩
      | succ h =>
        refine ⟨by rw [items]; exact old.1, ?_⟩
        rw [items, kids]
        exact old.2.congr (apart p touched _ label)
  refine ⟨top, fun {p h lo hi} label => ?_, fun label => (fitsAll _ _ _ _ label).2,
    fun label => (fitsAll _ _ _ _ label).2, fun {p h lo hi} label => low p h lo hi label,
    fun {p l} label => up p l label⟩
  cases h with
  | zero => exact (fitsAll _ _ _ _ label).1
  | succ h => exact (fitsAll _ _ _ _ label).1

/-- The children of a labelled node are labelled, one level below. -/
theorem kid (labelled : Labelled V g root height) {p c : ι} {h : Nat} {lo : WithBot κ} {hi : WithTop κ}
    (label : g p = some (h, lo, hi)) (isKid : c ∈ V.kids p) : ∃ h' a b, h = h' + 1 ∧ g c = some (h', a, b) := by
  cases h with
  | zero =>
    rw [labelled.leaf label] at isKid
    simp at isKid
  | succ h =>
    obtain ⟨a, b, labelC⟩ := (labelled.inner label).label_of_mem isKid
    exact ⟨h, a, b, rfl, labelC⟩

theorem kids_nodup (labelled : Labelled V g root height) {p : ι} {h : Nat} {lo : WithBot κ} {hi : WithTop κ}
    (label : g p = some (h, lo, hi)) : (V.kids p).Nodup := by
  cases h with
  | zero => simp [labelled.leaf label]
  | succ h => exact (labelled.inner label).nodup (labelled.spaced label)

theorem root_not_kid (labelled : Labelled V g root height) {p : ι} {l : Label κ} (label : g p = some l) :
    root ∉ V.kids p := by
  intro isKid
  obtain ⟨h, a, b, above, labelR⟩ := labelled.kid (show g _ = some (l.1, l.2.1, l.2.2) from label) isKid
  obtain ⟨rfl, -⟩ := Prod.mk.inj (Option.some.inj (labelR.symm.trans labelled.top))
  rcases labelled.low (show g _ = some (l.1, l.2.1, l.2.2) from label) with rfl | below
  · rw [labelled.top] at label
    obtain rfl := Option.some.inj label
    simp at above
  · omega

end Labelled

/-- The nodes with other entries and children at `p`. -/
def Nodes.set [DecidableEq ι] (V : Nodes ι κ δ) (p : ι) (xs : List (κ × δ)) (cs : List ι) : Nodes ι κ δ :=
  ⟨Function.update V.items p xs, Function.update V.kids p cs⟩

section Set
variable [DecidableEq ι] (V : Nodes ι κ δ) (p : ι) (xs xs' : List (κ × δ)) (cs cs' : List ι)

@[simp] theorem Nodes.set_items (q : ι) : (V.set p xs cs).items q = if q = p then xs else V.items q := by
  simp [Nodes.set, Function.update_apply]

@[simp] theorem Nodes.set_kids (q : ι) : (V.set p xs cs).kids q = if q = p then cs else V.kids q := by
  simp [Nodes.set, Function.update_apply]

@[simp] theorem Nodes.set_set : (V.set p xs cs).set p xs' cs' = V.set p xs' cs' := by
  simp [Nodes.set]

end Set

section SetLeaf
variable [LinearOrder κ] [DecidableEq ι] {V : Nodes ι κ δ} {g : ι → Option (Label κ)} {root leaf : ι}
    {height : Nat} {lo : WithBot κ} {hi : WithTop κ}

theorem Labelled.kids_set_leaf (labelled : Labelled V g root height)
    (label : g leaf = some (0, lo, hi)) (entries : List (κ × δ)) (p : ι) :
    (V.set leaf entries []).kids p = V.kids p := by
  by_cases isLeaf : p = leaf
  · simp [isLeaf, labelled.leaf label]
  · simp [isLeaf]

/-- Other entries in a leaf. -/
theorem Labelled.set_leaf (labelled : Labelled V g root height)
    {entries : List (κ × δ)} (label : g leaf = some (0, lo, hi)) (spaced : Spaced lo entries hi) :
    Labelled (V.set leaf entries []) g root height := by
  refine labelled.patch [leaf] ?_ ?_ ?_ labelled.top (fun p h lo hi => labelled.low) ?_
  · intro p outside
    have isLeaf : p ≠ leaf := by simpa using outside
    simp [isLeaf]
  · exact fun p _ l _ c _ => rfl
  · intro p touched h' lo' hi' labelp
    obtain rfl := List.mem_singleton.mp touched
    rw [label] at labelp
    simp only [Option.some.injEq, Prod.mk.injEq] at labelp
    obtain ⟨rfl, rfl, rfl⟩ := labelp
    refine ⟨?_, by simp⟩
    rw [Nodes.set_items, if_pos rfl]
    exact spaced
  · intro p l labelp
    refine (labelled.up labelp).imp id ?_
    rintro ⟨q, l', labelq, isKid⟩
    exact ⟨q, l', labelq, by rwa [labelled.kids_set_leaf label]⟩

end SetLeaf

section Split
variable [LinearOrder κ] [DecidableEq ι] {V : Nodes ι κ δ} {g : ι → Option (Label κ)} {root q n : ι}
    {height h : Nat} {lo : WithBot κ} {hi : WithTop κ} {L R : List (κ × δ)} {m : κ × δ} {C D : List ι}

/-- The labels of the two halves of `q`, cut at the entry `m`. -/
def halves (g : ι → Option (Label κ)) (q n : ι) (h : Nat) (lo : WithBot κ) (m : κ) (hi : WithTop κ)
    (p : ι) : Option (Label κ) :=
  if p = q then some (h, lo, (m : WithTop κ)) else if p = n then some (h, (m : WithBot κ), hi) else g p

omit [LinearOrder κ] in
theorem halves_eq_some {m : κ} {p : ι} {l : Label κ} (label : halves g q n h lo m hi p = some l) :
    p = q ∨ p ≠ q ∧ p = n ∨ p ≠ q ∧ p ≠ n ∧ g p = some l := by
  unfold halves at label
  split_ifs at label with isQ isN
  · exact Or.inl isQ
  · exact Or.inr (Or.inl ⟨isQ, isN⟩)
  · exact Or.inr (Or.inr ⟨isQ, isN, label⟩)

omit [DecidableEq ι] in
/-- Both halves of a node fit the labels that the entry between them gives. -/
theorem Fits.cut {W : Nodes ι κ δ} {f : ι → Option (Label κ)} (whole : Fits V g q h lo hi)
    (items : V.items q = L ++ m :: R) (kids : V.kids q = C ++ D)
    (fits : h ≠ 0 → C.length = L.length + 1) (same : ∀ c ∈ V.kids q, f c = g c)
    (left : W.items q = L ∧ W.kids q = C) (right : W.items n = R ∧ W.kids n = D) :
    Fits W f q h lo (m.1 : WithTop κ) ∧ Fits W f n h (m.1 : WithBot κ) hi := by
  cases h with
  | zero =>
    obtain ⟨spaced, leaf⟩ := whole
    rw [items, spaced_append_cons] at spaced
    obtain ⟨rfl, rfl⟩ := List.append_eq_nil_iff.mp (kids.symm.trans leaf)
    exact ⟨⟨by rw [left.1]; exact spaced.1, left.2⟩, ⟨by rw [right.1]; exact spaced.2.2, right.2⟩⟩
  | succ h =>
    obtain ⟨spaced, inner⟩ := whole
    rw [items, spaced_append_cons] at spaced
    rw [items, kids, kidsAt_append (fits (by omega))] at inner
    rw [kids] at same
    refine ⟨⟨by rw [left.1]; exact spaced.1, ?_⟩, ⟨by rw [right.1]; exact spaced.2.2, ?_⟩⟩
    · rw [left.1, left.2]
      exact inner.1.congr fun c member => same c (List.mem_append_left _ member)
    · rw [right.1, right.2]
      exact inner.2.congr fun c member => same c (List.mem_append_right _ member)

/-- The node `q` is split at its entry `m`, which goes up to its parent `P` with the new node `n`. -/
theorem Labelled.split (labelled : Labelled V g root height) (label : g q = some (h, lo, hi))
    (fresh : g n = none) (items : V.items q = L ++ m :: R) (kids : V.kids q = C ++ D)
    (fits : h ≠ 0 → C.length = L.length + 1) {P : ι} {lo' : WithBot κ} {hi' : WithTop κ}
    {X Y : List (κ × δ)} {A B : List ι} (labelP : g P = some (h + 1, lo', hi'))
    (itemsP : V.items P = X ++ Y) (kidsP : V.kids P = A ++ q :: B) (fitsP : A.length = X.length)
    (onlyUp : ∀ p l, g p = some l → q ∈ V.kids p → p = P) :
    Labelled (((V.set q L C).set n R D).set P (X ++ m :: Y) (A ++ q :: n :: B))
      (halves g q n h lo m.1 hi) root height := by
  have qn : q ≠ n := by rintro rfl; simp [fresh] at label
  have Pn : P ≠ n := by rintro rfl; simp [fresh] at labelP
  have Pq : P ≠ q := by rintro rfl; simp [label] at labelP
  have notRoot : q ≠ root := by
    rintro rfl
    exact labelled.root_not_kid labelP (by simp [kidsP])
  have kidsAtP := labelled.inner labelP
  have nodup := kidsAtP.nodup (labelled.spaced labelP)
  rw [itemsP, kidsP] at kidsAtP
  have place := kidsAtP.kid_label fitsP
  obtain ⟨rfl, rfl⟩ : lo = lastKey lo' X ∧ hi = firstKey hi' Y := by simpa using label.symm.trans place
  -- the only child with a new label is `q`, and its only parent is `P`
  have same : ∀ p l, g p = some l → ∀ c ∈ V.kids p, c ≠ q → halves g q n h (lastKey lo' X) m.1
    (firstKey hi' Y) c = g c := by
    intro p l labelp c isKid other
    obtain ⟨_, _, _, _, labelC⟩ := labelled.kid (show g _ = some (l.1, l.2.1, l.2.2) from labelp) isKid
    have notN : c ≠ n := by rintro rfl; simp [fresh] at labelC
    simp [halves, other, notN]
  have ownKid : ∀ c ∈ V.kids q, c ≠ q := by
    rintro c isKid rfl
    exact Pq (onlyUp _ _ label isKid).symm
  have cut := (labelled.fits label).cut (n := n) (f := halves g q n h (lastKey lo' X) m.1 (firstKey hi' Y))
    (W := ((V.set q L C).set n R D).set P (X ++ m :: Y) (A ++ q :: n :: B)) items kids fits
    (fun c isKid => same q _ label c isKid (ownKid c isKid)) (by simp [qn, Pq.symm]) (by simp [Pn.symm])
  have spacedQ := labelled.spaced label
  rw [items, spaced_append_cons] at spacedQ
  obtain ⟨-, ⟨above, below⟩, -⟩ := spacedQ
  refine labelled.patch [q, n, P] ?_ ?_ ?_ ?_ ?_ ?_
  · intro p outside
    simp only [List.mem_cons, List.not_mem_nil, or_false, not_or] at outside
    simp [halves, outside]
  · intro p outside l labelp c isKid
    simp only [List.mem_cons, List.not_mem_nil, or_false, not_or] at outside
    refine same p l labelp c isKid ?_
    rintro rfl
    exact outside.2.2 (onlyUp p l labelp isKid)
  · intro p touched h₁ lo₁ hi₁ label₁
    simp only [List.mem_cons, List.not_mem_nil, or_false] at touched
    rcases touched with rfl | rfl | rfl
    · simp only [halves, if_true, Option.some.injEq, Prod.mk.injEq] at label₁
      obtain ⟨rfl, rfl, rfl⟩ := label₁
      exact cut.1
    · simp only [halves, qn.symm, if_false, if_true, Option.some.injEq, Prod.mk.injEq] at label₁
      obtain ⟨rfl, rfl, rfl⟩ := label₁
      exact cut.2
    · simp only [halves, Pn, Pq, if_false, labelP, Option.some.injEq, Prod.mk.injEq] at label₁
      obtain ⟨rfl, rfl, rfl⟩ := label₁
      refine ⟨?_, ?_⟩
      · simp only [Nodes.set_items, if_true]
        exact Spaced.insert (itemsP ▸ labelled.spaced labelP) above below
      · simp only [Nodes.set_items, Nodes.set_kids, if_true]
        refine kidsAtP.split_kid fitsP (by simp [halves]) (by simp [halves, qn.symm]) fun d member => ?_
        refine same _ _ labelP d ?_ ?_
        · rw [kidsP]
          rcases List.mem_append.mp member with inA | inB
          · exact List.mem_append_left _ inA
          · exact List.mem_append_right _ (List.mem_cons_of_mem _ inB)
        · rintro rfl
          rw [kidsP, List.nodup_middle, List.nodup_cons] at nodup
          exact nodup.1 member
  · have notNew : root ≠ n := by
      rintro rfl
      simp [labelled.top] at fresh
    simp [halves, notRoot.symm, notNew, labelled.top]
  · intro p h₁ lo₁ hi₁ label₁
    have sub : h < height := (labelled.low label).resolve_left notRoot
    simp only [halves] at label₁
    split_ifs at label₁
    · simp only [Option.some.injEq, Prod.mk.injEq] at label₁
      omega
    · simp only [Option.some.injEq, Prod.mk.injEq] at label₁
      omega
    · exact labelled.low label₁
  · intro p l label₁
    have ofP : halves g q n h (lastKey lo' X) m.1 (firstKey hi' Y) P = some (h + 1, lo', hi') := by
      simp [halves, Pq, Pn, labelP]
    by_cases isQ : p = q
    · exact Or.inr ⟨P, _, ofP, by simp [isQ]⟩
    by_cases isN : p = n
    · exact Or.inr ⟨P, _, ofP, by simp [isN]⟩
    simp only [halves, isQ, isN, if_false] at label₁
    refine (labelled.up label₁).imp id ?_
    rintro ⟨u, l', labelU, isKid⟩
    have notN : u ≠ n := by rintro rfl; simp [fresh] at labelU
    by_cases fromQ : u = q
    · subst fromQ
      rw [kids] at isKid
      rcases List.mem_append.mp isKid with inL | inR
      · exact ⟨u, _, by simp [halves]; rfl, by simpa [Pq.symm, qn] using inL⟩
      · exact ⟨n, _, by simp [halves, qn.symm]; rfl, by simpa [Pn.symm] using inR⟩
    by_cases fromP : u = P
    · subst fromP
      refine ⟨u, _, ofP, ?_⟩
      rw [kidsP] at isKid
      simp only [Nodes.set_kids, if_true, List.mem_append, List.mem_cons] at isKid ⊢
      tauto
    · exact ⟨u, l', by simpa [halves, fromQ, notN] using labelU, by simpa [fromQ, fromP, notN] using isKid⟩

/-- The labels of a tree whose root was split, under the new root `r`. -/
def grown (g : ι → Option (Label κ)) (root n r : ι) (height : Nat) (m : κ) (p : ι) : Option (Label κ) :=
  if p = r then some (height + 1, ⊥, ⊤) else halves g root n height ⊥ m ⊤ p

/-- The root is split at its entry `m`, which goes to a new root. -/
theorem Labelled.grow {r : ι} (labelled : Labelled V g root height) (fresh : g n = none)
    (freshR : g r = none) (other : n ≠ r) (items : V.items root = L ++ m :: R)
    (kids : V.kids root = C ++ D) (fits : height ≠ 0 → C.length = L.length + 1) :
    Labelled (((V.set root L C).set n R D).set r [m] [root, n]) (grown g root n r height m.1) r
      (height + 1) := by
  have top := labelled.top
  have qn : root ≠ n := by rintro rfl; simp [fresh] at top
  have qr : root ≠ r := by rintro rfl; simp [freshR] at top
  have same : ∀ p l, g p = some l → ∀ c ∈ V.kids p, grown g root n r height m.1 c = g c := by
    intro p l labelp c isKid
    obtain ⟨_, _, _, _, labelC⟩ := labelled.kid (show g _ = some (l.1, l.2.1, l.2.2) from labelp) isKid
    have notN : c ≠ n := by rintro rfl; simp [fresh] at labelC
    have notR : c ≠ r := by rintro rfl; simp [freshR] at labelC
    have notRoot : c ≠ root := by rintro rfl; exact labelled.root_not_kid labelp isKid
    simp [grown, halves, notN, notR, notRoot]
  have cut := (labelled.fits top).cut (n := n) (f := grown g root n r height m.1)
    (W := ((V.set root L C).set n R D).set r [m] [root, n]) items kids fits
    (fun c isKid => same root _ top c isKid) (by simp [qn, qr]) (by simp [other])
  refine labelled.patch [root, n, r] ?_ ?_ ?_ ?_ ?_ ?_
  · intro p outside
    simp only [List.mem_cons, List.not_mem_nil, or_false, not_or] at outside
    simp [grown, halves, outside]
  · exact fun p _ l labelp c isKid => same p l labelp c isKid
  · intro p touched h₁ lo₁ hi₁ label₁
    simp only [List.mem_cons, List.not_mem_nil, or_false] at touched
    rcases touched with rfl | rfl | rfl
    · simp only [grown, halves, qr, if_true, if_false, Option.some.injEq, Prod.mk.injEq] at label₁
      obtain ⟨rfl, rfl, rfl⟩ := label₁
      exact cut.1
    · simp only [grown, halves, other, qn.symm, if_true, if_false, Option.some.injEq, Prod.mk.injEq] at label₁
      obtain ⟨rfl, rfl, rfl⟩ := label₁
      exact cut.2
    · simp only [grown, if_true, Option.some.injEq, Prod.mk.injEq] at label₁
      obtain ⟨rfl, rfl, rfl⟩ := label₁
      refine ⟨by simp [Spaced], ?_⟩
      simp [KidsAt, grown, halves, qr, other, qn.symm]
  · simp [grown]
  · intro p h₁ lo₁ hi₁ label₁
    by_cases isR : p = r
    · exact Or.inl isR
    simp only [grown, halves, isR, if_false] at label₁
    right
    split_ifs at label₁ with isRoot
    · simp only [Option.some.injEq, Prod.mk.injEq] at label₁
      omega
    · simp only [Option.some.injEq, Prod.mk.injEq] at label₁
      omega
    · have := (labelled.low label₁).resolve_left isRoot
      omega
  · intro p l label₁
    by_cases isR : p = r
    · exact Or.inl isR
    have ofR : grown g root n r height m.1 r = some (height + 1, ⊥, ⊤) := by simp [grown]
    right
    by_cases isRoot : p = root
    · exact ⟨r, _, ofR, by simp [isRoot]⟩
    by_cases isN : p = n
    · exact ⟨r, _, ofR, by simp [isN]⟩
    simp only [grown, halves, isR, isRoot, isN, if_false] at label₁
    obtain ⟨u, l', labelU, isKid⟩ := (labelled.up label₁).resolve_left isRoot
    have notN : u ≠ n := by rintro rfl; simp [fresh] at labelU
    have notR : u ≠ r := by rintro rfl; simp [freshR] at labelU
    by_cases fromRoot : u = root
    · subst fromRoot
      rw [kids] at isKid
      rcases List.mem_append.mp isKid with inL | inR
      · exact ⟨u, _, by simp [grown, halves, qr]; rfl, by simpa [qr, qn] using inL⟩
      · exact ⟨n, _, by simp [grown, halves, other, qn.symm]; rfl, by simpa [other] using inR⟩
    · exact ⟨u, l', by simpa [grown, halves, notR, fromRoot, notN] using labelU,
        by simpa [fromRoot, notR, notN] using isKid⟩

/-- The entries of the labelled nodes. -/
def Held (V : Nodes ι κ δ) (g : ι → Option (Label κ)) (x : κ × δ) : Prop := ∃ p, (g p).isSome ∧ x ∈ V.items p

omit [LinearOrder κ] in
/-- Splitting `q` at `m` below `P` keeps the entries; `P` may be new. -/
theorem held_cut {f : ι → Option (Label κ)} {P : ι} {X Y : List (κ × δ)} {E : List ι} (label : (g q).isSome)
    (fresh : g n = none) (Pq : P ≠ q) (Pn : P ≠ n) (qn : q ≠ n) (items : V.items q = L ++ m :: R)
    (itemsP : (g P).isSome ∧ V.items P = X ++ Y ∨ g P = none ∧ X = [] ∧ Y = [])
    (label' : (f q).isSome) (labelN : (f n).isSome) (labelP : (f P).isSome)
    (same : ∀ p, p ≠ q → p ≠ n → p ≠ P → f p = g p) (x : κ × δ) :
    Held (((V.set q L C).set n R D).set P (X ++ m :: Y) E) f x ↔ Held V g x := by
  constructor
  · rintro ⟨p, labelled, own⟩
    by_cases isP : p = P
    · subst isP
      simp only [Nodes.set_items, if_true, List.mem_append, List.mem_cons] at own
      rcases own with inX | rfl | inY
      · rcases itemsP with ⟨old, itemsP⟩ | ⟨_, rfl, rfl⟩
        · exact ⟨p, old, by simp [itemsP, inX]⟩
        · simp at inX
      · exact ⟨q, label, by simp [items]⟩
      · rcases itemsP with ⟨old, itemsP⟩ | ⟨_, rfl, rfl⟩
        · exact ⟨p, old, by simp [itemsP, inY]⟩
        · simp at inY
    by_cases isQ : p = q
    · subst isQ
      exact ⟨p, label, by simp [isP, qn] at own; simp [items, own]⟩
    by_cases isN : p = n
    · subst isN
      exact ⟨q, label, by simp [isP] at own; simp [items, own]⟩
    · exact ⟨p, by rwa [same p isQ isN isP] at labelled, by simpa [isP, isQ, isN] using own⟩
  · rintro ⟨p, labelled, own⟩
    by_cases isP : p = P
    · subst isP
      refine ⟨p, labelP, ?_⟩
      rcases itemsP with ⟨_, itemsP⟩ | ⟨none, _, _⟩
      · simp only [itemsP, List.mem_append] at own
        simp only [Nodes.set_items, if_true, List.mem_append, List.mem_cons]
        tauto
      · simp [none] at labelled
    by_cases isQ : p = q
    · subst isQ
      rw [items, List.mem_append, List.mem_cons] at own
      rcases own with inL | rfl | inR
      · exact ⟨p, label', by simp [isP, qn, inL]⟩
      · exact ⟨P, labelP, by simp⟩
      · exact ⟨n, labelN, by simp [Pn.symm, inR]⟩
    have isN : p ≠ n := by rintro rfl; simp [fresh] at labelled
    exact ⟨p, by rwa [same p isQ isN isP], by simpa [isP, isQ, isN] using own⟩

end Split

end SearchTree
