import MiyaCore.SearchTree.Splits

/-!
# Joining two neighbours

Two children next to each other become one, with the entry between them brought
down. An entry handed from one child to the next is a join and a split.
-/

namespace SearchTree

variable {ι κ δ : Type*}

/-- Two children become one, without the entry between them. -/
theorem KidsAt.join_kids {g g' : ι → Option (Label κ)} {h : Nat} {lo : WithBot κ} {X Y : List (κ × δ)}
    {w : κ × δ} {hi : WithTop κ} {A B : List ι} {c₁ c₂ n : ι}
    (kids : KidsAt g h lo (X ++ w :: Y) hi (A ++ c₁ :: c₂ :: B)) (fits : A.length = X.length)
    (label : g' n = some (h, lastKey lo X, firstKey hi Y)) (same : ∀ d ∈ A ++ B, g' d = g d) :
    KidsAt g' h lo (X ++ Y) hi (A ++ n :: B) := by
  induction X generalizing lo A with
  | nil =>
    obtain rfl := List.length_eq_zero_iff.mp fits
    cases Y with
    | nil =>
      cases B with
      | nil => exact label
      | cons _ _ => exact kids.2.elim
    | cons y Y => exact ⟨label, kids.2.2.congr fun d member => same d (by simpa using member)⟩
  | cons x X ih =>
    match A, fits with
    | a :: A, fits =>
      exact ⟨(same a (by simp)).trans kids.1, ih kids.2 (by simpa using fits) label fun d member =>
        same d (List.mem_cons_of_mem _ member)⟩

section Order
variable [LinearOrder κ] {lo : WithBot κ} {X Y : List (κ × δ)} {w : κ × δ} {hi : WithTop κ}

theorem Spaced.drop_entry (spaced : Spaced lo (X ++ w :: Y) hi) : Spaced lo (X ++ Y) hi := by
  rw [spaced_iff] at spaced ⊢
  refine ⟨spaced.1.sublist ?_, fun x member => spaced.2 x ?_⟩
  · exact (List.sublist_cons_self w Y).append_left X
  · rw [List.mem_append] at member
    rw [List.mem_append, List.mem_cons]
    tauto

/-- An entry is between its neighbours. -/
theorem Spaced.entry_bounds (spaced : Spaced lo (X ++ w :: Y) hi) :
    lastKey lo X < (w.1 : WithBot κ) ∧ (w.1 : WithTop κ) < firstKey hi Y := by
  induction X generalizing lo with
  | nil =>
    refine ⟨spaced.1, ?_⟩
    cases Y with
    | nil => exact spaced.2.1
    | cons y Y => exact WithTop.coe_lt_coe.mpr (WithBot.coe_lt_coe.mp spaced.2.2.1)
  | cons x X ih => exact ih spaced.2.2

end Order

section Agree
variable [LinearOrder κ] {V W : Nodes ι κ δ} {g : ι → Option (Label κ)} {root : ι} {height : Nat}

/-- Only the labelled nodes count. -/
theorem Labelled.agree (labelled : Labelled V g root height)
    (same : ∀ p l, g p = some l → W.items p = V.items p ∧ W.kids p = V.kids p) : Labelled W g root height := by
  refine ⟨labelled.top, fun {p h lo hi} label => ?_, fun {p lo hi} label => ?_,
    fun {p h lo hi} label => ?_, labelled.low, fun {p l} label => ?_⟩
  · rw [(same p _ label).1]
    exact labelled.spaced label
  · rw [(same p _ label).2]
    exact labelled.leaf label
  · rw [(same p _ label).1, (same p _ label).2]
    exact labelled.inner label
  · refine (labelled.up label).imp id ?_
    rintro ⟨q, l', labelQ, isKid⟩
    exact ⟨q, l', labelQ, by rwa [(same q _ labelQ).2]⟩

omit [LinearOrder κ] in
theorem held_agree (same : ∀ p l, g p = some l → W.items p = V.items p) (x : κ × δ) :
    Held W g x ↔ Held V g x := by
  unfold Held
  refine exists_congr fun p => and_congr_right fun isLabelled => ?_
  obtain ⟨l, label⟩ := Option.isSome_iff_exists.mp isLabelled
  rw [same p l label]

end Agree

/-- Two children next to each other. -/
theorem Labelled.neighbours [LinearOrder κ] {V : Nodes ι κ δ} {g : ι → Option (Label κ)}
    {root P c₁ c₂ : ι} {height h : Nat} {lo : WithBot κ} {hi : WithTop κ} {A B : List ι}
    (labelled : Labelled V g root height) (label : g P = some (h + 1, lo, hi))
    (kids : V.kids P = A ++ c₁ :: c₂ :: B) :
    (∃ a b, g c₁ = some (h, a, b)) ∧ (∃ a b, g c₂ = some (h, a, b)) ∧ P ≠ c₁ ∧ P ≠ c₂ ∧ c₁ ≠ c₂ ∧
      c₁ ∉ A ∧ c₂ ∉ A := by
  have inner := labelled.inner label
  have nodup := labelled.kids_nodup label
  rw [kids] at inner nodup
  obtain ⟨a₁, b₁, label₁⟩ := inner.label_of_mem (c := c₁) (by simp)
  obtain ⟨a₂, b₂, label₂⟩ := inner.label_of_mem (c := c₂) (by simp)
  obtain ⟨-, tail, apart⟩ := List.nodup_append.mp nodup
  refine ⟨⟨a₁, b₁, label₁⟩, ⟨a₂, b₂, label₂⟩, ?_, ?_, ?_, fun member => apart c₁ member c₁ (by simp) rfl,
    fun member => apart c₂ member c₂ (by simp) rfl⟩
  · rintro rfl
    simp [label₁] at label
  · rintro rfl
    simp [label₂] at label
  · rintro rfl
    simp at tail

section Join
variable [LinearOrder κ] [DecidableEq ι] {V : Nodes ι κ δ} {g : ι → Option (Label κ)}
    {root P c₁ c₂ n : ι} {height h : Nat} {lo : WithBot κ} {hi : WithTop κ} {X Y : List (κ × δ)}
    {w : κ × δ} {A B : List ι}

/-- The labels after `c₁` and `c₂` were joined in `n`. -/
def joined (g : ι → Option (Label κ)) (c₁ c₂ n : ι) (h : Nat) (lo : WithBot κ) (hi : WithTop κ)
    (p : ι) : Option (Label κ) :=
  if p = n then some (h, lo, hi) else if p = c₁ ∨ p = c₂ then none else g p

/-- The nodes after `c₁` and `c₂` were joined in `n`. -/
def Nodes.join (V : Nodes ι κ δ) (P c₁ c₂ n : ι) (X Y : List (κ × δ)) (w : κ × δ) (A B : List ι) :
    Nodes ι κ δ :=
  (V.set n (V.items c₁ ++ w :: V.items c₂) (V.kids c₁ ++ V.kids c₂)).set P (X ++ Y) (A ++ n :: B)

theorem Labelled.join (labelled : Labelled V g root height) (label : g P = some (h + 1, lo, hi))
    (items : V.items P = X ++ w :: Y) (kids : V.kids P = A ++ c₁ :: c₂ :: B)
    (place : A.length = X.length) (kept : n = c₁ ∨ n = c₂)
    (onlyUp : ∀ p l, g p = some l → c₁ ∈ V.kids p ∨ c₂ ∈ V.kids p → p = P) :
    Labelled (V.join P c₁ c₂ n X Y w A B) (joined g c₁ c₂ n h (lastKey lo X) (firstKey hi Y)) root height := by
  have inner := labelled.inner label
  have spaced := labelled.spaced label
  have nodup := labelled.kids_nodup label
  rw [items] at inner spaced
  rw [kids] at inner nodup
  have label₁ : g c₁ = some (h, lastKey lo X, (w.1 : WithTop κ)) := inner.kid_label (Y := w :: Y) place
  have label₂ : g c₂ = some (h, (w.1 : WithBot κ), firstKey hi Y) := by
    have := KidsAt.kid_label (X := X ++ [w]) (Y := Y) (A := A ++ [c₁]) (c := c₂) (B := B)
      (by simpa using inner) (by simp [place])
    simpa [lastKey] using this
  have P₁ : P ≠ c₁ := by rintro rfl; simp [label₁] at label
  have P₂ : P ≠ c₂ := by rintro rfl; simp [label₂] at label
  have Pn : P ≠ n := by rcases kept with rfl | rfl <;> assumption
  have notRoot₁ : c₁ ≠ root := by
    rintro rfl
    exact labelled.root_not_kid label (by simp [kids])
  have notRoot₂ : c₂ ≠ root := by
    rintro rfl
    exact labelled.root_not_kid label (by simp [kids])
  have notRoot : n ≠ root := by rcases kept with rfl | rfl <;> assumption
  have other : ∀ {p}, p ≠ c₁ → p ≠ c₂ → joined g c₁ c₂ n h (lastKey lo X) (firstKey hi Y) p = g p := by
    intro p not₁ not₂
    have notN : p ≠ n := by rcases kept with rfl | rfl <;> assumption
    simp [joined, not₁, not₂, notN]
  -- the children of a node other than `P` keep their labels
  have same : ∀ p l, g p = some l → p ≠ P → ∀ c ∈ V.kids p,
      joined g c₁ c₂ n h (lastKey lo X) (firstKey hi Y) c = g c := by
    intro p l labelp notP c isKid
    refine other ?_ ?_
    · rintro rfl
      exact notP (onlyUp p l labelp (Or.inl isKid))
    · rintro rfl
      exact notP (onlyUp p l labelp (Or.inr isKid))
  have ofP : joined g c₁ c₂ n h (lastKey lo X) (firstKey hi Y) P = some (h + 1, lo, hi) :=
    (other P₁ P₂).trans label
  have ofN : joined g c₁ c₂ n h (lastKey lo X) (firstKey hi Y) n = some (h, lastKey lo X, firstKey hi Y) := by
    simp [joined]
  have labels : ∀ {p l}, joined g c₁ c₂ n h (lastKey lo X) (firstKey hi Y) p = some l →
      p = n ∧ l = (h, lastKey lo X, firstKey hi Y) ∨ p ≠ n ∧ p ≠ c₁ ∧ p ≠ c₂ ∧ g p = some l := by
    intro p l labelp
    unfold joined at labelp
    split_ifs at labelp with isN gone
    · exact Or.inl ⟨isN, (Option.some.inj labelp).symm⟩
    · exact Or.inr ⟨isN, fun is₁ => gone (Or.inl is₁), fun is₂ => gone (Or.inr is₂), labelp⟩
  refine labelled.patch [c₁, c₂, P] ?_ ?_ ?_ ?_ ?_ ?_
  · intro p outside
    simp only [List.mem_cons, List.not_mem_nil, or_false, not_or] at outside
    have notN : p ≠ n := by rcases kept with rfl | rfl <;> tauto
    exact ⟨by simp [Nodes.join, outside, notN], by simp [Nodes.join, outside, notN], other outside.1 outside.2.1⟩
  · intro p outside l labelp c isKid
    simp only [List.mem_cons, List.not_mem_nil, or_false, not_or] at outside
    exact same p l labelp outside.2.2 c isKid
  · intro p touched h' lo' hi' labelp
    by_cases isP : p = P
    · subst isP
      rw [ofP] at labelp
      simp only [Option.some.injEq, Prod.mk.injEq] at labelp
      obtain ⟨rfl, rfl, rfl⟩ := labelp
      refine ⟨?_, ?_⟩
      · simp only [Nodes.join, Nodes.set_items, if_true]
        exact spaced.drop_entry
      · simp only [Nodes.join, Nodes.set_items, Nodes.set_kids, if_true]
        refine inner.join_kids place ofN fun d member => ?_
        rw [List.nodup_middle, List.nodup_cons, List.nodup_middle, List.nodup_cons] at nodup
        refine other ?_ ?_
        · rintro rfl
          refine nodup.1 ?_
          rw [List.mem_append] at member
          simp [List.mem_append]
          tauto
        · rintro rfl
          exact nodup.2.1 member
    · rcases labels labelp with ⟨rfl, isLabel⟩ | ⟨-, not₁, not₂, -⟩
      · obtain ⟨rfl, rfl, rfl⟩ : h' = h ∧ lo' = lastKey lo X ∧ hi' = firstKey hi Y := by simpa using isLabel
        have fit₁ := labelled.fits label₁
        have fit₂ := labelled.fits label₂
        have bounds : lastKey lo X < (w.1 : WithBot κ) ∧ (w.1 : WithTop κ) < firstKey hi Y :=
          spaced.entry_bounds
        have keep : ∀ c ∈ V.kids c₁ ++ V.kids c₂, joined g c₁ c₂ p h' (lastKey lo X)
          (firstKey hi Y) c = g c := by
          intro c member
          rcases List.mem_append.mp member with in₁ | in₂
          · exact same c₁ _ label₁ P₁.symm c in₁
          · exact same c₂ _ label₂ P₂.symm c in₂
        cases h' with
        | zero =>
          refine ⟨?_, ?_⟩
          · simp only [Nodes.join, Nodes.set_items, isP, if_true, if_false]
            exact spaced_append_cons.mpr ⟨fit₁.1, bounds, fit₂.1⟩
          · simp [Nodes.join, isP, fit₁.2, fit₂.2]
        | succ h' =>
          refine ⟨?_, ?_⟩
          · simp only [Nodes.join, Nodes.set_items, isP, if_true, if_false]
            exact spaced_append_cons.mpr ⟨fit₁.1, bounds, fit₂.1⟩
          · simp only [Nodes.join, Nodes.set_items, Nodes.set_kids, isP, if_true, if_false]
            refine KidsAt.congr ?_ keep
            exact (kidsAt_append fit₁.2.length).mpr ⟨fit₁.2, fit₂.2⟩
      · simp [not₁, not₂, isP] at touched
  · exact (other notRoot₁.symm notRoot₂.symm).trans labelled.top
  · intro p h' lo' hi' labelp
    rcases labels labelp with ⟨rfl, isLabel⟩ | ⟨-, -, -, labelp⟩
    · right
      obtain ⟨rfl, -⟩ := Prod.mk.inj isLabel
      exact (labelled.low label₁).resolve_left notRoot₁
    · exact labelled.low labelp
  · intro p l labelp
    rcases labels labelp with ⟨rfl, -⟩ | ⟨notN, not₁, not₂, labelp⟩
    · exact Or.inr ⟨P, _, ofP, by simp [Nodes.join]⟩
    · refine (labelled.up labelp).imp id ?_
      rintro ⟨u, l', labelU, isKid⟩
      by_cases isP : u = P
      · subst isP
        refine ⟨u, _, ofP, ?_⟩
        rw [kids] at isKid
        simp only [List.mem_append, List.mem_cons, not₁, not₂, false_or] at isKid
        simp only [Nodes.join, Nodes.set_kids, if_true, List.mem_append, List.mem_cons]
        tauto
      by_cases from₁ : u = c₁
      · subst from₁
        exact ⟨n, _, ofN, by simp [Nodes.join, Pn.symm, isKid]⟩
      by_cases from₂ : u = c₂
      · subst from₂
        exact ⟨n, _, ofN, by simp [Nodes.join, Pn.symm, isKid]⟩
      · have notN : u ≠ n := by rcases kept with rfl | rfl <;> assumption
        exact ⟨u, l', (other from₁ from₂).trans labelU, by simpa [Nodes.join, isP, notN] using isKid⟩

omit [LinearOrder κ] in
theorem held_join {l₁ l₂ lP : Label κ} (label₁ : g c₁ = some l₁) (label₂ : g c₂ = some l₂)
    (labelP : g P = some lP) (P₁ : P ≠ c₁) (P₂ : P ≠ c₂) (items : V.items P = X ++ w :: Y)
    (kept : n = c₁ ∨ n = c₂) (x : κ × δ) :
    Held (V.join P c₁ c₂ n X Y w A B) (joined g c₁ c₂ n h lo hi) x ↔ Held V g x := by
  have Pn : P ≠ n := by rcases kept with rfl | rfl <;> assumption
  have ofP : joined g c₁ c₂ n h lo hi P = some lP := by simp [joined, Pn, P₁, P₂, labelP]
  constructor
  · rintro ⟨p, some, own⟩
    by_cases isP : p = P
    · subst isP
      refine ⟨p, by simp [labelP], ?_⟩
      simp only [Nodes.join, Nodes.set_items, if_true, List.mem_append] at own
      rw [items, List.mem_append, List.mem_cons]
      tauto
    by_cases isN : p = n
    · subst isN
      simp only [Nodes.join, Nodes.set_items, isP, if_true, if_false, List.mem_append, List.mem_cons] at own
      rcases own with in₁ | rfl | in₂
      · exact ⟨c₁, by simp [label₁], in₁⟩
      · exact ⟨P, by simp [labelP], by simp [items]⟩
      · exact ⟨c₂, by simp [label₂], in₂⟩
    · simp only [joined, isN, if_false] at some
      split_ifs at some with gone
      · simp at some
      · exact ⟨p, some, by simpa [Nodes.join, isP, isN] using own⟩
  · rintro ⟨p, some, own⟩
    have ofN : (joined g c₁ c₂ n h lo hi n).isSome := by simp [joined]
    by_cases isP : p = P
    · subst isP
      rw [items, List.mem_append, List.mem_cons] at own
      rcases own with inX | rfl | inY
      · exact ⟨p, by simp [ofP], by simp [Nodes.join, inX]⟩
      · exact ⟨n, ofN, by simp [Nodes.join, Pn.symm]⟩
      · exact ⟨p, by simp [ofP], by simp [Nodes.join, inY]⟩
    by_cases is₁ : p = c₁
    · subst is₁
      exact ⟨n, ofN, by simp [Nodes.join, Pn.symm, own]⟩
    by_cases is₂ : p = c₂
    · subst is₂
      exact ⟨n, ofN, by simp [Nodes.join, Pn.symm, own]⟩
    · have notN : p ≠ n := by rcases kept with rfl | rfl <;> assumption
      exact ⟨p, by simpa [joined, notN, is₁, is₂] using some, by simpa [Nodes.join, isP, notN] using own⟩

/-- The entries of two neighbours and the one between them are distributed anew. -/
theorem Labelled.rotate {L R : List (κ × δ)} {z : κ × δ} {C D : List ι} (labelled : Labelled V g root height)
    (label : g P = some (h + 1, lo, hi)) (items : V.items P = X ++ w :: Y)
    (kids : V.kids P = A ++ c₁ :: c₂ :: B) (place : A.length = X.length)
    (onlyUp : ∀ p l, g p = some l → c₁ ∈ V.kids p ∨ c₂ ∈ V.kids p → p = P)
    (entries : V.items c₁ ++ w :: V.items c₂ = L ++ z :: R) (below : V.kids c₁ ++ V.kids c₂ = C ++ D)
    (fits : h ≠ 0 → C.length = L.length + 1) :
    Labelled (((V.set c₁ L C).set c₂ R D).set P (X ++ z :: Y) (A ++ c₁ :: c₂ :: B))
        (halves g c₁ c₂ h (lastKey lo X) z.1 (firstKey hi Y)) root height ∧
      ∀ x, Held (((V.set c₁ L C).set c₂ R D).set P (X ++ z :: Y) (A ++ c₁ :: c₂ :: B))
        (halves g c₁ c₂ h (lastKey lo X) z.1 (firstKey hi Y)) x ↔ Held V g x := by
  have inner := labelled.inner label
  rw [items, kids] at inner
  have label₁ : g c₁ = some (h, lastKey lo X, (w.1 : WithTop κ)) := inner.kid_label (Y := w :: Y) place
  obtain ⟨a, b, label₂⟩ := inner.label_of_mem (c := c₂) (by simp)
  have P₁ : P ≠ c₁ := by rintro rfl; simp [label₁] at label
  have P₂ : P ≠ c₂ := by rintro rfl; simp [label₂] at label
  have nodup := labelled.kids_nodup label
  rw [kids, List.nodup_middle, List.nodup_cons] at nodup
  have apart : c₁ ≠ c₂ := fun same => nodup.1 (by simp [same])
  have whole := labelled.join label items kids place (Or.inl rfl) onlyUp
  set V₁ := V.join P c₁ c₂ c₁ X Y w A B with V₁_def
  set g₁ := joined g c₁ c₂ c₁ h (lastKey lo X) (firstKey hi Y) with g₁_def
  have ofP : g₁ P = some (h + 1, lo, hi) := by simp [g₁_def, joined, P₁, P₂, label]
  have of₁ : g₁ c₁ = some (h, lastKey lo X, firstKey hi Y) := by simp [g₁_def, joined]
  have of₂ : g₁ c₂ = none := by simp [g₁_def, joined, apart.symm]
  have onlyUp₁ : ∀ p l, g₁ p = some l → c₁ ∈ V₁.kids p → p = P := by
    intro p l labelp isKid
    by_contra isP
    by_cases is₁ : p = c₁
    · subst is₁
      have : p ∈ V.kids p ∨ p ∈ V.kids c₂ := by simpa [V₁_def, Nodes.join, isP] using isKid
      rcases this with in₁ | in₂
      · exact P₁ (onlyUp _ _ label₁ (Or.inl in₁)).symm
      · exact P₂ (onlyUp _ _ label₂ (Or.inl in₂)).symm
    · simp only [g₁_def, joined, is₁, if_false, false_or] at labelp
      split_ifs at labelp with is₂
      exact isP (onlyUp p l labelp (Or.inl (by simpa [V₁_def, Nodes.join, isP, is₁] using isKid)))
  have sameNodes : ((V₁.set c₁ L C).set c₂ R D).set P (X ++ z :: Y) (A ++ c₁ :: c₂ :: B) =
      ((V.set c₁ L C).set c₂ R D).set P (X ++ z :: Y) (A ++ c₁ :: c₂ :: B) := by
    ext1
    all_goals
      funext p
      by_cases isP : p = P <;> by_cases is₁ : p = c₁ <;> simp [V₁_def, Nodes.join, isP, is₁]
  have sameLabels : halves g₁ c₁ c₂ h (lastKey lo X) z.1 (firstKey hi Y) = halves g c₁ c₂ h
    (lastKey lo X) z.1 (firstKey hi Y) := by
    funext p
    by_cases is₁ : p = c₁ <;> by_cases is₂ : p = c₂ <;> simp [halves, g₁_def, joined, is₁, is₂]
  have items₁ : V₁.items c₁ = L ++ z :: R := by simp [V₁_def, Nodes.join, P₁.symm, entries]
  have itemsP : V₁.items P = X ++ Y := by simp [V₁_def, Nodes.join]
  have cut := whole.split (n := c₂) (C := C) (D := D) (A := A) (B := B) of₁ of₂ items₁
    (by simp [V₁_def, Nodes.join, P₁.symm, below]) fits ofP itemsP (by simp [V₁_def, Nodes.join]) place onlyUp₁
  have heldCut := held_cut (V := V₁) (g := g₁)
    (f := halves g₁ c₁ c₂ h (lastKey lo X) z.1 (firstKey hi Y)) (q := c₁) (n := c₂) (P := P) (C := C)
    (D := D) (E := A ++ c₁ :: c₂ :: B) (by simp [of₁]) of₂ P₁ P₂ apart items₁
    (Or.inl ⟨by simp [ofP], itemsP⟩) (by simp [halves]) (by simp [halves, apart.symm])
    (by simp [halves, P₁, P₂, ofP]) (fun p is₁ is₂ _ => by simp [halves, is₁, is₂])
  rw [sameNodes, sameLabels] at cut heldCut
  exact ⟨cut, fun x => (heldCut x).trans (held_join label₁ label₂ label P₁ P₂ items (Or.inl rfl) x)⟩

/-- A root without entries gives way to its only child. -/
theorem Labelled.collapse {c : ι} (labelled : Labelled V g root (height + 1))
    (items : V.items root = []) (kids : V.kids root = [c]) :
    Labelled V (fun p => if p = root then none else g p) c height ∧
      ∀ x, Held V (fun p => if p = root then none else g p) x ↔ Held V g x := by
  have top := labelled.top
  have inner := labelled.inner top
  rw [items, kids] at inner
  have labelC : g c = some (height, ⊥, ⊤) := inner
  have notRoot : c ≠ root := by
    rintro rfl
    exact labelled.root_not_kid top (by simp [kids])
  have same : ∀ p l, g p = some l → ∀ d ∈ V.kids p, (if d = root then none else g d) = g d := by
    intro p l label d isKid
    rw [if_neg]
    rintro rfl
    exact labelled.root_not_kid label isKid
  refine ⟨labelled.patch [root] ?_ ?_ ?_ ?_ ?_ ?_, fun x => ?_⟩
  · intro p outside
    have isRoot : p ≠ root := by simpa using outside
    simp [isRoot]
  · exact fun p _ l label d isKid => same p l label d isKid
  · intro p touched h' lo' hi' label
    simp [List.mem_singleton.mp touched] at label
  · simp [notRoot, labelC]
  · intro p h' lo' hi' label
    have isRoot : p ≠ root := by
      rintro rfl
      simp at label
    simp only [isRoot, if_false] at label
    obtain ⟨u, ⟨hu, _, _⟩, labelU, isKid⟩ := (labelled.up label).resolve_left isRoot
    obtain ⟨h'', _, _, rfl, labelP⟩ := labelled.kid labelU isKid
    obtain ⟨rfl, -⟩ := Prod.mk.inj (Option.some.inj (label.symm.trans labelP))
    rcases labelled.low labelU with rfl | below
    · rw [kids] at isKid
      exact Or.inl (by simpa using isKid)
    · exact Or.inr (by omega)
  · intro p l label
    have isRoot : p ≠ root := by
      rintro rfl
      simp at label
    simp only [isRoot, if_false] at label
    obtain ⟨u, l', labelU, isKid⟩ := (labelled.up label).resolve_left isRoot
    by_cases fromRoot : u = root
    · subst fromRoot
      rw [kids] at isKid
      exact Or.inl (by simpa using isKid)
    · exact Or.inr ⟨u, l', by simpa [fromRoot] using labelU, isKid⟩
  · constructor
    · rintro ⟨p, some, own⟩
      have isRoot : p ≠ root := by
        rintro rfl
        simp at some
      exact ⟨p, by simpa [isRoot] using some, own⟩
    · rintro ⟨p, some, own⟩
      have isRoot : p ≠ root := by
        rintro rfl
        simp [items] at own
      exact ⟨p, by simpa [isRoot] using some, own⟩

end Join

end SearchTree
