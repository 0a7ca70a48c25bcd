import MiyaCore.SearchTree.Splits

/-!
# What the bounds of a label say

The entries below a node are those of the whole tree between its bounds, and an
entry is in one node only. With these, an entry of an inner node can be replaced
by the greatest one below the child to its left.
-/

namespace SearchTree

variable {ι κ δ : Type*}

section Kids
variable [LinearOrder κ] {g : ι → Option (Label κ)} {h : Nat} {lo : WithBot κ} {X Y : List (κ × δ)}
    {hi : WithTop κ} {A B : List ι} {c d : ι}

omit [LinearOrder κ] in
/-- A child on the left ends below one of the entries on the left. -/
theorem KidsAt.left_kid (kids : KidsAt g h lo (X ++ Y) hi (A ++ c :: B)) (fits : A.length = X.length)
    (member : d ∈ A) :
    ∃ a, ∃ x ∈ X, g d = some (h, a, (x.1 : WithTop κ)) := by
  induction X generalizing lo A with
  | nil =>
    obtain rfl := List.length_eq_zero_iff.mp fits
    simp at member
  | cons x X ih =>
    match A, fits with
    | e :: A, fits =>
      rcases List.mem_cons.mp member with rfl | inner
      · exact ⟨lo, x, by simp, kids.1⟩
      · obtain ⟨a, x', inX, label⟩ := ih kids.2 (by simpa using fits) inner
        exact ⟨a, x', List.mem_cons_of_mem _ inX, label⟩

/-- A child on the right begins above one of the entries on the right. -/
theorem KidsAt.right_kid (kids : KidsAt g h lo (X ++ Y) hi (A ++ c :: B)) (fits : A.length = X.length)
    (spaced : Spaced lo (X ++ Y) hi) (member : d ∈ B) :
    ∃ a b, ∃ y ∈ Y, g d = some (h, a, b) ∧ (y.1 : WithBot κ) ≤ a := by
  induction X generalizing lo A with
  | nil =>
    obtain rfl := List.length_eq_zero_iff.mp fits
    cases Y with
    | nil =>
      cases B with
      | nil => simp at member
      | cons _ _ => exact kids.elim
    | cons y Y =>
      obtain ⟨a, b, label, above⟩ := kids.2.lower_le spaced.2.2 member
      exact ⟨a, b, y, by simp, label, above⟩
  | cons x X ih =>
    match A, fits with
    | e :: A, fits => exact ih kids.2 (by simpa using fits) spaced.2.2

end Kids


section Order
variable [LinearOrder κ] {lo : WithBot κ} {X Y : List (κ × δ)} {hi : WithTop κ}

theorem Spaced.mem_le_lastKey (spaced : Spaced lo (X ++ Y) hi) {x : κ × δ} (member : x ∈ X) :
    (x.1 : WithBot κ) ≤ lastKey lo X := by
  induction X generalizing lo with
  | nil => simp at member
  | cons y X ih =>
    rcases List.mem_cons.mp member with rfl | inner
    · have tail : Spaced (x.1 : WithBot κ) X hi := by
        have rest := spaced_iff.mp spaced.2.2
        exact spaced_iff.mpr ⟨(List.pairwise_append.mp rest.1).1,
          fun z inner => rest.2 z (List.mem_append_left _ inner)⟩
      exact tail.le_lastKey
    · exact ih spaced.2.2 inner

theorem Spaced.firstKey_le_mem (spaced : Spaced lo (X ++ Y) hi) {y : κ × δ} (member : y ∈ Y) :
    firstKey hi Y ≤ (y.1 : WithTop κ) := by
  cases Y with
  | nil => simp at member
  | cons z Y =>
    rcases List.mem_cons.mp member with rfl | inner
    · exact le_rfl
    · have rest := (List.pairwise_append.mp (spaced_iff.mp spaced).1).2.1
      exact (WithTop.coe_lt_coe.mpr ((List.pairwise_cons.mp rest).1 y inner)).le

theorem Spaced.lo_le_lastKey (spaced : Spaced lo (X ++ Y) hi) : lo ≤ lastKey lo X := by
  have own := spaced_iff.mp spaced
  exact (spaced_iff.mpr ⟨(List.pairwise_append.mp own.1).1,
    fun x member => own.2 x (List.mem_append_left _ member)⟩ : Spaced lo X hi).le_lastKey

theorem Spaced.firstKey_le_hi (spaced : Spaced lo (X ++ Y) hi) : firstKey hi Y ≤ hi := by
  cases Y with
  | nil => exact le_rfl
  | cons y Y => exact ((spaced_iff.mp spaced).2 y (by simp)).2.le

end Order

namespace Labelled
variable [LinearOrder κ] {V : Nodes ι κ δ} {g : ι → Option (Label κ)} {root : ι} {height : Nat}

/-- A node other than the root, in the node above it. -/
theorem above (labelled : Labelled V g root height) {p : ι} {h : Nat} {a : WithBot κ} {b : WithTop κ}
    (label : g p = some (h, a, b)) (notRoot : p ≠ root) :
    ∃ u lo hi X Y A B, g u = some (h + 1, lo, hi) ∧ V.items u = X ++ Y ∧ V.kids u = A ++ p :: B ∧
      A.length = X.length ∧
      a = lastKey lo X ∧ b = firstKey hi Y := by
  obtain ⟨u, ⟨h', lo, hi⟩, labelU, isKid⟩ := (labelled.up label).resolve_left notRoot
  obtain ⟨h'', _, _, rfl, labelP⟩ := labelled.kid labelU isKid
  obtain ⟨rfl, -⟩ := Prod.mk.inj (Option.some.inj (label.symm.trans labelP))
  have inner := labelled.inner labelU
  have size := inner.length
  obtain ⟨A, B, kids⟩ := List.append_of_mem isKid
  rw [kids, List.length_append, List.length_cons] at size
  have split : V.items u = (V.items u).take A.length ++ (V.items u).drop A.length :=
    (List.take_append_drop _ _).symm
  have place : A.length = ((V.items u).take A.length).length := by
    rw [List.length_take]
    omega
  rw [split, kids] at inner
  have same := (inner.kid_label place).symm.trans label
  simp only [Option.some.injEq, Prod.mk.injEq, true_and] at same
  exact ⟨u, lo, hi, _, _, A, B, labelU, split, kids, place, same.1.symm, same.2.symm⟩

/-- The bounds of a node are within those of the node above it. -/
theorem within (labelled : Labelled V g root height) {u : ι} {h : Nat} {lo : WithBot κ} {hi : WithTop κ}
    {X Y : List (κ × δ)} {k : κ} (label : g u = some (h, lo, hi)) (items : V.items u = X ++ Y)
    (above : lastKey lo X < (k : WithBot κ)) (below : (k : WithTop κ) < firstKey hi Y) :
    lo < (k : WithBot κ) ∧ (k : WithTop κ) < hi := by
  have spaced := labelled.spaced label
  rw [items] at spaced
  exact ⟨spaced.lo_le_lastKey.trans_lt above, below.trans_le spaced.firstKey_le_hi⟩

/-- The place of a key among the children of a node. -/
theorem place_le (labelled : Labelled V g root height) {u : ι} {h : Nat} {lo : WithBot κ}
    {hi : WithTop κ} {X Y X' Y' : List (κ × δ)} {k : κ} (label : g u = some (h, lo, hi))
    (items : V.items u = X ++ Y) (items' : V.items u = X' ++ Y')
    (below : (k : WithTop κ) < firstKey hi Y) (above : lastKey lo X' < (k : WithBot κ)) :
    X'.length ≤ X.length := by
  by_contra longer
  have spaced := labelled.spaced label
  obtain ⟨Z, rfl⟩ : X <+: X' :=
    List.prefix_of_prefix_length_le (show X <+: V.items u from ⟨Y, items.symm⟩) ⟨Y', items'.symm⟩ (by omega)
  cases Z with
  | nil => simp at longer
  | cons z Z =>
    have tail : Y = z :: (Z ++ Y') := by simpa [items] using items'
    rw [tail] at below
    rw [items'] at spaced
    have reached := spaced.mem_le_lastKey (x := z) (by simp)
    exact lt_asymm (WithTop.coe_lt_coe.mp below) (WithBot.coe_lt_coe.mp (reached.trans_lt above))

/-- Two nodes of one height have no key between the bounds of both. -/
theorem eq_of_height (labelled : Labelled V g root height) {k : κ} {p p' : ι} {h : Nat}
    {a a' : WithBot κ} {b b' : WithTop κ} (label : g p = some (h, a, b))
    (label' : g p' = some (h, a', b')) (inside : a < (k : WithBot κ) ∧ (k : WithTop κ) < b)
    (inside' : a' < (k : WithBot κ) ∧ (k : WithTop κ) < b') : p = p' := by
  -- induction on the distance to the root
  obtain ⟨n, distance⟩ : ∃ n, height - h = n := ⟨_, rfl⟩
  induction n generalizing p p' h a a' b b' with
  | zero =>
    rcases labelled.low label with rfl | below
    · rcases labelled.low label' with rfl | below
      · rfl
      · omega
    · omega
  | succ n ih =>
    have notRoot : ∀ {q c d}, g q = some (h, c, d) → q ≠ root := by
      rintro q c d labelQ rfl
      obtain ⟨rfl, -⟩ := Prod.mk.inj (Option.some.inj (labelQ.symm.trans labelled.top))
      omega
    obtain ⟨u, lo, hi, X, Y, A, B, labelU, items, kids, place, rfl, rfl⟩ := labelled.above label (notRoot label)
    obtain ⟨u', lo', hi', X', Y', A', B', labelU', items', kids', place', rfl, rfl⟩ :=
      labelled.above label' (notRoot label')
    obtain rfl := ih labelU labelU' (labelled.within labelU items inside.1 inside.2)
      (labelled.within labelU' items' inside'.1 inside'.2) (by omega)
    obtain ⟨rfl, rfl⟩ : lo = lo' ∧ hi = hi' := by simpa using labelU.symm.trans labelU'
    have first := labelled.place_le labelU items items' inside.2 inside'.1
    have second := labelled.place_le labelU items' items inside'.2 inside.1
    obtain ⟨-, same⟩ := List.append_inj (kids.symm.trans kids') (by omega)
    exact (List.cons.inj same).1

/-- An entry of a node is not between the bounds of a node below it. -/
theorem own_not_inside (labelled : Labelled V g root height) {u : ι} {h : Nat} {lo : WithBot κ}
    {hi : WithTop κ} {X Y : List (κ × δ)} {x : κ × δ} (label : g u = some (h, lo, hi))
    (items : V.items u = X ++ Y) (member : x ∈ V.items u) (above : lastKey lo X < (x.1 : WithBot κ))
    (below : (x.1 : WithTop κ) < firstKey hi Y) : False := by
  have spaced := labelled.spaced label
  rw [items] at spaced member
  rcases List.mem_append.mp member with inX | inY
  · exact absurd above (spaced.mem_le_lastKey inX).not_gt
  · exact absurd below (spaced.firstKey_le_mem inY).not_gt

/-- A node with a key between its bounds is at least as high as the node that has the key. -/
theorem height_le (labelled : Labelled V g root height) {p q : ι} {h h' : Nat} {a a' : WithBot κ}
    {b b' : WithTop κ} {x : κ × δ} (label : g p = some (h, a, b)) (own : x ∈ V.items p)
    (label' : g q = some (h', a', b')) (inside : a' < (x.1 : WithBot κ) ∧ (x.1 : WithTop κ) < b') : h ≤ h' := by
  -- climb from `q` to the height of `p`
  obtain ⟨n, distance⟩ : ∃ n, height - h' = n := ⟨_, rfl⟩
  have inP := (spaced_iff.mp (labelled.spaced label)).2 x own
  induction n generalizing q h' a' b' with
  | zero =>
    rcases labelled.low label with rfl | below
    · obtain ⟨rfl, -⟩ := Prod.mk.inj (Option.some.inj (label.symm.trans labelled.top))
      omega
    · omega
  | succ n ih =>
    have notRoot : q ≠ root := by
      rintro rfl
      obtain ⟨rfl, -⟩ := Prod.mk.inj (Option.some.inj (label'.symm.trans labelled.top))
      omega
    obtain ⟨u, lo, hi, X, Y, A, B, labelU, items, kids, place, rfl, rfl⟩ := labelled.above label' notRoot
    have inU := labelled.within labelU items inside.1 inside.2
    have higher := ih labelU inU (by omega)
    by_contra lower
    obtain rfl : h = h' + 1 := by omega
    obtain rfl := labelled.eq_of_height label labelU inP inU
    obtain ⟨rfl, rfl⟩ : a = lo ∧ b = hi := by simpa using label.symm.trans labelU
    exact labelled.own_not_inside labelU items own inside.1 inside.2

/-- A key is in one node only. -/
theorem holder_unique (labelled : Labelled V g root height) {p q : ι} {l l' : Label κ} {x y : κ × δ}
    (label : g p = some l) (label' : g q = some l') (own : x ∈ V.items p) (own' : y ∈ V.items q)
    (same : x.1 = y.1) : p = q := by
  obtain ⟨h, a, b⟩ := l
  obtain ⟨h', a', b'⟩ := l'
  have inP := (spaced_iff.mp (labelled.spaced label)).2 x own
  have inQ := (spaced_iff.mp (labelled.spaced label')).2 y own'
  have inQ' := inQ
  rw [← same] at inQ'
  have inP' := inP
  rw [same] at inP'
  obtain rfl : h = h' := le_antisymm (labelled.height_le label own label' inQ')
    (labelled.height_le label' own' label inP')
  exact labelled.eq_of_height label label' inP inQ'

/-- The entries below a node are those of the tree between its bounds. -/
theorem mem_inorder_iff_bounds (labelled : Labelled V g root height) {p : ι} {h : Nat} {a : WithBot κ}
    {b : WithTop κ} (label : g p = some (h, a, b)) (x : κ × δ) :
    x ∈ inorder V h p ↔ Held V g x ∧ a < (x.1 : WithBot κ) ∧ (x.1 : WithTop κ) < b := by
  constructor
  · intro member
    refine ⟨?_, (spaced_iff.mp (labelled.inorder_spaced label)).2 x member⟩
    induction h generalizing p a b with
    | zero => exact ⟨p, by simp [label], member⟩
    | succ h ih =>
      rcases (labelled.mem_inorder_succ label x).mp member with own | ⟨c, isKid, inKid⟩
      · exact ⟨p, by simp [label], own⟩
      · obtain ⟨a', b', labelC⟩ := (labelled.inner label).label_of_mem isKid
        exact ih labelC inKid
  · rintro ⟨⟨q, isLabelled, own⟩, inside⟩
    obtain ⟨⟨h', a', b'⟩, labelQ⟩ := Option.isSome_iff_exists.mp isLabelled
    have lower := labelled.height_le labelQ own label inside
    have inQ := (spaced_iff.mp (labelled.spaced labelQ)).2 x own
    -- climb from `q` to the height of `p`
    have climb : ∀ n u hu lo hi, g u = some (hu, lo, hi) → lo < (x.1 : WithBot κ) ∧
      (x.1 : WithTop κ) < hi → hu + n = h →
        x ∈ inorder V hu u → x ∈ inorder V h p := by
      intro n
      induction n with
      | zero =>
        rintro u hu lo hi labelU inU rfl member
        obtain rfl := labelled.eq_of_height label labelU inside inU
        exact member
      | succ n ih =>
        intro u hu lo hi labelU inU distance member
        have notRoot : u ≠ root := by
          rintro rfl
          obtain ⟨rfl, -⟩ := Prod.mk.inj (Option.some.inj (labelU.symm.trans labelled.top))
          rcases labelled.low label with rfl | below
          · obtain ⟨rfl, -⟩ := Prod.mk.inj (Option.some.inj (label.symm.trans labelled.top))
            omega
          · omega
        obtain ⟨v, lo', hi', X, Y, A, B, labelV, items, kids, place, rfl, rfl⟩ := labelled.above labelU notRoot
        exact ih v (hu + 1) lo' hi' labelV (labelled.within labelV items inU.1 inU.2) (by omega)
          ((labelled.mem_inorder_succ labelV x).mpr (Or.inr ⟨u, by simp [kids], member⟩))
    refine climb (h - h') q h' a' b' labelQ inQ (by omega) ?_
    cases h' with
    | zero => exact own
    | succ h' => exact (labelled.mem_inorder_succ labelQ x).mpr (Or.inl own)

end Labelled

/-- The leaf reached from a node by going to the last child each time. -/
inductive LastLeaf (V : Nodes ι κ δ) : ι → ι → Prop
  | leaf {p} (kids : V.kids p = []) : LastLeaf V p p
  | last {p c q A} (kids : V.kids p = A ++ [c]) (below : LastLeaf V c q) : LastLeaf V p q

section LastLeaf
variable [LinearOrder κ] {V : Nodes ι κ δ} {g : ι → Option (Label κ)} {root : ι} {height : Nat}

theorem Labelled.last_kid (labelled : Labelled V g root height) {p c : ι} {h : Nat} {a : WithBot κ}
    {b : WithTop κ} {A : List ι} (label : g p = some (h, a, b)) (kids : V.kids p = A ++ [c]) :
    ∃ h', h = h' + 1 ∧ g c = some (h', lastKey a (V.items p), b) := by
  obtain ⟨h', _, _, rfl, _⟩ := labelled.kid (c := c) label (by simp [kids])
  have inner := labelled.inner label
  have size := inner.length
  rw [kids] at inner size
  refine ⟨h', rfl, ?_⟩
  exact KidsAt.kid_label (X := V.items p) (Y := []) (B := []) (by simpa using inner) (by simpa using size)

theorem LastLeaf.label (labelled : Labelled V g root height) {p q : ι} (lastLeaf : LastLeaf V p q)
    {h : Nat} {a : WithBot κ} {b : WithTop κ} (label : g p = some (h, a, b)) : ∃ a', g q = some (0, a', b) := by
  induction lastLeaf generalizing h a with
  | @leaf p kids =>
    cases h with
    | zero => exact ⟨a, label⟩
    | succ h =>
      have size := (labelled.inner label).length
      simp [kids] at size
  | @last p c q A kids below ih =>
    obtain ⟨h', rfl, labelC⟩ := labelled.last_kid label kids
    exact ih labelC

theorem Labelled.exists_lastLeaf (labelled : Labelled V g root height) {p : ι} {h : Nat} {a : WithBot κ}
    {b : WithTop κ} (label : g p = some (h, a, b)) : ∃ q, LastLeaf V p q := by
  induction h generalizing p a b with
  | zero => exact ⟨p, LastLeaf.leaf (labelled.leaf label)⟩
  | succ h ih =>
    have size := (labelled.inner label).length
    obtain ⟨A, c, kids⟩ := (V.kids p).eq_nil_or_concat.resolve_left fun none => by simp [none] at size
    rw [List.concat_eq_append] at kids
    obtain ⟨h', same, labelC⟩ := labelled.last_kid label kids
    obtain rfl : h = h' := by simpa using same
    obtain ⟨q, below⟩ := ih labelC
    exact ⟨q, LastLeaf.last kids below⟩

/-- The last entry of the last leaf is the greatest below the node. -/
theorem LastLeaf.greatest (labelled : Labelled V g root height) {p q : ι} (lastLeaf : LastLeaf V p q)
    {h : Nat} {a : WithBot κ} {b : WithTop κ} (label : g p = some (h, a, b)) {l : List (κ × δ)}
    {m : κ × δ} (items : V.items q = l ++ [m]) :
    m ∈ inorder V h p ∧ ∀ x ∈ inorder V h p, x.1 ≤ m.1 := by
  induction lastLeaf generalizing h a with
  | @leaf p kids =>
    cases h with
    | zero =>
      refine ⟨by simp [inorder, items], fun x member => ?_⟩
      have sorted := (spaced_iff.mp (labelled.spaced label)).1
      rw [items, List.pairwise_append] at sorted
      rw [inorder, items, List.mem_append] at member
      rcases member with inL | isM
      · exact (sorted.2.2 x inL m (by simp)).le
      · rw [List.mem_singleton.mp isM]
    | succ h =>
      have size := (labelled.inner label).length
      simp [kids] at size
  | @last p c q A kids below ih =>
    obtain ⟨h', rfl, labelC⟩ := labelled.last_kid label kids
    obtain ⟨member, greatest⟩ := ih labelC items
    have boundsM := ((labelled.mem_inorder_iff_bounds labelC m).mp member).2
    refine ⟨(labelled.mem_inorder_succ label m).mpr (Or.inr ⟨c, by simp [kids], member⟩), fun x inP => ?_⟩
    have boundsX := (labelled.mem_inorder_iff_bounds label x).mp inP
    by_cases inside : lastKey a (V.items p) < (x.1 : WithBot κ)
    · exact greatest x ((labelled.mem_inorder_iff_bounds labelC x).mpr ⟨boundsX.1, inside, boundsX.2.2⟩)
    · exact (WithBot.coe_lt_coe.mp ((not_lt.mp inside).trans_lt boundsM.1)).le

end LastLeaf

section Replace
variable [LinearOrder κ]

/-- A label with the key `m` for the key `k` in its bounds. -/
def rebound (k m : κ) (l : Label κ) : Label κ :=
  (l.1, if l.2.1 = (k : WithBot κ) then (m : WithBot κ) else l.2.1, if l.2.2 = (k : WithTop κ) then
  (m : WithTop κ) else l.2.2)

theorem KidsAt.rebound {g : ι → Option (Label κ)} {h : Nat} {a : WithBot κ} {xs : List (κ × δ)}
    {b : WithTop κ} {cs : List ι} {k m : κ} (kids : KidsAt g h a xs b cs) (apart : ∀ x ∈ xs, x.1 ≠ k) :
    KidsAt (fun p => (g p).map (SearchTree.rebound k m)) h
      (if a = (k : WithBot κ) then (m : WithBot κ) else a) xs
      (if b = (k : WithTop κ) then (m : WithTop κ) else b) cs := by
  obtain ⟨c, cs, rfl⟩ := List.exists_cons_of_length_eq_add_one kids.length
  induction xs generalizing a c cs with
  | nil =>
    obtain rfl := List.length_eq_zero_iff.mp (Nat.succ.inj kids.length)
    simp [KidsAt, show g c = _ from kids, SearchTree.rebound]
  | cons x xs ih =>
    obtain ⟨c', cs, rfl⟩ := List.exists_cons_of_length_eq_add_one (Nat.succ.inj kids.length)
    have notK : x.1 ≠ k := apart x (by simp)
    have rest := ih (fun y member => apart y (List.mem_cons_of_mem _ member)) c' cs kids.2
    refine ⟨?_, ?_⟩
    · simp [kids.1, SearchTree.rebound, notK]
    · simpa [notK] using rest

variable [DecidableEq ι] {V : Nodes ι κ δ} {g : ι → Option (Label κ)} {root q M c : ι} {height h : Nat}
    {lo : WithBot κ} {hi : WithTop κ} {k m : κ × δ} {R l : List (κ × δ)} {B : List ι}

/-- The first entry of an inner node is replaced by the greatest below its first child, which is taken
out of its leaf. -/
theorem Labelled.replace (labelled : Labelled V g root height) (label : g q = some (h + 1, lo, hi))
    (items : V.items q = k :: R) (kids : V.kids q = c :: B) (lastLeaf : LastLeaf V c M)
    (itemsM : V.items M = l ++ [m]) :
    Labelled ((V.set q (m :: R) (V.kids q)).set M l (V.kids M))
      (fun p => (g p).map (rebound k.1 m.1)) root height ∧
      ∀ x, Held ((V.set q (m :: R) (V.kids q)).set M l (V.kids M)) (fun p => (g p).map (rebound k.1 m.1)) x ↔
        Held V g x ∧ x.1 ≠ k.1 := by
  have inner := labelled.inner label
  have spaced := labelled.spaced label
  rw [items, kids] at inner
  rw [items] at spaced
  have labelC : g c = some (h, lo, (k.1 : WithTop κ)) := inner.1
  obtain ⟨aM, labelM⟩ := lastLeaf.label labelled labelC
  obtain ⟨memberM, greatest⟩ := lastLeaf.greatest labelled labelC itemsM
  have boundsM := ((labelled.mem_inorder_iff_bounds labelC m).mp memberM).2
  have less : m.1 < k.1 := WithTop.coe_lt_coe.mp boundsM.2
  have Mq : M ≠ q := by
    rintro rfl
    simp [label] at labelM
  have ownK : k ∈ V.items q := by simp [items]
  have ownM : m ∈ V.items M := by simp [itemsM]
  -- the key `k` is nowhere else, and no key is between `m` and `k`
  have notK : ∀ p l, g p = some l → p ≠ q → ∀ x ∈ V.items p, x.1 ≠ k.1 := fun p l labelp other x own same =>
    other (labelled.holder_unique labelp label own ownK same)
  have notM : ∀ p l, g p = some l → p ≠ M → ∀ x ∈ V.items p, x.1 ≠ m.1 := fun p l labelp other x own same =>
    other (labelled.holder_unique labelp labelM own ownM same)
  have gap : ∀ p l, g p = some l → ∀ x ∈ V.items p, x.1 < k.1 → x.1 ≤ m.1 := by
    intro p l labelp x own below
    by_contra above
    refine above (greatest x ((labelled.mem_inorder_iff_bounds labelC x).mpr
      ⟨⟨p, by simp [labelp], own⟩, ?_, ?_⟩))
    · exact boundsM.1.trans (WithBot.coe_lt_coe.mpr (not_le.mp above))
    · exact WithTop.coe_lt_coe.mpr below
  have sameKids : ∀ p, ((V.set q (m :: R) (V.kids q)).set M l (V.kids M)).kids p = V.kids p := by
    intro p
    by_cases isM : p = M
    · simp [isM]
    · by_cases isQ : p = q
      · simp [isQ, Mq.symm]
      · simp [isM, isQ]
  have labels : ∀ {p l'}, (g p).map (rebound k.1 m.1) = some l' → ∃ l, g p = some l ∧
    rebound k.1 m.1 l = l' := fun labelp =>
    Option.map_eq_some_iff.mp labelp
  -- the other keys of a node are inside its new bounds
  have inside : ∀ {p h' a b}, g p = some (h', a, b) → ∀ x ∈ V.items p, x.1 ≠ k.1 → x.1 ≠ m.1 →
      (if a = (k.1 : WithBot κ) then (m.1 : WithBot κ) else a) < (x.1 : WithBot κ) ∧
        (x.1 : WithTop κ) < (if b = (k.1 : WithTop κ) then (m.1 : WithTop κ) else b) := by
    intro p h' a b labelp x own notK' notM'
    have bounds := (spaced_iff.mp (labelled.spaced labelp)).2 x own
    constructor
    · split_ifs with isK
      · rw [isK] at bounds
        exact WithBot.coe_lt_coe.mpr (less.trans (WithBot.coe_lt_coe.mp bounds.1))
      · exact bounds.1
    · split_ifs with isK
      · rw [isK] at bounds
        have below := gap p _ labelp x own (WithTop.coe_lt_coe.mp bounds.2)
        exact WithTop.coe_lt_coe.mpr (lt_of_le_of_ne below notM')
      · exact bounds.2
  have spacedAll : ∀ {p h' a b}, g p = some (h', a, b) →
      Spaced (if a = (k.1 : WithBot κ) then (m.1 : WithBot κ) else a)
      (((V.set q (m :: R) (V.kids q)).set M l (V.kids M)).items p)
        (if b = (k.1 : WithTop κ) then (m.1 : WithTop κ) else b) := by
    intro p h' a b labelp
    have sorted := (spaced_iff.mp (labelled.spaced labelp)).1
    by_cases isM : p = M
    · subst isM
      rw [Nodes.set_items, if_pos rfl]
      rw [itemsM, List.pairwise_append] at sorted
      refine spaced_iff.mpr ⟨sorted.1, fun x member => inside labelp x (by simp [itemsM, member]) ?_ ?_⟩
      · exact notK p _ labelp Mq x (by simp [itemsM, member])
      · exact (sorted.2.2 x member m (by simp)).ne
    rw [Nodes.set_items, if_neg isM]
    by_cases isQ : p = q
    · subst isQ
      rw [Nodes.set_items, if_pos rfl]
      rw [items, List.pairwise_cons] at sorted
      obtain ⟨-, rfl, rfl⟩ : _ = h' ∧ lo = a ∧ hi = b := by simpa using label.symm.trans labelp
      have notLo : lo ≠ (k.1 : WithBot κ) := spaced.1.ne
      have notHi : hi ≠ (k.1 : WithTop κ) := spaced.2.1.ne'
      rw [if_neg notLo, if_neg notHi]
      refine ⟨boundsM.1, (WithTop.coe_lt_coe.mpr less).trans spaced.2.1, ?_⟩
      exact spaced.2.2.mono (WithBot.coe_lt_coe.mpr less).le le_rfl
    · rw [Nodes.set_items, if_neg isQ]
      exact spaced_iff.mpr ⟨sorted, fun x member => inside labelp x member
        (notK p _ labelp isQ x member) (notM p _ labelp isM x member)⟩
  refine ⟨⟨?_, ?_, ?_, ?_, ?_, ?_⟩, fun x => ⟨?_, ?_⟩⟩
  · simp [labelled.top, rebound]
  · intro p h' a b labelp
    obtain ⟨⟨h₀, a₀, b₀⟩, label₀, same⟩ := labels labelp
    obtain ⟨rfl, rfl, rfl⟩ : h₀ = h' ∧ _ = a ∧ _ = b := by simpa [rebound] using same
    exact spacedAll label₀
  · intro p a b labelp
    obtain ⟨⟨h₀, a₀, b₀⟩, label₀, same⟩ := labels labelp
    obtain ⟨rfl, -⟩ : h₀ = 0 ∧ _ := by simpa [rebound] using same
    rw [sameKids]
    exact labelled.leaf label₀
  · intro p h' a b labelp
    obtain ⟨⟨h₀, a₀, b₀⟩, label₀, same⟩ := labels labelp
    obtain ⟨rfl, rfl, rfl⟩ : h₀ = h' + 1 ∧ _ = a ∧ _ = b := by simpa [rebound] using same
    have isM : p ≠ M := by
      rintro rfl
      simp [labelM] at label₀
    rw [sameKids, Nodes.set_items, if_neg isM]
    by_cases isQ : p = q
    · subst isQ
      obtain ⟨rfl, rfl, rfl⟩ : h = h' ∧ lo = a₀ ∧ hi = b₀ := by simpa using label.symm.trans label₀
      rw [Nodes.set_items, if_pos rfl, kids]
      have notR : ∀ x ∈ R, x.1 ≠ k.1 := fun x member =>
        (WithBot.coe_lt_coe.mp ((spaced_iff.mp spaced.2.2).2 x member).1).ne'
      have rest := inner.2.rebound (m := m.1) notR
      rw [if_pos rfl] at rest
      exact ⟨by simp [labelC, rebound], rest⟩
    · rw [Nodes.set_items, if_neg isQ]
      exact (labelled.inner label₀).rebound (notK p _ label₀ isQ)
  · intro p h' a b labelp
    obtain ⟨⟨h₀, a₀, b₀⟩, label₀, same⟩ := labels labelp
    obtain ⟨rfl, -⟩ : h₀ = h' ∧ _ := by simpa [rebound] using same
    exact labelled.low label₀
  · intro p l' labelp
    obtain ⟨l₀, label₀, -⟩ := labels labelp
    refine (labelled.up label₀).imp id ?_
    rintro ⟨u, lU, labelU, isKid⟩
    exact ⟨u, _, by rw [labelU]; rfl, by rwa [sameKids]⟩
  · rintro ⟨p, isLabelled, own⟩
    obtain ⟨l₀, label₀⟩ : ∃ l₀, g p = some l₀ := Option.isSome_iff_exists.mp (by simpa using isLabelled)
    by_cases isM : p = M
    · subst isM
      rw [Nodes.set_items, if_pos rfl] at own
      have old : x ∈ V.items p := by simp [itemsM, own]
      exact ⟨⟨p, by simp [label₀], old⟩, notK p _ label₀ Mq x old⟩
    rw [Nodes.set_items, if_neg isM] at own
    by_cases isQ : p = q
    · subst isQ
      rw [Nodes.set_items, if_pos rfl] at own
      rcases List.mem_cons.mp own with rfl | inR
      · exact ⟨⟨M, by simp [labelM], ownM⟩, less.ne⟩
      · refine ⟨⟨p, by simp [label₀], by simp [items, inR]⟩, ?_⟩
        exact (WithBot.coe_lt_coe.mp ((spaced_iff.mp spaced.2.2).2 x inR).1).ne'
    · rw [Nodes.set_items, if_neg isQ] at own
      exact ⟨⟨p, by simp [label₀], own⟩, notK p _ label₀ isQ x own⟩
  · rintro ⟨⟨p, isLabelled, own⟩, different⟩
    by_cases isM : p = M
    · subst isM
      rw [itemsM, List.mem_append, List.mem_singleton] at own
      rcases own with inL | rfl
      · exact ⟨p, by simp [labelM], by simp [inL]⟩
      · exact ⟨q, by simp [label], by simp [Mq.symm]⟩
    by_cases isQ : p = q
    · subst isQ
      rw [items, List.mem_cons] at own
      rcases own with rfl | inR
      · exact absurd rfl different
      · exact ⟨p, by simp [label], by simp [isM, inR]⟩
    · exact ⟨p, by simpa using isLabelled, by simpa [isM, isQ] using own⟩

end Replace

end SearchTree
