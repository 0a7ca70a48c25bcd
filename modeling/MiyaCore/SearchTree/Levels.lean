import MiyaCore.SearchTree.Bounds

/-!
# Breadth-first order

The entries of a tree level by level. A search that goes down one child at a time
meets the entries it looks for in this order, if it leaves no such entry beside
its path.
-/

namespace SearchTree

variable {ι κ δ : Type*}

/-- The entries `j` levels below a node, from left to right. -/
def level (V : Nodes ι κ δ) : Nat → ι → List (κ × δ)
  | 0, p => V.items p
  | j + 1, p => (V.kids p).flatMap (level V j)

/-- The entries of a node of height `h` and below it, level by level. -/
def byLevel (V : Nodes ι κ δ) (h : Nat) (p : ι) : List (κ × δ) :=
  (List.range (h + 1)).flatMap fun j => level V j p

theorem byLevel_succ (V : Nodes ι κ δ) (h : Nat) (p : ι) :
    byLevel V (h + 1) p = V.items p ++ (List.range (h + 1)).flatMap
      fun j => (V.kids p).flatMap (level V j) := by
  rw [byLevel, List.range_succ_eq_map, List.flatMap_cons, List.flatMap_map]
  rfl

/-- A node's own entries come first. -/
theorem byLevel_eq (V : Nodes ι κ δ) (h : Nat) (p : ι) : ∃ rest, byLevel V h p = V.items p ++ rest := by
  rw [byLevel, List.range_succ_eq_map, List.flatMap_cons]
  exact ⟨_, rfl⟩

namespace Labelled
variable [LinearOrder κ] {V : Nodes ι κ δ} {g : ι → Option (Label κ)} {root : ι} {height : Nat}
    {p : ι} {h : Nat} {lo : WithBot κ} {hi : WithTop κ}

theorem mem_inorder_of_level (labelled : Labelled V g root height) {j : Nat}
    (label : g p = some (h, lo, hi)) {x : κ × δ} (member : x ∈ level V j p) : x ∈ inorder V h p := by
  induction j generalizing p h lo hi with
  | zero =>
    cases h with
    | zero => exact member
    | succ h => exact (labelled.mem_inorder_succ label x).mpr (Or.inl member)
  | succ j ih =>
    obtain ⟨c, isKid, below⟩ := List.mem_flatMap.mp member
    obtain ⟨h', a, b, rfl, labelC⟩ := labelled.kid label isKid
    exact (labelled.mem_inorder_succ label x).mpr (Or.inr ⟨c, isKid, ih labelC below⟩)

theorem mem_byLevel_of_inorder (labelled : Labelled V g root height)
    (label : g p = some (h, lo, hi)) {x : κ × δ} (member : x ∈ inorder V h p) : x ∈ byLevel V h p := by
  induction h generalizing p lo hi with
  | zero => simpa [byLevel, level, inorder] using member
  | succ h ih =>
    rw [byLevel_succ, List.mem_append]
    refine ((labelled.mem_inorder_succ label x).mp member).imp id ?_
    rintro ⟨c, isKid, below⟩
    obtain ⟨a, b, labelC⟩ := (labelled.inner label).label_of_mem isKid
    obtain ⟨j, inRange, atLevel⟩ := List.mem_flatMap.mp (ih labelC below)
    exact List.mem_flatMap.mpr ⟨j, inRange, List.mem_flatMap.mpr ⟨c, isKid, atLevel⟩⟩

/-- Entries that are neither in a node nor below the children beside `c` are below `c`. -/
theorem filter_byLevel (labelled : Labelled V g root height) {c : ι} {X Y : List (κ × δ)} {A B : List ι}
    {P : κ × δ → Bool} (label : g p = some (h + 1, lo, hi)) (items : V.items p = X ++ Y)
    (kids : V.kids p = A ++ c :: B) (fits : A.length = X.length) (own : ∀ x ∈ V.items p, ¬P x)
    (left : ∀ x ∈ X, ∀ z, z.1 < x.1 → ¬P z) (right : ∀ y ∈ Y, ∀ z, y.1 < z.1 → ¬P z) :
    (byLevel V (h + 1) p).filter P = (byLevel V h c).filter P := by
  have inner := labelled.inner label
  have spaced := labelled.spaced label
  rw [items] at inner spaced
  rw [kids] at inner
  have outside : ∀ j, ∀ d ∈ A ++ B, (level V j d).filter P = [] := by
    intro j d member
    rw [List.filter_eq_nil_iff]
    intro z atLevel
    rcases List.mem_append.mp member with inA | inB
    · obtain ⟨a, x, inX, labelD⟩ := inner.left_kid fits inA
      have bounds := (spaced_iff.mp (labelled.inorder_spaced labelD)).2 z
        (labelled.mem_inorder_of_level labelD atLevel)
      exact left x inX z (WithTop.coe_lt_coe.mp bounds.2)
    · obtain ⟨a, b, y, inY, labelD, above⟩ := inner.right_kid fits spaced inB
      have bounds := (spaced_iff.mp (labelled.inorder_spaced labelD)).2 z
        (labelled.mem_inorder_of_level labelD atLevel)
      exact right y inY z (WithBot.coe_lt_coe.mp (above.trans_lt bounds.1))
  have below : ∀ j, ((V.kids p).flatMap (level V j)).filter P = (level V j c).filter P := by
    intro j
    have none : ∀ l : List ι, (∀ d ∈ l, d ∈ A ++ B) → l.flatMap (fun d => (level V j d).filter P) = [] := by
      intro l inside
      rw [List.flatMap_eq_nil_iff]
      exact fun d member => outside j d (inside d member)
    rw [List.filter_flatMap, kids, List.flatMap_append, List.flatMap_cons, none A
      fun d => List.mem_append_left B, none B fun d => List.mem_append_right A]
    simp
  have ownNil : (V.items p).filter P = [] := List.filter_eq_nil_iff.mpr own
  rw [byLevel_succ, List.filter_append, ownNil, List.nil_append, byLevel, List.filter_flatMap,
    List.filter_flatMap]
  exact List.flatMap_congr fun j _ => below j

end Labelled

end SearchTree
