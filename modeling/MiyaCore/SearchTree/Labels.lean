import Mathlib.Order.WithBot
import Mathlib.Data.List.Sort
import Mathlib.Data.List.Perm.Basic

/-!
# Labelled search trees

A multiway search tree given by the entries and the children of each node. Its
shape and order are described by a label on each node: the height over the
leaves and the two keys between which all keys below it lie. Every condition
on the labels speaks of one node and its children.
-/

namespace SearchTree

variable {ι κ δ : Type*}

/-- The entries of each node and its children. -/
@[ext] structure Nodes (ι κ δ : Type*) where
  items : ι → List (κ × δ)
  kids : ι → List ι

/-- Lists with the elements of another list between them. -/
def weave {α : Type*} : List (List α) → List α → List α
  | l :: ls, x :: xs => l ++ x :: weave ls xs
  | l :: _, [] => l
  | [], _ => []

/-- The entries below a node in order, for a node of the given height. -/
def inorder (V : Nodes ι κ δ) : Nat → ι → List (κ × δ)
  | 0, p => V.items p
  | h + 1, p => weave ((V.kids p).map (inorder V h)) (V.items p)

section Order
variable [LinearOrder κ]

/-- Entries with increasing keys between two bounds. -/
def Spaced : WithBot κ → List (κ × δ) → WithTop κ → Prop
  | _, [], _ => True
  | lo, x :: xs, hi => lo < (x.1 : WithBot κ) ∧ (x.1 : WithTop κ) < hi ∧ Spaced (x.1 : WithBot κ) xs hi

end Order

/-- Height over the leaves, and the bounds of the keys. -/
abbrev Label (κ : Type*) := Nat × WithBot κ × WithTop κ

/-- The children of a node, labelled by the bounds its entries give them. -/
def KidsAt (g : ι → Option (Label κ)) (h : Nat) : WithBot κ → List (κ × δ) → WithTop κ → List ι → Prop
  | lo, [], hi, [c] => g c = some (h, lo, hi)
  | lo, x :: xs, hi, c :: cs => g c = some (h, lo, (x.1 : WithTop κ)) ∧ KidsAt g h (x.1 : WithBot κ) xs hi cs
  | _, _, _, _ => False

/-- Labels that describe the tree at `root`. -/
structure Labelled [LinearOrder κ] (V : Nodes ι κ δ) (g : ι → Option (Label κ)) (root : ι)
    (height : Nat) : Prop where
  top : g root = some (height, ⊥, ⊤)
  spaced : ∀ {p h lo hi}, g p = some (h, lo, hi) → Spaced lo (V.items p) hi
  leaf : ∀ {p lo hi}, g p = some (0, lo, hi) → V.kids p = []
  inner : ∀ {p h lo hi}, g p = some (h + 1, lo, hi) → KidsAt g h lo (V.items p) hi (V.kids p)
  low : ∀ {p h lo hi}, g p = some (h, lo, hi) → p = root ∨ h < height
  up : ∀ {p l}, g p = some l → p = root ∨ ∃ q l', g q = some l' ∧ p ∈ V.kids q

section Order
variable [LinearOrder κ]

theorem spaced_iff {lo : WithBot κ} {l : List (κ × δ)} {hi : WithTop κ} :
    Spaced lo l hi ↔ l.Pairwise (fun a b => a.1 < b.1) ∧ ∀ x ∈ l, lo < (x.1 : WithBot κ) ∧
      (x.1 : WithTop κ) < hi := by
  induction l generalizing lo with
  | nil => simp [Spaced]
  | cons x xs ih =>
    simp only [Spaced, ih, List.pairwise_cons, List.mem_cons, forall_eq_or_imp, WithBot.coe_lt_coe]
    constructor
    · rintro ⟨above, below, sorted, inner⟩
      exact ⟨⟨fun y member => (inner y member).1, sorted⟩, ⟨above, below⟩, fun y member =>
        ⟨above.trans (WithBot.coe_lt_coe.mpr (inner y member).1), (inner y member).2⟩⟩
    · rintro ⟨⟨first, sorted⟩, ⟨above, below⟩, inner⟩
      exact ⟨above, below, sorted, fun y member => ⟨first y member, (inner y member).2⟩⟩

theorem spaced_append_cons {lo : WithBot κ} {l r : List (κ × δ)} {x : κ × δ} {hi : WithTop κ} :
    Spaced lo (l ++ x :: r) hi ↔
      Spaced lo l (x.1 : WithTop κ) ∧ (lo < (x.1 : WithBot κ) ∧ (x.1 : WithTop κ) < hi) ∧
      Spaced (x.1 : WithBot κ) r hi := by
  induction l generalizing lo with
  | nil => simp [Spaced, and_assoc]
  | cons y l ih =>
    simp only [List.cons_append, Spaced, ih, WithBot.coe_lt_coe, WithTop.coe_lt_coe]
    constructor
    · rintro ⟨above, _, left, ⟨order, below⟩, right⟩
      exact ⟨⟨above, order, left⟩, ⟨above.trans (WithBot.coe_lt_coe.mpr order), below⟩, right⟩
    · rintro ⟨⟨above, order, left⟩, ⟨_, below⟩, right⟩
      exact ⟨above, (WithTop.coe_lt_coe.mpr order).trans below, left, ⟨order, below⟩, right⟩

theorem Spaced.mono {lo lo' : WithBot κ} {l : List (κ × δ)} {hi hi' : WithTop κ} (spaced : Spaced lo l hi)
    (lower : lo' ≤ lo) (upper : hi ≤ hi') : Spaced lo' l hi' := by
  rw [spaced_iff] at spaced ⊢
  exact ⟨spaced.1, fun x member => ⟨lower.trans_lt (spaced.2 x member).1, (spaced.2 x member).2.trans_le upper⟩⟩

end Order

theorem mem_weave {α : Type*} {ls : List (List α)} {xs : List α} (fits : ls.length = xs.length + 1) (y : α) :
    y ∈ weave ls xs ↔ y ∈ xs ∨ ∃ l ∈ ls, y ∈ l := by
  induction xs generalizing ls with
  | nil =>
    obtain ⟨l, rfl⟩ := List.length_eq_one_iff.mp fits
    simp [weave]
  | cons x xs ih =>
    cases ls with
    | nil => simp at fits
    | cons l ls =>
      simp only [weave, List.mem_append, List.mem_cons, ih (by simpa using fits)]
      simp only [exists_eq_or_imp]
      tauto

section Kids
variable {g : ι → Option (Label κ)} {h : Nat}

theorem KidsAt.length {lo : WithBot κ} {xs : List (κ × δ)} {hi : WithTop κ} {cs : List ι}
    (kids : KidsAt g h lo xs hi cs) : cs.length = xs.length + 1 := by
  induction xs generalizing lo cs with
  | nil =>
    cases cs with
    | nil => exact kids.elim
    | cons c cs =>
      cases cs with
      | nil => rfl
      | cons _ _ => exact kids.elim
  | cons x xs ih =>
    cases cs with
    | nil => exact kids.elim
    | cons c cs => simp [ih kids.2]

theorem KidsAt.congr {g' : ι → Option (Label κ)} {lo : WithBot κ} {xs : List (κ × δ)} {hi : WithTop κ}
    {cs : List ι} (kids : KidsAt g h lo xs hi cs) (same : ∀ c ∈ cs, g' c = g c) : KidsAt g' h lo xs hi cs := by
  induction xs generalizing lo cs with
  | nil =>
    match cs, kids with
    | [c], kids => exact (same c (by simp)).trans kids
  | cons x xs ih =>
    match cs, kids with
    | c :: cs, kids =>
      exact ⟨(same c (by simp)).trans kids.1, ih kids.2 fun d member => same d (List.mem_cons_of_mem _ member)⟩

/-- Each child's label has the height of the level below. -/
theorem KidsAt.label_of_mem {lo : WithBot κ} {xs : List (κ × δ)} {hi : WithTop κ} {cs : List ι}
    (kids : KidsAt g h lo xs hi cs) {c : ι} (member : c ∈ cs) : ∃ a b, g c = some (h, a, b) := by
  induction xs generalizing lo cs with
  | nil =>
    match cs, kids with
    | [d], kids =>
      obtain rfl := List.mem_singleton.mp member
      exact ⟨lo, hi, kids⟩
  | cons x xs ih =>
    match cs, kids with
    | d :: cs, kids =>
      rcases List.mem_cons.mp member with rfl | inner
      · exact ⟨lo, _, kids.1⟩
      · exact ih kids.2 inner

/-- Cutting the children at one of the entries. -/
theorem kidsAt_append {lo : WithBot κ} {xs ys : List (κ × δ)} {x : κ × δ} {hi : WithTop κ} {A B : List ι}
    (fits : A.length = xs.length + 1) :
    KidsAt g h lo (xs ++ x :: ys) hi (A ++ B) ↔
      KidsAt g h lo xs (x.1 : WithTop κ) A ∧ KidsAt g h (x.1 : WithBot κ) ys hi B := by
  induction xs generalizing lo A with
  | nil =>
    obtain ⟨c, rfl⟩ := List.length_eq_one_iff.mp fits
    rfl
  | cons y xs ih =>
    match A, fits with
    | c :: A, fits =>
      simp only [List.cons_append, KidsAt, ih (by simpa using fits), and_assoc]

/-- Lists that stay inside the bounds of their children are woven inside the bounds of the node. -/
theorem KidsAt.weave_spaced [LinearOrder κ] {lo : WithBot κ} {xs : List (κ × δ)} {hi : WithTop κ}
    {cs : List ι} {L : ι → List (κ × δ)} (kids : KidsAt g h lo xs hi cs) (spaced : Spaced lo xs hi)
    (below : ∀ c a b, g c = some (h, a, b) → Spaced a (L c) b) : Spaced lo (weave (cs.map L) xs) hi := by
  induction xs generalizing lo cs with
  | nil =>
    match cs, kids with
    | [c], kids => exact below c lo hi kids
  | cons x xs ih =>
    match cs, kids with
    | c :: cs, kids =>
      exact spaced_append_cons.mpr ⟨below c _ _ kids.1, ⟨spaced.1, spaced.2.1⟩, ih kids.2 spaced.2.2⟩

end Kids

namespace Labelled
variable [LinearOrder κ] {V : Nodes ι κ δ} {g : ι → Option (Label κ)} {root : ι} {height : Nat}

theorem inorder_spaced (labelled : Labelled V g root height) {p : ι} {h : Nat} {lo : WithBot κ} {hi : WithTop κ}
    (label : g p = some (h, lo, hi)) : Spaced lo (inorder V h p) hi := by
  induction h generalizing p lo hi with
  | zero => exact labelled.spaced label
  | succ h ih => exact (labelled.inner label).weave_spaced (labelled.spaced label) fun c a b => ih

theorem inorder_sorted (labelled : Labelled V g root height) :
    (inorder V height root).Pairwise (fun a b => a.1 < b.1) :=
  (spaced_iff.mp (labelled.inorder_spaced labelled.top)).1

theorem mem_inorder_succ (labelled : Labelled V g root height) {p : ι} {h : Nat} {lo : WithBot κ}
    {hi : WithTop κ} (label : g p = some (h + 1, lo, hi)) (x : κ × δ) :
    x ∈ inorder V (h + 1) p ↔ x ∈ V.items p ∨ ∃ c ∈ V.kids p, x ∈ inorder V h c := by
  rw [inorder, mem_weave (by simpa using (labelled.inner label).length)]
  simp

/-- The tree holds the entries of the labelled nodes. -/
theorem mem_inorder_iff (labelled : Labelled V g root height) (x : κ × δ) :
    x ∈ inorder V height root ↔ ∃ p, (g p).isSome ∧ x ∈ V.items p := by
  constructor
  · have descend : ∀ h p lo hi, g p = some (h, lo, hi) → x ∈ inorder V h p → ∃ p, (g p).isSome ∧
      x ∈ V.items p := by
      intro h
      induction h with
      | zero => exact fun p lo hi label member => ⟨p, by simp [label], member⟩
      | succ h ih =>
        intro p lo hi label member
        rcases (labelled.mem_inorder_succ label x).mp member with own | ⟨c, isKid, inKid⟩
        · exact ⟨p, by simp [label], own⟩
        · obtain ⟨a, b, labelC⟩ := (labelled.inner label).label_of_mem isKid
          exact ih c a b labelC inKid
    exact descend height root _ _ labelled.top
  · -- climb from the node to the root; the distance to it decreases
    have climb : ∀ n p h lo hi, g p = some (h, lo, hi) → height - h = n → x ∈ inorder V h p →
        x ∈ inorder V height root := by
      intro n
      induction n with
      | zero =>
        intro p h lo hi label distance member
        rcases labelled.low label with rfl | below
        · obtain ⟨rfl, -⟩ := Prod.mk.inj (Option.some.inj (label.symm.trans labelled.top))
          exact member
        · omega
      | succ n ih =>
        intro p h lo hi label distance member
        rcases labelled.up label with rfl | ⟨q, ⟨h', lo', hi'⟩, labelQ, isKid⟩
        · obtain ⟨rfl, -⟩ := Prod.mk.inj (Option.some.inj (label.symm.trans labelled.top))
          exact member
        · cases h' with
          | zero =>
            rw [labelled.leaf labelQ] at isKid
            simp at isKid
          | succ h' =>
            obtain ⟨a, b, labelP⟩ := (labelled.inner labelQ).label_of_mem isKid
            obtain ⟨rfl, -⟩ := Prod.mk.inj (Option.some.inj (label.symm.trans labelP))
            exact ih q _ lo' hi' labelQ (by omega)
              ((labelled.mem_inorder_succ labelQ x).mpr (Or.inr ⟨p, isKid, member⟩))
    rintro ⟨p, labelSome, own⟩
    obtain ⟨⟨h, lo, hi⟩, label⟩ := Option.isSome_iff_exists.mp labelSome
    refine climb _ p h lo hi label rfl ?_
    cases h with
    | zero => exact own
    | succ h => exact (labelled.mem_inorder_succ label x).mpr (Or.inl own)

end Labelled

/-- A list with increasing keys is determined by its members. -/
theorem eq_of_mem_iff [LinearOrder κ] {l m : List (κ × δ)} (sortedL : l.Pairwise (fun a b => a.1 < b.1))
    (sortedM : m.Pairwise (fun a b => a.1 < b.1)) (same : ∀ x, x ∈ l ↔ x ∈ m) : l = m := by
  have nodup : ∀ {r : List (κ × δ)}, r.Pairwise (fun a b => a.1 < b.1) → r.Nodup := by
    intro r sorted
    refine List.Pairwise.imp ?_ sorted
    rintro a b order rfl
    exact lt_irrefl _ order
  have perm : l.Perm m := (List.perm_ext_iff_of_nodup (nodup sortedL) (nodup sortedM)).mpr same
  exact perm.eq_of_pairwise (fun a b _ _ ab ba => absurd (ab.trans ba) (lt_irrefl _)) sortedL sortedM

theorem eq_of_key_eq [LinearOrder κ] {l : List (κ × δ)} (sorted : l.Pairwise (fun a b => a.1 < b.1))
    {x y : κ × δ} (inX : x ∈ l) (inY : y ∈ l) (same : x.1 = y.1) : x = y := by
  induction l with
  | nil => simp at inX
  | cons z l ih =>
    obtain ⟨first, rest⟩ := List.pairwise_cons.mp sorted
    rcases List.mem_cons.mp inX with rfl | restX <;> rcases List.mem_cons.mp inY with rfl | restY
    · rfl
    · exact absurd same (first y restY).ne
    · exact absurd same (first x restX).ne'
    · exact ih rest restX restY

/-- A tree of the given height below `p`, whose nodes satisfy `P height parent node`. -/
def Built (V : Nodes ι κ δ) (P : Nat → ι → ι → Prop) : Nat → ι → ι → Prop
  | 0, q, p => P 0 q p ∧ V.kids p = []
  | h + 1, q, p => P (h + 1) q p ∧ (V.kids p).length = (V.items p).length + 1 ∧ ∀ c ∈ V.kids p, Built V P h p c

instance Built.decidable [DecidableEq ι] (V : Nodes ι κ δ) (P : Nat → ι → ι → Prop)
    [∀ h q p, Decidable (P h q p)] :
    ∀ h q p, Decidable (Built V P h q p)
  | 0, q, p => inferInstanceAs (Decidable (P 0 q p ∧ V.kids p = []))
  | h + 1, q, p =>
    have := Built.decidable V P h
    inferInstanceAs (Decidable (P (h + 1) q p ∧ (V.kids p).length = (V.items p).length + 1 ∧
      ∀ c ∈ V.kids p, Built V P h p c))

theorem Built.local {V : Nodes ι κ δ} {P : Nat → ι → ι → Prop} {h : Nat} {q p : ι}
    (built : Built V P h q p) : P h q p := by
  cases h with
  | zero => exact built.1
  | succ h => exact built.1

/-- Labels give back the tree. -/
theorem Labelled.built [LinearOrder κ] {V : Nodes ι κ δ} {g : ι → Option (Label κ)} {root : ι} {height : Nat}
    {P : Nat → ι → ι → Prop} (labelled : Labelled V g root height)
    (own : ∀ {q p h lo hi}, g q = some (h + 1, lo, hi) → p ∈ V.kids q → P h q p)
    {p r : ι} {h : Nat} {lo : WithBot κ} {hi : WithTop κ} (label : g p = some (h, lo, hi)) (atP : P h r p) :
    Built V P h r p := by
  induction h generalizing p r lo hi with
  | zero => exact ⟨atP, labelled.leaf label⟩
  | succ h ih =>
    refine ⟨atP, (labelled.inner label).length, fun c isKid => ?_⟩
    obtain ⟨a, b, labelC⟩ := (labelled.inner label).label_of_mem isKid
    exact ih labelC (own label isKid)

/-- The last key of a list, or the bound before it. -/
def lastKey (lo : WithBot κ) : List (κ × δ) → WithBot κ
  | [] => lo
  | x :: xs => lastKey (x.1 : WithBot κ) xs

/-- The first key of a list, or the bound after it. -/
def firstKey (hi : WithTop κ) : List (κ × δ) → WithTop κ
  | [] => hi
  | y :: _ => (y.1 : WithTop κ)

@[simp] theorem lastKey_append_cons (lo : WithBot κ) (l r : List (κ × δ)) (x : κ × δ) :
    lastKey lo (l ++ x :: r) = lastKey (x.1 : WithBot κ) r := by
  induction l generalizing lo with
  | nil => rfl
  | cons y l ih => exact ih _

theorem Spaced.le_lastKey [LinearOrder κ] {lo : WithBot κ} {xs : List (κ × δ)} {hi : WithTop κ}
    (spaced : Spaced lo xs hi) : lo ≤ lastKey lo xs := by
  induction xs generalizing lo with
  | nil => exact le_rfl
  | cons x xs ih => exact spaced.1.le.trans (ih spaced.2.2)

section Weave
variable [LinearOrder κ]

/-- The entries woven between lists inside the bounds are inside the bounds. -/
theorem Spaced.of_weave {lo : WithBot κ} {hi : WithTop κ} {ls : List (List (κ × δ))} {xs : List (κ × δ)}
    (spaced : Spaced lo (weave ls xs) hi) (fits : ls.length = xs.length + 1) : Spaced lo xs hi := by
  induction xs generalizing lo ls with
  | nil => trivial
  | cons x xs ih =>
    match ls, fits with
    | l :: ls, fits =>
      obtain ⟨_, bounds, rest⟩ := spaced_append_cons.mp spaced
      exact ⟨bounds.1, bounds.2, ih rest (by simpa using fits)⟩

/-- A woven list is inside the bounds that the entries next to it give. -/
theorem Spaced.part_of_weave {lo : WithBot κ} {hi : WithTop κ} {ls rs : List (List (κ × δ))}
    {l xs ys : List (κ × δ)} (spaced : Spaced lo (weave (ls ++ l :: rs) (xs ++ ys)) hi)
    (fits : ls.length = xs.length) :
    Spaced (lastKey lo xs) l (firstKey hi ys) := by
  induction xs generalizing lo ls with
  | nil =>
    obtain rfl := List.length_eq_zero_iff.mp fits
    cases ys with
    | nil => exact spaced
    | cons y ys => exact (spaced_append_cons.mp spaced).1
  | cons x xs ih =>
    match ls, fits with
    | a :: ls, fits => exact ih (spaced_append_cons.mp spaced).2.2 (by simpa using fits)

end Weave

/-- The nodes below the root, each with its parent and the label its place gives it. -/
inductive At (V : Nodes ι κ δ) (r root : ι) (height : Nat) : ι → ι → Nat → WithBot κ → WithTop κ → Prop
  | root : At V r root height r root height ⊥ ⊤
  | kid {o q c h lo hi xs ys A B} (up : At V r root height o q (h + 1) lo hi) (items : V.items q = xs ++ ys)
      (kids : V.kids q = A ++ c :: B) (fits : A.length = xs.length) :
      At V r root height q c h (lastKey lo xs) (firstKey hi ys)

section Labels
variable {V : Nodes ι κ δ} {P : Nat → ι → ι → Prop} {r root : ι} {height : Nat}

theorem At.built (whole : Built V P height r root) {q p : ι} {h : Nat} {lo : WithBot κ} {hi : WithTop κ}
    (place : At V r root height q p h lo hi) : Built V P h q p := by
  induction place with
  | root => exact whole
  | kid up items kids fits ih => exact ih.2.2 _ (by simp [kids])

theorem At.low {q p : ι} {h : Nat} {lo : WithBot κ} {hi : WithTop κ} (place : At V r root height q p h lo hi) :
    p = root ∧ h = height ∨ h < height := by
  induction place with
  | root => exact Or.inl ⟨rfl, rfl⟩
  | kid up items kids fits ih => omega

theorem inorder_ne_nil {h : Nat} {q p : ι} (built : Built V P h q p) (own : V.items p ≠ []) :
    inorder V h p ≠ [] := by
  cases h with
  | zero => exact own
  | succ h =>
    obtain ⟨x, member⟩ := List.exists_mem_of_ne_nil _ own
    refine List.ne_nil_of_mem (a := x) ?_
    rw [inorder, mem_weave (by simpa using built.2.1)]
    exact Or.inl member

/-- Labels that follow the places of the children are laid out as `KidsAt` asks. -/
theorem At.kidsAt {g : ι → Option (Label κ)} {o p : ι} {h : Nat} {lo : WithBot κ} {hi : WithTop κ}
    (place : At V r root height o p (h + 1) lo hi) (fits : (V.kids p).length = (V.items p).length + 1)
    (labelOf : ∀ {q p h lo hi}, At V r root height q p h lo hi → g p = some (h, lo, hi)) :
    KidsAt g h lo (V.items p) hi (V.kids p) := by
  -- the entries and children before the ones still to be visited are carried along
  have walk : ∀ (xs xs' : List (κ × δ)) (A cs : List ι), V.items p = xs' ++ xs → V.kids p = A ++ cs →
      A.length = xs'.length → cs.length = xs.length + 1 → KidsAt g h (lastKey lo xs') xs hi cs := by
    intro xs
    induction xs with
    | nil =>
      intro xs' A cs items kids front back
      obtain ⟨c, rfl⟩ := List.length_eq_one_iff.mp back
      exact labelOf (At.kid place items kids front)
    | cons x xs ih =>
      intro xs' A cs items kids front back
      match cs, back with
      | c :: cs, back =>
        have rest := ih (xs' ++ [x]) (A ++ [c]) cs (by simp [items]) (by simp [kids]) (by simp [front])
          (by simpa using back)
        rw [lastKey_append_cons] at rest
        exact ⟨labelOf (At.kid place items kids front), rest⟩
  exact walk (V.items p) [] [] (V.kids p) rfl rfl rfl fits

variable [LinearOrder κ]

theorem At.spaced (sorted : (inorder V height root).Pairwise (fun a b => a.1 < b.1)) {q p : ι} {h : Nat}
    {lo : WithBot κ} {hi : WithTop κ} (place : At V r root height q p h lo hi) :
    Spaced lo (inorder V h p) hi := by
  induction place with
  | root => exact spaced_iff.mpr ⟨sorted, fun x _ => ⟨WithBot.bot_lt_coe _, WithTop.coe_lt_top _⟩⟩
  | kid up items kids fits ih =>
    rw [inorder, items, kids, List.map_append, List.map_cons] at ih
    exact ih.part_of_weave (by simpa using fits)

/-- A child stands at one place only: its entries cannot be on both sides of a key. -/
theorem kid_place_unique {h : Nat} {o q c : ι} {lo : WithBot κ} {hi : WithTop κ} {xs ys xs' ys' : List (κ × δ)}
    {A B A' B' : List ι} (built : Built V P (h + 1) o q) (spaced : Spaced lo (inorder V (h + 1) q) hi)
    (some : inorder V h c ≠ []) (items : V.items q = xs ++ ys) (kids : V.kids q = A ++ c :: B)
    (fits : A.length = xs.length) (items' : V.items q = xs' ++ ys') (kids' : V.kids q = A' ++ c :: B')
    (fits' : A'.length = xs'.length) : ¬xs.length < xs'.length := by
  intro before
  obtain ⟨e, member⟩ := List.exists_mem_of_ne_nil _ some
  have split : xs <+: xs' := List.prefix_of_prefix_length_le
    (show xs <+: V.items q from ⟨ys, items.symm⟩) ⟨ys', items'.symm⟩ before.le
  obtain ⟨zs, rfl⟩ := split
  cases zs with
  | nil => simp at before
  | cons y zs =>
    have tail : ys = y :: zs ++ ys' := by simpa [items] using items'
    have left : Spaced (lastKey lo xs) (inorder V h c) (firstKey hi ys) := by
      have spaced := spaced
      rw [inorder, items, kids, List.map_append, List.map_cons] at spaced
      exact spaced.part_of_weave (by simpa using fits)
    have right : Spaced (lastKey lo (xs ++ y :: zs)) (inorder V h c) (firstKey hi ys') := by
      have spaced := spaced
      rw [inorder, items', kids', List.map_append, List.map_cons] at spaced
      exact spaced.part_of_weave (by simpa using fits')
    have below : (e.1 : WithTop κ) < (y.1 : WithTop κ) := by
      have := ((spaced_iff.mp left).2 e member).2
      rwa [tail] at this
    have own : Spaced lo (V.items q) hi := Spaced.of_weave spaced (by simpa using built.2.1)
    have above : (y.1 : WithBot κ) < (e.1 : WithBot κ) := by
      rw [items', List.append_assoc, List.cons_append, spaced_append_cons] at own
      have order : Spaced (y.1 : WithBot κ) zs hi := by
        have rest := spaced_iff.mp own.2.2
        exact spaced_iff.mpr ⟨(List.pairwise_append.mp rest.1).1, fun x inner => rest.2 x (by simp [inner])⟩
      have := ((spaced_iff.mp right).2 e member).1
      rw [lastKey_append_cons] at this
      exact order.le_lastKey.trans_lt this
    exact lt_asymm (WithTop.coe_lt_coe.mp below) (WithBot.coe_lt_coe.mp above)

/-- A node stands at one place only, if every node knows its parent. `r` stands for the parent of the root. -/
theorem At.unique {par : ι → ι} (whole : Built V P height r root)
    (sorted : (inorder V height root).Pairwise (fun a b => a.1 < b.1)) (parent : ∀ h q p, P h q p → par p = q)
    (notNull : ∀ h q p, P h q p → p ≠ r) (nonempty : ∀ h q p, P h q p → q ≠ r → V.items p ≠ [])
    {q p : ι} {h : Nat} {lo : WithBot κ} {hi : WithTop κ} (place : At V r root height q p h lo hi)
    {q' : ι} {h' : Nat} {lo' : WithBot κ} {hi' : WithTop κ} (other : At V r root height q' p h' lo' hi') :
    (h, lo, hi) = (h', lo', hi') := by
  -- the root is nobody's child
  have notKid : ∀ {q h lo hi}, At V r root height q root h lo hi → q ≠ r → False := by
    intro q h lo hi up different
    have fromRoot := parent _ _ _ whole.local
    have fromKid := parent _ _ _ (At.built whole up).local
    exact different (fromKid.symm.trans fromRoot)
  induction place generalizing q' h' lo' hi' with
  | root =>
    cases other with
    | root => rfl
    | kid up items kids fits => exact (notKid (At.kid up items kids fits)
        (notNull _ _ _ (At.built whole up).local)).elim
  | @kid o q c h lo hi xs ys A B up items kids fits ih =>
    have builtQ := At.built whole up
    cases other with
    | root => exact (notKid (At.kid up items kids fits) (notNull _ _ _ builtQ.local)).elim
    | @kid o' q' _ _ lo' hi' xs' ys' A' B' up' items' kids' fits' =>
      have builtC := At.built whole (At.kid up items kids fits)
      have fromKid := parent _ _ _ builtC.local
      have fromKid' := parent _ _ _ (At.built whole (At.kid up' items' kids' fits')).local
      obtain rfl : q' = q := fromKid'.symm.trans fromKid
      obtain ⟨sameHeight, rfl, rfl⟩ := by simpa using ih up'
      obtain rfl := sameHeight
      have spacedQ := At.spaced sorted up
      have someC := inorder_ne_nil builtC (nonempty _ _ _ builtC.local (notNull _ _ _ builtQ.local))
      have first := kid_place_unique builtQ spacedQ someC items kids fits items' kids' fits'
      have second := kid_place_unique builtQ spacedQ someC items' kids' fits' items kids fits
      obtain ⟨rfl, rfl⟩ := List.append_inj (items.symm.trans items') (by omega)
      rfl

/-- A tree whose nodes know their parents can be labelled. -/
theorem Built.exists_labels {f : ι → ι} (whole : Built V P height r root)
    (sorted : (inorder V height root).Pairwise (fun a b => a.1 < b.1)) (parent : ∀ h q p, P h q p → f p = q)
    (notNull : ∀ h q p, P h q p → p ≠ r) (nonempty : ∀ h q p, P h q p → q ≠ r → V.items p ≠ []) :
    ∃ g : ι → Option (Label κ), Labelled V g root height ∧
      (∀ p h lo hi, g p = some (h, lo, hi) → ∃ q, P h q p ∧ (p = root ∧ q = r ∨ (g q).isSome)) ∧
      ∀ q l c, g q = some l → c ∈ V.kids q → ∃ h, P h q c := by
  classical
  let g : ι → Option (Label κ) := fun p =>
    if found : ∃ l : Label κ, ∃ q, At V r root height q p l.1 l.2.1 l.2.2 then some found.choose else none
  have labelOf : ∀ {q p h lo hi}, At V r root height q p h lo hi → g p = some (h, lo, hi) := by
    intro q p h lo hi place
    have found : ∃ l : Label κ, ∃ q, At V r root height q p l.1 l.2.1 l.2.2 := ⟨(h, lo, hi), q, place⟩
    obtain ⟨q', chosen⟩ := found.choose_spec
    simp only [g, dif_pos found, Option.some.injEq]
    exact (At.unique whole sorted parent notNull nonempty place chosen).symm
  have placeOf : ∀ {p h lo hi}, g p = some (h, lo, hi) → ∃ q, At V r root height q p h lo hi := by
    intro p h lo hi label
    by_cases found : ∃ l : Label κ, ∃ q, At V r root height q p l.1 l.2.1 l.2.2
    · obtain ⟨q', chosen⟩ := found.choose_spec
      simp only [g, dif_pos found, Option.some.injEq] at label
      rw [label] at chosen
      exact ⟨q', chosen⟩
    · simp only [g, dif_neg found] at label
      cases label
  refine ⟨g, ⟨labelOf At.root, fun {p h lo hi} label => ?_, fun {p lo hi} label => ?_,
    fun {p h lo hi} label => ?_, fun {p h lo hi} label => ?_, fun {p l} label => ?_⟩,
    fun p h lo hi label => ?_, fun q l c label isKid => ?_⟩
  · obtain ⟨q, place⟩ := placeOf label
    have spaced := At.spaced sorted place
    cases h with
    | zero => exact spaced
    | succ h => exact Spaced.of_weave spaced (by simpa using (At.built whole place).2.1)
  · obtain ⟨q, place⟩ := placeOf label
    exact (At.built whole place).2
  · obtain ⟨q, place⟩ := placeOf label
    exact place.kidsAt (At.built whole place).2.1 labelOf
  · obtain ⟨q, place⟩ := placeOf label
    exact place.low.imp (fun same => same.1) id
  · obtain ⟨q, place⟩ := placeOf (show g _ = some (l.1, l.2.1, l.2.2) from label)
    generalize l.1 = h at place
    generalize l.2.1 = lo at place
    generalize l.2.2 = hi at place
    cases place with
    | root => exact Or.inl rfl
    | kid up items kids fits => exact Or.inr ⟨q, _, labelOf up, by simp [kids]⟩
  · obtain ⟨q, place⟩ := placeOf label
    refine ⟨q, (At.built whole place).local, ?_⟩
    cases place with
    | root => exact Or.inl ⟨rfl, rfl⟩
    | kid up items kids fits => exact Or.inr (by simp [labelOf up])
  · obtain ⟨o, place⟩ := placeOf (show g _ = some (l.1, l.2.1, l.2.2) from label)
    have built := At.built whole place
    generalize l.1 = h at built
    cases h with
    | zero =>
      rw [built.2] at isKid
      simp at isKid
    | succ h => exact ⟨h, (built.2.2 c isKid).local⟩

end Labels

end SearchTree
