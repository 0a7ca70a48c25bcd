import Mathlib.Data.Set.Function
import Mathlib.Data.List.Basic

/-!
# Hash trees over a list

The nodes of a level are joined in pairs until one is left. What is a pair, and how it
is joined, are parameters.
-/

namespace MerkleTree

variable {δ : Type*}

/-- The children of each parent: neighbours, and an odd last member with itself. -/
def adjacent : List δ → List (δ × δ)
  | [] => []
  | [x] => [(x, x)]
  | x :: y :: l => (x, y) :: adjacent l

/-- The levels above a list of nodes, up to the last one. -/
def climb (pairing : List δ → List (δ × δ)) (node : δ × δ → δ) : Nat → List δ → List δ
  | 0, l => l
  | fuel + 1, l => if l.length ≤ 1 then l else climb pairing node fuel ((pairing l).map node)

/-- The pairs that are joined on the way up. -/
def joined (pairing : List δ → List (δ × δ)) (node : δ × δ → δ) : Nat → List δ → List (δ × δ)
  | 0, _ => []
  | fuel + 1, l => if l.length ≤ 1 then [] else pairing l ++ joined pairing node fuel ((pairing l).map node)

/-- A level of odd length ends in its last member twice. -/
def pad (l : List δ) : List δ := if l.length % 2 ≠ 0 then l ++ l.getLast?.toList else l

/-- The last level over some leaves: the root, if there are any. -/
def root (pairing : List δ → List (δ × δ)) (node : δ × δ → δ) (leaves : List δ) : List δ :=
  climb pairing node (pad leaves).length (pad leaves)

theorem length_adjacent (l : List δ) : (adjacent l).length = (l.length + 1) / 2 := by
  induction l using adjacent.induct with
  | case1 => simp [adjacent]
  | case2 x => simp [adjacent]
  | case3 x y l ih =>
    simp only [adjacent, List.length_cons, ih]
    omega

/-- A level determines its nodes, once their number is known. -/
theorem adjacent_injective {l r : List δ} (length : l.length = r.length)
    (same : adjacent l = adjacent r) : l = r := by
  induction l using adjacent.induct generalizing r with
  | case1 => exact (List.length_eq_zero_iff.mp length.symm).symm
  | case2 x =>
    obtain ⟨y, rfl⟩ := List.length_eq_one_iff.mp length.symm
    simp_all [adjacent]
  | case3 x y l ih =>
    obtain _ | ⟨x', _ | ⟨y', r⟩⟩ := r
    · simp at length
    · simp at length
    · obtain ⟨first, rest⟩ := List.cons.inj same
      obtain ⟨rfl, rfl⟩ := Prod.mk.inj first
      rw [ih (by simpa using length) rest]

theorem forall_mem_adjacent {x : δ} (l : List δ) : (∀ p ∈ adjacent l, p = (x, x)) ↔ ∀ y ∈ l, y = x := by
  induction l using adjacent.induct with
  | case1 => simp [adjacent]
  | case2 y => simp [adjacent]
  | case3 y z l ih =>
    simp only [adjacent, List.forall_mem_cons, ih]
    simp [and_assoc]

theorem length_pad (l : List δ) : (pad l).length = 2 * ((l.length + 1) / 2) := by
  rw [pad]
  split_ifs with odd
  · obtain ⟨last, found⟩ : ∃ last, l.getLast? = some last := by
      cases found : l.getLast? with
      | none => simp_all
      | some last => exact ⟨last, rfl⟩
    simp only [List.length_append, found, Option.toList_some, List.length_singleton]
    omega
  · omega

theorem mem_pad {x : δ} {l : List δ} : x ∈ pad l ↔ x ∈ l := by
  rw [pad]
  split_ifs
  · simp only [List.mem_append, Option.mem_toList, or_iff_left_iff_imp]
    exact fun last => List.mem_of_getLast? last
  · rfl

theorem pad_cons (x : δ) (l : List δ) : ∃ rest, pad (x :: l) = x :: rest := by
  rw [pad]
  split_ifs
  · exact ⟨_, List.cons_append⟩
  · exact ⟨l, rfl⟩

theorem pad_injective {l r : List δ} (length : l.length = r.length) (same : pad l = pad r) : l = r := by
  have cut : ∀ l : List δ, (pad l).take l.length = l := by
    intro l
    rw [pad]
    split_ifs <;> simp
  rw [← cut l, same, length, cut]

variable {pairing : List δ → List (δ × δ)} {node : δ × δ → δ}

/-- Halving its length, a level of two members or more comes to an end. -/
theorem climb_singleton (halves : ∀ l, (pairing l).length = (l.length + 1) / 2) {fuel : Nat}
    {l : List δ} (inhabited : l ≠ []) (enough : l.length ≤ fuel + 1) :
    ∃ top, climb pairing node fuel l = [top] := by
  have positive := List.length_pos_iff.mpr inhabited
  induction fuel generalizing l with
  | zero =>
    have single : l.length = 1 := by omega
    exact List.length_eq_one_iff.mp single
  | succ fuel ih =>
    rw [climb]
    split_ifs with short
    · exact List.length_eq_one_iff.mp (by omega)
    · have half : ((pairing l).map node).length = (l.length + 1) / 2 := by rw [List.length_map, halves]
      have upper : 0 < ((pairing l).map node).length := by omega
      exact ih (List.length_pos_iff.mp upper) (by omega) upper

theorem root_singleton (halves : ∀ l, (pairing l).length = (l.length + 1) / 2) (x : δ) (l : List δ) :
    ∃ top, root pairing node (x :: l) = [top] := by
  obtain ⟨rest, padded⟩ := pad_cons x l
  refine climb_singleton halves ?_ (by omega)
  rw [padded]
  exact List.cons_ne_nil x rest

theorem eq_of_map_eq {α β : Type*} {f : α → β} {l r : List α} (apart : Set.InjOn f {x | x ∈ l ∨ x ∈ r})
    (same : l.map f = r.map f) : l = r := by
  have length : l.length = r.length := by simpa using congrArg List.length same
  refine List.ext_getElem length fun i left right => apart (Or.inl (List.getElem_mem left))
    (Or.inr (List.getElem_mem right)) ?_
  have here := congrArg (fun m => m[i]?) same
  simpa [left, right] using here

/-- Without a collision among the pairs that are joined, the last level commits to the nodes it
is reached from. -/
theorem climb_adjacent_injective {fuel : Nat} {l r : List δ} (length : l.length = r.length)
    (apart : Set.InjOn node {p | p ∈ joined adjacent node fuel l ∨ p ∈ joined adjacent node fuel r})
    (same : climb adjacent node fuel l = climb adjacent node fuel r) : l = r := by
  induction fuel generalizing l r with
  | zero => exact same
  | succ fuel ih =>
    rw [climb, climb, ← length] at same
    simp only [joined, ← length] at apart
    split_ifs at same apart with short
    · exact same
    · have levels : (adjacent l).map node = (adjacent r).map node := by
        refine ih (by simp [length_adjacent, length]) (apart.mono fun p => ?_) same
        exact Or.imp (List.mem_append_right _) (List.mem_append_right _)
      refine adjacent_injective length (eq_of_map_eq (apart.mono fun p => ?_) levels)
      exact Or.imp (List.mem_append_left _) (List.mem_append_left _)

end MerkleTree
