import MiyaCore.SearchTree.Labels
import Mathlib.Algebra.Order.BigOperators.Group.List
import Mathlib.Algebra.Order.Ring.Nat
import Mathlib.Algebra.Module.NatInt
import Mathlib.Tactic.GCongr
import Mathlib.Tactic.Ring

/-!
# Heights

The number of entries of a tree bounds its height from both sides, when every node
has at least `a` and at most `b` entries.
-/

namespace SearchTree

variable {ι κ δ : Type*}

theorem length_weave {α : Type*} {ls : List (List α)} {xs : List α} (fits : ls.length = xs.length + 1) :
    (weave ls xs).length + 1 = (ls.map fun l => l.length + 1).sum := by
  induction xs generalizing ls with
  | nil =>
    obtain ⟨l, rfl⟩ := List.length_eq_one_iff.mp fits
    simp [weave]
  | cons x xs ih =>
    cases ls with
    | nil => simp at fits
    | cons l ls =>
      have rest : (weave ls xs).length + 1 = (ls.map fun l => l.length + 1).sum := ih (by simpa using fits)
      simp only [weave, List.length_append, List.length_cons, List.map_cons, List.sum_cons]
      omega

section Counts
variable {V : Nodes ι κ δ} {P : Nat → ι → ι → Prop} {R : Nat → ι → Prop} {h : Nat} {q p : ι}

/-- The entries below a node, and one, are those below its children, each with one. -/
theorem Built.length_inorder (built : Built V P (h + 1) q p) :
    (inorder V (h + 1) p).length + 1 = ((V.kids p).map fun c => (inorder V h c).length + 1).sum := by
  have fits : ((V.kids p).map (inorder V h)).length = (V.items p).length + 1 := by simp [built.2.1]
  rw [inorder, length_weave fits, List.map_map]
  rfl

/-- Nodes of at least `a` entries, from the places `R` on downwards. -/
theorem Built.pow_le (a : Nat) (many : ∀ {h q p}, P h q p → R h q → a ≤ (V.items p).length)
    (down : ∀ {h q p}, P (h + 1) q p → R h p) (built : Built V P h q p) (here : R h q) :
    (a + 1) ^ (h + 1) ≤ (inorder V h p).length + 1 := by
  induction h generalizing q p with
  | zero =>
    have own := many built.1 here
    simp only [inorder, zero_add, pow_one]
    omega
  | succ h ih =>
    have own := many built.1 here
    have each : ∀ n ∈ (V.kids p).map (fun c => (inorder V h c).length + 1), (a + 1) ^ (h + 1) ≤ n := by
      intro n member
      obtain ⟨c, isKid, rfl⟩ := List.mem_map.mp member
      exact ih (built.2.2 c isKid) (down built.1)
    have total := List.card_nsmul_le_sum _ _ each
    rw [List.length_map, built.2.1, smul_eq_mul, ← built.length_inorder] at total
    calc (a + 1) ^ (h + 1 + 1) = (a + 1) * (a + 1) ^ (h + 1) := by ring
      _ ≤ ((V.items p).length + 1) * (a + 1) ^ (h + 1) := by gcongr
      _ ≤ (inorder V (h + 1) p).length + 1 := total

/-- Nodes of at most `b` entries. -/
theorem Built.le_pow (b : Nat) (few : ∀ {h q p}, P h q p → (V.items p).length ≤ b)
    (built : Built V P h q p) : (inorder V h p).length + 1 ≤ (b + 1) ^ (h + 1) := by
  induction h generalizing q p with
  | zero =>
    have own := few built.1
    simp only [inorder, zero_add, pow_one]
    omega
  | succ h ih =>
    have own := few built.1
    have each : ∀ n ∈ (V.kids p).map (fun c => (inorder V h c).length + 1), n ≤ (b + 1) ^ (h + 1) := by
      intro n member
      obtain ⟨c, isKid, rfl⟩ := List.mem_map.mp member
      exact ih (built.2.2 c isKid)
    have total := List.sum_le_card_nsmul _ _ each
    rw [List.length_map, built.2.1, smul_eq_mul, ← built.length_inorder] at total
    calc (inorder V (h + 1) p).length + 1 ≤ ((V.items p).length + 1) * (b + 1) ^ (h + 1) := total
      _ ≤ (b + 1) * (b + 1) ^ (h + 1) := by gcongr
      _ = (b + 1) ^ (h + 1 + 1) := by ring

end Counts

end SearchTree
