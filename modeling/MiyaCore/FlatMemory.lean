import Mathlib.Data.List.Basic
import Mathlib.Logic.Function.Basic

/-!
# Runs of cells in a flat memory

A memory gives every address a cell. What is said here is how a run of cells that is written is read
back, whole or in part, and what stays as it is beside it.
-/

namespace FlatMemory

variable {α : Type*}

/-- Writing a list from the address `a` on. -/
def lay (m : Nat → α) (a : Nat) : List α → Nat → α
  | [] => m
  | v :: l => lay (Function.update m a v) (a + 1) l

/-- Reading `n` cells from the address `a` on. -/
def slice (m : Nat → α) (a n : Nat) : List α := (List.range n).map fun i => m (a + i)

@[simp] theorem length_slice (m : Nat → α) (a n : Nat) : (slice m a n).length = n := by simp [slice]

theorem slice_succ (m : Nat → α) (a n : Nat) : slice m a (n + 1) = m a :: slice m (a + 1) n := by
  rw [slice, List.range_succ_eq_map, List.map_cons, List.map_map, slice]
  simp only [Nat.add_zero, Function.comp_def, Nat.succ_eq_add_one, Nat.add_assoc, Nat.add_comm 1]

@[simp] theorem lay_nil (m : Nat → α) (a : Nat) : lay m a [] = m := rfl

/-- Writing a run in two parts. -/
theorem lay_append (m : Nat → α) (a : Nat) (l r : List α) : lay m a (l ++ r) = lay (lay m a l) (a + l.length) r := by
  induction l generalizing m a with
  | nil => rfl
  | cons v l ih =>
    rw [List.cons_append, lay, ih, List.length_cons, Nat.add_assoc, Nat.add_comm 1]
    rfl

theorem lay_of_outside (m : Nat → α) {a x : Nat} {l : List α} (outside : x < a ∨ a + l.length ≤ x) :
    lay m a l x = m x := by
  induction l generalizing m a with
  | nil => rfl
  | cons v l ih =>
    rw [List.length_cons] at outside
    rw [lay, ih _ (by omega), Function.update_of_ne (by omega)]

theorem lay_of_inside (m : Nat → α) (a : Nat) {i : Nat} {l : List α} (inside : i < l.length) :
    lay m a l (a + i) = l[i] := by
  induction l generalizing m a i with
  | nil => simp at inside
  | cons v l ih =>
    rw [lay]
    cases i with
    | zero => rw [lay_of_outside _ (by omega), Nat.add_zero, Function.update_self, List.getElem_cons_zero]
    | succ i =>
      rw [show a + (i + 1) = a + 1 + i by omega, ih _ _ (by simpa using inside), List.getElem_cons_succ]

/-- Memories that agree on a run have the same slice there. -/
theorem slice_congr {m m' : Nat → α} {a n : Nat} (same : ∀ i < n, m (a + i) = m' (a + i)) :
    slice m a n = slice m' a n :=
  List.map_congr_left fun i member => same i (List.mem_range.mp member)

/-- What is written is read back. -/
@[simp] theorem slice_lay_self (m : Nat → α) (a : Nat) (l : List α) : slice (lay m a l) a l.length = l := by
  refine List.ext_getElem (length_slice ..) fun i _ inside => ?_
  simp only [slice, List.getElem_map, List.getElem_range]
  exact lay_of_inside m a inside

/-- A part of what is written is read back. -/
theorem slice_lay_append (m : Nat → α) (a : Nat) (l field r : List α) :
    slice (lay m a (l ++ field ++ r)) (a + l.length) field.length = field := by
  refine List.ext_getElem (length_slice ..) fun i _ inside => ?_
  have inAll : l.length + i < (l ++ field ++ r).length := by
    rw [List.length_append, List.length_append]
    omega
  have read := lay_of_inside m a inAll
  simp only [slice, List.getElem_map, List.getElem_range, Nat.add_assoc, read]
  rw [List.getElem_append_left (by rw [List.length_append]; omega), List.getElem_append_right (by omega)]
  simp only [Nat.add_sub_cancel_left]

/-- A run beside the one written is read as before. -/
theorem slice_lay_of_disjoint (m : Nat → α) {a b n : Nat} {l : List α} (apart : b + n ≤ a ∨ a + l.length ≤ b) :
    slice (lay m a l) b n = slice m b n :=
  slice_congr fun i inside => lay_of_outside m (by omega)

/-- Writing what is there changes nothing. -/
theorem lay_slice (m : Nat → α) (a n : Nat) : lay m a (slice m a n) = m := by
  induction n generalizing a with
  | zero => rfl
  | succ n ih => rw [slice_succ, lay, Function.update_eq_self, ih]

/-- A run in two parts. -/
theorem slice_append (m : Nat → α) (a n k : Nat) : slice m a (n + k) = slice m a n ++ slice m (a + n) k := by
  induction n generalizing a with
  | zero => rw [Nat.zero_add]; rfl
  | succ n ih => rw [Nat.add_right_comm, slice_succ, slice_succ, ih, Nat.add_right_comm, Nat.add_assoc,
      List.cons_append]

/-- A part of a run. -/
theorem slice_add (m : Nat → α) {a k n size : Nat} (inside : k + n ≤ size) :
    slice m (a + k) n = ((slice m a size).drop k).take n := by
  refine List.ext_getElem (by simp; omega) fun i inLeft _ => ?_
  simp only [slice, List.getElem_map, List.getElem_range, List.getElem_take, List.getElem_drop, Nat.add_assoc]

end FlatMemory
