import Mathlib.Data.List.Basic

/-!
# Bounded queues

First in, first out, with room for a fixed number of members.
-/

/-- A queue that never holds more than `capacity` members. -/
structure BoundedQueue (σ : Type*) (capacity : Nat) where
  items : List σ
  bounded : items.length ≤ capacity

namespace BoundedQueue

variable {σ : Type*} {capacity : Nat}

def empty : BoundedQueue σ capacity := ⟨[], Nat.zero_le _⟩

/-- A member at the end, if there is room. -/
def push (q : BoundedQueue σ capacity) (x : σ) : Option (BoundedQueue σ capacity) :=
  if room : q.items.length < capacity then some ⟨q.items ++ [x],
  by simpa using Nat.succ_le_of_lt room⟩ else none

/-- The first member, if there is one, and the queue without it. -/
def pop : BoundedQueue σ capacity → Option (σ × BoundedQueue σ capacity)
  | ⟨[], _⟩ => none
  | ⟨x :: rest, bounded⟩ => some (x, ⟨rest, Nat.le_of_succ_le bounded⟩)

theorem items_of_push {q q' : BoundedQueue σ capacity} {x : σ} (pushed : q.push x = some q') :
    q'.items = q.items ++ [x] := by
  rw [push] at pushed
  split_ifs at pushed
  rw [← Option.some.inj pushed]

theorem items_of_pop {q : BoundedQueue σ capacity} {r : σ × BoundedQueue σ capacity} (popped : q.pop = some r) :
    q.items = r.1 :: r.2.items := by
  obtain ⟨items, bounded⟩ := q
  cases items with
  | nil => cases popped
  | cons x rest =>
    obtain rfl := Option.some.inj popped
    rfl

theorem isSome_push {q : BoundedQueue σ capacity} {x : σ} : (q.push x).isSome ↔ q.items.length < capacity := by
  rw [push]
  split_ifs with room <;> simp [room]

theorem isSome_pop {q : BoundedQueue σ capacity} : q.pop.isSome ↔ q.items ≠ [] := by
  obtain ⟨items, bounded⟩ := q
  cases items <;> simp [pop]

/-- What can happen to a queue. -/
inductive Op (σ : Type*) where
  | push (x : σ)
  | pop (x : σ)

def Op.pushed : Op σ → List σ
  | push x => [x]
  | pop _ => []

def Op.popped : Op σ → List σ
  | push _ => []
  | pop x => [x]

/-- One operation: a push into a queue with room, or a pop of the first member. -/
def Moves (q : BoundedQueue σ capacity) (op : Op σ) (q' : BoundedQueue σ capacity) : Prop :=
  q.items ++ op.pushed = op.popped ++ q'.items

inductive Runs : BoundedQueue σ capacity → List (Op σ) → BoundedQueue σ capacity → Prop
  | nil (q) : Runs q [] q
  | cons {q q' q'' op ops} : Moves q op q' → Runs q' ops q'' → Runs q (op :: ops) q''

/-- What is pushed comes out in this order, or is still inside. -/
theorem Runs.conserves {q q' : BoundedQueue σ capacity} {ops : List (Op σ)} (run : Runs q ops q') :
    q.items ++ ops.flatMap Op.pushed = ops.flatMap Op.popped ++ q'.items := by
  induction run with
  | nil => simp
  | cons move rest ih =>
    rw [List.flatMap_cons, List.flatMap_cons, ← List.append_assoc, move, List.append_assoc, ih,
      List.append_assoc]

end BoundedQueue
