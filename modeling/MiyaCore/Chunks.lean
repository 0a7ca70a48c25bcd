import Mathlib.Data.List.Basic

namespace MiyaCore.Chunks

variable {α : Type} {size : α → Nat}

/-- A head followed by as many members as it announces. -/
structure Chunk (size : α → Nat) where
  head : α
  body : List α
  whole : body.length = size head

/-- Chunks written one after the other. -/
def join (l : List (Chunk size)) : List α := l.flatMap fun x => x.head :: x.body

@[simp] theorem join_nil : join ([] : List (Chunk size)) = [] := rfl

@[simp] theorem join_cons (x : Chunk size) (l : List (Chunk size)) :
    join (x :: l) = x.head :: (x.body ++ join l) := rfl

/-- Reading chunks off a list of which the first `skip` members belong to a body: how many
members the last body lacks at the end. -/
def overhang (size : α → Nat) : Nat → List α → Nat
  | skip, [] => skip
  | 0, a :: l => overhang size (size a) l
  | skip + 1, _ :: l => overhang size skip l

theorem overhang_append {skip : Nat} {body : List α} (length : body.length = skip) (l : List α) :
    overhang size skip (body ++ l) = overhang size 0 l := by
  subst length
  induction body with
  | nil => rfl
  | cons a body ih => exact ih

theorem overhang_of_length_le {skip : Nat} {l : List α} (short : l.length ≤ skip) :
    overhang size skip l = skip - l.length := by
  induction l generalizing skip with
  | nil => rfl
  | cons a l ih =>
    rw [List.length_cons] at short
    obtain _ | skip := skip
    · omega
    · rw [overhang, ih (by omega), List.length_cons]
      omega

/-- No more is lacking than a head can announce. -/
theorem overhang_le {bound : Nat} (most : ∀ a, size a ≤ bound) {skip : Nat} (start : skip ≤ bound)
    (l : List α) :
    overhang size skip l ≤ bound := by
  induction l generalizing skip with
  | nil => exact start
  | cons a l ih =>
    cases skip with
    | zero => exact ih (most a)
    | succ skip => exact ih (Nat.le_of_succ_le start)

@[simp] theorem overhang_join (chunks : List (Chunk size)) : overhang size 0 (join chunks) = 0 := by
  induction chunks with
  | nil => rfl
  | cons x chunks ih => rw [join_cons, overhang, overhang_append x.whole, ih]

/-- A list is made of chunks just when none is cut off at its end. -/
theorem exists_join_iff {l : List α} : (∃ chunks : List (Chunk size), join chunks = l) ↔
    overhang size 0 l = 0 := by
  refine ⟨fun ⟨chunks, same⟩ => same ▸ overhang_join chunks, fun none => ?_⟩
  induction length : l.length using Nat.strongRecOn generalizing l with
  | ind n ih =>
    cases l with
    | nil => exact ⟨[], rfl⟩
    | cons a l =>
      rw [overhang] at none
      rcases Nat.lt_or_ge l.length (size a) with short | long
      · rw [overhang_of_length_le (Nat.le_of_lt short)] at none
        omega
      have body : (l.take (size a)).length = size a := List.length_take_of_le long
      have later : overhang size 0 (l.drop (size a)) = 0 := by
        rw [← overhang_append body, List.take_append_drop, none]
      rw [List.length_cons] at length
      obtain ⟨chunks, rest⟩ := ih _ (by rw [List.length_drop]; omega) later rfl
      exact ⟨⟨a, l.take (size a), body⟩ :: chunks, by rw [join_cons, rest, List.take_append_drop]⟩

end MiyaCore.Chunks
