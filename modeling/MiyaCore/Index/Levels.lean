import MiyaCore.Index.Deletion
import MiyaCore.Index.Lookup
import MiyaCore.SearchTree.Heights
import Mathlib.Data.Nat.Log

namespace MiyaCore
open SearchTree

namespace OBtree

/-- The levels a tree of `n` pairs has at most: one when it is empty, else the logarithm of `n + 1`. -/
def levels (n : Nat) : Nat := max 1 (Nat.log 2 (n + 1))

section Height
variable {t : OBtree} {h : Nat}

/-- Below a root with a key every node has one, so that the pairs double with each level. -/
theorem WellFormed.pow_le (wellFormed : t.WellFormed h) (some : 0 < h ∨ t.pairs h ≠ []) :
    2 ^ (h + 1) ≤ (t.pairs h).length + 1 := by
  rcases Nat.eq_zero_or_pos h with rfl | inner
  · have filled := List.length_pos_iff.mpr (some.resolve_left (lt_irrefl 0))
    simp only [zero_add, pow_one]
    omega
  · refine Built.pow_le (P := t.file.NodeOK) (R := fun h q => 0 < h ∨ 0 < q) 1 ?_ ?_ wellFormed.built (Or.inl inner)
    · intro h q p ok inside
      have keys := ok.2.2.2.2.2
      simp only [IndexFile.nodes, ItemSet.items, List.length_map, List.length_range]
      omega
    · exact fun ok => Or.inr ok.1

theorem WellFormed.le_pow (wellFormed : t.WellFormed h) : (t.pairs h).length + 1 ≤ 4 ^ (h + 1) := by
  refine Built.le_pow (P := t.file.NodeOK) 3 ?_ wellFormed.built
  intro h q p ok
  simpa only [IndexFile.nodes, ItemSet.items, List.length_map, List.length_range] using ok.2.2.2.2.1

theorem WellFormed.lt_levels (wellFormed : t.WellFormed h) : h < levels (t.pairs h).length := by
  unfold levels
  by_cases empty : h = 0
  · omega
  · have bound := wellFormed.pow_le (Or.inl (Nat.pos_of_ne_zero empty))
    have logs := (Nat.le_log_iff_pow_le (by norm_num) (by omega)).mpr bound
    omega

end Height

/-- The pairs after an operation. -/
def Op.apply (l : List (Key × Nat)) : Op → List (Key × Nat)
  | .add k d => l.orderedInsert (fun a b => a.1 ≤ b.1) (k, d)
  | .remove k => l.filter (·.1 ≠ k)

/-- The operation adds a fresh key, with room for the nodes it makes, or removes a key that is absent or that
its node can give up. -/
def Fits (t : OBtree) (l : List (Key × Nat)) : Op → Prop
  | .add k _ => (∀ x ∈ l, x.1 ≠ k) ∧ t.HasRoom (levels l.length) k
  | .remove k => t.Removable k

/-- The trees that fitting operations make of an empty file, with the pairs a sorted list has after
the same operations. Each operation may go down the levels its pairs ask for and no more. -/
inductive Run : OBtree → List (Key × Nat) → Prop
  | start : Run create []
  | step {t t' : OBtree} {l : List (Key × Nat)} {op : Op} : Run t l → t.Fits l op →
    t.step (levels l.length) op = .ok t' → Run t' (op.apply l)

theorem step_fits {t : OBtree} {h : Nat} {op : Op} (wellFormed : t.WellFormed h) (fits : t.Fits (t.pairs h) op) :
    ∃ t' h', t.step (levels (t.pairs h).length) op = .ok t' ∧ t'.WellFormed h' ∧
      t'.pairs h' = op.apply (t.pairs h) := by
  cases op with
  | add k d =>
    obtain ⟨t', h', run, wellFormed', -, -, pairs⟩ := add_run (d := d) wellFormed fits.1 fits.2 wellFormed.lt_levels
    exact ⟨t', h', run, wellFormed', pairs⟩
  | remove k => exact deletes_of_removable wellFormed wellFormed.lt_levels fits

/-- A run keeps the tree well-formed, with the pairs of the list. -/
theorem Run.wellFormed {t : OBtree} {l : List (Key × Nat)} (run : Run t l) :
    ∃ h, t.WellFormed h ∧ t.pairs h = l := by
  induction run with
  | start => exact ⟨0, create_wellFormed⟩
  | step _ fits done ih =>
    obtain ⟨h, wellFormed, rfl⟩ := ih
    obtain ⟨t', h', run', wellFormed', pairs⟩ := step_fits wellFormed fits
    obtain rfl := Except.ok.inj (run'.symm.trans done)
    exact ⟨h', wellFormed', pairs⟩

/-- In a run every tree of `n` pairs has a height between the two logarithms of `n + 1`, and the next
fitting operation and every lookup return within the levels that leaves. -/
theorem run_logarithmic (t : OBtree) (l : List (Key × Nat)) (run : Run t l) :
    ∃ h, t.WellFormed h ∧ t.pairs h = l ∧ h + 1 ≤ levels l.length ∧ l.length + 1 ≤ 4 ^ (h + 1) ∧
      (∀ op, t.Fits l op → ∃ t', t.step (levels l.length) op = .ok t' ∧ Run t' (op.apply l)) ∧
      ∀ k, t.find (levels l.length) k = .ok (((t.byLevel h).find? (sharesHead k)).map Prod.snd) := by
  obtain ⟨h, wellFormed, rfl⟩ := run.wellFormed
  have low := wellFormed.lt_levels
  refine ⟨h, wellFormed, rfl, low, wellFormed.le_pow, fun op fits => ?_, fun k => find_run wellFormed low⟩
  obtain ⟨t', h', done, -⟩ := step_fits wellFormed fits
  exact ⟨t', done, run.step fits done⟩

theorem levels_of_lt_three {n : Nat} (few : n < 3) : levels n = 1 := by
  unfold levels
  rcases Nat.eq_zero_or_pos n with rfl | some
  · rfl
  · rw [Nat.log_eq_one_iff.mpr (by omega), Nat.max_self]

/-- Three keys in a new file. -/
theorem run_logarithmic_three : ∃ t, Run t [(1, 8), (3, 9), (5, 7)] ∧ ∃ h, t.WellFormed h ∧
    t.pairs h = [(1, 8), (3, 9), (5, 7)] ∧ h + 1 ≤ levels 3 ∧ 3 + 1 ≤ 4 ^ (h + 1) := by
  let t₁ := create.after 1 (.add 5 7)
  let t₂ := t₁.after 1 (.add 1 8)
  have run₁ : Run t₁ [(5, 7)] := by
    refine Run.start.step (show create.Fits [] (.add 5 7) from ⟨nofun, ?_⟩) ?_
    · rw [levels_of_lt_three (by decide)]
      decide +kernel
    · rw [levels_of_lt_three (by decide)]
      exact step_after (by decide +kernel)
  have run₂ : Run t₂ [(1, 8), (5, 7)] := by
    refine run₁.step (show t₁.Fits [(5, 7)] (.add 1 8) from ⟨by simp, ?_⟩) ?_
    · rw [levels_of_lt_three (by decide)]
      decide +kernel
    · rw [levels_of_lt_three (by decide)]
      exact step_after (by decide +kernel)
  obtain ⟨-, -, -, -, -, next, -⟩ := run_logarithmic t₂ [(1, 8), (5, 7)] run₂
  obtain ⟨t₃, -, run₃⟩ := next (.add 3 9) ⟨by simp, by rw [levels_of_lt_three (by decide)]; decide +kernel⟩
  obtain ⟨h, wellFormed, pairs, low, high, -⟩ := run_logarithmic t₃ [(1, 8), (3, 9), (5, 7)] run₃
  exact ⟨t₃, run₃, h, wellFormed, pairs, low, high⟩

end OBtree

end MiyaCore
