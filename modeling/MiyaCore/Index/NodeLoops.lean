import MiyaCore.Index.AddRuns
import MiyaCore.Index.PagedIndex

/-!
# The loops of a node block

What `ONodeItemSet` does in loops over its getters and setters. Each loop is a client of the block, and does to the
bytes in the file what its counterpart does to the fields.
-/

namespace MiyaCore
open Lockstep Lockstep.Client

/-- A client of one block. -/
abbrev BlockClient := Client NodeCall (Option Nat)

namespace ONodeItemSet

def count (call : NodeCall) : BlockClient Nat := do return (← one call).getD 0

/-- The loop `for( int i = ..; i < bound; i++ )`, with a round for every bound that a byte spells. -/
def upTo (bound : BlockClient Nat) (body : Nat → BlockClient Unit) : Nat → Nat → BlockClient Unit
  | 0, _ => pure ()
  | rounds + 1, i => do
    if i < (← bound) then do
      body i
      upTo bound body rounds (i + 1)
    else pure ()

/-- The loop `for( int i = ..; i > index; i-- )`. -/
def downTo (body : Nat → BlockClient Unit) (index : Nat) : Nat → BlockClient Unit
  | 0 => pure ()
  | i + 1 =>
    if i + 1 ≤ index then pure ()
    else do
      body (i + 1)
      downTo body index i

/-- `key( target , rawKey( source ) )`. A null pointer is not copied. -/
def copyKey (source target : Nat) : BlockClient Unit := do
  match ← one (.rawKey source) with
  | some rawKey => do let _ ← one (.setKey target (Fin.ofNat _ rawKey))
  | none => pure ()

/-- `childOptr( target , childOptr( source ) )`. -/
def copyChildOptr (source target : Nat) : BlockClient Unit := do
  let childOptr ← one (.childOptr source)
  let _ ← one (.setChildOptr target (childOptr.getD 0))

/-- `dataOptr( target , dataOptr( source ) )`. -/
def copyDataOptr (source target : Nat) : BlockClient Unit := do
  let dataOptr ← one (.dataOptr source)
  let _ ← one (.setDataOptr target (dataOptr.getD 0))

/-- The body of the loops of `sortKey`. -/
def sortPair (j : Nat) : BlockClient Unit := do
  match ← one (.rawKey j), ← one (.rawKey (j - 1)) with
  | some key_j0, some key_j1 =>
    if key_j1 > key_j0 then do
      let _ ← one (.setKey j (Fin.ofNat _ key_j1))
      let _ ← one (.setKey (j - 1) (Fin.ofNat _ key_j0))
    else pure ()
  | _, _ => pure ()

def sortKey : BlockClient Unit :=
  upTo (do return (← count .keyCount) - 1) (fun i => do downTo sortPair i ((← count .keyCount) - 1)) 256 0

/-- The slots behind `index` move up by one, and the new value is set there. -/
def moveInsert (counter set : NodeCall) (copy : Nat → Nat → BlockClient Unit) (index : Nat) : BlockClient Unit := do
  downTo (fun i => copy (i - 1) i) index (← count counter)
  let _ ← one set

/-- The slots behind `index` move down by one. -/
def moveDelete (counter : NodeCall) (setCounter : Nat → NodeCall) (copy : Nat → Nat → BlockClient Unit)
    (index : Nat) : BlockClient Unit := do
  if (← count counter) ≤ 0 then pure ()
  else do
    upTo (do return (← count counter) - 1) (fun i => copy (i + 1) i) 256 index
    let _ ← one (setCounter ((← count counter) - 1))

def moveInsertKey (index : Nat) (targetKey : Key) : BlockClient Unit :=
  moveInsert .keyCount (.setKey index targetKey) copyKey index

def moveDeleteKey (index : Nat) : BlockClient Unit := moveDelete .keyCount .setKeyCount copyKey index

def moveInsertChildOptr (index targetONode : Nat) : BlockClient Unit :=
  moveInsert .childOptrCount (.setChildOptr index targetONode) copyChildOptr index

def moveDeleteChildOptr (index : Nat) : BlockClient Unit :=
  moveDelete .childOptrCount .setChildOptrCount copyChildOptr index

def moveInsertDataOptr (index targetDataOptr : Nat) : BlockClient Unit :=
  moveInsert .dataOptrCount (.setDataOptr index targetDataOptr) copyDataOptr index

def moveDeleteDataOptr (index : Nat) : BlockClient Unit :=
  moveDelete .dataOptrCount .setDataOptrCount copyDataOptr index

def remove (index : Nat) : BlockClient Unit := do
  moveDeleteKey index
  moveDeleteDataOptr index

end ONodeItemSet

namespace ItemSet

/-- The loop of `moveInsertDataOptr`. -/
def shiftDataOptrs (it : ItemSet) (index : Nat) : Nat → ItemSet
  | 0 => it
  | n + 1 =>
    if n + 1 ≤ index then it
    else shiftDataOptrs (it.setDataOptr (n + 1) ((it.dataOptr n).getD 0)) index n

def moveInsertDataOptr (it : ItemSet) (index target : Nat) : ItemSet :=
  (it.shiftDataOptrs index it.dataOptrCount).setDataOptr index target

theorem shiftDataOptrs_eq_lift {it : ItemSet} {index n : Nat} (below : n ≤ it.dataOptrCount + 1) :
    it.shiftDataOptrs index n = { it with dataSlot := lift it.dataSlot index n } := by
  induction n generalizing it with
  | zero =>
    rw [lift_of_le _ (Nat.zero_le index)]
    rfl
  | succ n ih =>
    rw [shiftDataOptrs]
    split_ifs with done
    · rw [lift_of_le _ done]
    · have value : it.dataOptr n = some (it.dataSlot n) := dataOptr_eq (by omega)
      have room : n ≤ (it.setDataOptr (n + 1) ((it.dataOptr n).getD 0)).dataOptrCount + 1 :=
        show n ≤ it.dataOptrCount + 1 by omega
      have later := ih room
      rw [later, value]
      simp [setDataOptr, lift_step _ (show index ≤ n by omega)]

/-- A call that stays inside the block. -/
def serve (it : ItemSet) (call : NodeCall) : Option (Option Nat × ItemSet) :=
  if it.Within call then some (it.call call) else none

theorem serve_of_within {it : ItemSet} {call : NodeCall} (within : it.Within call) :
    it.serve call = some (it.call call) := if_pos within

end ItemSet

namespace ONodeItemSet
variable {body : Nat → BlockClient Unit} {index n : Nat} {it : ItemSet}

section Loops
variable (P : ItemSet → Prop) (f : ItemSet → Nat → ItemSet)

/-- A loop downwards, whose rounds keep a fact about the block. -/
theorem downTo_run (rounds : ∀ it i, P it → index < i → i ≤ n →
      (body i).run ItemSet.serve it = some ((), f it i) ∧ P (f it i)) (holds : P it) :
    (downTo body index n).run ItemSet.serve it =
        some ((), (List.range' (index + 1) (n - index)).reverse.foldl f it) ∧
      P ((List.range' (index + 1) (n - index)).reverse.foldl f it) := by
  induction n generalizing it with
  | zero => rw [Nat.zero_sub]; exact ⟨rfl, holds⟩
  | succ n ih =>
    rw [downTo]
    by_cases ended : n + 1 ≤ index
    · rw [if_pos ended, Nat.sub_eq_zero_of_le ended]
      exact ⟨rfl, holds⟩
    · obtain ⟨run, kept⟩ := rounds it (n + 1) holds (by omega) le_rfl
      rw [if_neg ended, run_bind, run, Option.bind_some, show n + 1 - index = n - index + 1 by omega,
        List.range'_concat, List.reverse_append, show index + 1 + 1 * (n - index) = n + 1 by omega]
      exact ih (fun it i holds above below => rounds it i holds above (by omega)) kept

/-- A loop upwards, whose rounds keep a fact about the block and the bound. -/
theorem upTo_run {bound : BlockClient Nat} (bounded : ∀ it, P it → bound.run ItemSet.serve it = some (n, it))
    (rounds : ∀ it i, P it → i < n → (body i).run ItemSet.serve it = some ((), f it i) ∧ P (f it i))
    {k i : Nat} (enough : n ≤ i + k) (holds : P it) :
    (upTo bound body k i).run ItemSet.serve it = some ((), (List.range' i (n - i)).foldl f it) ∧
      P ((List.range' i (n - i)).foldl f it) := by
  induction k generalizing i it with
  | zero =>
    rw [Nat.sub_eq_zero_of_le (show n ≤ i from enough)]
    exact ⟨rfl, holds⟩
  | succ k ih =>
    rw [upTo, run_bind, bounded it holds, Option.bind_some]
    by_cases inside : i < n
    · obtain ⟨run, kept⟩ := rounds it i holds inside
      rw [if_pos inside, run_bind, run, Option.bind_some, show n - i = n - (i + 1) + 1 by omega, List.range'_succ]
      exact ih (by omega) kept
    · rw [if_neg inside, Nat.sub_eq_zero_of_le (Nat.le_of_not_lt inside)]
      exact ⟨rfl, holds⟩

theorem moveInsert_run {counter set : NodeCall} {copy : Nat → Nat → BlockClient Unit}
    (counted : (count counter).run ItemSet.serve it = some (n, it))
    (rounds : ∀ it i, P it → index < i → i ≤ n →
      (copy (i - 1) i).run ItemSet.serve it = some ((), f it i) ∧ P (f it i))
    (within : ∀ it : ItemSet, it.Within set) (holds : P it) :
    (moveInsert counter set copy index).run ItemSet.serve it =
      some ((), (((List.range' (index + 1) (n - index)).reverse.foldl f it).call set).2) := by
  obtain ⟨moved, -⟩ := downTo_run P f rounds holds
  simp only [moveInsert, run_bind, counted, Option.bind_some, moved, run_one, run_pure,
    ItemSet.serve_of_within (within _)]

theorem moveDelete_run {counter : NodeCall} {setCounter : Nat → NodeCall} {copy : Nat → Nat → BlockClient Unit}
    (counted : ∀ it, P it → (count counter).run ItemSet.serve it = some (n, it))
    (rounds : ∀ it i, P it → i < n - 1 →
      (copy (i + 1) i).run ItemSet.serve it = some ((), f it i) ∧ P (f it i))
    (few : n ≤ 4) (within : ∀ (it : ItemSet) (num : Nat), num < 4 → it.Within (setCounter num)) (holds : P it) :
    (moveDelete counter setCounter copy index).run ItemSet.serve it =
      some ((), if n = 0 then it
        else (((List.range' index (n - 1 - index)).foldl f it).call (setCounter (n - 1))).2) := by
  by_cases empty : n = 0
  · simp only [moveDelete, run_bind, counted it holds, Option.bind_some, empty, le_refl, if_true, run_pure]
  have bounded : ∀ it, P it → (do return (← count counter) - 1 : BlockClient Nat).run ItemSet.serve it =
      some (n - 1, it) := by
    intro it holds
    rw [run_bind, counted it holds, Option.bind_some, run_pure]
  obtain ⟨moved, kept⟩ := upTo_run P f (k := 256) (i := index) bounded rounds (by omega) holds
  simp only [moveDelete, run_bind, counted it holds, Option.bind_some, Nat.le_zero, empty, if_false, moved,
    counted _ kept, run_one, run_pure, ItemSet.serve_of_within (within _ (n - 1) (by omega))]

end Loops

theorem keyCount_client (it : ItemSet) : (count .keyCount).run ItemSet.serve it = some (it.keyCount, it) := rfl

theorem childOptrCount_client (it : ItemSet) :
    (count .childOptrCount).run ItemSet.serve it = some (it.childOptrCount, it) := rfl

theorem dataOptrCount_client (it : ItemSet) :
    (count .dataOptrCount).run ItemSet.serve it = some (it.dataOptrCount, it) := rfl

/-- A key is set as it was read. -/
theorem ofNat_key (k : Key) : Fin.ofNat (2 ^ 160) k.val = k := Fin.ofNat_val_eq_self k

theorem copyKey_run (few : it.keyCount ≤ 3) (source target : Nat) :
    (copyKey source target).run ItemSet.serve it = some ((), match it.rawKey source with
      | some k => it.setKey target k
      | none => it) := by
  have within : it.Within (.rawKey source) := fun inside => inside.trans few
  rw [copyKey, run_bind, run_one, ItemSet.serve_of_within within, Option.bind_some]
  cases read : it.rawKey source with
  | none => simp only [ItemSet.call, read, Option.map_none, run_pure]
  | some k =>
    simp only [ItemSet.call, read, Option.map_some, run_bind, run_one, run_pure, ofNat_key,
      ItemSet.serve_of_within (show it.Within (.setKey target k) from trivial), Option.bind_some]

theorem copyChildOptr_run (few : it.childOptrCount ≤ 4) (small : ∀ i < 4, it.childSlot i < 2 ^ 40)
    (source target : Nat) : (copyChildOptr source target).run ItemSet.serve it =
      some ((), it.setChildOptr target ((it.childOptr source).getD 0)) := by
  have within : it.Within (.childOptr source) := fun inside => inside.trans_le few
  have fits : it.Within (.setChildOptr target ((it.childOptr source).getD 0)) := by
    change (it.childOptr source).getD 0 < 2 ^ 40
    rw [ItemSet.childOptr]
    split_ifs with past
    · decide
    · exact small source (by omega)
  simp only [copyChildOptr, run_bind, run_one, run_pure, ItemSet.serve_of_within within, Option.bind_some,
    ItemSet.call, ItemSet.serve_of_within fits]

theorem copyDataOptr_run {source target : Nat} (small : ∀ i < 3, it.dataSlot i < 2 ^ 40) (inside : source < 3)
    (slot : target < 3) : (copyDataOptr source target).run ItemSet.serve it =
      some ((), it.setDataOptr target ((it.dataOptr source).getD 0)) := by
  have within : it.Within (.dataOptr source) := fun _ => inside
  have fits : it.Within (.setDataOptr target ((it.dataOptr source).getD 0)) := by
    refine ⟨slot, ?_⟩
    rw [ItemSet.dataOptr]
    split_ifs with past
    · decide
    · exact small source inside
  simp only [copyDataOptr, run_bind, run_one, run_pure, ItemSet.serve_of_within within, Option.bind_some,
    ItemSet.call, ItemSet.serve_of_within fits]

theorem sortPair_run (few : it.keyCount ≤ 3) (j : Nat) :
    (sortPair j).run ItemSet.serve it = some ((), it.sortPair j) := by
  have within : ∀ i, it.Within (.rawKey i) := fun _ inside => inside.trans few
  simp only [sortPair, run_bind, run_one, ItemSet.serve_of_within (within _), Option.bind_some, ItemSet.call]
  cases first : it.rawKey j with
  | none => simp [ItemSet.sortPair, first]
  | some kj =>
    cases second : it.rawKey (j - 1) with
    | none => simp [ItemSet.sortPair, first, second]
    | some kp =>
      simp only [ItemSet.sortPair, first, second, Option.map_some, gt_iff_lt, Fin.val_fin_lt]
      split_ifs with less
      · have setFirst : it.Within (.setKey j kp) := trivial
        have setSecond : (it.setKey j kp).Within (.setKey (j - 1) kj) := trivial
        simp only [ofNat_key, run_bind, run_one, run_pure, ItemSet.serve_of_within setFirst,
          ItemSet.serve_of_within setSecond, Option.bind_some, ItemSet.call]
      · rfl

theorem sortPair_keyCount (it : ItemSet) (j : Nat) : (it.sortPair j).keyCount = it.keyCount := by
  unfold ItemSet.sortPair
  split
  · split_ifs <;> simp
  · rfl

theorem sortKey_run (few : it.keyCount ≤ 3) : sortKey.run ItemSet.serve it = some ((), it.sortKey) := by
  have inner : ∀ (it' : ItemSet) i, it'.keyCount = it.keyCount →
      (downTo sortPair i (it'.keyCount - 1)).run ItemSet.serve it' =
          some ((), (List.range' (i + 1) (it'.keyCount - 1 - i)).reverse.foldl ItemSet.sortPair it') ∧
        ((List.range' (i + 1) (it'.keyCount - 1 - i)).reverse.foldl ItemSet.sortPair it').keyCount = it.keyCount :=
    fun it' i same => downTo_run (fun it' => it'.keyCount = it.keyCount) ItemSet.sortPair (fun it'' j same' _ _ =>
      ⟨sortPair_run (by omega) j, (sortPair_keyCount it'' j).trans same'⟩) same
  refine (upTo_run (n := it.keyCount - 1) (fun it' => it'.keyCount = it.keyCount)
    (fun it' i => (List.range' (i + 1) (it'.keyCount - 1 - i)).reverse.foldl ItemSet.sortPair it')
    (fun it' same => ?_) (fun it' i same _ => ?_) (by omega) rfl).1.trans ?_
  · rw [run_bind, keyCount_client, Option.bind_some, same]
    rfl
  · rw [run_bind, keyCount_client, Option.bind_some]
    exact inner it' i same
  · rw [ItemSet.sortKey, List.range_eq_range', Nat.sub_zero]

theorem shiftKeys_eq (inside : n ≤ it.keyCount) :
    it.shiftKeys index n = (List.range' (index + 1) (n - index)).reverse.foldl (fun it i =>
      match it.rawKey (i - 1) with
      | some k => it.setKey i k
      | none => it) it := by
  induction n generalizing it with
  | zero => rw [Nat.zero_sub]; rfl
  | succ n ih =>
    rw [ItemSet.shiftKeys]
    by_cases ended : n + 1 ≤ index
    · rw [if_pos ended, Nat.sub_eq_zero_of_le ended]
      rfl
    · obtain ⟨k, read⟩ : ∃ k, it.rawKey n = some k := by
        rw [ItemSet.rawKey, if_neg (by omega)]
        exact ⟨_, rfl⟩
      rw [if_neg ended, read, show n + 1 - index = n - index + 1 by omega, List.range'_concat, List.reverse_append,
        show index + 1 + 1 * (n - index) = n + 1 by omega]
      simp only [List.reverse_cons, List.reverse_nil, List.nil_append, List.cons_append, List.foldl_cons,
        Nat.add_sub_cancel, read]
      exact ih (by rw [ItemSet.setKey_keyCount]; omega)

theorem moveInsertKey_run (few : it.keyCount ≤ 3) (index : Nat) (k : Key) :
    (moveInsertKey index k).run ItemSet.serve it = some ((), it.moveInsertKey index k) := by
  rw [ItemSet.moveInsertKey, shiftKeys_eq le_rfl]
  exact moveInsert_run (fun it' => it'.keyCount = it.keyCount) _ rfl (fun it' i same _ _ =>
    ⟨copyKey_run (by omega) (i - 1) i, by split <;> simp [same]⟩) (fun _ => trivial) rfl

theorem moveDeleteKey_run (few : it.keyCount ≤ 3) (index : Nat) :
    (moveDeleteKey index).run ItemSet.serve it = some ((), it.moveDeleteKey index) :=
  moveDelete_run (fun it' => it'.keyCount = it.keyCount) ItemSet.pullKey
    (fun it' same => same ▸ keyCount_client it')
    (fun it' i same _ => ⟨copyKey_run (by omega) (i + 1) i, by unfold ItemSet.pullKey; split <;> simp [same]⟩)
    (by omega) (fun _ num below => show num < 2 ^ 8 by omega) rfl

/-- The addresses of the children fit their slots. -/
def ChildrenFit (count : Nat) (it : ItemSet) : Prop := it.childOptrCount = count ∧ ∀ i < 4, it.childSlot i < 2 ^ 40

theorem ChildrenFit.copy {count : Nat} (fit : ChildrenFit count it) (few : count ≤ 4) (source target : Nat) :
    (copyChildOptr source target).run ItemSet.serve it =
        some ((), it.setChildOptr target ((it.childOptr source).getD 0)) ∧
      ChildrenFit count (it.setChildOptr target ((it.childOptr source).getD 0)) := by
  refine ⟨copyChildOptr_run (by rw [fit.1]; exact few) fit.2 source target, by simpa using fit.1, fun i inside => ?_⟩
  have read : (it.childOptr source).getD 0 < 2 ^ 40 := by
    rw [ItemSet.childOptr]
    split_ifs with past
    · decide
    · exact fit.2 source (by have := fit.1; omega)
  by_cases slot : target < 4
  · rw [ItemSet.setChildOptr_childSlot _ slot]
    split_ifs
    · exact read
    · exact fit.2 i inside
  · rw [ItemSet.setChildOptr, if_neg slot]
    split_ifs
    · exact fit.2 i inside
    · exact fit.2 i inside

theorem shiftChildOptrs_eq : it.shiftChildOptrs index n =
    (List.range' (index + 1) (n - index)).reverse.foldl (fun it i =>
      it.setChildOptr i ((it.childOptr (i - 1)).getD 0)) it := by
  induction n generalizing it with
  | zero => rw [Nat.zero_sub]; rfl
  | succ n ih =>
    rw [ItemSet.shiftChildOptrs]
    by_cases ended : n + 1 ≤ index
    · rw [if_pos ended, Nat.sub_eq_zero_of_le ended]
      rfl
    · rw [if_neg ended, ih, show n + 1 - index = n - index + 1 by omega, List.range'_concat, List.reverse_append,
        show index + 1 + 1 * (n - index) = n + 1 by omega]
      rfl

theorem moveInsertChildOptr_run (few : it.childOptrCount ≤ 4) (fit : ∀ i < 4, it.childSlot i < 2 ^ 40) (index : Nat)
    {target : Nat} (small : target < 2 ^ 40) :
    (moveInsertChildOptr index target).run ItemSet.serve it = some ((), it.moveInsertChildOptr index target) := by
  rw [ItemSet.moveInsertChildOptr, shiftChildOptrs_eq]
  exact moveInsert_run (ChildrenFit it.childOptrCount) _ rfl (fun it' i fit' _ _ => fit'.copy few (i - 1) i)
    (fun _ => small) ⟨rfl, fit⟩

theorem moveDeleteChildOptr_run (few : it.childOptrCount ≤ 4) (fit : ∀ i < 4, it.childSlot i < 2 ^ 40) (index : Nat) :
    (moveDeleteChildOptr index).run ItemSet.serve it = some ((), it.moveDeleteChildOptr index) :=
  moveDelete_run (ChildrenFit it.childOptrCount) (fun it i => it.setChildOptr i ((it.childOptr (i + 1)).getD 0))
    (fun it' fit' => fit'.1 ▸ childOptrCount_client it') (fun it' i fit' _ => fit'.copy few (i + 1) i)
    few (fun _ num below => show num < 2 ^ 8 by omega) ⟨rfl, fit⟩

/-- The data pointers fit their slots. -/
def DataFit (count : Nat) (it : ItemSet) : Prop := it.dataOptrCount = count ∧ ∀ i < 3, it.dataSlot i < 2 ^ 40

theorem DataFit.copy {count source target : Nat} (fit : DataFit count it) (inside : source < 3) (slot : target < 3) :
    (copyDataOptr source target).run ItemSet.serve it =
        some ((), it.setDataOptr target ((it.dataOptr source).getD 0)) ∧
      DataFit count (it.setDataOptr target ((it.dataOptr source).getD 0)) := by
  refine ⟨copyDataOptr_run fit.2 inside slot, fit.1, fun i below => ?_⟩
  have read : (it.dataOptr source).getD 0 < 2 ^ 40 := by
    rw [ItemSet.dataOptr]
    split_ifs with past
    · decide
    · exact fit.2 source inside
  rw [ItemSet.setDataOptr_dataSlot]
  split_ifs
  · exact read
  · exact fit.2 i below

theorem shiftDataOptrs_eq : it.shiftDataOptrs index n =
    (List.range' (index + 1) (n - index)).reverse.foldl (fun it i =>
      it.setDataOptr i ((it.dataOptr (i - 1)).getD 0)) it := by
  induction n generalizing it with
  | zero => rw [Nat.zero_sub]; rfl
  | succ n ih =>
    rw [ItemSet.shiftDataOptrs]
    by_cases ended : n + 1 ≤ index
    · rw [if_pos ended, Nat.sub_eq_zero_of_le ended]
      rfl
    · rw [if_neg ended, ih, show n + 1 - index = n - index + 1 by omega, List.range'_concat, List.reverse_append,
        show index + 1 + 1 * (n - index) = n + 1 by omega]
      rfl

/-- With three data pointers the topmost one would be moved into the block behind. -/
theorem moveInsertDataOptr_run (few : it.dataOptrCount ≤ 2) (fit : ∀ i < 3, it.dataSlot i < 2 ^ 40)
    (inside : index < 3) {target : Nat} (small : target < 2 ^ 40) :
    (moveInsertDataOptr index target).run ItemSet.serve it = some ((), it.moveInsertDataOptr index target) := by
  rw [ItemSet.moveInsertDataOptr, shiftDataOptrs_eq]
  exact moveInsert_run (DataFit it.dataOptrCount) _ rfl
    (fun it' i fit' _ below => fit'.copy (by omega) (by omega)) (fun _ => ⟨inside, small⟩) ⟨rfl, fit⟩

theorem moveDeleteDataOptr_run (few : it.dataOptrCount ≤ 3) (fit : ∀ i < 3, it.dataSlot i < 2 ^ 40) (index : Nat) :
    (moveDeleteDataOptr index).run ItemSet.serve it = some ((), it.moveDeleteDataOptr index) :=
  moveDelete_run (DataFit it.dataOptrCount) (fun it i => it.setDataOptr i ((it.dataOptr (i + 1)).getD 0))
    (fun it' fit' => fit'.1 ▸ dataOptrCount_client it')
    (fun it' i fit' below => fit'.copy (by omega) (by omega))
    (by omega) (fun _ num below => show num < 2 ^ 8 by omega) ⟨rfl, fit⟩

end ONodeItemSet

/-- The calls of `ONodeItemSet` that loop. -/
inductive NodeLoop
  | sortKey
  | moveInsertKey (index : Nat) (targetKey : Key)
  | moveDeleteKey (index : Nat)
  | moveInsertChildOptr (index target : Nat)
  | moveDeleteChildOptr (index : Nat)
  | moveInsertDataOptr (index target : Nat)
  | moveDeleteDataOptr (index : Nat)
  | remove (index : Nat)

def NodeLoop.client : NodeLoop → BlockClient Unit
  | .sortKey => ONodeItemSet.sortKey
  | .moveInsertKey index targetKey => ONodeItemSet.moveInsertKey index targetKey
  | .moveDeleteKey index => ONodeItemSet.moveDeleteKey index
  | .moveInsertChildOptr index target => ONodeItemSet.moveInsertChildOptr index target
  | .moveDeleteChildOptr index => ONodeItemSet.moveDeleteChildOptr index
  | .moveInsertDataOptr index target => ONodeItemSet.moveInsertDataOptr index target
  | .moveDeleteDataOptr index => ONodeItemSet.moveDeleteDataOptr index
  | .remove index => ONodeItemSet.remove index

/-- An address that is put in fits its slot, and a data pointer has a slot left. -/
def NodeLoop.Fits (it : ItemSet) : NodeLoop → Prop
  | .moveInsertChildOptr _ target => target < 2 ^ 40
  | .moveInsertDataOptr index target => it.dataOptrCount ≤ 2 ∧ index < 3 ∧ target < 2 ^ 40
  | _ => True

namespace ItemSet

def loop (it : ItemSet) : NodeLoop → ItemSet
  | .sortKey => it.sortKey
  | .moveInsertKey index targetKey => it.moveInsertKey index targetKey
  | .moveDeleteKey index => it.moveDeleteKey index
  | .moveInsertChildOptr index target => it.moveInsertChildOptr index target
  | .moveDeleteChildOptr index => it.moveDeleteChildOptr index
  | .moveInsertDataOptr index target => it.moveInsertDataOptr index target
  | .moveDeleteDataOptr index => it.moveDeleteDataOptr index
  | .remove index => it.remove index

/-- The counts of a block are those of its areas. -/
structure Counted (it : ItemSet) : Prop where
  keys : it.keyCount ≤ 3
  children : it.childOptrCount ≤ 4
  data : it.dataOptrCount ≤ 3

theorem loop_run {it : ItemSet} {m : Memory} {p : Nat} (lies : it.LiesAt m p) (counted : it.Counted) {loop : NodeLoop}
    (fits : loop.Fits it) : loop.client.run serve it = some ((), it.loop loop) := by
  have children : ∀ i < 4, it.childSlot i < 2 ^ 40 := fun i inside => lies.fits (.child i) inside
  have data : ∀ i < 3, it.dataSlot i < 2 ^ 40 := fun i inside => lies.fits (.data i) inside
  cases loop with
  | sortKey => exact ONodeItemSet.sortKey_run counted.keys
  | moveInsertKey index k => exact ONodeItemSet.moveInsertKey_run counted.keys index k
  | moveDeleteKey index => exact ONodeItemSet.moveDeleteKey_run counted.keys index
  | moveInsertChildOptr index target =>
    exact ONodeItemSet.moveInsertChildOptr_run counted.children children index fits
  | moveDeleteChildOptr index => exact ONodeItemSet.moveDeleteChildOptr_run counted.children children index
  | moveInsertDataOptr index target =>
    exact ONodeItemSet.moveInsertDataOptr_run fits.1 data fits.2.1 fits.2.2
  | moveDeleteDataOptr index => exact ONodeItemSet.moveDeleteDataOptr_run counted.data data index
  | remove index =>
    obtain ⟨sameCount, sameSlots⟩ := moveDeleteKey_datas it index
    change (ONodeItemSet.remove index).run serve it = _
    rw [ONodeItemSet.remove, run_bind, ONodeItemSet.moveDeleteKey_run counted.keys, Option.bind_some]
    exact ONodeItemSet.moveDeleteDataOptr_run (sameCount.trans_le counted.data)
      (fun i inside => (congrFun sameSlots i).trans_lt (data i inside)) index

end ItemSet

/-- An addition to the tree moves the data pointers of a node just so. -/
theorem moveInsertDataOptr_edit {s : IndexFile} {p c i : Nat} (inside : i ≤ (s.node p).dataOptrCount)
    (room : (s.node p).dataOptrCount ≤ 2) (d : Nat) :
    (oNode.moveInsertDataOptr p c i (some d)).run s = .ok ((), s.edit p fun it => it.moveInsertDataOptr i d) := by
  have moved : (s.node p).moveInsertDataOptr i d = { s.node p with
      dataSlot := ItemSet.slideUp (s.node p).dataSlot i (s.node p).dataOptrCount d } := by
    rw [ItemSet.moveInsertDataOptr, ItemSet.shiftDataOptrs_eq_lift (Nat.le_succ _)]
    rfl
  rw [moveInsertDataOptr_run inside room d, edit_eq_put, moved]

namespace IndexFile
variable {s : IndexFile}

theorem edit_edit (s : IndexFile) (p : Nat) (it it' : ItemSet) :
    (s.edit p fun _ => it).edit p (fun _ => it') = s.edit p fun _ => it' := by
  refine congrArg (fun node => ({ s with node } : IndexFile)) (funext fun x => ?_)
  by_cases here : x = p
  · simp only [edit, here, if_true]
  · simp only [edit, here, if_false]

/-- A client of a block, at the node with this address. -/
theorem run_node {α : Type} {client : BlockClient α} {p : Nat} {a : α} {it' : ItemSet} (isNode : s.IsNode p)
    (run : client.run ItemSet.serve (s.node p) = some (a, it')) :
    (client.mapCalls (IndexCall.node p)).run serve s = some (a, s.edit p fun _ => it') := by
  induction client generalizing s with
  | done a =>
    cases run
    have unchanged : s.edit p (fun _ => s.node p) = s := by
      refine congrArg (fun node => ({ s with node } : IndexFile)) (funext fun x => ?_)
      by_cases here : x = p
      · rw [here, if_pos rfl]
      · exact if_neg here
    rw [unchanged]
    rfl
  | ask call next ih =>
    obtain ⟨⟨answer, it₁⟩, served, rest⟩ := Option.bind_eq_some_iff.mp run
    obtain ⟨within, same⟩ := Option.ite_none_right_eq_some.mp served
    have first : s.serve (.node p call) = some (answer, s.edit p fun _ => it₁) := by
      have edited : s.edit p (fun it => (it.call call).2) = s.edit p fun _ => ((s.node p).call call).2 := by
        refine congrArg (fun node => ({ s with node } : IndexFile)) (funext fun x => ?_)
        by_cases here : x = p
        · rw [if_pos here, if_pos here, here]
        · rw [if_neg here, if_neg here]
      rw [serve, if_pos ⟨isNode, within⟩, edited, Option.some.inj same]
    have here : (s.edit p fun _ => it₁).node p = it₁ := if_pos rfl
    have later := ih answer (s := s.edit p fun _ => it₁) isNode (by rw [here]; exact rest)
    rw [edit_edit] at later
    rw [Client.mapCalls, Client.run, first, Option.bind_some, later]

end IndexFile

/-- The loops of a node block do in the file what they do to its fields, when its counts are those of its areas. -/
theorem PagedIndex.loop_pages (pageSize fuel : Nat) (x : PagedIndex) (s : IndexFile) (p : Nat) (loop : NodeLoop)
    (aligned : pageSize ∣ frameSize) (enough : CACHE_BLOCK_COUNT ≤ fuel) (shows : x.Shows s) (isNode : s.IsNode p)
    (counted : (s.node p).Counted) (fits : loop.Fits (s.node p)) :
    ∃ x', (loop.client.mapCalls (IndexCall.node p)).run (serve pageSize fuel) x = some ((), x') ∧
      x'.Shows (s.edit p fun _ => (s.node p).loop loop) := by
  obtain ⟨m, -, spells⟩ := shows.2
  exact client_shows aligned enough shows
    (IndexFile.run_node isNode (ItemSet.loop_run (spells.nodes p isNode) counted fits))

/-- A key is put in front of one that is there: the loop makes a round. -/
theorem PagedIndex.loop_pages_round : ∃ x s x', x.Shows s ∧ (s.node 100).keyCount = 1 ∧
    ((NodeLoop.moveInsertKey 0 5).client.mapCalls (IndexCall.node 100)).run (serve 4096 3) x = some ((), x') ∧
    x'.Shows (s.edit 100 fun _ => (s.node 100).loop (.moveInsertKey 0 5)) ∧
    ((s.node 100).loop (.moveInsertKey 0 5)).keySlot 1 = 7 := by
  obtain ⟨x, -, shows⟩ := openFile_shows (by decide : 4096 ∣ frameSize) (le_refl 3)
    (start_shows ⟨0, fun _ => 0⟩) (.inr rfl)
  obtain ⟨x₁, -, shows₁⟩ := loop_pages 4096 3 x _ 100 (.moveInsertKey 0 7) (by decide) le_rfl shows (by decide)
    ⟨by decide, by decide, by decide⟩ trivial
  have counted : (one (NodeCall.setKeyCount 1)).run ItemSet.serve ((({} : ItemSet).setParent 0).moveInsertKey 0 7) =
      some (none, ((({} : ItemSet).setParent 0).moveInsertKey 0 7).setKeyCount 1) := rfl
  obtain ⟨x₂, -, shows₂⟩ := client_shows (by decide : 4096 ∣ frameSize) le_rfl shows₁
    (IndexFile.run_node (p := 100) (by decide) counted)
  obtain ⟨x₃, run, shows₃⟩ := loop_pages 4096 3 x₂ _ 100 (.moveInsertKey 0 5) (by decide) le_rfl shows₂ (by decide)
    ⟨by decide, by decide, by decide⟩ trivial
  exact ⟨x₂, _, x₃, shows₂, rfl, run, shows₃, by decide⟩

end MiyaCore
