import MiyaCore.Chain.Acceptance

/-!
# The totals of the mempool
-/

namespace MiyaCore.Chain

variable {PKey : Type}

/-- `tx::transaction_ref`: a constant transaction, with what `get_id` gives for it. -/
structure TransactionRef (c : Crypto PKey) where
  tx : P2PKH PKey
  id : List UInt8
  hasId : (tx.calcTxID c).map Prod.fst = some id

/-- `P2PKH::get_size`, a constant so far. -/
def P2PKH.getSize : UInt64 := 100

/-- `mempool_entry`. -/
structure MempoolEntry (c : Crypto PKey) where
  txRef : TransactionRef c
  fee : UInt32
  memUsageSize : UInt32
  entryedAt : Int64

namespace MempoolEntry

variable {c : Crypto PKey}

/-- The size of the fee, the usage and the time of an entry. -/
def sizeofMeta : UInt64 := 16

def getTxId (e : MempoolEntry c) : List UInt8 := e.txRef.id
def getTxFee (e : MempoolEntry c) : UInt64 := e.fee.toUInt64
def getTxSizeBytes (_ : MempoolEntry c) : UInt64 := P2PKH.getSize
def getEntrySizeBytes (e : MempoolEntry c) : UInt64 := e.getTxSizeBytes + sizeofMeta

end MempoolEntry

/-- `mempool`, with the entries of its container. -/
structure Mempool (c : Crypto PKey) where
  indexedTxSet : List (MempoolEntry c) := []
  totalMemUsageBytes : UInt64 := 0
  totalTxSizeBytes : UInt64 := 0
  totalFee : UInt64 := 0

namespace Mempool

variable {c : Crypto PKey}

/-- Looking an entry up by the id of its transaction. -/
def find (pool : Mempool c) (id : List UInt8) : Option (MempoolEntry c) :=
  pool.indexedTxSet.find? fun e => e.getTxId = id

/-- Inserting into a container with unique ids gives the entry that is in it then. -/
def insert (pool : Mempool c) (entry : MempoolEntry c) : MempoolEntry c × List (MempoolEntry c) :=
  match pool.find entry.getTxId with
  | some present => (present, pool.indexedTxSet)
  | none => (entry, entry :: pool.indexedTxSet)

/-- `mempool::add_entry`. -/
def addEntry (pool : Mempool c) (entry : MempoolEntry c) : Mempool c :=
  let (ret, indexedTxSet) := pool.insert entry
  { indexedTxSet
    totalMemUsageBytes := pool.totalMemUsageBytes + ret.getEntrySizeBytes
    totalTxSizeBytes := pool.totalTxSizeBytes + ret.getTxSizeBytes
    totalFee := ret.getTxFee }

/-- `mempool::remove_entry`. The entry found is read unchecked; past the end there is none to read. -/
def removeEntry (pool : Mempool c) (target : TransactionRef c) : Option (Mempool c) := do
  let found ← pool.find target.id
  return {
    indexedTxSet := pool.indexedTxSet.filter fun e => e.getTxId ≠ target.id
    totalMemUsageBytes := pool.totalMemUsageBytes - found.getEntrySizeBytes
    totalTxSizeBytes := pool.totalTxSizeBytes - found.getTxSizeBytes
    totalFee := pool.totalFee - found.getTxFee }

inductive Call (c : Crypto PKey) where
  | add (entry : MempoolEntry c)
  | remove (target : TransactionRef c)

def step (pool : Mempool c) : Call c → Option (Mempool c)
  | .add entry => some (pool.addEntry entry)
  | .remove target => pool.removeEntry target

/-- What the entries come to. -/
def sum (size : MempoolEntry c → UInt64) (l : List (MempoolEntry c)) : Nat :=
  (l.map fun e => (size e).toNat).sum

/-- No id is in the pool twice, and the totals are those of the entries. -/
structure Matches (pool : Mempool c) : Prop where
  unique : (pool.indexedTxSet.map MempoolEntry.getTxId).Nodup
  memUsage : pool.totalMemUsageBytes.toNat = sum MempoolEntry.getEntrySizeBytes pool.indexedTxSet
  txSize : pool.totalTxSizeBytes.toNat = sum MempoolEntry.getTxSizeBytes pool.indexedTxSet
  fee : pool.totalFee.toNat = sum MempoolEntry.getTxFee pool.indexedTxSet

/-- Nothing larger than a total is taken off it. -/
def NoWrap (pool : Mempool c) : Call c → Prop
  | .add _ => True
  | .remove target => ∀ found ∈ pool.find target.id, found.getEntrySizeBytes ≤ pool.totalMemUsageBytes ∧
      found.getTxSizeBytes ≤ pool.totalTxSizeBytes ∧ found.getTxFee ≤ pool.totalFee

/-- Before and after every call of the run the totals match, and no call wraps one of them below zero. -/
def AlwaysMatches (pool : Mempool c) : List (Call c) → Prop
  | [] => pool.Matches
  | call :: calls => pool.Matches ∧ pool.NoWrap call ∧ ∃ pool', pool.step call = some pool' ∧
  pool'.AlwaysMatches calls

/-- A new id is added to a pool whose entries have no fee, as long as the sizes of all entries can be told in
64 bits; what is removed is there. -/
def Plain (pool : Mempool c) : Call c → Prop
  | .add entry => pool.find entry.getTxId = none ∧ (∀ e ∈ pool.indexedTxSet, e.fee = 0) ∧
      116 * (pool.indexedTxSet.length + 1) < 2 ^ 64
  | .remove target => (pool.find target.id).isSome

/-- Every call of the run is plain in the pool before it. -/
def AllPlain (pool : Mempool c) : List (Call c) → Prop
  | [] => True
  | call :: calls => pool.Plain call ∧ ∀ pool', pool.step call = some pool' → pool'.AllPlain calls

@[simp] theorem toNat_getEntrySizeBytes (e : MempoolEntry c) : e.getEntrySizeBytes.toNat = 116 := rfl

@[simp] theorem toNat_getTxSizeBytes (e : MempoolEntry c) : e.getTxSizeBytes.toNat = 100 := rfl

theorem sum_cons (size : MempoolEntry c → UInt64) (e : MempoolEntry c) (l : List (MempoolEntry c)) :
    sum size (e :: l) = (size e).toNat + sum size l := by
  rw [sum, List.map_cons, List.sum_cons, sum]

theorem sum_perm (size : MempoolEntry c → UInt64) {l l' : List (MempoolEntry c)} (perm : l.Perm l') :
    sum size l = sum size l' :=
  (perm.map _).sum_eq

theorem sum_entrySize (l : List (MempoolEntry c)) : sum MempoolEntry.getEntrySizeBytes l = 116 * l.length := by
  simp [sum, mul_comm]

theorem sum_txSize (l : List (MempoolEntry c)) : sum MempoolEntry.getTxSizeBytes l = 100 * l.length := by
  simp [sum, mul_comm]

theorem sum_fee_eq_zero_iff (l : List (MempoolEntry c)) :
    sum MempoolEntry.getTxFee l = 0 ↔ ∀ e ∈ l, e.fee = 0 := by
  simp only [sum, List.sum_eq_zero_iff_forall_eq_nat, List.forall_mem_map, MempoolEntry.getTxFee,
    UInt32.toNat_toUInt64, ← UInt32.toNat_inj, UInt32.toNat_zero]

theorem matches_empty : ({} : Mempool c).Matches where
  unique := List.nodup_nil
  memUsage := rfl
  txSize := rfl
  fee := rfl

/-- What is found, and the entries that stay when it is removed. -/
theorem perm_of_find {pool : Mempool c} (unique : (pool.indexedTxSet.map MempoolEntry.getTxId).Nodup)
    {id : List UInt8} {found : MempoolEntry c} (run : pool.find id = some found) :
    pool.indexedTxSet.Perm (found :: pool.indexedTxSet.filter fun e => e.getTxId ≠ id) := by
  obtain ⟨isId, front, back, split, before⟩ := List.find?_eq_some_iff_append.mp run
  have sameId : found.getTxId = id := by simpa using isId
  rw [split] at unique ⊢
  rw [List.map_append, List.map_cons, List.nodup_append, List.nodup_cons] at unique
  obtain ⟨-, ⟨notBehind, -⟩, -⟩ := unique
  have inFront : front.filter (fun e => decide (e.getTxId ≠ id)) = front := by
    refine List.filter_eq_self.mpr fun e member => ?_
    simpa using before e member
  have inBack : back.filter (fun e => decide (e.getTxId ≠ id)) = back := by
    refine List.filter_eq_self.mpr fun e member => ?_
    rw [decide_eq_true_eq, ← sameId]
    exact fun same => notBehind (List.mem_map.mpr ⟨e, member, same⟩)
  rw [List.filter_append, List.filter_cons, inFront, inBack, if_neg (by simp [sameId])]
  exact List.perm_middle

/-- An add keeps the totals just when it is plain: an id that is there is counted again, and the fee is set
where it should be added. -/
theorem addEntry_matches_iff {pool : Mempool c} (pre : pool.Matches) (entry : MempoolEntry c) :
    (pool.addEntry entry).Matches ↔ pool.Plain (.add entry) := by
  have mem := pre.memUsage
  have tx := pre.txSize
  rw [sum_entrySize] at mem
  rw [sum_txSize] at tx
  cases looked : pool.find entry.getTxId with
  | some present =>
    have same : (pool.addEntry entry).indexedTxSet = pool.indexedTxSet := by simp [addEntry, insert, looked]
    have grown : (pool.addEntry entry).totalMemUsageBytes = pool.totalMemUsageBytes +
      present.getEntrySizeBytes := by
      simp [addEntry, insert, looked]
    constructor
    · intro post
      have total := post.memUsage
      rw [same, grown, sum_entrySize, ← mem, UInt64.toNat_add, toNat_getEntrySizeBytes] at total
      omega
    · rintro ⟨absent, -⟩
      rw [looked] at absent
      exact absurd absent (Option.some_ne_none present)
  | none =>
    have added : pool.addEntry entry =
        { indexedTxSet := entry :: pool.indexedTxSet
          totalMemUsageBytes := pool.totalMemUsageBytes + entry.getEntrySizeBytes
          totalTxSizeBytes := pool.totalTxSizeBytes + entry.getTxSizeBytes
          totalFee := entry.getTxFee } := by
      simp [addEntry, insert, looked]
    rw [added]
    constructor
    · intro post
      have total := post.memUsage
      have fees := post.fee
      rw [sum_entrySize, UInt64.toNat_add, mem, toNat_getEntrySizeBytes, List.length_cons] at total
      rw [sum_cons] at fees
      change entry.getTxFee.toNat = _ at fees
      refine ⟨looked, (sum_fee_eq_zero_iff _).mp (by omega), by omega⟩
    · rintro ⟨-, free, fits⟩
      refine ⟨?_, ?_, ?_, ?_⟩
      · rw [List.map_cons, List.nodup_cons]
        refine ⟨fun member => ?_, pre.unique⟩
        obtain ⟨e, there, sameId⟩ := List.mem_map.mp member
        exact absurd sameId (by simpa using List.find?_eq_none.mp looked e there)
      · rw [sum_entrySize, UInt64.toNat_add, mem, toNat_getEntrySizeBytes, List.length_cons]
        omega
      · rw [sum_txSize, UInt64.toNat_add, tx, toNat_getTxSizeBytes, List.length_cons]
        omega
      · rw [sum_cons, (sum_fee_eq_zero_iff _).mpr free, Nat.add_zero]

/-- Removing an id that is there keeps the totals, and takes nothing off that is not in them. -/
theorem removeEntry_matches {pool : Mempool c} (pre : pool.Matches) {target : TransactionRef c}
    (there : (pool.find target.id).isSome) :
    pool.NoWrap (.remove target) ∧ ∃ pool', pool.removeEntry target = some pool' ∧ pool'.Matches := by
  obtain ⟨found, looked⟩ := Option.isSome_iff_exists.mp there
  have perm := perm_of_find pre.unique looked
  have mem := pre.memUsage
  have tx := pre.txSize
  have fee := pre.fee
  rw [sum_perm _ perm, sum_cons] at mem tx fee
  have lowMem : found.getEntrySizeBytes ≤ pool.totalMemUsageBytes := UInt64.le_iff_toNat_le.mpr (by omega)
  have lowTx : found.getTxSizeBytes ≤ pool.totalTxSizeBytes := UInt64.le_iff_toNat_le.mpr (by omega)
  have lowFee : found.getTxFee ≤ pool.totalFee := UInt64.le_iff_toNat_le.mpr (by omega)
  refine ⟨fun e isFound => ?_, _, by rw [removeEntry, looked]; rfl, ?_, ?_, ?_, ?_⟩
  · obtain rfl : found = e := Option.some.inj (looked.symm.trans isFound)
    exact ⟨lowMem, lowTx, lowFee⟩
  · exact pre.unique.sublist (List.filter_sublist.map _)
  · exact (UInt64.toNat_sub_of_le _ _ lowMem).trans (by rw [mem, Nat.add_sub_cancel_left])
  · exact (UInt64.toNat_sub_of_le _ _ lowTx).trans (by rw [tx, Nat.add_sub_cancel_left])
  · exact (UInt64.toNat_sub_of_le _ _ lowFee).trans (by rw [fee, Nat.add_sub_cancel_left])

theorem step_matches_iff {pool : Mempool c} (pre : pool.Matches) (call : Call c) :
    (pool.NoWrap call ∧ ∃ pool', pool.step call = some pool' ∧ pool'.Matches) ↔ pool.Plain call := by
  cases call with
  | add entry =>
    rw [← addEntry_matches_iff pre entry]
    exact ⟨fun ⟨_, _, run, post⟩ => Option.some.inj run ▸ post, fun post => ⟨trivial, _, rfl, post⟩⟩
  | remove target =>
    constructor
    · rintro ⟨-, pool', run, -⟩
      simp only [step, removeEntry, Option.bind_eq_bind, Option.bind_eq_some_iff] at run
      obtain ⟨found, looked, -⟩ := run
      exact Option.isSome_iff_exists.mpr ⟨found, looked⟩
    · exact removeEntry_matches pre

theorem run_matches_iff {pool : Mempool c} (pre : pool.Matches) (calls : List (Call c)) :
    pool.AlwaysMatches calls ↔ pool.AllPlain calls := by
  induction calls generalizing pool with
  | nil => exact iff_of_true pre trivial
  | cons call calls ih =>
    constructor
    · rintro ⟨-, noWrap, pool', run, later⟩
      have post : pool'.Matches := by
        cases calls with
        | nil => exact later
        | cons _ _ => exact later.1
      refine ⟨(step_matches_iff pre call).mp ⟨noWrap, pool', run, post⟩, fun next reached => ?_⟩
      obtain rfl := Option.some.inj (run.symm.trans reached)
      exact (ih post).mp later
    · rintro ⟨plain, later⟩
      obtain ⟨noWrap, pool', run, post⟩ := (step_matches_iff pre call).mpr plain
      exact ⟨pre, noWrap, pool', run, (ih post).mpr (later pool' run)⟩

/-- From the empty pool on the totals match in every state of a run just when every call is plain. -/
theorem alwaysMatches_iff (calls : List (Call c)) :
    ({} : Mempool c).AlwaysMatches calls ↔ ({} : Mempool c).AllPlain calls :=
  run_matches_iff matches_empty calls

/-- A hash that begins with the bytes themselves. -/
def sampleHead : Crypto Unit where
  sha1 _ := List.replicate 20 0
  sha256 l := (l ++ List.replicate 32 0).take 32
  toPkey _ := some ()
  toRawPubKey _ := List.replicate 88 1
  verify _ _ _ := true
  length_sha1 := length_zeros20
  length_sha256 _ := by simp

/-- One of two transactions without inputs and outputs, told apart by their versions. -/
def sampleTx (first : Bool) : P2PKH Unit where
  version := if first then 1 else 2
  ins := []
  outs := []

def sampleEntry (first : Bool) (fee : UInt32) : MempoolEntry sampleHead where
  txRef :=
    { tx := sampleTx first
      id := (if first then 1 else 2) :: List.replicate 31 0
      hasId := by cases first <;> decide +kernel }
  fee := fee
  memUsageSize := 0
  entryedAt := 0

/-- With the fees 1 and 2 the total is 2. -/
theorem alwaysMatches_fails :
    ((({} : Mempool sampleHead).addEntry (sampleEntry true 1)).addEntry (sampleEntry false 2)).totalFee = 2 ∧
    sum MempoolEntry.getTxFee ((({} : Mempool sampleHead).addEntry (sampleEntry true 1)).addEntry
      (sampleEntry false 2)).indexedTxSet = 3 ∧
    ¬({} : Mempool sampleHead).AlwaysMatches [.add (sampleEntry true 1), .add (sampleEntry false 2)] := by
  refine ⟨by decide +kernel, by decide +kernel, ?_⟩
  rintro ⟨-, -, pool, first, -, -, pool', second, post⟩
  obtain rfl := Option.some.inj first
  obtain rfl := Option.some.inj second
  have total := post.fee
  revert total
  decide +kernel

end Mempool

end MiyaCore.Chain
