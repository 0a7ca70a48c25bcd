import MiyaCore.Chain.LightUTXOSet
import MiyaCore.Chain.TransactionCodec

/-!
# The records of outputs, and the keys they are stored under
-/

namespace MiyaCore.Chain

open Chunks

variable {PKey : Type} {c : Crypto PKey}

namespace UTXO

/-- An imported record has no output to take the key hash from. -/
theorem txOut_of_importFromJson {doc : UtxoDoc} {u : UTXO} (imported : importFromJson doc = some u) :
    u.txOut = none := by
  simp only [importFromJson, Option.bind_eq_bind, Option.bind_eq_some_iff, Option.pure_def,
    Option.some.injEq] at imported
  obtain ⟨_, -, rfl⟩ := imported
  rfl

theorem dumpToBson_of_importFromJson (bson : Bson) {doc : UtxoDoc} {u : UTXO}
    (imported : importFromJson doc = some u) :
    u.dumpToBson bson = none := by
  rw [dumpToBson, txOut_of_importFromJson imported]
  rfl

/-- The record of an output says what the output is, and is dumped to the same bytes again. -/
def RoundTrip (bson : Bson) (memory : UInt64) (o : TxOut) (txID : List.Vector UInt8 32)
    (index : UInt32) : Prop :=
  ∃ raw doc u, (register memory o txID index).dumpToBson bson = some raw ∧ bson.decode raw = some doc ∧
    importFromJson doc = some u ∧ u.txID = txID.toList ∧ u.outputIndex = index ∧
    o.pubKeyHash.map p2pkhPkScript = some u.pkScript ∧ u.amount = o.value ∧ u.dumpToBson bson = some raw

/-- No record comes through: dumping it again goes through the output, which an imported record has not. -/
theorem recordRoundTrip_never (bson : Bson) (memory : UInt64) (o : TxOut) (txID : List.Vector UInt8 32)
    (index : UInt32) :
    ¬RoundTrip bson memory o txID index := by
  rintro ⟨raw, doc, u, -, -, imported, -, -, -, -, again⟩
  rw [dumpToBson_of_importFromJson bson imported] at again
  exact Option.some_ne_none raw again.symm

/-- Even where the memory happens to hold the amount, the imported record cannot be dumped. -/
theorem recordRoundTrip_fails :
    ((register LightUTXOSet.sampleOutput.memory LightUTXOSet.sampleOutput.txOut
      LightUTXOSet.sampleOutput.txID 0).dumpToBson
      LightUTXOSet.sampleBson).map (fun raw => ((LightUTXOSet.sampleBson.decode raw).bind importFromJson).map fun u =>
        (u.amount, (u.dumpToBson LightUTXOSet.sampleBson).isSome)) = some (some (5, false)) ∧
    ¬RoundTrip LightUTXOSet.sampleBson LightUTXOSet.sampleOutput.memory LightUTXOSet.sampleOutput.txOut
      LightUTXOSet.sampleOutput.txID 0 := by
  refine ⟨by decide +kernel, ?_⟩
  rintro ⟨raw, doc, u, -, -, imported, -, -, -, -, again⟩
  rw [dumpToBson_of_importFromJson _ imported] at again
  exact Option.some_ne_none raw again.symm

end UTXO

namespace LightUTXOSet

/-- What is hashed to the key of an output. -/
def joinedIDIndex (txID : List.Vector UInt8 32) (index : UInt32) : List UInt8 :=
  txID.toList ++ Bytes.le 4 index.toNat

/-- The key that `get` looks an outpoint up under; the getter of the index is short. -/
def lookupKey (c : Crypto PKey) (p : PrevOut) : List UInt8 := generateUTxOKey c p.txID.toList p.index.toUInt32

/-- The key that `add` stores an output under. -/
def storeKey (c : Crypto PKey) (txID : List.Vector UInt8 32) (index : UInt32) : List UInt8 :=
  generateUTxOKey c txID.toList index

theorem generateUTxOKey_eq (txID : List.Vector UInt8 32) (index : UInt32) :
    generateUTxOKey c txID.toList index = c.sha1 (joinedIDIndex txID index) := by
  rw [generateUTxOKey, joinedIDIndex, List.take_of_length_le (by simp)]

theorem joinedIDIndex_inj {txID txID' : List.Vector UInt8 32} {index index' : UInt32} :
    joinedIDIndex txID index = joinedIDIndex txID' index' ↔ txID = txID' ∧ index = index' := by
  constructor
  · intro same
    obtain ⟨ids, indices⟩ := List.append_inj same (by simp)
    refine ⟨List.Vector.toList_injective ids, ?_⟩
    have numbers := congrArg (fun l => UInt32.ofNat (Bytes.ofLe l)) indices
    simpa using numbers
  · rintro ⟨rfl, rfl⟩
    rfl

/-- The getter of the index keeps the index just when it is short. -/
theorem toUInt32_index_eq_iff (p : PrevOut) : p.index.toUInt32 = p.rawIndex ↔ p.rawIndex.toNat < 2 ^ 16 := by
  have small := p.index.toNat_lt
  rw [← UInt32.toNat_inj, UInt16.toNat_toUInt32, PrevOut.index, UInt32.toNat_toUInt16]
  omega

/-- Two outpoints are looked up under one key just when they are the same, and each is looked up under
the key it is stored under. -/
def KeysApart (c : Crypto PKey) (p q : PrevOut) : Prop :=
  (lookupKey c p = lookupKey c q ↔ p = q) ∧ lookupKey c p = storeKey c p.txID p.rawIndex ∧
    lookupKey c q = storeKey c q.txID q.rawIndex

/-- All that is hashed when two outpoints are stored and looked up. -/
def hashed (p q : PrevOut) : List (List UInt8) :=
  [joinedIDIndex p.txID p.rawIndex, joinedIDIndex p.txID p.index.toUInt32, joinedIDIndex q.txID q.rawIndex,
    joinedIDIndex q.txID q.index.toUInt32]

theorem lookupKey_eq_storeKey_iff {p q : PrevOut}
    (noCollision : ∀ a ∈ hashed p q, ∀ b ∈ hashed p q, c.sha1 a = c.sha1 b → a = b) :
    (lookupKey c p = storeKey c p.txID p.rawIndex ↔ p.rawIndex.toNat < 2 ^ 16) ∧
      (lookupKey c q = storeKey c q.txID q.rawIndex ↔ q.rawIndex.toNat < 2 ^ 16) := by
  rw [lookupKey, lookupKey, storeKey, storeKey, generateUTxOKey_eq, generateUTxOKey_eq,
    generateUTxOKey_eq, generateUTxOKey_eq, ← toUInt32_index_eq_iff, ← toUInt32_index_eq_iff]
  constructor
  · refine ⟨fun same => ?_, fun kept => by rw [kept]⟩
    exact (joinedIDIndex_inj.mp (noCollision _ (by simp [hashed]) _ (by simp [hashed]) same)).2
  · refine ⟨fun same => ?_, fun kept => by rw [kept]⟩
    exact (joinedIDIndex_inj.mp (noCollision _ (by simp [hashed]) _ (by simp [hashed]) same)).2

/-- Outpoints have keys of their own just when their indices are short, since `get` asks for the index
through a getter that returns an `unsigned short`. -/
theorem keysApart_iff (p q : PrevOut) (noCollision : ∀ a ∈ hashed p q, ∀ b ∈ hashed p q,
    c.sha1 a = c.sha1 b → a = b) :
    KeysApart c p q ↔ p.rawIndex.toNat < 2 ^ 16 ∧ q.rawIndex.toNat < 2 ^ 16 := by
  obtain ⟨atP, atQ⟩ := lookupKey_eq_storeKey_iff noCollision
  constructor
  · rintro ⟨-, storedP, storedQ⟩
    exact ⟨atP.mp storedP, atQ.mp storedQ⟩
  · rintro ⟨shortP, shortQ⟩
    refine ⟨⟨fun same => ?_, fun same => by rw [same]⟩, atP.mpr shortP, atQ.mpr shortQ⟩
    rw [lookupKey, lookupKey, generateUTxOKey_eq, generateUTxOKey_eq] at same
    obtain ⟨ids, indices⟩ := joinedIDIndex_inj.mp (noCollision _ (by simp [hashed]) _ (by simp [hashed]) same)
    rw [(toUInt32_index_eq_iff p).mpr shortP, (toUInt32_index_eq_iff q).mpr shortQ] at indices
    cases p
    cases q
    exact congrArg₂ PrevOut.mk ids indices

/-- A hash that keeps the last twenty bytes. -/
def sampleTail : Crypto Unit where
  sha1 l := (l.reverse ++ List.replicate 20 0).take 20
  sha256 _ := List.replicate 32 0
  toPkey _ := some ()
  toRawPubKey _ := List.replicate 88 1
  verify _ _ _ := true
  length_sha1 _ := by simp
  length_sha256 := length_zeros32

/-- The outpoints with the indices 0 and 1 of one transaction. -/
theorem keysApart_iff_short :
    KeysApart sampleTail ⟨List.Vector.replicate 32 7, 0⟩ ⟨List.Vector.replicate 32 7, 1⟩ ↔
      0 < 2 ^ 16 ∧ 1 < 2 ^ 16 :=
  keysApart_iff _ _ (by decide +kernel)

/-- The output 65536 of a transaction is looked up under the key of its output 0. The hash keeps apart what
is hashed for the two. -/
theorem keysApart_fails :
    (∀ a ∈ hashed ⟨List.Vector.replicate 32 7, 0⟩ ⟨List.Vector.replicate 32 7, 65536⟩,
      ∀ b ∈ hashed ⟨List.Vector.replicate 32 7, 0⟩ ⟨List.Vector.replicate 32 7, 65536⟩,
        sampleTail.sha1 a = sampleTail.sha1 b → a = b) ∧
    lookupKey sampleTail ⟨List.Vector.replicate 32 7, 65536⟩ = storeKey sampleTail
      (List.Vector.replicate 32 7) 0 ∧
    ¬KeysApart sampleTail ⟨List.Vector.replicate 32 7, 0⟩ ⟨List.Vector.replicate 32 7, 65536⟩ := by
  refine ⟨by decide +kernel, by decide +kernel, ?_⟩
  rintro ⟨-, -, stored⟩
  revert stored
  decide +kernel

end LightUTXOSet

end MiyaCore.Chain
