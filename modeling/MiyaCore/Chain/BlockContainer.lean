import MiyaCore.Chain.Acceptance

namespace MiyaCore.Chain

variable {PKey : Type} {c : Crypto PKey}

/-- `BlockContainer`. The constructors leave the meta area as it is found in memory. -/
structure BlockContainer (PKey : Type) where
  magicBytes : List.Vector UInt8 4
  size : UInt32 := 0
  txCount : UInt32 := 0
  block : Block PKey

namespace BlockContainer

/-- The bytes of a container around those of its header, coinbase and transactions. -/
def frame (x : BlockContainer PKey) (header coinbase txs : List UInt8) : List UInt8 :=
  x.magicBytes.toList ++ Bytes.le 4 (12 + header.length + txs.length + coinbase.length) ++
    Bytes.le 4 x.block.txVector.length ++ header ++ coinbase ++ txs

/-- `BlockContainer::exportRawFormated`. A block without coinbase has no defined export. -/
def exportRawFormated (c : Crypto PKey) (x : BlockContainer PKey) :
    Option (List UInt8 × BlockContainer PKey) := do
  let header := x.block.header.exportRaw
  let coinbase ← x.block.coinbase
  let (rawCoinbase, coinbase) ← coinbase.exportRaw
  let (rawTxs, txVector) ← exportAll (P2PKH.exportRaw c) x.block.txVector
  let raw := x.frame header rawCoinbase rawTxs
  return (raw, { x with size := UInt32.ofNat raw.length, txCount := UInt32.ofNat txVector.length,
                        block := { x.block with coinbase := some coinbase, txVector := txVector } })

/-- `importMetaSequentially` and `importBlockSequentially` into a fresh container, with the
number of bytes they read. -/
def importRaw (c : Crypto PKey) (raw : List UInt8) : Option (BlockContainer PKey × Nat) :=
  if whole : 12 ≤ raw.length then do
    let size := Bytes.ofLe ((raw.drop 4).take 4)
    let txCount := Bytes.ofLe ((raw.drop 8).take 4)
    let (header, n) ← BlockHeader.importRawSequentially (raw.drop 12)
    let (coinbase, m) ← Coinbase.importRawSequentially (raw.drop (12 + n))
    let (txVector, l) ← importAll (P2PKH.importRawSequentially c) txCount (raw.drop (12 + n + m))
    return ({ magicBytes := ⟨raw.take 4, by simp; omega⟩, size := UInt32.ofNat size, txCount := UInt32.ofNat txCount,
              block := { header, coinbase := some coinbase, txVector } }, 12 + n + m + l)
  else none

/-- The ids of the transactions, the coinbase first. -/
def txIDs (c : Crypto PKey) (b : Block PKey) : Option (List (List UInt8)) := do
  let coinbase ← b.coinbase
  let (id, _) ← coinbase.calcTxID c
  let (ids, _) ← runAll (P2PKH.calcTxID c) b.txVector
  return id :: ids

/-- A container is read back from its bytes: all of them are read, header, coinbase and
transactions are the same by what they export, and so are their ids, the Merkle root and
the bytes of another export. -/
def RoundTrip (c : Crypto PKey) (x : BlockContainer PKey) : Prop :=
  ∃ raw after y, x.exportRawFormated c = some (raw, after) ∧ importRaw c raw = some (y, raw.length) ∧
    y.block.header = x.block.header ∧
    y.block.coinbase.map (fun b => b.exportRaw.map Prod.fst) = x.block.coinbase.map
    (fun b => b.exportRaw.map Prod.fst) ∧ txIDs c y.block = txIDs c x.block ∧
    (y.block.calcMerkleRoot c).map Prod.fst = (x.block.calcMerkleRoot c).map Prod.fst ∧
    (y.exportRawFormated c).map Prod.fst = some raw

theorem importRawSequentially_pubkeyHash {raw : List UInt8} {x : Coinbase} {n : Nat}
    (run : Coinbase.importRawSequentially raw = some (x, n)) : x.pubkeyHash = none := by
  simp only [Coinbase.importRawSequentially, Option.bind_eq_bind, Option.bind_eq_some_iff] at run
  obtain ⟨_, -, _, -, _, -, _, -, _, -, result⟩ := run
  obtain ⟨rfl, -⟩ := Prod.mk.inj (Option.some.inj result)
  rfl

/-- The coinbase of an imported block has no key hash. -/
theorem importRaw_coinbase {raw : List UInt8} {y : BlockContainer PKey} {n : Nat} (run : importRaw c raw = some (y, n)) :
    ∃ coinbase, y.block.coinbase = some coinbase ∧ coinbase.pubkeyHash = none := by
  rw [importRaw] at run
  split_ifs at run with size
  simp only [Option.bind_eq_bind, Option.bind_eq_some_iff] at run
  obtain ⟨_, -, ⟨coinbase, m⟩, imported, _, -, result⟩ := run
  obtain ⟨rfl, -⟩ := Prod.mk.inj (Option.some.inj result)
  exact ⟨coinbase, rfl, importRawSequentially_pubkeyHash imported⟩

/-- An imported block cannot be exported again: the coinbase asserts that it has a key hash. -/
theorem exportRawFormated_imported {raw : List UInt8} {y : BlockContainer PKey} {n : Nat}
    (run : importRaw c raw = some (y, n)) : y.exportRawFormated c = none := by
  obtain ⟨coinbase, is, noHash⟩ := importRaw_coinbase run
  have stuck : coinbase.exportRaw = none := by
    rw [Coinbase.exportRaw, noHash]
    cases coinbase.txIn.exportRaw <;> rfl
  simp [exportRawFormated, is, stuck]

/-- No block makes the round trip. -/
theorem roundTrip_never (c : Crypto PKey) (x : BlockContainer PKey) : ¬x.RoundTrip c := by
  rintro ⟨raw, after, y, -, imported, -, -, -, -, again⟩
  rw [exportRawFormated_imported imported] at again
  simp at again

/-- A block with a coinbase and one signed transaction; it is exported and imported. -/
def sampleContainer : BlockContainer Unit where
  magicBytes := List.Vector.replicate 4 0
  block := Block.sampleBlock [Block.sampleOut]

/-- The import reads all the bytes, but what it gives cannot be exported. -/
theorem roundTrip_fails :
    ((sampleContainer.exportRawFormated (Block.sample true)).bind fun r =>
      (importRaw (Block.sample true) r.1).map fun y => decide (y.2 = r.1.length)) = some true ∧
    ¬sampleContainer.RoundTrip (Block.sample true) := by
  refine ⟨by decide +kernel, ?_⟩
  rintro ⟨raw, after, y, -, imported, -, -, -, -, again⟩
  rw [exportRawFormated_imported imported] at again
  simp at again

end BlockContainer

end MiyaCore.Chain
