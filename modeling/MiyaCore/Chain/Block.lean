import MiyaCore.Chain.Transaction

namespace MiyaCore.Chain

variable {PKey : Type}

/-- `BlockHeader`. -/
structure BlockHeader where
  version : UInt32 := 0
  previousBlockHeaderHash : List.Vector UInt8 32
  merkleRoot : List.Vector UInt8 32
  time : UInt32
  nBits : UInt32
  nonce : UInt32
deriving DecidableEq

/-- `generatenBitMask`: one byte of exponent and three of coefficient. The shift is an
`unsigned short`; an index outside the mask has no defined result. -/
def generatenBitMask (nBits : UInt32) : Option (List UInt8) :=
  let byte (i : Nat) : UInt8 := UInt8.ofNat (nBits.toNat / 256 ^ i)
  let shift := ((byte 3).toNat + 65533) % 65536
  if shift + 2 ≤ 31 then
    some ((((List.replicate 32 0).set (31 - (shift + 2)) (byte 2)).set (31 - (shift + 1)) (byte 1)).set
      (31 - shift) (byte 0))
  else none

/-- `mbitcmp`: the mask is not below the hash, from the first byte on. -/
def mbitcmp : List UInt8 → List UInt8 → Bool
  | m :: mask, h :: hash => if m < h then false else if m = h then mbitcmp mask hash else true
  | _, _ => true

namespace BlockHeader

/-- The header as it lies in memory, on a little-endian host. -/
def exportRaw (h : BlockHeader) : List UInt8 :=
  Bytes.le 4 h.version.toNat ++ h.previousBlockHeaderHash.toList ++ h.merkleRoot.toList ++
    Bytes.le 4 h.time.toNat ++ Bytes.le 4 h.nBits.toNat ++ Bytes.le 4 h.nonce.toNat

@[simp] theorem length_exportRaw (h : BlockHeader) : h.exportRaw.length = 80 := by simp [exportRaw]

def importRawSequentially (raw : List UInt8) : Option (BlockHeader × Nat) :=
  if size : 80 ≤ raw.length then
    let word (i : Nat) : UInt32 := UInt32.ofNat (Bytes.ofLe ((raw.drop i).take 4))
    some ({ version := word 0, previousBlockHeaderHash := ⟨(raw.drop 4).take 32, by simp; omega⟩,
            merkleRoot := ⟨(raw.drop 36).take 32, by simp; omega⟩, time := word 68, nBits :=
            word 72, nonce := word 76 }, 80)
  else none

def headerHash (c : Crypto PKey) (h : BlockHeader) : List UInt8 := c.sha256 h.exportRaw

/-- `BlockHeader::verify`. -/
def verify (c : Crypto PKey) (h : BlockHeader) : Option Bool := do
  let mask ← generatenBitMask h.nBits
  return mbitcmp mask (h.headerHash c)

def cmpMerkleRoot (h : BlockHeader) (target : List UInt8) : Bool := h.merkleRoot.toList = target

end BlockHeader

/-- `UTXO`, as far as `verify` reads it. -/
structure Utxo where
  amount : UInt64
  pkScript : Script

/-- What `get` answers for a transaction id and an index; those of the program's own set are
`LightUTXOSet.answers`. -/
def UtxoSet := List.Vector UInt8 32 → UInt32 → Option Utxo

/-- `LightUTXOSet::get` for a `prev_out` asks for the index its getter returns. -/
def UtxoSet.get (utxoSet : UtxoSet) (p : PrevOut) : Option Utxo := utxoSet p.txID p.index.toUInt32

/-- The loop of `P2PKH::verify` from input `i` on, with `n` inputs to go. The scripts are copied
for the validator before `txHashOnTxIn` changes the input. -/
def P2PKH.verifyLoop (c : Crypto PKey) (utxoSet : UtxoSet) :
    Nat → Nat → P2PKH PKey → Bool → Option (Bool × P2PKH PKey)
  | 0, _, t, flag => some (flag, t)
  | n + 1, i, t, _ => do
    let x ← t.ins[i]?
    match utxoSet.get x.prevOut with
    | none => return (false, t)
    | some utxo =>
      if utxo.pkScript.length ≤ 0 then return (false, t)
      else if x.signatureScript.script.length ≤ 0 then return (false, t)
      else
        let (txHash, t) ← t.txHashOnTxIn c i
        let _flag ← verifyP2PKHScript c utxo.pkScript x.signatureScript.script txHash
        verifyLoop c utxoSet n (i + 1) t true

/-- `P2PKH::verify`. -/
def P2PKH.verify (c : Crypto PKey) (utxoSet : UtxoSet) (t : P2PKH PKey) : Option (Bool × P2PKH PKey) :=
  t.verifyLoop c utxoSet t.ins.length 0 false

/-- `Block`. -/
structure Block (PKey : Type) where
  header : BlockHeader
  coinbase : Option Coinbase := none
  txVector : List (P2PKH PKey) := []

/-- Every second member, from the first on. -/
def evens {α : Type} : List α → List α
  | [] => []
  | [x] => [x]
  | x :: _ :: l => x :: evens l

/-- `calcRoot` inside `Block::calcMerkleRoot`. A level hashes every second id joined to itself. -/
def calcRoot (c : Crypto PKey) : Nat → List (List UInt8) → List (List UInt8)
  | 0, ids => ids
  | fuel + 1, ids => if ids.length ≤ 1 then ids else calcRoot c fuel ((evens ids).map fun x => c.sha256 (x ++ x))

/-- Running an operation on each member of a list and keeping what it leaves behind. -/
def runAll {α β : Type} (f : α → Option (β × α)) (l : List α) : Option (List β × List α) := do
  let parts ← l.mapM f
  return (parts.map Prod.fst, parts.map Prod.snd)

namespace Block

/-- `Block::calcMerkleRoot`: the root, if there is a coinbase, and the block with its
transactions as their export leaves them. -/
def calcMerkleRoot (c : Crypto PKey) (b : Block PKey) : Option (Buffer × Block PKey) :=
  match b.coinbase with
  | none => some (none, b)
  | some coinbase => do
    let (id, coinbase) ← coinbase.calcTxID c
    let (ids, txVector) ← runAll (P2PKH.calcTxID c) b.txVector
    let all := id :: ids
    let all := if all.length % 2 ≠ 0 then all ++ all.getLast?.toList else all
    let b := { b with coinbase := some coinbase, txVector := txVector }
    match calcRoot c all.length all with
    | [root] => return (some root, b)
    | _ => return (none, b)

/-- The loop of `Block::verify` over the transactions. -/
def verifyTxs (c : Crypto PKey) (utxoSet : UtxoSet) : List (P2PKH PKey) → Option Bool
  | [] => some true
  | t :: rest => do
    let (flag, _) ← t.verify c utxoSet
    if flag then verifyTxs c utxoSet rest else return false

/-- `Block::verify`. Comparing with a root that was not computed reads a null pointer. -/
def verify (c : Crypto PKey) (utxoSet : UtxoSet) (b : Block PKey) : Option Bool := do
  let flag ← b.header.verify c
  if !flag then return false
  let (merkle, b) ← b.calcMerkleRoot c
  let merkle ← merkle
  if !b.header.cmpMerkleRoot merkle then return false
  verifyTxs c utxoSet b.txVector

end Block

end MiyaCore.Chain
