import Mathlib.Data.Vector.Basic
import MiyaCore.Chain.Script

namespace MiyaCore.Chain

/-- `prev_out`. The index is held in network byte order; this is the number it stands for. -/
structure PrevOut where
  txID : List.Vector UInt8 32
  rawIndex : UInt32
deriving DecidableEq

namespace PrevOut

/-- The getter `prev_out::index` returns an `unsigned short`. -/
def index (p : PrevOut) : UInt16 := p.rawIndex.toUInt16

def exportRaw (p : PrevOut) : List UInt8 := p.txID.toList ++ Bytes.be 4 p.rawIndex.toNat

def importRaw (raw : List UInt8) : Option (PrevOut × Nat) :=
  if size : 36 ≤ raw.length then
    some (⟨⟨raw.take 32, by simp; omega⟩, UInt32.ofNat (Bytes.ofBe ((raw.drop 32).take 4))⟩, 36)
  else none

end PrevOut

variable {PKey : Type}

/-- `SignatureScript`. The signature, its length and the flag are set by `sign`. -/
structure SignatureScript (PKey : Type) where
  sign : Buffer := none
  signLength : UInt32 := 0
  isSigned : Bool := false
  pkey : Option PKey := none
  script : Script := []

namespace SignatureScript

/-- `SignatureScript::exportRawWithPubKeyHash` empties the script. -/
def exportRawWithPubKeyHash (c : Crypto PKey) (s : SignatureScript PKey) : List UInt8 × SignatureScript PKey :=
  match s.pkey with
  | none => ([], s)
  | some pkey => (c.sha1 (c.toRawPubKey pkey), { s with script := [] })

/-- `SignatureScript::exportRawWithSignatureScript` sets the script anew from the signature
and the public key. -/
def exportRawWithSignatureScript (c : Crypto PKey) (s : SignatureScript PKey) :
    Option (List UInt8 × SignatureScript PKey) :=
  match s.pkey with
  | none => some ([], s)
  | some pkey => do
    let rawPubKey := c.toRawPubKey pkey
    let script := (Script.pushBack [] (.data (UInt8.ofNat s.signLength.toNat)) s.sign).pushBack
      (.data (UInt8.ofNat rawPubKey.length)) (some rawPubKey)
    let raw ← script.exportRaw
    return (raw, { s with script := script })

/-- `SignatureScript::importRaw`. The flag of the signature stays as it was. -/
def importRaw (c : Crypto PKey) (s : SignatureScript PKey) (raw : List UInt8) (length : Nat) :
    Option (SignatureScript PKey × Nat) :=
  if length ≤ 20 then some (s, 0)
  else do
    let (script, _) ← s.script.importRaw raw length
    let sign ← script[0]?
    let pubKey ← script[1]?
    let rawPubKey ← pubKey.2.read pubKey.1.dataLength
    return ({ s with script := script, sign := sign.2,
                     signLength := UInt32.ofNat sign.1.dataLength, pkey := c.toPkey rawPubKey },
      length)

end SignatureScript

/-- `TxIn`. -/
structure TxIn (PKey : Type) where
  prevOut : PrevOut
  scriptBytes : UInt32 := 0
  signatureScript : SignatureScript PKey := {}
  sequence : UInt32 := 0xffffffff
  pkey : Option PKey

namespace TxIn

def isSigned (x : TxIn PKey) : Bool := x.signatureScript.isSigned

/-- An input written out around the bytes of a script. -/
def frame (x : TxIn PKey) (script : List UInt8) : List UInt8 :=
  x.prevOut.exportRaw ++ Bytes.be 4 script.length ++ script ++ Bytes.le 4 x.sequence.toNat

def exportRawWithEmpty (x : TxIn PKey) : List UInt8 := x.prevOut.exportRaw ++ Bytes.le 4 x.sequence.toNat

/-- `TxIn::exportRawWithPubKeyHash` hands its own key to a signature script that has none. -/
def exportRawWithPubKeyHash (c : Crypto PKey) (x : TxIn PKey) : List UInt8 × TxIn PKey :=
  let keyed := { x.signatureScript with pkey := x.signatureScript.pkey.or x.pkey }
  let (hash, signatureScript) := keyed.exportRawWithPubKeyHash c
  (x.frame hash, { x with signatureScript := signatureScript, scriptBytes := UInt32.ofNat hash.length })

def exportRawWithSignatureScript (c : Crypto PKey) (x : TxIn PKey) : Option (List UInt8 × TxIn PKey) :=
  if x.isSigned then do
    let (raw, signatureScript) ← x.signatureScript.exportRawWithSignatureScript c
    return (x.frame raw, { x with signatureScript := signatureScript, scriptBytes := UInt32.ofNat raw.length })
  else some ([], x)

/-- `TxIn::importRaw` into a fresh input. -/
def importRaw (c : Crypto PKey) (raw : List UInt8) : Option (TxIn PKey × Nat) := do
  let (prevOut, n) ← PrevOut.importRaw raw
  let scriptBytes ← Bytes.take? 4 (raw.drop n)
  let length := Bytes.ofBe scriptBytes
  let (signatureScript, m) ← ({} : SignatureScript PKey).importRaw c (raw.drop (n + 4)) length
  let pubKey ← signatureScript.script[1]?
  let rawPubKey ← pubKey.2.read pubKey.1.dataLength
  let sequence ← Bytes.take? 4 (raw.drop (n + 4 + m))
  return ({ prevOut, scriptBytes := UInt32.ofNat length, signatureScript, sequence := UInt32.ofNat (Bytes.ofLe sequence),
            pkey := c.toPkey rawPubKey }, n + 4 + m + 4)

end TxIn

/-- `PkScript::exportRawWithP2PKHPkScript` sets the script that locks an output to a key. -/
def p2pkhPkScript (pubKeyHash : List UInt8) : Script :=
  [(.dup, none), (.hash160, none), (.data 0x14, some pubKeyHash), (.equalVerify, none), (.checkSig, none)]

/-- `TxOut`. The value is held in network byte order; this is the number it stands for. -/
structure TxOut where
  value : UInt64 := 0
  pkScriptBytes : UInt64 := 0
  pkScript : Script := []
  pubKeyHash : Buffer := none

namespace TxOut

/-- `TxOut::exportRaw`; without a key hash there is nothing to write. -/
def exportRaw (x : TxOut) : Option (List UInt8 × TxOut) :=
  match x.pubKeyHash with
  | none => some ([], x)
  | some pubKeyHash => do
    let script := p2pkhPkScript pubKeyHash
    let raw ← script.exportRaw
    return (Bytes.be 8 x.value.toNat ++ Bytes.be 8 raw.length ++ raw,
      { x with pkScript := script, pkScriptBytes := UInt64.ofNat raw.length })

/-- `TxOut::importRaw` into a fresh output; `pkScriptBytes` is read as an `unsigned int`. -/
def importRaw (raw : List UInt8) : Option (TxOut × Nat) := do
  let value ← Bytes.take? 8 raw
  let pkScriptBytes ← Bytes.take? 8 (raw.drop 8)
  let (pkScript, n) ← Script.importRaw [] (raw.drop 16) (Bytes.ofBe pkScriptBytes % 2 ^ 32)
  let pubKeyHash ← pkScript[2]?
  return ({ value := UInt64.ofNat (Bytes.ofBe value), pkScriptBytes := UInt64.ofNat (Bytes.ofBe pkScriptBytes), pkScript,
            pubKeyHash := pubKeyHash.2 }, 16 + n)

end TxOut

/-- `P2PKH`. -/
structure P2PKH (PKey : Type) where
  version : UInt32 := 0
  ins : List (TxIn PKey)
  outs : List TxOut

/-- Exporting each member of a list; the objects may change while they are exported. -/
def exportAll {α : Type} (write : α → Option (List UInt8 × α)) (l : List α) : Option (List UInt8 × List α) := do
  let parts ← l.mapM write
  return ((parts.map Prod.fst).flatten, parts.map Prod.snd)

/-- Importing `n` members one after the other. -/
def importAll {α : Type} (read : List UInt8 → Option (α × Nat)) : Nat → List UInt8 → Option (List α × Nat)
  | 0, _ => some ([], 0)
  | n + 1, raw => do
    let (x, size) ← read raw
    let (rest, sizes) ← importAll read n (raw.drop size)
    return (x :: rest, size + sizes)

namespace P2PKH

/-- Version, inputs and outputs in the order they are written, with both counts. -/
def frame (t : P2PKH PKey) (ins outs : List UInt8) : List UInt8 :=
  Bytes.le 4 t.version.toNat ++ Bytes.be 4 t.ins.length ++ ins ++ Bytes.be 4 t.outs.length ++ outs

/-- `P2PKH::exportRaw` writes nothing while an input is not signed. Lengths are of type
`unsigned int`; what is longer is written past the end of its buffer. -/
def exportRaw (c : Crypto PKey) (t : P2PKH PKey) : Option (List UInt8 × P2PKH PKey) :=
  if t.ins.all TxIn.isSigned then do
    let (rawIns, ins) ← exportAll (TxIn.exportRawWithSignatureScript c) t.ins
    let (rawOuts, outs) ← exportAll TxOut.exportRaw t.outs
    guard ((t.frame rawIns rawOuts).length < 2 ^ 32)
    return (t.frame rawIns rawOuts, { t with ins := ins, outs := outs })
  else some ([], t)

/-- `P2PKH::importRawSequentially` into a fresh transaction. -/
def importRawSequentially (c : Crypto PKey) (raw : List UInt8) : Option (P2PKH PKey × Nat) := do
  let version ← Bytes.take? 4 raw
  let inCount ← Bytes.take? 4 (raw.drop 4)
  let (ins, n) ← importAll (TxIn.importRaw c) (Bytes.ofBe inCount) (raw.drop 8)
  let outCount ← Bytes.take? 4 (raw.drop (8 + n))
  let (outs, m) ← importAll TxOut.importRaw (Bytes.ofBe outCount) (raw.drop (8 + n + 4))
  return ({ version := UInt32.ofNat (Bytes.ofLe version), ins, outs }, 8 + n + 4 + m)

/-- `P2PKH::calcTxID`. -/
def calcTxID (c : Crypto PKey) (t : P2PKH PKey) : Option (List UInt8 × P2PKH PKey) := do
  let (raw, t) ← t.exportRaw c
  return (c.sha256 raw, t)

/-- `P2PKH::txHashOnTxIn`: the transaction with the key hash of one input and no other script. -/
def txHashOnTxIn (c : Crypto PKey) (t : P2PKH PKey) (index : Nat) : Option (List UInt8 × P2PKH PKey) := do
  let ins := t.ins.mapIdx fun i x => if i = index then x.exportRawWithPubKeyHash c else
    (x.exportRawWithEmpty, x)
  let (rawOuts, outs) ← exportAll TxOut.exportRaw t.outs
  guard ((t.frame (ins.map Prod.fst).flatten rawOuts).length < 2 ^ 32)
  return (t.frame (ins.map Prod.fst).flatten rawOuts, { t with ins := ins.map Prod.snd, outs := outs })

end P2PKH

/-- `coinbase_tx_in`. -/
structure CoinbaseTxIn where
  prevOut : PrevOut := ⟨List.Vector.replicate 32 0, 0xffffffff⟩
  scriptBytes : UInt32 := 0
  script : Script := []
  sequence : UInt32 := 0

namespace CoinbaseTxIn

/-- `coinbase_tx_in::exportRaw`. The buffer is sized by the getter `scriptBytes`, an
`unsigned short`, so a longer script is written past its end. -/
def exportRaw (x : CoinbaseTxIn) : Option (List UInt8 × CoinbaseTxIn) := do
  let raw ← x.script.exportRaw
  guard (raw.length < 2 ^ 16)
  return (x.prevOut.exportRaw ++ Bytes.be 4 raw.length ++ raw ++ Bytes.le 4 x.sequence.toNat,
    { x with scriptBytes := UInt32.ofNat raw.length })

/-- `coinbase_tx_in::importRaw`; the getter `scriptBytes` returns an `unsigned short`. -/
def importRaw (raw : List UInt8) : Option (CoinbaseTxIn × Nat) := do
  let (prevOut, n) ← PrevOut.importRaw raw
  let scriptBytes ← Bytes.take? 4 (raw.drop n)
  let (script, m) ← Script.importRaw [] (raw.drop (n + 4)) (Bytes.ofBe scriptBytes % 2 ^ 16)
  let sequence ← Bytes.take? 4 (raw.drop (n + 4 + m))
  return ({ prevOut, scriptBytes := UInt32.ofNat (Bytes.ofBe scriptBytes), script,
            sequence := UInt32.ofNat (Bytes.ofLe sequence) }, n + 4 + m + 4)

end CoinbaseTxIn

/-- `coinbase`. -/
structure Coinbase where
  version : UInt32
  txIn : CoinbaseTxIn
  txOut : TxOut
  pubkeyHash : Buffer

namespace Coinbase

/-- `coinbase::exportRaw` asserts that the coinbase has its key hash and hands it to the output. -/
def exportRaw (x : Coinbase) : Option (List UInt8 × Coinbase) := do
  let (rawTxIn, txIn) ← x.txIn.exportRaw
  let pubkeyHash ← x.pubkeyHash
  let (rawTxOut, txOut) ← { x.txOut with pubKeyHash := some pubkeyHash }.exportRaw
  return (Bytes.le 4 x.version.toNat ++ Bytes.be 4 1 ++ rawTxIn ++ Bytes.be 4 1 ++ rawTxOut,
    { x with txIn := txIn, txOut := txOut })

/-- `coinbase::importRawSequentially` into a fresh coinbase. -/
def importRawSequentially (raw : List UInt8) : Option (Coinbase × Nat) := do
  let version ← Bytes.take? 4 raw
  let _inCount ← Bytes.take? 4 (raw.drop 4)
  let (txIn, n) ← CoinbaseTxIn.importRaw (raw.drop 8)
  let _outCount ← Bytes.take? 4 (raw.drop (8 + n))
  let (txOut, m) ← TxOut.importRaw (raw.drop (8 + n + 4))
  return ({ version := UInt32.ofNat (Bytes.ofLe version), txIn, txOut, pubkeyHash := none }, 8 + n + 4 + m)

/-- `coinbase::calcTxID`. -/
def calcTxID (c : Crypto PKey) (x : Coinbase) : Option (List UInt8 × Coinbase) := do
  let (raw, x) ← x.exportRaw
  return (c.sha256 raw, x)

end Coinbase

end MiyaCore.Chain
