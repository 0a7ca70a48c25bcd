import Mathlib.Data.Vector.Basic
import Mathlib.Data.Finset.Card
import Mathlib.Algebra.BigOperators.Fin
import Mathlib.Data.Fintype.BigOperators
import MiyaCore.LinkRing

/-!
# The transaction pool

A trie over the nibbles of the transaction IDs. Its leaves are buckets, rings of control blocks
linked through the blocks themselves; a bucket that fills up is replaced by a table.
-/

namespace MiyaCore.Chain

variable {T : Type} [DecidableEq T]

/-- The links of the control blocks; `none` is the null pointer. -/
structure TxCBLinks (T : Type) where
  next : T → Option T
  prev : T → Option T

namespace TxCBLinks

def setNext (h : TxCBLinks T) (x : T) (v : Option T) : TxCBLinks T :=
  { h with next := Function.update h.next x v }

def setPrev (h : TxCBLinks T) (x : T) (v : Option T) : TxCBLinks T :=
  { h with prev := Function.update h.prev x v }

end TxCBLinks

def DEFAULT_SCALE_SIZE : Nat := 3

/-- `TxCBBucket`. -/
structure TxCBBucket (T : Type) where
  txcbHead : Option T := none
  txCount : Nat := 0

/-- `TxCBContainer`. A table carries its layer. -/
inductive TxCBContainer (T : Type) where
  | bucket (b : TxCBBucket T)
  | table (layer : Nat) (containerArray : Fin 16 → TxCBContainer T)

/-- The constructor of `TxCBTable`. -/
def TxCBContainer.new (layer : Nat) : TxCBContainer T := .table layer fun _ => .bucket {}

/-- The slot of an ID in a table; no value when the byte lies outside the ID. -/
def targetIndex (layer : Nat) (txID : List.Vector UInt8 32) : Option (Fin 16) := do
  let targetByte ← txID.toList[layer / 2]?
  let targetSymbol := if layer % 2 = 0 then (targetByte &&& 0xf0) >>> 4 else targetByte &&& 0x0f
  return Fin.ofNat 16 targetSymbol.toNat

/-- What `find` compares. -/
def comparedBytes (txID : List.Vector UInt8 32) : List UInt8 := txID.toList.take 20

section Operations

variable (txID : T → List.Vector UInt8 32)

/-- The loop of `TxCBBucket::find`. -/
def TxCBBucket.findFrom (h : TxCBLinks T) (head target : T) : Nat → T → Option (Option T)
  | 0, _ => none
  | n + 1, current =>
    if comparedBytes (txID current) = comparedBytes (txID target) then some (some current)
    else do
      let current ← h.prev current
      if current = head then some none else TxCBBucket.findFrom h head target n current

/-- `TxCBBucket::find`. -/
def TxCBBucket.find (fuel : Nat) (h : TxCBLinks T) (b : TxCBBucket T) (target : T) : Option (Option T) :=
  match b.txcbHead with
  | none => some none
  | some head => TxCBBucket.findFrom txID h head target fuel head

/-- The relinking of `TxCBBucket::add` behind the last member. -/
def TxCBLinks.append (h : TxCBLinks T) (head target : T) : Option (TxCBLinks T) := do
  let tail ← h.prev head
  let first ← h.next tail
  let h := h.setNext target (some first)
  let h := h.setPrev target (some tail)
  let first ← h.next tail
  let h := h.setPrev first (some target)
  return h.setNext tail (some target)

/-- The loop of `autoScaleUp`; a member's successor is read before the member is moved. -/
def autoScaleUpFrom (add : TxCBLinks T → TxCBContainer T → T →
    Option (Int × TxCBLinks T × TxCBContainer T)) (head : T) :
    Nat → TxCBLinks T → TxCBContainer T → T → Option (TxCBLinks T × TxCBContainer T)
  | 0, _, _, _ => none
  | n + 1, h, newTable, current => do
    let next ← h.next current
    let (_, h, newTable) ← add h newTable current
    if next = head then return (h, newTable) else autoScaleUpFrom add head n h newTable next

/-- `TxCBTable::add` and `TxCBBucket::add`; `parent` is the layer of the table that holds the container.
A bucket is scaled up by putting a table in its place. -/
def TxCBContainer.add : Nat → Nat → TxCBLinks T → TxCBContainer T → T →
    Option (Int × TxCBLinks T × TxCBContainer T)
  | 0, _, _, _, _ => none
  | fuel + 1, parent, h, .bucket b, target => do
    if (← b.find txID fuel h target).isSome then return (-1, h, .bucket b)
    match b.txcbHead with
    | none =>
      let h := (h.setPrev target (some target)).setNext target (some target)
      return (0, h, .bucket { b with txcbHead := some target, txCount := b.txCount + 1 })
    | some head =>
      let h ← h.append head target
      let b := { b with txCount := b.txCount + 1 }
      if DEFAULT_SCALE_SIZE ≤ b.txCount then
        let (h, newTable) ← autoScaleUpFrom (TxCBContainer.add fuel parent) head fuel h (.new (parent + 1)) head
        return (0, h, newTable)
      else return (0, h, .bucket b)
  | fuel + 1, _, h, .table layer containerArray, target => do
    let index ← targetIndex layer (txID target)
    let (result, h, child) ← TxCBContainer.add fuel layer h (containerArray index) target
    return (result, h, .table layer (Function.update containerArray index child))

/-- `TxCBTable::find`. -/
def TxCBContainer.find (fuel : Nat) (h : TxCBLinks T) (target : T) : TxCBContainer T → Option (Option T)
  | .bucket b => b.find txID fuel h target
  | .table layer containerArray => do
    let index ← targetIndex layer (txID target)
    (containerArray index).find fuel h target

/-- `TxCBBucket::remove`. It leaves `_txCount` as it is. -/
def TxCBBucket.remove (fuel : Nat) (h : TxCBLinks T) (b : TxCBBucket T) (target : T) :
    Option (TxCBLinks T × TxCBBucket T) := do
  match ← b.find txID fuel h target with
  | none => return (h, b)
  | some thisTarget =>
    if some thisTarget = b.txcbHead ∨ h.next thisTarget = some thisTarget ∨
      h.prev thisTarget = some thisTarget then
      return (h, { b with txcbHead := none })
    let prev ← h.prev thisTarget
    let h := h.setNext prev (h.next thisTarget)
    let next ← h.next thisTarget
    return (h.setPrev next (h.prev thisTarget), b)

/-- `TxCBTable::remove`. -/
def TxCBContainer.remove (fuel : Nat) (h : TxCBLinks T) (target : T) :
    TxCBContainer T → Option (TxCBLinks T × TxCBContainer T)
  | .bucket b => do
    let (h, b) ← b.remove txID fuel h target
    return (h, .bucket b)
  | .table layer containerArray => do
    let index ← targetIndex layer (txID target)
    let (h, child) ← (containerArray index).remove fuel h target
    return (h, .table layer (Function.update containerArray index child))

end Operations

/-- The transactions that the buckets count. -/
def TxCBContainer.txCount : TxCBContainer T → Nat
  | .bucket b => b.txCount
  | .table _ containerArray => ∑ i, (containerArray i).txCount

end MiyaCore.Chain
