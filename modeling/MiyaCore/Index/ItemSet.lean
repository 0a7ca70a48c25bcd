import Mathlib.Order.Fin.Basic
import Mathlib.Data.Fin.Basic
import Mathlib.Algebra.GroupWithZero.Nat

namespace MiyaCore

/-- A key of twenty bytes, as the number they spell big-endian: `memcmp` over all
of them compares the numbers. -/
abbrev Key := Fin (2 ^ 160)

instance Key.neZero : NeZero (2 ^ 160) := ⟨by decide⟩

/-- The first five bytes of a key. -/
def Key.head5 (k : Key) : Nat := k.val / 2 ^ 120

/-- The 103 bytes of a node block: the parent address, and three counted areas of
three keys, four child addresses and three data addresses. Each slot function
is read below the number of its slots only. -/
structure ItemSet where
  parent : Nat := 0
  keyCount : Nat := 0
  keySlot : Nat → Key := fun _ => 0
  childOptrCount : Nat := 0
  childSlot : Nat → Nat := fun _ => 0
  dataOptrCount : Nat := 0
  dataSlot : Nat → Nat := fun _ => 0

/-- What a node operation can end in instead of returning: a member call or a copy
through a null pointer, an index past the end of an array, a walk that does not end,
or an address that the arithmetic of overlay pointers takes astray. -/
inductive NodeError
  | nullPointer
  | outOfRange
  | endless
  | astray
deriving Repr, DecidableEq

namespace ItemSet

/-- The twenty bytes after the third key: the child count and the child addresses
but for their last byte. -/
def pastKeys (it : ItemSet) : Key :=
  Fin.ofNat _ (it.childOptrCount * 2 ^ 152 + (it.childSlot 0 * 2 ^ 120 + it.childSlot 1 * 2 ^ 80 +
    it.childSlot 2 * 2 ^ 40 + it.childSlot 3) / 2 ^ 8)

/-- `rawKey`: one index past the last key is let through. -/
def rawKey (it : ItemSet) (index : Nat) : Option Key :=
  if it.keyCount < index then none else some (if index < 3 then it.keySlot index else it.pastKeys)

/-- `childOptr`, null from the child count on. -/
def childOptr (it : ItemSet) (index : Nat) : Option Nat :=
  if it.childOptrCount ≤ index then none else some (it.childSlot index)

/-- `dataOptr`: one index past the last pointer is let through. -/
def dataOptr (it : ItemSet) (index : Nat) : Option Nat :=
  if it.dataOptrCount < index then none else some (it.dataSlot index)

def setParent (it : ItemSet) (target : Nat) : ItemSet := { it with parent := target }

def setKeyCount (it : ItemSet) (num : Nat) : ItemSet := { it with keyCount := num }

def setChildOptrCount (it : ItemSet) (num : Nat) : ItemSet := { it with childOptrCount := num }

def setDataOptrCount (it : ItemSet) (num : Nat) : ItemSet := { it with dataOptrCount := num }

/-- The setter `key`. The index 3 passes its check and writes over the child area. -/
def setKey (it : ItemSet) (index : Nat) (k : Key) : ItemSet :=
  if index < 3 then { it with keySlot := fun i => if i = index then k else it.keySlot i }
  else if index = 3 then
    { it with
      childOptrCount := k.val / 2 ^ 152
      childSlot := fun i =>
        if i < 3 then k.val / 2 ^ (112 - 40 * i) % 2 ^ 40
        else k.val % 2 ^ 32 * 2 ^ 8 + it.childSlot i % 2 ^ 8 }
  else it

/-- The setter `childOptr`. The index 4 passes its check and writes over the data area. -/
def setChildOptr (it : ItemSet) (index target : Nat) : ItemSet :=
  if index < 4 then { it with childSlot := fun i => if i = index then target else it.childSlot i }
  else if index = 4 then
    { it with
      dataOptrCount := target / 2 ^ 32
      dataSlot := fun i => if i = 0 then target % 2 ^ 32 * 2 ^ 8 + it.dataSlot 0 % 2 ^ 8 else it.dataSlot i }
  else it

/-- The setter `dataOptr` for the three data slots. -/
def setDataOptr (it : ItemSet) (index target : Nat) : ItemSet :=
  { it with dataSlot := fun i => if i = index then target else it.dataSlot i }

/-- One comparison of the bubble sort: the keys at `j - 1` and `j` in order. -/
def sortPair (it : ItemSet) (j : Nat) : ItemSet :=
  match it.rawKey j, it.rawKey (j - 1) with
  | some kj, some kp => if kj < kp then (it.setKey j kp).setKey (j - 1) kj else it
  | _, _ => it

/-- `sortKey`: round `i` carries the least of the keys from `i` on down to `i`. -/
def sortKey (it : ItemSet) : ItemSet :=
  (List.range (it.keyCount - 1)).foldl (fun it i =>
    ((List.range' (i + 1) (it.keyCount - 1 - i)).reverse).foldl sortPair it) it

/-- The loop of `moveInsertKey`: the key at `i - 1` copied to `i`, for `i` from `n` down to `index + 1`. -/
def shiftKeys (it : ItemSet) (index : Nat) : Nat → ItemSet
  | 0 => it
  | n + 1 =>
    if n + 1 ≤ index then it
    else
      match it.rawKey n with
      | some k => shiftKeys (it.setKey (n + 1) k) index n
      | none => it

def moveInsertKey (it : ItemSet) (index : Nat) (k : Key) : ItemSet :=
  (it.shiftKeys index it.keyCount).setKey index k

def shiftChildOptrs (it : ItemSet) (index : Nat) : Nat → ItemSet
  | 0 => it
  | n + 1 =>
    if n + 1 ≤ index then it
    else shiftChildOptrs (it.setChildOptr (n + 1) ((it.childOptr n).getD 0)) index n

def moveInsertChildOptr (it : ItemSet) (index target : Nat) : ItemSet :=
  (it.shiftChildOptrs index it.childOptrCount).setChildOptr index target

/-- The body of the loop of `moveDeleteKey`. -/
def pullKey (it : ItemSet) (i : Nat) : ItemSet :=
  match it.rawKey (i + 1) with
  | some k => it.setKey i k
  | none => it

/-- `moveDeleteKey`: the later keys move down by one. -/
def moveDeleteKey (it : ItemSet) (index : Nat) : ItemSet :=
  if it.keyCount = 0 then it
  else ((List.range' index (it.keyCount - 1 - index)).foldl pullKey it).setKeyCount (it.keyCount - 1)

def moveDeleteChildOptr (it : ItemSet) (index : Nat) : ItemSet :=
  if it.childOptrCount = 0 then it
  else
    let moved := (List.range' index (it.childOptrCount - 1 - index)).foldl (fun it i =>
      it.setChildOptr i ((it.childOptr (i + 1)).getD 0)) it
    moved.setChildOptrCount (it.childOptrCount - 1)

def moveDeleteDataOptr (it : ItemSet) (index : Nat) : ItemSet :=
  if it.dataOptrCount = 0 then it
  else
    let moved := (List.range' index (it.dataOptrCount - 1 - index)).foldl (fun it i =>
      it.setDataOptr i ((it.dataOptr (i + 1)).getD 0)) it
    moved.setDataOptrCount (it.dataOptrCount - 1)

/-- `remove`: the key and the data pointer; the children stay. -/
def remove (it : ItemSet) (index : Nat) : ItemSet := (it.moveDeleteKey index).moveDeleteDataOptr index

/-- `findIndex`: where the key is among the first `keyCount`. -/
def findIndex (it : ItemSet) (k : Key) : Option Nat :=
  (List.range it.keyCount).find? (fun i => it.rawKey i = some k)

end ItemSet

end MiyaCore
