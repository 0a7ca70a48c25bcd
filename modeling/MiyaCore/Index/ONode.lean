import MiyaCore.Index.ItemSet
import Mathlib.Data.List.Sort

/-!
# The node algorithms

`ONode` and `SafeONode` are two copies of the same algorithms over two kinds of
node access. The algorithms are written once over the access; what the copies
do differently is in its fields.
-/

namespace MiyaCore

/-- How nodes are read and written. A node is named by an address; `σ` is the state
of the files and `δ` the data pointers. -/
structure NodeFile (σ δ : Type) where
  /-- `citemSet()` of the node with this address. -/
  citemSet : σ → Nat → ItemSet
  /-- `citemSet()->Optr()`: the address of the block that is read. -/
  optr : σ → Nat → Nat
  /-- A write through `itemSet()`. -/
  edit : σ → Nat → (ItemSet → ItemSet) → σ
  /-- `citemSet()->dataOptr(index)`. -/
  dataOptr : σ → Nat → Nat → Option δ
  /-- `itemSet()->dataOptr(index, target)` for an index inside the block. -/
  setDataOptr : σ → Nat → Nat → Option δ → σ
  /-- A new node with a cleared block. -/
  newONode : σ → Nat × σ
  /-- The root address written to the meta area. -/
  setMetaRoot : σ → Nat → σ
  /-- The node whose data pointers `moveInsertDataOptr` shifts, given the node it is
  called on and the node that calls it. -/
  shiftSource : Nat → Nat → Nat

abbrev NodeM (σ : Type) := StateT σ (Except NodeError)

/-- A pointer that must not be null. -/
def deref {σ α : Type} : Option α → NodeM σ α
  | some a => pure a
  | none => throw .nullPointer

namespace NodeFile
variable {σ δ : Type} (F : NodeFile σ δ)

def read (p : Nat) : NodeM σ ItemSet := do return F.citemSet (← get) p

def write (p : Nat) (f : ItemSet → ItemSet) : NodeM σ Unit := modify (F.edit · p f)

def getOptr (p : Nat) : NodeM σ Nat := do return F.optr (← get) p

def getData (p index : Nat) : NodeM σ (Option δ) := do return F.dataOptr (← get) p index

/-- `ONodeItemSet::dataOptr` does not check its index: what it writes past the third slot lands in the block
behind. Such a write has no result here. -/
def putData (p index : Nat) (d : Option δ) : NodeM σ Unit :=
  if index < 3 then modify (F.setDataOptr · p index d) else throw .outOfRange

def alloc : NodeM σ Nat := do
  let (p, s) := F.newONode (← get)
  set s
  return p

/-- `child(index)`; the parameter is an unsigned short. -/
def child (p index : Nat) : NodeM σ (Option Nat) := do
  return (← F.read p).childOptr (index % 2 ^ 16)

/-- The child before the index, null for the first. -/
def leftChild (this index : Nat) : NodeM σ (Option Nat) :=
  if 0 < index then F.child this (index - 1) else pure none

/-- Whether `parent()` has the null address. -/
def atRoot (p : Nat) : NodeM σ Bool := do
  let parent := (← F.read p).parent
  return (← F.getOptr parent) == 0

/-- The loop of `moveInsertDataOptr`, from `i = n` down to `index + 1`. -/
def shiftData (target source index : Nat) : Nat → NodeM σ Unit
  | 0 => pure ()
  | n + 1 =>
    if n + 1 ≤ index then pure ()
    else do
      F.putData target (n + 1) (← F.getData source n)
      shiftData target source index n

def moveInsertDataOptr (target caller index : Nat) (d : Option δ) : NodeM σ Unit := do
  let source := F.shiftSource target caller
  F.shiftData target source index (← F.read source).dataOptrCount
  F.putData target index d

/-- The virtual item set of a split: the keys and pointers of a full node with the
new ones put in, `importItemSet` and the two `moveInsert` calls. -/
structure ViewItemSet (δ : Type) where
  key : List Key
  dataOptr : List (Option δ)
  childOptr : List (Option Nat)

/-- An array of `size` pointers, shifted up from `index` to let one in. -/
def insertSlot {α : Type} (slots : List α) (index : Nat) (a : α) : List α :=
  (slots.insertIdx index a).take slots.length

def viewItemSet (this : Nat) (targetKey : Key) (targetDataOptr : Option δ) (targetONode : Option Nat) :
    NodeM σ (ViewItemSet δ) := do
  let it ← F.read this
  if 3 < it.dataOptrCount ∨ 4 < it.childOptrCount then throw .outOfRange
  let keys := ((List.range 3).map it.keySlot ++ [targetKey]).insertionSort (· ≤ ·)
  let keyInsertedIndex := keys.findIdx (· = targetKey)
  let s ← get
  let datas := (List.range 4).map fun i => if i < it.dataOptrCount then F.dataOptr s this i else none
  let childs := (List.range 5).map it.childOptr
  match targetONode with
  | none => return ⟨keys, insertSlot datas keyInsertedIndex targetDataOptr, childs⟩
  | some target =>
    let childOptr ← F.getOptr target
    return ⟨keys, insertSlot datas keyInsertedIndex targetDataOptr,
      insertSlot childs (keyInsertedIndex + 1) (some childOptr)⟩

/-- `splitONode`: the new right node, after the keys above the separator, which is
the second of the four. -/
def splitONode (this : Nat) (view : ViewItemSet δ) : NodeM σ Nat := do
  let keyAt i := view.key.getD i 0
  let dataAt i := view.dataOptr.getD i none
  let childAt i := (view.childOptr.getD i none).getD 0
  let split ← F.alloc
  F.write split fun it => it.setKey 0 (keyAt 2)
  F.write split fun it => it.setKey 1 (keyAt 3)
  F.write split fun it => it.setKeyCount 2
  F.putData split 0 (dataAt 2)
  F.putData split 1 (dataAt 3)
  F.write split fun it => it.setDataOptrCount 2
  let parent := (← F.read this).parent
  F.write split fun it => it.setParent parent
  F.write this fun it => it.setKey 0 (keyAt 0)
  F.write this fun it => it.setKeyCount 1
  F.putData this 0 (dataAt 0)
  F.write this fun it => it.setDataOptrCount 1
  if 0 < (← F.read this).childOptrCount then
    F.write this fun it => it.setChildOptr 0 (childAt 0)
    F.write this fun it => it.setChildOptr 1 (childAt 1)
    F.write this fun it => it.setChildOptrCount 2
    for i in [0, 1, 2] do
      F.write split fun it => it.setChildOptr i (childAt (i + 2))
      F.write split fun it => it.setChildOptrCount (i + 1)
      match ← F.child split i with
      | some c => F.write c fun it => it.setParent split
      | none => pure ()
    F.write split fun it => it.setChildOptrCount 3
  return split

/-- A new root over the two halves of the old one. -/
def growRoot (this : Nat) (targetKey : Key) (targetDataOptr : Option δ) (targetONode : Nat) : NodeM σ Nat := do
  let newRoot ← F.alloc
  let rootOptr ← F.getOptr newRoot
  modify (F.setMetaRoot · rootOptr)
  F.write newRoot fun it => it.setKey 0 targetKey
  F.write newRoot fun it => it.setKeyCount 1
  F.putData newRoot 0 targetDataOptr
  F.write newRoot fun it => it.setDataOptrCount 1
  let left ← F.getOptr this
  F.write newRoot fun it => it.setChildOptr 0 left
  F.write newRoot fun it => it.setChildOptrCount 1
  let right ← F.getOptr targetONode
  F.write newRoot fun it => it.setChildOptr 1 right
  F.write newRoot fun it => it.setChildOptrCount 2
  F.write this fun it => it.setParent newRoot
  F.write targetONode fun it => it.setParent newRoot
  F.write newRoot fun it => it.setParent 0
  return newRoot

/-- The simple addition to a node with room. -/
def addSimple (this : Nat) (targetKey : Key) (targetDataOptr : Option δ) (targetONode : Option Nat) :
    NodeM σ Unit := do
  let keyCount := (← F.read this).keyCount
  F.write this fun it => it.setKey keyCount targetKey
  F.write this fun it => it.setKeyCount (keyCount + 1)
  F.write this ItemSet.sortKey
  let keyInsertedIndex := ((← F.read this).findIndex targetKey).getD 0
  F.moveInsertDataOptr this this keyInsertedIndex targetDataOptr
  let dataOptrCount := (← F.read this).dataOptrCount
  F.write this fun it => it.setDataOptrCount (dataOptrCount + 1)
  match targetONode with
  | none => pure ()
  | some target =>
    let optr ← F.getOptr target
    F.write this fun it => it.moveInsertChildOptr (keyInsertedIndex + 1) optr
    F.write this fun it => it.setChildOptrCount (it.keyCount + 1)

/-- `recursiveAdd`: the new root, when there is one. -/
def recursiveAdd : Nat → Nat → Key → Option δ → Option Nat → NodeM σ (Option Nat)
  | 0, _, _, _, _ => throw .endless
  | fuel + 1, this, targetKey, targetDataOptr, targetONode => do
    if 3 ≤ (← F.read this).keyCount then
      let view ← F.viewItemSet this targetKey targetDataOptr targetONode
      let split ← F.splitONode this view
      let separatorKey := view.key.getD 1 0
      let separatorDataOptr := view.dataOptr.getD 1 none
      if ← F.atRoot this then
        return some (← F.growRoot this separatorKey separatorDataOptr split)
      else
        let parent := (← F.read this).parent
        recursiveAdd fuel parent separatorKey separatorDataOptr (some split)
    else
      F.addSimple this targetKey targetDataOptr targetONode
      return none

/-- `subtreeMax`. -/
def subtreeMax : Nat → Nat → NodeM σ Nat
  | 0, _ => throw .endless
  | fuel + 1, this => do
    let it ← F.read this
    if 1 ≤ it.childOptrCount then
      subtreeMax fuel (← deref (← F.child this (it.childOptrCount - 1)))
    else return this

/-- Which child of the node is the given one, compared by block address. -/
def childIndex (this source : Nat) : NodeM σ (Option Nat) := do
  let optr ← F.getOptr source
  let it ← F.read this
  let s ← get
  return (List.range it.childOptrCount).find? fun i => F.optr s (it.childSlot i) = optr

/-- A count less one, passed as an unsigned short. -/
def dec16 (count : Nat) : Nat := (count + 65535) % 65536

/-- `keyCount` of a neighbour; null counts as none. -/
def keyCountOf : Option Nat → NodeM σ Nat
  | some p => do return (← F.read p).keyCount
  | none => pure 0

/-- The last step of a merge that leaves its node without keys: the one child left is the new root. -/
def dropRoot (this : Nat) : NodeM σ Nat := do
  let c ← deref (← F.child this 0)
  F.write c fun it => it.setParent 0
  return c

/-- `recursiveMerge` by index. -/
def recursiveMerge (this index : Nat) : NodeM σ (Option Nat) := do
  if (← F.read this).keyCount = 0 then return some (← F.dropRoot this)
  let target ← F.child this index
  let left ← F.leftChild this index
  let right ← F.child this (index + 1)
  let leftCount ← F.keyCountOf left
  let rightCount ← F.keyCountOf right
  if 2 ≤ leftCount then
    let left ← deref left
    let target ← deref target
    let k ← deref ((← F.read this).rawKey 0)
    F.write target fun it => it.setKey 0 k
    F.write target fun it => it.setKeyCount (it.keyCount + 1)
    F.write this fun it => it.setKeyCount 0
    F.putData target 0 (← F.getData this 0)
    F.write this fun it => it.setDataOptrCount 0
    let l ← F.read left
    let k ← deref (l.rawKey l.keyCount)
    F.write this fun it => it.setKey 0 k
    F.write this fun it => it.setKeyCount 1
    F.write left fun it => it.moveDeleteKey it.keyCount
    F.putData this 0 (← F.getData left (← F.read left).dataOptrCount)
    F.write this fun it => it.setDataOptrCount 1
    F.write left fun it => it.moveDeleteDataOptr it.dataOptrCount
    let c ← deref (← F.child left (← F.read left).childOptrCount)
    let optr ← F.getOptr c
    F.write target fun it => it.moveInsertChildOptr 0 optr
    F.write target fun it => it.setChildOptrCount (it.childOptrCount + 1)
    let c ← deref (← F.child target 0)
    F.write c fun it => it.setParent target
    F.write left fun it => it.moveDeleteChildOptr it.childOptrCount
    return none
  else if 2 ≤ rightCount then
    let right ← deref right
    let target ← deref target
    let k ← deref ((← F.read this).rawKey 0)
    F.write target fun it => it.setKey 0 k
    F.write target fun it => it.setKeyCount (it.keyCount + 1)
    F.write this fun it => it.setKeyCount 0
    F.putData target 0 (← F.getData this 0)
    F.write this fun it => it.setDataOptrCount 0
    let k ← deref ((← F.read right).rawKey 0)
    F.write this fun it => it.setKey 0 k
    F.write this fun it => it.setKeyCount 1
    F.write right fun it => it.moveDeleteKey 0
    F.putData this 0 (← F.getData right 0)
    F.write this fun it => it.setDataOptrCount 1
    F.write right fun it => it.moveDeleteDataOptr 0
    let c ← deref (← F.child right 0)
    let optr ← F.getOptr c
    F.write target fun it => it.moveInsertChildOptr it.childOptrCount optr
    F.write target fun it => it.setChildOptrCount (it.childOptrCount + 1)
    let c ← deref (← F.child target ((← F.read target).childOptrCount - 1))
    F.write c fun it => it.setParent target
    F.write right fun it => it.moveDeleteChildOptr 0
    return none
  else
    match left, right with
    | some left, _ =>
      let k ← deref ((← F.read this).rawKey (index - 1))
      F.write left fun it => it.moveInsertKey it.keyCount k
      F.write left fun it => it.setKeyCount (it.keyCount + 1)
      F.write this fun it => it.moveDeleteKey (index - 1)
      let d ← F.getData this (index - 1)
      F.moveInsertDataOptr left this (← F.read left).dataOptrCount d
      F.write left fun it => it.setDataOptrCount (it.dataOptrCount + 1)
      F.write this fun it => it.moveDeleteDataOptr (index - 1)
      let c ← deref (← F.child (← deref target) 0)
      let optr ← F.getOptr c
      F.write left fun it => it.moveInsertChildOptr it.childOptrCount optr
      F.write left fun it => it.setChildOptrCount (it.childOptrCount + 1)
      let c ← deref (← F.child left ((← F.read left).childOptrCount - 1))
      F.write c fun it => it.setParent left
      F.write this fun it => it.moveDeleteChildOptr index
      if (← F.read this).keyCount = 0 then return some (← F.dropRoot this)
      return none
    | none, some right =>
      let k ← deref ((← F.read this).rawKey index)
      F.write right fun it => it.moveInsertKey 0 k
      F.write right fun it => it.setKeyCount (it.keyCount + 1)
      F.write this fun it => it.moveDeleteKey index
      let d ← F.getData this index
      F.moveInsertDataOptr right this 0 d
      F.write right fun it => it.setDataOptrCount (it.dataOptrCount + 1)
      F.write this fun it => it.moveDeleteDataOptr index
      let c ← deref (← F.child (← deref target) 0)
      let optr ← F.getOptr c
      F.write right fun it => it.moveInsertChildOptr 0 optr
      F.write right fun it => it.setChildOptrCount (it.childOptrCount + 1)
      let c ← deref (← F.child right ((← F.read right).childOptrCount - 1))
      F.write c fun it => it.setParent right
      F.write this fun it => it.moveDeleteChildOptr index
      if (← F.read this).keyCount = 0 then return some (← F.dropRoot this)
      return none
    | none, none => return none

/-- What `merge` does with its node once that has no key left. -/
def mergeUp (this : Nat) : NodeM σ (Option Nat) := do
  if ← F.atRoot this then return some (← F.dropRoot this)
  else
    let parent := (← F.read this).parent
    -- a source that is not found is passed on as the unsigned short 65535
    F.recursiveMerge parent ((← F.childIndex parent this).getD 65535)

/-- `merge` by index: the node loses the child at the index to a neighbour, or, with one key, hands it on. -/
def merge (this index : Nat) : NodeM σ (Option Nat) := do
  let left ← F.leftChild this index
  let right ← F.child this (index + 1)
  if 2 ≤ (← F.read this).keyCount then
    match left, right with
    | some left, _ =>
      F.write this fun it => it.moveDeleteChildOptr index
      let k ← deref ((← F.read this).rawKey (index - 1))
      F.write left fun it => it.setKey it.keyCount k
      F.write left fun it => it.setKeyCount (it.keyCount + 1)
      F.write this fun it => it.moveDeleteKey (index - 1)
      let d ← F.getData this (index - 1)
      F.putData left (← F.read left).dataOptrCount d
      F.write left fun it => it.setDataOptrCount (it.dataOptrCount + 1)
      return none
    | none, some right =>
      F.write this fun it => it.moveDeleteChildOptr index
      let k ← deref ((← F.read this).rawKey index)
      F.write right fun it => it.moveInsertKey 0 k
      F.write right fun it => it.setKeyCount (it.keyCount + 1)
      F.write this fun it => it.moveDeleteKey index
      let d ← F.getData this index
      F.moveInsertDataOptr right this 0 d
      -- the count is stored back as it is
      F.write right fun it => it.setDataOptrCount it.dataOptrCount
      return none
    | none, none => return none
  else
    match left, right with
    | some left, _ =>
      let k ← deref ((← F.read this).rawKey (index - 1))
      F.write left fun it => it.moveInsertKey it.keyCount k
      F.write left fun it => it.setKeyCount (it.keyCount + 1)
      F.write this fun it => it.moveDeleteKey (index - 1)
      let d ← F.getData this (index - 1)
      F.moveInsertDataOptr left this (← F.read left).dataOptrCount d
      F.write left fun it => it.setDataOptrCount (it.dataOptrCount + 1)
      F.write this fun it => it.moveDeleteDataOptr (index - 1)
      F.write this fun it => it.moveDeleteChildOptr index
      F.mergeUp this
    | none, some right =>
      let k ← deref ((← F.read this).rawKey index)
      F.write right fun it => it.moveInsertKey 0 k
      F.write right fun it => it.setKeyCount (it.keyCount + 1)
      F.write this fun it => it.moveDeleteKey index
      let d ← F.getData this index
      F.moveInsertDataOptr right this 0 d
      F.write right fun it => it.setDataOptrCount (it.dataOptrCount + 1)
      F.write this fun it => it.moveDeleteDataOptr index
      F.write this fun it => it.moveDeleteChildOptr index
      F.mergeUp this
    | none, none => return none

/-- `underflow`: the child `source` is about to lose its last key. A neighbour with
two keys or more gives one up through this node, else the children are merged. -/
def underflow (this source : Nat) : NodeM σ (Option Nat) := do
  let some index ← F.childIndex this source | return none
  let left ← F.leftChild this index
  let right ← F.child this (index + 1)
  let leftCount ← F.keyCountOf left
  let rightCount ← F.keyCountOf right
  if 2 ≤ leftCount then
    let left ← deref left
    let k ← deref ((← F.read this).rawKey (index - 1))
    F.write source fun it => it.setKey 0 k
    F.write source fun it => it.setKeyCount 1
    F.putData source 0 (← F.getData this (index - 1))
    F.write source fun it => it.setDataOptrCount 1
    let l ← F.read left
    let k ← deref (l.rawKey (l.keyCount - 1))
    F.write this fun it => it.setKey (index - 1) k
    F.write left fun it => it.moveDeleteKey (it.keyCount - 1)
    F.putData this (index - 1) (← F.getData left (dec16 (← F.read left).dataOptrCount))
    F.write left fun it => it.moveDeleteDataOptr (it.dataOptrCount - 1)
    return none
  else if 2 ≤ rightCount then
    let right ← deref right
    let k ← deref ((← F.read this).rawKey index)
    F.write source fun it => it.setKey 0 k
    F.write source fun it => it.setKeyCount 1
    F.putData source 0 (← F.getData this index)
    F.write source fun it => it.setDataOptrCount 1
    let k ← deref ((← F.read right).rawKey 0)
    F.write this fun it => it.setKey index k
    F.write right fun it => it.moveDeleteKey 0
    F.putData this index (← F.getData right 0)
    F.write right fun it => it.moveDeleteDataOptr 0
    return none
  else F.merge this index

/-- `remove` of a node: the new root, when there is one. The first key of an inner
node is replaced by the greatest one below its first child, and so is any other. -/
def remove : Nat → Nat → Key → NodeM σ (Option Nat)
  | 0, _, _ => throw .endless
  | fuel + 1, this, targetKey => do
    let it ← F.read this
    let some index := it.findIndex targetKey | return none
    if 1 ≤ it.childOptrCount then
      let max ← F.subtreeMax fuel (← deref (← F.child this 0))
      let k ← deref ((← F.read max).rawKey (dec16 (← F.read max).keyCount))
      F.write this fun it => it.setKey index k
      F.putData this index (← F.getData max (dec16 (← F.read max).dataOptrCount))
      let k ← deref ((← F.read max).rawKey (dec16 (← F.read max).keyCount))
      match ← remove fuel max k with
      | none => return none
      | some candidate =>
        let c ← F.read candidate
        if c.keyCount = 0 ∧ c.childOptrCount = 1 then
          if ← F.atRoot candidate then return some (← F.dropRoot candidate)
          return some candidate
        return some candidate
    else if 1 < it.keyCount then
      F.write this fun it => it.remove index
      return none
    else if ← F.atRoot this then
      F.write this fun it => it.remove index
      return none
    else
      F.underflow it.parent this

/-- The loop over the keys of an inner node in `OBtree::add`: the child to go to. A
null key is copied from. -/
def scanAdd (it : ItemSet) (k : Key) : List Nat → Option Nat
  | [] => some (it.childOptrCount - 1)
  | i :: rest =>
    match it.rawKey i with
    | none => none
    | some r => if k < r then some i else scanAdd it k rest

/-- The leaf `OBtree::add` goes down to. -/
def descendAdd : Nat → Nat → Key → NodeM σ Nat
  | 0, _, _ => throw .endless
  | fuel + 1, this, k => do
    let it ← F.read this
    if 1 ≤ it.childOptrCount then
      let i ← deref (scanAdd it k (List.range it.childOptrCount))
      descendAdd fuel (← deref (← F.child this i)) k
    else return this

/-- `OBtree::add`; returns the root. -/
def add (fuel root : Nat) (k : Key) (d : δ) : NodeM σ Nat := do
  let leaf ← F.descendAdd fuel root k
  match ← F.recursiveAdd fuel leaf k (some d) none with
  | some newRoot => return newRoot
  | none => return root

/-- The loop over the keys of an inner node in `OBtree::remove`: the node itself on
a match, else the child to go to. It runs over one key more than there are. -/
def scanRemove (it : ItemSet) (k : Key) : List Nat → Option (Option Nat)
  | [] => some (some (it.childOptrCount - 1))
  | i :: rest =>
    match it.rawKey i with
    | none => none
    | some r => if k = r then some none else if k < r then some (some i) else scanRemove it k rest

/-- The node `OBtree::remove` goes down to. -/
def descendRemove : Nat → Nat → Key → NodeM σ Nat
  | 0, _, _ => throw .endless
  | fuel + 1, this, k => do
    let it ← F.read this
    if 1 ≤ it.childOptrCount then
      match ← deref (scanRemove it k (List.range it.childOptrCount)) with
      | none => return this
      | some i => descendRemove fuel (← deref (← F.child this i)) k
    else return this

/-- `OBtree::remove`; returns the root. -/
def removeKey (fuel root : Nat) (k : Key) : NodeM σ Nat := do
  let p ← F.descendRemove fuel root k
  match ← F.remove fuel p k with
  | some newRoot => return newRoot
  | none => return root

/-- The loop over the keys in `subtreeFind`, which compares five bytes: the index
of a hit, or the child to go to. -/
def scanFind (it : ItemSet) (k : Key) : List Nat → Nat ⊕ Nat
  | [] => .inr (it.childOptrCount - 1)
  | i :: rest =>
    match it.rawKey i with
    | none => .inr (it.childOptrCount - 1)
    | some r =>
      if k.head5 < r.head5 then .inr i else if k.head5 = r.head5 then .inl i else scanFind it k rest

/-- `subtreeFind`. -/
def subtreeFind : Nat → Nat → Key → NodeM σ (Option δ)
  | 0, _, _ => throw .endless
  | fuel + 1, this, k => do
    let it ← F.read this
    match scanFind it k (List.range it.keyCount) with
    | .inl i => F.getData this i
    | .inr i =>
      match ← F.child this i with
      | none => return none
      | some c => subtreeFind fuel c k

end NodeFile

end MiyaCore
