import MiyaCore.PageTable.OverlayPtr
import Mathlib.Data.List.Basic

namespace MiyaCore

/-- The twenty bytes of a control block. An all-zero `freeBlockEnd` is the
null end of the block that reaches to the end of the address space. -/
structure ControlBlock where
  prevControlBlock : Nat := 0
  nextControlBlock : Nat := 0
  mappingOptr : Nat := 0
  freeBlockEnd : Nat := 0
deriving Repr, DecidableEq

/-- The three chains whose heads the meta block stores. -/
inductive Chain
  | free
  | allocated
  | unUsed
deriving Repr, DecidableEq

/-- The control file of an allocator: the meta block fields (a zero head or tail is null) and the control
blocks by address. Blocks are twenty bytes apart, so no two of them share a byte. -/
structure ControlFile where
  head : Chain → Nat := fun _ => 0
  controlBlockTail : Nat := 0
  block : Nat → ControlBlock := fun _ => {}

/-- What an allocator call can end in instead of returning: the exception of
`deallocate`, a member call through a null block, or a chain walk that never
meets its end. -/
inductive AllocError
  | unallocated
  | nullBlock
  | endless
deriving Repr, DecidableEq

/-- The text of the exception of `deallocate`. -/
def AllocError.what : AllocError → Option String
  | .unallocated => some "Trying to deallocate an unallocated optr."
  | _ => none

namespace ControlFile

def prev (f : ControlFile) (b : Nat) : Nat := (f.block b).prevControlBlock
def next (f : ControlFile) (b : Nat) : Nat := (f.block b).nextControlBlock
def mapping (f : ControlFile) (b : Nat) : Nat := (f.block b).mappingOptr
def blockEnd (f : ControlFile) (b : Nat) : Nat := (f.block b).freeBlockEnd

def setBlock (f : ControlFile) (b : Nat) (v : ControlBlock) : ControlFile :=
  { f with block := fun x => if x = b then v else f.block x }

def setPrev (f : ControlFile) (b target : Nat) : ControlFile :=
  f.setBlock b { f.block b with prevControlBlock := target }

def setNext (f : ControlFile) (b target : Nat) : ControlFile :=
  f.setBlock b { f.block b with nextControlBlock := target }

def setMapping (f : ControlFile) (b target : Nat) : ControlFile :=
  f.setBlock b { f.block b with mappingOptr := target }

def setEnd (f : ControlFile) (b target : Nat) : ControlFile :=
  f.setBlock b { f.block b with freeBlockEnd := target }

def putHead (f : ControlFile) (c : Chain) (target : Nat) : ControlFile :=
  { f with head := fun d => if d = c then target else f.head d }

def setTail (f : ControlFile) (target : Nat) : ControlFile := { f with controlBlockTail := target }

/-- The setters `freeBlockHead`, `allocatedBlockHead` and `unUsedControlBlockHead`
of the meta block. They differ only in the field they store: a null target
clears the head, the first block of an empty chain is linked to itself, and
any other target is linked in before the present head. -/
def setHead (c : Chain) (f : ControlFile) : Option Nat → ControlFile
  | none => f.putHead c 0
  | some target =>
    if f.head c = 0 then ((f.putHead c target).setPrev target target).setNext target target
    else
      let f := f.setNext target (f.head c)
      let f := f.setPrev target (f.prev (f.head c))
      let f := f.setNext (f.prev (f.head c)) target
      let f := f.setPrev (f.head c) target
      f.putHead c target

def freeBlockHead : ControlFile → Option Nat → ControlFile := setHead .free
def allocatedBlockHead : ControlFile → Option Nat → ControlFile := setHead .allocated
def unUsedControlBlockHead : ControlFile → Option Nat → ControlFile := setHead .unUsed

/-- `MetaBlock::useUnUsedControlBlockHead`: the head of the unused chain, taken
off the chain; null when there is none. -/
def useUnUsedControlBlockHead (f : ControlFile) : Option Nat × ControlFile :=
  let ret := f.head .unUsed
  if ret = 0 then (none, f)
  else if f.next ret = ret then (some ret, f.unUsedControlBlockHead none)
  else
    let f := f.setPrev (f.next ret) (f.prev ret)
    let f := f.setNext (f.prev ret) (f.next ret)
    (some ret, f.unUsedControlBlockHead (some (f.next ret)))

def newControlBlock (f : ControlFile) : Nat × ControlFile :=
  let b := optrAdd f.controlBlockTail 20
  (b, f.setTail b)

/-- A block off the unused chain, or else a new one past the tail. -/
def takeControlBlock (f : ControlFile) : Nat × ControlFile :=
  match f.useUnUsedControlBlockHead with
  | (some b, f') => (b, f')
  | (none, f') => f'.newControlBlock

def freeBlockSize (f : ControlFile) (b : Nat) : Nat :=
  if f.blockEnd b = 0 then 0 else (ulongOptr (f.blockEnd b) + 2 ^ 64 - ulongOptr (f.mapping b)) % 2 ^ 64

/-- How many control blocks lie between the first one, at 100, and the tail. -/
def blockCount (f : ControlFile) : Nat := (f.controlBlockTail - 100) / 20 + 1

def findMappedFuel (c : Chain) (f : ControlFile) (targetOptr : Nat) : Nat → Nat → Except AllocError (Option Nat)
  | 0, _ => .error .endless
  | n + 1, current =>
    if f.mapping current = targetOptr then .ok (some current)
    else if f.next current = f.head c then .ok none
    else findMappedFuel c f targetOptr n (f.next current)

/-- `findFreeBlock(optr)` and `findAllocatedBlock`: the first block of the chain
that maps the address. A walk over more blocks than there are does not end. -/
def findMapped (c : Chain) (f : ControlFile) (targetOptr : Nat) : Except AllocError (Option Nat) :=
  if f.head c = 0 then .ok none else findMappedFuel c f targetOptr f.blockCount (f.head c)

def findFreeBlockAt : ControlFile → Nat → Except AllocError (Option Nat) := findMapped .free
def findAllocatedBlock : ControlFile → Nat → Except AllocError (Option Nat) := findMapped .allocated

def findFreeBlockFuel (f : ControlFile) (allocateSize : Nat) : Nat → Nat → Except AllocError Nat
  | 0, _ => .error .endless
  | n + 1, target =>
    if f.freeBlockSize target = 0 then .ok target
    else if f.freeBlockSize target < allocateSize then findFreeBlockFuel f allocateSize n (f.next target)
    else .ok target

/-- `findFreeBlock(block, size)`; the size parameter is an unsigned int. -/
def findFreeBlock (f : ControlFile) (target allocateSize : Nat) : Except AllocError Nat :=
  findFreeBlockFuel f (allocateSize % 2 ^ 32) f.blockCount target

/-- `toUnUsedControlBlock`: off its chain and onto the unused chain. A block that
is its own neighbour is taken to be the last of its chain, where the heads are
read without a null check. -/
def toUnUsedControlBlock (f : ControlFile) (target : Nat) : Except AllocError ControlFile :=
  if f.prev target = target ∨ f.next target = target then
    if f.head .free = 0 then .error .nullBlock
    else if f.head .free = target then .ok ((f.freeBlockHead none).unUsedControlBlockHead (some target))
    else if f.head .allocated = 0 then .error .nullBlock
    else if f.head .allocated = target then .ok
      ((f.allocatedBlockHead none).unUsedControlBlockHead (some target))
    else if f.head .unUsed = 0 then .error .nullBlock
    else if f.head .unUsed = target then
      .ok ((f.unUsedControlBlockHead none).unUsedControlBlockHead (some target))
    else .ok (f.unUsedControlBlockHead (some target))
  else
    let f :=
      if f.head .free = target then f.freeBlockHead (some (f.next target))
      else if f.head .allocated = target then f.allocatedBlockHead (some (f.next target))
      else if f.head .unUsed = target then f.unUsedControlBlockHead (some (f.next target))
      else f
    let f := f.setPrev (f.next target) (f.prev target)
    let f := f.setNext (f.prev target) (f.next target)
    .ok (f.unUsedControlBlockHead (some target))

/-- `OverlayMemoryAllocator::init` (and `clear`, which calls it). -/
def init (f : ControlFile) : ControlFile :=
  let f := (f.setPrev 100 100).setNext 100 100
  let f := (f.setMapping 100 0).setEnd 100 0
  let f := f.freeBlockHead (some 100)
  (f.setTail 100).unUsedControlBlockHead none

/-- A freshly formatted control file. -/
def formatted : ControlFile := init {}

def allocate (f : ControlFile) (allocateSize : Nat) : Except AllocError (Nat × ControlFile) := do
  if f.head .free = 0 then throw .nullBlock
  let target ← f.findFreeBlock (f.head .free) allocateSize
  let (newAllocated, f) := f.takeControlBlock
  let f := f.setMapping newAllocated (f.mapping target)
  let f := f.setEnd newAllocated (optrAdd (f.mapping newAllocated) allocateSize)
  let f := f.allocatedBlockHead (some newAllocated)
  if f.freeBlockSize target = 0 ∨ allocateSize < f.freeBlockSize target then
    let (newFree, f) := f.takeControlBlock
    let f := f.setMapping newFree (optrAdd (f.mapping newAllocated) allocateSize)
    let f := f.setEnd newFree (f.blockEnd target)
    let f ← f.toUnUsedControlBlock target
    let f := f.freeBlockHead (some newFree)
    return (f.mapping newAllocated, f)
  else
    let f ← f.toUnUsedControlBlock target
    return (f.mapping newAllocated, f)

def mergeControlBlockFuel : Nat → ControlFile → Nat → Except AllocError ControlFile
  | 0, _, _ => .error .endless
  | n + 1, f, target =>
    if f.blockEnd target = 0 then .ok f
    else do
      match ← f.findFreeBlockAt (f.blockEnd target) with
      | none => return f
      | some merged =>
        let f := f.setEnd target (f.blockEnd merged)
        let f ← f.toUnUsedControlBlock merged
        mergeControlBlockFuel n f target

/-- `mergeControlBlock`: joins the free block that starts where the target ends, again and again. -/
def mergeControlBlock (f : ControlFile) (target : Nat) : Except AllocError ControlFile :=
  mergeControlBlockFuel f.blockCount f target

def deallocate (f : ControlFile) (target : Nat) : Except AllocError ControlFile := do
  match ← f.findAllocatedBlock target with
  | none => throw .unallocated
  | some allocated =>
    let (newFree, f) := f.takeControlBlock
    let f := f.setMapping newFree target
    let f := f.setEnd newFree (f.blockEnd allocated)
    let f := f.freeBlockHead (some newFree)
    let f ← f.toUnUsedControlBlock allocated
    f.mergeControlBlock newFree

end ControlFile

end MiyaCore
