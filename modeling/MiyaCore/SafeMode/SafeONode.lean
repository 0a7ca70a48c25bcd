import MiyaCore.Index.OBtree

/-!
# The nodes of a safe-mode session

A session reads the nodes of the normal index until it writes to them. The first write copies
the node into the file of the session, and the conversion table leads to the copy from then on.
-/

namespace MiyaCore

/-- Which value store a data pointer points into. -/
inductive DataLocation
  | normal
  | safe
deriving Repr, DecidableEq

/-- `MappingContext`: the address a node is converted to, and the location of each of its
data pointers. -/
structure MappingContext where
  optr : Nat
  dataOptrLocation : Nat → DataLocation := fun _ => .normal

/-- The files a session works on: the normal index, and its own file with the meta area, the
node blocks, the address of the next allocation and the conversion table with its keys. The
meta area lies on the bytes of the block at address 0 once that is allocated. -/
structure SafeFile where
  normal : IndexFile
  head : Meta
  node : Nat → ItemSet := fun _ => {}
  top : Nat := 0
  entry : Nat → Option MappingContext := fun _ => none
  keys : List Nat := []

namespace SafeFile

/-- `ONodeConversionTable::refEx`. -/
def refEx (s : SafeFile) (p : Nat) : Option MappingContext := s.entry p

/-- The address of the block that stands for the node, `ref(..).first`. -/
def ref (s : SafeFile) (p : Nat) : Nat := ((s.refEx p).map MappingContext.optr).getD p

/-- `regist`, which keeps an entry that is there. -/
def regist (s : SafeFile) (key value : Nat) : SafeFile :=
  if (s.refEx key).isSome then s
  else
    { s with
      entry := fun p => if p = key then some ⟨value, fun _ => .normal⟩ else s.entry p
      keys := s.keys ++ [key] }

/-- `update`, of an entry that is there. -/
def update (s : SafeFile) (key : Nat) (target : MappingContext) : SafeFile :=
  { s with entry := fun p => if p = key then (s.entry p).map fun _ => target else s.entry p }

/-- `citemSet`. -/
def citemSet (s : SafeFile) (p : Nat) : ItemSet :=
  match s.refEx p with
  | some context => s.node context.optr
  | none => s.normal.node p

/-- A new block with these contents. -/
def allocate (s : SafeFile) (it : ItemSet) : SafeFile :=
  { s with node := (fun x => if x = s.top then it else s.node x), top := s.top + 103 }

/-- `itemSet`: a node without entry is copied, and the copy gets an entry under its own
address and one under that of the node. -/
def itemSet (s : SafeFile) (p : Nat) : SafeFile :=
  if (s.refEx p).isSome then s else ((s.allocate (s.normal.node p)).regist s.top s.top).regist p s.top

/-- A write to a block of the session. -/
def put (s : SafeFile) (q : Nat) (f : ItemSet → ItemSet) : SafeFile :=
  { s with node := fun x => if x = q then f (s.node x) else s.node x }

def edit (s : SafeFile) (p : Nat) (f : ItemSet → ItemSet) : SafeFile :=
  (s.itemSet p).put ((s.itemSet p).ref p) f

/-- `SafeOCItemSet::dataOptr`: the location is that of the entry of the block. -/
def dataOptr (s : SafeFile) (p index : Nat) : Option (Nat × DataLocation) :=
  ((s.citemSet p).dataOptr index).map fun d =>
    (d, ((s.refEx (s.ref p)).map fun context => context.dataOptrLocation index).getD .normal)

/-- The location of one data pointer in the entry of a block. -/
def setLocation (s : SafeFile) (q index : Nat) (location : DataLocation) : SafeFile :=
  match s.refEx q with
  | some context =>
    s.update q { context with
      dataOptrLocation := fun i => if i = index then location else context.dataOptrLocation i }
  | none => s

/-- `SafeOItemSet::dataOptr`: the entry of the block is changed, the one of the node it was
copied from is not. A null pointer is stored as zero, with the normal location. -/
def setDataOptr (s : SafeFile) (p index : Nat) (target : Option (Nat × DataLocation)) : SafeFile :=
  let target := target.getD (0, .normal)
  let q := (s.itemSet p).ref p
  (s.edit p fun it => it.setDataOptr index target.1).setLocation q index target.2

/-- A new `SafeONode`. -/
def newONode (s : SafeFile) : Nat × SafeFile := (s.top, (s.allocate {}).regist s.top s.top)

/-- Five bytes written over the bytes 14 to 18 of a key. -/
def overwriteKey (k : Key) (addr : Nat) : Key :=
  Fin.ofNat _ (k.val / 2 ^ 48 * 2 ^ 48 + addr % 2 ^ 40 * 2 ^ 8 + k.val % 2 ^ 8)

/-- The root address is written to the bytes 20 to 24 of the file, which the first key of the
block at address 0 covers. -/
def setMetaRoot (s : SafeFile) (root : Nat) : SafeFile :=
  { s.put 0 fun it => it.setKey 0 (overwriteKey (it.keySlot 0) root) with head := { s.head with root := root } }

section Table
variable (s : SafeFile) (p key value : Nat) (target : MappingContext)

theorem refEx_update : (s.update key target).refEx p = if p = key then (s.refEx p).map
    fun _ => target else s.refEx p := rfl

theorem refEx_regist :
    (s.regist key value).refEx p = if p = key then some ((s.refEx p).getD ⟨value, fun _ => .normal⟩)
      else s.refEx p := by
  unfold regist
  split_ifs with known same same
  · obtain ⟨context, found⟩ := Option.isSome_iff_exists.mp known
    simp [same, found]
  · rfl
  · have absent : s.refEx key = none := by simpa using known
    simp [refEx, same, show s.entry key = none from absent]
  · simp [refEx, same]

end Table

end SafeFile

/-- `SafeONode`: a node is read through the conversion table and copied before it is written.
The pointers `moveInsertDataOptr` shifts are those of the node that calls it. -/
def safeONode : NodeFile SafeFile (Nat × DataLocation) where
  citemSet := SafeFile.citemSet
  optr := SafeFile.ref
  edit := SafeFile.edit
  dataOptr := SafeFile.dataOptr
  setDataOptr := SafeFile.setDataOptr
  newONode := SafeFile.newONode
  setMetaRoot := SafeFile.setMetaRoot
  shiftSource _ caller := caller

/-- `SafeOBtree`: the files and the root held in memory. -/
structure SafeOBtree where
  file : SafeFile
  rootONode : Nat

namespace SafeOBtree

/-- The tree of a new session. `SafeIndexManager` sets the meta area and a dummy region aside,
and `migrateToSafeMode` clears the allocator again. -/
def migrate (t : OBtree) : SafeOBtree := ⟨{ normal := t.file, head := t.file.head }, t.rootONode⟩

def add (fuel : Nat) (t : SafeOBtree) (k : Key) (d : Nat) : Except NodeError SafeOBtree := do
  let (root, file) ← (safeONode.add fuel t.rootONode k (d, .safe)).run t.file
  return ⟨file, root⟩

def remove (fuel : Nat) (t : SafeOBtree) (k : Key) : Except NodeError SafeOBtree := do
  let (root, file) ← (safeONode.removeKey fuel t.rootONode k).run t.file
  return ⟨file, root⟩

def find (fuel : Nat) (t : SafeOBtree) (k : Key) : Except NodeError (Option (Nat × DataLocation)) := do
  let (d, _) ← (safeONode.subtreeFind fuel t.rootONode k).run t.file
  return d

end SafeOBtree

end MiyaCore
