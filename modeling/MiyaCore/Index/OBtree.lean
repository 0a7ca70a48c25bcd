import MiyaCore.Index.ONode
import MiyaCore.PageTable.OverlayPtr
import MiyaCore.SearchTree.Labels

namespace MiyaCore
open SearchTree

/-- The meta area at the front of an index file: the format code, as the number its
bytes spell, and the root address. -/
structure Meta where
  formatCode : Nat := 0
  root : Nat := 0
deriving Repr, DecidableEq

/-- `FORMAT_CODE`, "HELLOMIYACOININDEX!!". -/
def formatCode : Nat := 0x48454c4c4f4d495941434f494e494e4445582121

/-- An index file: the meta area, the node blocks by address, and the address the
next allocation gets. Blocks are 103 bytes apart and are never freed. -/
structure IndexFile where
  head : Meta := {}
  node : Nat → ItemSet := fun _ => {}
  top : Nat := 0

namespace IndexFile

def edit (s : IndexFile) (p : Nat) (f : ItemSet → ItemSet) : IndexFile :=
  { s with node := fun x => if x = p then f (s.node x) else s.node x }

def newONode (s : IndexFile) : Nat × IndexFile :=
  (s.top, { s with node := (fun x => if x = s.top then {} else s.node x), top := s.top + 103 })

def setMetaRoot (s : IndexFile) (root : Nat) : IndexFile := { s with head := { s.head with root := root } }

/-- `omemcpy` adds to the address of the last field of the last node, five bytes, as it should. -/
def Reached (s : IndexFile) : Prop := Optr.plus (s.top - 5) 4 = some (s.top - 5 + 4)

theorem reached_iff (s : IndexFile) : s.Reached ↔ s.top < 2 ^ 24 + 5 := by
  rw [Reached, Optr.plus_four_iff]
  omega

instance (s : IndexFile) : Decidable s.Reached := decidable_of_iff _ s.reached_iff.symm

/-- The nodes that a key makes on its way up from a node: none where there is a slot left, one beside a full
node, and one more above a full root. -/
def splits (s : IndexFile) : Nat → Nat → Nat
  | 0, _ => 0
  | fuel + 1, p =>
    if 3 ≤ (s.node p).keyCount then
      if (s.node p).parent = 0 then 2 else 1 + splits s fuel (s.node p).parent
    else 0

end IndexFile

/-- `ONode`: every node is read and written where it is. -/
def oNode : NodeFile IndexFile Nat where
  citemSet s p := s.node p
  optr _ p := p
  edit := IndexFile.edit
  dataOptr s p i := (s.node p).dataOptr i
  setDataOptr s p i d := s.edit p fun it => it.setDataOptr i (d.getD 0)
  newONode := IndexFile.newONode
  setMetaRoot := IndexFile.setMetaRoot
  shiftSource target _ := target

/-- The index file and the root held in memory. -/
structure OBtree where
  file : IndexFile
  rootONode : Nat

namespace OBtree

/-- The tree on a file without format code: the meta area and one empty leaf. -/
def create : OBtree :=
  let (root, file) := ({ top := 100 } : IndexFile).newONode
  ⟨{ file with head := ⟨formatCode, root⟩ }, root⟩

/-- `OBtree::add`. What is written to a node past 2^24 goes astray. -/
def add (fuel : Nat) (t : OBtree) (k : Key) (d : Nat) : Except NodeError OBtree := do
  let (root, file) ← (oNode.add fuel t.rootONode k d).run t.file
  if file.Reached then return ⟨file, root⟩ else throw .astray

def remove (fuel : Nat) (t : OBtree) (k : Key) : Except NodeError OBtree := do
  let (root, file) ← (oNode.removeKey fuel t.rootONode k).run t.file
  return ⟨file, root⟩

def find (fuel : Nat) (t : OBtree) (k : Key) : Except NodeError (Option Nat) := do
  let (d, _) ← (oNode.subtreeFind fuel t.rootONode k).run t.file
  return d

end OBtree

namespace ItemSet

/-- The pairs of key and data pointer of a node. -/
def items (it : ItemSet) : List (Key × Nat) :=
  (List.range it.keyCount).map fun i => (it.keySlot i, it.dataSlot i)

/-- The addresses of its children. -/
def kids (it : ItemSet) : List Nat := (List.range it.childOptrCount).map it.childSlot

end ItemSet

namespace IndexFile

/-- The nodes of the file as a search tree reads them. -/
def nodes (s : IndexFile) : Nodes Nat Key Nat := ⟨fun p => (s.node p).items, fun p => (s.node p).kids⟩

/-- A node of the given height: allocated, with one to three keys (a root leaf may have
none), as many data pointers, and the address of its parent. -/
def NodeOK (s : IndexFile) (h parent p : Nat) : Prop :=
  0 < p ∧ p < s.top ∧ (s.node p).parent = parent ∧ (s.node p).dataOptrCount = (s.node p).keyCount ∧
    (s.node p).keyCount ≤ 3 ∧ (1 ≤ (s.node p).keyCount ∨ parent = 0 ∧ h = 0)

instance (s : IndexFile) (h parent p : Nat) : Decidable (s.NodeOK h parent p) :=
  inferInstanceAs (Decidable (_ ∧ _ ∧ _ ∧ _ ∧ _ ∧ (_ ∨ _)))

end IndexFile

namespace OBtree

/-- The pairs of the tree in order, for a tree of height `h`. -/
def pairs (t : OBtree) (h : Nat) : List (Key × Nat) := inorder t.file.nodes h t.rootONode

/-- A well-formed tree of height `h`: all leaves at one depth, one child more than keys
in the other nodes, and strictly increasing keys. -/
structure WellFormed (t : OBtree) (h : Nat) : Prop where
  built : Built t.file.nodes t.file.NodeOK h 0 t.rootONode
  sorted : (t.pairs h).Pairwise (fun a b => a.1 < b.1)

instance (t : OBtree) (h : Nat) : Decidable (t.WellFormed h) :=
  decidable_of_iff (Built t.file.nodes t.file.NodeOK h 0 t.rootONode ∧
  (t.pairs h).Pairwise (fun a b => a.1 < b.1))
    ⟨fun both => ⟨both.1, both.2⟩, fun wellFormed => ⟨wellFormed.built, wellFormed.sorted⟩⟩

end OBtree

end MiyaCore
