import MiyaCore.Bytes
import MiyaCore.SafeMode.SafeONode

/-!
# The storage engine

`MMyISAM` keeps a normal index with its value store, and up to five sessions, each with an index
and a value store of its own. A commit copies the values and the nodes of a session over.
-/

namespace MiyaCore
open Bytes

/-- The file of a `ValueStoreManager`, with the address the next allocation gets. -/
structure ValueStore where
  data : Nat → UInt8 := fun _ => 0
  top : Nat := 0

namespace ValueStore

def bytes (v : ValueStore) (p n : Nat) : List UInt8 := (List.range n).map fun i => v.data (p + i)

/-- `exportBianry`: the length of the header, two links, the length of the value and the time. The
bytes of the links are those their null address points to. -/
def header (v : ValueStore) (valueLength timestamp : Nat) : List UInt8 :=
  le 2 28 ++ v.bytes 0 5 ++ v.bytes 0 5 ++ le 8 valueLength ++ le 8 timestamp

def write (v : ValueStore) (p : Nat) (l : List UInt8) : ValueStore :=
  { v with data := fun i => if p ≤ i ∧ i < p + l.length then l.getD (i - p) 0 else v.data i }

def add (v : ValueStore) (value : List UInt8) (timestamp : Nat) : Nat × ValueStore :=
  (v.top, { v.write v.top (v.header value.length timestamp ++ value) with top := v.top + (28 + value.length) })

/-- The length that a header names for its value. -/
def valueLength (v : ValueStore) (p : Nat) : Nat := ofLe (v.bytes (p + 12) 8)

/-- `get`, where the value can be allocated. -/
def get (v : ValueStore) (p : Nat) : List UInt8 := v.bytes (p + ofLe (v.bytes p 2)) (v.valueLength p)

end ValueStore

/-- One `MMyISAM` session: the index manager and the value store manager of a registry index. -/
structure SafeMode where
  tree : SafeOBtree
  values : ValueStore

/-- The files of a session end where the arithmetic of addresses does. -/
def SafeMode.Near (m : SafeMode) : Prop := m.tree.file.top < 2 ^ 24 + 5 ∧ m.values.top ≤ 2 ^ 24

instance (m : SafeMode) : Decidable m.Near := inferInstanceAs (Decidable (_ ∧ _))

/-- The order in which `entryMap`, a hash map, hands out the keys of a conversion table. -/
structure EntryOrder where
  order : List Nat → List Nat
  perm : ∀ keys, (order keys).Perm keys

theorem EntryOrder.order_nil (entryMap : EntryOrder) : entryMap.order [] = [] := (entryMap.perm []).eq_nil

structure MMyISAM where
  normal : OBtree
  values : ValueStore
  safe : Nat → Option SafeMode := fun _ => none
  entryMap : EntryOrder := ⟨id, fun keys => .refl keys⟩

/-- Where `subtreeFind` ends with a hit. -/
def NodeFile.subtreeHit {σ δ : Type} (F : NodeFile σ δ) : Nat → Nat → Key → NodeM σ (Option (Nat × Nat))
  | 0, _, _ => throw .endless
  | fuel + 1, this, k => do
    let it ← F.read this
    match NodeFile.scanFind it k (List.range it.keyCount) with
    | .inl i => return some (this, i)
    | .inr i =>
      match ← F.child this i with
      | none => return none
      | some c => subtreeHit F fuel c k

/-- `SafeIndexManager::find`. The result of a search that misses is read through a null pointer. -/
def safeFind (fuel root : Nat) (k : Key) : NodeM SafeFile (Option (Nat × DataLocation)) := do
  let (p, i) ← deref (← safeONode.subtreeHit fuel root k)
  safeONode.getData p i

namespace SafeFile

/-- The loop of `mergeDataOptr` over one entry, as it was before the loop over the entries. -/
def mergeEntry (source : ValueStore) (timestamp : Nat) (state : ValueStore × SafeFile)
    (entry : Nat × MappingContext) :
    ValueStore × SafeFile :=
  let copied := (List.range (state.2.citemSet entry.1).dataOptrCount).foldl (fun state i =>
    match entry.2.dataOptrLocation i, state.2.dataOptr entry.1 i with
    | .safe, some (d, _) =>
      let (p, values) := state.1.add (source.get d) timestamp
      (values, state.2.setDataOptr entry.1 i (some (p, .normal)))
    | _, _ => state) state
  (copied.1, copied.2.update entry.1 entry.2)

/-- `mergeDataOptr`. -/
def mergeDataOptr (s : SafeFile) (entryMap : EntryOrder) (values source : ValueStore) (timestamp : Nat) :
    ValueStore × SafeFile :=
  ((entryMap.order s.keys).filterMap fun p => (s.entry p).map fun context => (p, context)).foldl
  (mergeEntry source timestamp) (values, s)

/-- The pointers to the values that `mergeDataOptr` copies. -/
def copied (s : SafeFile) : List Nat :=
  s.keys.flatMap fun p => ((s.entry p).elim [] fun context =>
    (List.range (s.citemSet p).dataOptrCount).filterMap fun i =>
      if context.dataOptrLocation i = .safe then (s.dataOptr p i).map Prod.fst else none)

/-- A write to the normal index. -/
def editNormal (s : SafeFile) (p : Nat) (f : ItemSet → ItemSet) : SafeFile :=
  { s with normal := s.normal.edit p f }

/-- The node of the normal index a node is committed to: a new one for a node of the session, and
the node itself, overwritten if the session has a copy. -/
def swapONode (s : SafeFile) (p : Nat) : Nat × SafeFile :=
  match s.refEx p with
  | none => (p, s)
  | some context =>
    if p = context.optr then
      let (q, normal) := s.normal.newONode
      (q, ({ s with normal := normal } : SafeFile).editNormal q fun _ => s.node context.optr)
    else (p, s.editNormal p fun _ => s.node context.optr)

/-- The address of a committed node, written to its parent at the index of the child. -/
def linkChild (s : SafeFile) (swap : Nat) : Option (Nat × Nat) → SafeFile
  | some (parent, i) => s.editNormal parent fun it => it.setChildOptr i swap
  | none => s

/-- `mergeSafeBtree`, below a parent at an index of its children. -/
def mergeSafeBtree : Nat → SafeFile → Nat → Option (Nat × Nat) → Except NodeError (Nat × SafeFile)
  | 0, _, _, _ => .error .endless
  | fuel + 1, s, p, up => do
    let (swap, s) := s.swapONode p
    let s := s.linkChild swap up
    let s := s.editNormal swap fun it => it.setParent ((up.map Prod.fst).getD 0)
    let s ← (List.range (s.citemSet p).childOptrCount).foldlM (fun s i =>
      match (s.citemSet p).childOptr i with
      | some c => do return (← mergeSafeBtree fuel s c (some (swap, i))).2
      | none => return s) s
    return (swap, s)

/-- The first 100 bytes of the file of a session, read as a meta area. -/
def headBytes (s : SafeFile) : Meta :=
  if s.top = 0 then s.head
  else
    let it := s.node 0
    let key := (it.keySlot 0).val
    ⟨it.parent * 2 ^ 120 + it.keyCount % 2 ^ 8 * 2 ^ 112 + key / 2 ^ 48, key / 2 ^ 8 % 2 ^ 40⟩

end SafeFile

namespace MMyISAM

/-- An element of the session arrays, `at`. -/
def session (e : MMyISAM) (registryIndex : Int) : Except NodeError (Option SafeMode) :=
  if registryIndex.toNat < 5 then .ok (e.safe registryIndex.toNat) else .error .outOfRange

def clearSafeMode (e : MMyISAM) : MMyISAM := { e with safe := fun _ => none }

/-- A session's tree over the normal index of the engine. -/
def attach (e : MMyISAM) (m : SafeMode) : SafeOBtree :=
  { m.tree with file := { m.tree.file with normal := e.normal.file } }

/-- The engine after a session has run on its files. -/
def detach (e : MMyISAM) (registryIndex : Int) (tree : SafeOBtree) (values : ValueStore) : MMyISAM :=
  { e with
    normal := { e.normal with file := tree.file.normal }
    safe := fun i => if i = registryIndex.toNat then some ⟨tree, values⟩ else e.safe i }

def add (fuel : Nat) (e : MMyISAM) (registryIndex : Int) (k : Key) (value : List UInt8) (timestamp : Nat) :
    Except NodeError (MMyISAM × Bool) := do
  if 0 ≤ registryIndex then
    match ← e.session registryIndex with
    | none => return (e, false)
    | some m =>
      let (storeTarget, values) := m.values.add value timestamp
      let tree ← (e.attach m).add fuel k storeTarget
      return (e.detach registryIndex tree values, true)
  else
    let (storeTarget, values) := e.values.add value timestamp
    let normal ← e.normal.add fuel k storeTarget
    return (({ e with normal := normal, values := values } : MMyISAM).clearSafeMode, true)

/-- `get`; the values of a session are read from its own store, wherever their pointers point. -/
def get (fuel : Nat) (e : MMyISAM) (registryIndex : Int) (k : Key) :
    Except NodeError (Option (List UInt8)) := do
  if 0 ≤ registryIndex then
    match ← e.session registryIndex with
    | none => return none
    | some m =>
      let (dataOptr, _) ← (safeFind fuel m.tree.rootONode k).run (e.attach m).file
      return dataOptr.map fun d => m.values.get d.1
  else
    return (← e.normal.find fuel k).map e.values.get

def remove (fuel : Nat) (e : MMyISAM) (registryIndex : Int) (k : Key) : Except NodeError (MMyISAM × Bool) := do
  if 0 ≤ registryIndex then
    match ← e.session registryIndex with
    | none => return (e, false)
    | some m =>
      let tree ← (e.attach m).remove fuel k
      return (e.detach registryIndex tree m.values, true)
  else
    let normal ← e.normal.remove fuel k
    return (({ e with normal := normal } : MMyISAM).clearSafeMode, true)

/-- `migrateToSafeMode`; an index outside of the array is written to. -/
def migrateToSafeMode (e : MMyISAM) (registryIndex : Int) : Except NodeError MMyISAM :=
  if 0 ≤ registryIndex ∧ registryIndex.toNat < 5 then
    .ok { e with safe := fun i => if i = registryIndex.toNat then some ⟨SafeOBtree.migrate e.normal,
      {}⟩ else e.safe i }
  else .error .outOfRange

def safeCommitExit (fuel : Nat) (e : MMyISAM) (registryIndex : Int) (timestamp : Nat) :
    Except NodeError (MMyISAM × Bool) := do
  if registryIndex < 0 then return (e, false)
  match ← e.session registryIndex with
  | none => return (e, false)
  | some m =>
    let s := (e.attach m).file
    let s := { s with normal := { s.normal with head := s.headBytes } }
    let (values, s) := s.mergeDataOptr e.entryMap e.values m.values timestamp
    let (root, s) ← s.mergeSafeBtree fuel m.tree.rootONode none
    return (({ e with normal := ⟨s.normal.setMetaRoot root, root⟩, values := values } : MMyISAM).clearSafeMode, true)

/-- `safeAbortExit`: every session is closed, whichever is meant. -/
def safeAbortExit (e : MMyISAM) (registryIndex : Int) : MMyISAM × Bool :=
  if registryIndex < 0 then (e, false) else (e.clearSafeMode, true)

end MMyISAM

end MiyaCore
