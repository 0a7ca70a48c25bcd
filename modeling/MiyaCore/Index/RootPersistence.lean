import MiyaCore.Index.Keeps
import MiyaCore.Index.Slots

/-!
# The stored root

The root address of an index file is held in memory and in the meta area. An addition that
grows the tree writes both; a removal that lowers it writes the one in memory only.
-/

namespace MiyaCore
open Hoare NodeFile

namespace IndexFile

/-- Which child of `p` is `c`. -/
def place (s : IndexFile) (p c : Nat) : Option Nat :=
  (List.range (s.node p).childOptrCount).find? fun i => (s.node p).childSlot i = c

/-- The child before the index, null for the first. -/
def leftOf (s : IndexFile) (p i : Nat) : Option Nat :=
  if 0 < i then (s.node p).childOptr ((i - 1) % 2 ^ 16) else none

def rightOf (s : IndexFile) (p i : Nat) : Option Nat := (s.node p).childOptr ((i + 1) % 2 ^ 16)

/-- The keys of a neighbour; null has none. -/
def keysOf (s : IndexFile) (o : Option Nat) : Nat := o.elim 0 fun p => (s.node p).keyCount

/-- A neighbour of the child at the index has two keys or more. -/
def Lends (s : IndexFile) (p i : Nat) : Prop := 2 ≤ s.keysOf (s.leftOf p i) ∨ 2 ≤ s.keysOf (s.rightOf p i)

instance (s : IndexFile) (p i : Nat) : Decidable (s.Lends p i) := inferInstanceAs (Decidable (_ ∨ _))

/-- A node that loses its last key to a merge of its children is taken up below its parent:
the parent is another node, with a key left for it or a neighbour that lends one. -/
def TakenUp (s : IndexFile) (p : Nat) : Prop :=
  let parent := (s.node p).parent
  parent ≠ 0 ∧ parent ≠ p ∧ (s.node parent).keyCount ≠ 0 ∧
    (s.Lends parent ((s.place parent p).getD 65535) ∨ 2 ≤ (s.node parent).keyCount)

instance (s : IndexFile) (p : Nat) : Decidable (s.TakenUp p) :=
  inferInstanceAs (Decidable (_ ∧ _ ∧ _ ∧ (_ ∨ _)))

/-- A key taken from the leaf lowers the tree: it is its last, no neighbour lends one, and
the parent loses its last key too and is not taken up. -/
def Lowers (s : IndexFile) (leaf : Nat) : Prop :=
  let parent := (s.node leaf).parent
  (s.node leaf).keyCount ≤ 1 ∧ parent ≠ 0 ∧
    (∃ i ∈ s.place parent leaf, ¬ s.Lends parent i) ∧ (s.node parent).keyCount ≤ 1 ∧ ¬ s.TakenUp parent

instance (s : IndexFile) (leaf : Nat) : Decidable (s.Lowers leaf) :=
  inferInstanceAs (Decidable (_ ∧ _ ∧ (∃ i ∈ s.place _ leaf, _) ∧ _ ∧ _))

end IndexFile

/-- The leaf the removal of a key of the node takes one from: the node, or the last leaf
below its first child. -/
def leafOf (fuel p : Nat) (k : Key) : NodeM IndexFile (Option Nat) := do
  let it ← oNode.read p
  if it.findIndex k = none then return none
  if 1 ≤ it.childOptrCount then
    return some (← oNode.subtreeMax (fuel - 1) (← deref (← oNode.child p 0)))
  return some p

/-- The leaf a removal takes a key from. -/
def removalLeaf (fuel root : Nat) (k : Key) : NodeM IndexFile (Option Nat) := do
  leafOf fuel (← oNode.descendRemove fuel root k) k

namespace OBtree

/-- The constructor `OBtree`: a file without format code is set up first. -/
def openFile (s : IndexFile) : OBtree :=
  if s.head.formatCode = formatCode then ⟨s, s.head.root⟩
  else
    let (root, file) := ({ s with top := s.top + 100 } : IndexFile).newONode
    ⟨{ file with head := ⟨formatCode, root⟩ }, root⟩

inductive Op
  | add (k : Key) (d : Nat)
  | remove (k : Key)

def step (fuel : Nat) (t : OBtree) : Op → Except NodeError OBtree
  | .add k d => t.add fuel k d
  | .remove k => t.remove fuel k

/-- The operation writes past the slots of a node, into the block behind it, or to a node whose addresses the
arithmetic of overlay pointers takes astray. -/
def WritesBeside (fuel : Nat) (t : OBtree) (op : Op) : Prop :=
  ¬t.file.Reached ∨ t.step fuel op = .error .outOfRange ∨ t.step fuel op = .error .astray

/-- The trees reached from a tree by allowed operations that return. What an operation leaves that has
written beside its nodes may be any tree. -/
inductive Reached (allowed : Nat → OBtree → Op → Prop) (t₀ : OBtree) : OBtree → Prop
  | start : Reached allowed t₀ t₀
  | step {fuel : Nat} {t t' : OBtree} {op : Op} :
    Reached allowed t₀ t → allowed fuel t op → t.step fuel op = .ok t' → Reached allowed t₀ t'
  | beside {fuel : Nat} {t t' : OBtree} {op : Op} :
    Reached allowed t₀ t → allowed fuel t op → t.WritesBeside fuel op → Reached allowed t₀ t'

/-- The stored root is the one in memory, and every search of the reopened file returns
what it returned before. -/
def RootStored (t : OBtree) : Prop :=
  t.file.head.root = t.rootONode ∧ ∀ fuel k, (openFile t.file).find fuel k = t.find fuel k

/-- The operation takes its key from a leaf that may not lose one. -/
def LowersTree (fuel : Nat) (t : OBtree) : Op → Prop
  | .add _ _ => False
  | .remove k => ∃ leaf, (removalLeaf fuel t.rootONode k).run t.file = .ok (some leaf, t.file) ∧ t.file.Lowers leaf

/-- The operation writes to its nodes alone and does not lower the tree. -/
def KeepsRoot (fuel : Nat) (t : OBtree) (op : Op) : Prop := ¬t.WritesBeside fuel op ∧ ¬t.LowersTree fuel op

end OBtree

section Reads
variable (p i c : Nat)

theorem reads_read : Reads (oNode.read p) fun s => s.node p := oNode.reads_read p

theorem reads_child : Reads (oNode.child p i) fun s => (s.node p).childOptr (i % 2 ^ 16) :=
  oNode.reads_child p i

theorem reads_atRoot : Reads (oNode.atRoot p) fun s => (s.node p).parent == 0 := oNode.reads_atRoot p

theorem reads_childIndex : Reads (oNode.childIndex p c) fun s => s.place p c := oNode.reads_childIndex p c

theorem reads_leftChild : Reads (oNode.leftChild p i) fun s => s.leftOf p i := oNode.reads_leftChild p i

theorem reads_keyCountOf (o : Option Nat) : Reads (oNode.keyCountOf o) fun s => s.keysOf o :=
  oNode.reads_keyCountOf o

end Reads

/-- From a state of `P` the root stays. -/
abbrev Stays (P : IndexFile → Prop) (m : NodeM IndexFile (Option Nat)) : Prop := Post P m fun r _ => r = none

theorem stays_none {P : IndexFile → Prop} : Stays P (pure none) := post_pure fun _ _ => rfl

section Counts
variable (it : ItemSet) (i v : Nat) (k : Key)

theorem ItemSet.shiftKeys_keyCount (n : Nat) : (it.shiftKeys i n).keyCount = it.keyCount := by
  induction n generalizing it with
  | zero => rfl
  | succ n ih =>
    rw [shiftKeys]
    split_ifs
    · rfl
    · split
      · rw [ih, setKey_keyCount]
      · rfl

@[simp] theorem ItemSet.moveInsertKey_keyCount : (it.moveInsertKey i k).keyCount = it.keyCount := by
  rw [moveInsertKey, setKey_keyCount, shiftKeys_keyCount]

theorem ItemSet.shiftChildOptrs_keyCount (n : Nat) : (it.shiftChildOptrs i n).keyCount = it.keyCount := by
  induction n generalizing it with
  | zero => rfl
  | succ n ih =>
    rw [shiftChildOptrs]
    split_ifs
    · rfl
    · rw [ih, setChildOptr_keyCount]

@[simp] theorem ItemSet.moveInsertChildOptr_keyCount : (it.moveInsertChildOptr i v).keyCount = it.keyCount := by
  rw [moveInsertChildOptr, setChildOptr_keyCount, shiftChildOptrs_keyCount]

/-- A loop of writes that leave a field leaves it. -/
theorem foldl_field {α : Type} {f : ItemSet → Nat → ItemSet} (field : ItemSet → α)
    (leaves : ∀ it i, field (f it i) = field it) (l : List Nat) : field (l.foldl f it) = field it := by
  induction l generalizing it with
  | nil => rfl
  | cons i l ih => rw [List.foldl_cons, ih, leaves]

@[simp] theorem ItemSet.moveDeleteKey_keyCount : (it.moveDeleteKey i).keyCount = it.keyCount - 1 := by
  unfold moveDeleteKey
  split_ifs with empty
  · rw [empty]
  · rfl

@[simp] theorem ItemSet.moveDeleteChildOptr_keyCount : (it.moveDeleteChildOptr i).keyCount = it.keyCount := by
  unfold moveDeleteChildOptr
  split_ifs
  · rfl
  · exact foldl_field it (·.keyCount) (fun it i => setChildOptr_keyCount it i _) _

@[simp] theorem ItemSet.moveDeleteDataOptr_keyCount : (it.moveDeleteDataOptr i).keyCount = it.keyCount := by
  unfold moveDeleteDataOptr
  split_ifs
  · rfl
  · exact foldl_field it (·.keyCount) (fun it i => setDataOptr_keyCount it i _) _

@[simp] theorem ItemSet.moveDeleteKey_parent : (it.moveDeleteKey i).parent = it.parent := by
  unfold moveDeleteKey
  split_ifs
  · rfl
  · refine foldl_field it (·.parent) (fun it i => ?_) _
    unfold pullKey
    split
    · exact setKey_parent it i _
    · rfl

@[simp] theorem ItemSet.moveDeleteChildOptr_parent : (it.moveDeleteChildOptr i).parent = it.parent := by
  unfold moveDeleteChildOptr
  split_ifs
  · rfl
  · exact foldl_field it (·.parent) (fun it i => setChildOptr_parent it i _) _

@[simp] theorem ItemSet.moveDeleteDataOptr_parent : (it.moveDeleteDataOptr i).parent = it.parent := by
  unfold moveDeleteDataOptr
  split_ifs
  · rfl
  · exact foldl_field it (·.parent) (fun it i => setDataOptr_parent it i _) _

end Counts

section KeyCount
variable {n p : Nat} (this : Nat)

/-- A write that does not lower the count of its node. -/
theorem keeps_keyCount_write {f : ItemSet → ItemSet} (grows : ∀ it, it.keyCount ≤ (f it).keyCount) :
    Keeps (fun s : IndexFile => n ≤ (s.node this).keyCount) (oNode.write p f) := by
  refine keeps_modify fun s count => ?_
  simp only [oNode, IndexFile.edit_node]
  split_ifs
  · exact count.trans (grows _)
  · exact count

theorem keeps_keyCount_putData (i : Nat) (d : Option Nat) :
    Keeps (fun s : IndexFile => n ≤ (s.node this).keyCount) (oNode.putData p i d) := by
  unfold NodeFile.putData
  split
  · exact keeps_keyCount_write this fun it => le_refl _
  · exact keeps_throw _

theorem post_keyCount_moveDeleteKey (i : Nat) :
    Post (fun s : IndexFile => 2 ≤ (s.node this).keyCount) (oNode.write this fun it => it.moveDeleteKey i)
      fun _ s => 1 ≤ (s.node this).keyCount := by
  refine post_modify fun s count => ?_
  simp only [oNode, IndexFile.edit_node, if_true, ItemSet.moveDeleteKey_keyCount]
  omega

end KeyCount

/-- The end of a merge that may have emptied its node. -/
theorem stays_unlessEmpty (this : Nat) :
    Stays (fun s => 1 ≤ (s.node this).keyCount) (do
      if (← oNode.read this).keyCount = 0 then return some (← oNode.dropRoot this)
      return none) := by
  refine post_reads (reads_read this) fun it => ?_
  split
  · rename_i empty
    refine post_of_false fun s pre => ?_
    have count := pre.1
    rw [pre.2, empty] at count
    omega
  · exact stays_none

/-- A node with a key to spare for its child, or with a neighbour of it that lends one,
does not give way to it. -/
theorem stays_recursiveMerge (this i : Nat) :
    Stays (fun s => (s.node this).keyCount ≠ 0 ∧ (s.Lends this i ∨ 2 ≤ (s.node this).keyCount))
      (oNode.recursiveMerge this i) := by
  unfold NodeFile.recursiveMerge
  refine post_reads (reads_read this) fun it => ?_
  split
  · rename_i empty
    refine post_of_false fun s pre => pre.1.1 ?_
    rw [pre.2, empty]
  refine post_reads (reads_child this i) fun target => ?_
  refine post_reads (reads_leftChild this i) fun left => ?_
  refine post_reads (reads_child this (i + 1)) fun right => ?_
  refine post_reads (reads_keyCountOf left) fun leftCount => ?_
  refine post_reads (reads_keyCountOf right) fun rightCount => ?_
  split
  · with_reducible repeat' first
      | exact stays_none
      | refine post_forget fun _ => ?_
  split
  · with_reducible repeat' first
      | exact stays_none
      | refine post_forget fun _ => ?_
  rename_i fewLeft fewRight
  refine Post.pre (P := fun s => 2 ≤ (s.node this).keyCount) ?_ fun s pre => ?_
  · -- whichever neighbour takes the child, the node loses one key of its two
    with_reducible repeat' first
      | exact stays_none
      | exact stays_unlessEmpty this
      | refine post_keeps (keeps_read _) fun _ => ?_
      | refine post_keeps (keeps_child _ _) fun _ => ?_
      | refine post_keeps (keeps_deref _) fun _ => ?_
      | refine post_keeps (keeps_getOptr _) fun _ => ?_
      | refine post_keeps (keeps_getData _ _) fun _ => ?_
      | refine post_keeps (keeps_moveInsertDataOptr (keeps_keyCount_putData this) _ _ _) fun _ => ?_
      | refine post_bind (post_keyCount_moveDeleteKey this _) fun _ => ?_
      | refine post_keeps (keeps_keyCount_write this fun it => by simp) fun _ => ?_
      | split
  · obtain ⟨⟨⟨⟨⟨⟨⟨-, lends⟩, -⟩, -⟩, atLeft⟩, atRight⟩, countLeft⟩, countRight⟩ := pre
    have none : ¬ s.Lends this i := by
      rw [IndexFile.Lends, atLeft, IndexFile.rightOf, atRight, countLeft, countRight]
      exact not_or.mpr ⟨fewLeft, fewRight⟩
    exact lends.resolve_left none

theorem stays_mergeUp (this : Nat) : Stays (fun s => s.TakenUp this) (oNode.mergeUp this) := by
  refine post_reads (reads_atRoot this) fun root => ?_
  split
  · rename_i isRoot
    refine post_of_false fun s pre => pre.1.1 ?_
    simpa [isRoot] using pre.2
  · refine post_reads (reads_read this) fun it => post_reads (reads_childIndex it.parent this) fun i => ?_
    refine (stays_recursiveMerge it.parent (i.getD 65535)).pre ?_
    rintro s ⟨⟨⟨⟨-, -, keys, room⟩, -⟩, rfl⟩, rfl⟩
    exact ⟨keys, room⟩

/-- What a merge of the children of `this` leaves: the parents, and outside of `this` the
children and at least the keys. -/
structure Beside (this : Nat) (s s' : IndexFile) : Prop where
  parent : ∀ q, (s'.node q).parent = (s.node q).parent
  childOptrCount : ∀ q, q ≠ this → (s'.node q).childOptrCount = (s.node q).childOptrCount
  childSlot : ∀ q, q ≠ this → (s'.node q).childSlot = (s.node q).childSlot
  keyCount : ∀ q, q ≠ this → (s.node q).keyCount ≤ (s'.node q).keyCount

namespace Beside
variable {this : Nat} {s s' : IndexFile}

theorem keysOf (beside : Beside this s s') (one : (s.node this).keyCount ≤ 1) {o : Option Nat}
    (lends : 2 ≤ s.keysOf o) :
    2 ≤ s'.keysOf o := by
  cases o with
  | none => exact lends
  | some q =>
    have count : 2 ≤ (s.node q).keyCount := lends
    refine count.trans (beside.keyCount q ?_)
    rintro rfl
    omega

/-- A node that would be taken up still is. -/
theorem takenUp (beside : Beside this s s') (one : (s.node this).keyCount ≤ 1)
    (taken : s.TakenUp this) : s'.TakenUp this := by
  obtain ⟨notRoot, apart, keys, room⟩ := taken
  have count := beside.keyCount _ apart
  unfold IndexFile.TakenUp
  rw [beside.parent]
  refine ⟨notRoot, apart, by omega, room.imp (fun lends => ?_) fun two => two.trans count⟩
  have place : s'.place (s.node this).parent this = s.place (s.node this).parent this := by
    rw [IndexFile.place, IndexFile.place, beside.childOptrCount _ apart, beside.childSlot _ apart]
  have child : ∀ i, (s'.node (s.node this).parent).childOptr i = (s.node (s.node this).parent).childOptr i := by
    intro i
    rw [ItemSet.childOptr, ItemSet.childOptr, beside.childOptrCount _ apart, beside.childSlot _ apart]
  rw [place]
  refine lends.imp (fun left => ?_) fun right => ?_
  · have kept := beside.keysOf one left
    simpa only [IndexFile.leftOf, child] using kept
  · have kept := beside.keysOf one right
    simpa only [IndexFile.rightOf, child] using kept

theorem keeps_write (p : Nat) {f : ItemSet → ItemSet} (parent : ∀ it, (f it).parent = it.parent)
    (other : p ≠ this → ∀ it, (f it).childOptrCount = it.childOptrCount ∧ (f it).childSlot = it.childSlot ∧
      it.keyCount ≤ (f it).keyCount) : Keeps (Beside this s) (oNode.write p f) := by
  refine keeps_modify fun s' beside => ⟨fun q => ?_, fun q outside => ?_, fun q outside => ?_,
    fun q outside => ?_⟩
  · simp only [oNode, IndexFile.edit_node]
    split_ifs
    · rw [parent, beside.parent]
    · exact beside.parent q
  · simp only [oNode, IndexFile.edit_node]
    split_ifs with hit
    · rw [(other (hit ▸ outside) _).1, beside.childOptrCount q outside]
    · exact beside.childOptrCount q outside
  · simp only [oNode, IndexFile.edit_node]
    split_ifs with hit
    · rw [(other (hit ▸ outside) _).2.1, beside.childSlot q outside]
    · exact beside.childSlot q outside
  · simp only [oNode, IndexFile.edit_node]
    split_ifs with hit
    · exact (beside.keyCount q outside).trans (other (hit ▸ outside) _).2.2
    · exact beside.keyCount q outside

theorem keeps_write_this {f : ItemSet → ItemSet} (parent : ∀ it, (f it).parent = it.parent) :
    Keeps (Beside this s) (oNode.write this f) :=
  keeps_write this parent fun apart => absurd rfl apart

theorem keeps_putData (p i : Nat) (d : Option Nat) : Keeps (Beside this s) (oNode.putData p i d) := by
  unfold NodeFile.putData
  split
  · exact keeps_write p (fun _ => rfl) fun _ _ => ⟨rfl, rfl, le_refl _⟩
  · exact keeps_throw _

end Beside

/-- A neighbour with one key at most takes a key in. -/
theorem post_beside_moveInsertKey (this : Nat) {p : Nat} {s : IndexFile} {index : ItemSet → Nat} {k : Key}
    (few : (s.node p).keyCount < 2) (inside : ∀ it : ItemSet, index it ≤ it.keyCount) :
    Post (· = s) (oNode.write p fun it => it.moveInsertKey (index it) k) fun _ => Beside this s := by
  have moved : (s.node p).moveInsertKey _ k = _ := ItemSet.moveInsertKey_eq (by omega) (inside _) k
  refine post_modify fun s' same => ?_
  subst same
  refine ⟨fun q => ?_, fun q _ => ?_, fun q _ => ?_, fun q _ => ?_⟩ <;>
    · simp only [oNode, IndexFile.edit_node]
      split_ifs with hit
      · rw [hit, moved]
      · rfl

/-- A node with two keys, or one that is taken up when it loses its last. -/
theorem stays_merge (this i : Nat) :
    Stays (fun s => ¬ s.Lends this i ∧ (2 ≤ (s.node this).keyCount ∨ s.TakenUp this)) (oNode.merge this i) := by
  refine post_from fun s pre => ?_
  obtain ⟨none, room⟩ := pre
  unfold NodeFile.merge
  refine post_reads_at (reads_leftChild this i) (post_reads_at (reads_child this (i + 1)) ?_)
  refine post_reads_at (reads_read this) ?_
  split
  · with_reducible repeat' first
      | exact stays_none
      | refine post_forget fun _ => ?_
      | split
  rename_i one
  have taken := room.resolve_left one
  have few : (s.node this).keyCount ≤ 1 := by omega
  -- from the first write on the state is kept as `Beside` says, up to the step to the parent
  have finish : Stays (Beside this s) (oNode.mergeUp this) :=
    (stays_mergeUp this).pre fun s' beside => beside.takenUp few taken
  split
  · rename_i left atLeft
    have fewLeft : (s.node left).keyCount < 2 := by
      have count := (not_or.mp none).1
      rw [atLeft] at count
      exact not_le.mp count
    refine post_keeps (keeps_read _) fun _ => post_keeps (keeps_deref _) fun k => ?_
    refine post_bind (post_beside_moveInsertKey this fewLeft fun it => le_refl _) fun _ => ?_
    refine post_keeps (Beside.keeps_write left (fun _ => rfl) fun _ it => ⟨rfl, rfl, Nat.le_succ _⟩) fun _ => ?_
    refine post_keeps (Beside.keeps_write_this fun it => it.moveDeleteKey_parent _) fun _ => ?_
    refine post_keeps (keeps_getData _ _) fun d => post_keeps (keeps_read _) fun _ => ?_
    refine post_keeps (keeps_moveInsertDataOptr (Beside.keeps_putData left) _ _ _) fun _ => ?_
    refine post_keeps (Beside.keeps_write left (fun _ => rfl) fun _ it => ⟨rfl, rfl, le_refl _⟩) fun _ => ?_
    refine post_keeps (Beside.keeps_write_this fun it => it.moveDeleteDataOptr_parent _) fun _ => ?_
    exact post_keeps (Beside.keeps_write_this fun it => it.moveDeleteChildOptr_parent _) fun _ => finish
  · rename_i right noLeft atRight
    have fewRight : (s.node right).keyCount < 2 := by
      have count := (not_or.mp none).2
      rw [IndexFile.rightOf, atRight] at count
      exact not_le.mp count
    refine post_keeps (keeps_read _) fun _ => post_keeps (keeps_deref _) fun k => ?_
    refine post_bind (post_beside_moveInsertKey this fewRight fun it => Nat.zero_le _) fun _ => ?_
    refine post_keeps (Beside.keeps_write right (fun _ => rfl)
      fun _ it => ⟨rfl, rfl, Nat.le_succ _⟩) fun _ => ?_
    refine post_keeps (Beside.keeps_write_this fun it => it.moveDeleteKey_parent _) fun _ => ?_
    refine post_keeps (keeps_getData _ _) fun d => ?_
    refine post_keeps (keeps_moveInsertDataOptr (Beside.keeps_putData right) _ _ _) fun _ => ?_
    refine post_keeps (Beside.keeps_write right (fun _ => rfl) fun _ it => ⟨rfl, rfl, le_refl _⟩) fun _ => ?_
    refine post_keeps (Beside.keeps_write_this fun it => it.moveDeleteDataOptr_parent _) fun _ => ?_
    exact post_keeps (Beside.keeps_write_this fun it => it.moveDeleteChildOptr_parent _) fun _ => finish
  · exact stays_none

/-- A leaf that may lose its last key. -/
theorem stays_underflow (this leaf : Nat) :
    Stays (fun s => ∀ i ∈ s.place this leaf, ¬ s.Lends this i → 2 ≤ (s.node this).keyCount ∨ s.TakenUp this)
      (oNode.underflow this leaf) := by
  refine post_from fun s pre => ?_
  unfold NodeFile.underflow
  refine post_reads_at (reads_childIndex this leaf) ?_
  split
  · rename_i i atIndex
    refine post_reads_at (reads_leftChild this i) (post_reads_at (reads_child this (i + 1)) ?_)
    refine post_reads_at (reads_keyCountOf _) (post_reads_at (reads_keyCountOf _) ?_)
    split
    · with_reducible repeat' first
        | exact stays_none
        | refine post_forget fun _ => ?_
    split
    · with_reducible repeat' first
        | exact stays_none
        | refine post_forget fun _ => ?_
    rename_i fewLeft fewRight
    have none : ¬ s.Lends this i := not_or.mpr ⟨fewLeft, fewRight⟩
    refine (stays_merge this i).pre ?_
    rintro s' rfl
    exact ⟨none, pre i atIndex none⟩
  · exact stays_none

/-- The key is taken from a leaf. -/
theorem stays_remove_leaf {s : IndexFile} {leaf : Nat} (isLeaf : (s.node leaf).childOptrCount = 0)
    (keeps : ¬ s.Lowers leaf) (fuel : Nat) (k : Key) : Stays (· = s) (oNode.remove fuel leaf k) := by
  cases fuel with
  | zero => exact post_throw _
  | succ fuel =>
    unfold NodeFile.remove
    refine post_reads_at (reads_read leaf) ?_
    split
    · rename_i index hit
      rw [if_neg (by omega)]
      split
      · exact post_forget fun _ => stays_none
      refine post_reads_at (reads_atRoot leaf) ?_
      split
      · exact post_forget fun _ => stays_none
      rename_i one notRoot
      refine (stays_underflow _ leaf).pre ?_
      rintro s' rfl i atIndex none
      by_contra low
      rw [not_or] at low
      exact keeps ⟨by omega, by simpa using notRoot, ⟨i, atIndex, none⟩, by omega, low.2⟩
    · exact stays_none

/-- Files that differ in keys and data pointers only. -/
structure SameShape (s s' : IndexFile) : Prop where
  parent : ∀ q, (s'.node q).parent = (s.node q).parent
  keyCount : ∀ q, (s'.node q).keyCount = (s.node q).keyCount
  childOptrCount : ∀ q, (s'.node q).childOptrCount = (s.node q).childOptrCount
  childSlot : ∀ q, (s'.node q).childSlot = (s.node q).childSlot

namespace SameShape
variable {s s' : IndexFile} (same : SameShape s s')
include same

theorem place (p c : Nat) : s'.place p c = s.place p c := by
  rw [IndexFile.place, IndexFile.place, same.childOptrCount, same.childSlot]

theorem childOptr (p i : Nat) : (s'.node p).childOptr i = (s.node p).childOptr i := by
  rw [ItemSet.childOptr, ItemSet.childOptr, same.childOptrCount, same.childSlot]

theorem keysOf (o : Option Nat) : s'.keysOf o = s.keysOf o := by
  cases o with
  | none => rfl
  | some q => exact same.keyCount q

theorem lends (p i : Nat) : s'.Lends p i ↔ s.Lends p i := by
  simp only [IndexFile.Lends, IndexFile.leftOf, IndexFile.rightOf, same.childOptr, same.keysOf]

theorem takenUp (p : Nat) : s'.TakenUp p ↔ s.TakenUp p := by
  simp only [IndexFile.TakenUp, same.parent, same.keyCount, same.place, same.lends]

theorem lowers (leaf : Nat) : s'.Lowers leaf ↔ s.Lowers leaf := by
  simp only [IndexFile.Lowers, same.parent, same.keyCount, same.place, same.lends, same.takenUp]

end SameShape

theorem sameShape_setKey {s : IndexFile} {p i : Nat} (inside : i < 3) (k : Key) (d : Nat) :
    SameShape s ((s.edit p fun it => it.setKey i k).edit p fun it => it.setDataOptr i d) := by
  refine ⟨fun q => ?_, fun q => ?_, fun q => ?_, fun q => ?_⟩ <;>
    · simp only [IndexFile.edit_node]
      split_ifs <;> simp [ItemSet.setKey_eq inside]

theorem subtreeMax_leaf (fuel p : Nat) :
    Post (fun _ => True) (oNode.subtreeMax fuel p) fun leaf s => (s.node leaf).childOptrCount = 0 := by
  induction fuel generalizing p with
  | zero => exact post_throw _
  | succ fuel ih =>
    refine post_reads (reads_read p) fun it => ?_
    split
    · exact post_forget fun _ => post_forget fun _ => ih _
    · rename_i isLeaf
      refine post_pure ?_
      rintro s ⟨-, rfl⟩
      omega

theorem deref_eq_ok {σ α : Type} {o : Option α} {s s' : σ} {a : α} :
    (deref o : NodeM σ α).run s = .ok (a, s') ↔ o = some a ∧ s' = s := by
  constructor
  · intro run
    cases o with
    | none => cases run
    | some b =>
      cases run
      exact ⟨rfl, rfl⟩
  · rintro ⟨rfl, rfl⟩
    rfl

theorem leafOf_leaf {s : IndexFile} {fuel p : Nat} {k : Key} (hit : (s.node p).findIndex k ≠ none)
    (isLeaf : (s.node p).childOptrCount = 0) : (leafOf fuel p k).run s = .ok (some p, s) := by
  unfold leafOf
  rw [StateT.run_bind, run_read, ok_bind, if_neg hit, if_neg (show ¬ 1 ≤ (s.node p).childOptrCount by omega)]
  rfl

theorem leafOf_inner {s : IndexFile} {fuel p c leaf : Nat} {k : Key} (hit : (s.node p).findIndex k ≠ none)
    (inner : (s.node p).childOptrCount ≠ 0) (first : (s.node p).childOptr 0 = some c)
    (last : (oNode.subtreeMax fuel c).run s = .ok (leaf, s)) :
    (leafOf (fuel + 1) p k).run s = .ok (some leaf, s) := by
  unfold leafOf
  rw [StateT.run_bind, run_read, ok_bind, if_neg hit,
    if_pos (show 1 ≤ (s.node p).childOptrCount by omega), StateT.run_bind, run_child, ok_bind,
    Nat.zero_mod, first, StateT.run_bind, run_deref, ok_bind, StateT.run_bind, Nat.add_sub_cancel, last]
  rfl

theorem stays_remove {s : IndexFile} {fuel p : Nat} {k : Key}
    (keeps : ∀ leaf, (leafOf fuel p k).run s = .ok (some leaf, s) → ¬ s.Lowers leaf) :
    Stays (· = s) (oNode.remove fuel p k) := by
  by_cases isLeaf : (s.node p).childOptrCount = 0
  · by_cases absent : (s.node p).findIndex k = none
    · cases fuel with
      | zero => exact post_throw _
      | succ fuel =>
        unfold NodeFile.remove
        refine post_reads_at (reads_read p) ?_
        rw [absent]
        exact stays_none
    · refine stays_remove_leaf isLeaf (keeps p ?_) fuel k
      exact leafOf_leaf absent isLeaf
  cases fuel with
  | zero => exact post_throw _
  | succ fuel =>
    unfold NodeFile.remove
    refine post_reads_at (reads_read p) ?_
    split
    · rename_i index hit
      rw [if_pos (by omega)]
      refine post_reads_at (reads_child p 0) ?_
      refine post_bind (post_run s (keeps_deref _)) fun c => post_from fun s₁ first => ?_
      obtain ⟨first, rfl⟩ := first
      refine post_bind (post_run s₁ (keeps_subtreeMax fuel c)) fun leaf => post_from fun s₂ last => ?_
      obtain ⟨last, rfl⟩ := last
      have isLeaf' : (s₂.node leaf).childOptrCount = 0 := subtreeMax_leaf fuel c s₂ trivial leaf s₂ last
      have stays : ¬ s₂.Lowers leaf := by
        have found : (s₂.node p).findIndex k ≠ none := by simp [hit]
        exact keeps leaf (leafOf_inner found isLeaf (deref_eq_ok.mp first).1 last)
      refine post_keeps (keeps_read _) fun _ => post_keeps (keeps_read _) fun _ => post_keeps
        (keeps_deref _) fun k' => ?_
      refine post_bind (R := fun _ s => s = s₂.edit p fun it => it.setKey index k')
        (post_modify fun s same => ?_) fun _ => ?_
      · rw [same]
        rfl
      refine post_keeps (keeps_read _) fun _ => post_keeps (keeps_getData _ _) fun d => ?_
      refine post_bind (R := fun _ s => SameShape s₂ s) ?_ fun _ => ?_
      · unfold NodeFile.putData
        split
        · rename_i inside
          refine post_modify fun s same => ?_
          rw [same]
          exact sameShape_setKey inside k' _
        · exact post_throw _
      refine post_keeps (keeps_read _) fun _ => post_keeps (keeps_read _) fun _ => post_keeps
        (keeps_deref _) fun k'' => ?_
      refine post_bind (R := fun r _ => r = none) (post_from fun s' same => ?_) fun r => ?_
      · exact stays_remove_leaf (by rw [same.childOptrCount, isLeaf']) (by rwa [same.lowers]) fuel k''
      · cases r with
        | none => exact stays_none
        | some root => exact post_of_false fun _ never => by cases never
    · exact stays_none

theorem removeKey_root {s : IndexFile} {fuel root : Nat} {k : Key}
    (keeps : ∀ leaf, (removalLeaf fuel root k).run s = .ok (some leaf, s) → ¬ s.Lowers leaf) :
    Post (· = s) (oNode.removeKey fuel root k) fun r _ => r = root := by
  refine post_bind (post_run s (keeps_descendRemove fuel root k)) fun p => post_from fun s₁ found => ?_
  obtain ⟨found, rfl⟩ := found
  refine post_bind (R := fun r _ => r = none) (stays_remove fun leaf taken => keeps leaf ?_) fun r => ?_
  · rw [removalLeaf, StateT.run_bind, found]
    exact taken
  · cases r with
    | none => exact post_pure fun _ _ => rfl
    | some root => exact post_of_false fun _ never => by cases never

/-- Writes to nodes leave the meta area. -/
theorem stable_head (m : Meta) : oNode.Stable fun s => s.head = m :=
  ⟨fun _ _ _ => id, fun _ _ _ _ => id, fun _ => id⟩

/-- A new root is stored. -/
theorem post_growRoot (m : Meta) (this : Nat) (k : Key) (d : Option Nat) (n : Nat) :
    Post (fun s => s.head = m) (oNode.growRoot this k d n) fun root s => s.head = { m with root := root } := by
  unfold NodeFile.growRoot
  refine post_keeps (stable_head m).alloc fun root => ?_
  refine post_reads (fun _ => rfl : Reads (oNode.getOptr root) fun _ => root) fun optr => ?_
  have stable := stable_head { m with root := root }
  refine post_bind (R := fun _ s => s.head = { m with root := root }) (post_modify fun s pre => ?_) fun _ => ?_
  · rw [setMetaRoot_head, pre.1, ← pre.2]
    rfl
  with_reducible repeat' first
    | exact post_pure fun _ stored => stored
    | refine post_keeps (keeps_getOptr _) fun _ => ?_
    | refine post_keeps (stable.write _ _) fun _ => ?_
    | refine post_keeps (stable.putData _ _ _) fun _ => ?_

theorem post_recursiveAdd (m : Meta) (fuel this : Nat) (k : Key) (d : Option Nat) (n : Option Nat) :
    Post (fun s => s.head = m) (oNode.recursiveAdd fuel this k d n)
      fun r s => s.head = { m with root := r.getD m.root } := by
  induction fuel generalizing this k d n with
  | zero => exact post_throw _
  | succ fuel ih =>
    unfold NodeFile.recursiveAdd
    refine post_keeps (keeps_read this) fun it => ?_
    split
    · refine post_keeps (keeps_viewItemSet _ _ _ _)
        fun view => post_keeps ((stable_head m).splitONode _ _) fun split => ?_
      refine post_keeps (keeps_atRoot _) fun root => ?_
      split
      · exact post_bind (post_growRoot m _ _ _ _) fun root => post_pure fun _ stored => stored
      · exact post_keeps (keeps_read _) fun _ => ih _ _ _ _
    · exact post_keeps ((stable_head m).addSimple _ _ _ _) fun _ => post_pure fun _ stored => stored

theorem post_add (m : Meta) (fuel : Nat) (k : Key) (d : Nat) :
    Post (fun s => s.head = m) (oNode.add fuel m.root k d) fun root s => s.head = { m with root := root } := by
  refine post_keeps (keeps_descendAdd _ _ _) fun leaf => post_bind
    (post_recursiveAdd m fuel leaf k (some d) none) fun r => ?_
  cases r with
  | none => exact post_pure fun _ stored => stored
  | some root => exact post_pure fun _ stored => stored

namespace OBtree

/-- The meta area names the root that is held in memory. -/
def Stored (t : OBtree) : Prop := t.file.head = ⟨formatCode, t.rootONode⟩

theorem Stored.rootStored {t : OBtree} (stored : t.Stored) : t.RootStored := by
  have same : openFile t.file = t := by
    rw [openFile, if_pos (by rw [stored]), stored]
  exact ⟨by rw [stored], fun fuel k => by rw [same]⟩

theorem openFile_stored (s : IndexFile) : (openFile s).Stored := by
  unfold openFile
  split
  · rename_i code
    unfold Stored
    rw [← code]
  · rfl

theorem add_stored {t t' : OBtree} {fuel : Nat} {k : Key} {d : Nat} (stored : t.Stored)
    (run : t.add fuel k d = .ok t') :
    t'.Stored := by
  obtain ⟨⟨root, file⟩, result, done⟩ := bind_eq_ok.mp run
  dsimp only at done
  split_ifs at done with reached
  cases done
  exact post_add ⟨formatCode, t.rootONode⟩ fuel k d t.file stored root file result

theorem remove_stored {t t' : OBtree} {fuel : Nat} {k : Key} (stored : t.Stored)
    (keeps : ¬t.LowersTree fuel (.remove k)) (run : t.remove fuel k = .ok t') : t'.Stored := by
  unfold OBtree.remove at run
  cases result : (oNode.removeKey fuel t.rootONode k).run t.file with
  | error e =>
    rw [result] at run
    cases run
  | ok pair =>
    obtain ⟨root, file⟩ := pair
    rw [result] at run
    cases run
    have same := removeKey_root (fun leaf taken lowers => keeps ⟨leaf, taken, lowers⟩) t.file rfl root file result
    have head := (stable_head t.file.head).removeKey fuel t.rootONode k t.file rfl root file result
    unfold Stored
    rw [head, stored, same]

theorem reached_stored {s : IndexFile} {t : OBtree} (reached : Reached KeepsRoot (openFile s) t) :
    t.Stored := by
  induction reached with
  | start => exact openFile_stored s
  | @step fuel t t' op _ keeps run ih =>
    cases op with
    | add k d => exact add_stored ih run
    | remove k => exact remove_stored ih keeps.2 run
  | beside _ keeps written => exact absurd written keeps.1

/-- The tree an operation returns, or the old one. -/
def after (fuel : Nat) (t : OBtree) (op : Op) : OBtree := (t.step fuel op).toOption.getD t

theorem step_after {fuel : Nat} {t : OBtree} {op : Op} (returns : (t.step fuel op).toOption.isSome) :
    t.step fuel op = .ok (t.after fuel op) := by
  unfold OBtree.after
  cases result : t.step fuel op with
  | error e => simp [result, Except.toOption] at returns
  | ok t' => rfl

theorem Reached.after {allowed : Nat → OBtree → Op → Prop} {t₀ t : OBtree}
    (reached : Reached allowed t₀ t) (fuel : Nat) (op : Op) (allow : allowed fuel t op)
    (returns : (t.step fuel op).toOption.isSome) : Reached allowed t₀ (t.after fuel op) :=
  reached.step allow (step_after returns)

theorem not_writesBeside {fuel : Nat} {t : OBtree} {op : Op} (near : t.file.Reached)
    (returns : (t.step fuel op).toOption.isSome) : ¬t.WritesBeside fuel op := by
  rw [WritesBeside, step_after returns]
  rintro (far | range | astray)
  · exact far near
  · cases range
  · cases astray

theorem keepsRoot_add {fuel : Nat} {t : OBtree} {k : Key} {d : Nat} (near : t.file.Reached)
    (returns : (t.step fuel (.add k d)).toOption.isSome) : t.KeepsRoot fuel (.add k d) :=
  ⟨not_writesBeside near returns, id⟩

theorem not_lowersTree {fuel leaf : Nat} {t : OBtree} {k : Key}
    (taken : ((removalLeaf fuel t.rootONode k).run t.file).toOption.map Prod.fst = some (some leaf))
    (keeps : ¬ t.file.Lowers leaf) : ¬t.LowersTree fuel (.remove k) := by
  rintro ⟨leaf', run, lowers⟩
  rw [run] at taken
  simp only [Except.toOption, Option.map_some, Option.some.injEq] at taken
  exact keeps (taken ▸ lowers)

/-- Four keys in two leaves. -/
def twoLeaves : OBtree :=
  ([.add 1 11, .add 2 12, .add 3 13, .add 4 14] : List Op).foldl (OBtree.after 3) (openFile {})

theorem reached_twoLeaves {allowed : Nat → OBtree → Op → Prop}
    (adds : ∀ fuel t k d, t.file.Reached → (t.step fuel (.add k d)).toOption.isSome → allowed fuel t (.add k d)) :
    Reached allowed (openFile {}) twoLeaves := by
  have after {t : OBtree} (reached : Reached allowed (openFile {}) t) (k : Key) (d : Nat) (near : t.file.Reached)
      (returns : (t.step 3 (.add k d)).toOption.isSome) : Reached allowed (openFile {}) (t.after 3 (.add k d)) :=
    reached.after 3 (.add k d) (adds 3 t k d near returns) returns
  have one := after Reached.start 1 11 (by decide +kernel) (by decide +kernel)
  have two := after one 2 12 (by decide +kernel) (by decide +kernel)
  have three := after two 3 13 (by decide +kernel) (by decide +kernel)
  exact after three 4 14 (by decide +kernel) (by decide +kernel)

/-- In every tree reached by operations that write to their nodes alone and do not lower the tree, the stored
root is the one in memory. -/
theorem rootStored_of_keepsRoot (s : IndexFile) (t : OBtree)
    (reached : Reached KeepsRoot (openFile s) t) : t.RootStored :=
  (reached_stored reached).rootStored

theorem rootStored_of_keepsRoot_leaf : (twoLeaves.after 3 (.remove 4)).RootStored :=
  rootStored_of_keepsRoot {} _ ((reached_twoLeaves fun _ _ _ _ => keepsRoot_add).after 3 (.remove 4)
    ⟨not_writesBeside (by decide +kernel) (by decide +kernel),
      not_lowersTree (show _ = some (some 203) by decide +kernel) (by decide +kernel)⟩ (by decide +kernel))

/-- The leaf with the keys 3 and 4 loses both: the root is left to the other leaf, and the
meta area still names the old one. -/
theorem rootStored_fails : ∃ t, Reached (fun _ _ _ => True) (openFile {}) t ∧ ¬ t.RootStored := by
  have reached : Reached (fun _ _ _ => True) (openFile {}) twoLeaves := reached_twoLeaves fun _ _ _ _ _ _ => trivial
  have less := reached.after 3 (.remove 4) trivial (by decide +kernel)
  refine ⟨_, less.after 3 (.remove 3) trivial (by decide +kernel), fun stored => ?_⟩
  have root := stored.1
  revert root
  decide +kernel

end OBtree

end MiyaCore
