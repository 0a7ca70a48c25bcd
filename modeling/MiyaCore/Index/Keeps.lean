import MiyaCore.Hoare
import MiyaCore.Index.ONode

/-!
# Invariants of the node algorithms

The algorithms touch the files through the four writes of their access only: an invariant
of these is one of every operation.
-/

namespace MiyaCore
open Hoare

variable {σ δ : Type} {F : NodeFile σ δ} {I : σ → Prop}

/-- The writes to nodes keep `I`. -/
structure NodeFile.Stable (F : NodeFile σ δ) (I : σ → Prop) : Prop where
  edit : ∀ s p f, I s → I (F.edit s p f)
  setDataOptr : ∀ s p i d, I s → I (F.setDataOptr s p i d)
  newONode : ∀ s, I s → I (F.newONode s).2

namespace NodeFile

section Reads
variable (F) (p i c : Nat)

theorem reads_read : Reads (F.read p) fun s => F.citemSet s p := fun _ => rfl

theorem reads_child : Reads (F.child p i) fun s => (F.citemSet s p).childOptr (i % 2 ^ 16) := fun _ => rfl

theorem reads_atRoot : Reads (F.atRoot p) fun s => F.optr s (F.citemSet s p).parent == 0 := fun _ => rfl

theorem reads_childIndex : Reads (F.childIndex p c) fun s =>
    (List.range (F.citemSet s p).childOptrCount).find?
      fun i => F.optr s ((F.citemSet s p).childSlot i) = F.optr s c :=
  fun _ => rfl

theorem reads_leftChild :
    Reads (F.leftChild p i) fun s => if 0 < i then (F.citemSet s p).childOptr ((i - 1) % 2 ^ 16) else none := by
  intro s
  simp only [leftChild]
  split_ifs
  · exact reads_child F p (i - 1) s
  · rfl

theorem reads_keyCountOf (o : Option Nat) : Reads (F.keyCountOf o)
    fun s => o.elim 0 fun p => (F.citemSet s p).keyCount := by
  intro s
  cases o <;> rfl

end Reads

theorem keeps_deref {α : Type} (o : Option α) : Keeps I (deref o : NodeM σ α) := by
  cases o with
  | none => exact keeps_throw _
  | some a => exact keeps_pure a

theorem keeps_read (p : Nat) : Keeps I (F.read p) := keeps_bind keeps_get fun _ => keeps_pure _

theorem keeps_getOptr (p : Nat) : Keeps I (F.getOptr p) := keeps_bind keeps_get fun _ => keeps_pure _

theorem keeps_getData (p i : Nat) : Keeps I (F.getData p i) := keeps_bind keeps_get fun _ => keeps_pure _

theorem keeps_child (p i : Nat) : Keeps I (F.child p i) := keeps_bind (keeps_read p) fun _ => keeps_pure _

theorem keeps_leftChild (p i : Nat) : Keeps I (F.leftChild p i) := by
  unfold leftChild
  split
  · exact keeps_child p (i - 1)
  · exact keeps_pure none

theorem keeps_atRoot (p : Nat) : Keeps I (F.atRoot p) :=
  keeps_bind (keeps_read p) fun _ => keeps_bind (keeps_getOptr _) fun _ => keeps_pure _

theorem keeps_keyCountOf (o : Option Nat) : Keeps I (F.keyCountOf o) := by
  cases o with
  | none => exact keeps_pure 0
  | some p => exact keeps_bind (keeps_read p) fun _ => keeps_pure _

theorem keeps_childIndex (this source : Nat) : Keeps I (F.childIndex this source) :=
  keeps_bind (keeps_getOptr source) fun _ => keeps_bind (keeps_read this) fun _ =>
    keeps_bind keeps_get fun _ => keeps_pure _

theorem keeps_subtreeMax (fuel this : Nat) : Keeps I (F.subtreeMax fuel this) := by
  induction fuel generalizing this with
  | zero => exact keeps_throw _
  | succ fuel ih =>
    refine keeps_bind (keeps_read this) fun it => ?_
    split
    · exact keeps_bind (keeps_child _ _) fun o => keeps_bind (keeps_deref o) fun _ => ih _
    · exact keeps_pure this

theorem keeps_viewItemSet (this : Nat) (k : Key) (d : Option δ) (n : Option Nat) :
    Keeps I (F.viewItemSet this k d n) := by
  refine keeps_bind (keeps_read this) fun it => ?_
  with_reducible repeat' first
    | exact keeps_throw _
    | exact keeps_pure _
    | exact keeps_get
    | exact keeps_getOptr _
    | refine keeps_bind ?_ fun _ => ?_
    | split

theorem keeps_descendAdd (fuel this : Nat) (k : Key) : Keeps I (F.descendAdd fuel this k) := by
  induction fuel generalizing this with
  | zero => exact keeps_throw _
  | succ fuel ih =>
    refine keeps_bind (keeps_read this) fun it => ?_
    split
    · exact keeps_bind (keeps_deref _) fun i => keeps_bind (keeps_child _ _) fun o =>
        keeps_bind (keeps_deref o) fun _ => ih _
    · exact keeps_pure this

theorem keeps_descendRemove (fuel this : Nat) (k : Key) : Keeps I (F.descendRemove fuel this k) := by
  induction fuel generalizing this with
  | zero => exact keeps_throw _
  | succ fuel ih =>
    refine keeps_bind (keeps_read this) fun it => ?_
    split
    · refine keeps_bind (keeps_deref _) fun i => ?_
      split
      · exact keeps_pure this
      · exact keeps_bind (keeps_child _ _) fun o => keeps_bind (keeps_deref o) fun _ => ih _
    · exact keeps_pure this

section Shift
variable {target : Nat} (put : ∀ i d, Keeps I (F.putData target i d))
include put

theorem keeps_shiftData (source index n : Nat) : Keeps I (F.shiftData target source index n) := by
  induction n with
  | zero => exact keeps_pure _
  | succ n ih =>
    unfold NodeFile.shiftData
    split
    · exact keeps_pure _
    · exact keeps_bind (keeps_getData _ _) fun _ => keeps_bind (put _ _) fun _ => ih

/-- A shift of data pointers writes data pointers of its target only. -/
theorem keeps_moveInsertDataOptr (caller index : Nat) (d : Option δ) :
    Keeps I (F.moveInsertDataOptr target caller index d) :=
  keeps_bind (keeps_read _) fun _ => keeps_bind (keeps_shiftData put _ _ _) fun _ => put _ _

end Shift

end NodeFile

namespace NodeFile.Stable

variable (stable : F.Stable I)
include stable

theorem write (p : Nat) (f : ItemSet → ItemSet) : Keeps I (F.write p f) :=
  keeps_modify fun s => stable.edit s p f

theorem putData (p i : Nat) (d : Option δ) : Keeps I (F.putData p i d) := by
  unfold NodeFile.putData
  split
  · exact keeps_modify fun s => stable.setDataOptr s p i d
  · exact keeps_throw _

theorem alloc : Keeps I F.alloc := by
  intro s inv a s' run
  cases run
  exact stable.newONode s inv

theorem moveInsertDataOptr (target caller index : Nat) (d : Option δ) :
    Keeps I (F.moveInsertDataOptr target caller index d) :=
  keeps_moveInsertDataOptr (stable.putData target) caller index d

theorem splitONode (this : Nat) (view : NodeFile.ViewItemSet δ) : Keeps I (F.splitONode this view) := by
  unfold NodeFile.splitONode
  with_reducible repeat' first
    | exact keeps_pure _
    | exact keeps_read _
    | exact keeps_child _ _
    | exact stable.write _ _
    | exact stable.putData _ _ _
    | exact stable.alloc
    | refine keeps_forIn fun _ _ => ?_
    | refine keeps_bind ?_ fun _ => ?_
    | split

theorem addSimple (this : Nat) (k : Key) (d : Option δ) (n : Option Nat) :
    Keeps I (F.addSimple this k d n) := by
  unfold NodeFile.addSimple
  with_reducible repeat' first
    | exact keeps_pure _
    | exact keeps_read _
    | exact keeps_getOptr _
    | exact stable.write _ _
    | exact stable.moveInsertDataOptr _ _ _ _
    | refine keeps_bind ?_ fun _ => ?_
    | split

theorem dropRoot (this : Nat) : Keeps I (F.dropRoot this) :=
  keeps_bind (keeps_child _ _) fun _ => keeps_bind (keeps_deref _) fun _ =>
    keeps_bind (stable.write _ _) fun _ => keeps_pure _

theorem recursiveMerge (this index : Nat) : Keeps I (F.recursiveMerge this index) := by
  unfold NodeFile.recursiveMerge
  with_reducible repeat' first
    | exact keeps_pure _
    | exact keeps_read _
    | exact keeps_child _ _
    | exact keeps_leftChild _ _
    | exact keeps_getOptr _
    | exact keeps_getData _ _
    | exact keeps_deref _
    | exact keeps_keyCountOf _
    | exact stable.write _ _
    | exact stable.putData _ _ _
    | exact stable.moveInsertDataOptr _ _ _ _
    | exact stable.dropRoot _
    | refine keeps_bind ?_ fun _ => ?_
    | split

theorem mergeUp (this : Nat) : Keeps I (F.mergeUp this) := by
  refine keeps_bind (keeps_atRoot this) fun _ => ?_
  split
  · exact keeps_bind (stable.dropRoot this) fun _ => keeps_pure _
  · exact keeps_bind (keeps_read this) fun _ => keeps_bind (keeps_childIndex _ _)
      fun _ => stable.recursiveMerge _ _

theorem merge (this index : Nat) : Keeps I (F.merge this index) := by
  unfold NodeFile.merge
  with_reducible repeat' first
    | exact keeps_pure _
    | exact keeps_read _
    | exact keeps_child _ _
    | exact keeps_leftChild _ _
    | exact keeps_getData _ _
    | exact keeps_deref _
    | exact stable.write _ _
    | exact stable.putData _ _ _
    | exact stable.moveInsertDataOptr _ _ _ _
    | exact stable.mergeUp _
    | refine keeps_bind ?_ fun _ => ?_
    | split

theorem underflow (this source : Nat) : Keeps I (F.underflow this source) := by
  unfold NodeFile.underflow
  with_reducible repeat' first
    | exact keeps_pure _
    | exact keeps_read _
    | exact keeps_child _ _
    | exact keeps_leftChild _ _
    | exact keeps_childIndex _ _
    | exact keeps_getData _ _
    | exact keeps_deref _
    | exact keeps_keyCountOf _
    | exact stable.write _ _
    | exact stable.putData _ _ _
    | exact stable.merge _ _
    | refine keeps_bind ?_ fun _ => ?_
    | split

theorem remove (fuel this : Nat) (k : Key) : Keeps I (F.remove fuel this k) := by
  induction fuel generalizing this k with
  | zero => exact keeps_throw _
  | succ fuel ih =>
    unfold NodeFile.remove
    with_reducible repeat' first
      | exact keeps_pure _
      | exact keeps_read _
      | exact keeps_child _ _
      | exact keeps_getData _ _
      | exact keeps_deref _
      | exact keeps_atRoot _
      | exact keeps_subtreeMax _ _
      | exact stable.write _ _
      | exact stable.putData _ _ _
      | exact stable.dropRoot _
      | exact stable.underflow _ _
      | exact ih _ _
      | refine keeps_bind ?_ fun _ => ?_
      | split

theorem removeKey (fuel root : Nat) (k : Key) : Keeps I (F.removeKey fuel root k) := by
  refine keeps_bind (keeps_descendRemove _ _ _) fun p => keeps_bind (stable.remove fuel p k) fun result => ?_
  split
  · exact keeps_pure _
  · exact keeps_pure _

section Roots

variable (metaRoot : ∀ s p, I s → I (F.setMetaRoot s p))
include metaRoot

theorem growRoot (this : Nat) (k : Key) (d : Option δ) (n : Nat) : Keeps I (F.growRoot this k d n) := by
  unfold NodeFile.growRoot
  with_reducible repeat' first
    | exact keeps_pure _
    | exact keeps_getOptr _
    | exact stable.write _ _
    | exact stable.putData _ _ _
    | exact stable.alloc
    | exact keeps_modify fun s => metaRoot s _
    | refine keeps_bind ?_ fun _ => ?_

theorem recursiveAdd (fuel this : Nat) (k : Key) (d : Option δ) (n : Option Nat) :
    Keeps I (F.recursiveAdd fuel this k d n) := by
  induction fuel generalizing this k d n with
  | zero => exact keeps_throw _
  | succ fuel ih =>
    unfold NodeFile.recursiveAdd
    with_reducible repeat' first
      | exact keeps_pure _
      | exact keeps_read _
      | exact keeps_atRoot _
      | exact keeps_viewItemSet _ _ _ _
      | exact stable.splitONode _ _
      | exact stable.growRoot metaRoot _ _ _ _
      | exact stable.addSimple _ _ _ _
      | exact ih _ _ _ _
      | refine keeps_bind ?_ fun _ => ?_
      | split

theorem add (fuel root : Nat) (k : Key) (d : δ) : Keeps I (F.add fuel root k d) := by
  refine keeps_bind (keeps_descendAdd _ _ _) fun leaf =>
    keeps_bind (stable.recursiveAdd metaRoot fuel leaf k _ _) fun result => ?_
  split
  · exact keeps_pure _
  · exact keeps_pure _

end Roots

end NodeFile.Stable

end MiyaCore
