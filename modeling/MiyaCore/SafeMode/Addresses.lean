import MiyaCore.Index.RootPersistence
import MiyaCore.SafeMode.SafeONode

/-!
# The addresses of the nodes of a session

`migrateToSafeMode` clears the allocator after the meta area and the dummy region have been set
aside: the first node of a session lies at address 0.
-/

namespace MiyaCore
open Hoare NodeFile

/-- A node of the normal index: blocks of 103 bytes follow the meta area. -/
def IndexFile.IsNode (s : IndexFile) (q : Nat) : Prop := 100 ≤ q ∧ q < s.top ∧ (q - 100) % 103 = 0

/-- A leaf that would lose its last key to a merge, without a neighbour at its parent. In a
well-formed tree there is none. -/
def IndexFile.Stray (s : IndexFile) (p : Nat) : Prop :=
  (s.node p).childOptrCount = 0 ∧ (s.node p).keyCount ≤ 1 ∧ (s.node p).parent ≠ 0 ∧
    ∀ i ∈ s.place (s.node p).parent p, s.leftOf (s.node p).parent i = none ∧
    s.rightOf (s.node p).parent i = none

namespace SafeFile

/-- A node the session has allocated: an entry leads to it. -/
def NodeAt (s : SafeFile) (q : Nat) : Prop := ∃ p context, s.refEx p = some context ∧ context.optr = q

/-- The nodes of the session lie behind the meta area, and none of them where the normal index
has one. -/
def AddressesApart (s : SafeFile) : Prop := ∀ q, s.NodeAt q → q ≠ 0 ∧ 100 ≤ q ∧ ¬ s.normal.IsNode q

section Entries
variable {s : SafeFile} {q : Nat}

theorem NodeAt.regist (node : s.NodeAt q) (key value : Nat) : (s.regist key value).NodeAt q := by
  obtain ⟨p, context, found, same⟩ := node
  refine ⟨p, context, ?_, same⟩
  rw [refEx_regist]
  split_ifs
  · rw [found, Option.getD_some]
  · exact found

theorem NodeAt.itemSet (node : s.NodeAt q) (p : Nat) : (s.itemSet p).NodeAt q := by
  unfold SafeFile.itemSet
  split_ifs
  · exact node
  · have allocated : (s.allocate (s.normal.node p)).NodeAt q := node
    exact (allocated.regist _ _).regist _ _

theorem NodeAt.edit (node : s.NodeAt q) (p : Nat) (f : ItemSet → ItemSet) : (s.edit p f).NodeAt q :=
  node.itemSet p

theorem NodeAt.setLocation (node : s.NodeAt q) (p i : Nat) (location : DataLocation) :
    (s.setLocation p i location).NodeAt q := by
  unfold SafeFile.setLocation
  split
  · rename_i context found
    obtain ⟨p', context', found', same⟩ := node
    by_cases hit : p' = p
    · subst hit
      rw [found] at found'
      cases found'
      refine ⟨p', { context with
        dataOptrLocation := fun j => if j = i then location else context.dataOptrLocation j }, ?_, same⟩
      rw [refEx_update, if_pos rfl, found]
      rfl
    · exact ⟨p', context', by rw [refEx_update, if_neg hit, found'], same⟩
  · exact node

/-- The nodes of a session stay. -/
theorem stable_nodeAt (q : Nat) : safeONode.Stable fun s => s.NodeAt q where
  edit _ p f node := node.edit p f
  setDataOptr _ p i _ node := (node.edit p _).setLocation _ i _
  newONode s node := (show (s.allocate {}).NodeAt q from node).regist _ _

end Entries

/-- The session has not written yet. -/
structure Untouched (s : SafeFile) : Prop where
  entry : ∀ p, s.entry p = none
  top : s.top = 0

section Untouched
variable {s : SafeFile} (untouched : s.Untouched)
include untouched

theorem Untouched.ref (p : Nat) : s.ref p = p := by
  rw [SafeFile.ref, refEx, untouched.entry]
  rfl

theorem Untouched.citemSet (p : Nat) : s.citemSet p = s.normal.node p := by
  rw [SafeFile.citemSet, refEx, untouched.entry]

/-- The first write takes the address 0. -/
theorem Untouched.nodeAt_edit (p : Nat) (f : ItemSet → ItemSet) : (s.edit p f).NodeAt 0 := by
  have copied : ((s.allocate (s.normal.node p)).regist s.top s.top).NodeAt 0 := by
    refine ⟨s.top, ⟨s.top, fun _ => .normal⟩, ?_, untouched.top⟩
    have absent : (s.allocate (s.normal.node p)).refEx s.top = none := untouched.entry _
    rw [refEx_regist, if_pos rfl, absent]
    rfl
  have fresh : s.itemSet p = ((s.allocate (s.normal.node p)).regist s.top s.top).regist p s.top := by
    rw [SafeFile.itemSet, if_neg (by rw [refEx, untouched.entry]; decide)]
  show (s.itemSet p).NodeAt 0
  rw [fresh]
  exact copied.regist p s.top

theorem Untouched.nodeAt_newONode : s.newONode.2.NodeAt 0 := by
  refine ⟨s.top, ⟨s.top, fun _ => .normal⟩, ?_, untouched.top⟩
  have absent : (s.allocate {}).refEx s.top = none := untouched.entry _
  rw [newONode, refEx_regist, if_pos rfl, absent]
  rfl

theorem Untouched.write (p : Nat) (f : ItemSet → ItemSet) :
    Post (· = s) (safeONode.write p f) fun _ s => s.NodeAt 0 := by
  refine post_modify fun s' same => ?_
  rw [same]
  exact untouched.nodeAt_edit p f

end Untouched

end SafeFile

section Touch
variable {s : SafeFile} (untouched : s.Untouched)
include untouched

/-- An addition that returns has written. -/
theorem touches_add (fuel root : Nat) (k : Key) (d : Nat × DataLocation) :
    Post (· = s) (safeONode.add fuel root k d) fun _ s => s.NodeAt 0 := by
  have stable := SafeFile.stable_nodeAt 0
  have metaRoot : ∀ s p, SafeFile.NodeAt s 0 → (safeONode.setMetaRoot s p).NodeAt 0 := fun _ _ => id
  refine post_keeps (keeps_descendAdd _ _ _) fun leaf => ?_
  refine post_bind (R := fun _ s => s.NodeAt 0) ?_ fun r => ?_
  · cases fuel with
    | zero => exact post_throw _
    | succ fuel =>
      unfold NodeFile.recursiveAdd
      refine post_keeps (keeps_read _) fun it => ?_
      split
      · refine post_keeps (keeps_viewItemSet _ _ _ _) fun view => ?_
        refine post_bind (R := fun _ s => s.NodeAt 0) ?_ fun split => ?_
        · unfold NodeFile.splitONode
          refine post_bind (R := fun _ s => s.NodeAt 0) ?_ fun split => ?_
          · intro s₀ same q s' run
            rw [same] at run
            cases run
            exact untouched.nodeAt_newONode
          · change Keeps (SafeFile.NodeAt · 0) _
            with_reducible repeat' first
              | exact keeps_pure _
              | exact keeps_read _
              | exact keeps_child _ _
              | exact stable.write _ _
              | exact stable.putData _ _ _
              | refine keeps_forIn fun _ _ => ?_
              | refine keeps_bind ?_ fun _ => ?_
              | split
        · refine post_keeps (keeps_atRoot _) fun root => ?_
          split
          · exact post_keeps (stable.growRoot metaRoot _ _ _ _) fun _ => post_pure fun _ => id
          · exact post_keeps (keeps_read _) fun _ => stable.recursiveAdd metaRoot _ _ _ _ _
      · refine post_bind (R := fun _ s => s.NodeAt 0) ?_ fun _ => post_pure fun _ => id
        unfold NodeFile.addSimple
        refine post_keeps (keeps_read _) fun it => post_bind (untouched.write _ _) fun _ => ?_
        change Keeps (SafeFile.NodeAt · 0) _
        with_reducible repeat' first
          | exact keeps_pure _
          | exact keeps_read _
          | exact keeps_getOptr _
          | exact stable.write _ _
          | exact stable.moveInsertDataOptr _ _ _ _
          | refine keeps_bind ?_ fun _ => ?_
  · split
    · exact post_pure fun _ => id
    · exact post_pure fun _ => id

theorem touches_merge (this i : Nat) (beside : (s.normal.leftOf this i).isSome ∨
    (s.normal.rightOf this i).isSome) :
    Post (· = s) (safeONode.merge this i) fun _ s => s.NodeAt 0 := by
  have stable := SafeFile.stable_nodeAt 0
  unfold NodeFile.merge
  refine post_reads_at (safeONode.reads_leftChild this i)
    (post_reads_at (safeONode.reads_child this (i + 1)) ?_)
  have left : (if 0 < i then (safeONode.citemSet s this).childOptr ((i - 1) % 2 ^ 16) else none) =
    s.normal.leftOf this i := by
    rw [show safeONode.citemSet s this = s.normal.node this from untouched.citemSet this]
    rfl
  have right : (safeONode.citemSet s this).childOptr ((i + 1) % 2 ^ 16) = s.normal.rightOf this i := by
    rw [show safeONode.citemSet s this = s.normal.node this from untouched.citemSet this]
    rfl
  simp only [left, right]
  refine post_keeps (keeps_read this) fun it => ?_
  with_reducible repeat' first
    | exact post_pure fun _ node => node
    | exact post_of_keeps (stable.mergeUp _)
    | refine post_keeps (keeps_read _) fun _ => ?_
    | refine post_keeps (keeps_deref _) fun _ => ?_
    | refine post_keeps (keeps_getData _ _) fun _ => ?_
    | refine post_keeps (stable.write _ _) fun _ => ?_
    | refine post_keeps (stable.putData _ _ _) fun _ => ?_
    | refine post_keeps (stable.moveInsertDataOptr _ _ _ _) fun _ => ?_
    | refine post_bind (untouched.write _ _) fun _ => ?_
    | split
  -- without a neighbour the merge leaves the children as they are
  all_goals simp_all

theorem touches_underflow (this leaf i : Nat) (atIndex : s.normal.place this leaf = some i)
    (beside : (s.normal.leftOf this i).isSome ∨ (s.normal.rightOf this i).isSome) :
    Post (· = s) (safeONode.underflow this leaf) fun _ s => s.NodeAt 0 := by
  have stable := SafeFile.stable_nodeAt 0
  unfold NodeFile.underflow
  refine post_reads_at (safeONode.reads_childIndex this leaf) ?_
  have place : ((List.range (safeONode.citemSet s this).childOptrCount).find? fun i =>
      safeONode.optr s ((safeONode.citemSet s this).childSlot i) = safeONode.optr s leaf) = some i := by
    simp only [show safeONode.citemSet s this = s.normal.node this from untouched.citemSet this,
      show ∀ p, safeONode.optr s p = p from untouched.ref]
    exact atIndex
  rw [place]
  dsimp only
  refine post_keeps (keeps_leftChild _ _) fun left => post_keeps (keeps_child _ _) fun right => ?_
  refine post_keeps (keeps_keyCountOf _) fun leftCount => post_keeps (keeps_keyCountOf _) fun rightCount => ?_
  split
  · with_reducible repeat' first
      | exact post_pure fun _ node => node
      | refine post_keeps (keeps_getData _ _) fun _ => ?_
      | refine post_keeps (keeps_deref _) fun _ => ?_
      | refine post_keeps (stable.putData _ _ _) fun _ => ?_
      | refine post_keeps (stable.write _ _) fun _ => ?_
      | refine post_bind (untouched.write _ _) fun _ => ?_
      | refine post_keeps (keeps_read _) fun _ => ?_
  split
  · with_reducible repeat' first
      | exact post_pure fun _ node => node
      | refine post_keeps (keeps_getData _ _) fun _ => ?_
      | refine post_keeps (keeps_deref _) fun _ => ?_
      | refine post_keeps (stable.putData _ _ _) fun _ => ?_
      | refine post_keeps (stable.write _ _) fun _ => ?_
      | refine post_bind (untouched.write _ _) fun _ => ?_
      | refine post_keeps (keeps_read _) fun _ => ?_
  · exact touches_merge untouched this i beside

theorem touches_remove {p : Nat} {k : Key} (hit : (s.normal.node p).findIndex k ≠ none)
    (notStray : ¬ s.normal.Stray p) (fuel : Nat) :
    Post (· = s) (safeONode.remove fuel p k) fun _ s => s.NodeAt 0 := by
  have stable := SafeFile.stable_nodeAt 0
  have citemSet : safeONode.citemSet s p = s.normal.node p := untouched.citemSet p
  cases fuel with
  | zero => exact post_throw _
  | succ fuel =>
    unfold NodeFile.remove
    refine post_reads_at (safeONode.reads_read p) ?_
    simp only [citemSet]
    split
    · split
      · refine post_keeps (keeps_child _ _) fun _ => post_keeps (keeps_deref _) fun _ => ?_
        refine post_keeps (keeps_subtreeMax _ _) fun max => ?_
        refine post_keeps (keeps_read _) fun _ => post_keeps (keeps_read _) fun _ => post_keeps
          (keeps_deref _) fun k => ?_
        refine post_bind (untouched.write _ _) fun _ => ?_
        refine post_keeps (keeps_read _) fun _ => post_keeps (keeps_getData _ _) fun _ => ?_
        refine post_keeps (stable.putData _ _ _) fun _ => ?_
        refine post_keeps (keeps_read _) fun _ => post_keeps (keeps_read _) fun _ => post_keeps
          (keeps_deref _) fun _ => ?_
        refine post_keeps (stable.remove _ _ _) fun r => ?_
        with_reducible repeat' first
          | exact post_pure fun _ node => node
          | refine post_keeps (keeps_read _) fun _ => ?_
          | refine post_keeps (keeps_atRoot _) fun _ => ?_
          | refine post_keeps (stable.dropRoot _) fun _ => ?_
          | split
      rename_i isLeaf
      split
      · exact post_bind (untouched.write _ _) fun _ => post_pure fun _ => id
      rename_i one
      refine post_reads_at (safeONode.reads_atRoot p) ?_
      split
      · exact post_bind (untouched.write _ _) fun _ => post_pure fun _ => id
      rename_i notRoot
      have up : (s.normal.node p).parent ≠ 0 := by
        rw [show safeONode.optr s (safeONode.citemSet s p).parent =
          (safeONode.citemSet s p).parent from untouched.ref _, citemSet] at notRoot
        simpa using notRoot
      obtain ⟨i, atIndex, beside⟩ : ∃ i, s.normal.place (s.normal.node p).parent p = some i ∧
          ((s.normal.leftOf (s.normal.node p).parent i).isSome ∨
          (s.normal.rightOf (s.normal.node p).parent i).isSome) := by
        by_contra alone
        refine notStray ⟨by omega, by omega, up, fun i atIndex => ?_⟩
        have none := not_or.mp fun some => alone ⟨i, atIndex, some⟩
        simpa using none
      exact touches_underflow untouched _ p i atIndex beside
    · rename_i absent
      exact absurd (Option.eq_none_iff_forall_ne_some.mpr fun i found => absent i found) hit

theorem idle_underflow {this leaf : Nat}
    (alone : ∀ i ∈ s.normal.place this leaf, s.normal.leftOf this i = none ∧ s.normal.rightOf this i = none) :
    Post (· = s) (safeONode.underflow this leaf) fun r s' => r = none ∧ s' = s := by
  have citemSet : ∀ p, safeONode.citemSet s p = s.normal.node p := untouched.citemSet
  have ref : ∀ p, safeONode.optr s p = p := untouched.ref
  have finish : Post (· = s) (pure none : NodeM SafeFile (Option Nat)) fun r s' => r = none ∧ s' = s :=
    post_pure fun s' same => ⟨rfl, same⟩
  unfold NodeFile.underflow
  refine post_reads_at (safeONode.reads_childIndex this leaf) ?_
  simp only [citemSet, ref]
  split
  · rename_i i atIndex
    obtain ⟨left, right⟩ := alone i atIndex
    rw [IndexFile.leftOf] at left
    rw [IndexFile.rightOf] at right
    refine post_reads_at (safeONode.reads_leftChild this i)
      (post_reads_at (safeONode.reads_child this (i + 1)) ?_)
    refine post_reads_at (safeONode.reads_keyCountOf _) (post_reads_at (safeONode.reads_keyCountOf _) ?_)
    simp only [citemSet, left, right]
    rw [if_neg (by simp), if_neg (by simp)]
    unfold NodeFile.merge
    refine post_reads_at (safeONode.reads_leftChild this i)
      (post_reads_at (safeONode.reads_child this (i + 1)) ?_)
    refine post_keeps (keeps_read this) fun it => ?_
    simp only [citemSet, left, right]
    split
    · exact finish
    · exact finish
  · exact finish

/-- A removal that finds no key, or a stray leaf, leaves the session as it is. -/
theorem idle_remove {p : Nat} {k : Key} (idle : (s.normal.node p).findIndex k = none ∨ s.normal.Stray p)
    (fuel : Nat) :
    Post (· = s) (safeONode.remove fuel p k) fun r s' => r = none ∧ s' = s := by
  have citemSet : ∀ p, safeONode.citemSet s p = s.normal.node p := untouched.citemSet
  have ref : ∀ p, safeONode.optr s p = p := untouched.ref
  cases fuel with
  | zero => exact post_throw _
  | succ fuel =>
    unfold NodeFile.remove
    refine post_reads_at (safeONode.reads_read p) ?_
    simp only [citemSet]
    split
    · rename_i index found
      obtain ⟨isLeaf, one, up, alone⟩ := idle.resolve_left (by simp [found])
      rw [if_neg (by omega), if_neg (by omega)]
      refine post_reads_at (safeONode.reads_atRoot p) ?_
      rw [if_neg (by simpa [citemSet, ref] using up)]
      exact idle_underflow untouched alone
    · exact post_pure fun s' same => ⟨rfl, same⟩

end Touch

/-- A search depends on the nodes it reads only. -/
theorem descendRemove_congr {σ δ σ' δ' : Type} {F : NodeFile σ δ} {G : NodeFile σ' δ'} {s : σ} {s' : σ'}
    (same : ∀ p, F.citemSet s p = G.citemSet s' p) {fuel p q : Nat} {k : Key}
    (run : (G.descendRemove fuel p k).run s' = .ok (q, s')) :
    (F.descendRemove fuel p k).run s = .ok (q, s) := by
  induction fuel generalizing p with
  | zero => cases run
  | succ fuel ih =>
    rw [descendRemove, StateT.run_bind, F.reads_read, ok_bind]
    rw [descendRemove, StateT.run_bind, G.reads_read, ok_bind] at run
    simp only [same] at run ⊢
    split_ifs at run ⊢ with inner
    · cases scan : scanRemove (G.citemSet s' p) k (List.range (G.citemSet s' p).childOptrCount) with
      | none =>
        rw [scan] at run
        cases run
      | some r =>
        rw [scan, StateT.run_bind, run_deref, ok_bind] at run
        rw [StateT.run_bind, run_deref, ok_bind]
        cases r with
        | none =>
          cases run
          rfl
        | some i =>
          rw [StateT.run_bind, G.reads_child, ok_bind, StateT.run_bind] at run
          rw [StateT.run_bind, F.reads_child, ok_bind, StateT.run_bind]
          dsimp only at run ⊢
          rw [same]
          cases child : (G.citemSet s' p).childOptr (i % 2 ^ 16) with
          | none =>
            rw [child] at run
            cases run
          | some c =>
            rw [child, run_deref, ok_bind] at run
            exact ih run
    · cases run
      rfl

/-- The operation is a removal that finds nothing to remove: the node the search in the normal
tree ends at does not have the key, or is stray. -/
def OBtree.Idle (fuel : Nat) (t : OBtree) : OBtree.Op → Prop
  | .add _ _ => False
  | .remove k => ∃ p, (oNode.descendRemove fuel t.rootONode k).run t.file = .ok (p, t.file) ∧
      ((t.file.node p).findIndex k = none ∨ t.file.Stray p)

namespace SafeOBtree

def step (fuel : Nat) (t : SafeOBtree) : OBtree.Op → Except NodeError SafeOBtree
  | .add k d => t.add fuel k d
  | .remove k => t.remove fuel k

/-- A session's operations one after the other. -/
def run (fuel : Nat) (t : SafeOBtree) (ops : List OBtree.Op) : Except NodeError SafeOBtree :=
  ops.foldlM (step fuel) t

theorem migrate_untouched (t : OBtree) : (migrate t).file.Untouched := ⟨fun _ => rfl, rfl⟩

/-- What an operation returns comes from the run on the files. -/
theorem step_post {fuel : Nat} {t t' : SafeOBtree} {op : OBtree.Op} {Q : Nat → SafeFile → Prop}
    (add : ∀ k d, op = .add k d → Post (· = t.file) (safeONode.add fuel t.rootONode k (d, .safe)) Q)
    (remove : ∀ k, op = .remove k → Post (· = t.file) (safeONode.removeKey fuel t.rootONode k) Q)
    (run : t.step fuel op = .ok t') : Q t'.rootONode t'.file := by
  cases op with
  | add k d =>
    simp only [step, SafeOBtree.add] at run
    cases result : (safeONode.add fuel t.rootONode k (d, .safe)).run t.file with
    | error e =>
      rw [result] at run
      cases run
    | ok pair =>
      rw [result] at run
      cases run
      exact add k d rfl t.file rfl pair.1 pair.2 result
  | remove k =>
    simp only [step, SafeOBtree.remove] at run
    cases result : (safeONode.removeKey fuel t.rootONode k).run t.file with
    | error e =>
      rw [result] at run
      cases run
    | ok pair =>
      rw [result] at run
      cases run
      exact remove k rfl t.file rfl pair.1 pair.2 result

theorem step_nodeAt {fuel : Nat} {t t' : SafeOBtree} {op : OBtree.Op} (node : t.file.NodeAt 0)
    (run : t.step fuel op = .ok t') :
    t'.file.NodeAt 0 := by
  have stable := SafeFile.stable_nodeAt 0
  have metaRoot : ∀ s p, SafeFile.NodeAt s 0 → (safeONode.setMetaRoot s p).NodeAt 0 := fun _ _ => id
  refine step_post (Q := fun _ s => s.NodeAt 0) (fun k d _ => ?_) (fun k _ => ?_) run
  · exact Post.pre (stable.add metaRoot fuel t.rootONode k (d, .safe)) fun s same => same ▸ node
  · exact Post.pre (stable.removeKey fuel t.rootONode k) fun s same => same ▸ node

theorem run_nodeAt {fuel : Nat} {t t' : SafeOBtree} {ops : List OBtree.Op} (node : t.file.NodeAt 0)
    (returns : t.run fuel ops = .ok t') : t'.file.NodeAt 0 := by
  induction ops generalizing t with
  | nil =>
    cases returns
    exact node
  | cons op ops ih =>
    rw [SafeOBtree.run, List.foldlM_cons] at returns
    cases first : t.step fuel op with
    | error e =>
      rw [first] at returns
      cases returns
    | ok u =>
      rw [first] at returns
      exact ih (step_nodeAt node first) returns

/-- The search in a new session is the one in the normal tree. -/
theorem descend_migrate {t : OBtree} {fuel p : Nat} {k : Key} :
    (safeONode.descendRemove fuel t.rootONode k).run (migrate t).file = .ok (p, (migrate t).file) ↔
      (oNode.descendRemove fuel t.rootONode k).run t.file = .ok (p, t.file) := by
  have same : ∀ p, safeONode.citemSet (migrate t).file p = oNode.citemSet t.file p :=
    (migrate_untouched t).citemSet
  exact ⟨descendRemove_congr fun p => (same p).symm, descendRemove_congr same⟩

theorem exists_descend {t : OBtree} {fuel : Nat} {k : Key} {u : SafeOBtree}
    (run : (migrate t).remove fuel k = .ok u) :
    ∃ p, (oNode.descendRemove fuel t.rootONode k).run t.file = .ok (p, t.file) := by
  obtain ⟨pair, removed, -⟩ := bind_eq_ok.mp run
  obtain ⟨p, s, found, -⟩ := run_bind_eq_ok.mp removed
  obtain rfl := keeps_descendRemove (I := (· = (migrate t).file)) fuel t.rootONode k _ rfl p s found
  exact ⟨p, descend_migrate.mp found⟩

theorem idle_step {t : OBtree} {fuel : Nat} {op : OBtree.Op} {u : SafeOBtree} (idle : t.Idle fuel op)
    (run : (migrate t).step fuel op = .ok u) : u = migrate t := by
  have untouched := migrate_untouched t
  have same : u.rootONode = t.rootONode ∧ u.file = (migrate t).file := by
    refine step_post (Q := fun root s => root = t.rootONode ∧ s = (migrate t).file)
      (fun k d isAdd => ?_) (fun k isRemove => ?_) run
    · subst isAdd
      exact idle.elim
    · subst isRemove
      obtain ⟨p, descend, idle⟩ := idle
      refine post_bind (post_run _ (keeps_descendRemove _ _ _)) fun q => post_from ?_
      rintro s ⟨found, rfl⟩
      obtain rfl : q = p := by
        have both := found.symm.trans (descend_migrate.mpr descend)
        cases both
        rfl
      refine post_bind (idle_remove untouched idle fuel) fun r => post_from ?_
      rintro s ⟨rfl, rfl⟩
      exact post_pure fun s same => ⟨rfl, same⟩
  obtain ⟨root, file⟩ := u
  obtain ⟨rfl, rfl⟩ := same
  rfl

theorem touches_step {t : OBtree} {fuel : Nat} {op : OBtree.Op} {u : SafeOBtree} (busy : ¬ t.Idle fuel op)
    (run : (migrate t).step fuel op = .ok u) : u.file.NodeAt 0 := by
  have untouched := migrate_untouched t
  refine step_post (Q := fun _ s => s.NodeAt 0) (fun k d _ => touches_add untouched _ _ _ _)
    (fun k isRemove => ?_) run
  subst isRemove
  refine post_bind (post_run _ (keeps_descendRemove _ _ _)) fun p => post_from ?_
  rintro s ⟨found, rfl⟩
  have working : ¬ ((t.file.node p).findIndex k = none ∨ t.file.Stray p) :=
    fun idle => busy ⟨p, descend_migrate.mp found, idle⟩
  rw [not_or] at working
  refine post_bind (touches_remove untouched working.1 working.2 fuel) fun r => ?_
  split
  · exact post_pure fun _ => id
  · exact post_pure fun _ => id

/-- The addresses of a session's nodes are apart from the null address, the meta area and the
normal nodes exactly as long as the session has written nothing. -/
theorem addressesApart_iff (t : OBtree) (fuel : Nat) (ops : List OBtree.Op) (u : SafeOBtree)
    (returns : (migrate t).run fuel ops = .ok u) : u.file.AddressesApart ↔ ∀ op ∈ ops, t.Idle fuel op := by
  induction ops with
  | nil =>
    cases returns
    refine iff_of_true (fun q node => ?_) (by simp)
    obtain ⟨p, context, found, -⟩ := node
    cases found
  | cons op ops ih =>
    rw [run, List.foldlM_cons] at returns
    cases first : (migrate t).step fuel op with
    | error e =>
      rw [first] at returns
      cases returns
    | ok v =>
      rw [first] at returns
      by_cases idle : t.Idle fuel op
      · obtain rfl := idle_step idle first
        rw [ih returns, List.forall_mem_cons, and_iff_right idle]
      · refine iff_of_false (fun apart => ?_) fun all => idle (all op (List.mem_cons_self ..))
        exact (apart 0 (run_nodeAt (touches_step idle first) returns)).1 rfl

/-- A removal that finds nothing, an addition and a removal, in a session on four keys in two leaves. -/
theorem addressesApart_iff_twoLeaves :
    ∃ u, (migrate OBtree.twoLeaves).run 3 [.remove 9, .add 5 15, .remove 1] = .ok u ∧
    (u.file.AddressesApart ↔
      ∀ op ∈ [OBtree.Op.remove 9, .add 5 15, .remove 1], OBtree.twoLeaves.Idle 3 op) := by
  have returns : ((migrate OBtree.twoLeaves).run 3 [.remove 9, .add 5 15, .remove 1]).toOption.isSome := by
    decide +kernel
  cases run : (migrate OBtree.twoLeaves).run 3 [.remove 9, .add 5 15, .remove 1] with
  | error e =>
    rw [run] at returns
    cases returns
  | ok u => exact ⟨u, rfl, addressesApart_iff OBtree.twoLeaves 3 _ u run⟩

/-- One addition to the session of an empty tree: the copied root lies at address 0. -/
theorem addressesApart_fails : ∃ u, (migrate OBtree.create).run 1 [.add 7 3] = .ok u ∧
    ¬ u.file.AddressesApart := by
  refine ⟨_, rfl, fun apart => ?_⟩
  exact (apart 0 ⟨0, _, rfl, rfl⟩).1 rfl

end SafeOBtree

end MiyaCore
