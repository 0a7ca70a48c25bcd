import MiyaCore.Index.AddRuns
import MiyaCore.Index.Insertion
import MiyaCore.Index.Lookup
import MiyaCore.SafeMode.Isolation

/-!
# Commits

A commit copies the first 100 bytes of the session's file over the meta area, which is right as
long as no node of the session lies there.
-/

namespace MiyaCore
open Hoare NodeFile SearchTree Bytes

namespace ValueStore

/-- A value starts at the address: its header is there, and it ends inside of the store. -/
def Stores (v : ValueStore) (d : Nat) : Prop :=
  ofLe (v.bytes d 2) = 28 ∧ d + 28 + ofLe (v.bytes (d + 12) 8) ≤ v.top

end ValueStore

namespace MMyISAM

/-- The normal database is sound: a well-formed tree whose root and format code are in the meta
area, and whose data pointers lead to values of the normal store. -/
structure Sound (e : MMyISAM) (h : Nat) : Prop where
  wellFormed : e.normal.WellFormed h
  stored : e.normal.Stored
  values : ∀ x ∈ e.normal.pairs h, e.values.Stores x.2

/-- The finite map of the normal database. -/
def contents (e : MMyISAM) (h : Nat) (k : Key) : Option (List UInt8) :=
  ((e.normal.pairs h).find? fun x => x.1 = k).map fun x => e.values.get x.2

end MMyISAM

/-- What a query does to the map its session sees. -/
def Query.apply (contents : Key → Option (List UInt8)) : Query → Key → Option (List UInt8)
  | .add _ k value _ => fun x => if x = k then some value else contents x
  | .remove _ k => fun x => if x = k then none else contents x
  | _ => contents

theorem SafeFile.editNormal_self {s : SafeFile} {p : Nat} {f : ItemSet → ItemSet}
    (same : f (s.normal.node p) = s.normal.node p) :
    s.editNormal p f = s := by
  rw [SafeFile.editNormal, edit_eq_put, same, put_self]

theorem ItemSet.setChildOptr_self {it : ItemSet} {i c : Nat} (inside : i < 4)
    (same : it.childSlot i = c) : it.setChildOptr i c = it := by
  subst same
  rw [setChildOptr_eq inside]
  congr
  funext j
  split_ifs with hit
  · rw [hit]
  · rfl

/-- A loop whose body leaves the state leaves it. -/
theorem foldlM_self {ε σ ι : Type} {f : σ → ι → Except ε σ} {s : σ} {l : List ι}
    (body : ∀ i ∈ l, f s i = .ok s) :
    l.foldlM f s = .ok s := by
  induction l with
  | nil => rfl
  | cons i l ih =>
    rw [List.foldlM_cons, body i (List.mem_cons_self ..), ok_bind]
    exact ih fun j member => body j (List.mem_cons_of_mem _ member)

/-- Without writes of the session the merge writes to every node what it has. -/
theorem mergeSafeBtree_untouched {s : SafeFile} (untouched : s.Untouched) {fuel h parent p : Nat}
    {up : Option (Nat × Nat)} (built : Built s.normal.nodes s.normal.NodeOK h parent p) (enough : h < fuel)
    (place : up = none ∧ parent = 0 ∨ ∃ i, up = some (parent, i) ∧ i < 4 ∧
    (s.normal.node parent).childSlot i = p) :
    s.mergeSafeBtree fuel p up = .ok (p, s) := by
  induction fuel generalizing h parent p up with
  | zero => omega
  | succ fuel ih =>
    have swap : s.swapONode p = (p, s) := by
      rw [SafeFile.swapONode, SafeFile.refEx, untouched.entry]
    have above : s.linkChild p up = s := by
      obtain ⟨rfl, -⟩ | ⟨i, rfl, inside, same⟩ := place
      · rfl
      · exact SafeFile.editNormal_self (ItemSet.setChildOptr_self inside same)
    have own : s.editNormal p (fun it => it.setParent ((up.map Prod.fst).getD 0)) = s := by
      refine SafeFile.editNormal_self ?_
      have parentOf : (s.normal.node p).parent = parent := built.local.2.2.1
      obtain ⟨rfl, rfl⟩ | ⟨i, rfl, -, -⟩ := place
      · rw [Option.map_none, Option.getD_none, ← parentOf, ItemSet.setParent]
      · rw [Option.map_some, Option.getD_some, ← parentOf, ItemSet.setParent]
    rw [SafeFile.mergeSafeBtree, swap]
    simp only [above, own]
    rw [foldlM_self, ok_bind]
    · rfl
    intro i member
    have below : i < (s.normal.node p).childOptrCount := by
      rw [untouched.citemSet, List.mem_range] at member
      exact member
    have child : (s.citemSet p).childOptr i = some ((s.normal.node p).childSlot i) := by
      rw [untouched.citemSet, ItemSet.childOptr_eq below]
    have isKid : (s.normal.node p).childSlot i ∈ s.normal.nodes.kids p :=
      List.mem_map_of_mem (List.mem_range.mpr below)
    cases h with
    | zero =>
      rw [built.2] at isKid
      cases isKid
    | succ h =>
      have count : (s.normal.node p).childOptrCount = (s.normal.node p).keyCount + 1 := by
        rw [← ItemSet.length_kids, ← ItemSet.length_items]
        exact built.2.1
      have small : (s.normal.node p).keyCount ≤ 3 := built.1.2.2.2.2.1
      simp only [child]
      rw [ih (built.2.2 _ isKid) (by omega) (Or.inr ⟨i, rfl, by omega, rfl⟩)]
      rfl

/-- The search of a removal stays in the tree. -/
theorem descendRemove_label {s : IndexFile} {g : Nat → Option (Label Key)} {root height fuel p q : Nat}
    {l : Label Key} {k : Key} (indexed : Indexed s s.nodes g root height) (label : g p = some l)
    (run : (oNode.descendRemove fuel p k).run s = .ok (q, s)) : ∃ l, g q = some l := by
  induction fuel generalizing p l with
  | zero => cases run
  | succ fuel ih =>
    rw [descendRemove, StateT.run_bind, run_read, ok_bind] at run
    split_ifs at run with inner
    · obtain ⟨r, s₁, scanned, run⟩ := run_bind_eq_ok.mp run
      obtain ⟨-, rfl⟩ := deref_eq_ok.mp scanned
      cases r with
      | none =>
        cases run
        exact ⟨l, label⟩
      | some i =>
        rw [StateT.run_bind, run_child, ok_bind] at run
        obtain ⟨c, s₂, isChild, run⟩ := run_bind_eq_ok.mp run
        obtain ⟨isChild, rfl⟩ := deref_eq_ok.mp isChild
        obtain ⟨h, a, b, -, labelC⟩ := indexed.labelled.kid label (ItemSet.mem_kids_of_childOptr isChild)
        exact ih labelC run
    · cases run
      exact ⟨l, label⟩

/-- In a well-formed tree the removal of an absent key finds nothing to remove. -/
theorem OBtree.idle_of_absent {t : OBtree} {h fuel : Nat} {k : Key} (wellFormed : t.WellFormed h)
    (absent : ∀ x ∈ t.pairs h, x.1 ≠ k) {p : Nat}
    (run : (oNode.descendRemove fuel t.rootONode k).run t.file = .ok (p, t.file)) :
    t.Idle fuel (.remove k) := by
  obtain ⟨g, indexed⟩ := wellFormed_iff.mp wellFormed
  obtain ⟨l, label⟩ := descendRemove_label indexed indexed.labelled.top run
  refine ⟨p, run, Or.inl ?_⟩
  by_contra hit
  obtain ⟨i, found⟩ := Option.ne_none_iff_exists'.mp hit
  have below : i < (t.file.node p).keyCount := List.mem_range.mp (List.mem_of_find?_eq_some found)
  have small := (indexed.counts label).2
  have key : (t.file.node p).rawKey i = some k := by simpa using List.find?_some found
  rw [ItemSet.rawKey_eq (by omega) (by omega)] at key
  have held : Held t.file.nodes g ((t.file.node p).keySlot i, (t.file.node p).dataSlot i) :=
    ⟨p, by simp [label], List.mem_map_of_mem (f := fun i => ((t.file.node p).keySlot i,
    (t.file.node p).dataSlot i)) (List.mem_range.mpr below)⟩
  exact absent _ ((mem_pairs indexed _).mpr held) (Option.some.inj key)

namespace MMyISAM

/-- A session of the registry index that has read only. -/
structure Reading (e e₁ : MMyISAM) (r : Int) : Prop where
  normal : e₁.normal = e.normal
  values : e₁.values = e.values
  entryMap : e₁.entryMap = e.entryMap
  session : e₁.safe r.toNat = some ⟨SafeOBtree.migrate e.normal, {}⟩

theorem attach_migrate {e e₁ : MMyISAM} (normal : e₁.normal = e.normal) (values : ValueStore) :
    e₁.attach ⟨SafeOBtree.migrate e.normal, values⟩ = SafeOBtree.migrate e.normal := by
  rw [attach, normal]
  rfl

theorem reading_remove {fuel h : Nat} {e e₁ e₂ : MMyISAM} {r : Int} {k : Key} {flag : Bool}
    (reading : Reading e e₁ r) (safe : 0 ≤ r) (wellFormed : e.normal.WellFormed h)
    (absent : ∀ x ∈ e.normal.pairs h, x.1 ≠ k) (run : e₁.remove fuel r k = .ok (e₂, flag)) :
    Reading e e₂ r := by
  obtain ⟨-, ⟨closed, -⟩ | ⟨m, tree, isOpen, removed, -, rfl⟩⟩ := remove_cases safe run
  · rw [reading.session] at closed
    cases closed
  · rw [reading.session] at isOpen
    cases isOpen
    rw [attach_migrate reading.normal] at removed
    obtain ⟨p, descend⟩ := SafeOBtree.exists_descend removed
    obtain rfl := SafeOBtree.idle_step (OBtree.idle_of_absent wellFormed absent descend) removed
    exact ⟨reading.normal, reading.values, reading.entryMap, by simp⟩

/-- The query is a get of the session, or the removal of a key that is not in the normal tree. -/
def Reads (e : MMyISAM) (h : Nat) (r : Int) (q : Query) : Prop :=
  (∃ k, q = .get r k) ∨ ∃ k, q = .remove r k ∧ ∀ x ∈ e.normal.pairs h, x.1 ≠ k

theorem reading_serve {fuel h : Nat} {e e₁ e₂ : MMyISAM} {r : Int} {qs : List Query}
    {replies : List (Query × Reply)} (reading : Reading e e₁ r) (safe : 0 ≤ r)
    (wellFormed : e.normal.WellFormed h) (reads : ∀ q ∈ qs, e.Reads h r q)
    (run : e₁.serve fuel qs = .ok (e₂, replies)) : Reading e e₂ r := by
  induction qs generalizing e₁ replies with
  | nil =>
    cases run
    exact reading
  | cons q qs ih =>
    obtain ⟨⟨e', reply⟩, first, rest⟩ := bind_eq_ok.mp run
    obtain ⟨⟨e₃, later⟩, served, done⟩ := bind_eq_ok.mp rest
    cases done
    rw [List.forall_mem_cons] at reads
    refine ih ?_ reads.2 served
    obtain ⟨k, rfl⟩ | ⟨k, rfl, absent⟩ := reads.1
    · obtain ⟨v, -, done⟩ := bind_eq_ok.mp first
      cases done
      exact reading
    · obtain ⟨⟨e₄, flag⟩, removed, done⟩ := bind_eq_ok.mp first
      cases done
      exact reading_remove reading safe wellFormed absent removed

/-- The commit of a session that has read only leaves the normal database as it is. -/
theorem reading_commit {fuel h timestamp : Nat} {e e₁ : MMyISAM} {r : Int} (reading : Reading e e₁ r)
    (safe : 0 ≤ r) (inside : r.toNat < 5) (sound : e.Sound h) (enough : h < fuel) :
    e₁.safeCommitExit fuel r timestamp = .ok (e.clearSafeMode, true) := by
  have untouched := SafeOBtree.migrate_untouched e.normal
  have merged : (SafeOBtree.migrate e.normal).file.mergeSafeBtree fuel e.normal.rootONode none =
      .ok (e.normal.rootONode, (SafeOBtree.migrate e.normal).file) :=
    mergeSafeBtree_untouched untouched sound.wellFormed.built enough (Or.inl ⟨rfl, rfl⟩)
  have session : e₁.session r = .ok (some ⟨SafeOBtree.migrate e.normal, {}⟩) := by
    rw [MMyISAM.session, if_pos inside, reading.session]
  have root : e.normal.file.setMetaRoot e.normal.rootONode = e.normal.file := by
    have head := sound.stored
    rw [OBtree.Stored] at head
    rw [IndexFile.setMetaRoot, head, ← head]
  rw [safeCommitExit, if_neg safe.not_gt, session]
  simp only [ok_bind, attach_migrate reading.normal]
  rw [show ({ (SafeOBtree.migrate e.normal).file with
      normal := { (SafeOBtree.migrate e.normal).file.normal with
        head := (SafeOBtree.migrate e.normal).file.headBytes } } : SafeFile) =
      (SafeOBtree.migrate e.normal).file from rfl]
  have noEntries : (SafeOBtree.migrate e.normal).file.mergeDataOptr e₁.entryMap e₁.values {} timestamp =
      (e₁.values, (SafeOBtree.migrate e.normal).file) := by
    rw [SafeFile.mergeDataOptr, show (SafeOBtree.migrate e.normal).file.keys = [] from rfl,
      EntryOrder.order_nil]
    rfl
  rw [noEntries]
  simp only [show (SafeOBtree.migrate e.normal).rootONode = e.normal.rootONode from rfl, merged, ok_bind]
  rw [show (SafeOBtree.migrate e.normal).file.normal = e.normal.file from rfl, root, reading.values,
    reading.entryMap]
  rfl

theorem contents_eq_none {e : MMyISAM} {h : Nat} {k : Key} (absent : ∀ x ∈ e.normal.pairs h, x.1 ≠ k) :
    e.contents h k = none := by
  have missing : ((e.normal.pairs h).find? fun x => x.1 = k) = none := by
    rw [List.find?_eq_none]
    exact fun x member => by simpa using absent x member
  rw [contents, missing, Option.map_none]

/-- A session that has read only sees the normal map. -/
theorem foldl_apply {e : MMyISAM} {h : Nat} {r : Int} {qs : List Query} (reads : ∀ q ∈ qs, e.Reads h r q) :
    qs.foldl Query.apply (e.contents h) = e.contents h := by
  induction qs with
  | nil => rfl
  | cons q qs ih =>
    rw [List.forall_mem_cons] at reads
    have same : Query.apply (e.contents h) q = e.contents h := by
      obtain ⟨k, rfl⟩ | ⟨k, rfl, absent⟩ := reads.1
      · rfl
      · funext x
        simp only [Query.apply]
        split_ifs with hit
        · rw [hit, contents_eq_none absent]
        · rfl
    rw [List.foldl_cons, same, ih reads.2]

/-- An exact search gets the value of the map. -/
theorem get_contents {e : MMyISAM} {h fuel : Nat} {k : Key} (sound : e.Sound h)
    (found : e.normal.FindExact h fuel k) :
    e.get fuel (-1) k = .ok (e.contents h k) := by
  obtain ⟨o, run, found⟩ := found
  have value : o.map e.values.get = e.contents h k := by
    cases o with
    | some d =>
      have member := (found d).mp rfl
      obtain ⟨y, first⟩ : ∃ y, ((e.normal.pairs h).find? fun x => x.1 = k) = some y := by
        rw [← Option.isSome_iff_exists, List.find?_isSome]
        exact ⟨(k, d), member, by simp⟩
      have key : y.1 = k := by simpa using List.find?_some first
      obtain rfl : y = (k, d) := eq_of_key_eq sound.wellFormed.sorted
        (List.mem_of_find?_eq_some first) member key
      rw [contents, first]
      rfl
    | none =>
      refine (contents_eq_none fun x member same => ?_).symm
      have hit : (none : Option Nat) = some x.2 := (found x.2).mpr (by rw [← same]; exact member)
      cases hit
  rw [MMyISAM.get, if_neg (by decide), run, ← value]
  rfl

/-- After the commit of a session that has read only, the normal database is sound and holds the
map the session saw. -/
theorem commit_installs (fuel h timestamp : Nat) (r : Int) (e e₁ : MMyISAM) (qs : List Query)
    (replies : List (Query × Reply)) (sound : e.Sound h) (enough : h < fuel) (reads : ∀ q ∈ qs, e.Reads h r q)
    (run : e.serve fuel (.migrate r :: qs) = .ok (e₁, replies)) :
    ∃ e₂, e₁.safeCommitExit fuel r timestamp = .ok (e₂, true) ∧ e₂.Sound h ∧
      ∀ k, (∀ x, (e.normal.byLevel h).find? (sharesHead k) = some x → (k, x.2) ∈ e.normal.pairs h) →
        e₂.get fuel (-1) k = .ok (qs.foldl Query.apply (e.contents h) k) := by
  obtain ⟨⟨e', reply⟩, first, rest⟩ := bind_eq_ok.mp run
  obtain ⟨⟨e₃, later⟩, served, done⟩ := bind_eq_ok.mp rest
  cases done
  obtain ⟨e₄, opened, done⟩ := bind_eq_ok.mp first
  cases done
  unfold migrateToSafeMode at opened
  split_ifs at opened with inside
  cases opened
  have reading : Reading e e₁ r := by
    refine reading_serve ?_ inside.1 sound.wellFormed reads served
    exact ⟨rfl, rfl, rfl, if_pos rfl⟩
  refine ⟨e.clearSafeMode, reading_commit reading inside.1 inside.2 sound enough,
    ⟨sound.wellFormed, sound.stored, sound.values⟩, fun k first => ?_⟩
  rw [foldl_apply reads]
  exact get_contents (e := e.clearSafeMode) ⟨sound.wellFormed, sound.stored, sound.values⟩
    (OBtree.findExact_of_first sound.wellFormed enough first)

/-- An engine with the value 01 02 under the key 7. -/
def single : MMyISAM where
  normal := ⟨{ head := ⟨formatCode, 100⟩, top := 203,
               node := fun _ => { keyCount := 1, dataOptrCount := 1, keySlot := fun _ => 7 } }, 100⟩
  values := (({} : ValueStore).add [1, 2] 9).2

theorem single_pairs : single.normal.pairs 0 = [(7, 0)] := rfl

theorem single_sound : single.Sound 0 := by
  refine ⟨⟨⟨by simp [IndexFile.NodeOK, single], rfl⟩, ?_⟩, rfl, fun x member => ?_⟩
  · rw [single_pairs]
    exact List.pairwise_singleton _ _
  · rw [single_pairs, List.mem_singleton] at member
    rw [member]
    exact ⟨by decide +kernel, by decide +kernel⟩

theorem commit_installs_single : ∃ e₁ replies e₂, single.serve 1 [.migrate 0, .get 0 7, .remove 0 5] =
    .ok (e₁, replies) ∧
    e₁.safeCommitExit 1 0 9 = .ok (e₂, true) ∧ e₂.Sound 0 ∧
      ∀ k, (∀ x, (single.normal.byLevel 0).find? (sharesHead k) = some x → (k, x.2) ∈ single.normal.pairs 0) →
        e₂.get 1 (-1) k = .ok ([.get 0 7, .remove 0 5].foldl Query.apply (single.contents 0) k) := by
  have run := commit_installs 1 0 9 0 single _ [.get 0 7, .remove 0 5] _ single_sound (by decide) ?_ rfl
  · obtain ⟨e₂, committed, sound, gets⟩ := run
    exact ⟨_, _, e₂, rfl, committed, sound, gets⟩
  · intro q member
    simp only [List.mem_cons, List.not_mem_nil, or_false] at member
    rcases member with rfl | rfl
    · exact Or.inl ⟨7, rfl⟩
    · refine Or.inr ⟨5, rfl, fun x inside => ?_⟩
      rw [single_pairs, List.mem_singleton] at inside
      rw [inside]
      decide

/-- A session adds one key and is committed: its root, copied to address 0, is written over the
format code. -/
theorem commit_installs_fails : ∃ e₁ replies e₂, single.Sound 0 ∧
    single.serve 1 [.migrate 0, .add 0 5 [3] 9] = .ok (e₁, replies) ∧
    e₁.safeCommitExit 1 0 9 = .ok (e₂, true) ∧ e₂.normal.file.head.formatCode ≠ formatCode := by
  refine ⟨_, _, _, single_sound, rfl, rfl, ?_⟩
  decide +kernel

end MMyISAM

end MiyaCore