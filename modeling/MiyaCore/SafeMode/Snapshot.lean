import MiyaCore.SafeMode.Table

/-!
# Reads of a session

A get of a session goes down the tree of the session, and what the pointer it finds there names is read in
the value store of the session. The store keeps every value that was added, so the get is right wherever the
pointer is the one that the latest addition of the key was given.
-/

namespace MiyaCore
open Hoare NodeFile

/-- The query is an addition, a lookup or a removal of this session. No array has 2^63 bytes. -/
def Query.OfSession (r : Int) : Query → Prop
  | .add i _ value _ => i = r ∧ value.length < 2 ^ 63
  | .get i _ => i = r
  | .remove i _ => i = r
  | .migrate _ => False
  | .commit .. => False
  | .abort _ => False

instance (r : Int) : ∀ q : Query, Decidable (q.OfSession r)
  | .add i _ value _ => inferInstanceAs (Decidable (i = r ∧ value.length < 2 ^ 63))
  | .get i _ => inferInstanceAs (Decidable (i = r))
  | .remove i _ => inferInstanceAs (Decidable (i = r))
  | .migrate _ => inferInstanceAs (Decidable False)
  | .commit .. => inferInstanceAs (Decidable False)
  | .abort _ => inferInstanceAs (Decidable False)

namespace SafeFile
variable {s : SafeFile} {k : Key} {goal : Nat → Nat → Prop}

/-- The search for a key comes from the node `p` to a key with the same first five bytes, and where this one
stands is a goal. -/
def Leads (s : SafeFile) (k : Key) (goal : Nat → Nat → Prop) : Nat → Nat → Prop
  | 0, _ => False
  | fuel + 1, p =>
    match scanFind (s.citemSet p) k (List.range (s.citemSet p).keyCount) with
    | .inl i => goal p i
    | .inr i => ∃ c ∈ (s.citemSet p).childOptr (i % 2 ^ 16), s.Leads k goal fuel c

instance Leads.decidable [∀ p i, Decidable (goal p i)] : ∀ fuel p, Decidable (s.Leads k goal fuel p)
  | 0, _ => inferInstanceAs (Decidable False)
  | fuel + 1, p => by
    have below := Leads.decidable fuel
    unfold Leads
    cases scanFind (s.citemSet p) k (List.range (s.citemSet p).keyCount) <;> infer_instance

/-- The search writes nothing. -/
theorem keeps_subtreeHit {I : SafeFile → Prop} (fuel p : Nat) (k : Key) : Keeps I (safeONode.subtreeHit fuel p k) := by
  induction fuel generalizing p with
  | zero => exact keeps_throw _
  | succ fuel ih =>
    refine keeps_bind (keeps_read p) fun it => ?_
    split
    · exact keeps_pure _
    · refine keeps_bind (keeps_child _ _) fun o => ?_
      split
      · exact keeps_pure _
      · exact ih _

theorem leads_iff {fuel p : Nat} : s.Leads k goal fuel p ↔
    ∃ q i, (safeONode.subtreeHit fuel p k).run s = .ok (some (q, i), s) ∧ goal q i := by
  induction fuel generalizing p with
  | zero => exact iff_of_false id fun ⟨q, i, run, _⟩ => by cases run
  | succ fuel ih =>
    rw [Leads, subtreeHit, StateT.run_bind, safeONode.reads_read, ok_bind]
    simp only [show ∀ p, safeONode.citemSet s p = s.citemSet p from fun _ => rfl]
    cases scanFind (s.citemSet p) k (List.range (s.citemSet p).keyCount) with
    | inl i =>
      constructor
      · exact fun met => ⟨p, i, rfl, met⟩
      · rintro ⟨q, j, run, met⟩
        cases run
        exact met
    | inr i =>
      dsimp only
      rw [StateT.run_bind, safeONode.reads_child, ok_bind]
      simp only [show ∀ p, safeONode.citemSet s p = s.citemSet p from fun _ => rfl]
      cases (s.citemSet p).childOptr (i % 2 ^ 16) with
      | none =>
        refine iff_of_false (by simp) ?_
        rintro ⟨q, j, run, -⟩
        cases run
      | some c => simpa using ih

end SafeFile

namespace MMyISAM

/-- In a session every get returns what the map of the session holds at that point. -/
def SnapshotReads (fuel : Nat) (e : MMyISAM) (h : Nat) (r : Int) (qs : List Query) : Prop :=
  ∀ before k, before ++ [.get r k] <+: qs →
    e.getAfter fuel (.migrate r :: before) r k = .ok (before.foldl Query.apply (e.contents h) k)

/-- The pointer of the entry that a get meets in the session is this one. -/
def PointsTo (fuel : Nat) (e : MMyISAM) (m : SafeMode) (k : Key) (d : Nat) : Prop :=
  (e.attach m).file.Leads k (fun q i => ((e.attach m).file.dataOptr q i).map Prod.fst = some d) fuel m.tree.rootONode

instance (fuel : Nat) (e : MMyISAM) (m : SafeMode) (k : Key) (d : Nat) : Decidable (e.PointsTo fuel m k d) :=
  inferInstanceAs (Decidable (SafeFile.Leads ..))

/-- The pointers that the latest additions of the keys were given, after one more query of the session. -/
def given (e : MMyISAM) (pointer : Key → Option Nat) : Query → Key → Option Nat
  | .add r k _ _ => fun x => if x = k then (e.safe r.toNat).map fun m => m.values.top else pointer x
  | .remove _ k => fun x => if x = k then none else pointer x
  | _ => pointer

/-- A get is of a key that was added in the session and not removed since, and it meets the entry of the
latest addition, in files that end where the arithmetic of addresses does. Any other query comes back. -/
def MeetsOwn (fuel : Nat) (e : MMyISAM) (pointer : Key → Option Nat) : Query → Prop
  | .get r k => ∃ m ∈ e.safe r.toNat, (e.normal.file.Reached ∧ m.Near) ∧ ∃ d ∈ pointer k, e.PointsTo fuel m k d
  | q => (e.handle fuel q).isOk

instance (fuel : Nat) (e : MMyISAM) (pointer : Key → Option Nat) : ∀ q, Decidable (e.MeetsOwn fuel pointer q)
  | .get r k => inferInstanceAs (Decidable (∃ m ∈ e.safe r.toNat, (e.normal.file.Reached ∧ m.Near) ∧
    ∃ d ∈ pointer k, e.PointsTo fuel m k d))
  | .add r k value timestamp => inferInstanceAs (Decidable ((e.handle fuel (.add r k value timestamp)).isOk = true))
  | .remove r k => inferInstanceAs (Decidable ((e.handle fuel (.remove r k)).isOk = true))
  | .migrate r => inferInstanceAs (Decidable ((e.handle fuel (.migrate r)).isOk = true))
  | .commit r timestamp => inferInstanceAs (Decidable ((e.handle fuel (.commit r timestamp)).isOk = true))
  | .abort r => inferInstanceAs (Decidable ((e.handle fuel (.abort r)).isOk = true))

/-- Each query meets the condition in the state it is handled in. -/
def OwnEntries (fuel : Nat) : MMyISAM → (Key → Option Nat) → List Query → Prop
  | _, _, [] => True
  | e, pointer, q :: qs => e.MeetsOwn fuel pointer q ∧
      ∀ after ∈ (e.handle fuel q).toOption, OwnEntries fuel after.1 (e.given pointer q) qs

instance OwnEntries.decidable (fuel : Nat) : ∀ e pointer qs, Decidable (OwnEntries fuel e pointer qs)
  | _, _, [] => inferInstanceAs (Decidable True)
  | e, pointer, q :: qs => by
    have rest := fun e' => OwnEntries.decidable fuel e' (e.given pointer q) qs
    unfold OwnEntries
    infer_instance

/-- The session is open, and its store has the values that the map holds, behind the pointers given for them. -/
def Holds (e : MMyISAM) (r : Int) (pointer : Key → Option Nat) (contents : Key → Option (List UInt8)) : Prop :=
  ∃ m, e.safe r.toNat = some m ∧ ∀ k, ∀ d ∈ pointer k, m.values.Stores d ∧ contents k = some (m.values.get d)

section Session
variable {fuel : Nat} {e e' : MMyISAM} {r : Int} {k : Key} {q : Query} {qs : List Query} {reply : Reply}
  {pointer : Key → Option Nat} {contents : Key → Option (List UInt8)}

theorem Holds.step (holds : e.Holds r pointer contents) (safe : 0 ≤ r) (session : q.OfSession r)
    (run : e.handle fuel q = .ok (e', reply)) : e'.Holds r (e.given pointer q) (Query.apply contents q) := by
  obtain ⟨m, opened, stored⟩ := holds
  cases q with
  | add i k value timestamp =>
    obtain ⟨rfl, small⟩ := session
    obtain ⟨⟨e₁, flag⟩, added, done⟩ := bind_eq_ok.mp run
    cases done
    obtain ⟨-, ⟨closed, -⟩ | ⟨m', tree, isOpen, -, -, rfl⟩⟩ := add_cases safe added
    · exact absurd (opened.symm.trans closed) nofun
    obtain rfl : m = m' := Option.some.inj (opened.symm.trans isOpen)
    refine ⟨_, if_pos rfl, fun x d member => ?_⟩
    simp only [given, Query.apply, opened, Option.map_some] at member ⊢
    split_ifs at member ⊢ with same
    · obtain rfl : m.values.top = d := Option.some.inj member
      have fresh : (m.values.add value timestamp).2.Stores m.values.top ∧
          (m.values.add value timestamp).2.get m.values.top = value := ValueStore.stores_add (by omega)
      exact ⟨fresh.1, congrArg some fresh.2.symm⟩
    · obtain ⟨stores, holds⟩ := stored x d member
      have kept : (m.values.add value timestamp).2.Stores d ∧
          (m.values.add value timestamp).2.get d = m.values.get d := stores.add
      exact ⟨kept.1, holds.trans (congrArg some kept.2.symm)⟩
  | remove i k =>
    obtain rfl := session
    obtain ⟨⟨e₁, flag⟩, removed, done⟩ := bind_eq_ok.mp run
    cases done
    obtain ⟨-, ⟨closed, -⟩ | ⟨m', tree, isOpen, -, -, rfl⟩⟩ := remove_cases safe removed
    · exact absurd (opened.symm.trans closed) nofun
    obtain rfl : m = m' := Option.some.inj (opened.symm.trans isOpen)
    refine ⟨_, if_pos rfl, fun x d member => ?_⟩
    simp only [given, Query.apply] at member ⊢
    split_ifs at member ⊢ with same
    · cases member
    · exact stored x d member
  | get i k =>
    obtain ⟨v, -, done⟩ := bind_eq_ok.mp run
    cases done
    exact ⟨m, opened, stored⟩
  | migrate i => exact session.elim
  | commit i timestamp => exact session.elim
  | abort i => exact session.elim

theorem get_of_pointsTo {m : SafeMode} {d : Nat} (safe : 0 ≤ r) (inside : r.toNat < 5)
    (opened : e.safe r.toNat = some m) (points : e.PointsTo fuel m k d) :
    e.get fuel r k = .ok (some (m.values.get d)) := by
  obtain ⟨q, i, hit, pointer⟩ := SafeFile.leads_iff.mp points
  obtain ⟨⟨p, location⟩, found, rfl⟩ := Option.map_eq_some_iff.mp pointer
  have search : (safeFind fuel m.tree.rootONode k).run (e.attach m).file =
      .ok (some (p, location), (e.attach m).file) := by
    rw [safeFind, StateT.run_bind, hit, ok_bind]
    change Except.ok (SafeFile.dataOptr (e.attach m).file q i, (e.attach m).file) = _
    rw [found]
  rw [get, if_pos safe, session, if_pos inside, opened, ok_bind]
  simp only [search, ok_bind]
  rfl

/-- A get that comes back has met a key. -/
theorem leads_of_get {m : SafeMode} {o : Option (List UInt8)} (safe : 0 ≤ r) (opened : e.safe r.toNat = some m)
    (run : e.get fuel r k = .ok o) :
    (e.attach m).file.Leads k (fun _ _ => True) fuel m.tree.rootONode := by
  rw [get, if_pos safe, bind_eq_ok] at run
  obtain ⟨o', isOpen, run⟩ := run
  obtain ⟨-, rfl⟩ := session_eq_ok isOpen
  rw [opened] at run
  obtain ⟨⟨found, s⟩, search, -⟩ := bind_eq_ok.mp run
  obtain ⟨hit, s₁, searched, rest⟩ := run_bind_eq_ok.mp search
  obtain ⟨⟨q, i⟩, s₂, isHit, -⟩ := run_bind_eq_ok.mp rest
  obtain ⟨rfl, rfl⟩ := deref_eq_ok.mp isHit
  obtain rfl := SafeFile.keeps_subtreeHit (I := (· = (e.attach m).file)) _ _ _ _ rfl _ _ searched
  exact SafeFile.leads_iff.mpr ⟨q, i, searched, trivial⟩

/-- A get that meets the entry of the latest addition returns the value of the map. -/
theorem Holds.get (holds : e.Holds r pointer contents) (safe : 0 ≤ r) (inside : r.toNat < 5)
    (own : e.MeetsOwn fuel pointer (.get r k)) : e.get fuel r k = .ok (contents k) := by
  obtain ⟨m, opened, stored⟩ := holds
  obtain ⟨m', isOpen, -, d, isGiven, points⟩ := own
  obtain rfl : m = m' := Option.some.inj (opened.symm.trans isOpen)
  rw [get_of_pointsTo safe inside opened points, (stored k d isGiven).2]

theorem exists_of_isOk {ε α : Type} {x : Except ε α} (ok : x.isOk) : ∃ a, x = .ok a := by
  cases x with
  | error err => cases ok
  | ok a => exact ⟨a, rfl⟩

theorem Holds.returns (holds : e.Holds r pointer contents) (safe : 0 ≤ r) (inside : r.toNat < 5)
    (session : q.OfSession r) (own : e.MeetsOwn fuel pointer q) : ∃ after, e.handle fuel q = .ok after := by
  cases q with
  | get i k =>
    obtain rfl : i = r := session
    exact ⟨(e, .value (contents k)), by rw [handle, holds.get safe inside own]; rfl⟩
  | add i k value timestamp => exact exists_of_isOk own
  | remove i k => exact exists_of_isOk own
  | migrate i => exact exists_of_isOk own
  | commit i timestamp => exact exists_of_isOk own
  | abort i => exact exists_of_isOk own

/-- The gets of a run, one after the other. -/
theorem Holds.getAfter (holds : e.Holds r pointer contents) (safe : 0 ≤ r) (inside : r.toNat < 5)
    (session : ∀ q ∈ qs, q.OfSession r) (own : OwnEntries fuel e pointer qs) {before : List Query}
    (part : before ++ [.get r k] <+: qs) :
    e.getAfter fuel before r k = .ok (before.foldl Query.apply contents k) := by
  induction before generalizing e pointer contents qs with
  | nil =>
    obtain ⟨rest, rfl⟩ := part
    exact holds.get safe inside own.1
  | cons q before ih =>
    obtain ⟨rest, rfl⟩ := part
    have ofSession : q.OfSession r := session q (List.mem_cons_self ..)
    obtain ⟨⟨e', reply⟩, first⟩ := holds.returns safe inside ofSession own.1
    rw [getAfter_cons first]
    exact ih (holds.step safe ofSession first) (fun q' member => session q' (List.mem_cons_of_mem _ member))
      (own.2 (e', reply) (by rw [first]; rfl)) ⟨rest, rfl⟩

/-- The session stays open. -/
theorem Holds.serve (holds : e.Holds r pointer contents) (safe : 0 ≤ r) (session : ∀ q ∈ qs, q.OfSession r)
    {replies : List (Query × Reply)} (run : e.serve fuel qs = .ok (e', replies)) :
    ∃ m, e'.safe r.toNat = some m := by
  induction qs generalizing e pointer contents replies with
  | nil =>
    cases run
    exact holds.imp fun m opened => opened.1
  | cons q qs ih =>
    obtain ⟨⟨e₁, reply⟩, first, rest⟩ := bind_eq_ok.mp run
    obtain ⟨⟨e₂, later⟩, served, done⟩ := bind_eq_ok.mp rest
    cases done
    rw [List.forall_mem_cons] at session
    exact ih (holds.step safe session.1 first) session.2 served

end Session

/-- A new session holds the map of the normal database, and no addition has been given a pointer yet. -/
theorem holds_migrate {e e₁ : MMyISAM} {r : Int} (contents : Key → Option (List UInt8))
    (opened : e.migrateToSafeMode r = .ok e₁) :
    0 ≤ r ∧ r.toNat < 5 ∧ e₁.Holds r (fun _ => none) contents := by
  unfold migrateToSafeMode at opened
  split_ifs at opened with inside
  cases opened
  exact ⟨inside.1, inside.2, _, if_pos rfl, fun k d member => absurd member (Option.not_mem_none d)⟩

/-- A session whose gets all meet the entries of its own latest additions reads what its map holds; and in one
that reads so, no search has missed. -/
theorem snapshotReads_of_ownEntries (fuel h : Nat) (r : Int) (e e₁ : MMyISAM) (qs : List Query)
    (opened : e.migrateToSafeMode r = .ok e₁) (session : ∀ q ∈ qs, q.OfSession r) :
    (OwnEntries fuel e₁ (fun _ => none) qs → e.SnapshotReads fuel h r qs) ∧
      (e.SnapshotReads fuel h r qs → ∀ before k e₂ replies, before ++ [.get r k] <+: qs →
        e₁.serve fuel before = .ok (e₂, replies) → ∃ m, e₂.safe r.toNat = some m ∧
          (e₂.attach m).file.Leads k (fun _ _ => True) fuel m.tree.rootONode) := by
  obtain ⟨safe, inside, holds⟩ := holds_migrate (e.contents h) opened
  have first : e.handle fuel (.migrate r) = .ok (e₁, .status true) := by
    rw [handle, opened]
    rfl
  refine ⟨fun own before k part => ?_, fun reads before k e₂ replies part run => ?_⟩
  · rw [getAfter_cons first]
    exact holds.getAfter safe inside session own part
  · obtain ⟨m, isOpen⟩ := holds.serve safe (fun q member => session q (part.subset (List.mem_append_left _ member))) run
    refine ⟨m, isOpen, ?_⟩
    have read := reads before k part
    rw [getAfter_cons first, getAfter, run, ok_bind] at read
    exact leads_of_get safe isOpen read

/-- Keys with different first bytes. -/
def keyAt (n : Nat) : Key := Fin.ofNat _ (n * 2 ^ 125)

/-- Additions that split the root, lookups between them, and a key that is removed and added again. -/
def sessionQueries : List Query :=
  [.add 0 (keyAt 1) [3] 9, .get 0 (keyAt 1), .add 0 (keyAt 2) [4, 4] 9, .add 0 (keyAt 3) [5] 9, .get 0 (keyAt 2),
    .remove 0 (keyAt 3), .add 0 (keyAt 3) [6, 6, 6] 9, .get 0 (keyAt 3), .get 0 (keyAt 1)]

theorem snapshotReads_of_ownEntries_split : single.SnapshotReads 3 0 0 sessionQueries :=
  (snapshotReads_of_ownEntries 3 0 0 single _ sessionQueries rfl (by decide)).1 (by decide +kernel)

/-- In a new session over the value 01 02 under the key 7, the key 7 gives an empty value and an absent
key a null pointer. -/
theorem snapshotReads_fails :
    single.contents 0 7 = some [1, 2] ∧ single.getAfter 1 [.migrate 0] 0 7 = .ok (some []) ∧
    single.contents 0 (keyAt 2) = none ∧ single.getAfter 1 [.migrate 0] 0 (keyAt 2) = .error .nullPointer ∧
    ¬ single.SnapshotReads 1 0 0 [.get 0 7] ∧ ¬ single.SnapshotReads 1 0 0 [.get 0 (keyAt 2)] := by
  refine ⟨by decide +kernel, by decide +kernel, by decide +kernel, by decide +kernel, fun reads => ?_,
    fun reads => ?_⟩
  · have answer := reads [] 7 List.prefix_rfl
    revert answer
    decide +kernel
  · have answer := reads [] (keyAt 2) List.prefix_rfl
    revert answer
    decide +kernel

end MMyISAM

end MiyaCore
