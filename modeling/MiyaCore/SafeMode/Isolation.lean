import MiyaCore.SafeMode.Addresses
import MiyaCore.SafeMode.MMyISAM

/-!
# What sessions leave alone

A session writes to its own files only. The engine's table of sessions is shared: an abort clears
all of it.
-/

namespace MiyaCore
open Hoare NodeFile

/-- The queries of the engine. A negative registry index means the normal mode. -/
inductive Query
  | add (registryIndex : Int) (k : Key) (value : List UInt8) (timestamp : Nat)
  | get (registryIndex : Int) (k : Key)
  | remove (registryIndex : Int) (k : Key)
  | migrate (registryIndex : Int)
  | commit (registryIndex : Int) (timestamp : Nat)
  | abort (registryIndex : Int)
deriving DecidableEq

namespace Query

def registryIndex : Query → Int
  | add r _ _ _ => r
  | get r _ => r
  | remove r _ => r
  | migrate r => r
  | commit r _ => r
  | abort r => r

/-- No write in the normal mode and no commit. -/
def Uncommitting : Query → Prop
  | add r _ _ _ => 0 ≤ r
  | get _ _ => True
  | remove r _ => 0 ≤ r
  | migrate _ => True
  | commit _ _ => False
  | abort _ => True

instance (q : Query) : Decidable q.Uncommitting := by
  cases q <;> unfold Uncommitting <;> infer_instance

end Query

inductive Reply
  | status (flag : Bool)
  | value (value : Option (List UInt8))
deriving DecidableEq

namespace MMyISAM

/-- The dispatch of one query. `migrateToSafeMode` has no `return`; here it comes back, and the flag nothing
sets is read as true. In `Database.dispatch` the thread of the server ends with it. -/
def handle (fuel : Nat) (e : MMyISAM) : Query → Except NodeError (MMyISAM × Reply)
  | .add r k value timestamp => do
    let (e, flag) ← e.add fuel r k value timestamp
    return (e, .status flag)
  | .get r k => return (e, .value (← e.get fuel r k))
  | .remove r k => do
    let (e, flag) ← e.remove fuel r k
    return (e, .status flag)
  | .migrate r => return (← e.migrateToSafeMode r, .status true)
  | .commit r timestamp => do
    let (e, flag) ← e.safeCommitExit fuel r timestamp
    return (e, .status flag)
  | .abort r =>
    let (e, flag) := e.safeAbortExit r
    return (e, .status flag)

/-- Queries one after the other, with their replies; an error ends the process. -/
def serve (fuel : Nat) (e : MMyISAM) : List Query → Except NodeError (MMyISAM × List (Query × Reply))
  | [] => return (e, [])
  | q :: qs => do
    let (e, reply) ← e.handle fuel q
    let (e, replies) ← serve fuel e qs
    return (e, (q, reply) :: replies)

/-- The queries that are answered before the process ends, if it does. -/
def answers (fuel : Nat) (e : MMyISAM) : List Query → MMyISAM × List (Query × Reply)
  | [] => (e, [])
  | q :: qs =>
    match e.handle fuel q with
    | .ok (e', reply) => ((answers fuel e' qs).1, (q, reply) :: (answers fuel e' qs).2)
    | .error _ => (e, [])

theorem answers_cons {fuel : Nat} {e e' : MMyISAM} {q : Query} {reply : Reply}
    (first : e.handle fuel q = .ok (e', reply)) (qs : List Query) :
    e.answers fuel (q :: qs) = ((e'.answers fuel qs).1, (q, reply) :: (e'.answers fuel qs).2) := by
  rw [answers, first]

theorem answers_error {fuel : Nat} {e : MMyISAM} {q : Query} {error : NodeError}
    (first : e.handle fuel q = .error error) (qs : List Query) : e.answers fuel (q :: qs) = (e, []) := by
  rw [answers, first]

end MMyISAM

/-- The normal index is not written by a session. -/
theorem stable_normal (n : IndexFile) : safeONode.Stable fun s => s.normal = n := by
  have regist : ∀ (s : SafeFile) key value, (s.regist key value).normal = s.normal := by
    intro s key value
    unfold SafeFile.regist
    split_ifs <;> rfl
  have itemSet : ∀ (s : SafeFile) p, (s.itemSet p).normal = s.normal := by
    intro s p
    unfold SafeFile.itemSet
    split_ifs
    · rfl
    · rw [regist, regist]
      rfl
  have setLocation : ∀ (s : SafeFile) p i l, (s.setLocation p i l).normal = s.normal := by
    intro s p i l
    unfold SafeFile.setLocation
    split <;> rfl
  refine ⟨fun s p f same => ?_, fun s p i d same => ?_, fun s same => ?_⟩
  · exact (itemSet s p).trans same
  · exact (setLocation _ _ _ _).trans ((itemSet s p).trans same)
  · exact (regist _ _ _).trans same

theorem SafeOBtree.step_normal {fuel : Nat} {t t' : SafeOBtree} {op : OBtree.Op}
    (run : t.step fuel op = .ok t') :
    t'.file.normal = t.file.normal := by
  have stable := stable_normal t.file.normal
  have metaRoot : ∀ s p, s.normal = t.file.normal →
    (safeONode.setMetaRoot s p).normal = t.file.normal := fun _ _ => id
  refine step_post (Q := fun _ s => s.normal = t.file.normal) (fun k d _ => ?_) (fun k _ => ?_) run
  · exact Post.pre (stable.add metaRoot fuel t.rootONode k (d, .safe)) fun s same => same ▸ rfl
  · exact Post.pre (stable.removeKey fuel t.rootONode k) fun s same => same ▸ rfl

namespace MMyISAM

theorem session_eq_ok {e : MMyISAM} {r : Int} {o : Option SafeMode} (run : e.session r = .ok o) :
    r.toNat < 5 ∧ e.safe r.toNat = o := by
  unfold session at run
  split_ifs at run with inside
  cases run
  exact ⟨inside, rfl⟩

/-- A session's step returns to the engine with the normal index as it was. -/
theorem detach_step {fuel : Nat} {e : MMyISAM} {m : SafeMode} {op : OBtree.Op} {tree : SafeOBtree}
    (r : Int) (values : ValueStore) (run : (e.attach m).step fuel op = .ok tree) :
    e.detach r tree values = { e with safe := fun i => if i = r.toNat then some ⟨tree, values⟩ else e.safe i } := by
  have same : tree.file.normal = e.normal.file := SafeOBtree.step_normal run
  simp only [detach, same]

/-- What an addition to a session does. -/
theorem add_cases {fuel : Nat} {e e' : MMyISAM} {r : Int} {k : Key} {value : List UInt8}
    {timestamp : Nat} {flag : Bool} (safe : 0 ≤ r) (run : e.add fuel r k value timestamp = .ok (e', flag)) :
    r.toNat < 5 ∧ ((e.safe r.toNat = none ∧ e' = e ∧ flag = false) ∨
      ∃ m tree, e.safe r.toNat = some m ∧ (e.attach m).add fuel k (m.values.add value timestamp).1 =
      .ok tree ∧ flag = true ∧
        e' = { e with safe := fun i =>
          if i = r.toNat then some ⟨tree, (m.values.add value timestamp).2⟩ else e.safe i }) := by
  unfold MMyISAM.add at run
  rw [if_pos safe, bind_eq_ok] at run
  obtain ⟨o, found, run⟩ := run
  obtain ⟨inside, atIndex⟩ := session_eq_ok found
  refine ⟨inside, ?_⟩
  cases o with
  | none =>
    cases run
    exact Or.inl ⟨atIndex, rfl, rfl⟩
  | some m =>
    obtain ⟨tree, added, run⟩ := bind_eq_ok.mp run
    cases run
    have step : (e.attach m).step fuel (.add k (m.values.add value timestamp).1) = .ok tree := added
    exact Or.inr ⟨m, tree, atIndex, added, rfl, detach_step r _ step⟩

theorem remove_cases {fuel : Nat} {e e' : MMyISAM} {r : Int} {k : Key} {flag : Bool} (safe : 0 ≤ r)
    (run : e.remove fuel r k = .ok (e', flag)) :
    r.toNat < 5 ∧ ((e.safe r.toNat = none ∧ e' = e ∧ flag = false) ∨
      ∃ m tree, e.safe r.toNat = some m ∧ (e.attach m).remove fuel k = .ok tree ∧ flag = true ∧
        e' = { e with safe := fun i =>
          if i = r.toNat then some ⟨tree, m.values⟩ else e.safe i }) := by
  unfold MMyISAM.remove at run
  rw [if_pos safe, bind_eq_ok] at run
  obtain ⟨o, found, run⟩ := run
  obtain ⟨inside, atIndex⟩ := session_eq_ok found
  refine ⟨inside, ?_⟩
  cases o with
  | none =>
    cases run
    exact Or.inl ⟨atIndex, rfl, rfl⟩
  | some m =>
    obtain ⟨tree, removed, run⟩ := bind_eq_ok.mp run
    cases run
    have step : (e.attach m).step fuel (.remove k) = .ok tree := removed
    exact Or.inr ⟨m, tree, atIndex, removed, rfl, detach_step r _ step⟩

/-- A query without normal write and commit changes the table of sessions only: at its own index,
or, by an abort, everywhere. -/
theorem handle_cases {fuel : Nat} {e e' : MMyISAM} {q : Query} {reply : Reply} (allowed : q.Uncommitting)
    (run : e.handle fuel q = .ok (e', reply)) :
    (∃ r, q = .abort r ∧ 0 ≤ r ∧ e' = e.clearSafeMode) ∨
      ∃ safe, e' = { e with safe := safe } ∧ ∀ i : Nat, (i : Int) ≠ q.registryIndex → safe i = e.safe i := by
  have outside : ∀ {r : Int} {i : Nat}, 0 ≤ r → (i : Int) ≠ r → i ≠ r.toNat := by
    intro r i safe apart same
    omega
  cases q with
  | add r k value timestamp =>
    obtain ⟨⟨e₁, flag⟩, added, run⟩ := bind_eq_ok.mp run
    cases run
    obtain ⟨-, ⟨-, rfl, -⟩ | ⟨m, tree, -, -, -, rfl⟩⟩ := add_cases allowed added
    · exact Or.inr ⟨e'.safe, rfl, fun _ _ => rfl⟩
    · exact Or.inr ⟨_, rfl, fun i apart => if_neg (outside allowed apart)⟩
  | get r k =>
    obtain ⟨v, -, run⟩ := bind_eq_ok.mp run
    cases run
    exact Or.inr ⟨e.safe, rfl, fun _ _ => rfl⟩
  | remove r k =>
    obtain ⟨⟨e₁, flag⟩, removed, run⟩ := bind_eq_ok.mp run
    cases run
    obtain ⟨-, ⟨-, rfl, -⟩ | ⟨m, tree, -, -, -, rfl⟩⟩ := remove_cases allowed removed
    · exact Or.inr ⟨e'.safe, rfl, fun _ _ => rfl⟩
    · exact Or.inr ⟨_, rfl, fun i apart => if_neg (outside allowed apart)⟩
  | migrate r =>
    obtain ⟨e₁, opened, run⟩ := bind_eq_ok.mp run
    cases run
    unfold migrateToSafeMode at opened
    split_ifs at opened with inside
    cases opened
    exact Or.inr ⟨_, rfl, fun i apart => if_neg (outside inside.1 apart)⟩
  | commit r timestamp => exact allowed.elim
  | abort r =>
    simp only [handle, safeAbortExit] at run
    split_ifs at run with negative
    · cases run
      exact Or.inr ⟨e.safe, rfl, fun _ _ => rfl⟩
    · cases run
      exact Or.inl ⟨r, rfl, by omega, rfl⟩

theorem handle_normal {fuel : Nat} {e e' : MMyISAM} {q : Query} {reply : Reply} (allowed : q.Uncommitting)
    (run : e.handle fuel q = .ok (e', reply)) : e'.normal = e.normal ∧ e'.values = e.values := by
  obtain ⟨r, -, -, rfl⟩ | ⟨safe, rfl, -⟩ := handle_cases allowed run
  · exact ⟨rfl, rfl⟩
  · exact ⟨rfl, rfl⟩

/-- A normal get reads the normal index and the normal values only. -/
theorem get_normal {e e' : MMyISAM} (normal : e'.normal = e.normal) (values : e'.values = e.values)
    {fuel : Nat} {r : Int} {k : Key} (negative : r < 0) : e'.get fuel r k = e.get fuel r k := by
  unfold MMyISAM.get
  rw [if_neg (by omega), if_neg (by omega), normal, values]

/-- What a get returns after queries; an error if one of them does not come back. -/
def getAfter (fuel : Nat) (e : MMyISAM) (qs : List Query) (r : Int) (k : Key) :
    Except NodeError (Option (List UInt8)) := do
  (← e.serve fuel qs).1.get fuel r k

/-- Every query of a session comes back, in the state it is handled in. -/
def SessionsReturn (fuel : Nat) : MMyISAM → List Query → Prop
  | _, [] => True
  | e, q :: qs => (0 ≤ q.registryIndex → ∃ after, e.handle fuel q = .ok after) ∧
      ∀ e' reply, e.handle fuel q = .ok (e', reply) → SessionsReturn fuel e' qs

theorem getAfter_cons {fuel : Nat} {e e' : MMyISAM} {q : Query} {reply : Reply}
    (first : e.handle fuel q = .ok (e', reply)) (qs : List Query) (r : Int) (k : Key) :
    e.getAfter fuel (q :: qs) r k = e'.getAfter fuel qs r k := by
  simp only [getAfter, serve, first, ok_bind]
  cases e'.serve fuel qs <;> rfl

theorem getAfter_error {fuel : Nat} {e : MMyISAM} {q : Query} {error : NodeError}
    (first : e.handle fuel q = .error error) (qs : List Query) (r : Int) (k : Key) :
    e.getAfter fuel (q :: qs) r k = .error error := by
  simp only [getAfter, serve, first]
  rfl

/-- A normal query that is allowed here leaves the engine as it is. -/
theorem handle_negative {fuel : Nat} {e e' : MMyISAM} {q : Query} {reply : Reply} (allowed : q.Uncommitting)
    (negative : q.registryIndex < 0) (run : e.handle fuel q = .ok (e', reply)) : e' = e := by
  obtain ⟨r, rfl, safe, -⟩ | ⟨safe, rfl, same⟩ := handle_cases allowed run
  · exact absurd safe (not_le.mpr negative)
  · have every : safe = e.safe := funext fun i => same i (by omega)
    rw [every]

/-- Engines with the same normal files answer the normal queries alike. -/
theorem handle_reply_congr {e e' : MMyISAM} (normal : e'.normal = e.normal) (values : e'.values = e.values)
    {q : Query} (allowed : q.Uncommitting) (negative : q.registryIndex < 0) (fuel : Nat) :
    (e'.handle fuel q).map Prod.snd = (e.handle fuel q).map Prod.snd := by
  cases q with
  | add r k value timestamp => exact absurd allowed (not_le.mpr negative)
  | get r k =>
    have closed : r < 0 := negative
    simp only [handle, get_normal normal values closed]
    cases e.get fuel r k <;> rfl
  | remove r k => exact absurd allowed (not_le.mpr negative)
  | migrate r =>
    have outside : ¬ (0 ≤ r ∧ r.toNat < 5) := fun inside => not_le.mpr negative inside.1
    simp only [handle, migrateToSafeMode, if_neg outside]
  | commit r timestamp => exact allowed.elim
  | abort r =>
    have closed : r < 0 := negative
    simp only [handle, safeAbortExit, if_pos closed]
    rfl

/-- The same reply, or the same error. -/
theorem handle_negative_cases {e e' : MMyISAM} (normal : e'.normal = e.normal) (values : e'.values = e.values)
    {q : Query} (allowed : q.Uncommitting) (negative : q.registryIndex < 0) (fuel : Nat) :
    (∃ error, e.handle fuel q = .error error ∧ e'.handle fuel q = .error error) ∨
      ∃ reply, e.handle fuel q = .ok (e, reply) ∧ e'.handle fuel q = .ok (e', reply) := by
  have same := handle_reply_congr normal values allowed negative fuel
  cases first : e.handle fuel q with
  | error x =>
    cases second : e'.handle fuel q with
    | error y =>
      rw [first, second] at same
      cases same
      exact Or.inl ⟨x, rfl, rfl⟩
    | ok after =>
      rw [first, second] at same
      cases same
  | ok after =>
    cases second : e'.handle fuel q with
    | error y =>
      rw [first, second] at same
      cases same
    | ok after' =>
      obtain ⟨e₁, reply⟩ := after
      obtain ⟨e₂, reply'⟩ := after'
      obtain rfl := handle_negative allowed negative first
      obtain rfl := handle_negative allowed negative second
      rw [first, second] at same
      cases same
      exact Or.inr ⟨reply, rfl, rfl⟩

theorem SessionsReturn.getAfter {fuel : Nat} {e e' : MMyISAM} {qs : List Query} {r : Int} (k : Key)
    (normal : e'.normal = e.normal) (values : e'.values = e.values) (uncommitted : ∀ q ∈ qs, q.Uncommitting)
    (returns : SessionsReturn fuel e' qs) (negative : r < 0) :
    e'.getAfter fuel qs r k = e.getAfter fuel (qs.filter fun q => q.registryIndex < 0) r k := by
  induction qs generalizing e' with
  | nil => exact get_normal normal values negative
  | cons q qs ih =>
    rw [List.forall_mem_cons] at uncommitted
    by_cases outside : q.registryIndex < 0
    · rw [List.filter_cons_of_pos (by simpa using outside)]
      obtain ⟨error, first, second⟩ | ⟨reply, first, second⟩ :=
        handle_negative_cases normal values uncommitted.1 outside fuel
      · rw [getAfter_error first, getAfter_error second]
      · rw [getAfter_cons first, getAfter_cons second]
        exact ih normal values uncommitted.2 (returns.2 e' reply second)
    · obtain ⟨⟨e₁, reply⟩, first⟩ := returns.1 (not_lt.mp outside)
      obtain ⟨normal', values'⟩ := handle_normal uncommitted.1 first
      rw [List.filter_cons_of_neg (by simpa using outside), getAfter_cons first]
      exact ih (normal'.trans normal) (values'.trans values) uncommitted.2 (returns.2 e₁ reply first)

/-- An engine without keys. -/
def empty : MMyISAM := { normal := OBtree.create, values := {} }

section Independence
variable {j : Nat}

/-- Engines that are the same to session `j`. -/
structure Agree (j : Nat) (e e' : MMyISAM) : Prop where
  normal : e'.normal = e.normal
  values : e'.values = e.values
  safe : e'.safe j = e.safe j

theorem Agree.session {e e' : MMyISAM} (agree : Agree j e e') : e'.session j = e.session j := by
  simp only [MMyISAM.session, Int.toNat_natCast, agree.safe]

theorem Agree.attach {e e' : MMyISAM} (agree : Agree j e e') (m : SafeMode) : e'.attach m = e.attach m := by
  rw [MMyISAM.attach, MMyISAM.attach, agree.normal]

theorem Agree.detach {e e' : MMyISAM} (agree : Agree j e e') (tree : SafeOBtree) (values : ValueStore) :
    Agree j (e.detach j tree values) (e'.detach j tree values) := by
  refine ⟨?_, agree.values, ?_⟩
  · simp only [MMyISAM.detach, agree.normal]
  · simp only [MMyISAM.detach, Int.toNat_natCast, if_true]

end Independence

end MMyISAM

end MiyaCore
