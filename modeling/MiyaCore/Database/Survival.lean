import MiyaCore.Database.Server
import MiyaCore.SafeMode.Isolation

namespace MiyaCore
open Bson Bytes

theorem isSome_toOption {ε α : Type} (x : Except ε α) : x.toOption.isSome = x.isOk := by cases x <;> rfl

theorem isOk_bind {ε α β : Type} (x : Except ε α) (f : α → Except ε β) (fine : ∀ a, (f a).isOk) :
    (x >>= f).isOk = x.isOk := by
  cases x with
  | error err => rfl
  | ok a => exact fine a

theorem toOption_eq_some {ε α : Type} {x : Except ε α} {a : α} (some : x.toOption = some a) : x = .ok a := by
  cases x with
  | error err => cases some
  | ok b => rw [Option.some.inj some]

/-- What ends with its flag set tells no failure. -/
theorem flag_of_bind {ε α β : Type} {x : Except ε α} {f : α → β} {r : β × Bool}
    (run : (x >>= fun a => .ok (f a, true)) = .ok r) : r.2 = true := by
  cases x with
  | error err => cases run
  | ok a => rw [← Except.ok.inj run]

theorem error_bind {ε α β : Type} (err : ε) (f : α → Except ε β) :
    ((Except.error err : Except ε α) >>= f) = .error err := rfl

namespace ValueStore
open Database

theorem length_get (v : ValueStore) (p : Nat) : (v.get p).length = v.valueLength p := by
  rw [ValueStore.get, ValueStore.bytes, List.length_map, List.length_range]

/-- The bytes of the value at the address, with its header, lie in the store, and this ends where the arithmetic
of addresses does. -/
structure Within (v : ValueStore) (p : Nat) : Prop where
  header : p + 28 ≤ v.top
  value : p + ofLe (v.bytes p 2) + v.valueLength p ≤ v.top
  near : v.top ≤ 2 ^ 24

theorem Within.allocatable {v : ValueStore} {p : Nat} (within : v.Within p) : Allocatable (v.get p).length := by
  have inside := within.value
  have near := within.near
  rw [length_get, Allocatable]
  omega

end ValueStore

namespace MMyISAM
open Database

/-- The files of the engine end where the arithmetic of addresses does. -/
structure Near (e : MMyISAM) : Prop where
  normal : e.normal.file.Reached
  values : e.values.top ≤ 2 ^ 24
  safe : ∀ r m, e.safe r = some m → m.Near

/-- An operation that has its registry index inside of the arrays, and comes back from the index it is
meant for, if there is one. -/
def Reaches (e : MMyISAM) (registryIndex : Int) (normal : Prop) (safe : SafeMode → Prop) : Prop :=
  if 0 ≤ registryIndex then registryIndex < 5 ∧ ∀ m, e.safe registryIndex.toNat = some m → safe m else normal

theorem session_eq {e : MMyISAM} {r : Int} (natural : 0 ≤ r) :
    e.session r = if r < 5 then .ok (e.safe r.toNat) else .error .outOfRange := by
  have same : r.toNat < 5 ↔ r < 5 := by omega
  simp only [session, same]

variable {fuel : Nat} {e : MMyISAM} {r : Int} {k : Key}

/-- What an operation on the session of a registry index comes down to. -/
theorem session_isOk_iff {α : Type} {f : Option SafeMode → Except NodeError α} (natural : 0 ≤ r)
    (missing : (f none).isOk) :
    (e.session r >>= f).isOk ↔ r < 5 ∧ ∀ m, e.safe r.toNat = some m → (f (some m)).isOk := by
  rw [session_eq natural]
  split_ifs with inside
  · cases has : e.safe r.toNat with
    | none => simp [ok_bind, inside, missing]
    | some m => simp [ok_bind, inside]
  · simp [error_bind, inside, Except.isOk, Except.toBool]

theorem add_isOk_iff {value : List UInt8} {timestamp : Nat} : (e.add fuel r k value timestamp).isOk ↔
    e.Reaches r (e.normal.add fuel k e.values.top).isOk
      fun m => ((e.attach m).add fuel k m.values.top).isOk := by
  rw [add, Reaches]
  split_ifs with natural
  · rw [session_isOk_iff natural rfl]
    refine and_congr_right fun _ => forall_congr' fun m => imp_congr_right fun _ => ?_
    exact Bool.eq_iff_iff.mp (isOk_bind _ _ fun _ => rfl)
  · exact Bool.eq_iff_iff.mp (isOk_bind _ _ fun _ => rfl)

/-- A value that lies in its store is got, and can be allocated. -/
theorem get_run (reaches : e.Reaches r (∃ o, e.normal.find fuel k = .ok o ∧ ∀ p ∈ o, e.values.Within p)
    fun m => ∃ o s, (safeFind fuel m.tree.rootONode k).run (e.attach m).file = .ok (o, s) ∧
      ∀ d ∈ o, m.values.Within d.1) :
    ∃ value, e.get fuel r k = .ok value ∧ ∀ v ∈ value, Allocatable v.length := by
  rw [Reaches] at reaches
  rw [get]
  split_ifs at reaches ⊢ with natural
  · obtain ⟨inside, found⟩ := reaches
    rw [session_eq natural, if_pos inside, ok_bind]
    cases has : e.safe r.toNat with
    | none => exact ⟨none, rfl, fun v member => absurd member (Option.not_mem_none v)⟩
    | some m =>
      obtain ⟨o, s, run, within⟩ := found m has
      refine ⟨o.map fun d => m.values.get d.1, ?_, fun v member => ?_⟩
      · change ((safeFind fuel m.tree.rootONode k).run (e.attach m).file >>=
          fun found => .ok (found.1.map fun d => m.values.get d.1)) = _
        rw [run, ok_bind]
      · obtain ⟨d, isFound, rfl⟩ := Option.map_eq_some_iff.mp member
        exact (within d isFound).allocatable
  · obtain ⟨o, run, within⟩ := reaches
    refine ⟨o.map e.values.get, by rw [run, ok_bind]; rfl, fun v member => ?_⟩
    obtain ⟨d, isFound, rfl⟩ := Option.map_eq_some_iff.mp member
    exact (within d isFound).allocatable

theorem remove_isOk_iff : (e.remove fuel r k).isOk ↔
    e.Reaches r (e.normal.remove fuel k).isOk fun m => ((e.attach m).remove fuel k).isOk := by
  rw [remove, Reaches]
  split_ifs with natural
  · rw [session_isOk_iff natural rfl]
    refine and_congr_right fun _ => forall_congr' fun m => imp_congr_right fun _ => ?_
    exact Bool.eq_iff_iff.mp (isOk_bind _ _ fun _ => rfl)
  · exact Bool.eq_iff_iff.mp (isOk_bind _ _ fun _ => rfl)

/-- The nodes of a session copied into the normal index. -/
def merged (fuel : Nat) (e : MMyISAM) (timestamp : Nat) (m : SafeMode) : Except NodeError (Nat × SafeFile) :=
  let s := (e.attach m).file
  let s := { s with normal := { s.normal with head := s.headBytes } }
  (s.mergeDataOptr e.entryMap e.values m.values timestamp).2.mergeSafeBtree fuel m.tree.rootONode none

theorem commit_isOk_iff {timestamp : Nat} : (e.safeCommitExit fuel r timestamp).isOk ↔
    e.Reaches r True fun m => (e.merged fuel timestamp m).isOk := by
  rw [safeCommitExit, Reaches]
  split_ifs with negative natural natural
  · omega
  · simp [Except.isOk, Except.toBool, pure, Except.pure]
  · rw [session_isOk_iff natural rfl]
    refine and_congr_right fun _ => forall_congr' fun m => imp_congr_right fun _ => ?_
    exact Bool.eq_iff_iff.mp (isOk_bind _ _ fun _ => rfl)
  · omega

theorem reaches_false_of_open (opened : ¬e.Closed r) : ¬e.Reaches r False fun _ => False := by
  intro reaches
  rw [Reaches] at reaches
  split_ifs at reaches with natural
  obtain ⟨inside, none⟩ := reaches
  exact opened ⟨natural, inside, Option.eq_none_iff_forall_ne_some.mpr fun m has => none m has⟩

/-- Where an operation on a session tells a failure, there was no session. -/
theorem session_failed {f : SafeMode → Except NodeError (MMyISAM × Bool)} {e' : MMyISAM}
    (done : ∀ m r', f m = .ok r' → r'.2 = true)
    (run : (e.session r >>= fun o => match o with | none => .ok (e, false) | some m => f m) =
      .ok (e', false)) : e' = e := by
  cases has : e.session r with
  | error err => simp [has, error_bind] at run
  | ok o =>
    rw [has, ok_bind] at run
    cases o with
    | none => exact (Prod.mk.inj (Except.ok.inj run)).1.symm
    | some m => simpa using done m _ run

theorem add_failed {value : List UInt8} {timestamp : Nat} {e' : MMyISAM}
    (run : e.add fuel r k value timestamp = .ok (e', false)) :
    e' = e := by
  rw [add] at run
  split_ifs at run
  · exact session_failed (fun m r' ended => flag_of_bind ended) run
  · simpa using flag_of_bind run

/-- A change of the normal mode closes the sessions. -/
theorem add_safe {value : List UInt8} {timestamp : Nat} {r' : MMyISAM × Bool} (normal : ¬0 ≤ r)
    (run : e.add fuel r k value timestamp = .ok r') : r'.1.safe = fun _ => none := by
  rw [add, if_neg normal] at run
  cases grown : e.normal.add fuel k (e.values.add value timestamp).1 with
  | error err => simp [grown, error_bind] at run
  | ok normal =>
    simp only [grown, ok_bind] at run
    rw [← Except.ok.inj run]
    rfl

theorem remove_failed {e' : MMyISAM} (run : e.remove fuel r k = .ok (e', false)) : e' = e := by
  rw [remove] at run
  split_ifs at run
  · exact session_failed (fun m r' ended => flag_of_bind ended) run
  · simpa using flag_of_bind run

theorem safeCommitExit_failed {timestamp : Nat} {e' : MMyISAM}
    (run : e.safeCommitExit fuel r timestamp = .ok (e', false)) :
    e' = e := by
  rw [safeCommitExit] at run
  split_ifs at run
  · exact (Prod.mk.inj (Except.ok.inj run)).1.symm
  · exact session_failed (fun m r' ended => flag_of_bind ended) run

theorem safeAbortExit_failed (told : (e.safeAbortExit r).2 = false) : (e.safeAbortExit r).1 = e := by
  rw [safeAbortExit] at told ⊢
  split_ifs at told ⊢
  rfl

/-- An operation on a query that tells its failure has changed nothing. -/
theorem addQuery_failed {timestamp : Nat} {q : QueryContext} {e' : MMyISAM}
    (run : e.addQuery fuel timestamp q = some (e', false)) :
    e' = e := by
  rw [addQuery] at run
  split_ifs at run
  · exact (Prod.mk.inj (Option.some.inj run)).1.symm
  · obtain ⟨k, -, run⟩ := Option.bind_eq_some_iff.mp run
    obtain ⟨v, -, run⟩ := Option.bind_eq_some_iff.mp run
    exact add_failed (toOption_eq_some run)

theorem removeQuery_failed {q : QueryContext} {e' : MMyISAM}
    (run : e.removeQuery fuel q = some (e', false)) : e' = e := by
  rw [removeQuery] at run
  split_ifs at run
  · exact (Prod.mk.inj (Option.some.inj run)).1.symm
  · obtain ⟨k, -, run⟩ := Option.bind_eq_some_iff.mp run
    exact remove_failed (toOption_eq_some run)

theorem commitQuery_failed {timestamp : Nat} {q : QueryContext} {e' : MMyISAM}
    (run : e.commitQuery fuel timestamp q = some (e', false)) :
    e' = e := by
  rw [commitQuery] at run
  split_ifs at run
  exact safeCommitExit_failed (toOption_eq_some run)

end MMyISAM

namespace Database

/-- The storage engine comes back from the operation of a query: the registry index is inside of the
arrays; where an index is asked, the key has its twenty bytes and the operation of the index comes to
an end; the values that are read lie in their store. There is no coming back from `migrateToSafeMode`. -/
def Performs (fuel : Nat) (e : MMyISAM) (timestamp : Nat) (q : QueryContext) : Prop :=
  q.type < 0 ∨
  q.type = 1 ∧ e.Reaches q.registryIndex (∃ k, q.key.bind toKey = some k ∧
  (e.normal.add fuel k e.values.top).isOk)
    (fun m => ∃ k, q.key.bind toKey = some k ∧ ((e.attach m).add fuel k m.values.top).isOk) ∨
  q.type = 2 ∧ e.Reaches q.registryIndex (∃ k, q.key.bind toKey = some k ∧
    ∃ o, e.normal.find fuel k = .ok o ∧ ∀ p ∈ o, e.values.Within p)
    (fun m => ∃ k, q.key.bind toKey = some k ∧
    ∃ o s, (safeFind fuel m.tree.rootONode k).run (e.attach m).file = .ok (o, s) ∧
      ∀ d ∈ o, m.values.Within d.1) ∨
  q.type = 4 ∧ e.Reaches q.registryIndex (∃ k, q.key.bind toKey = some k ∧ (e.normal.remove fuel k).isOk)
    (fun m => ∃ k, q.key.bind toKey = some k ∧ ((e.attach m).remove fuel k).isOk) ∨
  q.type = 11 ∧ e.Reaches q.registryIndex True (fun m => (e.merged fuel timestamp m).isOk ∧
    ∀ p ∈ (e.attach m).file.copied, m.values.Within p) ∨
  q.type = 12

/-- An operation that reads a key, if there is an index to look into. -/
theorem keyed_isSome {α : Type} {e : MMyISAM} {r : Int} {key : Option (List UInt8)}
    {op : Key → Option α} {closed : α} {normal : Key → Prop} {safe : Key → SafeMode → Prop}
    (ends : ∀ k, e.Reaches r (normal k) (safe k) → (op k).isSome)
    (reaches : e.Reaches r (∃ k, key.bind toKey = some k ∧ normal k) fun m => ∃ k, key.bind toKey = some k ∧
      safe k m) :
    (if e.Closed r then some closed else (key.bind toKey).bind op).isSome := by
  by_cases shut : e.Closed r
  · rw [if_pos shut]
    rfl
  · rw [if_neg shut]
    cases read : key.bind toKey with
    | none =>
      simp only [read, reduceCtorEq, false_and, exists_false] at reaches
      exact absurd reaches (MMyISAM.reaches_false_of_open shut)
    | some k =>
      simp only [read, Option.some.injEq, exists_eq_left'] at reaches
      exact ends k reaches

theorem getQuery_isSome {fuel : Nat} {e : MMyISAM} {q : QueryContext} (reaches : e.Reaches q.registryIndex
      (∃ k, q.key.bind toKey = some k ∧ ∃ o, e.normal.find fuel k = .ok o ∧ ∀ p ∈ o, e.values.Within p)
      (fun m => ∃ k, q.key.bind toKey = some k ∧
        ∃ o s, (safeFind fuel m.tree.rootONode k).run (e.attach m).file = .ok (o, s) ∧
          ∀ d ∈ o, m.values.Within d.1)) : (e.getQuery fuel q).isSome := by
  refine keyed_isSome (fun k found => ?_) reaches
  obtain ⟨value, run, allocatable⟩ := MMyISAM.get_run found
  rw [run, Except.toOption, Option.bind_some, if_pos allocatable]
  rfl

theorem commitQuery_isSome {fuel : Nat} {e : MMyISAM} {timestamp : Nat} {q : QueryContext}
    (reaches : e.Reaches q.registryIndex True fun m => (e.merged fuel timestamp m).isOk ∧
      ∀ p ∈ (e.attach m).file.copied, m.values.Within p) : (e.commitQuery fuel timestamp q).isSome := by
  have ends : e.Reaches q.registryIndex True fun m => (e.merged fuel timestamp m).isOk := by
    rw [MMyISAM.Reaches] at reaches ⊢
    split_ifs at reaches ⊢
    exact ⟨reaches.1, fun m has => (reaches.2 m has).1⟩
  rw [MMyISAM.commitQuery, if_neg, isSome_toOption]
  · exact MMyISAM.commit_isOk_iff.mpr ends
  · rintro ⟨natural, m, has, p, member, refused⟩
    rw [MMyISAM.Reaches, if_pos natural] at reaches
    have within := (reaches.2 m has).2 p member
    have small := within.value
    have near := within.near
    exact refused (show m.values.valueLength p < 2 ^ 63 by omega)

theorem dispatch_isSome {fuel : Nat} {e : MMyISAM} {timestamp : Nat} {q : QueryContext}
    (filled : q.type = 1 → q.value.isSome) (performs : Performs fuel e timestamp q) :
    (dispatch fuel e timestamp q).isSome := by
  rw [dispatch]
  rcases performs with negative | ⟨isAdd, added⟩ | ⟨isGet, got⟩ | ⟨isRemove, removed⟩ | ⟨isCommit, committed⟩ | isAbort
  · simp [negative]
  · obtain ⟨v, written⟩ := Option.isSome_iff_exists.mp (filled isAdd)
    have ends : (e.addQuery fuel timestamp q).isSome := by
      rw [MMyISAM.addQuery]
      refine keyed_isSome (fun k found => ?_) added
      rw [written, Option.bind_some, isSome_toOption]
      exact MMyISAM.add_isOk_iff.mpr found
    simp [isAdd, ends]
  · simp [isGet, getQuery_isSome got]
  · have ends : (e.removeQuery fuel q).isSome := by
      refine keyed_isSome (fun k found => ?_) removed
      rw [isSome_toOption]
      exact MMyISAM.remove_isOk_iff.mpr found
    simp [isRemove, ends]
  · simp [isCommit, commitQuery_isSome committed]
  · simp [isAbort]

/-- Filling in the fields of a query leaves its number and its registry index as they are. -/
theorem fill_registryIndex {d : Document} {q filled : QueryContext} (fills : q.fill d = some filled) :
    filled.id = q.id ∧ filled.registryIndex = q.registryIndex := by
  rw [QueryContext.fill] at fills
  split_ifs at fills
  · obtain ⟨k, -, rest⟩ := Option.bind_eq_some_iff.mp fills
    obtain ⟨v, -, rfl⟩ := Option.map_eq_some_iff.mp rest
    exact ⟨rfl, rfl⟩
  · obtain ⟨k, -, rfl⟩ := Option.map_eq_some_iff.mp fills
    exact ⟨rfl, rfl⟩
  all_goals
    obtain rfl := Option.some.inj fills
    exact ⟨rfl, rfl⟩

theorem parseQuery_eq_some {raw : List UInt8} {q : QueryContext} :
    parseQuery raw = some (some q) ↔ ∃ d, read raw = some d ∧ Parses d q := by
  rw [parseQuery, Option.bind_eq_some_iff]
  refine exists_congr fun d => and_congr_right fun _ => ?_
  constructor
  · intro run
    cases asked : d.get query with
    | none => simp [asked] at run
    | some v =>
      simp only [asked, Option.bind_eq_some_iff] at run
      obtain ⟨type, isType, id, isID, run⟩ := run
      cases fills : ({ type, id } : QueryContext).fill d with
      | none => simp [fills] at run
      | some filled =>
        simp only [fills, Option.map_eq_some_iff, Option.some.injEq] at run
        obtain ⟨index, isIndex, rfl⟩ := run
        obtain ⟨same, -⟩ := fill_registryIndex fills
        obtain rfl : filled.id = id := same
        refine ⟨⟨v, type, filled, asked, isType, fills, rfl⟩, ?_, isIndex⟩
        cases numbered : d.get queryID with
        | none => simp [numbered, toUInt32, convert] at isID
        | some w => exact ⟨w, rfl, by simpa [numbered] using isID⟩
  · rintro ⟨⟨v, type, filled, asked, isType, fills, whole⟩, ⟨w, numbered, isID⟩, isIndex⟩
    simp only [asked, isType, numbered, Option.getD_some, isID, Option.bind_some, fills, isIndex,
      Option.map_some]
    rw [← whole]

theorem filled_of_parses {d : Document} {q : QueryContext} (parses : Parses d q) (isAdd : q.type = 1) :
    q.value.isSome := by
  obtain ⟨v, type, filled, -, -, fills, whole⟩ := parses.query
  have same : filled.type = 1 := by rw [whole] at isAdd; exact isAdd
  rw [whole]
  rw [QueryContext.fill] at fills
  split_ifs at fills with add keyed bare
  · obtain ⟨k, -, rest⟩ := Option.bind_eq_some_iff.mp fills
    obtain ⟨v, -, rfl⟩ := Option.map_eq_some_iff.mp rest
    rfl
  · obtain ⟨k, -, rfl⟩ := Option.map_eq_some_iff.mp fills
    exact absurd same add
  · obtain rfl := Option.some.inj fills
    exact absurd same add
  · obtain rfl := Option.some.inj fills
    simp at same

/-- A request is answered that is a document, is parsed, and that the engine comes back from. -/
theorem respond_isSome {fuel : Nat} {e : MMyISAM} {timestamp : Nat} {raw : List UInt8} {d : Document}
    {q : QueryContext} (isDocument : read raw = some d) (parses : Parses d q)
    (performs : Performs fuel e timestamp q) : (respond fuel e timestamp raw).isSome := by
  rw [respond, parseQuery_eq_some.mpr ⟨d, isDocument, parses⟩, Option.bind_some]
  exact dispatch_isSome (filled_of_parses parses) performs

/-- A flag is a status: a failure is told exactly when the flag is not set. -/
theorem flagStatus_failed {q : QueryContext} {flagged : MMyISAM × Bool} {e e' : MMyISAM} {r : Response}
    (kept : flagged.2 = false → flagged.1 = e) (told : flagStatus q flagged = (r, e'))
    (failed : r.Failed) : e' = e := by
  obtain ⟨rfl, rfl⟩ := Prod.mk.inj told
  cases flag : flagged.2 with
  | false => exact kept flag
  | true => simp [Response.Failed, flag] at failed

/-- An operation that tells its failure has changed nothing. -/
theorem dispatch_failed {fuel : Nat} {e e' : MMyISAM} {timestamp : Nat} {q : QueryContext} {r : Response}
    (run : dispatch fuel e timestamp q = some (r, e')) (failed : r.Failed) : e' = e := by
  rw [dispatch] at run
  split_ifs at run with negative isAdd isGet isRemove isCommit isAbort
  · exact (Prod.mk.inj (Option.some.inj run)).2.symm
  · obtain ⟨⟨after, flag⟩, added, told⟩ := Option.map_eq_some_iff.mp run
    cases flag with
    | true =>
      obtain ⟨rfl, -⟩ := Prod.mk.inj told
      simp [Response.Failed] at failed
    | false =>
      obtain ⟨-, rfl⟩ := Prod.mk.inj told
      exact MMyISAM.addQuery_failed added
  · obtain ⟨found, -, told⟩ := Option.map_eq_some_iff.mp run
    cases found <;> exact (Prod.mk.inj told).2.symm
  · obtain ⟨flagged, removed, told⟩ := Option.map_eq_some_iff.mp run
    exact flagStatus_failed (fun flag => MMyISAM.removeQuery_failed (by rw [removed, ← flag])) told failed
  · obtain ⟨flagged, committed, told⟩ := Option.map_eq_some_iff.mp run
    exact flagStatus_failed (fun flag => MMyISAM.commitQuery_failed (by rw [committed, ← flag])) told failed
  · exact flagStatus_failed MMyISAM.safeAbortExit_failed (Option.some.inj run) failed

/-- Each request meets what the server asks for, in the state it is handled in, and the files stay where the
arithmetic of addresses is right. -/
def Answerable (fuel : Nat) : MMyISAM → List (List UInt8 × Nat) → Prop
  | e, [] => e.Near
  | e, request :: rest => e.Near ∧ (∃ d q, read request.1 = some d ∧ Parses d q ∧ Performs fuel e request.2 q) ∧
      ∀ r, respond fuel e request.2 request.1 = some r → Answerable fuel r.2 rest

/-- A loop that comes to its end has an answer to each request, in their order. -/
theorem serverLoop_answers {fuel : Nat} : ∀ {requests : List (List UInt8 × Nat)} {e last : MMyISAM}
    {answers : List Answer},
    serverLoop fuel e requests = some (answers, last) → answers.map Answer.request = requests ∧
      ∀ a ∈ answers, respond fuel a.before a.request.2 a.request.1 = some (a.response, a.after)
  | [], _, _, _, run => by
    obtain ⟨rfl, -⟩ := Prod.mk.inj (Option.some.inj run)
    simp
  | request :: rest, e, last, answers, run => by
    rw [serverLoop] at run
    obtain ⟨r, answered, run⟩ := Option.bind_eq_some_iff.mp run
    obtain ⟨⟨more, final⟩, going, whole⟩ := Option.map_eq_some_iff.mp run
    obtain ⟨rfl, -⟩ := Prod.mk.inj whole
    obtain ⟨inOrder, each⟩ := serverLoop_answers going
    refine ⟨by rw [List.map_cons, inOrder], List.forall_mem_cons.mpr ⟨answered, each⟩⟩

/-- An answer that tells a failure is of a request that changed nothing. -/
theorem respond_failed {fuel : Nat} {e e' : MMyISAM} {timestamp : Nat} {raw : List UInt8} {r : Response}
    (run : respond fuel e timestamp raw = some (r, e')) (failed : r.Failed) : e' = e := by
  rw [respond] at run
  obtain ⟨qctx, -, run⟩ := Option.bind_eq_some_iff.mp run
  cases qctx with
  | none => simp [failureSB] at run
  | some q => exact dispatch_failed run failed

/-- The loop comes to its end on requests that it can answer. -/
theorem serverLoop_isSome {fuel : Nat} {requests : List (List UInt8 × Nat)} {e : MMyISAM}
    (answerable : Answerable fuel e requests) : (serverLoop fuel e requests).isSome := by
  induction requests generalizing e with
  | nil => rfl
  | cons request rest ih =>
    obtain ⟨-, ⟨d, q, isDocument, parses, performs⟩, going⟩ := answerable
    obtain ⟨r, answered⟩ := Option.isSome_iff_exists.mp (respond_isSome isDocument parses performs)
    rw [serverLoop, answered, Option.bind_some, Option.isSome_map]
    exact ih (going r answered)

/-- The server survives requests that it can answer. -/
theorem survives_of_answerable (fuel : Nat) (e : MMyISAM) (requests : List (List UInt8 × Nat))
    (answerable : Answerable fuel e requests) : Survives fuel e requests := by
  obtain ⟨⟨answers, last⟩, run⟩ := Option.isSome_iff_exists.mp (serverLoop_isSome answerable)
  obtain ⟨inOrder, each⟩ := serverLoop_answers run
  refine ⟨answers, last, run, by rw [← inOrder, List.length_map], fun a member failed => ?_⟩
  exact respond_failed (each a member) failed

/-- A query of the type for the key zero in the normal mode. -/
def ask (type : Int) : List UInt8 :=
  write [(queryID, .integer 5), (Database.key, .binary (List.replicate 20 0)), (query, .integer type),
  (registryIndex, .integer (-1))]

/-- A value of one byte is added to an empty database; a lookup of it, a query of no type and a lookup again are
answered. -/
theorem survives_of_answerable_three : ∃ e, MMyISAM.empty.add 2 (-1) 0 [7] 0 = .ok (e, true) ∧
    Survives 2 e [(ask 2, 0), (ask 9, 1), (ask 2, 2)] := by
  have added : ∃ r ∈ (MMyISAM.empty.add 2 (-1) 0 [7] 0).toOption, r.2 = true ∧ r.1.normal.file.Reached ∧
      r.1.values.top ≤ 2 ^ 24 ∧ (r.1.normal.find 2 0).toOption = some (some 0) ∧ 0 + 28 ≤ r.1.values.top ∧
      0 + ofLe (r.1.values.bytes 0 2) + r.1.values.valueLength 0 ≤ r.1.values.top := by
    decide +kernel
  obtain ⟨⟨e, -⟩, run, rfl, reached, room, found, header, value⟩ := added
  have ran := toOption_eq_some run
  refine ⟨e, ran, survives_of_answerable 2 e _ ?_⟩
  have near : e.Near := ⟨reached, room, by rw [MMyISAM.add_safe (by decide) ran]; nofun⟩
  have get : parseQuery (ask 2) = some (some ⟨2, 5, some (List.replicate 20 0), none, -1⟩) := by decide +kernel
  have other : parseQuery (ask 9) = some (some ⟨-1, 5, none, none, -1⟩) := by decide +kernel
  obtain ⟨d, isDocument, parses⟩ := parseQuery_eq_some.mp get
  obtain ⟨d', isDocument', parses'⟩ := parseQuery_eq_some.mp other
  have performs (timestamp : Nat) : Performs 2 e timestamp ⟨2, 5, some (List.replicate 20 0), none, -1⟩ := by
    refine Or.inr (Or.inr (Or.inl ⟨rfl, ?_⟩))
    rw [MMyISAM.Reaches, if_neg (by decide)]
    refine ⟨0, by decide +kernel, some 0, toOption_eq_some found, fun p member => ?_⟩
    obtain rfl := Option.mem_some_iff.mp member
    exact ⟨header, value, room⟩
  have stays (timestamp : Nat) (r : Response × MMyISAM) (answered : respond 2 e timestamp (ask 2) = some r) : r.2 = e := by
    rw [respond, get, Option.bind_some] at answered
    obtain ⟨o, -, told⟩ := Option.map_eq_some_iff.mp (show Option.map _ (e.getQuery 2 _) = some r from answered)
    cases o <;> rw [← told]
  have stays' (r : Response × MMyISAM) (answered : respond 2 e 1 (ask 9) = some r) : r.2 = e := by
    rw [respond, other, Option.bind_some] at answered
    rw [← Option.some.inj (show some _ = some r from answered)]
  refine ⟨near, ⟨d, _, isDocument, parses, performs 0⟩, fun r first => ?_⟩
  rw [stays 0 r first]
  refine ⟨near, ⟨d', _, isDocument', parses', Or.inl (by decide)⟩, fun r second => ?_⟩
  rw [stays' r second]
  refine ⟨near, ⟨d, _, isDocument, parses, performs 2⟩, fun r third => ?_⟩
  rw [stays 2 r third]
  exact near

/-- The empty document has no query; the answer that is to tell so reads the context there is not. -/
theorem survives_fails : ¬∃ fuel, Survives fuel MMyISAM.empty [([5, 0, 0, 0, 0], 0)] := by
  rintro ⟨fuel, answers, last, run, -⟩
  have parsed : parseQuery [5, 0, 0, 0, 0] = some none := rfl
  simp [serverLoop, respond, parsed, failureSB] at run

end Database

end MiyaCore
