import MiyaCore.Database.Existence
import MiyaCore.Database.Progress
import MiyaCore.Database.WireValues
import MiyaCore.SafeMode.Table

/-!
# One call after the other

What the clients get to see is as if each call took effect at once, in the order in which the server handles
them, on one table.
-/

namespace MiyaCore
open Bson

namespace MMyISAM

theorem add_of_closed {fuel : Nat} {e : MMyISAM} {r : Int} {k : Key} {value : List UInt8} {timestamp : Nat}
    (closed : e.Closed r) : e.add fuel r k value timestamp = .ok (e, false) := by
  obtain ⟨natural, inside, missing⟩ := closed
  rw [add, if_pos natural, session_eq natural, if_pos inside, missing]
  rfl

theorem remove_of_closed {fuel : Nat} {e : MMyISAM} {r : Int} {k : Key} (closed : e.Closed r) :
    e.remove fuel r k = .ok (e, false) := by
  obtain ⟨natural, inside, missing⟩ := closed
  rw [remove, if_pos natural, session_eq natural, if_pos inside, missing]
  rfl

end MMyISAM

namespace Database

/-- The key that the index reads from the twenty bytes of a call. -/
def keyOf (rawKey : List.Vector UInt8 20) : Key := (toKey rawKey.toList).get (by simp [toKey])

theorem toKey_toList (rawKey : List.Vector UInt8 20) : toKey rawKey.toList = some (keyOf rawKey) := by
  simp [keyOf]

/-- The query of the engine that a context stands for. -/
def QueryContext.query (timestamp : Nat) (q : QueryContext) : Option Query :=
  (q.key.bind toKey).bind fun k =>
    if q.type = 1 then q.value.map fun v => .add q.registryIndex k v timestamp
    else if q.type = 2 then some (.get q.registryIndex k)
    else if q.type = 4 then some (.remove q.registryIndex k)
    else none

/-- The query that a request stands for. -/
def readQuery (timestamp : Nat) (raw : List UInt8) : Option Query :=
  (parseQuery raw).bind fun qctx => qctx.bind fun q => q.query timestamp

/-- The query that a call stands for. -/
def ClientQuery.query (timestamp : Nat) : ClientQuery → Query
  | get rawKey index => .get index.toInt (keyOf rawKey)
  | add rawKey rawValue index => .add index.toInt (keyOf rawKey) rawValue timestamp
  | remove rawKey index => .remove index.toInt (keyOf rawKey)

/-- The response that tells what the engine has replied to a call. -/
def ClientQuery.response (id : UInt32) : ClientQuery → MiyaCore.Reply → Response
  | _, .value v => ⟨id, if v.isSome then 1 else -1, v⟩
  | remove _ _, .status flag => ⟨id, if flag then 1 else 0, none⟩
  | _, .status flag => ⟨id, if flag then 1 else -1, none⟩

variable {fuel timestamp : Nat} {e e' : MMyISAM} {id : UInt32} {call : ClientQuery} {r : Response}

theorem query_context : (call.context id).query timestamp = some (call.query timestamp) := by
  cases call <;> simp [ClientQuery.context, QueryContext.query, toKey_toList, ClientQuery.query]

theorem dispatch_remove (rawKey : List.Vector UInt8 20) (index : Int16) :
    dispatch fuel e timestamp ((ClientQuery.remove rawKey index).context id) =
      (e.removeQuery fuel ((ClientQuery.remove rawKey index).context id)).map
        fun r => (⟨id, if r.2 then 1 else 0, none⟩, r.1) := by
  have isRemove : ((ClientQuery.remove rawKey index).context id).type = 4 := rfl
  have positive : ¬((ClientQuery.remove rawKey index).context id).type < 0 := by rw [isRemove]; decide
  have notAdd : ((ClientQuery.remove rawKey index).context id).type ≠ 1 := by rw [isRemove]; decide
  have notGet : ((ClientQuery.remove rawKey index).context id).type ≠ 2 := by rw [isRemove]; decide
  rw [dispatch, if_neg positive, if_neg notAdd, if_neg notGet, if_pos isRemove]
  rfl

/-- A call that is dispatched is a query of the engine, whose reply the response tells. -/
theorem handle_of_dispatch (run : dispatch fuel e timestamp (call.context id) = some (r, e')) :
    ∃ a, e.handle fuel (call.query timestamp) = .ok (e', a) ∧ r = call.response id a := by
  cases call with
  | get rawKey index =>
    rw [dispatch_get] at run
    obtain ⟨found, got, done⟩ := Option.map_eq_some_iff.mp run
    obtain ⟨rfl, rfl⟩ := Prod.mk.inj done
    refine ⟨.value found, ?_, rfl⟩
    have read : e.get fuel index.toInt (keyOf rawKey) = .ok found := by
      unfold MMyISAM.getQuery at got
      simp only [ClientQuery.context, Option.bind_some, toKey_toList] at got
      split_ifs at got with closed
      · rw [← Option.some.inj got, MMyISAM.get_of_closed closed]
      · obtain ⟨value, ran, allocated⟩ := Option.bind_eq_some_iff.mp got
        split_ifs at allocated
        rw [← Option.some.inj allocated]
        exact toOption_eq_some ran
    rw [ClientQuery.query, MMyISAM.handle, read]
    rfl
  | add rawKey rawValue index =>
    rw [dispatch_add] at run
    obtain ⟨⟨after, flag⟩, added, done⟩ := Option.map_eq_some_iff.mp run
    obtain ⟨rfl, rfl⟩ := Prod.mk.inj done
    refine ⟨.status flag, ?_, rfl⟩
    have wrote : e.add fuel index.toInt (keyOf rawKey) rawValue timestamp = .ok (after, flag) := by
      unfold MMyISAM.addQuery at added
      simp only [ClientQuery.context, Option.bind_some, toKey_toList] at added
      split_ifs at added with closed
      · obtain ⟨rfl, rfl⟩ := Prod.mk.inj (Option.some.inj added)
        exact MMyISAM.add_of_closed closed
      · exact toOption_eq_some added
    rw [ClientQuery.query, MMyISAM.handle, wrote]
    rfl
  | remove rawKey index =>
    rw [dispatch_remove] at run
    obtain ⟨⟨after, flag⟩, removed, done⟩ := Option.map_eq_some_iff.mp run
    obtain ⟨rfl, rfl⟩ := Prod.mk.inj done
    refine ⟨.status flag, ?_, rfl⟩
    have took : e.remove fuel index.toInt (keyOf rawKey) = .ok (after, flag) := by
      unfold MMyISAM.removeQuery at removed
      simp only [ClientQuery.context, Option.bind_some, toKey_toList] at removed
      split_ifs at removed with closed
      · obtain ⟨rfl, rfl⟩ := Prod.mk.inj (Option.some.inj removed)
        exact MMyISAM.remove_of_closed closed
      · exact toOption_eq_some removed
    rw [ClientQuery.query, MMyISAM.handle, took]
    rfl

/-- A request of a call that is answered came whole, and is answered as the query of the call. -/
theorem handle_of_respond (short : call.Short)
    (run : respond fuel e timestamp (segment (write (call.document id))) = some (r, e')) :
    readQuery timestamp (segment (write (call.document id))) = some (call.query timestamp) ∧
      ∃ a, e.handle fuel (call.query timestamp) = .ok (e', a) ∧ r = call.response id a := by
  have inverse : read (write (call.document id)) = some (call.document id) := read_write (ClientQuery.writable short)
  have whole := whole_of_respond inverse run
  constructor
  · rw [readQuery, whole, parseQuery_document inverse]
    exact query_context
  · rw [respond_whole inverse whole] at run
    exact handle_of_dispatch run

/-- A call that was handled, and the reply of the engine. -/
structure Handled where
  ticket : Nat
  id : UInt32
  call : ClientQuery
  timestamp : Nat
  reply : MiyaCore.Reply

def Handled.query (x : Handled) : Query := x.call.query x.timestamp

/-- The response in its segment, with the ticket of its request. -/
def Handled.answer (x : Handled) : Nat × List UInt8 :=
  (x.ticket, segment (write (x.call.response x.id x.reply).document))

variable {ι : Type} {capacity : Nat}

/-- The calls of a run, each with the ticket it is given, the client and the query ID. -/
def calls (next : Nat) : List (Action ι) → List (Nat × ι × UInt32 × ClientQuery)
  | [] => []
  | .request i id call :: rest => (next, i, id, call) :: calls (next + 1) rest
  | _ :: rest => calls next rest

namespace Exchange

variable [Fintype ι] [DecidableEq ι] {s s' : Exchange ι capacity} {a : Action ι}

/-- The query that a step handles, if it is answered. -/
def handles (fuel : Nat) (s : Exchange ι capacity) : Action ι → Option Query
  | .handle timestamp =>
    match s.server with
    | .handling request => (respond fuel s.engine timestamp request.2).bind fun _ => readQuery timestamp request.2
    | _ => none
  | _ => none

/-- The queries that a run handles, each with the engine it is handled on. -/
def handled (fuel : Nat) (s : Exchange ι capacity) : List (Action ι) → List (MMyISAM × Query)
  | [] => []
  | a :: rest =>
    ((s.handles fuel a).toList.map fun q => (s.engine, q)) ++
      match s.step fuel a with
      | none => []
      | some s' => s'.handled fuel rest

/-- Only a request takes a ticket, and only the handling of one touches the engine. -/
theorem step_same (run : s.step fuel a = some s') : ((∀ i id call, a ≠ .request i id call) → s'.next = s.next) ∧
    ((∀ timestamp, a ≠ .handle timestamp) → s'.answered = s.answered ∧ s'.engine = s.engine) := by
  cases a with
  | request i id call =>
    cases stands : s.client i <;> simp only [step, stands, reduceCtorEq] at run
    split_ifs at run
    obtain rfl := Option.some.inj run
    exact ⟨fun other => absurd rfl (other i id call), fun _ => ⟨rfl, rfl⟩⟩
  | push i =>
    cases stands : s.client i <;> simp only [step, stands, reduceCtorEq] at run
    obtain ⟨q, -, rfl⟩ := Option.map_eq_some_iff.mp run
    exact ⟨fun _ => rfl, fun _ => ⟨rfl, rfl⟩⟩
  | pop i =>
    cases stands : s.client i <;> simp only [step, stands, reduceCtorEq] at run
    obtain ⟨⟨x, q⟩, -, rfl⟩ := Option.map_eq_some_iff.mp run
    dsimp only
    cases answersTo _ x.2 with
    | none => exact ⟨fun _ => rfl, fun _ => ⟨rfl, rfl⟩⟩
    | some own => cases own <;> exact ⟨fun _ => rfl, fun _ => ⟨rfl, rfl⟩⟩
  | putBack i =>
    cases stands : s.client i <;> simp only [step, stands, reduceCtorEq] at run
    obtain ⟨q, -, rfl⟩ := Option.map_eq_some_iff.mp run
    exact ⟨fun _ => rfl, fun _ => ⟨rfl, rfl⟩⟩
  | accept =>
    cases stands : s.server <;> simp only [step, stands, reduceCtorEq] at run
    obtain ⟨r, -, rfl⟩ := Option.map_eq_some_iff.mp run
    exact ⟨fun _ => rfl, fun _ => ⟨rfl, rfl⟩⟩
  | handle timestamp =>
    cases stands : s.server <;> simp only [step, stands, reduceCtorEq] at run
    next request =>
      refine ⟨fun _ => ?_, fun other => absurd rfl (other timestamp)⟩
      cases answer : respond fuel s.engine timestamp request.2 with
      | none =>
        rw [answer] at run
        rw [← Option.some.inj run]
      | some r =>
        rw [answer] at run
        rw [← Option.some.inj run]
  | answer =>
    cases stands : s.server <;> simp only [step, stands, reduceCtorEq] at run
    obtain ⟨q, -, rfl⟩ := Option.map_eq_some_iff.mp run
    exact ⟨fun _ => rfl, fun _ => ⟨rfl, rfl⟩⟩

omit [DecidableEq ι] in
theorem mem_asked {x : Nat × List UInt8} :
    x ∈ s.view.asked ↔ x ∈ s.requests.items ∨ x ∈ s.server.asked ∨ ∃ i, x ∈ (s.client i).asked := by
  simp only [view, Multiset.mem_add, Multiset.mem_coe, Multiset.mem_sum, Finset.mem_univ, true_and, or_assoc]

/-- What is on its way, waited for or received in a state is of the calls that were made, whose tickets are
apart. -/
structure Made (made : List (Nat × ι × UInt32 × ClientQuery)) (s : Exchange ι capacity) : Prop where
  below : ∀ x ∈ made, x.1 < s.next
  apart : (made.map Prod.fst).Nodup
  asked : ∀ x ∈ s.view.asked, ∃ i id call, (x.1, i, id, call) ∈ made ∧ call.Short ∧
    x.2 = segment (write (call.document id))
  waits : ∀ i t id, s.view.outstanding i = some (t, id) → ∃ call, (t, i, id, call) ∈ made
  received : ∀ r ∈ s.received, ∃ call, (r.ticket, r.client, r.id, call) ∈ made

/-- A request makes one more call. -/
theorem Made.request {made : List (Nat × ι × UInt32 × ClientQuery)} {i : ι} {id : UInt32} {call : ClientQuery}
    (known : Made made s) (run : s.step fuel (.request i id call) = some s') (short : call.Short) :
    Made (made ++ [(s.next, i, id, call)]) s' := by
  cases stands : s.client i <;> simp only [step, stands, reduceCtorEq] at run
  split_ifs at run
  obtain rfl := Option.some.inj run
  have old : ∀ x ∈ made, x ∈ made ++ [(s.next, i, id, call)] := fun x => List.mem_append_left _
  have new : (s.next, i, id, call) ∈ made ++ [(s.next, i, id, call)] := by simp
  refine ⟨fun x member => ?_, ?_, fun x there => ?_, fun j t id' held => ?_, fun r isReceived => ?_⟩
  · rcases List.mem_append.mp member with before | here
    · exact Nat.lt_succ_of_lt (known.below x before)
    · obtain rfl := List.mem_singleton.mp here
      exact Nat.lt_succ_self _
  · rw [List.map_append, List.nodup_append]
    refine ⟨known.apart, by simp, fun t before t' here => ?_⟩
    obtain ⟨x, member, rfl⟩ := List.mem_map.mp before
    obtain rfl := List.mem_singleton.mp here
    exact (known.below x member).ne
  · rw [mem_asked] at there
    dsimp only at there
    have there' : x ∈ s.view.asked ∨ x = (s.next, segment (write (call.document id))) := by
      rw [mem_asked]
      obtain inside | inServer | ⟨j, inHand⟩ := there
      · exact Or.inl (Or.inl inside)
      · exact Or.inl (Or.inr (Or.inl inServer))
      · by_cases atJ : j = i
        · subst atJ
          rw [Function.update_self] at inHand
          exact Or.inr (Multiset.mem_singleton.mp inHand)
        · rw [Function.update_of_ne atJ] at inHand
          exact Or.inl (Or.inr (Or.inr ⟨j, inHand⟩))
    obtain before | rfl := there'
    · obtain ⟨j, id', call', member, rest⟩ := known.asked x before
      exact ⟨j, id', call', old _ member, rest⟩
    · exact ⟨i, id, call, new, short, rfl⟩
  · have held' : (Function.update s.client i _ j).outstanding = some (t, id') := held
    by_cases atJ : j = i
    · subst atJ
      rw [Function.update_self] at held'
      obtain ⟨rfl, rfl⟩ := Prod.mk.inj (Option.some.inj held')
      exact ⟨call, new⟩
    · rw [Function.update_of_ne atJ] at held'
      obtain ⟨call', member⟩ := known.waits j t id' held'
      exact ⟨call', old _ member⟩
  · obtain ⟨call', member⟩ := known.received r isReceived
    exact ⟨call', old _ member⟩

/-- A step adds the call it makes, if it makes one. -/
theorem Made.step {made : List (Nat × ι × UInt32 × ClientQuery)} (known : Made made s)
    (sound : RequestReply.Sound Carries Tells s.view) (run : s.step fuel a = some s') (fits : s.Fits fuel a) :
    Made (made ++ calls s.next [a]) s' := by
  by_cases asks : ∃ i id call, a = .request i id call
  · obtain ⟨i, id, call, rfl⟩ := asks
    exact known.request run fits
  push Not at asks
  have nothing : calls s.next [a] = [] := by
    cases a with
    | request i id call => exact absurd rfl (asks i id call)
    | push | pop | putBack | accept | handle | answer => rfl
  have next := (step_same run).1 asks
  rw [nothing, List.append_nil]
  obtain same | moved := view_step run fits sound
  · have received : s'.received = s.received := congrArg RequestReply.World.received same
    exact ⟨next ▸ known.below, known.apart, same ▸ known.asked, same ▸ known.waits, received ▸ known.received⟩
  · obtain ⟨asked, waits, received⟩ := moved.back next
    refine ⟨next ▸ known.below, known.apart, fun x there => known.asked x (asked x there),
      fun i t id held => known.waits i t id (waits i t id held), fun r isReceived => ?_⟩
    obtain old | held := received r isReceived
    · exact known.received r old
    · exact known.waits r.client r.ticket r.id held

/-- The calls that were handled, one after the other on the table, explain the answers and the engine. -/
structure Logged (S : Table) (made : List (Nat × ι × UInt32 × ClientQuery)) (s : Exchange ι capacity)
    (log : List Handled) : Prop where
  answered : s.answered = log.map Handled.answer
  isMade : ∀ x ∈ log, ∃ i, (x.ticket, i, x.id, x.call) ∈ made
  replies : S.AnswersAll (log.map fun x => (x.query, x.reply))
  shows : s.engine.ShowsTable ((log.map Handled.query).foldl Table.step S)

variable {S : Table} {made : List (Nat × ι × UInt32 × ClientQuery)} {log : List Handled}

/-- The handling of a request adds its call to the log, if it is answered. -/
theorem Logged.handle (logged : Logged S made s log) (known : Made made s)
    (run : s.step fuel (.handle timestamp) = some s')
    (suits : ∀ q ∈ s.handles fuel (.handle timestamp),
      ((log.map Handled.query).foldl Table.step S).Fits s.engine fuel q) :
    ∃ log', Logged S made s' (log ++ log') ∧
      log'.map Handled.query = (s.handles fuel (.handle timestamp)).toList := by
  cases stands : s.server <;> simp only [step, stands, reduceCtorEq] at run
  next request =>
    unfold handles at suits ⊢
    simp only [stands] at suits ⊢
    cases answer : respond fuel s.engine timestamp request.2 with
    | none =>
      rw [answer] at run
      obtain rfl := Option.some.inj run
      exact ⟨[], by simpa using ⟨logged.answered, logged.isMade, logged.replies, logged.shows⟩, rfl⟩
    | some r =>
      rw [answer] at run suits
      obtain rfl := Option.some.inj run
      have there : request ∈ s.view.asked := by
        rw [mem_asked, stands]
        exact Or.inr (Or.inl (Multiset.mem_singleton_self request))
      obtain ⟨i, id, call, isMade, short, raw⟩ := known.asked request there
      have answered := answer
      rw [raw] at answered
      obtain ⟨reads, reply, handled, told⟩ := handle_of_respond short answered
      rw [← raw] at reads
      rw [Option.bind_some, reads] at suits ⊢
      obtain ⟨shows, isReply⟩ := logged.shows.handle (suits _ rfl) handled
      refine ⟨[⟨request.1, id, call, timestamp, reply⟩], ⟨?_, fun x member => ?_, ?_, ?_⟩, rfl⟩
      · rw [List.map_append, logged.answered, told]
        rfl
      · rcases List.mem_append.mp member with old | new
        · exact logged.isMade x old
        · obtain rfl := List.mem_singleton.mp new
          exact ⟨i, isMade⟩
      · rw [List.map_append]
        refine Table.answersAll_append.mpr ⟨logged.replies, ?_⟩
        rw [List.map_map]
        exact isReply
      · rw [List.map_append, List.foldl_append]
        exact shows

theorem Logged.step (logged : Logged S made s log) (known : Made made s) (run : s.step fuel a = some s')
    (suits : ∀ q ∈ s.handles fuel a, ((log.map Handled.query).foldl Table.step S).Fits s.engine fuel q) :
    ∃ log', Logged S (made ++ calls s.next [a]) s' (log ++ log') ∧
      log'.map Handled.query = (s.handles fuel a).toList := by
  by_cases isHandle : ∃ timestamp, a = .handle timestamp
  · obtain ⟨timestamp, rfl⟩ := isHandle
    have nothing : calls s.next [(.handle timestamp : Action ι)] = [] := rfl
    rw [nothing, List.append_nil]
    exact logged.handle known run suits
  push Not at isHandle
  obtain ⟨answered, engine⟩ := (step_same run).2 isHandle
  have nothing : s.handles fuel a = none := by
    cases a with
    | handle timestamp => exact absurd rfl (isHandle timestamp)
    | request | push | pop | putBack | accept | answer => rfl
  refine ⟨[], ?_, by rw [nothing]; rfl⟩
  rw [List.append_nil]
  refine ⟨answered.trans logged.answered, fun x member => ?_, logged.replies, engine ▸ logged.shows⟩
  obtain ⟨i, isMade⟩ := logged.isMade x member
  exact ⟨i, List.mem_append_left _ isMade⟩

theorem calls_cons {rest : List (Action ι)} (run : s.step fuel a = some s') :
    calls s.next (a :: rest) = calls s.next [a] ++ calls s'.next rest := by
  by_cases asks : ∃ i id call, a = .request i id call
  · obtain ⟨i, id, call, rfl⟩ := asks
    cases stands : s.client i <;> simp only [step, stands, reduceCtorEq] at run
    split_ifs at run
    obtain rfl := Option.some.inj run
    rfl
  push Not at asks
  rw [(step_same run).1 asks]
  cases a with
  | request i id call => exact absurd rfl (asks i id call)
  | push | pop | putBack | accept | handle | answer => rfl

theorem sound_step (sound : RequestReply.Sound Carries Tells s.view) (run : s.step fuel a = some s')
    (fits : s.Fits fuel a) : RequestReply.Sound Carries Tells s'.view := by
  obtain same | moved := view_step run fits sound
  · rwa [same]
  · exact sound.step tells_unique moved

/-- A run adds its calls, and to the log the queries it handles. -/
theorem Logged.perform {actions : List (Action ι)} (logged : Logged S made s log) (known : Made made s)
    (sound : RequestReply.Sound Carries Tells s.view) (fits : s.FitsRun fuel actions)
    (suits : Table.FitsAll fuel ((log.map Handled.query).foldl Table.step S) (s.handled fuel actions))
    (run : s.perform fuel actions = some s') :
    Made (made ++ calls s.next actions) s' ∧ ∃ log', Logged S (made ++ calls s.next actions) s' (log ++ log') ∧
      log'.map Handled.query = (s.handled fuel actions).map Prod.snd := by
  induction actions generalizing s made log with
  | nil =>
    obtain rfl := Option.some.inj run
    have nothing : calls s.next ([] : List (Action ι)) = [] := rfl
    rw [nothing, List.append_nil]
    exact ⟨known, [], by rwa [List.append_nil], rfl⟩
  | cons a rest ih =>
    obtain ⟨next, first, more⟩ := Option.bind_eq_some_iff.mp run
    obtain ⟨here, later⟩ := fits
    rw [first] at later
    rw [handled, first, Table.fitsAll_append] at suits
    obtain ⟨now, others⟩ := suits
    have suitsHere : ∀ q ∈ s.handles fuel a,
        ((log.map Handled.query).foldl Table.step S).Fits s.engine fuel q := by
      intro q handles
      rw [Option.mem_def.mp handles] at now
      exact (Table.fitsAll_cons.mp now).1
    obtain ⟨log₁, logged₁, queries₁⟩ := logged.step known first suitsHere
    have sound₁ := sound_step sound first here
    rw [← List.foldl_append] at others
    obtain ⟨known₂, log₂, logged₂, queries₂⟩ := ih logged₁ (known.step sound first here) sound₁ later
      (by
        rw [List.map_append, queries₁]
        simpa [Function.comp_def] using others) more
    rw [calls_cons first, ← List.append_assoc]
    refine ⟨known₂, log₁ ++ log₂, by rwa [← List.append_assoc], ?_⟩
    rw [List.map_append, queries₁, queries₂, handled, first, List.map_append, List.map_map]
    simp [Function.comp_def]

omit [Fintype ι] [DecidableEq ι] in
theorem le_of_mem_calls {next : Nat} {actions : List (Action ι)} {x : Nat × ι × UInt32 × ClientQuery}
    (member : x ∈ calls next actions) : next ≤ x.1 := by
  induction actions generalizing next with
  | nil => cases member
  | cons a rest ih =>
    cases a with
    | request i id call =>
      rcases List.mem_cons.mp member with rfl | later
      · exact le_rfl
      · exact (Nat.le_succ next).trans (ih later)
    | push | pop | putBack | accept | handle | answer => exact ih member

theorem perform_append {before after : List (Action ι)} :
    s.perform fuel (before ++ after) = (s.perform fuel before).bind fun s' => s'.perform fuel after := by
  induction before generalizing s with
  | nil => rfl
  | cons a rest ih =>
    rw [List.cons_append, perform, perform, Option.bind_assoc]
    exact congrArg _ (funext fun s' => ih)

theorem FitsRun.of_append {before after : List (Action ι)} (fits : s.FitsRun fuel (before ++ after)) :
    s.FitsRun fuel before := by
  induction before generalizing s with
  | nil => trivial
  | cons a rest ih =>
    obtain ⟨here, later⟩ := fits
    refine ⟨here, ?_⟩
    cases next : s.step fuel a with
    | none => trivial
    | some s' =>
      rw [next] at later
      exact ih later

/-- Answers that were given stay. -/
theorem perform_answered {actions : List (Action ι)} (run : s.perform fuel actions = some s') :
    ∃ more, s'.answered = s.answered ++ more := by
  induction actions generalizing s with
  | nil =>
    obtain rfl := Option.some.inj run
    exact ⟨[], (List.append_nil _).symm⟩
  | cons a rest ih =>
    obtain ⟨next, first, later⟩ := Option.bind_eq_some_iff.mp run
    obtain ⟨more, answered⟩ := ih later
    have here : ∃ more, next.answered = s.answered ++ more := by
      by_cases isHandle : ∃ timestamp, a = .handle timestamp
      · obtain ⟨timestamp, rfl⟩ := isHandle
        cases stands : s.server <;> simp only [step, stands, reduceCtorEq] at first
        next request =>
          cases answer : respond fuel s.engine timestamp request.2 with
          | none =>
            rw [answer] at first
            rw [← Option.some.inj first]
            exact ⟨[], (List.append_nil _).symm⟩
          | some r =>
            rw [answer] at first
            rw [← Option.some.inj first]
            exact ⟨_, rfl⟩
      · push Not at isHandle
        exact ⟨[], by rw [((step_same first).2 isHandle).1, List.append_nil]⟩
    obtain ⟨more', answered'⟩ := here
    exact ⟨more' ++ more, by rw [answered, answered', List.append_assoc]⟩

/-- The calls that have returned at some time are of the part of the log that is answered by then. -/
theorem Logged.inTime (logged : Logged S made s' log) {actions before after : List (Action ι)} {s₁ : Exchange ι capacity}
    (sound : RequestReply.Sound Carries Tells s.view) (fits : s.FitsRun fuel actions)
    (run : s.perform fuel actions = some s') (cut : actions = before ++ after)
    (run₁ : s.perform fuel before = some s₁) :
    ∃ earlier later, log = earlier ++ later ∧ (∀ r ∈ s₁.received, r.ticket ∈ earlier.map Handled.ticket) ∧
      ∀ x ∈ calls s₁.next after, x.1 ∉ earlier.map Handled.ticket := by
  subst cut
  have sound₁ := perform_sound sound fits.of_append run₁
  rw [perform_append, run₁, Option.bind_some] at run
  obtain ⟨more, answered⟩ := perform_answered run
  rw [logged.answered] at answered
  obtain ⟨earlier, later, rfl, front, -⟩ := List.map_eq_append_iff.mp answered
  have tickets : earlier.map Handled.ticket = s₁.answered.map Prod.fst := by
    rw [← front, List.map_map]
    rfl
  refine ⟨earlier, later, rfl, fun r isReceived => ?_, fun x member early => ?_⟩
  · rw [tickets, ← (sound₁.own r isReceived).1]
    exact List.mem_map_of_mem (sound₁.taken_mem_answered isReceived)
  · rw [tickets] at early
    obtain ⟨y, isAnswered, same⟩ := List.mem_map.mp early
    have before : y.1 < s₁.next := sound₁.lt_of_mem_answered isAnswered
    have after := le_of_mem_calls member
    omega

omit [DecidableEq ι] in
theorem Logged.received (logged : Logged S made s log) (known : Made made s)
    (sound : RequestReply.Sound Carries Tells s.view)
    {r : RequestReply.Receipt ι UInt32 (List UInt8)} (isReceived : r ∈ s.received) :
    ∃ x ∈ log, r.taken = x.answer ∧ r.ticket = x.ticket ∧ r.id = x.id ∧
      (x.ticket, r.client, x.id, x.call) ∈ made := by
  have answered : r.taken ∈ s.answered := sound.taken_mem_answered isReceived
  rw [logged.answered] at answered
  obtain ⟨x, inLog, taken⟩ := List.mem_map.mp answered
  have own : r.taken.1 = r.ticket := (sound.own r isReceived).1
  have ticket : r.ticket = x.ticket := by
    rw [← own, ← taken]
    rfl
  obtain ⟨i, isMade⟩ := logged.isMade x inLog
  obtain ⟨call, isOwn⟩ := known.received r isReceived
  have same := List.inj_on_of_nodup_map known.apart isOwn isMade ticket
  obtain ⟨-, rfl, isID, isCall⟩ : r.ticket = x.ticket ∧ r.client = i ∧ r.id = x.id ∧ call = x.call := by
    simpa using same
  exact ⟨x, inLog, taken.symm, ticket, isID, isMade⟩

end Exchange

end Database

end MiyaCore
