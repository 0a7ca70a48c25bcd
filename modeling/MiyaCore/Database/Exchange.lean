import Mathlib.Algebra.BigOperators.Group.Finset.Basic
import Mathlib.Algebra.Order.Group.Multiset
import Mathlib.Tactic.Abel
import MiyaCore.BoundedQueue
import MiyaCore.RequestReply
import MiyaCore.Database.Survival

/-!
# Clients and the server

Any number of clients share a buffer of requests and a buffer of responses with the server. A step
is what a thread does up to its next access to a buffer.
-/

namespace MiyaCore
open Bson

namespace Database

/-- The calls of a client. Twenty bytes of the key are read; the registry index is a `short`. -/
inductive ClientQuery where
  | get (rawKey : List.Vector UInt8 20) (index : Int16)
  | add (rawKey : List.Vector UInt8 20) (rawValue : List UInt8) (index : Int16)
  | remove (rawKey : List.Vector UInt8 20) (index : Int16)
deriving DecidableEq

/-- `queryJson`, whose fields are kept in the order of their names. -/
def ClientQuery.document (id : UInt32) : ClientQuery → Document
  | get rawKey index =>
    [(queryID, .integer id.toNat), (key, .binary rawKey.toList), (query, .integer 2),
      (registryIndex, .integer index.toInt)]
  | add rawKey rawValue index =>
    [(queryID, .integer id.toNat), (key, .binary rawKey.toList), (query, .integer 1),
      (registryIndex, .integer index.toInt), (value, .binary rawValue)]
  | remove rawKey index =>
    [(queryID, .integer id.toNat), (key, .binary rawKey.toList), (query, .integer 4),
      (registryIndex, .integer index.toInt)]

/-- The value of an `add` has a length of 31 bits, as it is written. -/
def ClientQuery.Short : ClientQuery → Prop
  | add _ rawValue _ => rawValue.length < 2 ^ 31
  | _ => True

instance : (call : ClientQuery) → Decidable call.Short
  | .add _ rawValue _ => inferInstanceAs (Decidable (rawValue.length < 2 ^ 31))
  | .get .. | .remove .. => isTrue trivial

/-- `responseJson`. -/
def Response.document (r : Response) : Document :=
  (Database.queryID, .integer r.queryID.toNat) :: (Database.status, .integer r.status) ::
    r.value.toList.map fun v => (Database.value, .binary v)

/-- What is read of the body of a segment: its length is kept in 16 bits. -/
def segment (body : List UInt8) : List UInt8 := body.take (body.length % 2 ^ 16)

/-- Whether a response has the query ID of a client; one that is no document throws. -/
def answersTo (id : UInt32) (raw : List UInt8) : Option Bool :=
  (read raw).map fun d => d.get queryID = some (.integer id.toNat)

/-- Where a client stands in a call: before its request is pushed, before it pops a response, before it
pushes one back that is not its own; or its call has thrown. -/
inductive Client where
  | idle
  | asking (ticket : Nat) (id : UInt32) (raw : List UInt8)
  | awaiting (ticket : Nat) (id : UInt32)
  | holding (ticket : Nat) (id : UInt32) (other : Nat × List UInt8)
  | thrown (ticket : Nat) (id : UInt32)
deriving DecidableEq

/-- Where the server stands in its loop. -/
inductive Server where
  | idle
  | handling (request : Nat × List UInt8)
  | answering (response : Nat × List UInt8)
  | gone
deriving DecidableEq

/-- The ticket and the query ID of a request that has not returned. -/
def Client.outstanding : Client → Option (Nat × UInt32)
  | idle => none
  | asking ticket id _ | awaiting ticket id | holding ticket id _ | thrown ticket id => some (ticket, id)

variable {ι : Type} {capacity : Nat}

/-- The clients, the server and the segments between them. Tickets number the requests, and the responses
with them; what was answered and received is kept. -/
structure Exchange (ι : Type) (capacity : Nat) where
  requests : BoundedQueue (Nat × List UInt8) capacity := .empty
  responses : BoundedQueue (Nat × List UInt8) capacity := .empty
  client : ι → Client := fun _ => .idle
  server : Server := .idle
  engine : MMyISAM
  next : Nat := 0
  answered : List (Nat × List UInt8) := []
  received : List (RequestReply.Receipt ι UInt32 (List UInt8)) := []

inductive Action (ι : Type) where
  | request (i : ι) (id : UInt32) (call : ClientQuery)
  | push (i : ι)
  | pop (i : ι)
  | putBack (i : ι)
  | accept
  | handle (timestamp : Nat)
  | answer

namespace Exchange

variable [Fintype ι] [DecidableEq ι]

/-- One step. A client draws a query ID that no request has which has not returned. -/
def step (fuel : Nat) (s : Exchange ι capacity) : Action ι → Option (Exchange ι capacity)
  | .request i id call =>
    match s.client i with
    | .idle =>
      if ∀ j, (s.client j).outstanding.map Prod.snd ≠ some id then
        some { s with client := Function.update s.client i (.asking s.next id (segment (write (call.document id)))),
                      next := s.next + 1 }
      else none
    | _ => none
  | .push i =>
    match s.client i with
    | .asking ticket id raw =>
      (s.requests.push (ticket, raw)).map fun q =>
        { s with requests := q, client := Function.update s.client i (.awaiting ticket id) }
    | _ => none
  | .pop i =>
    match s.client i with
    | .awaiting ticket id =>
      s.responses.pop.map fun r =>
        match answersTo id r.1.2 with
        | none =>
          { s with responses := r.2, client := Function.update s.client i (.thrown ticket id) }
        | some false =>
          { s with responses := r.2, client := Function.update s.client i (.holding ticket id r.1) }
        | some true =>
          { s with responses := r.2, client := Function.update s.client i .idle,
                   received := s.received ++ [⟨i, ticket, id, r.1⟩] }
    | _ => none
  | .putBack i =>
    match s.client i with
    | .holding ticket id other =>
      (s.responses.push other).map fun q =>
        { s with responses := q, client := Function.update s.client i (.awaiting ticket id) }
    | _ => none
  | .accept =>
    match s.server with
    | .idle => s.requests.pop.map fun r => { s with requests := r.2, server := .handling r.1 }
    | _ => none
  | .handle timestamp =>
    match s.server with
    | .handling request =>
      match respond fuel s.engine timestamp request.2 with
      | none => some { s with server := .gone }
      | some (r, e) =>
        let response := (request.1, segment (write r.document))
        some { s with server := .answering response, engine := e, answered := s.answered ++ [response] }
    | _ => none
  | .answer =>
    match s.server with
    | .answering response => (s.responses.push response).map fun q => { s with responses := q, server := .idle }
    | _ => none

/-- Steps one after the other. -/
def perform (fuel : Nat) (s : Exchange ι capacity) : List (Action ι) → Option (Exchange ι capacity)
  | [] => some s
  | a :: rest => (s.step fuel a).bind fun s' => s'.perform fuel rest

/-- Whether the answer that the server is to give fits into a segment. -/
def answerFits (fuel : Nat) (s : Exchange ι capacity) (timestamp : Nat) : Bool :=
  match s.server with
  | .handling request => (respond fuel s.engine timestamp request.2).all fun r => (write r.1.document).length < 2 ^ 16
  | _ => true

/-- A step whose documents have the lengths that are written for them. -/
def Fits (fuel : Nat) (s : Exchange ι capacity) : Action ι → Prop
  | .request _ _ call => call.Short
  | .handle timestamp => s.answerFits fuel timestamp
  | _ => True

/-- Every step of a run fits, in the state it is made in. -/
def FitsRun (fuel : Nat) (s : Exchange ι capacity) : List (Action ι) → Prop
  | [] => True
  | a :: rest => s.Fits fuel a ∧ (match s.step fuel a with | none => True | some s' => s'.FitsRun fuel rest)

instance (fuel : Nat) (s : Exchange ι capacity) : (a : Action ι) → Decidable (s.Fits fuel a)
  | .request _ _ call => inferInstanceAs (Decidable call.Short)
  | .handle timestamp => inferInstanceAs (Decidable (s.answerFits fuel timestamp = true))
  | .push _ | .pop _ | .putBack _ | .accept | .answer => isTrue trivial

instance (fuel : Nat) : (actions : List (Action ι)) → (s : Exchange ι capacity) →
    Decidable (s.FitsRun fuel actions)
  | [], _ => isTrue trivial
  | a :: rest, s =>
    match next : s.step fuel a with
    | none => decidable_of_iff (s.Fits fuel a) (by simp [FitsRun, next])
    | some s' =>
      have := instDecidableFitsRun fuel rest s'
      decidable_of_iff (s.Fits fuel a ∧ s'.FitsRun fuel rest) (by simp [FitsRun, next])

end Exchange

theorem segment_small {body : List UInt8} (small : body.length < 2 ^ 16) : segment body = body := by
  rw [segment, Nat.mod_eq_of_lt small, List.take_length]

/-- A document that does not fit into a segment is cut there, and is none. -/
theorem read_segment_cut {d : Document} (writable : ∀ f ∈ d, Writable f) (long : 2 ^ 16 ≤ (write d).length) :
    read (segment (write d)) = none := by
  have shorter : (write d).length % 2 ^ 16 < (write d).length := by omega
  exact read_cut (read_write writable) (List.take_append_drop ((write d).length % 2 ^ 16) (write d)).symm
    (by simpa [List.drop_eq_nil_iff] using shorter)

/-- A segment with a document in it has the whole document. -/
theorem read_segment {d d' : Document} (writable : ∀ f ∈ d, Writable f)
    (reads : read (segment (write d)) = some d') :
    d' = d := by
  by_cases small : (write d).length < 2 ^ 16
  · rw [segment_small small, read_write writable] at reads
    exact (Option.some.inj reads).symm
  · cases (read_segment_cut writable (Nat.le_of_not_lt small)).symm.trans reads

theorem writable_integer {f : List UInt8} {n : Int} (name : 0 ∉ f) (low : -2 ^ 63 ≤ n)
    (high : n < 2 ^ 63) : Writable (f, .integer n) :=
  ⟨name, low, high⟩

theorem writable_id {f : List UInt8} (name : 0 ∉ f) (id : UInt32) : Writable (f, .integer id.toNat) := by
  have bound := id.toNat_lt
  exact writable_integer name (by omega) (by omega)

theorem writable_index {f : List UInt8} (name : 0 ∉ f) (index : Int16) :
    Writable (f, .integer index.toInt) := by
  have low := index.le_toInt
  have high := index.toInt_lt
  exact writable_integer name (by omega) (by omega)

theorem writable_key {f : List UInt8} (name : 0 ∉ f) (rawKey : List.Vector UInt8 20) :
    Writable (f, .binary rawKey.toList) :=
  ⟨name, by simp⟩

theorem ClientQuery.writable {id : UInt32} {call : ClientQuery} (short : call.Short) :
    ∀ f ∈ call.document id, Writable f := by
  cases call with
  | get rawKey index =>
    simp only [document, List.forall_mem_cons]
    exact ⟨writable_id (by decide) id, writable_key (by decide) rawKey, writable_integer (by decide)
      (by decide) (by decide), writable_index (by decide) index, nofun⟩
  | add rawKey rawValue index =>
    simp only [document, List.forall_mem_cons]
    exact ⟨writable_id (by decide) id, writable_key (by decide) rawKey, writable_integer (by decide)
      (by decide) (by decide), writable_index (by decide) index, ⟨(by decide : 0 ∉ value), short⟩, nofun⟩
  | remove rawKey index =>
    simp only [document, List.forall_mem_cons]
    exact ⟨writable_id (by decide) id, writable_key (by decide) rawKey, writable_integer (by decide)
      (by decide) (by decide), writable_index (by decide) index, nofun⟩

theorem ClientQuery.get_queryID (id : UInt32) (call : ClientQuery) :
    (call.document id).get queryID = some (.integer id.toNat) := by
  cases call <;> rfl

theorem Response.get_queryID (r : Response) :
    r.document.get Database.queryID = some (.integer r.queryID.toNat) := by
  obtain ⟨id, status, value⟩ := r
  cases value <;> rfl

/-- An answer has the query ID of its query, and one of three statuses. -/
theorem dispatch_response {fuel : Nat} {e e' : MMyISAM} {timestamp : Nat} {q : QueryContext} {r : Response}
    (run : dispatch fuel e timestamp q = some (r, e')) : r.queryID = q.id ∧ -1 ≤ r.status ∧ r.status ≤ 1 := by
  have flagged : ∀ flag : MMyISAM × Bool, (flagStatus q flag).1.queryID = q.id ∧
    -1 ≤ (flagStatus q flag).1.status ∧
      (flagStatus q flag).1.status ≤ 1 := by
    rintro ⟨after, flag⟩
    cases flag <;> simp [flagStatus]
  rw [dispatch] at run
  split_ifs at run
  · obtain ⟨rfl, -⟩ := Prod.mk.inj (Option.some.inj run)
    simp
  · obtain ⟨⟨after, flag⟩, -, told⟩ := Option.map_eq_some_iff.mp run
    cases flag <;> (obtain ⟨rfl, -⟩ := Prod.mk.inj told; simp)
  · obtain ⟨found, -, told⟩ := Option.map_eq_some_iff.mp run
    cases found <;> (obtain ⟨rfl, -⟩ := Prod.mk.inj told; simp)
  · obtain ⟨flag, -, told⟩ := Option.map_eq_some_iff.mp run
    simpa [told] using flagged flag
  · obtain ⟨flag, -, told⟩ := Option.map_eq_some_iff.mp run
    simpa [told] using flagged flag
  · simpa [Option.some.inj run] using flagged (e.safeAbortExit q.registryIndex)

theorem length_element_le {d : Document} {f : List UInt8 × Value} (member : f ∈ d) :
    (element f).length ≤ (write d).length := by
  obtain ⟨before, after, rfl⟩ := List.append_of_mem member
  simp only [write, List.flatMap_append, List.flatMap_cons, List.length_append]
  omega

/-- An answer that fits into a segment is written as it is read. -/
theorem Response.writable {r : Response} (low : -1 ≤ r.status) (high : r.status ≤ 1)
    (small : (write r.document).length < 2 ^ 16) :
    ∀ f ∈ r.document, Writable f := by
  intro f member
  have size := length_element_le member
  rcases List.mem_cons.mp member with rfl | member
  · exact writable_id (by decide) r.queryID
  · rcases List.mem_cons.mp member with rfl | member
    · exact writable_integer (by decide) (by omega) (by omega)
    · obtain ⟨v, -, rfl⟩ := List.mem_map.mp member
      refine ⟨(by decide : 0 ∉ Database.value), show v.length < 2 ^ 31 from ?_⟩
      simp only [element, List.length_cons, List.length_append] at size
      omega

/-- The segment of a request with this query ID. -/
def Carries (id : UInt32) (raw : List UInt8) : Prop :=
  ∃ call : ClientQuery, call.Short ∧ raw = segment (write (call.document id))

/-- The segment of a response with this query ID. -/
def Tells (id : UInt32) (raw : List UInt8) : Prop := answersTo id raw = some true

theorem tells_unique (id id' : UInt32) (raw : List UInt8) (left : Tells id raw)
    (right : Tells id' raw) : id = id' := by
  obtain ⟨d, reads, told⟩ := Option.map_eq_some_iff.mp left
  obtain ⟨d', reads', told'⟩ := Option.map_eq_some_iff.mp right
  obtain rfl := Option.some.inj (reads.symm.trans reads')
  simp only [decide_eq_true_eq] at told told'
  have same : (id.toNat : Int) = id'.toNat := by simpa using told.symm.trans told'
  exact UInt32.toNat_inj.mp (by omega)

/-- The answer to a request tells the query ID of the request. -/
theorem tells_of_respond {fuel : Nat} {e e' : MMyISAM} {timestamp : Nat} {id : UInt32}
    {raw : List UInt8} {r : Response} (carries : Carries id raw)
    (run : respond fuel e timestamp raw = some (r, e')) (small : (write r.document).length < 2 ^ 16) :
    Tells id (segment (write r.document)) := by
  obtain ⟨call, short, rfl⟩ := carries
  rw [respond] at run
  obtain ⟨qctx, parsed, run⟩ := Option.bind_eq_some_iff.mp run
  cases qctx with
  | none => simp [failureSB] at run
  | some q =>
    obtain ⟨d, reads, parses⟩ := parseQuery_eq_some.mp parsed
    obtain rfl := read_segment (ClientQuery.writable short) reads
    obtain ⟨v, numbered, isID⟩ := parses.queryID
    rw [ClientQuery.get_queryID] at numbered
    obtain rfl := Option.some.inj numbered
    obtain ⟨own, low, high⟩ := dispatch_response run
    have same : q.id = id := by
      have bound := id.toNat_lt
      have whole : ((id.toNat : Int) % 2 ^ 32).toNat = id.toNat := by omega
      simp only [toUInt32, convert, Int.sub_zero, Int.add_zero, Option.map_some, whole,
        UInt32.ofNat_toNat] at isID
      exact (Option.some.inj isID).symm
    rw [Tells, answersTo, segment_small small, read_write (Response.writable low high small)]
    simp [Response.get_queryID, own, same]

/-- The request in the hand of a client, and the one in the hand of the server. -/
def Client.asked : Client → Multiset (Nat × List UInt8)
  | asking ticket _ raw => {(ticket, raw)}
  | _ => 0

def Server.asked : Server → Multiset (Nat × List UInt8)
  | handling request => {request}
  | _ => 0

/-- The response in the hand of a client, and the one in the hand of the server. -/
def Client.flying : Client → Multiset (Nat × List UInt8)
  | holding _ _ other => {other}
  | _ => 0

def Server.flying : Server → Multiset (Nat × List UInt8)
  | answering response => {response}
  | _ => 0

namespace Exchange

variable [Fintype ι] [DecidableEq ι] {s s' : Exchange ι capacity} {fuel : Nat}

/-- The requests and the responses, wherever they are. -/
def view (s : Exchange ι capacity) : RequestReply.World ι UInt32 (List UInt8) (List UInt8) where
  outstanding i := (s.client i).outstanding
  asked := s.requests.items + s.server.asked + ∑ i, (s.client i).asked
  flying := s.responses.items + s.server.flying + ∑ i, (s.client i).flying
  next := s.next
  answered := s.answered
  received := s.received

theorem sum_update {σ : Type} (f : Client → Multiset σ) (client : ι → Client) (i : ι) (c : Client) :
    ∑ j, f (Function.update client i c j) + f (client i) = ∑ j, f (client j) + f c := by
  have before := Finset.add_sum_erase Finset.univ (fun j => f (client j)) (Finset.mem_univ i)
  have after := Finset.add_sum_erase Finset.univ (fun j => f (Function.update client i c j)) (Finset.mem_univ i)
  have same : ∑ j ∈ Finset.univ.erase i, f (Function.update client i c j) = ∑ j ∈ Finset.univ.erase i,
    f (client j) := by
    refine Finset.sum_congr rfl fun j other => ?_
    rw [Function.update_of_ne (Finset.ne_of_mem_erase other)]
  rw [Function.update_self] at after
  rw [← before, ← after, same]
  abel

/-- What one client gains or loses, all of them do. -/
theorem sum_shift {σ : Type} (f : Client → Multiset σ) {client : ι → Client} {i : ι} {c : Client}
    {before after : Multiset σ} (lost gained : Multiset σ)
    (moved : after + f c + lost = before + f (client i) + gained) :
    after + ∑ j, f (Function.update client i c j) + lost = before + ∑ j, f (client j) + gained := by
  refine add_right_cancel (b := f (client i)) ?_
  have total := sum_update f client i c
  calc after + ∑ j, f (Function.update client i c j) + lost + f (client i)
      = after + lost + (∑ j, f (Function.update client i c j) + f (client i)) := by abel
    _ = after + f c + lost + ∑ j, f (client j) := by rw [total]; abel
    _ = before + ∑ j, f (client j) + gained + f (client i) := by rw [moved]; abel

omit [Fintype ι] in
theorem outstanding_update (client : ι → Client) (i : ι) (c : Client) :
    (fun j => (Function.update client i c j).outstanding) = Function.update
      (fun j => (client j).outstanding) i c.outstanding := by
  funext j
  by_cases same : j = i
  · simp [same]
  · simp [same]

/-- A step of a client that only moves a segment leaves the requests and the responses as they are. -/
theorem view_eq {requests responses : BoundedQueue (Nat × List UInt8) capacity} {i : ι} {c : Client}
    (out : c.outstanding = (s.client i).outstanding)
    (asked : (requests.items : Multiset (Nat × List UInt8)) + s.server.asked + c.asked =
      s.requests.items + s.server.asked + (s.client i).asked)
    (flying : (responses.items : Multiset (Nat × List UInt8)) + s.server.flying + c.flying =
      s.responses.items + s.server.flying + (s.client i).flying) :
    view { s with requests := requests, responses := responses, client := Function.update s.client i c } =
      s.view := by
  have askedSame := sum_shift Client.asked 0 0 (by simpa using asked)
  have flyingSame := sum_shift Client.flying 0 0 (by simpa using flying)
  simp only [add_zero] at askedSame flyingSame
  simp only [view, askedSame, flyingSame, outstanding_update, out]
  rw [Function.update_eq_self]

/-- A client that asks under a new query ID. -/
theorem step_request {i : ι} {id : UInt32} {raw : List UInt8} (idle : s.client i = .idle)
    (free : ∀ j, (s.client j).outstanding.map Prod.snd ≠ some id) (carries : Carries id raw) :
    RequestReply.Step Carries Tells s.view
      (view { s with client := Function.update s.client i (.asking s.next id raw), next := s.next + 1 }) := by
  have asked := sum_shift Client.asked 0 {(s.next, raw)}
    (show (s.requests.items : Multiset (Nat × List UInt8)) + s.server.asked +
      Client.asked (.asking s.next id raw) + 0 =
      s.requests.items + s.server.asked + (s.client i).asked + {(s.next, raw)} by simp [idle, Client.asked])
  have flying := sum_shift Client.flying 0 0
    (show (s.responses.items : Multiset (Nat × List UInt8)) + s.server.flying +
      Client.flying (.asking s.next id raw) + 0 =
      s.responses.items + s.server.flying + (s.client i).flying + 0 by simp [idle, Client.flying])
  rw [add_zero, add_comm _ {(s.next, raw)}, Multiset.singleton_add] at asked
  rw [add_zero, add_zero] at flying
  have next : RequestReply.Step Carries Tells s.view _ :=
    .ask i id raw (by simp [view, idle, Client.outstanding])
    (fun j t waits => free j (by simpa [view] using congrArg (Option.map Prod.snd) waits)) carries
  convert next using 1
  simp only [view, asked, flying, outstanding_update]
  rfl

/-- A client that takes the response with its query ID. -/
theorem step_take {i : ι} {ticket : Nat} {id : UInt32} {x : Nat × List UInt8}
    {responses : BoundedQueue (Nat × List UInt8) capacity}
    (awaits : s.client i = .awaiting ticket id) (popped : s.responses.items = x :: responses.items)
    (told : Tells id x.2) :
    RequestReply.Step Carries Tells s.view
      (view { s with responses := responses, client := Function.update s.client i .idle,
                     received := s.received ++ [⟨i, ticket, id, x⟩] }) := by
  have asked := sum_shift Client.asked 0 0
    (show (s.requests.items : Multiset (Nat × List UInt8)) + s.server.asked + Client.asked .idle + 0 =
      s.requests.items + s.server.asked + (s.client i).asked + 0 by simp [awaits, Client.asked])
  have flying := sum_shift Client.flying {x} 0
    (show (responses.items : Multiset (Nat × List UInt8)) + s.server.flying + Client.flying .idle + {x} =
      s.responses.items + s.server.flying + (s.client i).flying + 0 by
      rw [awaits, popped, ← Multiset.cons_coe, ← Multiset.singleton_add]
      simp only [Client.flying]
      abel)
  rw [add_zero, add_zero] at asked
  rw [add_zero, add_comm _ ({x} : Multiset (Nat × List UInt8)), Multiset.singleton_add] at flying
  have next : RequestReply.Step Carries Tells s.view _ :=
    .take i ticket id x _ (by simp [view, awaits, Client.outstanding]) flying.symm told
  convert next using 1
  simp only [view, asked, outstanding_update]
  rfl

/-- A step of the threads moves a segment, or is one of requests and replies. -/
theorem view_step {a : Action ι} (run : s.step fuel a = some s') (fits : s.Fits fuel a)
    (sound : RequestReply.Sound Carries Tells s.view) :
    s'.view = s.view ∨ RequestReply.Step Carries Tells s.view s'.view := by
  cases a with
  | request i id call =>
    cases stands : s.client i <;> simp only [step, stands, reduceCtorEq] at run
    split_ifs at run with free
    obtain rfl := Option.some.inj run
    exact Or.inr (step_request stands free ⟨call, fits, rfl⟩)
  | push i =>
    cases stands : s.client i <;> simp only [step, stands, reduceCtorEq] at run
    obtain ⟨q, pushed, rfl⟩ := Option.map_eq_some_iff.mp run
    left
    refine view_eq (by rw [stands]; rfl) ?_ (by rw [stands]; rfl)
    rw [stands, BoundedQueue.items_of_push pushed, ← Multiset.coe_add]
    simp only [Client.asked, Multiset.coe_singleton]
    abel
  | pop i =>
    cases stands : s.client i <;> simp only [step, stands, reduceCtorEq] at run
    obtain ⟨⟨x, q⟩, popped, rfl⟩ := Option.map_eq_some_iff.mp run
    have items := BoundedQueue.items_of_pop popped
    have member : x ∈ s.view.flying := by
      simp only [view, Multiset.mem_add, Multiset.mem_coe, items]
      exact Or.inl (Or.inl List.mem_cons_self)
    obtain ⟨-, id', -, told⟩ := sound.flying x member
    obtain ⟨d, reads, -⟩ := Option.map_eq_some_iff.mp told
    dsimp only
    cases answers : answersTo _ x.2 with
    | none => simp [answersTo, reads] at answers
    | some own =>
      cases own with
      | true => exact Or.inr (step_take stands items answers)
      | false =>
        left
        refine view_eq (by rw [stands]; rfl) (by rw [stands]; rfl) ?_
        rw [stands, items, ← Multiset.cons_coe, ← Multiset.singleton_add]
        simp only [Client.flying]
        abel
  | putBack i =>
    cases stands : s.client i <;> simp only [step, stands, reduceCtorEq] at run
    obtain ⟨q, pushed, rfl⟩ := Option.map_eq_some_iff.mp run
    left
    refine view_eq (by rw [stands]; rfl) (by rw [stands]; rfl) ?_
    rw [stands, BoundedQueue.items_of_push pushed, ← Multiset.coe_add]
    simp only [Client.flying, Multiset.coe_singleton]
    abel
  | accept =>
    cases stands : s.server <;> simp only [step, stands, reduceCtorEq] at run
    obtain ⟨⟨x, q⟩, popped, rfl⟩ := Option.map_eq_some_iff.mp run
    left
    simp only [view, stands, BoundedQueue.items_of_pop popped, Server.asked, Server.flying,
      ← Multiset.cons_coe, ← Multiset.singleton_add]
    congr 1
    abel
  | handle timestamp =>
    cases stands : s.server <;> simp only [step, stands, reduceCtorEq] at run
    next request =>
      right
      have asked : s.view.asked = request ::ₘ (s.requests.items + ∑ i, (s.client i).asked) := by
        simp only [view, stands, Server.asked, ← Multiset.singleton_add]
        abel
      cases answer : respond fuel s.engine timestamp request.2 with
      | none =>
        rw [answer] at run
        obtain rfl := Option.some.inj run
        have next : RequestReply.Step Carries Tells s.view _ := .drop request _ asked
        convert next using 1
        simp only [view, stands, Server.asked, Server.flying, add_zero]
      | some r =>
        rw [answer] at run
        obtain rfl := Option.some.inj run
        have small : (write r.1.document).length < 2 ^ 16 := by
          have fits' : s.answerFits fuel timestamp = true := fits
          rw [answerFits, stands] at fits'
          dsimp only at fits'
          rw [answer, Option.all_some] at fits'
          exact of_decide_eq_true fits'
        have next : RequestReply.Step Carries Tells s.view _ :=
          .answer request.1 request.2 (segment (write r.1.document)) _ asked
          fun id carries => tells_of_respond carries answer small
        convert next using 1
        simp only [view, stands, Server.asked, Server.flying, add_zero, ← Multiset.singleton_add]
        congr 1
        abel
  | answer =>
    cases stands : s.server <;> simp only [step, stands, reduceCtorEq] at run
    obtain ⟨q, pushed, rfl⟩ := Option.map_eq_some_iff.mp run
    left
    simp only [view, stands, BoundedQueue.items_of_push pushed, Server.asked, Server.flying,
      ← Multiset.coe_add, Multiset.coe_singleton]
    congr 1
    abel

/-- A run whose steps fit keeps requests and replies sound. -/
theorem perform_sound {actions : List (Action ι)} (sound : RequestReply.Sound Carries Tells s.view)
    (fits : s.FitsRun fuel actions) (run : s.perform fuel actions = some s') :
    RequestReply.Sound Carries Tells s'.view := by
  induction actions generalizing s with
  | nil =>
    obtain rfl := Option.some.inj run
    exact sound
  | cons a rest ih =>
    obtain ⟨next, first, more⟩ := Option.bind_eq_some_iff.mp run
    obtain ⟨here, later⟩ := fits
    rw [first] at later
    refine ih ?_ later more
    rcases view_step first here sound with same | step
    · rwa [same]
    · exact sound.step tells_unique step

/-- In every run of any clients and the server whose answers fit into their segments, each client that returned
took the response to its own request, and no response is lost or there twice. -/
theorem perform_matched (fuel capacity : Nat) (engine : MMyISAM) (actions : List (Action ι))
    (s : Exchange ι capacity) (fits : FitsRun fuel ({ engine } : Exchange ι capacity) actions)
    (run : perform fuel ({ engine } : Exchange ι capacity) actions = some s) :
    RequestReply.Matched Tells s.view := by
  have sound : RequestReply.Sound Carries Tells (view ({ engine } : Exchange ι capacity)) := by
    convert RequestReply.sound_start using 1
    simp [view, BoundedQueue.empty, Server.asked, Server.flying, Client.asked, Client.flying,
      Client.outstanding]
  exact (perform_sound sound fits run).matched

/-- Two clients with requests on a session that is not open; each pops the response of the other first. -/
def crossed : List (Action (Fin 2)) :=
  [.request 0 7 (.remove (List.Vector.replicate 20 1) 0),
  .request 1 8 (.get (List.Vector.replicate 20 1) 0), .push 0, .push 1,
    .accept, .handle 5, .answer, .accept, .handle 6, .answer, .pop 1, .pop 0, .putBack 1, .putBack 0,
    .pop 0, .pop 1]

theorem perform_matched_crossed : ∃ s, FitsRun 2 ({ engine := .empty } : Exchange (Fin 2) 20) crossed ∧
    perform 2 ({ engine := .empty } : Exchange (Fin 2) 20) crossed = some s ∧
      RequestReply.Matched Tells s.view := by
  have ends : (perform 2 ({ engine := .empty } : Exchange (Fin 2) 20) crossed).isSome := by decide +kernel
  have fits : FitsRun 2 ({ engine := .empty } : Exchange (Fin 2) 20) crossed := by decide +kernel
  obtain ⟨s, run⟩ := Option.isSome_iff_exists.mp ends
  exact ⟨s, fits, run, perform_matched 2 20 .empty crossed s fits run⟩

/-- A database with one value, of 65536 zeros. -/
def oneLong : MMyISAM where
  normal := (OBtree.create.add 1 0 0).toOption.getD OBtree.create
  values := { data := fun i => if i = 0 then 28 else if i = 14 then 1 else 0, top := 28 + 65536 }

/-- A call of the one client there is, up to where it pops the answer. -/
def single (id : UInt32) (call : ClientQuery) : List (Action (Fin 1)) :=
  [.request 0 id call, .push 0, .accept, .handle 0, .answer, .pop 0]

/-- An answer with a value as long as this does not fit into a segment, and no client can read what is
left of it. -/
theorem answersTo_long {id : UInt32} {v : List UInt8} (size : v.length = 65536) :
    answersTo id (segment (write (⟨id, 1, some v⟩ : Response).document)) = none := by
  have writable : ∀ f ∈ (⟨id, 1, some v⟩ : Response).document, Writable f := by
    intro f member
    simp only [Response.document, Option.toList_some, List.map_cons, List.map_nil, List.mem_cons,
      List.not_mem_nil, or_false] at member
    rcases member with rfl | rfl | rfl
    · exact writable_id (by decide) id
    · exact writable_integer (by decide) (by decide) (by decide)
    · exact ⟨(by decide : 0 ∉ Database.value), show v.length < 2 ^ 31 by rw [size]; decide⟩
  have member : (Database.value, .binary v) ∈ (⟨id, 1, some v⟩ : Response).document := by
    simp [Response.document]
  have inside := length_element_le member
  have least : v.length ≤ (element (Database.value, .binary v)).length := by
    simp only [element, List.length_cons, List.length_append]
    omega
  have long : 2 ^ 16 ≤ (write (⟨id, 1, some v⟩ : Response).document).length := by omega
  rw [answersTo, read_segment_cut writable long]
  rfl

/-- The call for the value. -/
def getLong : ClientQuery := .get (List.Vector.replicate 20 0) (-1)

theorem respond_getLong :
    respond 2 oneLong 0 (segment (write (getLong.document 1))) =
      some (⟨1, 1, some (oneLong.values.get 0)⟩, oneLong) := by
  have parsed : parseQuery (segment (write (getLong.document 1))) =
    some (some ⟨2, 1, some (List.replicate 20 0), none, -1⟩) := by
    decide +kernel
  have found : oneLong.normal.find 2 0 = .ok (some 0) := by decide +kernel
  have isKey : toKey (List.replicate 20 0) = some 0 := by decide +kernel
  have opened : ¬oneLong.Closed (-1) := by decide +kernel
  have allocatable : ∀ v ∈ some (oneLong.values.get 0), Allocatable v.length := by
    intro v member
    rw [← Option.mem_some_iff.mp member, ValueStore.length_get]
    decide +kernel
  have got : oneLong.get 2 (-1) 0 = .ok (some (oneLong.values.get 0)) := by
    rw [MMyISAM.get, if_neg (by decide), found]
    rfl
  have asked : oneLong.getQuery 2 ⟨2, 1, some (List.replicate 20 0), none, -1⟩ = some (some (oneLong.values.get 0)) := by
    rw [MMyISAM.getQuery, if_neg opened, Option.bind_some, isKey, Option.bind_some, got, Except.toOption,
      Option.bind_some, if_pos allocatable]
  rw [respond, parsed, Option.bind_some]
  simp only [dispatch, asked]
  rfl

section

variable {e e' : MMyISAM} {id : UInt32} {call : ClientQuery} {r : Response} {raw : List UInt8}
    {answered : List (Nat × List UInt8)}

theorem update_alone (c c' : Client) : Function.update (fun _ : Fin 1 => c) 0 c' = fun _ => c' := by
  funext i
  rw [Subsingleton.elim i 0, Function.update_self]

theorem single_request : step fuel ({ engine := e } : Exchange (Fin 1) 20) (.request 0 id call) =
    some { engine := e, client := fun _ => .asking 0 id (segment (write (call.document id))), next := 1 } := by
  simp only [step, Client.outstanding, Option.map_none, ne_eq, reduceCtorEq, not_false_eq_true,
    implies_true, if_true, update_alone]

theorem single_push :
    step fuel ({ engine := e, client := fun _ => .asking 0 id raw, next := 1 } : Exchange (Fin 1) 20) (.push 0) =
    some { engine := e, client := fun _ => .awaiting 0 id, next := 1, requests := ⟨[(0, raw)], by simp⟩ } := by
  rw [← update_alone (.asking 0 id raw) (.awaiting 0 id)]
  rfl

theorem single_accept :
    step fuel ({ engine := e, client := fun _ => .awaiting 0 id, next := 1, requests := ⟨[(0, raw)], by simp⟩ } :
        Exchange (Fin 1) 20) .accept =
      some { engine := e, client := fun _ => .awaiting 0 id, next := 1, server := .handling (0, raw) } := by
  rfl

theorem single_handle (answer : respond fuel e 0 raw = some (r, e')) :
    step fuel ({ engine := e, client := fun _ => .awaiting 0 id, next := 1, server := .handling (0, raw) } :
        Exchange (Fin 1) 20) (.handle 0) =
      some { engine := e', client := fun _ => .awaiting 0 id, next := 1,
             server := .answering (0, segment (write r.document)), answered := [(0, segment (write r.document))] } := by
  simp only [step, answer, List.nil_append]

theorem single_answer :
    step fuel ({ engine := e, client := fun _ => .awaiting 0 id, next := 1, server := .answering (0, raw), answered } :
        Exchange (Fin 1) 20) .answer =
      some { engine := e, client := fun _ => .awaiting 0 id, next := 1,
             responses := ⟨[(0, raw)], by simp⟩, answered } := by
  rfl

theorem single_pop (unread : answersTo id raw = none) :
    step fuel ({ engine := e, client := fun _ => .awaiting 0 id, next := 1,
                 responses := ⟨[(0, raw)], by simp⟩, answered } : Exchange (Fin 1) 20)
        (.pop 0) =
      some { engine := e, client := fun _ => .thrown 0 id, next := 1, answered } := by
  simp only [step, BoundedQueue.pop, Option.map_some, unread, update_alone, BoundedQueue.empty]

theorem perform_pushed (answer : respond fuel e 0 raw = some (r, e'))
    (unread : answersTo id (segment (write r.document)) = none) :
    perform fuel ({ engine := e, client := fun _ => .asking 0 id raw, next := 1 } : Exchange (Fin 1) 20)
        [.push 0, .accept, .handle 0, .answer, .pop 0] =
      some { engine := e', client := fun _ => .thrown 0 id, next := 1,
             answered := [(0, segment (write r.document))] } := by
  simp only [perform, single_push, single_accept, single_handle answer, single_answer, single_pop unread,
    Option.bind_some]

/-- The run of a call whose answer cannot be read. -/
theorem perform_single (answer : respond fuel e 0 (segment (write (call.document id))) = some (r, e'))
    (unread : answersTo id (segment (write r.document)) = none) :
    perform fuel ({ engine := e } : Exchange (Fin 1) 20) (single id call) =
      some { engine := e', client := fun _ => .thrown 0 id, next := 1,
             answered := [(0, segment (write r.document))] } := by
  rw [single, perform, single_request, Option.bind_some, perform_pushed answer unread]

end

/-- The value is too long for a segment: the client that pops the answer throws, and the answer is gone. -/
theorem perform_matched_fails : ∃ s, perform 2 ({ engine := oneLong } : Exchange (Fin 1) 20)
    (single 1 getLong) = some s ∧
    s.client 0 = .thrown 0 1 ∧ ¬RequestReply.Matched Tells s.view := by
  have size : (oneLong.values.get 0).length = 65536 := by
    rw [ValueStore.length_get]
    decide +kernel
  refine ⟨_, perform_single respond_getLong (answersTo_long size), rfl, fun matched => ?_⟩
  have lost := congrArg Multiset.card matched.conserved
  simp [view, BoundedQueue.empty, Server.flying, Client.flying] at lost

end Exchange

end Database

end MiyaCore
