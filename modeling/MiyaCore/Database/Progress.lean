import MiyaCore.Database.Exchange

/-!
# Progress

Clients and the server wait for room in a buffer or for a segment in it. As long as the server answers,
they never all wait.
-/

namespace MiyaCore

namespace Database

variable {ι : Type} {capacity : Nat}

namespace Exchange

variable [Fintype ι] [DecidableEq ι] {s s' : Exchange ι capacity} {fuel : Nat}

omit [DecidableEq ι] in
theorem card_asked (s : Exchange ι capacity) : s.view.asked.card =
    s.requests.items.length + s.server.asked.card + (∑ i, (s.client i).asked).card := by
  simp [view]

omit [DecidableEq ι] in
theorem card_flying (s : Exchange ι capacity) : s.view.flying.card =
    s.responses.items.length + s.server.flying.card + (∑ i, (s.client i).flying).card := by
  simp [view]

/-- What one client gains or loses, counted. -/
theorem card_sum_update {σ : Type} (f : Client → Multiset σ) (client : ι → Client) (i : ι) (c : Client) :
    (∑ j, f (Function.update client i c j)).card + (f (client i)).card =
      (∑ j, f (client j)).card + (f c).card := by
  have total := congrArg Multiset.card (sum_update f client i c)
  rwa [Multiset.card_add, Multiset.card_add] at total

/-- A step after which the server is there: each request that was made is asked or answered. -/
theorem step_count {a : Action ι} (run : s.step fuel a = some s') (stays : s'.server ≠ .gone) :
    s.server ≠ .gone ∧ s'.view.asked.card + s'.answered.length + s.next =
      s.view.asked.card + s.answered.length + s'.next := by
  rw [card_asked, card_asked]
  cases a with
  | request i id call =>
    cases stands : s.client i <;> simp only [step, stands, reduceCtorEq] at run
    split_ifs at run
    obtain rfl := Option.some.inj run
    have total := card_sum_update Client.asked s.client i (.asking s.next id (segment (Bson.write (call.document id))))
    rw [stands] at total
    simp only [Client.asked, Multiset.card_zero, Multiset.card_singleton] at total ⊢
    exact ⟨stays, by omega⟩
  | push i =>
    cases stands : s.client i <;> simp only [step, stands, reduceCtorEq] at run
    obtain ⟨q, pushed, rfl⟩ := Option.map_eq_some_iff.mp run
    next ticket id raw =>
      have total := card_sum_update Client.asked s.client i (.awaiting ticket id)
      rw [stands] at total
      simp only [Client.asked, Multiset.card_zero, Multiset.card_singleton, BoundedQueue.items_of_push pushed,
        List.length_append, List.length_singleton] at total ⊢
      exact ⟨stays, by omega⟩
  | pop i =>
    cases stands : s.client i <;> simp only [step, stands, reduceCtorEq] at run
    obtain ⟨⟨x, q⟩, popped, rfl⟩ := Option.map_eq_some_iff.mp run
    next ticket id =>
      have total := card_sum_update Client.asked s.client i
      rw [stands] at total
      cases answers : answersTo id x.2 with
      | none =>
        have same := total (.thrown ticket id)
        simp only [answers, Client.asked, Multiset.card_zero] at same stays ⊢
        exact ⟨stays, by omega⟩
      | some own =>
        cases own with
        | false =>
          have same := total (.holding ticket id x)
          simp only [answers, Client.asked, Multiset.card_zero] at same stays ⊢
          exact ⟨stays, by omega⟩
        | true =>
          have same := total .idle
          simp only [answers, Client.asked, Multiset.card_zero] at same stays ⊢
          exact ⟨stays, by omega⟩
  | putBack i =>
    cases stands : s.client i <;> simp only [step, stands, reduceCtorEq] at run
    obtain ⟨q, pushed, rfl⟩ := Option.map_eq_some_iff.mp run
    next ticket id other =>
      have total := card_sum_update Client.asked s.client i (.awaiting ticket id)
      rw [stands] at total
      simp only [Client.asked, Multiset.card_zero] at total ⊢
      exact ⟨stays, by omega⟩
  | accept =>
    cases stands : s.server <;> simp only [step, stands, reduceCtorEq] at run
    obtain ⟨⟨x, q⟩, popped, rfl⟩ := Option.map_eq_some_iff.mp run
    simp only [BoundedQueue.items_of_pop popped, Server.asked, Multiset.card_zero, Multiset.card_singleton,
      List.length_cons, ne_eq, reduceCtorEq, not_false_eq_true, true_and]
  | handle timestamp =>
    cases stands : s.server <;> simp only [step, stands, reduceCtorEq] at run
    next request =>
      cases answer : respond fuel s.engine timestamp request.2 with
      | none =>
        rw [answer] at run
        obtain rfl := Option.some.inj run
        exact absurd rfl stays
      | some r =>
        rw [answer] at run
        obtain rfl := Option.some.inj run
        simp only [Server.asked, Multiset.card_zero, Multiset.card_singleton, List.length_append,
          List.length_singleton, ne_eq, reduceCtorEq, not_false_eq_true, true_and]
        omega
  | answer =>
    cases stands : s.server <;> simp only [step, stands, reduceCtorEq] at run
    obtain ⟨q, pushed, rfl⟩ := Option.map_eq_some_iff.mp run
    simp [Server.asked]

/-- A run whose steps fit: requests and replies are sound, and while the server is there every request is
asked or answered. No client has thrown. -/
structure Going (s : Exchange ι capacity) : Prop where
  sound : RequestReply.Sound Carries Tells s.view
  waiting : RequestReply.Waiting s.view
  full : s.server ≠ .gone → s.view.asked.card + s.answered.length = s.next
  heard : ∀ i ticket id, s.client i ≠ .thrown ticket id

omit [Fintype ι] in
theorem heard_update {client : ι → Client} (heard : ∀ i ticket id, client i ≠ .thrown ticket id) {c : Client}
    (new : ∀ ticket id, c ≠ .thrown ticket id) (i j : ι) (ticket : Nat) (id : UInt32) :
    Function.update client i c j ≠ .thrown ticket id := by
  by_cases same : j = i
  · subst same
    rw [Function.update_self]
    exact new ticket id
  · rw [Function.update_of_ne same]
    exact heard j ticket id

/-- Every response that a client pops is a document. -/
theorem step_heard {a : Action ι} (sound : RequestReply.Sound Carries Tells s.view)
    (heard : ∀ i ticket id, s.client i ≠ .thrown ticket id) (run : s.step fuel a = some s') :
    ∀ i ticket id, s'.client i ≠ .thrown ticket id := by
  cases a with
  | request i id call =>
    cases stands : s.client i <;> simp only [step, stands, reduceCtorEq] at run
    split_ifs at run
    obtain rfl := Option.some.inj run
    exact heard_update heard (by simp) i
  | push i =>
    cases stands : s.client i <;> simp only [step, stands, reduceCtorEq] at run
    obtain ⟨q, -, rfl⟩ := Option.map_eq_some_iff.mp run
    exact heard_update heard (by simp) i
  | pop i =>
    cases stands : s.client i <;> simp only [step, stands, reduceCtorEq] at run
    obtain ⟨⟨x, q⟩, popped, rfl⟩ := Option.map_eq_some_iff.mp run
    have member : x ∈ s.view.flying := by
      simp only [view, Multiset.mem_add, Multiset.mem_coe, BoundedQueue.items_of_pop popped]
      exact Or.inl (Or.inl List.mem_cons_self)
    obtain ⟨-, id', -, told⟩ := sound.flying x member
    obtain ⟨d, reads, -⟩ := Option.map_eq_some_iff.mp told
    dsimp only
    cases answers : answersTo _ x.2 with
    | none => simp [answersTo, reads] at answers
    | some own =>
      cases own with
      | false => exact heard_update heard (by simp) i
      | true => exact heard_update heard (by simp) i
  | putBack i =>
    cases stands : s.client i <;> simp only [step, stands, reduceCtorEq] at run
    obtain ⟨q, -, rfl⟩ := Option.map_eq_some_iff.mp run
    exact heard_update heard (by simp) i
  | accept =>
    cases stands : s.server <;> simp only [step, stands, reduceCtorEq] at run
    obtain ⟨r, -, rfl⟩ := Option.map_eq_some_iff.mp run
    exact heard
  | handle timestamp =>
    cases stands : s.server <;> simp only [step, stands, reduceCtorEq] at run
    next request =>
      cases answer : respond fuel s.engine timestamp request.2 with
      | none =>
        rw [answer] at run
        obtain rfl := Option.some.inj run
        exact heard
      | some r =>
        rw [answer] at run
        obtain rfl := Option.some.inj run
        exact heard
  | answer =>
    cases stands : s.server <;> simp only [step, stands, reduceCtorEq] at run
    obtain ⟨q, -, rfl⟩ := Option.map_eq_some_iff.mp run
    exact heard

theorem Going.step {a : Action ι} (going : Going s) (run : s.step fuel a = some s') (fits : s.Fits fuel a) :
    Going s' := by
  have heard := step_heard going.sound going.heard run
  have full : s'.server ≠ .gone → s'.view.asked.card + s'.answered.length = s'.next := by
    intro stays
    obtain ⟨stood, count⟩ := step_count run stays
    have before := going.full stood
    omega
  rcases view_step run fits going.sound with same | step
  · exact ⟨same ▸ going.sound, same ▸ going.waiting, full, heard⟩
  · exact ⟨going.sound.step tells_unique step, going.waiting.step going.sound step, full, heard⟩

theorem Going.perform {actions : List (Action ι)} (going : Going s) (fits : s.FitsRun fuel actions)
    (run : s.perform fuel actions = some s') : Going s' := by
  induction actions generalizing s with
  | nil =>
    obtain rfl := Option.some.inj run
    exact going
  | cons a rest ih =>
    obtain ⟨next, first, more⟩ := Option.bind_eq_some_iff.mp run
    obtain ⟨here, later⟩ := fits
    rw [first] at later
    exact ih (going.step first here) later more

omit [DecidableEq ι] in
theorem going_start (engine : MMyISAM) : Going ({ engine } : Exchange ι capacity) := by
  have start : view ({ engine } : Exchange ι capacity) = {} := by
    simp [view, BoundedQueue.empty, Server.asked, Server.flying, Client.asked, Client.flying,
      Client.outstanding]
  refine ⟨start ▸ RequestReply.sound_start, start ▸ RequestReply.waiting_start, fun _ => ?_, by simp⟩
  rw [start]
  rfl

omit [Fintype ι] in
/-- Some thread can go on, and no client makes a new call for it. -/
def Enabled (fuel : Nat) (s : Exchange ι capacity) : Prop :=
  ∃ a : Action ι, (∀ i id call, a ≠ .request i id call) ∧ (s.step fuel a).isSome

theorem enabled_push {i : ι} {ticket : Nat} {id : UInt32} {raw : List UInt8}
    (asks : s.client i = .asking ticket id raw) (room : s.requests.items.length < capacity) : s.Enabled fuel := by
  refine ⟨.push i, by simp, ?_⟩
  simp only [step, asks, Option.isSome_map]
  exact BoundedQueue.isSome_push.mpr room

theorem enabled_pop {i : ι} {ticket : Nat} {id : UInt32} (awaits : s.client i = .awaiting ticket id)
    (there : s.responses.items ≠ []) : s.Enabled fuel := by
  refine ⟨.pop i, by simp, ?_⟩
  simp only [step, awaits, Option.isSome_map]
  exact BoundedQueue.isSome_pop.mpr there

theorem enabled_putBack {i : ι} {ticket : Nat} {id : UInt32} {other : Nat × List UInt8}
    (holds : s.client i = .holding ticket id other) (room : s.responses.items.length < capacity) :
    s.Enabled fuel := by
  refine ⟨.putBack i, by simp, ?_⟩
  simp only [step, holds, Option.isSome_map]
  exact BoundedQueue.isSome_push.mpr room

theorem enabled_accept (idle : s.server = .idle) (there : s.requests.items ≠ []) : s.Enabled fuel := by
  refine ⟨.accept, by simp, ?_⟩
  simp only [step, idle, Option.isSome_map]
  exact BoundedQueue.isSome_pop.mpr there

theorem enabled_handle {request : Nat × List UInt8} (handles : s.server = .handling request) :
    s.Enabled fuel := by
  refine ⟨.handle 0, by simp, ?_⟩
  simp only [step, handles]
  cases respond fuel s.engine 0 request.2 <;> rfl

theorem enabled_answer {response : Nat × List UInt8} (answers : s.server = .answering response)
    (room : s.responses.items.length < capacity) : s.Enabled fuel := by
  refine ⟨.answer, by simp, ?_⟩
  simp only [step, answers, Option.isSome_map]
  exact BoundedQueue.isSome_push.mpr room

omit [DecidableEq ι] in
/-- A request in the hand of a client is not answered yet. -/
theorem Going.not_flying (going : Going s) {i : ι} {ticket : Nat} {id : UInt32} {raw : List UInt8}
    (asks : s.client i = .asking ticket id raw) : ticket ∉ s.view.flying.map Prod.fst := by
  intro isFlying
  obtain ⟨x, flying, rfl⟩ := Multiset.mem_map.mp isFlying
  have inHand : (x.1, raw) ∈ ∑ j, (s.client j).asked := by
    refine Multiset.mem_sum.mpr ⟨i, Finset.mem_univ i, ?_⟩
    rw [asks]
    exact Multiset.mem_singleton_self _
  have asked : (x.1, raw) ∈ s.view.asked := Multiset.mem_add.mpr (Or.inr inHand)
  have answered : x.1 ∈ s.view.answered.map Prod.fst := going.sound.mem_answered flying
  exact Multiset.disjoint_left.mp (Multiset.nodup_add.mp going.sound.once).2.2
    (Multiset.mem_map_of_mem Prod.fst asked) (Multiset.mem_coe.mpr answered)

omit [DecidableEq ι] in
/-- While no client waits for a response, each that is there is in the hand of a client. -/
theorem Going.awaited (going : Going s) (none : ∀ i ticket id, s.client i ≠ .awaiting ticket id) :
    s.responses.items = [] ∧ s.server.flying = 0 := by
  let holders := Finset.univ.filter fun i => (s.client i).flying.card = 1
  have few : s.view.flying.card ≤ holders.card := by
    refine going.sound.card_flying_le holders fun i ticket id waits flying => ?_
    have waits' : (s.client i).outstanding = some (ticket, id) := waits
    refine Finset.mem_filter.mpr ⟨Finset.mem_univ i, ?_⟩
    cases stands : s.client i with
    | idle => simp [stands, Client.outstanding] at waits'
    | asking t id' raw =>
      rw [stands] at waits'
      obtain ⟨rfl, -⟩ := Prod.mk.inj (Option.some.inj waits')
      exact absurd flying (going.not_flying stands)
    | awaiting t id' => exact absurd stands (none i t id')
    | holding t id' other => rfl
    | thrown t id' => exact absurd stands (going.heard i t id')
  have held : (∑ i, (s.client i).flying).card = holders.card := by
    rw [Finset.card_filter, Multiset.card_sum]
    refine Finset.sum_congr rfl fun i _ => ?_
    cases s.client i <;> simp [Client.flying]
  have total := s.card_flying
  exact ⟨List.length_eq_zero_iff.mp (by omega), Multiset.card_eq_zero.mp (by omega)⟩

/-- Where the server has nothing to do and no request is there, a client that is in a call can go on. -/
theorem Going.enabled_client (going : Going s) (room : 0 < capacity) (idle : s.server = .idle)
    (empty : s.requests.items = []) {i : ι} (calls : s.client i ≠ .idle) : s.Enabled fuel := by
  by_cases asks : ∃ j ticket id raw, s.client j = .asking ticket id raw
  · obtain ⟨j, ticket, id, raw, asks⟩ := asks
    exact enabled_push asks (by rw [empty]; exact room)
  by_cases there : s.responses.items = []
  · -- the responses that are there are in the hands of clients, which put them back
    by_cases holds : ∃ j ticket id other, s.client j = .holding ticket id other
    · obtain ⟨j, ticket, id, other, holds⟩ := holds
      exact enabled_putBack holds (by rw [there]; exact room)
    have notAsked : s.view.asked = 0 := by
      have none : ∑ j, (s.client j).asked = 0 := by
        refine Finset.sum_eq_zero fun j _ => ?_
        cases stands : s.client j with
        | asking ticket id raw => exact absurd ⟨j, ticket, id, raw, stands⟩ asks
        | idle | awaiting | holding | thrown => rfl
      simp [view, empty, idle, Server.asked, none]
    have notFlying : s.view.flying = 0 := by
      have none : ∑ j, (s.client j).flying = 0 := by
        refine Finset.sum_eq_zero fun j _ => ?_
        cases stands : s.client j with
        | holding ticket id other => exact absurd ⟨j, ticket, id, other, stands⟩ holds
        | idle | asking | awaiting | thrown => rfl
      simp [view, there, idle, Server.flying, none]
    have waits : ∃ ticket id, s.view.outstanding i = some (ticket, id) := by
      cases stands : s.client i with
      | idle => exact absurd stands calls
      | asking ticket id | awaiting ticket id | holding ticket id | thrown ticket id =>
        exact ⟨ticket, id, by simp [view, stands, Client.outstanding]⟩
    obtain ⟨ticket, id, waits⟩ := waits
    have covered := going.sound.covered going.waiting (going.full (by simp [idle])) waits
    simp [notAsked, notFlying] at covered
  · by_cases awaits : ∃ j ticket id, s.client j = .awaiting ticket id
    · obtain ⟨j, ticket, id, awaits⟩ := awaits
      exact enabled_pop awaits there
    · push Not at awaits
      exact absurd (going.awaited awaits).1 there

omit [DecidableEq ι] in
/-- Nothing is on its way when no client is in a call. -/
theorem Going.quiet (going : Going s) (alive : s.server ≠ .gone) (idle : ∀ i, s.client i = .idle) :
    s.requests.items = [] ∧ s.responses.items = [] ∧ s.received.length = s.next := by
  have none : ∀ i ticket id, s.view.outstanding i ≠ some (ticket, id) := by
    intro i ticket id
    simp [view, idle i, Client.outstanding]
  have notAsked : s.view.asked = 0 := by
    refine Multiset.eq_zero_of_forall_notMem fun x asked => ?_
    obtain ⟨i, id, waits, -⟩ := going.sound.asked x asked
    exact none i x.1 id waits
  have notFlying : s.view.flying = 0 := by
    refine Multiset.eq_zero_of_forall_notMem fun x flying => ?_
    obtain ⟨i, id, waits, -⟩ := going.sound.flying x flying
    exact none i x.1 id waits
  have conserved := congrArg Multiset.card going.sound.conserved
  have full := going.full alive
  have asked := s.card_asked
  have flying := s.card_flying
  rw [notFlying, add_zero, Multiset.coe_card, Multiset.coe_card, List.length_map] at conserved
  rw [notAsked, Multiset.card_zero] at asked full
  rw [notFlying, Multiset.card_zero] at flying
  refine ⟨List.length_eq_zero_iff.mp (by omega), List.length_eq_zero_iff.mp (by omega), ?_⟩
  have received : s.answered.length = s.received.length := conserved
  omega

theorem Going.progress (going : Going s) (room : 0 < capacity) (alive : s.server ≠ .gone) :
    s.Enabled fuel ∨
      (∀ i, s.client i = .idle) ∧ s.requests.items = [] ∧ s.responses.items = [] ∧
        s.received.length = s.next := by
  by_cases quiet : ∀ i, s.client i = .idle
  · exact Or.inr ⟨quiet, going.quiet alive quiet⟩
  left
  obtain ⟨i, calls⟩ := not_forall.mp quiet
  cases stands : s.server with
  | idle =>
    by_cases empty : s.requests.items = []
    · exact going.enabled_client room stands empty calls
    · exact enabled_accept stands empty
  | handling request => exact enabled_handle stands
  | answering response =>
    by_cases full : s.responses.items.length < capacity
    · exact enabled_answer stands full
    -- the server waits for room: one of the clients is there to make it
    have there : s.responses.items ≠ [] := by
      rintro empty
      rw [empty] at full
      exact full room
    by_cases awaits : ∃ j ticket id, s.client j = .awaiting ticket id
    · obtain ⟨j, ticket, id, awaits⟩ := awaits
      exact enabled_pop awaits there
    · push Not at awaits
      exact absurd (going.awaited awaits).1 there
  | gone => exact absurd stands alive

/-- In every run of any clients and the server whose answers fit into their segments, while the server is there
some thread can go on, or every call has returned and both buffers are empty. -/
theorem perform_progress (fuel capacity : Nat) (engine : MMyISAM) (actions : List (Action ι))
    (s : Exchange ι capacity) (room : 0 < capacity)
    (fits : FitsRun fuel ({ engine } : Exchange ι capacity) actions)
    (run : perform fuel ({ engine } : Exchange ι capacity) actions = some s) (alive : s.server ≠ .gone) :
    s.Enabled fuel ∨
      (∀ i, s.client i = .idle) ∧ s.requests.items = [] ∧ s.responses.items = [] ∧
        s.received.length = s.next := by
  exact ((going_start engine).perform fits run).progress room alive

/-- Three clients and buffers with room for one: a client holds the answer of another and waits for room, as the
server does. -/
def crowded : List (Action (Option Bool)) :=
  [.request none 7 (.remove (List.Vector.replicate 20 1) 0),
    .request (some false) 8 (.get (List.Vector.replicate 20 1) 0),
    .request (some true) 9 (.remove (List.Vector.replicate 20 2) 0), .push none, .accept, .handle 5,
    .push (some false), .answer, .pop (some false), .accept, .handle 6, .answer, .push (some true), .accept, .handle 7]

theorem perform_progress_crowded : ∃ s, perform 2 ({ engine := .empty } : Exchange (Option Bool) 1) crowded = some s ∧
    (s.Enabled 2 ∨ (∀ i, s.client i = .idle) ∧ s.requests.items = [] ∧ s.responses.items = [] ∧
      s.received.length = s.next) := by
  have ends : (perform 2 ({ engine := .empty } : Exchange (Option Bool) 1) crowded).any (·.server ≠ .gone) := by
    decide +kernel
  have fits : FitsRun 2 ({ engine := .empty } : Exchange (Option Bool) 1) crowded := by decide +kernel
  obtain ⟨s, run, alive⟩ := (Option.any_eq_true _ _).mp ends
  exact ⟨s, run, perform_progress 2 1 .empty crowded s (by decide) fits run (of_decide_eq_true alive)⟩

end Exchange

end Database

end MiyaCore
