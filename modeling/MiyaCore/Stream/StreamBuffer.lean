import Mathlib.Logic.Function.Basic
import MiyaCore.BoundedQueue

/-!
# The stream buffer

A queue behind a mutex, with one condition variable for the threads that want to push and one
for those that want to pop. A step is one critical section.
-/

namespace MiyaCore.Stream

/-- Where a thread stands: outside, or asleep in a `wait` or a `wait_for`. -/
inductive Thread (σ : Type) where
  | outside
  | pushWait (target : σ)
  | pushWaitFor (target : σ)
  | popWait
  | popWaitFor

/-- `StreamBuffer`, with the threads that use it. A thread asleep may have been notified. -/
structure StreamBuffer (ι σ : Type) where
  capacity : Nat := 20
  queue : List σ := []
  thread : ι → Thread σ := fun _ => .outside
  notified : ι → Bool := fun _ => false

/-- A thread calls, wakes up, notified or not, or has its time run out. -/
inductive Action (ι σ : Type) where
  | enqueue (i : ι) (target : σ) (timeout : Nat)
  | dequeue (i : ι) (timeout : Nat)
  | wakeUp (i : ι)
  | timeOut (i : ι)

/-- How a critical section ends: asleep, with the segment in the queue, with the segment dropped, with
a segment taken out, or with a null pointer. -/
inductive Outcome (σ : Type) where
  | asleep
  | push (target : σ)
  | drop (target : σ)
  | pop (x : σ)
  | null

variable {ι σ : Type} [DecidableEq ι]

namespace StreamBuffer

def sleep (s : StreamBuffer ι σ) (i : ι) (t : Thread σ) : StreamBuffer ι σ × Outcome σ :=
  ({ s with thread := Function.update s.thread i t, notified := Function.update s.notified i false }, .asleep)

def leave (s : StreamBuffer ι σ) (i : ι) : StreamBuffer ι σ :=
  { s with thread := Function.update s.thread i .outside }

/-- `notify_all` on both condition variables. -/
def notifyAll (s : StreamBuffer ι σ) : StreamBuffer ι σ := { s with notified := fun _ => true }

def pushBack (s : StreamBuffer ι σ) (i : ι) (target : σ) : StreamBuffer ι σ × Outcome σ :=
  (({ s with queue := s.queue ++ [target] } : StreamBuffer ι σ).notifyAll.leave i, .push target)

/-- `enqueue` once its `wait` lets it through, or back to sleep. -/
def pushWait (s : StreamBuffer ι σ) (i : ι) (target : σ) : StreamBuffer ι σ × Outcome σ :=
  if s.queue.length < s.capacity then s.pushBack i target else s.sleep i (.pushWait target)

/-- `enqueue` after its `wait_for`. -/
def afterWaitFor (s : StreamBuffer ι σ) (i : ι) (target : σ) : StreamBuffer ι σ × Outcome σ :=
  if s.queue.length < s.capacity then (s.leave i, .drop target) else s.pushBack i target

/-- `StreamBuffer::enqueue`, up to where it returns or falls asleep. -/
def enqueue (s : StreamBuffer ι σ) (i : ι) (target : σ) (timeout : Nat) : StreamBuffer ι σ × Outcome σ :=
  if s.capacity ≤ s.queue.length ∧ 0 < timeout then s.sleep i (.pushWaitFor target) else s.pushWait i target

/-- Taking the first segment, or `otherwise` if there is none. -/
def popFront (s : StreamBuffer ι σ) (i : ι) (otherwise : StreamBuffer ι σ × Outcome σ) :
    StreamBuffer ι σ × Outcome σ :=
  match s.queue with
  | x :: rest => (({ s with queue := rest } : StreamBuffer ι σ).notifyAll.leave i, .pop x)
  | [] => otherwise

/-- `StreamBuffer::dequeue`, up to where it returns or falls asleep. -/
def dequeue (s : StreamBuffer ι σ) (i : ι) (timeout : Nat) : StreamBuffer ι σ × Outcome σ :=
  s.popFront i (s.sleep i (if 0 < timeout then .popWaitFor else .popWait))

/-- One critical section. -/
def step (s : StreamBuffer ι σ) : Action ι σ → Option (StreamBuffer ι σ × Outcome σ)
  | .enqueue i target timeout =>
    match s.thread i with
    | .outside => some (s.enqueue i target timeout)
    | _ => none
  | .dequeue i timeout =>
    match s.thread i with
    | .outside => some (s.dequeue i timeout)
    | _ => none
  | .wakeUp i =>
    match s.thread i with
    | .outside => none
    | .pushWait target => some (s.pushWait i target)
    | .pushWaitFor target =>
      if s.queue.length < s.capacity then some (s.afterWaitFor i target)
        else some (s.sleep i (.pushWaitFor target))
    | .popWait => some (s.popFront i (s.sleep i .popWait))
    | .popWaitFor => some (s.popFront i (s.sleep i .popWaitFor))
  | .timeOut i =>
    match s.thread i with
    | .pushWaitFor target => some (s.afterWaitFor i target)
    | .popWaitFor => some (s.popFront i (s.leave i, .null))
    | _ => none

end StreamBuffer

/-- A critical section of a run. -/
structure Entry (ι σ : Type) where
  before : StreamBuffer ι σ
  action : Action ι σ
  outcome : Outcome σ
  after : StreamBuffer ι σ

/-- Critical sections one after the other. -/
def StreamBuffer.perform (s : StreamBuffer ι σ) :
    List (Action ι σ) → Option (List (Entry ι σ) × StreamBuffer ι σ)
  | [] => some ([], s)
  | a :: rest => do
    let (s', o) ← s.step a
    let (h, last) ← s'.perform rest
    return (⟨s, a, o, s'⟩ :: h, last)

/-- The segment that a thread asleep still wants to push. -/
def Thread.pending : Thread σ → List σ
  | pushWait target | pushWaitFor target => [target]
  | _ => []

namespace Action

def thread : Action ι σ → ι
  | enqueue i _ _ | dequeue i _ | wakeUp i | timeOut i => i

/-- The segment that a call of `enqueue` is made with. -/
def called : Action ι σ → List σ
  | enqueue _ target _ => [target]
  | _ => []

end Action

namespace Outcome

def appended : Outcome σ → List σ
  | .push target => [target]
  | _ => []

def taken : Outcome σ → List σ
  | .pop x => [x]
  | _ => []

/-- The segment whose `enqueue` returns. -/
def returned : Outcome σ → List σ
  | .push target | .drop target => [target]
  | _ => []

end Outcome

namespace StreamBuffer

/-- What a critical section of a thread does, whichever it is: the queue loses and gains what the
outcome says, and a call that is made returns or stays asleep. -/
structure Conserves (s : StreamBuffer ι σ) (i : ι) (called : List σ)
    (r : StreamBuffer ι σ × Outcome σ) : Prop where
  capacity : r.1.capacity = s.capacity
  queue : s.queue ++ r.2.appended = r.2.taken ++ r.1.queue
  calls : (s.thread i).pending ++ called = r.2.returned ++ (r.1.thread i).pending
  others : ∀ j, j ≠ i → r.1.thread j = s.thread j

variable {s : StreamBuffer ι σ} {i : ι} {target : σ} {called : List σ}

theorem conserves_sleep {t : Thread σ} (calls : (s.thread i).pending ++ called = t.pending) :
    Conserves s i called (s.sleep i t) where
  capacity := rfl
  queue := by simp [sleep, Outcome.appended, Outcome.taken]
  calls := by simpa [sleep, Outcome.returned] using calls
  others j other := by simp [sleep, other]

theorem conserves_pushBack (calls : (s.thread i).pending ++ called = [target]) :
    Conserves s i called (s.pushBack i target) where
  capacity := rfl
  queue := by simp [pushBack, leave, notifyAll, Outcome.appended, Outcome.taken]
  calls := by simpa [pushBack, leave, Outcome.returned, Thread.pending] using calls
  others j other := by simp [pushBack, leave, notifyAll, other]

theorem conserves_pushWait (calls : (s.thread i).pending ++ called = [target]) :
    Conserves s i called (s.pushWait i target) := by
  rw [pushWait]
  split_ifs
  · exact conserves_pushBack calls
  · exact conserves_sleep calls

theorem conserves_leave {o : Outcome σ} (appended : o.appended = []) (taken : o.taken = [])
    (calls : (s.thread i).pending ++ called = o.returned) : Conserves s i called (s.leave i, o) where
  capacity := rfl
  queue := by simp [leave, appended, taken]
  calls := by simpa [leave, Thread.pending] using calls
  others j other := by simp [leave, other]

theorem conserves_afterWaitFor (calls : (s.thread i).pending ++ called = [target]) :
    Conserves s i called (s.afterWaitFor i target) := by
  rw [afterWaitFor]
  split_ifs
  · exact conserves_leave rfl rfl calls
  · exact conserves_pushBack calls

theorem conserves_popFront {otherwise : StreamBuffer ι σ × Outcome σ}
    (calls : (s.thread i).pending ++ called = []) (empty : Conserves s i called otherwise) :
    Conserves s i called (s.popFront i otherwise) := by
  rw [popFront]
  split
  · rename_i x rest queue
    exact ⟨rfl, by simp [queue, leave, notifyAll, Outcome.appended, Outcome.taken],
      by simpa [leave, Outcome.returned, Thread.pending] using calls, fun j other => by simp [leave, notifyAll, other]⟩
  · exact empty

theorem conserves_step {a : Action ι σ} {r : StreamBuffer ι σ × Outcome σ} (run : s.step a = some r) :
    Conserves s a.thread a.called r := by
  cases a with
  | enqueue i target timeout =>
    cases at_i : s.thread i <;> simp only [step, at_i, reduceCtorEq, Option.some.injEq] at run
    obtain rfl := run
    rw [enqueue]
    split_ifs
    · exact conserves_sleep (by simp [Action.thread, at_i, Thread.pending, Action.called])
    · exact conserves_pushWait (by simp [Action.thread, at_i, Thread.pending, Action.called])
  | dequeue i timeout =>
    cases at_i : s.thread i <;> simp only [step, at_i, reduceCtorEq, Option.some.injEq] at run
    obtain rfl := run
    have idle : (s.thread i).pending ++ [] = [] := by simp [at_i, Thread.pending]
    refine conserves_popFront idle (conserves_sleep (idle.trans ?_))
    split_ifs <;> rfl
  | wakeUp i =>
    cases at_i : s.thread i <;> simp only [step, at_i, reduceCtorEq, Option.some.injEq] at run
    · obtain rfl := run
      exact conserves_pushWait (by simp [Action.thread, at_i, Thread.pending, Action.called])
    · split_ifs at run <;> obtain rfl := Option.some.inj run
      · exact conserves_afterWaitFor (by simp [Action.thread, at_i, Thread.pending, Action.called])
      · exact conserves_sleep (by simp [Action.thread, at_i, Thread.pending, Action.called])
    all_goals
      obtain rfl := run
      have idle : (s.thread i).pending ++ [] = [] := by simp [at_i, Thread.pending]
      exact conserves_popFront idle (conserves_sleep idle)
  | timeOut i =>
    cases at_i : s.thread i <;> simp only [step, at_i, reduceCtorEq, Option.some.injEq] at run
    · obtain rfl := run
      exact conserves_afterWaitFor (by simp [Action.thread, at_i, Thread.pending, Action.called])
    · obtain rfl := run
      have idle : (s.thread i).pending ++ [] = [] := by simp [at_i, Thread.pending]
      exact conserves_popFront idle (conserves_leave rfl rfl idle)

/-- The steps on which the two ends of a `wait_for` are told apart: a push that has slept may not find
room when it wakes up, nor a full queue when its time runs out. -/
def Sound (s : StreamBuffer ι σ) : Action ι σ → Prop
  | .wakeUp i =>
    match s.thread i with
    | .pushWaitFor _ => s.capacity ≤ s.queue.length
    | _ => True
  | .timeOut i =>
    match s.thread i with
    | .pushWaitFor _ => s.queue.length < s.capacity
    | _ => True
  | _ => True

end StreamBuffer

/-- A step keeps the queue within its capacity, and drops a segment only when the time of its
`enqueue` has run out, leaving the queue as it is. -/
structure Entry.Meets (e : Entry ι σ) : Prop where
  bounded : e.after.queue.length ≤ e.after.capacity
  timesOut : ∀ target, e.outcome = .drop target → e.action = .timeOut e.action.thread ∧
    e.after.queue = e.before.queue

namespace StreamBuffer

theorem pushWait_bounded (s : StreamBuffer ι σ) (i : ι) (target : σ) (bounded : s.queue.length ≤ s.capacity) :
    (s.pushWait i target).1.queue.length ≤ (s.pushWait i target).1.capacity ∧
      ∀ t, (s.pushWait i target).2 ≠ .drop t := by
  rw [pushWait]
  split_ifs with room
  · refine ⟨?_, by simp [pushBack]⟩
    simp only [pushBack, leave, notifyAll, List.length_append, List.length_singleton]
    omega
  · exact ⟨bounded, by simp [sleep]⟩

theorem popFront_bounded (s : StreamBuffer ι σ) (i : ι) {otherwise : StreamBuffer ι σ × Outcome σ}
    (bounded : s.queue.length ≤ s.capacity) (rest : otherwise.1.queue.length ≤ otherwise.1.capacity)
    (keeps : ∀ t, otherwise.2 ≠ .drop t) : (s.popFront i otherwise).1.queue.length ≤
    (s.popFront i otherwise).1.capacity ∧
      ∀ t, (s.popFront i otherwise).2 ≠ .drop t := by
  rw [popFront]
  split
  · rename_i x l queue
    refine ⟨?_, by simp⟩
    simp only [leave, notifyAll]
    simp only [queue, List.length_cons] at bounded
    omega
  · exact ⟨rest, keeps⟩

theorem meets_iff {s : StreamBuffer ι σ} {a : Action ι σ} {r : StreamBuffer ι σ × Outcome σ}
    (run : s.step a = some r) (bounded : s.queue.length ≤ s.capacity) :
    Entry.Meets ⟨s, a, r.2, r.1⟩ ↔ s.Sound a := by
  have keeps : r.1.queue.length ≤ r.1.capacity ∧ (∀ t, r.2 ≠ .drop t) → s.Sound a →
      (Entry.Meets ⟨s, a, r.2, r.1⟩ ↔ s.Sound a) := fun fine sound =>
    ⟨fun _ => sound, fun _ => ⟨fine.1, fun t dropped => absurd dropped (fine.2 t)⟩⟩
  cases a with
  | enqueue i target timeout =>
    cases at_i : s.thread i <;> simp only [step, at_i, reduceCtorEq, Option.some.injEq] at run
    obtain rfl := run
    refine keeps ?_ trivial
    rw [enqueue]
    split_ifs
    · exact ⟨bounded, by simp [sleep]⟩
    · exact s.pushWait_bounded i target bounded
  | dequeue i timeout =>
    cases at_i : s.thread i <;> simp only [step, at_i, reduceCtorEq, Option.some.injEq] at run
    obtain rfl := run
    exact keeps (s.popFront_bounded i bounded bounded (by simp [sleep])) trivial
  | wakeUp i =>
    cases at_i : s.thread i <;> simp only [step, at_i, reduceCtorEq, Option.some.injEq] at run
    · obtain rfl := run
      exact keeps (s.pushWait_bounded i _ bounded) (by simp [Sound, at_i])
    · rename_i target
      simp only [Sound, at_i]
      split_ifs at run with room <;> obtain rfl := Option.some.inj run
      · have drops : (s.afterWaitFor i target).2 = .drop target := by simp [afterWaitFor, room]
        refine ⟨fun meets => ?_, fun full => absurd room (by omega)⟩
        exact absurd (meets.timesOut target drops).1 (by simp)
      · exact ⟨fun _ => by omega, fun _ => ⟨bounded, by simp [sleep]⟩⟩
    all_goals
      obtain rfl := run
      exact keeps (s.popFront_bounded i bounded bounded (by simp [sleep])) (by simp [Sound, at_i])
  | timeOut i =>
    cases at_i : s.thread i <;> simp only [step, at_i, reduceCtorEq, Option.some.injEq] at run
    · rename_i target
      obtain rfl := run
      simp only [Sound, at_i]
      by_cases room : s.queue.length < s.capacity
      · refine ⟨fun _ => room, fun _ => ⟨?_, fun t _ => ⟨rfl, ?_⟩⟩⟩
        · simpa [afterWaitFor, room, leave] using bounded
        · simp [afterWaitFor, room, leave]
      · refine ⟨fun meets => ?_, fun found => absurd found room⟩
        have longer := meets.bounded
        simp only [afterWaitFor, room, if_false, pushBack, leave, notifyAll, List.length_append,
          List.length_singleton] at longer
        omega
    · obtain rfl := run
      exact keeps (s.popFront_bounded i bounded bounded (by simp)) (by simp [Sound, at_i])

end StreamBuffer

/-- What an outcome is to a bounded queue. -/
def Outcome.ops : Outcome σ → List (BoundedQueue.Op σ)
  | .push target => [.push target]
  | .pop x => [.pop x]
  | _ => []

theorem Outcome.ops_pushed (o : Outcome σ) : o.ops.flatMap BoundedQueue.Op.pushed = o.appended := by
  cases o <;> rfl

theorem Outcome.ops_popped (o : Outcome σ) : o.ops.flatMap BoundedQueue.Op.popped = o.taken := by
  cases o <;> rfl

namespace StreamBuffer

theorem perform_cons {s last : StreamBuffer ι σ} {a : Action ι σ} {rest : List (Action ι σ)}
    {h : List (Entry ι σ)} :
    s.perform (a :: rest) = some (h, last) ↔
      ∃ next o tail, s.step a = some (next, o) ∧ next.perform rest = some (tail, last) ∧
      h = ⟨s, a, o, next⟩ :: tail := by
  simp only [perform, Option.bind_eq_bind, Option.bind_eq_some_iff]
  constructor
  · rintro ⟨⟨next, o⟩, step, ⟨tail, last'⟩, run, result⟩
    obtain ⟨rfl, rfl⟩ := Prod.mk.inj (Option.some.inj result)
    exact ⟨next, o, tail, step, run, rfl⟩
  · rintro ⟨next, o, tail, step, run, rfl⟩
    exact ⟨(next, o), step, (tail, last), run, rfl⟩

/-- Up to the steps that are not sound, a run keeps to what the buffer promises. -/
theorem perform_meets_iff {s last : StreamBuffer ι σ} {actions : List (Action ι σ)} {h : List (Entry ι σ)}
    (run : s.perform actions = some (h, last)) (bounded : s.queue.length ≤ s.capacity) :
    (∀ e ∈ h, e.Meets) ↔ ∀ e ∈ h, e.before.Sound e.action := by
  induction actions generalizing s h with
  | nil =>
    obtain ⟨rfl, -⟩ := Prod.mk.inj (Option.some.inj run)
    simp
  | cons a rest ih =>
    obtain ⟨next, o, tail, step, later, rfl⟩ := perform_cons.mp run
    have here : Entry.Meets ⟨s, a, o, next⟩ ↔ s.Sound a := meets_iff step bounded
    simp only [List.forall_mem_cons, here]
    refine and_congr_right fun sound => ih later ?_
    exact (here.mpr sound).bounded

/-- A run without unsound steps is a run of a bounded queue. -/
theorem perform_refines {capacity : Nat} {s last : StreamBuffer ι σ} {actions : List (Action ι σ)}
    {h : List (Entry ι σ)} (run : s.perform actions = some (h, last)) (same : s.capacity = capacity)
    (meets : ∀ e ∈ h, e.Meets) (q : BoundedQueue σ capacity) (holds : q.items = s.queue) :
    ∃ q' : BoundedQueue σ capacity, q'.items = last.queue ∧
    BoundedQueue.Runs q (h.flatMap fun e => e.outcome.ops) q' := by
  induction actions generalizing s h q with
  | nil =>
    obtain ⟨rfl, rfl⟩ := Prod.mk.inj (Option.some.inj run)
    exact ⟨q, holds, .nil q⟩
  | cons a rest ih =>
    obtain ⟨next, o, tail, step, later, rfl⟩ := perform_cons.mp run
    obtain ⟨first, others⟩ := List.forall_mem_cons.mp meets
    have conserves := conserves_step step
    have size : next.capacity = capacity := conserves.capacity.trans same
    have between := conserves.queue
    have moved : ∀ op, o.ops = [op] → q.items ++ op.pushed = op.popped ++ next.queue →
        ∃ q' : BoundedQueue σ capacity, q'.items = last.queue ∧
          BoundedQueue.Runs q ((⟨s, a, o, next⟩ :: tail : List (Entry ι σ)).flatMap
          fun e => e.outcome.ops) q' := by
      intro op isOp move
      let q₁ : BoundedQueue σ capacity := ⟨next.queue, by simpa [size] using first.bounded⟩
      have moves : q.Moves op q₁ := move
      obtain ⟨q', at_last, runs⟩ := ih later size others q₁ rfl
      refine ⟨q', at_last, ?_⟩
      rw [List.flatMap_cons, isOp]
      exact .cons moves runs
    cases o with
    | push target => exact moved (.push target) rfl (by rw [holds]; exact between)
    | pop x => exact moved (.pop x) rfl (by rw [holds]; exact between)
    | asleep | drop target | null =>
      have still : q.items = next.queue := by simpa [holds, Outcome.appended, Outcome.taken] using between
      exact ih later size others q still

/-- The calls of `enqueue` of a thread return in the order they are made, each of them once. -/
theorem perform_calls {s last : StreamBuffer ι σ} {actions : List (Action ι σ)} {h : List (Entry ι σ)}
    (run : s.perform actions = some (h, last)) (i : ι) :
    (s.thread i).pending ++ (h.filter fun e => e.action.thread = i).flatMap (fun e => e.action.called) =
      (h.filter fun e => e.action.thread = i).flatMap
      (fun e => e.outcome.returned) ++ (last.thread i).pending := by
  induction actions generalizing s h with
  | nil =>
    obtain ⟨rfl, rfl⟩ := Prod.mk.inj (Option.some.inj run)
    simp
  | cons a rest ih =>
    obtain ⟨next, o, tail, step, later, rfl⟩ := perform_cons.mp run
    have conserves := conserves_step step
    by_cases own : a.thread = i
    · have call := conserves.calls
      rw [own] at call
      simp only [List.filter_cons, own, decide_true, if_true, List.flatMap_cons]
      rw [← List.append_assoc, call, List.append_assoc, ih later, List.append_assoc]
    · have same : next.thread i = s.thread i := conserves.others i (Ne.symm own)
      simp only [List.filter_cons, own, decide_false, Bool.false_eq_true, if_false]
      rw [← same, ih later]

end StreamBuffer

/-- What a run of the buffer promises: it stays within the capacity, segments come out in the order they
went in, each call of `enqueue` returns once, having appended its segment or run out of time. -/
structure BoundedFifo (h : List (Entry ι σ)) (last : StreamBuffer ι σ) : Prop where
  meets : ∀ e ∈ h, e.Meets
  inOrder : h.flatMap (fun e => e.outcome.appended) = h.flatMap (fun e => e.outcome.taken) ++ last.queue
  accounted : ∀ i, (h.filter fun e => e.action.thread = i).flatMap (fun e => e.action.called) =
    (h.filter fun e => e.action.thread = i).flatMap (fun e => e.outcome.returned) ++ (last.thread i).pending

namespace StreamBuffer

/-- From an empty buffer, a run is one of a bounded first-in first-out queue just when no push that has
slept in its `wait_for` wakes up to find room or runs out of time with the queue still full. -/
theorem boundedFifo_iff (capacity : Nat) (actions : List (Action ι σ)) (h : List (Entry ι σ))
    (last : StreamBuffer ι σ) (run : ({ capacity := capacity } : StreamBuffer ι σ).perform actions =
    some (h, last)) :
    BoundedFifo h last ↔ ∀ e ∈ h, e.before.Sound e.action := by
  rw [← perform_meets_iff run (Nat.zero_le _)]
  refine ⟨fun fifo => fifo.meets, fun meets => ⟨meets, ?_, fun i => perform_calls run i⟩⟩
  obtain ⟨q, at_last, runs⟩ := perform_refines run rfl meets .empty rfl
  have conserved := runs.conserves
  simpa [BoundedQueue.empty, List.flatMap_assoc, Outcome.ops_pushed, Outcome.ops_popped, at_last]
    using conserved

/-- Twenty segments, and one more whose time runs out. -/
def overfull : List (Action Bool Nat) :=
  (List.range 20).map (fun target => .enqueue true target 0) ++ [.enqueue true 20 1, .timeOut true]

/-- The segment whose time runs out is the twenty-first in the queue. -/
theorem boundedFifo_fails :
    ∃ h last, ({} : StreamBuffer Bool Nat).perform overfull = some (h, last) ∧ last.queue.length = 21 ∧
      ¬BoundedFifo h last := by
  have runs : (({} : StreamBuffer Bool Nat).perform overfull).isSome := by decide +kernel
  have size : (({} : StreamBuffer Bool Nat).perform overfull).map (fun r => r.2.queue.length) = some 21 := by
    decide +kernel
  obtain ⟨⟨h, last⟩, run⟩ := Option.isSome_iff_exists.mp runs
  rw [run] at size
  have length : last.queue.length = 21 := Option.some.inj size
  refine ⟨h, last, run, length, fun fifo => ?_⟩
  obtain ⟨q, at_last, -⟩ := perform_refines run rfl fifo.meets .empty rfl
  have bound : q.items.length ≤ 20 := q.bounded
  rw [at_last] at bound
  omega

/-- A producer waits for a consumer. -/
def handover : List (Action Bool Nat) := [.enqueue true 7 0, .enqueue true 8 0, .dequeue false 0, .wakeUp true]

theorem boundedFifo_iff_handover :
    ∃ h last, ({ capacity := 1 } : StreamBuffer Bool Nat).perform handover = some (h, last) ∧
      (BoundedFifo h last ↔ ∀ e ∈ h, e.before.Sound e.action) := by
  have runs : (({ capacity := 1 } : StreamBuffer Bool Nat).perform handover).isSome := by decide +kernel
  obtain ⟨⟨h, last⟩, run⟩ := Option.isSome_iff_exists.mp runs
  exact ⟨h, last, run, boundedFifo_iff 1 handover h last run⟩

/-- What a thread asleep waits for has not come about. -/
def Blocked (s : StreamBuffer ι σ) : Thread σ → Prop
  | .outside => True
  | .pushWait _ | .pushWaitFor _ => s.capacity ≤ s.queue.length
  | .popWait | .popWaitFor => s.queue = []

/-- A thread that nobody has notified would only fall asleep again. -/
def Awaits (s : StreamBuffer ι σ) : Prop := ∀ i, s.notified i = false → s.Blocked (s.thread i)

variable {s : StreamBuffer ι σ} {i : ι} {target : σ}

theorem awaits_sleep {t : Thread σ} (awaits : s.Awaits) (blocked : s.Blocked t) : (s.sleep i t).1.Awaits := by
  intro j unnotified
  by_cases own : j = i
  · subst own
    have here : (s.sleep j t).1.thread j = t := Function.update_self ..
    rw [here]
    exact blocked
  · simp only [sleep, Function.update_of_ne own] at unnotified ⊢
    exact awaits j unnotified

theorem awaits_leave (awaits : s.Awaits) : (s.leave i).Awaits := by
  intro j unnotified
  by_cases own : j = i
  · subst own
    simp [leave, Blocked]
  · simp only [leave, Function.update_of_ne own]
    exact awaits j unnotified

theorem awaits_pushBack : (s.pushBack i target).1.Awaits :=
  fun _ unnotified => absurd unnotified (by simp [pushBack, notifyAll, leave])

theorem awaits_pushWait (awaits : s.Awaits) : (s.pushWait i target).1.Awaits := by
  rw [pushWait]
  split_ifs with room
  · exact awaits_pushBack
  · exact awaits_sleep awaits (Nat.le_of_not_lt room)

theorem awaits_afterWaitFor (awaits : s.Awaits) : (s.afterWaitFor i target).1.Awaits := by
  rw [afterWaitFor]
  split_ifs
  · exact awaits_leave awaits
  · exact awaits_pushBack

theorem awaits_popFront {otherwise : StreamBuffer ι σ × Outcome σ} (empty : s.queue = [] → otherwise.1.Awaits) :
    (s.popFront i otherwise).1.Awaits := by
  rw [popFront]
  split
  · exact fun j unnotified => absurd unnotified (by simp [notifyAll, leave])
  · rename_i queue
    exact empty queue

theorem awaits_step {a : Action ι σ} {r : StreamBuffer ι σ × Outcome σ} (run : s.step a = some r)
    (awaits : s.Awaits) :
    r.1.Awaits := by
  cases a with
  | enqueue i target timeout =>
    cases at_i : s.thread i <;> simp only [step, at_i, reduceCtorEq, Option.some.injEq] at run
    obtain rfl := run
    rw [enqueue]
    split_ifs with timed
    · exact awaits_sleep awaits timed.1
    · exact awaits_pushWait awaits
  | dequeue i timeout =>
    cases at_i : s.thread i <;> simp only [step, at_i, reduceCtorEq, Option.some.injEq] at run
    obtain rfl := run
    refine awaits_popFront fun empty => awaits_sleep awaits ?_
    split_ifs <;> exact empty
  | wakeUp i =>
    cases at_i : s.thread i <;> simp only [step, at_i, reduceCtorEq, Option.some.injEq] at run
    · obtain rfl := run
      exact awaits_pushWait awaits
    · split_ifs at run with room <;> obtain rfl := Option.some.inj run
      · exact awaits_afterWaitFor awaits
      · exact awaits_sleep awaits (Nat.le_of_not_lt room)
    all_goals
      obtain rfl := run
      exact awaits_popFront fun empty => awaits_sleep awaits empty
  | timeOut i =>
    cases at_i : s.thread i <;> simp only [step, at_i, reduceCtorEq, Option.some.injEq] at run
    · obtain rfl := run
      exact awaits_afterWaitFor awaits
    · obtain rfl := run
      exact awaits_popFront fun _ => awaits_leave awaits

/-- No wake-up is lost: in every run, a thread that could go on has been notified. -/
theorem awaits_perform {last : StreamBuffer ι σ} {actions : List (Action ι σ)} {h : List (Entry ι σ)}
    (run : s.perform actions = some (h, last)) (awaits : s.Awaits) : last.Awaits := by
  induction actions generalizing s h with
  | nil =>
    obtain ⟨-, rfl⟩ := Prod.mk.inj (Option.some.inj run)
    exact awaits
  | cons a rest ih =>
    obtain ⟨next, o, tail, step, later, rfl⟩ := perform_cons.mp run
    exact ih later (awaits_step step awaits)

end StreamBuffer

end MiyaCore.Stream
