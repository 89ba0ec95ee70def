import Fynd.Derived.Tracker
import Fynd.Foundation.Broadcast
import Fynd.Foundation.Trace
import Fynd.Types.Route

/-!
# The loop of a worker that waits for derived data

A worker polls its channels in a fixed order: derived data before solve tasks. A task that
it takes before its derived data is ready waits inside the branch that took it. The
channels of market events and of shutdown do not touch readiness and are left aside, as are
the edge weights that a derived-data event may update.
-/

namespace Fynd

open Foundation List

/-- Where the loop stands. -/
inductive LoopControl
  /-- At the head of the select, before the derived-data channel is polled. -/
  | selecting
  /-- The derived-data channel had nothing, and the task channel is polled next. -/
  | derivedPending
  /-- A task waits for readiness until a deadline. -/
  | waiting (deadline : Nat) (notified : Bool)
  deriving DecidableEq

/-- A task as the loop takes it: its deadline, and the clock when it is taken, when the
wait starts and when the wait first looks at the time left. -/
structure PickedTask where
  deadline : Nat
  started : Nat
  waitStarted : Nat
  checked : Nat
  waitedMs : Nat

/-- What the worker answers. A task whose derived data is ready goes to the algorithm. -/
inductive TaskAnswer
  | solved
  | error (error : SolveError)
  deriving DecidableEq

/-- The worker's tracker, its receiver of derived-data events and where its loop stands. -/
structure WorkerLoop where
  tracker : ReadinessTracker
  derivedEvents : Receiver DerivedDataEvent
  derivedClosed : Bool
  control : LoopControl

/-- A step of the computation manager or of the loop. -/
inductive LoopAction
  | send (event : DerivedDataEvent)
  | closeDerived
  | pollDerived
  | pollTask (task : Option PickedTask)
  | wake (now : Nat)
  | timeOut

/-- What a task may take of the pool's budget before its deadline. -/
def taskBudget (poolTimeout deadline now : Nat) : Option Nat :=
  if deadline < now then none
  else if deadline - now = 0 then none
  else some (min poolTimeout (deadline - now))

namespace WorkerLoop

section Waiting

variable (debug : Finset ComputationId → String)

section

variable (tracker : ReadinessTracker)

/-- The wait ran out of time. -/
def timedOut : TaskAnswer :=
  .error (.notReady ("timeout waiting for derived data: missing " ++ debug tracker.missing))

/-- A required computation failed. -/
def blocked : TaskAnswer :=
  .error (.computationFailed
    ("required computation failed for current block: " ++ debug tracker.missing))

/-- The readiness check of a quote. -/
def quote : TaskAnswer :=
  if tracker.requirements.hasRequirements && !tracker.isReady then
    .error (.notReady ("derived data not ready: missing " ++ debug tracker.missing))
  else .solved

/-- One round of the wait: an answer, or none while the task keeps waiting. -/
def waitRound (deadline now : Nat) : Option TaskAnswer :=
  if tracker.isReady then some (quote debug tracker)
  else if tracker.isBlockedForCurrentBlock then some (blocked debug tracker)
  else if deadline - now = 0 then some (timedOut debug tracker)
  else none

end

/-- A worker that has received nothing. -/
def start (requirements : ComputationRequirements) (capacity : Nat) : WorkerLoop where
  tracker := .new requirements
  derivedEvents := .subscribe capacity
  derivedClosed := false
  control := .selecting

/-- Notifies a task that waits. -/
def notifyWaiters : LoopControl → LoopControl
  | .waiting deadline _ => .waiting deadline true
  | control => control

/-- Handles what the derived-data channel gave. -/
def receive (loop : WorkerLoop) : Received DerivedDataEvent → WorkerLoop
  | .value event =>
    { loop with
      tracker := loop.tracker.handleEvent event
      control := notifyWaiters loop.control }
  | .lagged _ => loop
  | .closed => { loop with derivedClosed := true }
  | .nothing => { loop with control := .derivedPending }

/-- Polls the derived-data channel, unless it is known to be closed. -/
def pollDerived (loop : WorkerLoop) : WorkerLoop :=
  if loop.derivedClosed then { loop with control := .derivedPending }
  else
    { loop with derivedEvents := loop.derivedEvents.recv.2 }.receive loop.derivedEvents.recv.1

/-- Goes back to the select with an answer, or keeps waiting. -/
def answerOr (loop : WorkerLoop) (waiting : LoopControl) :
    Option TaskAnswer → WorkerLoop × Option TaskAnswer
  | some answer => ({ loop with control := .selecting }, some answer)
  | none => ({ loop with control := waiting }, none)

/-- Takes a task. -/
def takeTask (poolTimeout : Nat) (loop : WorkerLoop) (task : PickedTask) :
    WorkerLoop × Option TaskAnswer :=
  match taskBudget poolTimeout task.deadline task.started with
  | none => loop.answerOr .selecting (some (.error (.timeout task.waitedMs)))
  | some budget =>
    if !loop.tracker.requirements.hasRequirements || loop.tracker.isReady then
      loop.answerOr .selecting (some (quote debug loop.tracker))
    else
      loop.answerOr (.waiting (task.waitStarted + budget) false)
        (waitRound debug loop.tracker (task.waitStarted + budget) task.checked)

/-- Looks again at a task that was notified. -/
def wake (loop : WorkerLoop) (deadline now : Nat) : WorkerLoop × Option TaskAnswer :=
  if loop.tracker.isBlockedForCurrentBlock then
    loop.answerOr .selecting (some (blocked debug loop.tracker))
  else loop.answerOr (.waiting deadline false) (waitRound debug loop.tracker deadline now)

/-- One step, with the answer it gives. A step that is not enabled changes nothing. -/
def act (poolTimeout : Nat) (loop : WorkerLoop) (action : LoopAction) :
    WorkerLoop × Option TaskAnswer :=
  match action, loop.control with
  | .send event, _ => ({ loop with derivedEvents := loop.derivedEvents.send event }, none)
  | .closeDerived, _ => ({ loop with derivedEvents := loop.derivedEvents.close }, none)
  | .pollDerived, .selecting => (loop.pollDerived, none)
  | .pollTask none, .derivedPending => ({ loop with control := .selecting }, none)
  | .pollTask (some task), .derivedPending => loop.takeTask debug poolTimeout task
  | .wake now, .waiting deadline true => loop.wake debug deadline now
  | .timeOut, .waiting _ _ => loop.answerOr .selecting (some (timedOut debug loop.tracker))
  | _, _ => (loop, none)

/-- The loop after one step. -/
def step (poolTimeout : Nat) (loop : WorkerLoop) (action : LoopAction) : WorkerLoop :=
  (loop.act debug poolTimeout action).1

/-- The answer of one step. -/
def answer (poolTimeout : Nat) (loop : WorkerLoop) (action : LoopAction) : Option TaskAnswer :=
  (loop.act debug poolTimeout action).2

end Waiting

variable {debug : Finset ComputationId → String} {poolTimeout : Nat} {loop : WorkerLoop}

@[simp] theorem answer_answerOr (loop : WorkerLoop) (waiting : LoopControl)
    (result : Option TaskAnswer) : (loop.answerOr waiting result).2 = result := by
  cases result <;> rfl

/-! ## Events that arrive during a wait -/

/-- Past the poll of the derived-data channel nothing undelivered completes a requirement, a
task that waits is not ready, and a channel known to be closed is empty. -/
structure Settled (loop : WorkerLoop) : Prop where
  quiet : loop.control ≠ .selecting →
    ∀ event ∈ loop.derivedEvents.pending, ¬ loop.tracker.Completes event
  unready : ∀ deadline notified, loop.control = .waiting deadline notified →
    loop.tracker.isReady = false
  drained : loop.derivedClosed = true →
    loop.derivedEvents.closed = true ∧ loop.derivedEvents.pending = []

/-- No completion of a requirement is sent between the poll that finds the derived-data channel
empty and the return to the head of the select. -/
def Undisturbed (loop : WorkerLoop) : LoopAction → Prop
  | .send event => loop.control ≠ .selecting → ¬ loop.tracker.Completes event
  | _ => True

variable {tracker : ReadinessTracker} {deadline now : Nat} {message : String}

private theorem unready_of_waitRound (waits : waitRound debug tracker deadline now = none) :
    tracker.isReady = false := by
  by_contra ready
  rw [Bool.not_eq_false] at ready
  simp [waitRound, ready] at waits

section

variable (settled : loop.Settled)
include settled

private theorem Settled.selecting : { loop with control := .selecting }.Settled where
  quiet := fun outside => absurd rfl outside
  unready := by simp
  drained := settled.drained

private theorem Settled.answerOr (outside : loop.control ≠ .selecting) {waiting : LoopControl}
    {result : Option TaskAnswer} (unready : result = none → loop.tracker.isReady = false) :
    (loop.answerOr waiting result).1.Settled := by
  cases result with
  | some answer => exact settled.selecting
  | none =>
    exact ⟨fun _ => settled.quiet outside, fun _ _ _ => unready rfl, settled.drained⟩

private theorem Settled.send {event : DerivedDataEvent}
    (undisturbed : loop.control ≠ .selecting → ¬ loop.tracker.Completes event) :
    { loop with derivedEvents := loop.derivedEvents.send event }.Settled where
  quiet := by
    intro outside other member
    rcases Receiver.mem_pending_send member with held | sent
    · exact settled.quiet outside other held
    · exact sent ▸ undisturbed outside
  unready := settled.unready
  drained := by
    intro known
    have gone := settled.drained known
    rw [Receiver.send_of_closed gone.1]
    exact gone

private theorem Settled.pollDerived (selecting : loop.control = .selecting) :
    loop.pollDerived.Settled := by
  unfold WorkerLoop.pollDerived
  split
  · rename_i known
    have gone := settled.drained known
    exact ⟨fun _ event member => by simp [gone.2] at member, by simp, settled.drained⟩
  · rename_i unknown
    cases received : loop.derivedEvents.recv with
    | mk given left =>
      cases given with
      | value event =>
        exact ⟨fun outside => by simp [receive, notifyWaiters, selecting] at outside,
          by simp [receive, notifyWaiters, selecting], by simp [receive, unknown]⟩
      | lagged skipped =>
        exact ⟨fun outside => absurd selecting outside, by simp [receive, selecting],
          by simp [receive, unknown]⟩
      | closed =>
        obtain ⟨rfl, gone⟩ := Receiver.recv_closed received
        exact ⟨fun outside => absurd selecting outside, by simp [receive, selecting],
          fun _ => gone⟩
      | nothing =>
        obtain ⟨rfl, empty⟩ := Receiver.recv_nothing received
        exact ⟨fun _ event member => by simp [receive, empty] at member, by simp [receive],
          by simp [receive, unknown]⟩

private theorem Settled.takeTask (outside : loop.control ≠ .selecting) (task : PickedTask) :
    (loop.takeTask debug poolTimeout task).1.Settled := by
  unfold WorkerLoop.takeTask
  split
  · exact settled.answerOr outside (by simp)
  · split
    · exact settled.answerOr outside (by simp)
    · exact settled.answerOr outside unready_of_waitRound

private theorem Settled.wake (outside : loop.control ≠ .selecting) (deadline now : Nat) :
    (loop.wake debug deadline now).1.Settled := by
  unfold WorkerLoop.wake
  split
  · exact settled.answerOr outside (by simp)
  · exact settled.answerOr outside unready_of_waitRound

private theorem Settled.step {action : LoopAction} (undisturbed : loop.Undisturbed action) :
    (loop.step debug poolTimeout action).Settled := by
  unfold WorkerLoop.step act
  split
  · exact settled.send undisturbed
  · exact ⟨settled.quiet, settled.unready, fun known => ⟨rfl, (settled.drained known).2⟩⟩
  · exact settled.pollDerived (by assumption)
  · exact settled.selecting
  · exact settled.takeTask (by simp [*]) _
  · exact settled.wake (by simp [*]) _ _
  · exact settled.answerOr (by simp [*]) (by simp)
  · exact settled

end

/-! ## When a task is answered as not ready -/

private theorem quote_eq_solved
    (passes : (!tracker.requirements.hasRequirements || tracker.isReady) = true) :
    quote debug tracker = .solved := by
  rw [Bool.or_eq_true, Bool.not_eq_true'] at passes
  rcases passes with nothing | ready
  · simp [quote, nothing]
  · simp [quote, ready]

private theorem unready_of_waitRound_notReady
    (answered : waitRound debug tracker deadline now = some (.error (.notReady message))) :
    tracker.isReady = false := by
  by_contra ready
  rw [Bool.not_eq_false] at ready
  have solved : quote debug tracker = .solved := quote_eq_solved (by simp [ready])
  simp [waitRound, ready, solved] at answered

private theorem unready_of_takeTask {task : PickedTask}
    (answered : (loop.takeTask debug poolTimeout task).2 = some (.error (.notReady message))) :
    loop.tracker.isReady = false := by
  unfold takeTask at answered
  split at answered
  · simp at answered
  · split at answered
    · rename_i passes
      simp [quote_eq_solved passes] at answered
    · rw [answer_answerOr] at answered
      exact unready_of_waitRound_notReady answered

private theorem unready_of_wake
    (answered : (loop.wake debug deadline now).2 = some (.error (.notReady message))) :
    loop.tracker.isReady = false := by
  unfold wake at answered
  split at answered
  · simp [blocked] at answered
  · rw [answer_answerOr] at answered
    exact unready_of_waitRound_notReady answered

/-- A step answers that a task is not ready only past the poll of the derived-data channel, and
only if the tracker is not ready. -/
theorem unready_of_answer (settled : loop.Settled) {action : LoopAction}
    (answered : loop.answer debug poolTimeout action = some (.error (.notReady message))) :
    loop.control ≠ .selecting ∧ loop.tracker.isReady = false := by
  unfold answer act at answered
  split at answered
  · simp at answered
  · simp at answered
  · simp at answered
  · simp at answered
  · exact ⟨by simp [*], unready_of_takeTask answered⟩
  · exact ⟨by simp [*], unready_of_wake answered⟩
  · exact ⟨by simp [*], settled.unready _ _ (by assumption)⟩
  · simp at answered

variable (debug poolTimeout loop) in
/-- Along a run, a task is answered as not ready only if no undelivered events, in the order they
were sent, would make the tracker ready. -/
def HeedsArrivals (actions : List LoopAction) : Prop :=
  ∀ entry ∈ traceFold (step debug poolTimeout) loop actions,
    ∀ message, entry.1.answer debug poolTimeout entry.2 = some (.error (.notReady message)) →
      ∀ events, events.Sublist entry.1.derivedEvents.pending →
        (entry.1.tracker.handleEvents events).isReady = false

/-- **No arrived event is ignored in an undisturbed run.** The worker heeds every event that
arrived as long as no completion of a requirement is sent while a task waits. -/
theorem heedsArrivals_of_undisturbed (debug : Finset ComputationId → String) (poolTimeout : Nat)
    (requirements : ComputationRequirements) (capacity : Nat) (actions : List LoopAction)
    (undisturbed : ∀ entry ∈ traceFold (step debug poolTimeout) (start requirements capacity)
      actions, entry.1.Undisturbed entry.2) :
    HeedsArrivals debug poolTimeout (start requirements capacity) actions := by
  have trace := Trace.fold (step debug poolTimeout) (start requirements capacity) actions
  have initial : (start requirements capacity).Settled :=
    ⟨fun outside => absurd rfl outside, by simp [start], by simp [start]⟩
  have along := (trace.invariant Settled initial fun entry member settled =>
    settled.step (undisturbed entry member)).1
  intro entry member message answered events arrived
  have settled := (along entry member).1
  obtain ⟨outside, unready⟩ := unready_of_answer settled answered
  by_contra ready
  rw [Bool.not_eq_false] at ready
  have quiet : ∀ event ∈ events, ¬ entry.1.tracker.Completes event := fun event sent =>
    settled.quiet outside event (arrived.subset sent)
  rw [ReadinessTracker.isReady_of_handleEvents quiet ready] at unready
  cases unready

/-- A task of an algorithm that needs fresh spot prices. -/
def sampleTask : PickedTask := ⟨10, 0, 0, 0, 0⟩

def sampleRequirements : ComputationRequirements := ⟨{"spot_prices"}, ∅⟩

/-- An event is sent while a task waits, and the task times out. -/
def sampleRun (event : DerivedDataEvent) : List LoopAction :=
  [.pollDerived, .pollTask (some sampleTask), .send event, .timeOut]

/-- Another computation completes while the task waits. -/
theorem other_completion_heeded :
    HeedsArrivals (fun _ => "") 5 (start sampleRequirements 8)
      (sampleRun (.computationComplete "token_prices" 1 [])) := by
  apply heedsArrivals_of_undisturbed
  intro entry member
  simp only [sampleRun, traceFold, mem_cons, not_mem_nil, or_false] at member
  rcases member with rfl | rfl | rfl | rfl
  · trivial
  · trivial
  · intro _
    decide +kernel
  · trivial

/-- The spot prices complete while the task waits, and the task times out all the same. -/
theorem completion_during_wait_ignored :
    ¬ HeedsArrivals (fun _ => "") 5 (start sampleRequirements 8)
      (sampleRun (.computationComplete "spot_prices" 1 [])) := by
  intro heeds
  have unready := heeds _ (mem_cons_of_mem _ (mem_cons_of_mem _ (mem_cons_of_mem _
    mem_cons_self))) _ rfl _ (List.Sublist.refl _)
  revert unready
  decide +kernel

end WorkerLoop

end Fynd
