import Fynd.Nexus.Relay

/-!
# Running a venue's feed

The service starts a venue's feed, publishes what it yields and starts another one when it ends,
until one ends for good. The end of a feed withdraws the stream. A feed that cannot be started
leaves the stream as it is, so that a venue whose feed has never started has no message at all.
-/

namespace Fynd.Nexus

open Foundation List

variable {Data : Type}

/-- Why a feed ended or did not start. -/
inductive FeedError
  | fatal (message : String)
  | invalidInput (message : String)
  | connection (message : String)
  | parsing (message : String)

/-- How a feed ended. -/
inductive SnapshotFeedOutcome
  | failed (error : FeedError)
  | ranOut
  | panicked (message : String)

/-- What a feed yields. -/
inductive SnapshotFeedEvent (Data : Type)
  | published (prices : Data)
  | withdrawn
  | ended (outcome : SnapshotFeedOutcome)

/-- What to do about a feed that ended. -/
inductive RestartDecision
  | stop
  | restart

def restartDecisionForError : FeedError → RestartDecision
  | .fatal _ | .invalidInput _ => .stop
  | .connection _ | .parsing _ => .restart

/-- Decides whether a feed that ended starts again or stops for good. -/
def restartDecision : SnapshotFeedOutcome → RestartDecision
  | .failed error => restartDecisionForError error
  | .ranOut | .panicked _ => .restart

/-- What the runner does to the stream. -/
inductive StreamCall (Data : Type)
  | publish (prices : Data) (asOf : Int)
  | withdraw

/-- The stream after a call. The runner is the only one that writes to it. -/
def LatestPrices.call (text : MessageText Data) (self : LatestPrices) :
    StreamCall Data → LatestPrices
  | .publish prices asOf => { self with latest := self.publish text prices asOf }
  | .withdraw => { self with latest := (self.withdraw text).getD self.latest }

/-- Follows the events of a feed, each with the time it is handled at. Gives the decision and the
calls made to the stream. -/
def followFeed : List (Int × SnapshotFeedEvent Data) → RestartDecision × List (StreamCall Data)
  | [] => (.restart, [.withdraw])
  | (now, .published prices) :: later =>
    let followed := followFeed later
    (followed.1, .publish prices now :: followed.2)
  | (_, .withdrawn) :: later =>
    let followed := followFeed later
    (followed.1, .withdraw :: followed.2)
  | (_, .ended outcome) :: _ => (restartDecision outcome, [.withdraw])

/-- An attempt to start the feed: the error, or the events of the feed that was started. -/
abbrev FeedAttempt (Data : Type) := Except FeedError (List (Int × SnapshotFeedEvent Data))

/-- Makes attempts until one ends for good. After the listed ones the runner has returned or waits
to start the next feed. -/
def runFeed : List (FeedAttempt Data) → RestartDecision × List (StreamCall Data)
  | [] => (.restart, [])
  | attempt :: later =>
    let (decision, calls) := match attempt with
      | .ok events => followFeed events
      | .error error => (restartDecisionForError error, [])
    match decision with
    | .stop => (.stop, calls)
    | .restart =>
      let next := runFeed later
      (next.1, calls ++ next.2)

/-- Some feed is started before an attempt ends for good. -/
def StartsFeed : List (FeedAttempt Data) → Prop
  | [] => False
  | .ok _ :: _ => True
  | .error error :: later => restartDecisionForError error = .restart ∧ StartsFeed later

/-- The current message is a withdrawal. -/
def LatestPrices.ServesWithdrawal (text : MessageText Data) (self : LatestPrices) : Prop :=
  self.latest.encoded = some (text.encode (.new self.runId self.latest.seq .withdrawn))

/-- The stream says that it is withdrawn. -/
def LatestPrices.isWithdrawn (self : LatestPrices) : Bool :=
  match self.latest.state with
  | .withdrawn _ => true
  | .awaitingSnapshot _ | .serving _ => false

/-- A publication, or a change from not withdrawn to withdrawn. -/
def changesMessage (text : MessageText Data) (entry : LatestPrices × StreamCall Data) : Bool :=
  match entry.2 with
  | .publish _ _ => true
  | .withdraw => !entry.1.isWithdrawn && (entry.1.call text entry.2).isWithdrawn

/-- After some calls a stream serves a withdrawal, and its position has grown by the changes of its
message. -/
structure LeftWithdrawn (text : MessageText Data) (stream : LatestPrices)
    (calls : List (StreamCall Data)) : Prop where
  withdrawal : (calls.foldl (LatestPrices.call text) stream).ServesWithdrawal text
  counted : (calls.foldl (LatestPrices.call text) stream).latest.seq = stream.latest.seq +
    (traceFold (LatestPrices.call text) stream calls).countP (changesMessage text)

variable {text : MessageText Data} {stream : LatestPrices}

private theorem getLast?_followFeed (events : List (Int × SnapshotFeedEvent Data)) :
    (followFeed events).2.getLast? = some .withdraw := by
  induction events with
  | nil => rfl
  | cons entry later ih =>
    obtain ⟨now, prices | _ | outcome⟩ := entry
    · simp [followFeed, getLast?_cons, ih]
    · simp [followFeed, getLast?_cons, ih]
    · rfl

/-- The last call is a withdrawal, and there is none while no feed is started. -/
theorem getLast?_runFeed (attempts : List (FeedAttempt Data)) :
    (StartsFeed attempts → (runFeed attempts).2.getLast? = some .withdraw) ∧
      (¬StartsFeed attempts → (runFeed attempts).2 = []) := by
  induction attempts with
  | nil => exact ⟨False.elim, fun _ => rfl⟩
  | cons attempt later ih =>
    cases attempt with
    | error error =>
      cases decision : restartDecisionForError error with
      | stop => simp [runFeed, StartsFeed, decision]
      | restart => simpa [runFeed, StartsFeed, decision] using ih
    | ok events =>
      refine ⟨fun _ => ?_, fun idle => absurd trivial idle⟩
      have ends := getLast?_followFeed events
      by_cases starts : StartsFeed later <;> cases decision : (followFeed events).1 <;>
        simp [runFeed, decision, ends, ih, starts]

private theorem call_withdraw
    (withdrawn : stream.isWithdrawn = true → stream.ServesWithdrawal text) :
    (stream.call text .withdraw).ServesWithdrawal text := by
  cases state : stream.latest.state with
  | withdrawn =>
    rw [LatestPrices.call, LatestPrices.withdraw, state]
    exact withdrawn (by rw [LatestPrices.isWithdrawn, state])
  | awaitingSnapshot | serving =>
    simp [LatestPrices.call, LatestPrices.withdraw, state, LatestPrices.ServesWithdrawal]

/-- A stream that says it is withdrawn serves a withdrawal. -/
theorem servesWithdrawal_foldl (calls : List (StreamCall Data))
    (withdrawn : stream.isWithdrawn = true → stream.ServesWithdrawal text) :
    (calls.foldl (LatestPrices.call text) stream).isWithdrawn = true →
      (calls.foldl (LatestPrices.call text) stream).ServesWithdrawal text := by
  induction calls generalizing stream with
  | nil => exact withdrawn
  | cons call later ih =>
    refine ih ?_
    cases call with
    | publish => exact nofun
    | withdraw => exact fun _ => call_withdraw withdrawn

private theorem seq_foldl (calls : List (StreamCall Data)) :
    (calls.foldl (LatestPrices.call text) stream).latest.seq = stream.latest.seq +
      (traceFold (LatestPrices.call text) stream calls).countP (changesMessage text) := by
  induction calls generalizing stream with
  | nil => rfl
  | cons call later ih =>
    have step : (stream.call text call).latest.seq =
        stream.latest.seq + if changesMessage text (stream, call) then 1 else 0 := by
      cases call with
      | publish => rfl
      | withdraw =>
        cases state : stream.latest.state <;> simp [changesMessage, LatestPrices.call,
          LatestPrices.withdraw, LatestPrices.isWithdrawn, state]
    rw [foldl_cons, ih, step, traceFold, countP_cons]
    omega

/-- Fewer than 2 ^ 64 calls leave the position of a new stream below 2 ^ 64. -/
theorem seq_foldl_lt (runId : Nat) (startedAt : Int) (calls : List (StreamCall Data))
    (few : calls.length < 2 ^ 64) :
    (calls.foldl (LatestPrices.call text) (.new runId startedAt)).latest.seq < 2 ^ 64 := by
  have changes := countP_le_length (p := changesMessage text)
    (l := traceFold (LatestPrices.call text) (.new runId startedAt) calls)
  rw [Trace.length_traceFold] at changes
  have fresh : (LatestPrices.new runId startedAt).latest.seq = 0 := rfl
  rw [seq_foldl]
  omega

/-- **A stream is left withdrawn exactly if some feed was started.** Wherever the runner of a new
stream has returned or waits to start the next feed. -/
theorem leftWithdrawn_iff_startsFeed (text : MessageText Data) (runId : Nat) (startedAt : Int)
    (attempts : List (FeedAttempt Data)) :
    LeftWithdrawn text (.new runId startedAt) (runFeed attempts).2 ↔ StartsFeed attempts := by
  obtain ⟨started, idle⟩ := getLast?_runFeed attempts
  refine ⟨fun left => ?_, fun starts => ⟨?_, seq_foldl _⟩⟩
  · by_contra unstarted
    have served := left.withdrawal
    rw [idle unstarted] at served
    cases served
  · obtain ⟨front, split⟩ := getLast?_eq_some_iff.mp (started starts)
    rw [split, foldl_concat]
    exact call_withdraw (servesWithdrawal_foldl front nofun)

/-- A venue that refuses the chain at the first attempt is left without a message. -/
theorem refused_venue_not_withdrawn :
    ¬LeftWithdrawn Relay.strokesText (.new 7 0)
      (runFeed [.error (.fatal "unsupported chain")]).2 :=
  fun left => by cases left.withdrawal

end Fynd.Nexus
