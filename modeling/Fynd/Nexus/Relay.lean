import Fynd.Foundation.Trace
import Fynd.Nexus.Stream
import Mathlib.Logic.Encodable.Basic

/-!
# Relaying prices from the nexus service to a pod

A pod polls a stream, names the tag of the last message it took, and turns what it gets into
books: a snapshot into the venue's books, a withdrawal into none. It drops a message it has
applied before and a snapshot that is too old. The service meanwhile publishes, withdraws and
restarts, each restart under a run id of its own.

Every message is applied at most once and in order. After a poll that brings a message, or
learns that there is no newer one, the pod has last taken the service's current message.
-/

namespace Fynd.Nexus

open Foundation List

variable {Data Book : Type}

/-! ## The pod -/

/-- Which service run sent a message and where it sits in the stream. -/
structure MessageId where
  runId : Nat
  seq : Nat
  deriving DecidableEq, Repr

/-- The id a message carries. -/
def NexusMessage.id (message : NexusMessage Data) : MessageId where
  runId := message.runId
  seq := message.seq

/-- How a pod reads a venue's messages: the text of messages, the books of its prices, and the age
at which prices are rejected on arrival. -/
structure PollSettings (Data Book : Type) where
  text : MessageText Data
  books : Data → Except String (Map String Book)
  maxSnapshotAge : Option Nat

/-- What the poller keeps between polls. -/
structure PricePoller where
  etag : Option String := none
  lastApplied : Option MessageId := none
  deriving DecidableEq, Repr

/-- Books with the time they are anchored at. -/
structure BookSnapshot (Book : Type) where
  anchor : Int
  books : Map String Book

/-- Why a poll failed. -/
inductive PollError
  | request (error : String)
  | status (code : Nat)
  | message (error : MessageError)
  | prices (error : String)
  deriving DecidableEq, Repr

/-- How the exchange of a poll goes: the request fails, a server in between answers with another
status, the body is lost on the way, or all arrives. -/
inductive Delivery
  | requestFailed (error : String)
  | statusFailed (code : Nat)
  | bodyLost (error : String)
  | complete
  deriving DecidableEq, Repr

/-- Prices of some age are rejected. An age below zero counts as zero. -/
def isStale (maxSnapshotAge : Option Nat) (now asOf : Int) : Bool :=
  maxSnapshotAge.any fun maxAge => (maxAge : Int) < max (now - asOf) 0

namespace PricePoller

/-- A message of the same run that is not after the last applied one. -/
def isReplay (poller : PricePoller) (id : MessageId) : Bool :=
  poller.lastApplied.any fun last => last.runId = id.runId ∧ id.seq ≤ last.seq

/-- Records an id as applied. -/
def markApplied (poller : PricePoller) (id : MessageId) : PricePoller :=
  { poller with lastApplied := some id }

/-- Turns a snapshot into books, unless it was applied before or is too old. -/
def applySnapshot (settings : PollSettings Data Book) (now : Int) (poller : PricePoller)
    (id : MessageId) (asOf : Int) (data : Data) :
    Except PollError (PricePoller × Option (BookSnapshot Book)) :=
  if poller.isReplay id then .ok (poller, none)
  else if isStale settings.maxSnapshotAge now asOf then .ok (poller, none)
  else
    match settings.books data with
    | .error error => .error (.prices error)
    | .ok books => .ok (poller.markApplied id, some { anchor := asOf, books })

/-- Turns a withdrawal into empty books, unless it was applied before. -/
def applyWithdrawal (now : Int) (poller : PricePoller) (id : MessageId) :
    PricePoller × Option (BookSnapshot Book) :=
  if poller.isReplay id then (poller, none)
  else (poller.markApplied id, some { anchor := now, books := ∅ })

section

variable (settings : PollSettings Data Book)

/-- Applies a message. -/
def applyMessage (now : Int) (poller : PricePoller)
    (message : NexusMessage Data) : Except PollError (PricePoller × Option (BookSnapshot Book)) :=
  match message.body with
  | .snapshot asOf data => poller.applySnapshot settings now message.id asOf data
  | .withdrawn => .ok (poller.applyWithdrawal now message.id)

/-- Takes the body of an answer: the tag is kept once the message is dealt with. -/
def takeBody (now : Int) (poller : PricePoller)
    (etag body : String) : PricePoller × Except PollError (Option (BookSnapshot Book)) :=
  match NexusMessage.decode settings.text body with
  | .error error => (poller, .error (.message error))
  | .ok message =>
    match poller.applyMessage settings now message with
    | .error error => (poller, .error error)
    | .ok (next, snapshot) => ({ next with etag := some etag }, .ok snapshot)

/-- Asks the service for the current message and applies it. -/
def poll (now : Int) (poller : PricePoller) (service : LatestPrices) (delivery : Delivery) :
    PricePoller × Except PollError (Option (BookSnapshot Book)) :=
  match delivery, service.answer poller.etag with
  | .requestFailed error, _ => (poller, .error (.request error))
  | .statusFailed code, _ => (poller, .error (.status code))
  | _, .noContent => (poller, .ok none)
  | _, .notModified _ => (poller, .ok none)
  | .bodyLost error, .ok _ _ => (poller, .error (.request error))
  | .complete, .ok etag body => poller.takeBody settings now etag body

end

end PricePoller

/-! ## Service and pod together -/

/-- What became of a message that was new to the pod: applied, or discarded as too old. -/
inductive Fate
  | applied
  | tooOld (now : Int)
  deriving DecidableEq, Repr

/-- What becomes of a message. One that was applied before is dropped. -/
def PricePoller.fateOf (settings : PollSettings Data Book) (now : Int) (poller : PricePoller)
    (message : NexusMessage Data) : Option Fate :=
  if poller.isReplay message.id then none
  else
    match message.body with
    | .withdrawn => some .applied
    | .snapshot asOf _ =>
      if isStale settings.maxSnapshotAge now asOf then some (.tooOld now) else some .applied

/-- The service, with the record it has encoded and not stored yet and the ids of its runs, and the
pod, with the books it shows and the messages it has applied or discarded, the latest first. The
books may have been taken away since, when nothing replaced them for long enough. -/
structure Relay (Data Book : Type) where
  service : LatestPrices
  writing : Option StreamRecord
  runs : List Nat
  poller : PricePoller
  books : Option (BookSnapshot Book)
  expired : Bool
  handled : List (NexusMessage Data × Fate)

/-- What can happen. The feed runner publishes and withdraws one at a time, and each is cut where
it lets go of the lock. -/
inductive RelayAction (Data : Type)
  | publish (prices : Data) (asOf : Int)
  | withdraw
  | store
  | restart (runId : Nat) (startedAt : Int)
  | poll (now : Int) (delivery : Delivery)
  | expire

namespace Relay

/-- A service in its first run and a pod that has not polled. -/
def start (runId : Nat) (startedAt : Int) : Relay Data Book where
  service := .new runId startedAt
  writing := none
  runs := [runId]
  poller := {}
  books := none
  expired := false
  handled := []

section

variable (settings : PollSettings Data Book)

/-- The message a poll deals with, and what becomes of it. -/
def taken (relay : Relay Data Book) (now : Int)
    (delivery : Delivery) : Option (NexusMessage Data × Fate) :=
  match delivery, relay.service.answer relay.poller.etag with
  | .complete, .ok _ body =>
    match NexusMessage.decode settings.text body with
    | .ok message =>
      match relay.poller.applyMessage settings now message with
      | .ok _ => (relay.poller.fateOf settings now message).map fun fate => (message, fate)
      | .error _ => none
    | .error _ => none
  | _, _ => none

/-- A poll: new books replace the old ones. -/
def pollStep (relay : Relay Data Book) (now : Int) (delivery : Delivery) : Relay Data Book :=
  let polled := relay.poller.poll settings now relay.service delivery
  let handled := (relay.taken settings now delivery).toList ++ relay.handled
  match polled.2 with
  | .ok (some snapshot) =>
    { relay with poller := polled.1, books := some snapshot, expired := false, handled }
  | .ok none => { relay with poller := polled.1, handled }
  | .error _ => { relay with poller := polled.1, handled }

/-- One step. A publication while another is underway is no step, nor is a restart under a run id
that was used before. -/
def step (relay : Relay Data Book) :
    RelayAction Data → Relay Data Book
  | .publish prices asOf =>
    if relay.writing.isSome then relay
    else { relay with writing := some (relay.service.publish settings.text prices asOf) }
  | .withdraw =>
    if relay.writing.isSome then relay
    else { relay with writing := relay.service.withdraw settings.text }
  | .store =>
    match relay.writing with
    | none => relay
    | some record =>
      { relay with service := { relay.service with latest := record }, writing := none }
  | .restart runId startedAt =>
    if runId ∈ relay.runs then relay
    else
      { relay with
        service := .new runId startedAt
        writing := none
        runs := runId :: relay.runs }
  | .poll now delivery => relay.pollStep settings now delivery
  | .expire => { relay with books := none, expired := true }

end

/-! ## What is claimed of it -/

/-- The books a message stands for. -/
def BooksOf (settings : PollSettings Data Book) (message : NexusMessage Data)
    (snapshot : BookSnapshot Book) : Prop :=
  match message.body with
  | .snapshot asOf data => settings.books data = .ok snapshot.books ∧ snapshot.anchor = asOf
  | .withdrawn => snapshot.books = ∅

/-- A snapshot that was too old at some time. -/
def WasTooOld (settings : PollSettings Data Book) (message : NexusMessage Data) (now : Int) :
    Prop :=
  ∃ asOf data, message.body = .snapshot asOf data ∧
    isStale settings.maxSnapshotAge now asOf = true

/-- The ids of the applied messages, the latest first. -/
def applied (relay : Relay Data Book) : List MessageId :=
  (relay.handled.filter fun entry => entry.2 = .applied).map fun entry => entry.1.id

/-- Each message is applied at most once, those of one run by rising position. -/
structure AppliedInOrder (relay : Relay Data Book) : Prop where
  once : relay.applied.Nodup
  rising : relay.applied.Pairwise fun later earlier =>
    earlier.runId = later.runId → earlier.seq < later.seq

section

variable (settings : PollSettings Data Book)

/-- The last message the pod applied or discarded is the service's current one. If it was applied,
the pod shows its books, unless they have aged since. If it was discarded, it was too old. -/
structure UpToDate (relay : Relay Data Book)
    (message : NexusMessage Data) (fate : Fate) : Prop where
  last : relay.handled.head? = some (message, fate)
  current : relay.service.current =
    some { runId := message.runId, seq := message.seq, encoded := settings.text.encode message }
  shown : fate = .applied → relay.expired = false →
    ∃ snapshot, relay.books = some snapshot ∧ BooksOf settings message snapshot
  discarded : ∀ now, fate = .tooOld now → WasTooOld settings message now

/-- A poll succeeds with a body or with not-modified. -/
def Succeeds (relay : Relay Data Book) :
    RelayAction Data → Prop
  | .poll now delivery =>
    (∃ snapshot, (relay.poller.poll settings now relay.service delivery).2 = .ok snapshot) ∧
      relay.service.answer relay.poller.etag ≠ .noContent
  | _ => False

/-- Along a whole run messages are applied in order, and after each poll that succeeds with a body
or with not-modified the pod is up to date. -/
def RelaysInOrder (runId : Nat) (startedAt : Int) (actions : List (RelayAction Data)) : Prop :=
  ∀ entry ∈ traceFold (Relay.step settings) (start runId startedAt) actions,
    AppliedInOrder (entry.1.step settings entry.2) ∧
      (Succeeds settings entry.1 entry.2 →
        ∃ message fate, UpToDate settings (entry.1.step settings entry.2) message fate)

end

/-! ## The invariant -/

/-- How the two sides stand to each other. -/
structure Sound (settings : PollSettings Data Book) (relay : Relay Data Book) : Prop where
  stored : ∀ encoded, relay.service.latest.encoded = some encoded →
    ∃ body, encoded = settings.text.encode (.new relay.service.runId relay.service.latest.seq body)
  underway : ∀ record, relay.writing = some record → NextRecord settings.text relay.service record
  running : relay.service.runId ∈ relay.runs
  known : ∀ entry ∈ relay.handled, entry.1.runId ∈ relay.runs
  behind : ∀ entry ∈ relay.handled, entry.1.runId = relay.service.runId →
    entry.1.seq ≤ relay.service.latest.seq ∧ (entry.1.seq = relay.service.latest.seq →
      relay.service.latest.encoded = some (settings.text.encode entry.1))
  latestRun : ∀ entry ∈ relay.handled, entry.1.runId = relay.service.runId →
    ∀ head, relay.handled.head? = some head → head.1.runId = relay.service.runId
  rising : relay.handled.Pairwise fun later earlier =>
    earlier.1.runId = later.1.runId → earlier.1.seq < later.1.seq
  tagged : relay.poller.etag = relay.handled.head?.map fun head =>
    etagOf head.1.runId head.1.seq
  lastApplied : ∀ id, relay.poller.lastApplied = some id →
    ∃ entry ∈ relay.handled, entry.1.id = id
  shown : ∀ message, relay.handled.head? = some (message, .applied) → relay.expired = false →
    ∃ snapshot, relay.books = some snapshot ∧ BooksOf settings message snapshot
  discarded : ∀ message now, relay.handled.head? = some (message, .tooOld now) →
    WasTooOld settings message now

variable {settings : PollSettings Data Book} {relay : Relay Data Book}

private theorem sound_start (settings : PollSettings Data Book) (runId : Nat) (startedAt : Int) :
    Sound settings (start runId startedAt) where
  stored := nofun
  underway := nofun
  running := by simp [start, LatestPrices.new]
  known := by simp [start]
  behind := by simp [start]
  latestRun := by simp [start]
  rising := by simp [start]
  tagged := rfl
  lastApplied := nofun
  shown := nofun
  discarded := nofun

section

variable (sound : Sound settings relay)
include sound

/-- Encoding the next record changes nothing that is served. -/
theorem Sound.begin {record : Option StreamRecord}
    (next : ∀ written, record = some written → NextRecord settings.text relay.service written) :
    Sound settings { relay with writing := record } :=
  { sound with underway := next }

/-- Storing the next record leaves every message the pod has taken behind. -/
theorem Sound.store {record : StreamRecord} (next : NextRecord settings.text relay.service record) :
    Sound settings
      { relay with service := { relay.service with latest := record }, writing := none } :=
  { sound with
    stored := by
      intro encoded found
      obtain ⟨_, body, written⟩ := next
      exact ⟨body, Option.some.inj (found.symm.trans written)⟩
    underway := nofun
    behind := by
      intro entry member same
      have before := (sound.behind entry member same).1
      have rises : record.seq = relay.service.latest.seq + 1 := next.1
      refine ⟨?_, fun equal => ?_⟩
      · change entry.1.seq ≤ record.seq
        omega
      · change entry.1.seq = record.seq at equal
        omega }

private theorem Sound.runId_ne {runId : Nat} (fresh : runId ∉ relay.runs)
    {entry : NexusMessage Data × Fate} (member : entry ∈ relay.handled) : entry.1.runId ≠ runId :=
  fun same => fresh (same ▸ sound.known entry member)

private theorem Sound.restart {runId : Nat} (fresh : runId ∉ relay.runs) (startedAt : Int) :
    Sound settings
      { relay with
        service := .new runId startedAt
        writing := none
        runs := runId :: relay.runs } :=
  { sound with
    stored := nofun
    underway := nofun
    running := mem_cons_self
    known := fun entry member => mem_cons_of_mem _ (sound.known entry member)
    behind := fun _ member same => absurd same (sound.runId_ne fresh member)
    latestRun := fun _ member same => absurd same (sound.runId_ne fresh member) }

private theorem Sound.expire : Sound settings { relay with books := none, expired := true } :=
  { sound with shown := nofun }

end

/-! ## Polls -/

variable {etag : String} {message : NexusMessage Data} {now : Int} {delivery : Delivery}

section

variable (sound : Sound settings relay)
include sound

/-- A body is the current message, and its tag is not the one the pod has. -/
theorem Sound.answer_ok {body : String}
    (answered : relay.service.answer relay.poller.etag = .ok etag body) :
    relay.poller.etag ≠ some etag ∧
      etag = etagOf relay.service.runId relay.service.latest.seq ∧
      relay.service.latest.encoded = some body ∧
      ∃ content, body =
        settings.text.encode (.new relay.service.runId relay.service.latest.seq content) := by
  unfold LatestPrices.answer LatestPrices.current at answered
  cases encoded : relay.service.latest.encoded with
  | none => simp [encoded] at answered
  | some text =>
    simp only [encoded, Option.map_some] at answered
    split at answered
    · cases answered
    · rename_i differs
      cases answered
      exact ⟨differs, rfl, rfl, sound.stored _ encoded⟩

/-- The current message is the last one taken. -/
theorem Sound.upToDate_of_head {fate : Fate} (head : relay.handled.head? = some (message, fate))
    (written : relay.service.latest.encoded = some (settings.text.encode message))
    (runs : message.runId = relay.service.runId) (seqs : message.seq = relay.service.latest.seq) :
    ∃ message fate, UpToDate settings relay message fate := by
  refine ⟨message, fate, head, ?_, ?_, ?_⟩
  · rw [LatestPrices.current, written, Option.map_some, runs, seqs]
  · rintro rfl
    exact sound.shown message head
  · rintro now rfl
    exact sound.discarded message now head

private theorem Sound.answer_notModified
    (answered : relay.service.answer relay.poller.etag = .notModified etag) :
    ∃ message fate, UpToDate settings relay message fate := by
  unfold LatestPrices.answer LatestPrices.current at answered
  cases encoded : relay.service.latest.encoded with
  | none => simp [encoded] at answered
  | some text =>
    simp only [encoded, Option.map_some] at answered
    split at answered
    · rename_i same
      rw [sound.tagged, Option.map_eq_some_iff] at same
      obtain ⟨⟨message, fate⟩, head, tags⟩ := same
      obtain ⟨runs, seqs⟩ := etagOf_injective tags
      have member := mem_of_mem_head? head
      exact sound.upToDate_of_head head ((sound.behind _ member runs).2 seqs) runs seqs
    · cases answered

/-- Everything the pod has taken from the current run comes before the current message, when that
has another tag than the last one taken. -/
theorem Sound.before_current
    (fresh : relay.poller.etag ≠ some (etagOf relay.service.runId relay.service.latest.seq))
    {entry : NexusMessage Data × Fate} (member : entry ∈ relay.handled)
    (same : entry.1.runId = relay.service.runId) : entry.1.seq < relay.service.latest.seq := by
  refine lt_of_le_of_ne (sound.behind entry member same).1 fun equal => ?_
  cases split : relay.handled with
  | nil => simp [split] at member
  | cons head rest =>
    have heads : relay.handled.head? = some head := by rw [split, head?_cons]
    have runs := sound.latestRun entry member same head heads
    have bound := (sound.behind head (by simp [split]) runs).1
    have rising := sound.rising
    rw [split, pairwise_cons] at rising
    rw [split, mem_cons] at member
    obtain rfl | later := member
    · exact fresh (by rw [sound.tagged, heads, Option.map_some, same, equal])
    · have less := rising.1 entry later (same.trans runs.symm)
      omega

private theorem Sound.isReplay_eq_false
    (after : ∀ entry ∈ relay.handled, entry.1.runId = message.runId → entry.1.seq < message.seq) :
    relay.poller.isReplay message.id = false := by
  unfold PricePoller.isReplay
  cases found : relay.poller.lastApplied with
  | none => rfl
  | some id =>
    obtain ⟨entry, member, rfl⟩ := sound.lastApplied id found
    rw [Option.any_some, decide_eq_false_iff_not]
    rintro ⟨runs, least⟩
    exact absurd (after entry member runs) (not_lt.mpr least)

end

/-- What becomes of a new message that the pod can read. -/
structure Takes (settings : PollSettings Data Book) (now : Int) (poller : PricePoller)
    (message : NexusMessage Data) (next : PricePoller) (snapshot : Option (BookSnapshot Book))
    (fate : Fate) : Prop where
  fated : poller.fateOf settings now message = some fate
  marked : ∀ id, next.lastApplied = some id → id = message.id ∨ poller.lastApplied = some id
  shown : fate = .applied → ∃ books, snapshot = some books ∧ BooksOf settings message books
  kept : fate ≠ .applied → snapshot = none
  discarded : ∀ time, fate = .tooOld time → WasTooOld settings message time

private theorem takes_of_applyMessage {poller next : PricePoller}
    {snapshot : Option (BookSnapshot Book)} (unseen : poller.isReplay message.id = false)
    (applied : poller.applyMessage settings now message = .ok (next, snapshot)) :
    ∃ fate, Takes settings now poller message next snapshot fate := by
  have marks (id : MessageId) (found : (poller.markApplied message.id).lastApplied = some id) :
      id = message.id ∨ poller.lastApplied = some id := .inl (Option.some.inj found).symm
  unfold PricePoller.applyMessage at applied
  cases content : message.body with
  | withdrawn =>
    simp only [content, PricePoller.applyWithdrawal, unseen, Bool.false_eq_true, if_false,
      Except.ok.injEq, Prod.mk.injEq] at applied
    obtain ⟨rfl, rfl⟩ := applied
    refine ⟨.applied, by simp [PricePoller.fateOf, unseen, content], marks,
      fun _ => ⟨_, rfl, ?_⟩, fun differs => absurd rfl differs, nofun⟩
    simp [BooksOf, content]
  | snapshot asOf data =>
    simp only [content, PricePoller.applySnapshot, unseen, Bool.false_eq_true, if_false]
      at applied
    cases stale : isStale settings.maxSnapshotAge now asOf with
    | true =>
      simp only [stale, if_true, Except.ok.injEq, Prod.mk.injEq] at applied
      obtain ⟨rfl, rfl⟩ := applied
      refine ⟨.tooOld now, by simp [PricePoller.fateOf, unseen, content, stale],
        fun id => .inr, nofun, fun _ => rfl, fun time same => ?_⟩
      cases same
      exact ⟨asOf, data, content, stale⟩
    | false =>
      simp only [stale, Bool.false_eq_true, if_false] at applied
      cases built : settings.books data with
      | error error => simp [built] at applied
      | ok books =>
        simp only [built, Except.ok.injEq, Prod.mk.injEq] at applied
        obtain ⟨rfl, rfl⟩ := applied
        refine ⟨.applied, by simp [PricePoller.fateOf, unseen, content, stale], marks,
          fun _ => ⟨_, rfl, ?_⟩, fun differs => absurd rfl differs, nofun⟩
        simp [BooksOf, content, built]

/-- The state after a poll that takes a message. -/
def take (relay : Relay Data Book) (message : NexusMessage Data) (fate : Fate)
    (next : PricePoller) (snapshot : Option (BookSnapshot Book)) : Relay Data Book :=
  { relay with
    poller := { next with etag := some (etagOf message.runId message.seq) }
    books := snapshot.or relay.books
    expired := relay.expired && snapshot.isNone
    handled := (message, fate) :: relay.handled }

variable (settings relay message) in
/-- A message the pod takes: the current one, after all that it took from this run. -/
structure Fresh : Prop where
  current : relay.service.latest.encoded = some (settings.text.encode message)
  runId : message.runId = relay.service.runId
  seq : message.seq = relay.service.latest.seq
  after : ∀ entry ∈ relay.handled, entry.1.runId = message.runId → entry.1.seq < message.seq

variable (settings relay now delivery) in
/-- A poll leaves things as they are, and if it succeeds there is no newer message. -/
structure Unmoved : Prop where
  same : relay.pollStep settings now delivery = relay
  newest : Succeeds settings relay (.poll now delivery) →
    ∃ etag, relay.service.answer relay.poller.etag = .notModified etag

private theorem unmoved_of_failed (error : PollError)
    (failed : relay.poller.poll settings now relay.service delivery = (relay.poller, .error error))
    (untaken : relay.taken settings now delivery = none) : Unmoved settings relay now delivery := by
  refine ⟨by simp [pollStep, failed, untaken], ?_⟩
  rintro ⟨⟨snapshot, succeeded⟩, _⟩
  rw [failed] at succeeded
  cases succeeded

private theorem unmoved_of_bodyless
    (answered : relay.service.answer relay.poller.etag = .noContent ∨ ∃ etag,
      relay.service.answer relay.poller.etag = .notModified etag) :
    Unmoved settings relay now delivery := by
  refine ⟨?_, fun succeeds => answered.resolve_left succeeds.2⟩
  rcases answered with none | ⟨etag, same⟩ <;> cases delivery <;>
    simp [pollStep, PricePoller.poll, taken, *]

section

variable (sound : Sound settings relay)
include sound

/-- A body that arrives is taken if the pod can read its prices. -/
theorem Sound.poll_body (now : Int) {body : String}
    (answered : relay.service.answer relay.poller.etag = .ok etag body) :
    Unmoved settings relay now .complete ∨
    ∃ message fate next snapshot, Fresh settings relay message ∧
      Takes settings now relay.poller message next snapshot fate ∧
      relay.pollStep settings now .complete = relay.take message fate next snapshot := by
  obtain ⟨differs, rfl, stored, content, rfl⟩ := sound.answer_ok answered
  have read := decode_encode_new settings.text relay.service.runId relay.service.latest.seq content
  cases applied : relay.poller.applyMessage settings now
      (.new relay.service.runId relay.service.latest.seq content) with
  | error error =>
    refine .inl (unmoved_of_failed error ?_ ?_)
    · simp [PricePoller.poll, answered, PricePoller.takeBody, read, applied]
    · simp [taken, answered, read, applied]
  | ok result =>
    obtain ⟨next, snapshot⟩ := result
    have fresh : Fresh settings relay
        (.new relay.service.runId relay.service.latest.seq content) :=
      ⟨stored, rfl, rfl, fun entry member => sound.before_current differs member⟩
    obtain ⟨fate, takes⟩ := takes_of_applyMessage (sound.isReplay_eq_false fresh.after) applied
    have polled : relay.poller.poll settings now relay.service .complete =
        ({ next with etag := some (etagOf relay.service.runId relay.service.latest.seq) },
          .ok snapshot) := by
      simp [PricePoller.poll, answered, PricePoller.takeBody, read, applied]
    have handled : relay.taken settings now .complete =
        some (.new relay.service.runId relay.service.latest.seq content, fate) := by
      simp [taken, answered, read, applied, takes.fated]
    refine .inr ⟨_, fate, next, snapshot, fresh, takes, ?_⟩
    cases snapshot with
    | none | some =>
      simp only [pollStep, polled, handled, take]
      simp [NexusMessage.new]

private theorem Sound.poll_cases (now : Int) (delivery : Delivery) :
    Unmoved settings relay now delivery ∨
    ∃ message fate next snapshot, Fresh settings relay message ∧
      Takes settings now relay.poller message next snapshot fate ∧
      relay.pollStep settings now delivery = relay.take message fate next snapshot := by
  cases answered : relay.service.answer relay.poller.etag with
  | noContent => exact .inl (unmoved_of_bodyless (.inl answered))
  | notModified etag => exact .inl (unmoved_of_bodyless (.inr ⟨etag, answered⟩))
  | ok etag body =>
    cases delivery with
    | requestFailed error => exact .inl (unmoved_of_failed (.request error) rfl rfl)
    | statusFailed code => exact .inl (unmoved_of_failed (.status code) rfl rfl)
    | bodyLost error =>
      exact .inl (unmoved_of_failed (.request error) (by simp [PricePoller.poll, answered]) rfl)
    | complete => exact sound.poll_body now answered

/-- Taking the current message keeps the two sides in step. -/
theorem Sound.take {fate : Fate} {next : PricePoller} {snapshot : Option (BookSnapshot Book)}
    (fresh : Fresh settings relay message)
    (takes : Takes settings now relay.poller message next snapshot fate) :
    Sound settings (relay.take message fate next snapshot) :=
  { sound with
    known := forall_mem_cons.mpr ⟨fresh.runId ▸ sound.running, sound.known⟩
    behind := forall_mem_cons.mpr
      ⟨fun _ => ⟨fresh.seq.le, fun _ => fresh.current⟩, sound.behind⟩
    latestRun := by
      intro _ _ _ head found
      cases found
      exact fresh.runId
    rising := pairwise_cons.mpr ⟨fresh.after, sound.rising⟩
    tagged := rfl
    lastApplied := by
      intro id found
      obtain rfl | earlier := takes.marked id found
      · exact ⟨(message, fate), mem_cons_self, rfl⟩
      · obtain ⟨entry, member, same⟩ := sound.lastApplied id earlier
        exact ⟨entry, mem_cons_of_mem _ member, same⟩
    shown := by
      intro taken found _
      cases found
      obtain ⟨books, rfl, stands⟩ := takes.shown rfl
      exact ⟨books, rfl, stands⟩
    discarded := by
      intro taken time found
      cases found
      exact takes.discarded time rfl }

/-- After a poll that succeeds with a body or with not-modified the pod is up to date. -/
theorem Sound.upToDate {action : RelayAction Data} (succeeds : Succeeds settings relay action) :
    ∃ message fate, UpToDate settings (relay.step settings action) message fate := by
  cases action with
  | poll now delivery =>
    obtain unmoved | ⟨message, fate, next, snapshot, fresh, takes, taken⟩ :=
      sound.poll_cases now delivery
    · obtain ⟨etag, notModified⟩ := unmoved.newest succeeds
      rw [step, unmoved.same]
      exact sound.answer_notModified notModified
    · rw [step, taken]
      exact (sound.take fresh takes).upToDate_of_head rfl fresh.current fresh.runId fresh.seq
  | publish | withdraw | store | restart | expire => cases succeeds

private theorem Sound.step (action : RelayAction Data) :
    Sound settings (relay.step settings action) := by
  cases action with
  | publish prices asOf =>
    rw [Relay.step]
    split
    · exact sound
    · refine sound.begin fun written found => ?_
      cases found
      exact ⟨rfl, .snapshot asOf prices, rfl⟩
  | withdraw =>
    rw [Relay.step]
    split
    · exact sound
    · exact sound.begin fun written found => nextRecord_withdraw found
  | store =>
    rw [Relay.step]
    cases pending : relay.writing with
    | none => exact sound
    | some record => exact sound.store (sound.underway record pending)
  | restart runId startedAt =>
    rw [Relay.step]
    split
    · exact sound
    · rename_i fresh
      exact sound.restart fresh startedAt
  | poll now delivery =>
    obtain unmoved | ⟨message, fate, next, snapshot, fresh, takes, taken⟩ :=
      sound.poll_cases now delivery
    · rw [Relay.step, unmoved.same]
      exact sound
    · rw [Relay.step, taken]
      exact sound.take fresh takes
  | expire => exact sound.expire

/-- A step raises the stored position by at most one: a record that is stored was encoded on top of
the one it replaces. -/
theorem Sound.seq_step_le (action : RelayAction Data) :
    (relay.step settings action).service.latest.seq ≤ relay.service.latest.seq + 1 := by
  cases action with
  | publish | withdraw =>
    rw [Relay.step]
    split <;> simp
  | store =>
    rw [Relay.step]
    cases pending : relay.writing with
    | none => simp
    | some record => exact (sound.underway record pending).1.le
  | restart runId startedAt =>
    rw [Relay.step]
    split
    · simp
    · exact Nat.zero_le _
  | poll now delivery =>
    obtain unmoved | ⟨message, fate, next, snapshot, _, _, taken⟩ :=
      sound.poll_cases now delivery
    · simp [Relay.step, unmoved.same]
    · simp [Relay.step, taken, Relay.take]
  | expire => simp [Relay.step]

private theorem Sound.seq_trace_le {entry : Relay Data Book × RelayAction Data}
    {actions : List (RelayAction Data)}
    (member : entry ∈ traceFold (Relay.step settings) relay actions) :
    entry.1.service.latest.seq + 1 ≤ relay.service.latest.seq + actions.length := by
  induction actions generalizing relay with
  | nil => cases member
  | cons action rest ih =>
    rw [length_cons]
    obtain rfl | later := mem_cons.mp member
    · dsimp only
      omega
    · have reached := ih (sound.step action) later
      have raised := sound.seq_step_le action
      omega

/-- What is taken in order is applied in order. -/
theorem Sound.appliedInOrder : AppliedInOrder relay := by
  have rising : relay.applied.Pairwise fun later earlier =>
      earlier.runId = later.runId → earlier.seq < later.seq :=
    pairwise_map.mpr (sound.rising.sublist filter_sublist)
  refine ⟨rising.imp ?_, rising⟩
  rintro later earlier less rfl
  exact absurd (less rfl) (lt_irrefl _)

end

/-- **Positions fit their word.** In a run of fewer than 2 ^ 64 steps the next position is below
2 ^ 64 at every step, so the 64-bit sum of the source is the sum of numbers. -/
theorem next_seq_lt (settings : PollSettings Data Book) (runId : Nat) (startedAt : Int)
    (actions : List (RelayAction Data)) (short : actions.length < 2 ^ 64) :
    ∀ entry ∈ traceFold (Relay.step settings) (start runId startedAt) actions,
      entry.1.service.latest.seq + 1 < 2 ^ 64 := by
  intro entry member
  have reached := (sound_start settings runId startedAt).seq_trace_le member
  have fresh : (start runId startedAt : Relay Data Book).service.latest.seq = 0 := rfl
  omega

/-- **Prices are relayed in order.** Whatever the service and the pod do, the pod applies every
message at most once and those of one run by rising position, and after each poll that succeeds
with a body or with not-modified it is up to date. -/
theorem relayed_in_order (settings : PollSettings Data Book) (runId : Nat) (startedAt : Int)
    (actions : List (RelayAction Data)) : RelaysInOrder settings runId startedAt actions := by
  have along := (Trace.fold (Relay.step settings) (start runId startedAt) actions).invariant
    (Sound settings) (sound_start settings runId startedAt) fun entry _ sound => sound.step entry.2
  intro entry member
  obtain ⟨before, after⟩ := along.1 entry member
  exact ⟨after.appliedInOrder, before.upToDate⟩

section Samples

def snapshotTime : MessageBody Unit → Option Int
  | .snapshot asOf _ => some asOf
  | .withdrawn => none

def bodyAt : Option Int → MessageBody Unit
  | some asOf => .snapshot asOf ()
  | none => .withdrawn

private theorem bodyAt_snapshotTime (body : MessageBody Unit) :
    bodyAt (snapshotTime body) = body := by
  cases body <;> rfl

/-- Messages written as a number of strokes. -/
def strokesText : MessageText Unit where
  encode := fun message => String.ofList (List.replicate (Encodable.encode
    (message.version, message.runId, message.seq, snapshotTime message.body)) '|')
  fromStr := fun text =>
    match (Encodable.decode text.toList.length : Option (Nat × Nat × Nat × Option Int)) with
    | some (version, runId, seq, time) => .ok { version, runId, seq, body := bodyAt time }
    | none => .error "not a message"
  versionField := fun _ => none
  fromStr_encode := by
    intro message
    simp only [String.toList_ofList, length_replicate, Encodable.encodek, bodyAt_snapshotTime]

/-- A venue with one book and prices that are good for a minute. -/
def strokesSettings : PollSettings Unit Nat where
  text := strokesText
  books := fun _ => .ok (mapOfList [("bebop", 1)])
  maxSnapshotAge := some 60

/-- Prices, a poll, a withdrawal polled before and after it is stored, and a restart. -/
def polledRun : List (RelayAction Unit) :=
  [.publish () 0, .store, .poll 1 .complete, .withdraw, .poll 2 .complete, .store,
    .poll 3 (.bodyLost "reset"), .poll 4 .complete, .restart 8 5, .poll 6 .complete,
    .publish () 6, .store, .poll 90 .complete, .poll 91 .complete]

/-- The run is relayed in order. -/
theorem polled_run_in_order : RelaysInOrder strokesSettings 7 0 polledRun :=
  relayed_in_order strokesSettings 7 0 polledRun

end Samples

end Relay

end Fynd.Nexus
