import Mathlib.Data.List.Basic
import Mathlib.Data.Nat.Digits.Defs
import Fynd.Types.Market

/-!
# A stream of the nexus service

The service keeps the latest message of each venue in memory: a snapshot of the venue's prices,
or a withdrawal. A message is known by the run of the service that wrote it and its position in
the run. Pods ask for the current message and name the tag of the one they have, so that the
service need not send it again. Two messages have the same tag only if run and position agree.
-/

namespace Fynd.Nexus

/-! ## Messages -/

/-- The protocol version this build writes and reads. -/
def protocolVersion : Nat := 1

/-- A snapshot or withdrawal carried by a message. -/
inductive MessageBody (Data : Type)
  | snapshot (asOf : Int) (data : Data)
  | withdrawn
  deriving DecidableEq, Repr

/-- The current message of a stream: the run of the service that wrote it, its position in the
stream, and what it carries. -/
structure NexusMessage (Data : Type) where
  version : Nat
  runId : Nat
  seq : Nat
  body : MessageBody Data
  deriving DecidableEq, Repr

/-- A message in this build's protocol version. -/
def NexusMessage.new {Data : Type} (runId seq : Nat) (body : MessageBody Data) :
    NexusMessage Data where
  version := protocolVersion
  runId := runId
  seq := seq
  body := body

/-- Errors when decoding text as a message. -/
inductive MessageError
  | malformed (error : String)
  | unsupportedVersion (found supported : Nat)
  deriving DecidableEq, Repr

/-- The JSON text of messages: a message is read as it was written. The version can be read
alone. -/
structure MessageText (Data : Type) where
  encode : NexusMessage Data → String
  fromStr : String → Except String (NexusMessage Data)
  versionField : String → Option Nat
  fromStr_encode : ∀ message, fromStr (encode message) = .ok message

variable {Data : Type}

/-- Reads a message. A text that cannot be read is reported by its version if that is not
this build's. -/
def NexusMessage.decode (text : MessageText Data) (encoded : String) :
    Except MessageError (NexusMessage Data) :=
  match text.fromStr encoded with
  | .ok message =>
    if message.version = protocolVersion then .ok message
    else .error (.unsupportedVersion message.version protocolVersion)
  | .error error =>
    match (text.versionField encoded).filter fun version => version ≠ protocolVersion with
    | some version => .error (.unsupportedVersion version protocolVersion)
    | none => .error (.malformed error)

theorem decode_encode_new (text : MessageText Data) (runId seq : Nat) (body : MessageBody Data) :
    NexusMessage.decode text (text.encode (.new runId seq body)) = .ok (.new runId seq body) := by
  simp only [NexusMessage.decode, text.fromStr_encode, NexusMessage.new, if_true]

/-! ## The latest message of a stream -/

/-- What a stream holds in the current service run. -/
inductive StreamState
  | awaitingSnapshot (startedAt : Int)
  | serving (asOf : Int)
  | withdrawn (lastAsOf : Int)
  deriving DecidableEq, Repr

/-- A stream's sequence number, encoded message and state, guarded by one lock. The number is a
64-bit word in the source. Runs of fewer than 2 ^ 64 steps never wrap it. -/
structure StreamRecord where
  seq : Nat
  encoded : Option String
  state : StreamState
  deriving DecidableEq, Repr

/-- The latest message of one stream in one run of the service. -/
structure LatestPrices where
  runId : Nat
  latest : StreamRecord
  deriving DecidableEq, Repr

/-- The message a stream serves, encoded once. -/
structure LatestMessage where
  runId : Nat
  seq : Nat
  encoded : String
  deriving DecidableEq, Repr

/-- The tag of a message by its run and position. -/
def etagOf (runId seq : Nat) : String :=
  "\"" ++ toString runId ++ "-" ++ toString seq ++ "\""

/-- The HTTP tag of a message. -/
def LatestMessage.etag (message : LatestMessage) : String :=
  etagOf message.runId message.seq

private theorem toList_etagOf (runId seq : Nat) :
    (etagOf runId seq).toList =
      '"' :: (Nat.toDigits 10 runId ++ '-' :: (Nat.toDigits 10 seq ++ ['"'])) := by
  simp [etagOf, String.toList_append, Nat.toString_eq_repr, Nat.toList_repr]

private theorem dash_notMem_toDigits (value : Nat) : '-' ∉ Nat.toDigits 10 value := by
  intro member
  have digit := Nat.isDigit_of_mem_toDigits (by omega) (by omega) member
  exact absurd digit (by decide)

private theorem toDigits_injective {value other : Nat}
    (same : Nat.toDigits 10 value = Nat.toDigits 10 other) : value = other := by
  rw [← Nat.ofDigitChars_toDigits (n := value) (b := 10) (by omega) (by omega), same,
    Nat.ofDigitChars_toDigits (by omega) (by omega)]

/-- Entity tags tell revisions apart. -/
theorem etagOf_injective {runId seq otherRun otherSeq : Nat}
    (same : etagOf runId seq = etagOf otherRun otherSeq) : runId = otherRun ∧ seq = otherSeq := by
  have letters := congrArg String.toList same
  rw [toList_etagOf, toList_etagOf, List.cons.injEq] at letters
  have plain : '-' ∉ Nat.toDigits 10 seq ++ ['"'] := by simp [dash_notMem_toDigits]
  obtain ⟨runs, _, seqs⟩ :=
    (List.append_cons_inj_of_notMem (dash_notMem_toDigits runId) plain).mp letters.2
  exact ⟨toDigits_injective runs, toDigits_injective (List.append_cancel_right seqs)⟩

namespace LatestPrices

/-- A stream with no snapshot yet. -/
def new (runId : Nat) (startedAt : Int) : LatestPrices where
  runId := runId
  latest := { seq := 0, encoded := none, state := .awaitingSnapshot startedAt }

/-- The latest message, if one has been written in this run. -/
def current (prices : LatestPrices) : Option LatestMessage :=
  prices.latest.encoded.map fun encoded =>
    { runId := prices.runId, seq := prices.latest.seq, encoded }

/-- The record a snapshot makes of the one it reads. The message is encoded before the lock is
taken again, to write it. -/
def publish (text : MessageText Data) (self : LatestPrices) (prices : Data) (asOf : Int) :
    StreamRecord :=
  let seq := self.latest.seq + 1
  let body := MessageBody.snapshot asOf prices
  { seq, encoded := some (text.encode (.new self.runId seq body)), state := .serving asOf }

/-- The record a withdrawal makes of the one it reads, unless that already is a withdrawal. -/
def withdraw (text : MessageText Data) (self : LatestPrices) : Option StreamRecord :=
  let withdrawal (lastAsOf : Int) : StreamRecord :=
    let seq := self.latest.seq + 1
    { seq, encoded := some (text.encode (.new self.runId seq .withdrawn)),
      state := .withdrawn lastAsOf }
  match self.latest.state with
  | .withdrawn _ => none
  | .awaitingSnapshot startedAt => some (withdrawal startedAt)
  | .serving asOf => some (withdrawal asOf)

end LatestPrices

/-- A record that a publication or withdrawal has encoded on top of the stored one. -/
def NextRecord (text : MessageText Data) (self : LatestPrices) (record : StreamRecord) : Prop :=
  record.seq = self.latest.seq + 1 ∧
    ∃ body, record.encoded = some (text.encode (.new self.runId record.seq body))

theorem nextRecord_withdraw {text : MessageText Data} {self : LatestPrices} {record : StreamRecord}
    (made : self.withdraw text = some record) : NextRecord text self record := by
  unfold LatestPrices.withdraw at made
  cases state : self.latest.state with
  | withdrawn _ => simp [state] at made
  | awaitingSnapshot | serving =>
    simp only [state, Option.some.injEq] at made
    exact made ▸ ⟨rfl, .withdrawn, rfl⟩

/-! ## Answers -/

/-- An answer of the service. -/
inductive Response
  | noContent
  | notModified (etag : String)
  | ok (etag : String) (body : String)
  deriving DecidableEq, Repr

/-- Answers with the stream's current message and its tag. There is no body when the asker
names the current tag, and no content while the run has no message. -/
def LatestPrices.answer (prices : LatestPrices) (ifNoneMatch : Option String) : Response :=
  match prices.current with
  | none => .noContent
  | some message =>
    if ifNoneMatch = some message.etag then .notModified message.etag
    else .ok message.etag message.encoded

end Fynd.Nexus
