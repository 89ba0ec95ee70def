import Fynd.Encoding.SignedLegs
import Fynd.Foundation.InPlace

/-!
# Encoding the quotes of a request

Each successful quote is encoded on a blocking task of its own. A task ends with the
encoded quote or with an error, it panics, or it is given up at the deadline. The tasks
are awaited in the order of the quotes, and the first that panicked ends the whole call.
-/

namespace Fynd

open Foundation List

variable {P F : Type}

/-! ## One quote -/

/-- Sets the output and moves the output net of gas with it. An output net of gas of zero stays,
and it does not fall below zero. -/
def OrderQuote.setAmountOut (quote : OrderQuote P) (value : Nat) : OrderQuote P :=
  { quote with
    amountOut := value
    amountOutNetGas :=
      if quote.amountOut ≤ value then
        if 0 < quote.amountOutNetGas then quote.amountOutNetGas + (value - quote.amountOut)
        else quote.amountOutNetGas
      else quote.amountOutNetGas - (quote.amountOut - value) }

/-- What the outside contributes to one task: the readings of the signer, the router's encoder and
the coding of its calls, and whether the task still runs at the deadline. An error of the encoder
is given as the quote reports it. -/
structure EncodingTask (P F : Type) where
  readings : Nat → Reading
  encodeSolutions : List (Solution P) → Except SolveError (List EncodedSolution)
  encodeRouterCall : EncodedSolution → Solution P → EncodingOptions P F →
    FeeRates → Except SolveError Transaction
  decodeSwaps : String → Bytes → Except SolveError Bytes
  late : Bool

namespace Encoder

variable [Double F] [SerializeSolution P]

variable {encoder : Encoder P} {task : EncodingTask P F} {quote : OrderQuote P}
  {options : EncodingOptions P F} {routerFees : RouterFees}

variable (encoder task quote) in
/-- Builds the router call of an encoded solution and writes it to the quote. -/
def attachTransaction (encodedSolution : Except SolveError EncodedSolution)
    (prepared : PreparedSolution P) (options : EncodingOptions P F) :
    Except SolveError (OrderQuote P) := do
  let encoded ← encodedSolution
  let transaction ← task.encodeRouterCall encoded prepared.solution options prepared.feeRates
  let calldata ← options.calldataHook.elim (.ok transaction.data) fun hook =>
    hook quote prepared.solution encoded transaction.data
  let swaps ← task.decodeSwaps encoded.functionSignature calldata
  let feeBreakdown :=
    if options.clientFeeParams.isSome then
      { prepared.feeBreakdown with swapsHash := some (encoder.primitives.keccak256 swaps) }
    else prepared.feeBreakdown
  let watermark := options.calldataWatermark <|> encoder.calldataWatermark
  return { quote.setAmountOut prepared.solution.expectedAmountOut with
    gasEstimate := encoded.estimatedGas
    subsidyAmount := prepared.solution.subsidy.map SubsidyTerms.amount
    transaction := some { transaction with data := calldata ++ watermark.getD [] }
    feeBreakdown := some feeBreakdown }

variable (encoder task quote options routerFees) in
/-- Encodes one quote. -/
def encodeQuote : Except SolveError (OrderQuote P) := do
  let prepared ← encoder.prepareSolution task.readings quote options routerFees
  let encodedSolution := do
    let encoded ← task.encodeSolutions [prepared.solution]
    encoded.getLast?.elim (.error (.failedEncoding "the encoder returned no encoded solution")) .ok
  encoder.attachTransaction task quote encodedSolution prepared options

theorem status_encodeQuote {quote encoded : OrderQuote P}
    (done : encoder.encodeQuote task quote options routerFees = .ok encoded) :
    encoded.status = quote.status := by
  obtain ⟨prepared, _, done⟩ := bind_eq_ok_iff.mp done
  obtain ⟨_, _, done⟩ := bind_eq_ok_iff.mp done
  obtain ⟨_, _, done⟩ := bind_eq_ok_iff.mp done
  obtain ⟨_, _, done⟩ := bind_eq_ok_iff.mp done
  obtain ⟨_, _, done⟩ := bind_eq_ok_iff.mp done
  cases done
  rfl

end Encoder

/-! ## The tasks of a call -/

/-- How a task ends, as the call that awaits it sees it. -/
inductive TaskEnd (P : Type)
  | encoded (quote : OrderQuote P)
  | failed (error : SolveError)
  | panicked (message : String)
  | late

namespace TaskEnd

/-- The encoded quote, or the error that fails it. -/
def result : TaskEnd P → Except SolveError (OrderQuote P)
  | .encoded quote => .ok quote
  | .failed error => .error error
  | .panicked message => .error (.panicked message)
  | .late => .error (.failedEncoding "the quote did not encode before the deadline")

/-- What a call gets from a task: its result, or an error of the task itself. -/
def join : TaskEnd P → Except SolveError (Except SolveError (OrderQuote P))
  | .panicked message => .error (.failedEncoding ("the encoding task failed: " ++ message))
  | ends => .ok ends.result

/-- The task panicked before the deadline. -/
def panics : TaskEnd P → Bool
  | .panicked _ => true
  | _ => false

private theorem join_eq_ok {ends : TaskEnd P} (calm : ends.panics = false) :
    ends.join = .ok ends.result := by
  cases ends with
  | panicked message => cases calm
  | _ => rfl

private theorem panics_of_join_eq_ok {ends : TaskEnd P} {result : Except SolveError (OrderQuote P)}
    (joined : ends.join = .ok result) : ends.panics = false := by
  cases ends with
  | panicked message => cases joined
  | _ => rfl

/-- The task gave no encoded quote. -/
def Fails : TaskEnd P → Prop
  | .encoded _ => False
  | _ => True

end TaskEnd

/-- Writes the result of a task over its quote. -/
def settle (result : Except SolveError (OrderQuote P)) (quote : OrderQuote P) : OrderQuote P :=
  match result with
  | .ok encoded => encoded
  | .error _ => { quote with status := .encodingFailed }

namespace Encoder

variable [Double F] [SerializeSolution P]

section

variable (encoder : Encoder P) (quotes : List (OrderQuote P)) (options : EncodingOptions P F)
  (routerFees : RouterFees) (deadline : Bool) (tasks : Nat → OrderQuote P → EncodingTask P F)
  (task : EncodingTask P F) (quote : OrderQuote P)

/-- Runs the task of a quote, up to the deadline if there is one. -/
def runTask : TaskEnd P :=
  if deadline && task.late then .late
  else
    match encoder.encodeQuote task quote options routerFees with
    | .ok encoded => .encoded encoded
    | .error (.panicked message) => .panicked message
    | .error error => .failed error

/-- Encodes each successful quote, with its position, in the order of the quotes. -/
def encodeQuotes : Except SolveError (List (Nat × Except SolveError (OrderQuote P))) :=
  (quotes.zipIdx.filter fun entry => entry.1.status = .success).mapM fun entry => do
    let result ←
      (encoder.runTask options routerFees deadline (tasks entry.2 entry.1) entry.1).join
    return (entry.2, result)

/-- Rejects a request for the second router where none is configured. -/
def checkJitRouterEncoding : Except SolveError Unit :=
  if encoder.jitRouterAddress.isNone then
    .error (.encodingUnavailable ("FyndJITRouter encoding is unavailable on chain '" ++
      encoder.chain ++ "': no FyndJITRouter address is configured (--jit-router-address)"))
  else .ok ()

/-- Encodes the quotes of a request. A quote that still encodes at the deadline is given up. -/
def encodeUntil : Except SolveError (List (OrderQuote P)) :=
  if encoder.routerAddress.isNone then
    .error (.encodingUnavailable ("encoding is unavailable on chain '" ++ encoder.chain ++
      "': no Tycho router is deployed. Fynd is running quote-only; contact ops to deploy the " ++
      "router/executor contracts."))
  else do
    let _ ← (if options.jitRouter then encoder.checkJitRouterEncoding else .ok ())
    let encoded ← encoder.encodeQuotes quotes options routerFees deadline tasks
    return encoded.foldl (fun settled entry => settled.modify entry.1 (settle entry.2)) quotes

/-! ## Isolation -/

/-- What a call makes of a quote: it is encoded, or marked if its task fails. A quote that was not
successful stays as it is. -/
def settledQuote : OrderQuote P :=
  if quote.status = .success then
    settle (encoder.runTask options routerFees deadline task quote).result quote
  else quote

/-- The task of a successful quote does not panic. -/
def Calm : Prop :=
  quote.status = .success →
    (encoder.runTask options routerFees deadline task quote).panics = false

/-- **One quote's failure stays with it.** The call returns one quote per quote, in order. A quote
whose task fails keeps everything but its status, and any other is what it is encoded to alone. -/
def IsolatesFailures : Prop :=
  ∃ settled, encoder.encodeUntil quotes options routerFees deadline tasks = .ok settled ∧
    settled.length = quotes.length ∧
    ∀ i quote result, quotes[i]? = some quote → settled[i]? = some result →
      let fails := quote.status = .success ∧
        (encoder.runTask options routerFees deadline (tasks i quote) quote).Fails
      (fails → result = { quote with status := .encodingFailed }) ∧
      (¬ fails →
        encoder.encodeUntil [quote] options routerFees deadline (fun _ => tasks i) = .ok [result])

end

variable {encoder : Encoder P} {quotes settled : List (OrderQuote P)}
  {options : EncodingOptions P F} {routerFees : RouterFees} {deadline : Bool}
  {tasks : Nat → OrderQuote P → EncodingTask P F} {task : EncodingTask P F} {quote : OrderQuote P}

omit [Double F] [SerializeSolution P] in
private theorem jitCheck_eq_ok_iff :
    (if options.jitRouter then encoder.checkJitRouterEncoding else .ok ()) = .ok () ↔
      (options.jitRouter = true → encoder.jitRouterAddress.isSome = true) := by
  unfold checkJitRouterEncoding
  cases options.jitRouter <;> cases encoder.jitRouterAddress <;> simp

/-- **A call whose tasks do not panic.** Every quote is settled by its own task. -/
theorem encodeUntil_eq_ok (deployed : encoder.routerAddress.isSome = true)
    (fronted : options.jitRouter = true → encoder.jitRouterAddress.isSome = true)
    (calm : ∀ entry ∈ quotes.zipIdx,
      encoder.Calm options routerFees deadline (tasks entry.2 entry.1) entry.1) :
    encoder.encodeUntil quotes options routerFees deadline tasks =
      .ok (quotes.zipIdx.map fun entry =>
        encoder.settledQuote options routerFees deadline (tasks entry.2 entry.1) entry.1) := by
  let result : OrderQuote P × ℕ → Option (Except SolveError (OrderQuote P)) :=
    fun entry => if entry.1.status = .success then
      some (encoder.runTask options routerFees deadline (tasks entry.2 entry.1) entry.1).result
      else none
  have joined : encoder.encodeQuotes quotes options routerFees deadline tasks =
      .ok (quotes.zipIdx.filterMap fun entry => (result entry).map (entry.2, ·)) := by
    have selected : (quotes.zipIdx.filterMap fun entry => (result entry).map (entry.2, ·)) =
        (quotes.zipIdx.filter fun entry => entry.1.status = .success).map fun entry =>
          (entry.2, (encoder.runTask options routerFees deadline (tasks entry.2 entry.1)
            entry.1).result) := by
      rw [← filterMap_eq_map, filterMap_filter]
      apply filterMap_congr
      intro entry _
      by_cases success : entry.1.status = .success <;> simp [result, success]
    rw [selected]
    apply mapM_eq_ok_map
    intro entry member
    obtain ⟨listed, success⟩ := mem_filter.mp member
    rw [TaskEnd.join_eq_ok (calm entry listed (of_decide_eq_true success))]
    rfl
  unfold encodeUntil
  rw [if_neg (by rw [Option.isNone_iff_eq_none]; exact Option.isSome_iff_ne_none.mp deployed),
    jitCheck_eq_ok_iff.mpr fronted, joined]
  change Except.ok _ = _
  rw [foldl_modify_zipIdx]
  congr 2
  funext entry
  by_cases success : entry.1.status = .success <;> simp [result, settledQuote, success]

/-- A call that returns met no task that panicked, and no request for a router that is not
there. -/
theorem calm_of_encodeUntil_eq_ok
    (returned : encoder.encodeUntil quotes options routerFees deadline tasks = .ok settled) :
    (options.jitRouter = true → encoder.jitRouterAddress.isSome = true) ∧
      ∀ entry ∈ quotes.zipIdx,
        encoder.Calm options routerFees deadline (tasks entry.2 entry.1) entry.1 := by
  unfold encodeUntil at returned
  split at returned
  · cases returned
  · obtain ⟨_, checked, returned⟩ := bind_eq_ok_iff.mp returned
    obtain ⟨results, joined, _⟩ := bind_eq_ok_iff.mp returned
    refine ⟨jitCheck_eq_ok_iff.mp checked, fun entry listed success => ?_⟩
    have selected : entry ∈ quotes.zipIdx.filter fun entry => entry.1.status = .success :=
      mem_filter.mpr ⟨listed, decide_eq_true success⟩
    obtain ⟨_, awaited⟩ := exists_of_forall₂_left (mapM_eq_ok_iff.mp joined) selected
    obtain ⟨_, done, _⟩ := bind_eq_ok_iff.mp awaited
    exact TaskEnd.panics_of_join_eq_ok done

/-- A quote whose task fails keeps everything but its status. -/
theorem settledQuote_of_fails (success : quote.status = .success)
    (fails : (encoder.runTask options routerFees deadline task quote).Fails) :
    encoder.settledQuote options routerFees deadline task quote =
      { quote with status := .encodingFailed } := by
  unfold settledQuote
  rw [if_pos success]
  cases ends : encoder.runTask options routerFees deadline task quote with
  | encoded encoded =>
    rw [ends] at fails
    exact fails.elim
  | _ => rfl

/-- **Failures are isolated exactly when no task panics.** -/
theorem isolatesFailures_iff_calm (encoder : Encoder P) (quotes : List (OrderQuote P))
    (options : EncodingOptions P F) (routerFees : RouterFees) (deadline : Bool)
    (tasks : Nat → OrderQuote P → EncodingTask P F)
    (deployed : encoder.routerAddress.isSome = true) :
    encoder.IsolatesFailures quotes options routerFees deadline tasks ↔
      (options.jitRouter = true → encoder.jitRouterAddress.isSome = true) ∧
        ∀ i quote, quotes[i]? = some quote →
          encoder.Calm options routerFees deadline (tasks i quote) quote := by
  constructor
  · rintro ⟨settled, returned, -, -⟩
    obtain ⟨fronted, calm⟩ := calm_of_encodeUntil_eq_ok returned
    exact ⟨fronted, fun i quote listed => calm (quote, i) (mem_zipIdx_iff_getElem?.mpr listed)⟩
  · rintro ⟨fronted, calm⟩
    refine ⟨_, encodeUntil_eq_ok deployed fronted fun entry listed =>
      calm entry.2 entry.1 (mem_zipIdx_iff_getElem?.mp listed), by simp, ?_⟩
    intro i quote result listed settled
    have own : encoder.settledQuote options routerFees deadline (tasks i quote) quote = result := by
      simpa [listed] using settled
    refine ⟨fun fails => own.symm.trans (settledQuote_of_fails fails.1 fails.2), fun _ => ?_⟩
    have alone : encoder.encodeUntil [quote] options routerFees deadline (fun _ => tasks i) =
        .ok [encoder.settledQuote options routerFees deadline (tasks i quote) quote] := by
      apply encodeUntil_eq_ok deployed fronted
      intro entry only
      obtain rfl := mem_singleton.mp only
      exact calm i quote listed
    rw [alone, own]

end Encoder

/-! ## Two quotes -/

section Samples

/-- An encoder on a chain with a router. -/
def deployedEncoder : Encoder Unit :=
  { sampleEncoder none with chain := "ethereum", routerAddress := some [1] }

def publicSwap : Swap Unit :=
  { exclusiveSwap with protocolComponent := ⟨"y", "uniswap_v2", [0, 1], ∅⟩ }

def taskWith (answer : Except SolveError (List EncodedSolution)) : EncodingTask Unit ℚ where
  readings := sampleReadings
  encodeSolutions := fun _ => answer
  encodeRouterCall := fun _ _ _ _ => .ok ⟨[1], 0, [2], none⟩
  decodeSwaps := fun _ _ => .ok []
  late := false

/-- The answer of the router's encoder to a solution it encodes. -/
def encodedSwap : Except SolveError (List EncodedSolution) := .ok [⟨"singleSwap", [], 100⟩]

/-- The router's encoder encodes the first quote and answers the second as given. -/
def tasksWith (second : Except SolveError (List EncodedSolution)) (position : Nat)
    (_ : OrderQuote Unit) : EncodingTask Unit ℚ :=
  taskWith (if position = 0 then encodedSwap else second)

/-- The encoder refuses the second quote. -/
def refusal : Except SolveError (List EncodedSolution) := .error (.failedEncoding "no signed quote")

/-- A quote that is refused leaves the other as it is. -/
theorem refused_quote_isolated :
    deployedEncoder.IsolatesFailures [singleSwapQuote publicSwap, singleSwapQuote publicSwap]
      sampleOptions sampleFees false (tasksWith refusal) := by
  refine (Encoder.isolatesFailures_iff_calm deployedEncoder _ sampleOptions sampleFees false
    (tasksWith refusal) rfl).mpr ⟨fun asked => (by cases asked), fun i quote listed => ?_⟩
  match i, listed with
  | 0, listed | 1, listed =>
    cases listed
    exact fun _ => by decide +kernel

/-- The encoder panics on the second quote. -/
def crash : Except SolveError (List EncodedSolution) := .error (.panicked "index out of bounds")

/-- The first quote encodes alone, but with a second whose task panics the call fails. -/
theorem panicked_task_fails_both :
    (deployedEncoder.encodeUntil [singleSwapQuote publicSwap] sampleOptions sampleFees false
      (tasksWith crash)).toOption.isSome = true ∧
    ¬ deployedEncoder.IsolatesFailures [singleSwapQuote publicSwap, singleSwapQuote publicSwap]
      sampleOptions sampleFees false (tasksWith crash) := by
  refine ⟨by decide +kernel, ?_⟩
  rintro ⟨settled, returned, -, -⟩
  have failed : (deployedEncoder.encodeUntil
      [singleSwapQuote publicSwap, singleSwapQuote publicSwap] sampleOptions sampleFees false
      (tasksWith crash)).toOption.isSome = false := by decide +kernel
  rw [returned] at failed
  cases failed

end Samples

end Fynd
