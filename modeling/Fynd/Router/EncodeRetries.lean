import Mathlib.Algebra.Order.BigOperators.Group.List
import Fynd.Encoding.EncodeQuotes
import Fynd.Router.Solve

/-!
# Encoding with retries

The best candidates of all orders are encoded in one batch. Then, round by round, every order
that is still without calldata tries its next candidate without an RFQ leg, again in one
batch, until every order is encoded or has none left, or the time for retries is over. Since
a batch settles each quote by its own task, the orders do not see each other.
-/

namespace Fynd

open Foundation List

variable {P F : Type}

/-- A protocol system without the mark of its fallback router. -/
def stripFallback (protocolSystem : String) : String :=
  if protocolSystem.startsWith "fallback:" then (protocolSystem.drop 9).toString else protocolSystem

/-- Whether a protocol system quotes on request, through its own executor or its fallback router. -/
def isRfqProtocol (protocolSystem : String) : Bool :=
  (stripFallback protocolSystem).startsWith "rfq:"

/-- Whether a quote has a leg that quotes on request. -/
def hasRfqLeg (quote : OrderQuote P) : Bool :=
  quote.route.any fun route => route.swaps.any fun swap => isRfqProtocol swap.protocol

/-- Whether a candidate may be tried after the best one. -/
def isRetryCandidate (candidate : OrderQuote P) : Bool :=
  candidate.status = .success && !hasRfqLeg candidate

/-- An order under way: its quote so far and the candidates it may still try. -/
abbrev OrderRetry (P : Type) := OrderQuote P × List (OrderQuote P)

/-- The next candidate of an order that is still without calldata. -/
def nextCandidate (order : OrderRetry P) : Option (OrderQuote P) :=
  if order.1.status ≠ .encodingFailed then none else order.2.head?

/-- What a retry makes of an order: its candidate is used up, and replaces the quote if it was
encoded. -/
def acceptRetry (retried : OrderQuote P) (order : OrderRetry P) : OrderRetry P :=
  (if retried.status = .success then retried else order.1, order.2.tail)

section Retries

variable [Double F] [SerializeSolution P]

/-- Retries round after round. Each round has its own tasks, and may come too late. -/
def retryRounds (encoder : Encoder P) (options : EncodingOptions P F) (routerFees : RouterFees)
    (withinBudget : Nat → Bool) (tasks : Nat → Nat → OrderQuote P → EncodingTask P F) :
    Nat → Nat → List (OrderRetry P) → Except SolveError (List (OrderQuote P))
  | 0, _, orders => .ok (orders.map Prod.fst)
  | fuel + 1, round, orders =>
    let retried := orders.zipIdx.filterMap fun entry => (nextCandidate entry.1).map (entry.2, ·)
    if retried.isEmpty then .ok (orders.map Prod.fst)
    else if !withinBudget round then .ok (orders.map Prod.fst)
    else do
      let retriedQuotes ← encoder.encodeUntil (retried.map Prod.snd) options routerFees true
        (tasks round)
      retryRounds encoder options routerFees withinBudget tasks fuel (round + 1)
        (((retried.map Prod.fst).zip retriedQuotes).foldl
          (fun settled entry => settled.modify entry.1 (acceptRetry entry.2)) orders)

/-- Encodes the best candidate of every order, and on failure the next ones. -/
def encodeWithRetries (encoder : Encoder P) (ranked : RankedQuotes P)
    (options : EncodingOptions P F) (routerFees : RouterFees) (withinBudget : Nat → Bool)
    (tasks : Nat → Nat → OrderQuote P → EncodingTask P F) :
    Except SolveError (List (OrderQuote P)) := do
  let bestCandidates := ranked.perOrder.filterMap List.head?
  let retryCandidates := ranked.perOrder.map fun candidates =>
    candidates.tail.filter isRetryCandidate
  let quotes ← encoder.encodeUntil bestCandidates options routerFees false (tasks 0)
  let fuel := (retryCandidates.map List.length).sum + 1
  retryRounds encoder options routerFees withinBudget tasks fuel 1 (quotes.zip retryCandidates)

end Retries

namespace WorkerPoolRouter

/-- Answers a request with one quote per order, before simulation: the best candidates, encoded if
the request asks for it. -/
def quoteOrders [Double F] [SerializeSolution P] (router : WorkerPoolRouter P)
    (request : QuoteRequest P F) (access : ExclusiveAccess) (solveOrder : OrderSolver P)
    (withinBudget : Nat → Bool) (tasks : Nat → Nat → OrderQuote P → EncodingTask P F) :
    Except SolveError (List (OrderQuote P)) := do
  let ranked ← router.solve request access solveOrder
  request.encodingOptions.elim (.ok (ranked.perOrder.filterMap List.head?)) fun options =>
    encodeWithRetries router.encoder ranked options router.routerFees withinBudget tasks

end WorkerPoolRouter

/-! ## Encoding that treats each quote alone -/

variable {encodes : OrderQuote P → Option (OrderQuote P)} {order : OrderRetry P}
  {candidate : OrderQuote P}

variable (encodes order) in
/-- What all rounds make of an order: the first candidate that encodes, if there is one. -/
def finalQuote : OrderQuote P :=
  if order.1.status = .encodingFailed then (order.2.findSome? encodes).getD order.1 else order.1

variable (encodes) in
/-- What an order gets of its candidates: the best one encoded, or the next that encodes, or the
best one marked. A best one that was not successful stays as it is. -/
def outcomeOf (best : OrderQuote P) (others : List (OrderQuote P)) : OrderQuote P :=
  if best.status = .success then
    ((best :: others.filter isRetryCandidate).findSome? encodes).getD
      { best with status := .encodingFailed }
  else best

private theorem nextCandidate_eq_some (next : nextCandidate order = some candidate) :
    order.1.status = .encodingFailed ∧ order.2 = candidate :: order.2.tail := by
  unfold nextCandidate at next
  split at next
  · cases next
  · rename_i failed
    exact ⟨not_not.mp failed, eq_cons_of_mem_head? next⟩

private theorem finalQuote_of_nextCandidate (none : nextCandidate order = none) :
    finalQuote encodes order = order.1 := by
  unfold nextCandidate at none
  unfold finalQuote
  split at none
  · rename_i settled
    rw [if_neg settled]
  · rw [head?_eq_none_iff.mp none]
    exact ite_self _

/-- The best candidates stand beside the candidates they were taken from. -/
theorem forall₂_zip_head {perOrder : List (List (OrderQuote P))}
    (nonempty : ∀ candidates ∈ perOrder, candidates ≠ [])
    (fresh : ∀ candidates ∈ perOrder, ∀ best ∈ candidates.head?, best.status ≠ .encodingFailed)
    (settled : OrderQuote P → OrderQuote P) :
    List.Forall₂ (fun candidates order => ∃ best others, candidates = best :: others ∧
        best.status ≠ .encodingFailed ∧
        order = (settled best, others.filter isRetryCandidate)) perOrder
      (((perOrder.filterMap List.head?).map settled).zip
        (perOrder.map fun candidates => candidates.tail.filter isRetryCandidate)) := by
  induction perOrder with
  | nil => exact .nil
  | cons candidates rest ih =>
    obtain ⟨best, others, rfl⟩ := exists_cons_of_ne_nil (nonempty _ mem_cons_self)
    exact .cons ⟨best, others, rfl, fresh _ mem_cons_self best rfl, rfl⟩
      (ih (fun later member => nonempty later (mem_cons_of_mem _ member))
        fun later member => fresh later (mem_cons_of_mem _ member))

section Alone

variable [Double F] [SerializeSolution P]

section

variable (encoder : Encoder P) (options : EncodingOptions P F) (routerFees : RouterFees)
  (withinBudget : Nat → Bool) (task : OrderQuote P → EncodingTask P F)

/-- Encoding acts on each of some quotes independently, and in time: what the outside does in a task
depends on the quote alone, no task of theirs panics, and none is late. -/
structure ActsAlone (among : OrderQuote P → Prop) : Prop where
  deployed : encoder.routerAddress.isSome = true
  fronted : options.jitRouter = true → encoder.jitRouterAddress.isSome = true
  calm : ∀ quote, among quote → encoder.Calm options routerFees false (task quote) quote
  inTime : ∀ quote, (task quote).late = false
  budget : ∀ round, withinBudget round = true

/-- What a quote is encoded to, if it is. -/
def encodesTo (quote : OrderQuote P) : Option (OrderQuote P) :=
  match encoder.runTask options routerFees false (task quote) quote with
  | .encoded encoded => some encoded
  | _ => none

/-- What one round makes of an order. -/
def retryOrder (order : OrderRetry P) : OrderRetry P :=
  (nextCandidate order).elim order fun candidate =>
    acceptRetry (encoder.settledQuote options routerFees true (task candidate) candidate) order

end

variable {encoder : Encoder P} {options : EncodingOptions P F} {routerFees : RouterFees}
  {withinBudget : Nat → Bool} {task : OrderQuote P → EncodingTask P F} {among : OrderQuote P → Prop}
  {quote : OrderQuote P}

private theorem runTask_of_inTime {task : EncodingTask P F} (inTime : task.late = false)
    (deadline : Bool) :
    encoder.runTask options routerFees deadline task quote =
      encoder.runTask options routerFees false task quote := by
  unfold Encoder.runTask
  rw [inTime, Bool.and_false, Bool.and_false]

private theorem status_of_encodesTo {encoded : OrderQuote P}
    (done : encodesTo encoder options routerFees task quote = some encoded) :
    encoded.status = quote.status := by
  unfold encodesTo at done
  split at done
  · rename_i result ends
    cases done
    unfold Encoder.runTask at ends
    split at ends
    · cases ends
    · split at ends
      · rename_i encodes
        cases ends
        exact Encoder.status_encodeQuote encodes
      · cases ends
      · cases ends
  · cases done

private theorem retryOrder_snd (order : OrderRetry P) :
    (retryOrder encoder options routerFees task order).2 =
      if order.1.status = .encodingFailed then order.2.tail else order.2 := by
  obtain ⟨quote, candidates⟩ := order
  by_cases failed : quote.status = .encodingFailed
  · cases candidates <;> simp [retryOrder, nextCandidate, acceptRetry, failed]
  · simp [retryOrder, nextCandidate, failed]

private theorem failed_of_retryOrder {order : OrderRetry P}
    (failed : (retryOrder encoder options routerFees task order).1.status = .encodingFailed) :
    order.1.status = .encodingFailed := by
  by_contra settled
  simp [retryOrder, nextCandidate, settled] at failed

variable (alone : ActsAlone encoder options routerFees withinBudget task among)
include alone

private theorem settledQuote_of_success (deadline : Bool) (success : quote.status = .success) :
    encoder.settledQuote options routerFees deadline (task quote) quote =
      (encodesTo encoder options routerFees task quote).getD
        { quote with status := .encodingFailed } := by
  unfold Encoder.settledQuote encodesTo
  rw [if_pos success, runTask_of_inTime (alone.inTime quote) deadline]
  cases encoder.runTask options routerFees false (task quote) quote <;> rfl

/-- A batch is settled quote by quote. -/
theorem encodeUntil_alone {quotes : List (OrderQuote P)}
    (inside : ∀ quote ∈ quotes, quote.status = .success → among quote) (deadline : Bool) :
    encoder.encodeUntil quotes options routerFees deadline (fun _ => task) =
      .ok (quotes.map fun quote =>
        encoder.settledQuote options routerFees deadline (task quote) quote) := by
  have calm : ∀ entry ∈ quotes.zipIdx,
      encoder.Calm options routerFees deadline (task entry.1) entry.1 := by
    intro entry listed success
    have member := mem_of_getElem? (mem_zipIdx_iff_getElem?.mp listed)
    rw [runTask_of_inTime (alone.inTime entry.1)]
    exact alone.calm entry.1 (inside entry.1 member success) success
  rw [Encoder.encodeUntil_eq_ok alone.deployed alone.fronted calm]
  conv_rhs => rw [← zipIdx_map_fst 0 quotes, map_map]
  rfl

/-- A round treats each order alone. -/
theorem retryRounds_succ (fuel round : Nat) {orders : List (OrderRetry P)}
    (inside : ∀ order ∈ orders, ∀ candidate ∈ order.2, among candidate)
    (waiting : ∃ order ∈ orders, (nextCandidate order).isSome = true) :
    retryRounds encoder options routerFees withinBudget (fun _ _ => task) (fuel + 1) round orders =
      retryRounds encoder options routerFees withinBudget (fun _ _ => task) fuel (round + 1)
        (orders.map (retryOrder encoder options routerFees task)) := by
  let settled : OrderQuote P → OrderQuote P := fun candidate =>
    encoder.settledQuote options routerFees true (task candidate) candidate
  let retried := orders.zipIdx.filterMap fun entry => (nextCandidate entry.1).map (entry.2, ·)
  have some : retried.isEmpty = false := by
    obtain ⟨order, member, next⟩ := waiting
    obtain ⟨candidate, found⟩ := Option.isSome_iff_exists.mp next
    obtain ⟨position, placed⟩ := mem_iff_getElem?.mp member
    have listed : (position, candidate) ∈ retried :=
      mem_filterMap.mpr ⟨(order, position), mem_zipIdx_iff_getElem?.mpr placed,
        by rw [found]; rfl⟩
    rw [isEmpty_eq_false_iff]
    exact ne_nil_of_mem listed
  have among : ∀ candidate ∈ retried.map Prod.snd, candidate.status = .success →
      among candidate := by
    intro candidate member _
    obtain ⟨entry, listed, rfl⟩ := mem_map.mp member
    obtain ⟨numbered, placed, next⟩ := mem_filterMap.mp listed
    obtain ⟨candidate, found, rfl⟩ := Option.map_eq_some_iff.mp next
    refine inside numbered.1 (mem_of_getElem? (mem_zipIdx_iff_getElem?.mp placed)) _ ?_
    rw [(nextCandidate_eq_some found).2]
    exact mem_cons_self
  have written : ((retried.map Prod.fst).zip ((retried.map Prod.snd).map settled)).foldl
      (fun state entry => state.modify entry.1 (acceptRetry entry.2)) orders =
        orders.map (retryOrder encoder options routerFees task) := by
    have paired : (retried.map Prod.fst).zip ((retried.map Prod.snd).map settled) =
        orders.zipIdx.filterMap fun entry =>
          ((nextCandidate entry.1).map settled).map (entry.2, ·) := by
      rw [map_map, zip_map', map_filterMap]
      simp only [Option.map_map]
      rfl
    rw [paired, foldl_modify_zipIdx]
    conv_rhs => rw [← zipIdx_map_fst 0 orders, map_map]
    apply map_congr_left
    intro entry _
    change _ = retryOrder encoder options routerFees task entry.1
    unfold retryOrder
    cases nextCandidate entry.1 <;> rfl
  rw [retryRounds, if_neg (by rw [some]; exact Bool.false_ne_true),
    if_neg (by rw [alone.budget round]; simp), encodeUntil_alone alone among]
  change retryRounds encoder options routerFees withinBudget (fun _ _ => task) fuel (round + 1) _ =
    _
  rw [written]

/-- A round changes nothing about the outcome of an order. -/
theorem finalQuote_retryOrder {order : OrderRetry P}
    (successful : ∀ candidate ∈ order.2, candidate.status = .success) :
    finalQuote (encodesTo encoder options routerFees task)
        (retryOrder encoder options routerFees task order) =
      finalQuote (encodesTo encoder options routerFees task) order := by
  obtain ⟨quote, candidates⟩ := order
  unfold retryOrder nextCandidate
  by_cases failed : quote.status = .encodingFailed
  · cases candidates with
    | nil => simp
    | cons candidate later =>
      have success := successful candidate mem_cons_self
      simp only [failed, ne_eq, not_true_eq_false, if_false, head?_cons, Option.elim_some]
      rw [settledQuote_of_success alone true success]
      unfold finalQuote acceptRetry
      cases encodes : encodesTo encoder options routerFees task candidate with
      | none => simp [failed, encodes]
      | some encoded =>
        have stays : encoded.status = .success := (status_of_encodesTo encodes).trans success
        simp [failed, encodes, stays]
  · simp [failed]

/-- **The rounds end where they should.** With fuel for the longest list of candidates, every order
ends on the first of its candidates that encodes, or stays as it is. -/
theorem retryRounds_eq_ok (fuel round : Nat) (orders : List (OrderRetry P))
    (enough : ∀ order ∈ orders, order.1.status = .encodingFailed → order.2.length < fuel)
    (eligible : ∀ order ∈ orders, ∀ candidate ∈ order.2,
      candidate.status = .success ∧ among candidate) :
    retryRounds encoder options routerFees withinBudget (fun _ _ => task) fuel round orders =
      .ok (orders.map (finalQuote (encodesTo encoder options routerFees task))) := by
  induction fuel generalizing round orders with
  | zero =>
    have settled : ∀ order ∈ orders,
        order.1 = finalQuote (encodesTo encoder options routerFees task) order :=
      fun order member => (if_neg fun failed =>
        Nat.not_lt_zero _ (enough order member failed)).symm
    rw [retryRounds, map_congr_left settled]
  | succ fuel ih =>
    by_cases waiting : ∃ order ∈ orders, (nextCandidate order).isSome = true
    · have inside : ∀ order ∈ orders, ∀ candidate ∈ order.2, among candidate :=
        fun order member candidate found => (eligible order member candidate found).2
      rw [retryRounds_succ alone fuel round inside waiting, ih, map_map]
      · exact congrArg Except.ok (map_congr_left fun order member =>
          finalQuote_retryOrder alone fun candidate found =>
            (eligible order member candidate found).1)
      · -- the order that waits shows that there is fuel for those with nothing left
        obtain ⟨first, listed, next⟩ := waiting
        obtain ⟨candidate, next⟩ := Option.isSome_iff_exists.mp next
        have positive : 0 < fuel := by
          obtain ⟨failed, cons⟩ := nextCandidate_eq_some next
          have bound := enough first listed failed
          rw [cons, length_cons] at bound
          omega
        intro order member failed
        obtain ⟨before, inside, rfl⟩ := mem_map.mp member
        have failing := failed_of_retryOrder failed
        have bound := enough before inside failing
        rw [retryOrder_snd, if_pos failing, length_tail]
        omega
      · intro order member candidate found
        obtain ⟨before, inside, rfl⟩ := mem_map.mp member
        rw [retryOrder_snd] at found
        split at found
        · exact eligible before inside candidate (mem_of_mem_tail found)
        · exact eligible before inside candidate found
    · have none : ∀ order ∈ orders, nextCandidate order = none := fun order member =>
        Option.not_isSome_iff_eq_none.mp fun next => waiting ⟨order, member, next⟩
      have empty : (orders.zipIdx.filterMap fun entry =>
          (nextCandidate entry.1).map (entry.2, ·)) = [] := by
        rw [filterMap_eq_nil_iff]
        intro entry listed
        rw [none entry.1 (mem_of_getElem? (mem_zipIdx_iff_getElem?.mp listed))]
        rfl
      rw [retryRounds, empty, if_pos isEmpty_nil, map_congr_left fun order member =>
        (finalQuote_of_nextCandidate (none order member)).symm]

/-- The rounds carry the best candidate, settled, to the outcome. -/
theorem finalQuote_settled {best : OrderQuote P} (others : List (OrderQuote P))
    (unfailed : best.status ≠ .encodingFailed) :
    finalQuote (encodesTo encoder options routerFees task)
        (encoder.settledQuote options routerFees false (task best) best,
          others.filter isRetryCandidate) =
      outcomeOf (encodesTo encoder options routerFees task) best others := by
  unfold finalQuote outcomeOf
  by_cases success : best.status = .success
  · rw [settledQuote_of_success alone false success, if_pos success]
    cases encodes : encodesTo encoder options routerFees task best with
    | none => simp [encodes]
    | some encoded =>
      have stays : encoded.status = .success := (status_of_encodesTo encodes).trans success
      simp [encodes, stays]
  · simp [Encoder.settledQuote, success, unfailed]

/-- **Encoding with retries, order by order.** -/
theorem encodeWithRetries_eq_ok (ranked : RankedQuotes P)
    (fresh : ∀ candidates ∈ ranked.perOrder, ∀ best ∈ candidates.head?,
      best.status ≠ .encodingFailed)
    (inside : ∀ candidates ∈ ranked.perOrder, ∀ quote ∈ candidates,
      quote.status = .success → among quote) :
    ∃ quotes, encodeWithRetries encoder ranked options routerFees withinBudget (fun _ _ => task) =
        .ok quotes ∧
      List.Forall₂ (fun candidates quote => ∃ best others, candidates = best :: others ∧
        quote = outcomeOf (encodesTo encoder options routerFees task) best others)
        ranked.perOrder quotes := by
  have pairs := forall₂_zip_head ranked.nonempty fresh fun best =>
    encoder.settledQuote options routerFees false (task best) best
  have bestInside : ∀ best ∈ ranked.perOrder.filterMap List.head?,
      best.status = .success → among best := by
    intro best member
    obtain ⟨candidates, listed, head⟩ := mem_filterMap.mp member
    exact inside candidates listed best (mem_of_mem_head? head)
  unfold encodeWithRetries
  dsimp only
  rw [encodeUntil_alone alone bestInside]
  change ∃ quotes, retryRounds _ _ _ _ _ _ _ _ = _ ∧ _
  rw [retryRounds_eq_ok alone]
  · refine ⟨_, rfl, forall₂_map_right_iff.mpr (pairs.imp ?_)⟩
    rintro candidates order ⟨best, others, rfl, unfailed, rfl⟩
    exact ⟨best, others, rfl, finalQuote_settled alone others unfailed⟩
  · intro order member _
    have bound := le_sum_of_mem (mem_map_of_mem (f := List.length) (of_mem_zip member).2)
    omega
  · intro order member candidate found
    obtain ⟨candidates, listed, same⟩ := mem_map.mp (of_mem_zip member).2
    rw [← same] at found
    obtain ⟨later, eligible⟩ := mem_filter.mp found
    simp only [isRetryCandidate, Bool.and_eq_true, decide_eq_true_eq] at eligible
    exact ⟨eligible.1, inside candidates listed candidate (mem_of_mem_tail later) eligible.1⟩

end Alone

end Fynd
