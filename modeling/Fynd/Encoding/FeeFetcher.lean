import Fynd.Encoding.Encoder

/-!
# The router fees read from the chain

The fetcher asks the router for its fee calculator, then the calculator for its precision, its two
default fees and, page by page, for the fees of its clients. Each of these is a call of its own, and
the chain may change between two of them.
-/

namespace Fynd

open Foundation List

/-- What a client pays in place of the defaults. -/
structure CustomFees where
  hasCustomFeeOnOutput : Bool
  feeBpsOnOutput : Nat
  hasCustomFeeOnClientFee : Bool
  feeBpsOnClientFee : Nat

/-- The fees of a client over the defaults, field by field. -/
def CustomFees.over (fees : CustomFees) (onOutput onClientFee : Nat) : Nat × Nat :=
  (if fees.hasCustomFeeOnOutput then fees.feeBpsOnOutput else onOutput,
    if fees.hasCustomFeeOnClientFee then fees.feeBpsOnClientFee else onClientFee)

/-- The state of a fee calculator, with its clients in the order it lists them. -/
structure FeeCalculator where
  maxBps : Nat
  routerFeeOnOutput : Nat
  routerFeeOnClientFee : Nat
  clients : Map Bytes CustomFees

/-- An entry of a page of clients. -/
abbrev ClientFees := Sigma fun _ : Bytes => CustomFees

namespace FeeCalculator

variable (calculator : FeeCalculator)

/-- A page of the clients. -/
def getAllClientFees (start count : Nat) : List ClientFees :=
  (calculator.clients.entries.drop start).take count

/-- The rates for a client with fees of its own, or without. -/
def ratesFor (custom : Option CustomFees) : FeeRates :=
  let rates := (custom.map fun fees =>
    fees.over calculator.routerFeeOnOutput calculator.routerFeeOnClientFee).getD
      (calculator.routerFeeOnOutput, calculator.routerFeeOnClientFee)
  ⟨rates.1, rates.2, calculator.maxBps⟩

/-- The rates the calculator charges a client. -/
def feeInfo (client : Bytes) : FeeRates := calculator.ratesFor (calculator.clients.lookup client)

end FeeCalculator

/-- The part of the chain that fees are read from: the router's calculator, and what is found at an
address, or why a call to it fails. -/
structure FeeChain where
  feeCalculator : Nat
  calculators : Nat → Except String FeeCalculator

namespace FeeChain

/-- The fees are those of this state, for every client. -/
def Configures (chain : FeeChain) (fees : RouterFees) : Prop :=
  ∃ calculator, chain.calculators chain.feeCalculator = .ok calculator ∧
    fees.maxFeeUnits = calculator.maxBps ∧
    fees.defaultFeeOnOutput = calculator.routerFeeOnOutput ∧
    fees.defaultFeeOnClientFee = calculator.routerFeeOnClientFee ∧
    ∀ client, fees.feesFor client = calculator.feeInfo client

/-- The router names the same calculator in both states, and its configuration is the same. -/
def SameFees (chain other : FeeChain) : Prop :=
  other.feeCalculator = chain.feeCalculator ∧
    other.calculators chain.feeCalculator = chain.calculators chain.feeCalculator

end FeeChain

/-- A failed call. -/
structure RouterFeeFetchError where
  method : String
  contract : Nat
  reason : String

/-- What a call meets: the state it is answered in, or its failure. -/
abbrev FeeAnswer := Except String FeeChain

/-- The outcome of a call, or of several. The error is absent while one is open. -/
abbrev Fetched (α : Type) := Except (Option RouterFeeFetchError) α

variable {α : Type}

variable {feeCalculator start : Nat} {answers : List FeeAnswer} {answer : Option FeeAnswer}
  {contract : Nat} {method : String} {read : FeeChain → Except String α} {value : α}
  {routerAddress : Nat} {fees : RouterFees} {chain : FeeChain} {calculator : FeeCalculator}
  {seen : List FeeCalculator}

variable (answer contract method read) in
/-- One call. Without an answer it is still open. -/
def ethCall : Fetched α :=
  answer.elim (.error none) fun answer =>
    (answer >>= read).mapError fun reason => some ⟨method, contract, reason⟩

variable (feeCalculator answer method) in
/-- A call to a calculator. -/
def callCalculator (read : FeeCalculator → α) : Fetched α :=
  ethCall answer feeCalculator method fun chain => (chain.calculators feeCalculator).map read

def clientFeePageSize : Nat := 500

/-- Adds the clients of a page with the rates they pay. -/
def insertPage (onOutput onClientFee : Nat) (customFees : Map Bytes (Nat × Nat))
    (page : List ClientFees) : Map Bytes (Nat × Nat) :=
  page.foldl (fun fees entry => fees.insert entry.1 (entry.2.over onOutput onClientFee)) customFees

/-- The page loop. -/
def fetchClientFees (feeCalculator onOutput onClientFee : Nat) :
    Nat → Map Bytes (Nat × Nat) → List FeeAnswer → Fetched (Map Bytes (Nat × Nat))
  | _, _, [] => .error none
  | start, customFees, answer :: later => do
      let page ← callCalculator feeCalculator answer "getAllClientFees"
        (·.getAllClientFees start clientFeePageSize)
      let customFees := insertPage onOutput onClientFee customFees page
      if page.length < clientFeePageSize then pure customFees
      else
        fetchClientFees feeCalculator onOutput onClientFee (start + clientFeePageSize) customFees
          later

/-- Reads the fee configuration. -/
def fetchFees (routerAddress : Nat) (answers : List FeeAnswer) : Fetched RouterFees := do
  let feeCalculator ←
    ethCall answers[0]? routerAddress "getFeeCalculator" fun chain => .ok chain.feeCalculator
  let call {α : Type} := callCalculator (α := α) feeCalculator
  let maxFeeUnits ← call answers[1]? "MAX_BPS" FeeCalculator.maxBps
  if maxFeeUnits = 0 then
    throw (some ⟨"MAX_BPS", feeCalculator, "fee precision scale is zero"⟩)
  let onOutput ← call answers[2]? "getRouterFeeOnOutput" FeeCalculator.routerFeeOnOutput
  let onClientFee ← call answers[3]? "getRouterFeeOnClientFee" FeeCalculator.routerFeeOnClientFee
  let customFees ← fetchClientFees feeCalculator onOutput onClientFee 0 ∅ (answers.drop 4)
  pure ⟨maxFeeUnits, onOutput, onClientFee, customFees⟩

/-- A moment of the fetch: the state of the chain, and how the call made then ends, if there is
one. -/
structure FeeMoment where
  chain : FeeChain
  call : Option (Except String Unit)

/-- The answers the calls of a fetch get. -/
def answersDuring (history : List FeeMoment) : List FeeAnswer :=
  history.filterMap fun moment => moment.call.map fun outcome => outcome.map fun _ => moment.chain

/-! ## What the calls read -/

/-- The calculator that a call to an address finds. -/
def calculatorAt (feeCalculator : Nat) (answer : FeeAnswer) : Option FeeCalculator :=
  (answer >>= fun chain => chain.calculators feeCalculator).toOption

/-- The calculators that the calls of a fetch find, at the address that the router names first. -/
def calculatorsSeen : List FeeAnswer → List FeeCalculator
  | .ok router :: later => later.filterMap (calculatorAt router.feeCalculator)
  | _ => []

/-- The entries of the pages, up to the first short one. -/
def pagesRead : Nat → List FeeCalculator → Option (List ClientFees)
  | _, [] => none
  | start, calculator :: later =>
    let page := calculator.getAllClientFees start clientFeePageSize
    if page.length < clientFeePageSize then some page
    else (pagesRead (start + clientFeePageSize) later).map (page ++ ·)

/-- The fees of a client by the last entry for it. -/
def lastEntry (client : Bytes) (entries : List ClientFees) : Option CustomFees :=
  (entries.filter fun entry => entry.1 = client).getLast?.map Sigma.snd

variable (calculator seen) in
/-- What the calls read is what one calculator has: the precision, the defaults, and for each client
the rates that follow from the pages. -/
structure FeeCalculator.ReadFrom :
    Prop where
  maxBps : seen[0]?.map FeeCalculator.maxBps = some calculator.maxBps
  onOutput : seen[1]?.map FeeCalculator.routerFeeOnOutput = some calculator.routerFeeOnOutput
  onClientFee :
    seen[2]?.map FeeCalculator.routerFeeOnClientFee = some calculator.routerFeeOnClientFee
  clients : ∀ listed ∈ pagesRead 0 (seen.drop 3), ∀ client,
    calculator.ratesFor (lastEntry client listed) = calculator.feeInfo client

/-- What the calls read is what the calculator of this state has. -/
def FeeChain.ReadFrom (chain : FeeChain) (answers : List FeeAnswer) : Prop :=
  ∃ calculator, chain.calculators chain.feeCalculator = .ok calculator ∧
    calculator.ReadFrom (calculatorsSeen answers)

private theorem lookup_insertPage (onOutput onClientFee : Nat) (entries : List ClientFees)
    (client : Bytes) : (insertPage onOutput onClientFee ∅ entries).lookup client =
      (lastEntry client entries).map fun fees => fees.over onOutput onClientFee := by
  have listed : insertPage onOutput onClientFee ∅ entries =
      mapOfList (entries.map fun entry => (entry.1, entry.2.over onOutput onClientFee)) := by
    symm
    exact foldl_map
  rw [listed, mapOfList, lookup_foldl_insert, AList.lookup_empty, Option.or_none, filter_map,
    getLast?_map, Option.map_map, lastEntry, Option.map_map]
  rfl

/-- The entries of a calculator hold each client once. -/
theorem lastEntry_entries (clients : Map Bytes CustomFees) (client : Bytes) :
    lastEntry client clients.entries = clients.lookup client := by
  have listed : (mapOfList (clients.entries.map fun entry => (entry.1, entry.2))).lookup client =
      lastEntry client clients.entries := by
    rw [mapOfList, lookup_foldl_insert, AList.lookup_empty, Option.or_none, filter_map,
      getLast?_map, Option.map_map, lastEntry]
    rfl
  ext fees
  rw [← listed, lookup_mapOfList, mem_entries_iff]
  rw [map_map]
  exact clients.nodupKeys

private theorem ethCall_eq_ok (done : ethCall answer contract method read = .ok value) :
    ∃ seen, answer = some (.ok seen) ∧ read seen = .ok value := by
  cases answer with
  | none => cases done
  | some answer =>
    obtain ⟨seen, rfl, reads⟩ := bind_eq_ok_iff.mp (mapError_eq_ok done)
    exact ⟨seen, rfl, reads⟩

private theorem callCalculator_eq_ok {read : FeeCalculator → α}
    (done : callCalculator feeCalculator answer method read = .ok value) :
    ∃ given calculator, answer = some given ∧
      calculatorAt feeCalculator given = some calculator ∧ value = read calculator := by
  obtain ⟨seen, rfl, reads⟩ := ethCall_eq_ok done
  cases found : seen.calculators feeCalculator with
  | error reason =>
    rw [found] at reads
    cases reads
  | ok calculator =>
    rw [found] at reads
    cases reads
    exact ⟨_, calculator, rfl, congrArg Except.toOption found, rfl⟩

/-- The page loop inserts the entries of the pages it reads. -/
theorem fetchClientFees_eq_ok {feeCalculator onOutput onClientFee start : Nat}
    {customFees fetched : Map Bytes (Nat × Nat)}
    (done : fetchClientFees feeCalculator onOutput onClientFee start customFees answers =
      .ok fetched) :
    ∃ listed, pagesRead start (answers.filterMap (calculatorAt feeCalculator)) = some listed ∧
      fetched = insertPage onOutput onClientFee customFees listed := by
  induction answers generalizing start customFees with
  | nil => cases done
  | cons answer later ih =>
    obtain ⟨page, read, done⟩ := bind_eq_ok_iff.mp done
    obtain ⟨_, calculator, ⟨⟩, found, rfl⟩ := callCalculator_eq_ok read
    rw [filterMap_cons_some found, pagesRead]
    dsimp only at done
    split at done
    · rename_i short
      cases done
      exact ⟨_, if_pos short, rfl⟩
    · rename_i full
      obtain ⟨listed, pages, rfl⟩ := ih done
      refine ⟨_, (if_neg full).trans (by rw [pages, Option.map_some]), ?_⟩
      exact foldl_append.symm

/-- **What is fetched.** The calls for the precision and the defaults each give what their
calculator has, and the later ones the pages. -/
theorem fetchFees_eq_ok (done : fetchFees routerAddress answers = .ok fees) :
    ∃ first second third later listed,
      calculatorsSeen answers = first :: second :: third :: later ∧
      pagesRead 0 later = some listed ∧
      fees = ⟨first.maxBps, second.routerFeeOnOutput, third.routerFeeOnClientFee,
        insertPage second.routerFeeOnOutput third.routerFeeOnClientFee ∅ listed⟩ := by
  obtain ⟨feeCalculator, named, done⟩ := bind_eq_ok_iff.mp done
  obtain ⟨router, answered, names⟩ := ethCall_eq_ok named
  cases names
  obtain ⟨maxFeeUnits, precision, done⟩ := bind_eq_ok_iff.mp done
  obtain ⟨_, first, firstAnswer, firstFound, rfl⟩ := callCalculator_eq_ok precision
  dsimp only at done
  split at done
  · cases done
  obtain ⟨onOutput, output, done⟩ := bind_eq_ok_iff.mp done
  obtain ⟨_, second, secondAnswer, secondFound, rfl⟩ := callCalculator_eq_ok output
  obtain ⟨onClientFee, clientFee, done⟩ := bind_eq_ok_iff.mp done
  obtain ⟨_, third, thirdAnswer, thirdFound, rfl⟩ := callCalculator_eq_ok clientFee
  obtain ⟨customFees, loop, done⟩ := bind_eq_ok_iff.mp done
  obtain ⟨listed, pages, rfl⟩ := fetchClientFees_eq_ok loop
  cases done
  refine ⟨first, second, third, _, listed, ?_, pages, rfl⟩
  obtain _ | ⟨_, _ | ⟨_, _ | ⟨_, _ | ⟨_, later⟩⟩⟩⟩ := answers <;> cases thirdAnswer
  cases answered
  cases firstAnswer
  cases secondAnswer
  rw [calculatorsSeen, filterMap_cons_some firstFound, filterMap_cons_some secondFound,
    filterMap_cons_some thirdFound]
  rfl

/-! ## The fees of one state -/

/-- The fees are those of a state exactly if the calls read what its calculator has. -/
theorem configures_iff_readFrom (done : fetchFees routerAddress answers = .ok fees)
    (chain : FeeChain) : chain.Configures fees ↔ chain.ReadFrom answers := by
  obtain ⟨first, second, third, later, listed, seen, pages, rfl⟩ := fetchFees_eq_ok done
  refine exists_congr fun calculator => and_congr_right fun _ => ?_
  rw [seen]
  constructor
  · rintro ⟨precision, output, clientFee, rates⟩
    refine ⟨congrArg some precision, congrArg some output, congrArg some clientFee, ?_⟩
    intro given read client
    obtain rfl := Option.some.inj (pages.symm.trans read)
    have rate := rates client
    rw [RouterFees.feesFor, lookup_insertPage] at rate
    dsimp only at precision output clientFee rate
    rwa [precision, output, clientFee] at rate
  · rintro ⟨precision, output, clientFee, rates⟩
    have precision : first.maxBps = calculator.maxBps := Option.some.inj precision
    have output : second.routerFeeOnOutput = calculator.routerFeeOnOutput :=
      Option.some.inj output
    have clientFee : third.routerFeeOnClientFee = calculator.routerFeeOnClientFee :=
      Option.some.inj clientFee
    refine ⟨precision, output, clientFee, fun client => ?_⟩
    rw [RouterFees.feesFor, lookup_insertPage]
    dsimp only
    rw [precision, output, clientFee]
    exact rates listed pages client

/-- **All clients.** The pages of one calculator add up to the clients that are left. -/
theorem pagesRead_of_same (same : ∀ found ∈ seen, found = calculator) {listed : List ClientFees}
    (pages : pagesRead start seen = some listed) :
    listed = calculator.clients.entries.drop start := by
  induction seen generalizing start listed with
  | nil => cases pages
  | cons found later ih =>
    obtain rfl := same found mem_cons_self
    rw [pagesRead] at pages
    split at pages
    · rename_i short
      cases pages
      rw [FeeCalculator.getAllClientFees, length_take] at short
      exact take_of_length_le (by omega)
    · obtain ⟨rest, read, rfl⟩ := Option.map_eq_some_iff.mp pages
      rw [ih (fun other member => same other (mem_cons_of_mem _ member)) read, ← drop_drop]
      exact take_append_drop _ _

/-- Calls that all find the fees of one state read what its calculator has. -/
theorem readFrom_of_sameFees (done : fetchFees routerAddress answers = .ok fees)
    (same : ∀ seen, .ok seen ∈ answers → chain.SameFees seen) : chain.ReadFrom answers := by
  have found : ∀ calculator ∈ calculatorsSeen answers,
      chain.calculators chain.feeCalculator = .ok calculator := by
    intro calculator member
    match answers, member with
    | .ok router :: later, member =>
      obtain ⟨answer, listed, reads⟩ := mem_filterMap.mp member
      obtain ⟨seen, rfl, has⟩ := bind_eq_ok_iff.mp (eq_ok_of_toOption reads)
      rwa [(same router mem_cons_self).1, (same seen (mem_cons_of_mem _ listed)).2] at has
  obtain ⟨first, second, third, later, listed, seen, pages, -⟩ := fetchFees_eq_ok done
  rw [seen] at found
  have here := found first mem_cons_self
  have alike : ∀ calculator ∈ first :: second :: third :: later, calculator = first :=
    fun calculator member => Except.ok.inj ((found calculator member).symm.trans here)
  obtain rfl := alike second (by simp)
  obtain rfl := alike third (by simp)
  refine ⟨third, here, seen ▸ ⟨rfl, rfl, rfl, fun given read client => ?_⟩⟩
  have all := pagesRead_of_same (fun other member => alike other (mem_of_mem_drop member)) read
  rw [all, drop_zero, lastEntry_entries, FeeCalculator.feeInfo]

/-- **Fees of one state.** What a fetch returns are the fees of a state it passed through exactly if
there is one whose calculator has what the calls read. That is so if all answered calls find the
fees of one state, whatever changes before, between and after them. -/
theorem configures_exactly (routerAddress : Nat) (history : List FeeMoment) (fees : RouterFees)
    (done : fetchFees routerAddress (answersDuring history) = .ok fees) :
    ((∃ moment ∈ history, moment.chain.Configures fees) ↔
        ∃ moment ∈ history, moment.chain.ReadFrom (answersDuring history)) ∧
      ((∃ moment ∈ history, ∀ seen, .ok seen ∈ answersDuring history →
          moment.chain.SameFees seen) →
        ∃ moment ∈ history, moment.chain.Configures fees) := by
  have exactly (moment : FeeMoment) := configures_iff_readFrom done moment.chain
  refine ⟨exists_congr fun moment => and_congr_right fun _ => exactly moment, ?_⟩
  rintro ⟨moment, inside, same⟩
  exact ⟨moment, inside, (exactly moment).mpr (readFrom_of_sameFees done same)⟩

/-! ## Defaults that change during a fetch -/

section Samples

/-- A chain whose only calculator has the given defaults and clients. -/
def chainWith (onOutput onClientFee : Nat) (clients : Map Bytes CustomFees) : FeeChain :=
  ⟨7, fun _ => .ok ⟨100000000, onOutput, onClientFee, clients⟩⟩

/-- Five calls, the fourth and fifth of them in the later state. -/
def callsAcross (before after : FeeChain) : List FeeMoment :=
  [before, before, before, after, after].map (⟨·, some (.ok ())⟩)

/-- Two clients, one of which pays a fee of its own on the output. -/
def twoClients (fee : Nat) : Map Bytes CustomFees :=
  mapOfList [([1], ⟨true, fee, false, 0⟩), ([2], ⟨false, 0, false, 0⟩)]

/-- A client's fee changes before the clients are read, and the defaults after it. -/
def clientChanges : List FeeMoment :=
  callsAcross (chainWith 1000 0 (twoClients 300)) (chainWith 1000 0 (twoClients 400)) ++
    [⟨chainWith 2000 500 ∅, none⟩]

/-- The fees that are fetched are those after the client's change. -/
theorem fetched_of_changed_clients :
    ∃ fees, fetchFees 1 (answersDuring clientChanges) = .ok fees ∧
      ∃ moment ∈ clientChanges, moment.chain.Configures fees := by
  refine ⟨_, rfl, ((configures_exactly 1 clientChanges _ rfl).1).mpr
    ⟨⟨chainWith 1000 0 (twoClients 400), some (.ok ())⟩, by simp [clientChanges, callsAcross], _,
      rfl, rfl, rfl, rfl, fun listed read client => ?_⟩⟩
  cases read
  exact congrArg _ (lastEntry_entries (twoClients 400) client)

/-- Both defaults are raised between the call for the one and the call for the other. The fees that
are fetched were never those of the chain. -/
theorem fetched_across_states :
    fetchFees 1 (answersDuring (callsAcross (chainWith 1000 0 ∅) (chainWith 2000 500 ∅))) =
        .ok ⟨100000000, 1000, 500, ∅⟩ ∧
      ¬ ∃ moment ∈ callsAcross (chainWith 1000 0 ∅) (chainWith 2000 500 ∅),
        moment.chain.Configures ⟨100000000, 1000, 500, ∅⟩ := by
  refine ⟨rfl, ?_⟩
  rintro ⟨moment, member, calculator, found, -, output, clientFee, -⟩
  obtain ⟨chain, listed, rfl⟩ := mem_map.mp member
  obtain rfl | rfl : chain = chainWith 1000 0 ∅ ∨ chain = chainWith 2000 500 ∅ := by
    simpa using listed
  · cases found
    cases clientFee
  · cases found
    cases output

end Samples

end Fynd
