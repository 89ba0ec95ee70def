import Fynd.Encoding.SolutionFields

/-!
# Signed legs

A solution the encoder returns has signed user data for every leg with a committed
amount. A committed amount is how the code marks an exclusive leg: a swap through an
exclusive component that carries none is passed on as it is, and on a route that was
pinned every such swap carries one. A hook that runs last changes nothing of this.
-/

namespace Fynd

open Foundation List

variable {P F : Type} [Double F]

variable {encoder : Encoder P} {slippage : F} {swap : Swap P} {built : SolutionSwap P}
  {quote : OrderQuote P} {prepared : PreparedSolution P}

variable (encoder slippage swap built) in
/-- A leg for which a configured signer has built the user data it carries. -/
def SignedLeg : Prop :=
  ∃ signer reading userData, encoder.exclusiveSwapSigner = some signer ∧
    signer.buildUserData encoder.primitives reading swap slippage = .ok userData ∧
    built.userData = some userData

private theorem solutionFromQuote_eq_ok {fallbackUserData : FallbackUserData P}
    {minAmountOut : Nat} {shortfall : Option Nat} {solution : Solution P}
    (done : solutionFromQuote fallbackUserData quote minAmountOut shortfall = .ok solution) :
    ∃ route, quote.route = some route ∧ route.swaps.length = solution.swaps.length := by
  unfold solutionFromQuote at done
  split at done
  · cases done
  · obtain ⟨route, routed, done⟩ := bind_eq_ok_iff.mp done
    obtain ⟨_, _, done⟩ := bind_eq_ok_iff.mp done
    obtain ⟨_, _, done⟩ := bind_eq_ok_iff.mp done
    obtain ⟨swaps, built, done⟩ := bind_eq_ok_iff.mp done
    cases done
    exact ⟨route, elim_eq_ok routed, by simpa using (mapM_eq_ok_iff.mp built).length_eq⟩

variable (encoder slippage swap built) in
/-- A leg with a committed amount is signed. -/
def CommittedSigned : Prop :=
  swap.committedAmountOut.isSome = true → SignedLeg encoder slippage swap built

section Signing

variable {encoder : Encoder P} {slippage : F} {readings : Nat → Reading}
  {signer : ExclusiveSwapSigner}

private theorem stampSwap_signed (configured : encoder.exclusiveSwapSigner = some signer)
    {reading : Reading} {built stamped : SolutionSwap P} {swap : Swap P}
    (done : stampSwap encoder.primitives signer slippage reading built swap = .ok stamped) :
    CommittedSigned encoder slippage swap stamped := by
  intro committed
  rw [stampSwap, if_pos committed] at done
  obtain ⟨userData, signed, done⟩ := bind_eq_ok_iff.mp done
  cases done
  exact ⟨signer, reading, userData, configured, signed, rfl⟩

private theorem stampSwaps_signed (configured : encoder.exclusiveSwapSigner = some signer)
    {position : Nat} {built stamped : List (SolutionSwap P)}
    {swaps : List (Swap P)} (lengths : swaps.length = built.length)
    (done : stampSwaps encoder.primitives signer slippage readings position built swaps =
      .ok stamped) :
    List.Forall₂ (CommittedSigned encoder slippage) swaps stamped := by
  induction swaps generalizing position built stamped with
  | nil =>
    obtain rfl := eq_nil_of_length_eq_zero lengths.symm
    cases done
    exact .nil
  | cons swap rest ih =>
    cases built with
    | nil => cases lengths
    | cons first others =>
      obtain ⟨head, here, done⟩ := bind_eq_ok_iff.mp done
      obtain ⟨tail, later, done⟩ := bind_eq_ok_iff.mp done
      cases done
      exact .cons (stampSwap_signed configured here) (ih (Nat.succ.inj lengths) later)

private theorem signed_of_no_exclusiveLeg {route : Route P} {built : List (SolutionSwap P)}
    (lengths : route.swaps.length = built.length) (unmarked : route.hasExclusiveLeg = false) :
    List.Forall₂ (CommittedSigned encoder slippage) route.swaps built := by
  refine forall₂_iff_get.mpr ⟨lengths, fun position inside _ committed => ?_⟩
  have absent := any_eq_false.mp unmarked (route.swaps.get ⟨position, inside⟩) (get_mem _ _)
  exact absurd committed absent

/-- **Signing.** Legs with a committed amount are signed, or there is an error. -/
theorem signExclusiveLegs_signed {quote : OrderQuote P} {route : Route P}
    {solution signed : Solution P} (routed : quote.route = some route)
    (lengths : route.swaps.length = solution.swaps.length)
    (done : encoder.signExclusiveLegs readings quote slippage solution = .ok signed) :
    List.Forall₂ (CommittedSigned encoder slippage) route.swaps signed.swaps := by
  unfold Encoder.signExclusiveLegs at done
  split at done
  · rename_i signer configured
    obtain ⟨_, found, done⟩ := bind_eq_ok_iff.mp done
    obtain rfl := Option.some.inj (routed.symm.trans (elim_eq_ok found))
    split at done
    · rename_i unmarked
      cases done
      exact signed_of_no_exclusiveLeg lengths (by simpa using unmarked)
    · obtain ⟨stamped, stamps, done⟩ := bind_eq_ok_iff.mp done
      cases done
      exact stampSwaps_signed configured lengths stamps
  · split at done
    · cases done
    · rename_i unmarked
      cases done
      rw [routed] at unmarked
      exact signed_of_no_exclusiveLeg lengths (by simpa using unmarked)

end Signing

/-- Legs keep their signatures where the user data stays. -/
theorem signed_of_same_userData {swaps : List (Swap P)} {built hooked : List (SolutionSwap P)}
    (signed : List.Forall₂ (CommittedSigned encoder slippage) swaps built)
    (same : built.map SolutionSwap.userData = hooked.map SolutionSwap.userData) :
    List.Forall₂ (CommittedSigned encoder slippage) swaps hooked := by
  induction signed generalizing hooked with
  | nil =>
    obtain rfl := map_eq_nil_iff.mp same.symm
    exact .nil
  | cons here _ ih =>
    cases hooked with
    | nil => cases same
    | cons head tail =>
      obtain ⟨first, later⟩ := List.cons.inj same
      refine .cons (fun committed => ?_) (ih later)
      obtain ⟨signer, reading, userData, configured, built, carries⟩ := here committed
      exact ⟨signer, reading, userData, configured, built, first.symm.trans carries⟩

/-- A returned solution has its committed legs signed. -/
theorem prepareSolution_signed [SerializeSolution P] {readings : Nat → Reading}
    {options : EncodingOptions P F} {routerFees : RouterFees}
    (returned : encoder.prepareSolution readings quote options routerFees = .ok prepared) :
    ∃ route, quote.route = some route ∧ List.Forall₂ (CommittedSigned encoder options.slippage)
      route.swaps prepared.solution.swaps := by
  obtain ⟨_, _, done⟩ := bind_eq_ok_iff.mp returned
  obtain ⟨_, _, done⟩ := bind_eq_ok_iff.mp done
  obtain ⟨built, builds, done⟩ := bind_eq_ok_iff.mp done
  obtain ⟨signed, signs, done⟩ := bind_eq_ok_iff.mp done
  obtain ⟨route, routed, lengths⟩ := solutionFromQuote_eq_ok builds
  have legs := signExclusiveLegs_signed routed (by exact lengths) signs
  refine ⟨route, routed, ?_⟩
  split at done
  · cases done
    exact legs
  · obtain ⟨hooked, hooks, done⟩ := bind_eq_ok_iff.mp done
    obtain ⟨_, _, done⟩ := bind_eq_ok_iff.mp done
    cases done
    exact signed_of_same_userData legs (userData_of_accepted hooks).symm

/-- **Signed legs.** If the encoder returns a solution, with or without a signer and a hook, every
swap of the route that carries a committed amount has user data that a configured signer built for
it. On a route of valid exclusive shape that was pinned, this is every swap through an exclusive
component. -/
theorem committed_legs_signed [SerializeSolution P] (encoder : Encoder P) (readings : Nat → Reading)
    (quote : OrderQuote P) (options : EncodingOptions P F) (routerFees : RouterFees)
    (prepared : PreparedSolution P)
    (returned : encoder.prepareSolution readings quote options routerFees = .ok prepared) :
    ∃ route, quote.route = some route ∧
      List.Forall₂ (fun swap built => swap.committedAmountOut.isSome = true →
        SignedLeg encoder options.slippage swap built) route.swaps prepared.solution.swaps ∧
      ∀ candidate pinnedFrom committed outputToken, candidate.route = some pinnedFrom →
        pinnedFrom.outputToken = some outputToken →
        exclusiveRouteShape pinnedFrom.swaps outputToken = .valid →
        pinCommitment candidate committed = some quote →
        List.Forall₂ (fun swap built => isExclusiveLeg swap = true →
          SignedLeg encoder options.slippage swap built) route.swaps prepared.solution.swaps := by
  obtain ⟨route, routed, signed⟩ := prepareSolution_signed returned
  refine ⟨route, routed, signed, ?_⟩
  intro candidate pinnedFrom committed outputToken starts ends valid pins
  have commits := committed_of_pinned starts ends valid pins routed
  refine forall₂_iff_get.mpr ⟨signed.length_eq, fun position inside within exclusive => ?_⟩
  exact (forall₂_iff_get.mp signed).2 position inside within (commits _ (get_mem _ _) exclusive)

section Samples

/-- Hashes and addresses of no length. -/
def samplePrimitives : Primitives := ⟨fun _ => [], fun _ => []⟩

/-- A signer that signs everything. -/
def sampleSigner : ExclusiveSwapSigner := ⟨fun _ => .ok [1], 1, 0, 120, List.replicate 20 7, 5000⟩

/-- An encoder with a signer and one without. -/
def sampleEncoder (signer : Option ExclusiveSwapSigner) : Encoder Unit :=
  { primitives := samplePrimitives, fallbackUserData := fun _ _ _ => .ok []
    exclusiveSwapSigner := signer }

/-- An exclusive component with the attributes a signature takes. -/
def exclusiveComponent : ProtocolComponent :=
  ⟨"x", "ekubo_v3", [0, 1], mapOfList [("is_exclusive", [1]), ("extension", List.replicate 20 5),
    ("fee", List.replicate 8 0), ("pool_type_config", List.replicate 4 0)]⟩

def exclusiveSwap : Swap Unit :=
  { componentId := "x", protocol := "ekubo_v3", tokenIn := 0, tokenOut := 1, amountIn := 1000
    amountOut := 1000, gasEstimate := 10, protocolComponent := exclusiveComponent
    protocolState := () }

def singleSwapQuote (swap : Swap Unit) : OrderQuote Unit :=
  { status := .success
    route := some { swaps := [swap], tokens := mapOfList [(0, ⟨0, 18⟩), (1, ⟨1, 18⟩)] }
    amountIn := 1000, amountOut := 1000, gasEstimate := 0, amountOutNetGas := 990
    sender := [], receiver := [] }

/-- Half a percent of slippage and no client fee. -/
def sampleOptions : EncodingOptions Unit ℚ :=
  { slippage := 1 / 200, transferType := .transferFrom, clientFeeParams := none
    solutionHook := none }

def sampleFees : RouterFees := ⟨100000000, 1000, 0, ∅⟩

def sampleReadings : Nat → Reading := fun position => ⟨position, some 1700000000⟩

def samplePreparation (signer : Option ExclusiveSwapSigner) (swap : Swap Unit) :
    Except SolveError (PreparedSolution Unit) :=
  (sampleEncoder signer).prepareSolution sampleReadings (singleSwapQuote swap) sampleOptions
    sampleFees

/-- Both encoders return a solution for a swap through an exclusive component that carries no
committed amount, and leave it unsigned. -/
theorem uncommitted_exclusive_swap_unsigned :
    isExclusiveLeg exclusiveSwap = true ∧
    (∃ prepared, samplePreparation (some sampleSigner) exclusiveSwap = .ok prepared ∧
      prepared.solution.swaps.map SolutionSwap.userData = [none]) ∧
    ∃ prepared, samplePreparation none exclusiveSwap = .ok prepared ∧
      prepared.solution.swaps.map SolutionSwap.userData = [none] :=
  ⟨by decide +kernel, exists_ok_of_any (by decide +kernel), exists_ok_of_any (by decide +kernel)⟩

/-- The same swap with a committed amount. -/
def committedSwap : Swap Unit := { exclusiveSwap with committedAmountOut := some 990 }

/-- The solution of the committed swap is returned, and the swap is signed. -/
theorem committed_swap_signed :
    ∃ prepared, samplePreparation (some sampleSigner) committedSwap = .ok prepared ∧
      ∃ built, prepared.solution.swaps = [built] ∧
        SignedLeg (sampleEncoder (some sampleSigner)) (1 / 200 : ℚ) committedSwap built := by
  have returned : (samplePreparation (some sampleSigner) committedSwap).toOption.isSome = true := by
    decide +kernel
  refine ⟨_, eq_ok_okValue returned, ?_⟩
  obtain ⟨route, routed, signed, _⟩ := committed_legs_signed (sampleEncoder (some sampleSigner))
    sampleReadings (singleSwapQuote committedSwap) sampleOptions sampleFees _
    (eq_ok_okValue returned)
  cases routed
  obtain ⟨built, rest, here, none, shape⟩ := forall₂_cons_left_iff.mp signed
  cases none
  exact ⟨built, shape, here rfl⟩

end Samples

/-! ## Preparing with a hook -/

/-- What the encoder prepares with a hook, beside what it prepares without one: the solution is
framed, the fees are those of the hooked amount, and the floor and the slippage are the same. -/
structure PreparedSolution.Framed [SerializeSolution P] (clientFeeBps : Nat)
    (plain prepared : PreparedSolution P) : Prop where
  solution : plain.solution.Framed prepared.solution
  rates : prepared.feeRates = plain.feeRates
  fees : calculateFees prepared.solution.expectedAmountOut clientFeeBps plain.feeRates =
    .ok (prepared.feeBreakdown.routerFee, prepared.feeBreakdown.clientFee)
  floor : prepared.feeBreakdown.minAmountReceived = plain.feeBreakdown.minAmountReceived
  slippage : prepared.feeBreakdown.maxSlippage = plain.feeBreakdown.maxSlippage

section Preparation

variable [SerializeSolution P] {encoder : Encoder P} {readings : Nat → Reading}
  {quote : OrderQuote P} {hook : SolutionHook P} {options : EncodingOptions P F}
  {routerFees : RouterFees} {prepared : PreparedSolution P}

/-- **Preparing with a hook.** Whatever a hook does, a solution prepared with it is one the encoder
prepares without it, changed only in what a hook may change and in the fees that follow from it. -/
theorem prepared_framed (returned : encoder.prepareSolution readings quote
      { options with solutionHook := some hook } routerFees = .ok prepared) :
    ∃ plain, encoder.prepareSolution readings quote { options with solutionHook := none }
        routerFees = .ok plain ∧
      plain.Framed (options.clientFeeParams.elim 0 ClientFeeParams.bps) prepared := by
  obtain ⟨feeBreakdown, breaks, done⟩ := bind_eq_ok_iff.mp returned
  obtain ⟨_, covers, done⟩ := bind_eq_ok_iff.mp done
  obtain ⟨built, builds, done⟩ := bind_eq_ok_iff.mp done
  obtain ⟨solution, signs, done⟩ := bind_eq_ok_iff.mp done
  obtain ⟨hooked, accepted, done⟩ := bind_eq_ok_iff.mp done
  obtain ⟨fees, charges, done⟩ := bind_eq_ok_iff.mp done
  obtain rfl := Except.ok.inj done
  refine ⟨⟨solution, feeBreakdown, _⟩, ?_, ?_, rfl, charges, rfl, rfl⟩
  · exact bind_eq_ok_iff.mpr ⟨feeBreakdown, breaks, bind_eq_ok_iff.mpr ⟨_, covers,
      bind_eq_ok_iff.mpr ⟨built, builds, bind_eq_ok_iff.mpr ⟨solution, signs, rfl⟩⟩⟩⟩
  · exact ⟨fields_of_accepted accepted, states_of_accepted accepted,
      (applySolutionHook_eq_ok accepted).2.2⟩

/-- A hook that raises the expected amount by a tenth. -/
def raisingHook : SolutionHook Unit :=
  fun _ solution => .ok { solution with expectedAmountOut := 1100 }

/-- The committed swap, signed and then raised. -/
theorem raised_preparation_framed :
    ∃ plain prepared, samplePreparation (some sampleSigner) committedSwap = .ok plain ∧
      prepared.solution.expectedAmountOut = 1100 ∧
      (plain : PreparedSolution Unit).Framed 0 prepared := by
  have returned : ((sampleEncoder (some sampleSigner)).prepareSolution sampleReadings
      (singleSwapQuote committedSwap) { sampleOptions with solutionHook := some raisingHook }
      sampleFees).toOption.any (·.solution.expectedAmountOut = 1100) = true := by
    decide +kernel
  obtain ⟨prepared, prepares, raised⟩ := exists_ok_of_any returned
  obtain ⟨plain, plainly, framed⟩ := prepared_framed prepares
  exact ⟨plain, prepared, plainly, raised, framed⟩

end Preparation

end Fynd
