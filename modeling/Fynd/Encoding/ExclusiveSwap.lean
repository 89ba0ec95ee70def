import Mathlib.Algebra.Order.Ring.Rat
import Fynd.Types.Route

/-!
# Signed user data of an exclusive leg

The controller signs a payload that pins a leg to the amounts it was quoted for and
sets the fee the extension charges. The hash, the signature, the bytes of an address
and the readings of the nonce counter and the clock come from outside.
-/

namespace Fynd

variable {P : Type}

/-- The arithmetic of double-precision numbers that a slippage goes through. The casts to an integer
truncate and saturate. -/
class Double (F : Type) where
  ofNat : Nat → F
  mul : F → F → F
  lt : F → F → Bool
  isFinite : F → Bool
  ceil : F → F
  round : F → F
  toU32 : F → Nat
  toU64 : F → Nat

/-- The machine's doubles. -/
instance : Double Float where
  ofNat := Nat.toFloat
  mul := (· * ·)
  lt := fun left right => decide (left < right)
  isFinite := Float.isFinite
  ceil := Float.ceil
  round := Float.round
  toU32 := fun value => value.toUInt32.toNat
  toU64 := fun value => value.toUInt64.toNat

/-- Exact fractions. -/
instance : Double ℚ where
  ofNat := fun value => value
  mul := (· * ·)
  lt := fun left right => decide (left < right)
  isFinite := fun _ => true
  ceil := fun value => value.ceil
  round := fun value => if value < 0 then (value - 1 / 2).ceil else (value + 1 / 2).floor
  toU32 := fun value => min value.floor.toNat (2 ^ 32 - 1)
  toU64 := fun value => min value.floor.toNat (2 ^ 64 - 1)

/-- Basis points in one whole. -/
def bpsDenominator : Nat := 10000

/-- An amount scaled by a rate in basis points, truncated. -/
def scaleTruncating (amount rateBps : Nat) : Nat := amount * rateBps / bpsDenominator

/-- The factor, in basis points, that the input floor scales the quoted input by. -/
def inputFloorFactorBps {F : Type} [Double F] (slippage : F) : Nat :=
  if !Double.isFinite slippage || !Double.lt (Double.ofNat 0) slippage then bpsDenominator
  else
    let whole : F := Double.ofNat bpsDenominator
    let tolerance := Double.ceil (Double.mul slippage whole)
    bpsDenominator - Double.toU32 (if Double.lt tolerance whole then tolerance else whole)

/-- The extension's fee, a fixed-point fraction with 32 bits, so that the taker's output tracks the
committed amount. Rounded down. -/
def deriveFeeQ32 (gross committed : Nat) : Nat :=
  if gross ≤ committed then 0
  else min ((gross - committed) * 2 ^ 32 / gross) (2 ^ 32 - 1)

/-- The big-endian bytes of a number, in a given width. -/
def bigEndian (width value : Nat) : Bytes :=
  (List.range width).reverse.map fun position => UInt8.ofNat (value / 256 ^ position)

/-- A word with bytes to the right and zeros before them. -/
def leftPadded (width : Nat) (bytes : Bytes) : Bytes :=
  List.replicate (width - bytes.length) 0 ++ bytes

/-- The bytes of an integer in two's complement. -/
def signedBigEndian (width : Nat) (value : Int) : Bytes :=
  bigEndian width (value % 256 ^ width).toNat

/-- An amount as a signed integer of 128 bits, if it fits. -/
def toI128 (amount : Nat) : Option Int := if amount < 2 ^ 127 then some amount else none

/-- The signer of exclusive legs: its key as a signing function, and what it binds into a
payload. -/
structure ExclusiveSwapSigner where
  signHash : Bytes → Except String Bytes
  chainId : Nat
  noncePrefix : Nat
  deadlineWindowSecs : Nat
  authorizedLocker : Bytes
  outputCapToleranceBps : Nat

/-- What comes from outside: the hash function and the bytes of an address. -/
structure Primitives where
  keccak256 : Bytes → Bytes
  addressBytes : Address → Bytes

/-- What one call of the signer reads: the nonce counter, which other calls advance too, and the
clock, if it is not before the epoch. -/
structure Reading where
  nonceCounter : Nat
  unixSecs : Option Nat

/-- The deadline, the fee, the nonce and the low half of the locker, in one word. -/
def signedSwapMeta (deadline fee nonce : Nat) (authorizedLocker : Bytes) : Bytes :=
  bigEndian 4 deadline ++ bigEndian 4 fee ++ bigEndian 8 nonce ++
    (authorizedLocker.drop 4).take 16

/-- The balance minimums that pin a swap to its quoted amounts, ordered by token. -/
def pinnedMinBalanceUpdate (swap : Swap P) (floorFactorBps capFactorBps : Nat) :
    Except SolveError Bytes := do
  let tokenIn ← (toI128 (scaleTruncating swap.amountIn floorFactorBps)).elim
    (.error (.failedEncoding "pinned input floor overflows the extension's i128 balance delta")) .ok
  let tokenOut ← (toI128 (scaleTruncating swap.amountOut capFactorBps)).elim
    (.error (.failedEncoding "pinned output cap overflows the extension's i128 balance delta")) .ok
  return if swap.tokenIn ≤ swap.tokenOut then
    signedBigEndian 16 tokenIn ++ signedBigEndian 16 (-tokenOut)
  else signedBigEndian 16 (-tokenOut) ++ signedBigEndian 16 tokenIn

/-- A required static attribute. -/
def attributeBytes (component : ProtocolComponent) (key : String) : Except SolveError Bytes :=
  (component.staticAttributes.lookup key).elim
    (.error (.failedEncoding ("component missing \x60" ++ key ++ "\x60 attribute"))) .ok

/-- The extension address of a component. -/
def poolExtension (component : ProtocolComponent) : Except SolveError Bytes := do
  let bytes ← attributeBytes component "extension"
  if bytes.length = 20 then return bytes
  else .error (.failedEncoding "extension attribute is not a 20-byte address")

/-- The pool configuration word: extension, fee and type. -/
def poolConfigWord (component : ProtocolComponent) : Except SolveError Bytes := do
  let extension ← attributeBytes component "extension"
  let fee ← attributeBytes component "fee"
  let poolTypeConfig ← attributeBytes component "pool_type_config"
  if extension.length ≠ 20 then .error (.failedEncoding "extension attribute must be 20 bytes")
  else if fee.length ≠ 8 then .error (.failedEncoding "fee attribute must be 8 bytes")
  else if poolTypeConfig.length ≠ 4 then
    .error (.failedEncoding "pool_type_config attribute must be 4 bytes")
  else return extension ++ fee ++ poolTypeConfig

/-- The pool id of two tokens and a configuration. -/
def poolId (primitives : Primitives) (token0 token1 : Address) (config : Bytes) :
    Except SolveError Bytes :=
  let first := primitives.addressBytes token0
  let second := primitives.addressBytes token1
  if first.length > 32 || second.length > 32 then
    .error (.failedEncoding "token address exceeds 32 bytes; cannot build poolId")
  else .ok (primitives.keccak256 (leftPadded 32 first ++ leftPadded 32 second ++ config))

/-- Two tokens in order. -/
def sortedTokens (tokenIn tokenOut : Address) : Address × Address :=
  if tokenIn ≤ tokenOut then (tokenIn, tokenOut) else (tokenOut, tokenIn)

/-- The digest that the extension recovers the signer from. -/
def eip712Digest (primitives : Primitives) (chainId : Nat)
    (extension poolId swapMeta minBalanceUpdate : Bytes) : Bytes :=
  let hash := primitives.keccak256
  let text := fun (text : String) => hash text.toUTF8.toList
  let domainSeparator := hash (text
      "EIP712Domain(string name,string version,uint256 chainId,address verifyingContract)" ++
    text "Ekubo SignedExclusiveSwap" ++ text "1" ++ bigEndian 32 chainId ++
    leftPadded 32 extension)
  let structHash := hash
    (text "SignedSwap(bytes32 poolId,uint256 meta,bytes32 minBalanceUpdate)" ++ poolId ++
      swapMeta ++ minBalanceUpdate)
  hash ([0x19, 0x01] ++ domainSeparator ++ structHash)

namespace ExclusiveSwapSigner

/-- The next unused nonce. The counter has 32 bits and does not wrap. -/
def nextNonce (signer : ExclusiveSwapSigner) (counter : Nat) : Except SolveError Nat :=
  if counter + 1 < 2 ^ 32 then .ok (signer.noncePrefix * 2 ^ 32 + counter)
  else .error (.failedEncoding
    "exclusive swap nonce counter is exhausted; restart to draw a new prefix")

/-- Builds the signed user data of one exclusive leg. -/
def buildUserData {F : Type} [Double F] (signer : ExclusiveSwapSigner) (primitives : Primitives)
    (reading : Reading) (swap : Swap P) (slippage : F) : Except SolveError Bytes := do
  let committed ← swap.committedAmountOut.elim
    (.error (.failedEncoding "signed swap leg is missing committed_amount_out")) .ok
  let fee := deriveFeeQ32 swap.amountOut committed
  let nonce ← signer.nextNonce reading.nonceCounter
  let now ← reading.unixSecs.elim (.error (.failedEncoding
    "system clock is before the Unix epoch, cannot compute a signing deadline")) .ok
  let deadline := min (now + signer.deadlineWindowSecs) (2 ^ 64 - 1)
  if deadline ≥ 2 ^ 32 then .error (.failedEncoding "signed swap deadline overflows u32")
  else
    let swapMeta := signedSwapMeta deadline fee nonce signer.authorizedLocker
    let minBalanceUpdate ← pinnedMinBalanceUpdate swap (inputFloorFactorBps slippage)
      (min (bpsDenominator + signer.outputCapToleranceBps) (2 ^ 32 - 1))
    let extension ← poolExtension swap.protocolComponent
    let config ← poolConfigWord swap.protocolComponent
    let tokens := sortedTokens swap.tokenIn swap.tokenOut
    let poolId ← poolId primitives tokens.1 tokens.2 config
    let digest := eip712Digest primitives signer.chainId extension poolId swapMeta minBalanceUpdate
    let signature ← (signer.signHash digest).mapError fun error =>
      SolveError.failedEncoding ("signed swap signing failed: " ++ error)
    return (config.drop 20).take 8 ++ swapMeta ++ minBalanceUpdate ++ signature

end ExclusiveSwapSigner

end Fynd
