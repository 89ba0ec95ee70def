import Mathlib.Data.List.Basic
import Fynd.Types.Route

/-!
# The frame a revert is reported from

A revert bubbles up a call tree. The frame that is reported is searched from the root down, along
reverted calls, and the first call that leads to a frame with revert data is followed. A later call
may lead deeper. The search ends at the deepest frame exactly if the call it follows leads as deep
as any other, at each frame it passes.
-/

namespace Fynd

open List

/-- A call of a traced transaction, with the calls it made. -/
structure CallFrame where
  output : Option Bytes
  error : Option String
  revertReason : Option String
  calls : List CallFrame

namespace CallFrame

/-- Whether a frame reverted, with revert data or with a plain execution error. -/
def reverted (frame : CallFrame) : Bool := frame.revertReason.isSome || frame.error.isSome

/-- Whether a frame's output is long enough to hold a selector. -/
def carriesData (frame : CallFrame) : Bool := frame.output.any fun output => 4 ≤ output.length

/-! ## The search -/

/-- One call further down. -/
def oneDown (found : Nat × CallFrame) : Nat × CallFrame := (found.1 + 1, found.2)

mutual

/-- The first reverted frame that carries data, with its depth. A frame comes after those it
called. -/
def deepestFrameWithData : CallFrame → Option (Nat × CallFrame)
  | ⟨output, error, revertReason, calls⟩ =>
    let frame : CallFrame := ⟨output, error, revertReason, calls⟩
    if !frame.reverted then none
    else ((findMapWithData calls).map oneDown).or
      (if frame.carriesData then some (0, frame) else none)

/-- What the first call that has such a frame leads to. -/
def findMapWithData : List CallFrame → Option (Nat × CallFrame)
  | [] => none
  | child :: rest => (deepestFrameWithData child).or (findMapWithData rest)

end

mutual

/-- The frame at the end of the first reverted calls, with its depth. -/
def deepestRevertingFrame : CallFrame → Nat × CallFrame
  | ⟨output, error, revertReason, calls⟩ =>
    (findReverted calls).elim (0, ⟨output, error, revertReason, calls⟩) oneDown

/-- What the first reverted call leads to. -/
def findReverted : List CallFrame → Option (Nat × CallFrame)
  | [] => none
  | child :: rest =>
    if child.reverted then some (deepestRevertingFrame child) else findReverted rest

end

/-- The frame whose revert is worth reporting, with its depth. -/
def reportingFrame (frame : CallFrame) : Nat × CallFrame :=
  (deepestFrameWithData frame).getD (deepestRevertingFrame frame)

/-! ## What the search finds -/

/-- A frame reached through reverted frames only, at a depth. -/
inductive Reaches : CallFrame → Nat → CallFrame → Prop
  | here {frame : CallFrame} (reverts : frame.reverted = true) : Reaches frame 0 frame
  | call {frame child target : CallFrame} {depth : Nat} (reverts : frame.reverted = true)
      (member : child ∈ frame.calls) (onward : Reaches child depth target) :
      Reaches frame (depth + 1) target

/-- The reported frame is the deepest one that carries data, or the deepest one if none does. -/
structure ReportsDeepest (root : CallFrame) : Prop where
  reached : Reaches root (reportingFrame root).1 (reportingFrame root).2
  informative : ∀ depth frame, Reaches root depth frame → frame.carriesData = true →
    (reportingFrame root).2.carriesData = true ∧ depth ≤ (reportingFrame root).1
  silent : (∀ depth frame, Reaches root depth frame → frame.carriesData = false) →
    ∀ depth frame, Reaches root depth frame → depth ≤ (reportingFrame root).1

/-- A frame leads to one that a search may end at, at a depth. -/
def Leads (ends : CallFrame → Bool) (frame : CallFrame) (depth : Nat) : Prop :=
  ∃ target, Reaches frame depth target ∧ ends target = true

/-- The first call that leads anywhere leads as deep as any other, there and below it. -/
inductive FirstDeepest (ends : CallFrame → Bool) : CallFrame → Prop
  | last {frame : CallFrame} (silent : ∀ child ∈ frame.calls, ∀ depth, ¬ child.Leads ends depth) :
      FirstDeepest ends frame
  | follow {frame chosen : CallFrame} {earlier later : List CallFrame}
      (calls : frame.calls = earlier ++ chosen :: later)
      (silent : ∀ child ∈ earlier, ∀ depth, ¬ child.Leads ends depth)
      (leads : ∃ depth, chosen.Leads ends depth)
      (deepest : ∀ child ∈ later, ∀ depth, child.Leads ends depth →
        ∃ deeper, depth ≤ deeper ∧ chosen.Leads ends deeper)
      (onward : FirstDeepest ends chosen) : FirstDeepest ends frame

/-- The first calls lead deepest: to frames that carry data if there is one, or else to any. -/
structure FollowsDeepest (root : CallFrame) : Prop where
  informed : (∃ depth, root.Leads carriesData depth) → FirstDeepest carriesData root
  silent : (¬ ∃ depth, root.Leads carriesData depth) → FirstDeepest (fun _ => true) root

/-- Induction on a call tree, from the calls of a frame to the frame. -/
theorem inductionOn {holds : CallFrame → Prop}
    (step : ∀ frame, (∀ child ∈ frame.calls, holds child) → holds frame) (frame : CallFrame) :
    holds frame :=
  step frame fun child _ => inductionOn step child
termination_by frame
decreasing_by
  cases frame
  have smaller := sizeOf_lt_of_mem ‹_›
  simp only [mk.sizeOf_spec] at smaller ⊢
  omega

/-- Both searches, by the frames they may end at. -/
structure FirstMatch (ends : CallFrame → Bool) (search : CallFrame → Option (Nat × CallFrame)) :
    Prop where
  eq : ∀ frame, frame.reverted = true → search frame =
    ((frame.calls.findSome? search).map oneDown).or (if ends frame then some (0, frame) else none)
  unreverted : ∀ frame, frame.reverted = false → search frame = none

private theorem firstMatch_deepestFrameWithData : FirstMatch carriesData deepestFrameWithData := by
  have list : ∀ calls, findMapWithData calls = calls.findSome? deepestFrameWithData := by
    intro calls
    induction calls with
    | nil => rfl
    | cons child rest ih =>
      rw [findMapWithData, ih, findSome?_cons]
      cases deepestFrameWithData child <;> rfl
  refine ⟨fun ⟨_, _, _, _⟩ reverts => ?_, fun ⟨_, _, _, _⟩ stands => ?_⟩
  · rw [← list]
    simp [deepestFrameWithData, reverts]
  · simp [deepestFrameWithData, stands]

private theorem firstMatch_deepestRevertingFrame : FirstMatch (fun _ => true)
    fun frame => if frame.reverted then some (deepestRevertingFrame frame) else none := by
  have list : ∀ calls, findReverted calls = calls.findSome? fun frame =>
      if frame.reverted then some (deepestRevertingFrame frame) else none := by
    intro calls
    induction calls with
    | nil => rfl
    | cons child rest ih =>
      rw [findReverted, ih, findSome?_cons]
      cases child.reverted <;> rfl
  refine ⟨fun ⟨_, _, _, calls⟩ reverts => ?_, fun frame stands => by simp [stands]⟩
  rw [← list]
  cases found : findReverted calls <;> simp [deepestRevertingFrame, reverts, found]

namespace FirstMatch

variable {ends : CallFrame → Bool} {search : CallFrame → Option (Nat × CallFrame)}
  (first : FirstMatch ends search) {root frame : CallFrame} {depth : Nat} {found : Nat × CallFrame}
include first

private theorem sound (done : search root = some found) :
    Reaches root found.1 found.2 ∧ ends found.2 = true := by
  induction root using inductionOn generalizing found with
  | step root ih =>
    cases reverts : root.reverted with
    | false => simp [first.unreverted root reverts] at done
    | true =>
      rw [first.eq root reverts] at done
      rcases Option.or_eq_some_iff.mp done with called | ⟨-, own⟩
      · obtain ⟨deeper, searched, rfl⟩ := Option.map_eq_some_iff.mp called
        obtain ⟨child, member, made⟩ := exists_of_findSome?_eq_some searched
        obtain ⟨reached, good⟩ := ih child member made
        exact ⟨.call reverts member reached, good⟩
      · split at own
        · cases own
          exact ⟨.here reverts, ‹_›⟩
        · cases own

/-- The search finds something where there is something to find. -/
theorem complete (leads : root.Leads ends depth) : ∃ found, search root = some found := by
  obtain ⟨target, reached, good⟩ := leads
  induction reached with
  | @here frame reverts =>
    rw [first.eq frame reverts, if_pos good]
    cases frame.calls.findSome? search <;> simp
  | @call frame child target depth reverts member onward ih =>
    obtain ⟨found, made⟩ := ih good
    have called : (frame.calls.findSome? search).isSome :=
      findSome?_isSome_iff.mpr ⟨child, member, by rw [made]; rfl⟩
    obtain ⟨inner, searched⟩ := Option.isSome_iff_exists.mp called
    exact ⟨oneDown inner, by rw [first.eq frame reverts, searched]; rfl⟩

private theorem search_eq_none_iff : search root = none ↔ ∀ depth, ¬ root.Leads ends depth := by
  constructor
  · intro nothing depth leads
    obtain ⟨found, made⟩ := first.complete leads
    cases nothing.symm.trans made
  · intro silent
    cases made : search root with
    | none => rfl
    | some found => exact absurd ⟨found.2, first.sound made⟩ (silent found.1)

private theorem reverted_of_search (done : search root = some found) : root.reverted = true := by
  by_contra stands
  rw [first.unreverted root (by simpa using stands)] at done
  cases done

private theorem firstDeepest_of_bounded (done : search root = some found)
    (bounded : ∀ depth, root.Leads ends depth → depth ≤ found.1) : FirstDeepest ends root := by
  induction root using inductionOn generalizing found with
  | step root ih =>
    have reverts := first.reverted_of_search done
    have made := first.eq root reverts
    rw [done] at made
    cases searched : root.calls.findSome? search with
    | none =>
      refine .last fun child member depth => ?_
      exact first.search_eq_none_iff.mp (findSome?_eq_none_iff.mp searched child member) depth
    | some inner =>
      rw [searched] at made
      cases made
      obtain ⟨earlier, chosen, later, calls, leads, before⟩ := findSome?_eq_some_iff.mp searched
      have inside : chosen ∈ root.calls := by simp [calls]
      have below {child : CallFrame} (member : child ∈ root.calls) {depth : Nat}
          (onward : child.Leads ends depth) : depth ≤ inner.1 := by
        obtain ⟨target, reached, good⟩ := onward
        exact Nat.le_of_succ_le_succ (bounded _ ⟨target, .call reverts member reached, good⟩)
      have reaches : chosen.Leads ends inner.1 := ⟨inner.2, first.sound leads⟩
      refine .follow calls
        (fun child member => first.search_eq_none_iff.mp (before child member))
        ⟨inner.1, reaches⟩ (fun child member depth onward => ⟨inner.1, ?_, reaches⟩)
        (ih chosen inside leads fun depth => below inside)
      exact below (by simp [calls, member]) onward

private theorem bounded_of_firstDeepest (deepest : FirstDeepest ends root)
    (done : search root = some found) (leads : root.Leads ends depth) : depth ≤ found.1 := by
  induction deepest generalizing found depth with
  | last silent =>
    obtain ⟨target, reached, good⟩ := leads
    cases reached with
    | here => exact Nat.zero_le _
    | call _ member onward => exact absurd ⟨target, onward, good⟩ (silent _ member _)
  | @follow root chosen earlier later calls silent leading deepest _ ih =>
    obtain ⟨_, leading⟩ := leading
    obtain ⟨inner, inward⟩ := first.complete leading
    have nothing : earlier.findSome? search = none :=
      findSome?_eq_none_iff.mpr fun child member =>
        first.search_eq_none_iff.mpr (silent child member)
    have made := first.eq root (first.reverted_of_search done)
    rw [done, calls, findSome?_append, nothing, findSome?_cons, inward] at made
    cases made
    obtain ⟨target, reached, good⟩ := leads
    cases reached with
    | here => exact Nat.zero_le _
    | @call _ child _ depth _ member onward =>
      refine Nat.succ_le_succ ?_
      have onward : child.Leads ends depth := ⟨target, onward, good⟩
      rw [calls, mem_append, mem_cons] at member
      obtain early | rfl | late := member
      · exact absurd onward (silent child early depth)
      · exact ih inward onward
      · obtain ⟨deeper, below, leads⟩ := deepest child late depth onward
        exact below.trans (ih inward leads)

/-- **First match.** What the search ends at is as deep as anything that may be found, exactly if
the first call that leads anywhere leads as deep as any other, at each frame on the way. -/
theorem deepest_iff (done : search root = some found) :
    (∀ depth, root.Leads ends depth → depth ≤ found.1) ↔ FirstDeepest ends root :=
  ⟨first.firstDeepest_of_bounded done, fun deepest _ => first.bounded_of_firstDeepest deepest done⟩

end FirstMatch

/-- **The deepest informative frame is reported exactly where the first calls lead deepest.** -/
theorem reportsDeepest_iff (root : CallFrame) (reverts : root.reverted = true) :
    root.ReportsDeepest ↔ root.FollowsDeepest := by
  by_cases informed : ∃ depth, root.Leads carriesData depth
  · obtain ⟨_, leads⟩ := informed
    obtain ⟨placed, found⟩ := firstMatch_deepestFrameWithData.complete leads
    obtain ⟨reached, carries⟩ := firstMatch_deepestFrameWithData.sound found
    have same : reportingFrame root = placed := by rw [reportingFrame, found]; rfl
    have exactly := firstMatch_deepestFrameWithData.deepest_iff found
    constructor
    · intro reports
      refine ⟨fun _ => exactly.mp fun depth ⟨frame, reached, good⟩ => ?_,
        fun silent => absurd ⟨_, leads⟩ silent⟩
      exact same ▸ (reports.informative depth frame reached good).2
    · intro follows
      have bounded := exactly.mpr (follows.informed ⟨_, leads⟩)
      refine ⟨same ▸ reached, fun depth frame other good => ?_, fun silent => ?_⟩
      · exact same ▸ ⟨carries, bounded depth ⟨frame, other, good⟩⟩
      · rw [silent _ _ reached] at carries
        cases carries
  · have nothing : deepestFrameWithData root = none :=
      firstMatch_deepestFrameWithData.search_eq_none_iff.mpr (not_exists.mp informed)
    have same : reportingFrame root = deepestRevertingFrame root := by
      rw [reportingFrame, nothing]
      rfl
    have found : (if root.reverted then some (deepestRevertingFrame root) else none) =
        some (deepestRevertingFrame root) := if_pos reverts
    have exactly := firstMatch_deepestRevertingFrame.deepest_iff found
    have dataless (depth : Nat) (frame : CallFrame) (reached : Reaches root depth frame) :
        frame.carriesData = false := by
      by_contra carries
      exact informed ⟨depth, frame, reached, by simpa using carries⟩
    constructor
    · intro reports
      refine ⟨fun data => absurd data informed, fun _ => exactly.mp fun depth leads => ?_⟩
      obtain ⟨frame, reached, -⟩ := leads
      exact same ▸ reports.silent dataless depth frame reached
    · intro follows
      have bounded := exactly.mpr (follows.silent informed)
      refine ⟨same ▸ (firstMatch_deepestRevertingFrame.sound found).1,
        fun depth frame reached carries => ?_, fun _ depth frame reached => ?_⟩
      · rw [dataless depth frame reached] at carries
        cases carries
      · exact same ▸ bounded depth ⟨frame, reached, rfl⟩

/-- A frame that reverted. -/
def failed (output : Option Bytes) (calls : List CallFrame) : CallFrame :=
  ⟨output, some "execution reverted", none, calls⟩

/-- Of two calls that reverted, the second one's data is reported: the first has none. -/
theorem second_revert_reported :
    (failed none [failed none [], failed (some [8, 195, 121, 160]) []]).ReportsDeepest := by
  have leaf (output : Option Bytes) {depth : Nat} {target : CallFrame}
      (reached : Reaches (failed output []) depth target) : target = failed output [] := by
    cases reached with
    | here => rfl
    | call _ member => cases member
  let data := failed (some [8, 195, 121, 160]) []
  have leads : ∃ depth, data.Leads carriesData depth := ⟨0, data, .here rfl, rfl⟩
  refine (reportsDeepest_iff _ rfl).mpr ⟨fun _ => ?_, fun silent => absurd ?_ silent⟩
  · refine @FirstDeepest.follow _ _ data [failed none []] [] rfl ?_ leads ?_ (.last ?_)
    · rintro child member depth ⟨target, reached, good⟩
      obtain rfl := mem_singleton.mp member
      rw [leaf none reached] at good
      cases good
    · exact fun child member => absurd member not_mem_nil
    · exact fun child member => absurd member not_mem_nil
  · exact ⟨1, data, .call rfl (.tail _ (.head _)) (.here rfl), rfl⟩

/-- Of two calls that reverted the first is followed, although the other leads deeper. -/
theorem side_by_side_reverts_misreported :
    ∃ root : CallFrame, root.reverted = true ∧ ¬ root.ReportsDeepest := by
  let leaf := failed (some [8, 195, 121, 160]) []
  refine ⟨failed none [leaf, failed none [leaf]], rfl, fun reports => ?_⟩
  have deeper := (reports.informative 2 leaf
    (.call rfl (.tail _ (.head _)) (.call rfl (.head _) (.here rfl))) rfl).2
  exact absurd deeper (by decide +kernel)

end CallFrame

end Fynd
