/- GID: Chain/CompareChains
   anchors: [src/bitxorcore/chain, src/bitxorcore/api, src/bitxorcore/io, src/bitxorcore/model]
   digest: The search for the first common block of the local chain and a remote one. -/

import BitxorCore.Library.Halting
import BitxorCore.Types
import Mathlib.Algebra.Order.Ring.Nat

set_option autoImplicit false
set_option relaxedAutoImplicit false

namespace BitxorCore.Chain
open Library.Halting

inductive ChainComparisonCode
  | remoteReportedEqualChainScore
  | remoteReportedLowerChainScore
  | localScoreUpdated
  | remoteIsTooFarBehind
  | remoteIsNotSynced
  | remoteReturnedTooManyHashes
  | remoteIsForked
  | remoteLiedAboutChainScore
  deriving DecidableEq, Repr

structure ChainStatistics where
  score : ℕ
  height : ℕ

/-- The stored chain: the block hashes from height one on, and the score. -/
structure LocalChain where
  hashes : List Hash256
  score : ℕ

namespace LocalChain

variable (chain : LocalChain)

def chainHeight : ℕ := chain.hashes.length

def chainStatistics : ChainStatistics := ⟨chain.score, chain.chainHeight⟩

def loadHashesFrom (height maxHashes : ℕ) : List Hash256 :=
  if height = 0 ∨ chain.chainHeight < height then []
  else (chain.hashes.drop (height - 1)).take (min maxHashes (chain.chainHeight - height + 1))

/-- The future of the local api; it is exceptional when there are no hashes. -/
def hashesFrom (height maxHashes : ℕ) : Option (List Hash256) :=
  match chain.loadHashesFrom height maxHashes with
  | [] => none
  | hashes => some hashes

end LocalChain

/-- A remote reports statistics once and then answers each hash request as it likes. -/
structure RemoteChain where
  chainStatistics : ChainStatistics
  hashes : ℕ → List Hash256

structure CompareChainsOptions where
  hashesPerBatch : ℕ
  finalizedHeight : ℕ

structure CompareChainsResult where
  code : ChainComparisonCode
  commonBlockHeight : ℕ
  forkDepth : ℕ
  deriving DecidableEq

def findFirstDifferenceIndex : List Hash256 → List Hash256 → ℕ
  | lhs :: lhsRest, rhs :: rhsRest =>
    if lhs ≠ rhs then 0 else findFirstDifferenceIndex lhsRest rhsRest + 1
  | _, _ => 0

inductive Stage
  | statistics
  | hashesFirst
  | hashesNext
  | scoreLocal
  deriving DecidableEq, Repr

structure CompareChainsContext where
  stage : Stage
  lowerBoundHeight : ℕ
  upperBoundHeight : ℕ
  startingHashesHeight : ℕ
  originalLocalScore : ℕ
  localHeight : ℕ
  remoteHeight : ℕ
  commonBlockHeight : ℕ

namespace CompareChainsContext

def create : CompareChainsContext := ⟨.statistics, 0, 0, 0, 0, 0, 0, 0⟩

variable (ctx : CompareChainsContext) (opts : CompareChainsOptions)

def compareChainStatistics (localChainStatistics remoteChainStatistics : ChainStatistics) :
    Option ChainComparisonCode × CompareChainsContext :=
  let localScore := localChainStatistics.score
  let remoteScore := remoteChainStatistics.score
  if remoteChainStatistics.height ≤ opts.finalizedHeight then
    (some .remoteIsTooFarBehind, ctx)
  else if localScore < remoteScore then
    (none, { ctx with
      originalLocalScore := localScore
      localHeight := localChainStatistics.height
      remoteHeight := remoteChainStatistics.height
      upperBoundHeight := localChainStatistics.height
      stage := .hashesFirst })
  else if localScore = remoteScore then (some .remoteReportedEqualChainScore, ctx)
  else (some .remoteReportedLowerChainScore, ctx)

def tryContinue (nextStartingHashesHeight : ℕ) :
    Option ChainComparisonCode × CompareChainsContext :=
  if ctx.startingHashesHeight = nextStartingHashesHeight then
    (some .remoteLiedAboutChainScore, ctx)
  else
    (none, { ctx with
      startingHashesHeight := nextStartingHashesHeight
      stage := .hashesNext })

def localHeightDerivedFromHashes (ours theirs : List Hash256) : ℕ :=
  ctx.startingHashesHeight + (min ours.length theirs.length - 1)

def compareHashes (ours theirs : List Hash256) :
    Option ChainComparisonCode × CompareChainsContext :=
  let firstDifferenceIndex := findFirstDifferenceIndex ours theirs
  let derivedHeight := ctx.localHeightDerivedFromHashes ours theirs
  if opts.hashesPerBatch < theirs.length ∨ theirs.length = 0 then
    (some .remoteReturnedTooManyHashes, ctx)
  else if ctx.stage = .hashesFirst ∧ firstDifferenceIndex = 0 then
    (some .remoteIsForked, ctx)
  else if firstDifferenceIndex = 0 then
    tryContinue { ctx with upperBoundHeight := ctx.startingHashesHeight }
      ((ctx.lowerBoundHeight + ctx.startingHashesHeight) / 2)
  else if theirs.length = firstDifferenceIndex then
    if ctx.localHeight ≤ derivedHeight then
      if derivedHeight < ctx.remoteHeight then
        -- neither bound moves here
        ctx.tryContinue (derivedHeight - 1)
      else (none, { ctx with stage := .scoreLocal })
    else
      tryContinue { ctx with lowerBoundHeight := ctx.startingHashesHeight }
        ((ctx.startingHashesHeight + ctx.upperBoundHeight) / 2)
  else
    (some .remoteIsNotSynced, { ctx with
      commonBlockHeight := ctx.startingHashesHeight + (firstDifferenceIndex - 1)
      localHeight := max ctx.localHeight derivedHeight })

def compareLocalScore (currentLocalScore : ℕ) : Option ChainComparisonCode × CompareChainsContext :=
  if ctx.originalLocalScore < currentLocalScore then (some .localScoreUpdated, ctx)
  else (some .remoteLiedAboutChainScore, ctx)

def result (code : ChainComparisonCode) : CompareChainsResult :=
  if code = .remoteIsNotSynced then
    ⟨code, ctx.commonBlockHeight, ctx.localHeight - ctx.commonBlockHeight⟩
  else ⟨code, 2 ^ 64 - 1, 0⟩

@[simp]
theorem code_result (code : ChainComparisonCode) : (ctx.result code).code = code := by
  unfold result
  split_ifs <;> rfl

end CompareChainsContext

/-- The promise of a comparison with the number of hash requests made for it. -/
inductive Comparison
  | pending (ctx : CompareChainsContext) (requests : ℕ)
  | completed (result : CompareChainsResult) (requests : ℕ)
  | failed (requests : ℕ)

namespace Comparison

def isCompleted : Comparison → Bool
  | completed _ _ => true
  | _ => false

def dispatch (outcome : Option ChainComparisonCode × CompareChainsContext) (requests : ℕ) :
    Comparison :=
  match outcome.1 with
  | some code => completed (outcome.2.result code) requests
  | none => pending outcome.2 requests

def startNextCompare (chain : LocalChain) (remote : RemoteChain) (opts : CompareChainsOptions) :
    Comparison → Comparison
  | pending ctx requests =>
    match ctx.stage with
    | .statistics =>
      dispatch (CompareChainsContext.compareChainStatistics
        { ctx with
          lowerBoundHeight := opts.finalizedHeight
          startingHashesHeight := opts.finalizedHeight }
        opts chain.chainStatistics remote.chainStatistics) requests
    | .hashesFirst | .hashesNext =>
      match chain.hashesFrom ctx.startingHashesHeight opts.hashesPerBatch with
      | none => failed (requests + 1)
      | some ours =>
        dispatch (ctx.compareHashes opts ours (remote.hashes requests)) (requests + 1)
    | .scoreLocal => dispatch (ctx.compareLocalScore chain.score) requests
  | finished => finished

end Comparison

/-- `CompareChains` after a number of dispatched comparisons. -/
def compareChains (chain : LocalChain) (remote : RemoteChain) (opts : CompareChainsOptions)
    (steps : ℕ) : Comparison :=
  (Comparison.startNextCompare chain remote opts)^[steps] (.pending .create 0)

variable {chain : LocalChain}

theorem findFirstDifferenceIndex_le (lhs rhs : List Hash256) :
    findFirstDifferenceIndex lhs rhs ≤ min lhs.length rhs.length := by
  fun_induction findFirstDifferenceIndex lhs rhs with
  | case1 => exact Nat.zero_le _
  | case2 => simp only [List.length_cons]; omega
  | case3 => exact Nat.zero_le _

theorem findFirstDifferenceIndex_append (common rest : List Hash256) :
    findFirstDifferenceIndex (common ++ rest) common = common.length := by
  induction common with
  | nil => cases rest <;> rfl
  | cons hash common ih => simp [findFirstDifferenceIndex, ih]

namespace LocalChain

variable {height maxHashes : ℕ}

theorem hashesFrom_eq_none (outside : height = 0 ∨ chain.chainHeight < height) :
    chain.hashesFrom height maxHashes = none := by
  simp [hashesFrom, loadHashesFrom, outside]

private theorem hashesFrom_zero (height : ℕ) : chain.hashesFrom height 0 = none := by
  simp [hashesFrom, loadHashesFrom]

theorem inside_of_hashesFrom {ours : List Hash256}
    (loaded : chain.hashesFrom height maxHashes = some ours) :
    0 < height ∧ height ≤ chain.chainHeight ∧ 0 < maxHashes := by
  refine ⟨?_, ?_, ?_⟩ <;> by_contra outside
  · rw [hashesFrom_eq_none (.inl (by omega))] at loaded
    exact Option.some_ne_none _ loaded.symm
  · rw [hashesFrom_eq_none (.inr (by omega))] at loaded
    exact Option.some_ne_none _ loaded.symm
  · simp_all [hashesFrom_zero]

theorem hashesFrom_eq_some (pos : 0 < height)
    (inside : height ≤ chain.chainHeight) (batch : 0 < maxHashes) :
    ∃ ours, chain.hashesFrom height maxHashes = some ours ∧
      ours = (chain.hashes.drop (height - 1)).take maxHashes ∧
      ours.length = min maxHashes (chain.chainHeight - height + 1) := by
  have available : (chain.hashes.drop (height - 1)).length = chain.chainHeight - height + 1 := by
    rw [List.length_drop, chainHeight]
    rw [chainHeight] at inside
    omega
  have loaded : chain.loadHashesFrom height maxHashes =
      (chain.hashes.drop (height - 1)).take maxHashes := by
    rw [loadHashesFrom, if_neg (by omega), ← available, List.take_eq_take_iff]
    omega
  have length : ((chain.hashes.drop (height - 1)).take maxHashes).length =
      min maxHashes (chain.chainHeight - height + 1) := by
    rw [List.length_take, available]
  refine ⟨_, ?_, rfl, length⟩
  rw [hashesFrom, loaded]
  split
  · next empty =>
    rw [empty, List.length_nil] at length
    omega
  · rfl

end LocalChain

theorem CompareChainsContext.compareHashes_cases (ctx : CompareChainsContext)
    (opts : CompareChainsOptions) (ours theirs : List Hash256) :
    (∃ code after, ctx.compareHashes opts ours theirs = (some code, after)) ∨
    ctx.compareHashes opts ours theirs = (none, { ctx with stage := .scoreLocal }) ∨
    (ctx.stage ≠ .hashesFirst ∧ ctx.startingHashesHeight ≠
        (ctx.lowerBoundHeight + ctx.startingHashesHeight) / 2 ∧
      ctx.compareHashes opts ours theirs = (none, { ctx with
        upperBoundHeight := ctx.startingHashesHeight
        startingHashesHeight := (ctx.lowerBoundHeight + ctx.startingHashesHeight) / 2
        stage := .hashesNext })) ∨
    (ctx.startingHashesHeight ≠
        (ctx.startingHashesHeight + ctx.upperBoundHeight) / 2 ∧
      ctx.compareHashes opts ours theirs = (none, { ctx with
        lowerBoundHeight := ctx.startingHashesHeight
        startingHashesHeight := (ctx.startingHashesHeight + ctx.upperBoundHeight) / 2
        stage := .hashesNext })) ∨
    (theirs.length ≤ opts.hashesPerBatch ∧
      ctx.localHeight ≤ ctx.localHeightDerivedFromHashes ours theirs ∧
      ctx.localHeightDerivedFromHashes ours theirs < ctx.remoteHeight ∧
      ctx.startingHashesHeight ≠
        ctx.localHeightDerivedFromHashes ours theirs - 1 ∧
      ctx.compareHashes opts ours theirs = (none, { ctx with
        startingHashesHeight := ctx.localHeightDerivedFromHashes ours theirs - 1
        stage := .hashesNext })) := by
  unfold compareHashes tryContinue
  split_ifs <;> grind

section Continuing

variable {ctx : CompareChainsContext} {opts : CompareChainsOptions}
  {ours theirs : List Hash256}

section
variable (batch : 0 < theirs.length ∧ theirs.length ≤ opts.hashesPerBatch)
include batch

theorem CompareChainsContext.compareHashes_back
    (next : ctx.stage = .hashesNext) (differ : findFirstDifferenceIndex ours theirs = 0)
    (moved : ctx.startingHashesHeight ≠
      (ctx.lowerBoundHeight + ctx.startingHashesHeight) / 2) :
    ctx.compareHashes opts ours theirs = (none, { ctx with
      upperBoundHeight := ctx.startingHashesHeight
      startingHashesHeight := (ctx.lowerBoundHeight + ctx.startingHashesHeight) / 2
      stage := .hashesNext }) := by
  have first : ¬(ctx.stage = .hashesFirst ∧
      findFirstDifferenceIndex ours theirs = 0) := by simp [next]
  rw [compareHashes, if_neg (by omega), if_neg first, if_pos differ, tryContinue]
  exact if_neg moved

section
variable (equal : findFirstDifferenceIndex ours theirs = theirs.length)
include equal

theorem CompareChainsContext.compareHashes_forward
    (below : ctx.localHeightDerivedFromHashes ours theirs < ctx.localHeight)
    (moved : ctx.startingHashesHeight ≠
      (ctx.startingHashesHeight + ctx.upperBoundHeight) / 2) :
    ctx.compareHashes opts ours theirs = (none, { ctx with
      lowerBoundHeight := ctx.startingHashesHeight
      startingHashesHeight := (ctx.startingHashesHeight + ctx.upperBoundHeight) / 2
      stage := .hashesNext }) := by
  rw [compareHashes, if_neg (by omega), if_neg (by omega), if_neg (by omega), if_pos equal.symm,
    if_neg (by omega), tryContinue]
  exact if_neg moved

theorem CompareChainsContext.compareHashes_jump
    (reached : ctx.localHeight ≤ ctx.localHeightDerivedFromHashes ours theirs)
    (above : ctx.localHeightDerivedFromHashes ours theirs < ctx.remoteHeight)
    (moved : ctx.startingHashesHeight ≠
      ctx.localHeightDerivedFromHashes ours theirs - 1) :
    ctx.compareHashes opts ours theirs = (none, { ctx with
      startingHashesHeight := ctx.localHeightDerivedFromHashes ours theirs - 1
      stage := .hashesNext }) := by
  rw [compareHashes, if_neg (by omega), if_neg (by omega), if_neg (by omega), if_pos equal.symm,
    if_pos reached, if_pos above, tryContinue]
  exact if_neg moved

end

theorem CompareChainsContext.compareHashes_common (some_ : 0 < findFirstDifferenceIndex ours theirs)
    (differ : findFirstDifferenceIndex ours theirs ≠ theirs.length) :
    ctx.compareHashes opts ours theirs = (some .remoteIsNotSynced, { ctx with
        commonBlockHeight := ctx.startingHashesHeight + (findFirstDifferenceIndex ours theirs - 1)
        localHeight := max ctx.localHeight
          (ctx.localHeightDerivedFromHashes ours theirs) }) := by
  rw [compareHashes, if_neg (by omega), if_neg (by omega), if_neg (by omega)]
  exact if_neg differ.symm

end

end Continuing

end BitxorCore.Chain
