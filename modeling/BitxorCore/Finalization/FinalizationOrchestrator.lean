/- GID: Finalization/FinalizationOrchestrator
   anchors: [extensions/finalization]
   digest: The prevotes of an honest node pass the hash and height checks of its round. -/

import BitxorCore.Chain.CompareChains
import BitxorCore.Finalization.MultiRoundMessageAggregator
import BitxorCore.Library.Interruptible

set_option autoImplicit false
set_option relaxedAutoImplicit false

namespace BitxorCore.Finalization
open Library Library.Interruptible Model

structure StageAdvancer where
  round : FinalizationRound
  startTime : ℕ

namespace StageAdvancer

variable (advancer : StageAdvancer) (cfg : FinalizationConfiguration)

def isElapsed (time numSteps : ℕ) : Bool :=
  decide ((advancer.startTime + numSteps * cfg.stepDuration) % 2 ^ 64 ≤ time)

variable (view : MultiRoundMessageAggregator)

def isCompletable : Bool :=
  (view.tryGetRoundContext advancer.round).any RoundContext.isCompletable

def canSendPrevote (time : ℕ) (view : MultiRoundMessageAggregator) : Bool :=
  advancer.isElapsed cfg time 1 || advancer.isCompletable view

def canSendPrecommit (time : ℕ) (view : MultiRoundMessageAggregator) : Option HeightHashPair := do
  let roundContext ← view.tryGetRoundContext advancer.round
  let bestPrevote ← roundContext.tryFindBestPrevote
  let estimate := view.findEstimate ⟨advancer.round.epoch, advancer.round.point - 1⟩
  if roundContext.isDescendant estimate bestPrevote &&
      (advancer.isElapsed cfg time 2 || roundContext.isCompletable) then
    some bestPrevote
  else none

def canStartNextRound : Bool := advancer.isCompletable view

end StageAdvancer

structure FinalizationStatistics where
  round : FinalizationRound
  height : BitVec 64
  hash : Hash256

structure BlockStorageView where
  chainHeight : ℕ
  loadHashesFrom : ℕ → ℕ → List Hash256

/-- What making a message uses of the tree of voting keys. -/
structure MessageSigner where
  canSign : BitVec 32 → Bool
  sign : BitVec 32 → List ℕ → TreeSignature

def unsignedMessage (step : StepIdentifier) (height : BitVec 64) (hashes : List Hash256)
    (size_lt : 224 + 32 * hashes.length < 2 ^ 32) : FinalizationMessage :=
  ⟨0, ⟨⟨0, 0⟩, ⟨0, 0⟩⟩, FinalizationMessage.currentVersion, step, height, hashes, size_lt⟩

/-- `PrepareMessage`; a message that is too long for its size field is not made. -/
def prepareMessage (keys : MessageSigner) (step : StepIdentifier) (height : BitVec 64)
    (hashes : List Hash256) : Option FinalizationMessage :=
  if keys.canSign step.epoch then
    if size_lt : 224 + 32 * hashes.length < 2 ^ 32 then
      let message := unsignedMessage step height hashes size_lt
      some { message with signature := keys.sign step.epoch message.toBuffer }
    else none
  else none

theorem prepareMessage_spec {keys : MessageSigner} {message : FinalizationMessage}
    {step : StepIdentifier} {height : BitVec 64} {hashes : List Hash256}
    (made : prepareMessage keys step height hashes = some message) :
    message.stepIdentifier = step ∧ message.height = height ∧ message.hashes = hashes := by
  unfold prepareMessage at made
  split_ifs at made
  obtain rfl := Option.some.inj made
  exact ⟨rfl, rfl, rfl⟩

def clamp (value multiple adjustment : ℕ) : ℕ :=
  if value % multiple = 0 then value else (value / multiple + adjustment) * multiple % 2 ^ 64

def loadPrevoteHashChain (cfg : FinalizationConfiguration) (view : BlockStorageView)
    (round : FinalizationRound) (startHeight : ℕ) : Except String (List Hash256) := do
  let multiple := cfg.prevoteBlocksMultiple
  let maxPrevoteHashHeight :=
    if multiple ≤ view.chainHeight then view.chainHeight - multiple else view.chainHeight
  let maxVotingSetHeight ← calculateVotingSetEndHeight round.epoch cfg.votingSetGrouping
  let clampedChainHeight := clamp (min maxPrevoteHashHeight maxVotingSetHeight) multiple 0
  let numHashes := if startHeight < clampedChainHeight then clampedChainHeight - startHeight + 1
    else 1
  let numHashes := if cfg.maxHashesPerPoint < numHashes then
      sub64 numHashes (clamp (numHashes - cfg.maxHashesPerPoint) multiple 1)
    else numHashes
  return view.loadHashesFrom startHeight numHashes

def createPrevote (cfg : FinalizationConfiguration) (statistics : FinalizationStatistics)
    (view : BlockStorageView) (keys : MessageSigner) (round : FinalizationRound) :
    Except String (Option FinalizationMessage) := do
  let hashRange ← loadPrevoteHashChain cfg view round statistics.height.toNat
  let hashRange := if hashRange.isEmpty then [statistics.hash] else hashRange
  return prepareMessage keys (StepIdentifier.create round.epoch round.point .prevote)
    statistics.height hashRange

def createPrecommit (keys : MessageSigner) (round : FinalizationRound)
    (target : HeightHashPair) : Option FinalizationMessage :=
  prepareMessage keys (StepIdentifier.create round.epoch round.point .precommit)
    (.ofNat 64 target.height) [target.hash]

structure VotingStatus where
  round : FinalizationRound
  hasSentPrevote : Bool := false
  hasSentPrecommit : Bool := false
  deriving DecidableEq, Repr

/-- The bytes of the status file; there is none at first. -/
abbrev StatusFile := Option (List ℕ)

namespace VotingStatus

def flag (value : Bool) : List ℕ := [if value then 1 else 0]

/-- What the writes of `save` append, one after another. -/
def chunks (status : VotingStatus) : List (List ℕ) :=
  [Bytes.word 4 status.round.epoch, Bytes.word 4 status.round.point, flag status.hasSentPrevote,
    flag status.hasSentPrecommit]

/-- `VotingStatusFile::load`; reading over the end of the file throws. -/
def load : StatusFile → Except String VotingStatus
  | none => .ok ⟨⟨2, 1⟩, false, false⟩
  | some bytes =>
    if bytes.length < 10 then .error "couldn't read from file"
    else .ok
      { round := ⟨Bytes.ofWord 4 (bytes.take 4), Bytes.ofWord 4 ((bytes.drop 4).take 4)⟩
        hasSentPrevote := bytes.getD 8 0 != 0
        hasSentPrecommit := bytes.getD 9 0 != 0 }

end VotingStatus

structure Orchestrator where
  votingStatus : VotingStatus
  stageAdvancer : Option StageAdvancer

namespace Orchestrator

variable (orchestrator : Orchestrator)

def setEpoch (epoch : BitVec 32) : Except String Orchestrator :=
  if epoch < orchestrator.votingStatus.round.epoch then .error "cannot decrease epoch"
  else if epoch = orchestrator.votingStatus.round.epoch then .ok orchestrator
  else .ok ⟨⟨⟨epoch, 1⟩, false, false⟩, none⟩

def startRound (time : ℕ) : Orchestrator :=
  { orchestrator with stageAdvancer := some ⟨orchestrator.votingStatus.round, time⟩ }

def markPrevote : Orchestrator :=
  { orchestrator with votingStatus := { orchestrator.votingStatus with hasSentPrevote := true } }

def markPrecommit : Orchestrator :=
  { orchestrator with votingStatus := { orchestrator.votingStatus with hasSentPrecommit := true } }

def nextRound (time : ℕ) : Orchestrator :=
  startRound ⟨⟨⟨orchestrator.votingStatus.round.epoch, orchestrator.votingStatus.round.point + 1⟩,
    false, false⟩, none⟩ time

end Orchestrator

/-- What a poll reads from other components; the aggregator changes between the questions. -/
structure PollInput where
  time : ℕ
  statistics : FinalizationStatistics
  storage : BlockStorageView
  keys : MessageSigner
  isEligible : FinalizationMessage → Bool
  roundsView : MultiRoundMessageAggregator
  prevoteView : MultiRoundMessageAggregator
  precommitView : MultiRoundMessageAggregator
  nextRoundView : MultiRoundMessageAggregator

inductive EpochStatus
  | continue
  | wait
  | advance (epoch : BitVec 32)

def calculateEpochStatus (cfg : FinalizationConfiguration) (input : PollInput)
    (epoch : BitVec 32) : Except String EpochStatus := do
  let statistics := input.statistics
  let isStorageEpochAhead := decide (epoch < statistics.round.epoch)
  let votingSetEndHeight ← calculateVotingSetEndHeight epoch cfg.votingSetGrouping
  if !isStorageEpochAhead && statistics.height.toNat != votingSetEndHeight then
    return .continue
  if input.storage.chainHeight < statistics.height.toNat then
    return .wait
  if (input.storage.loadHashesFrom statistics.height.toNat 1).headD 0 != statistics.hash then
    return .wait
  return .advance (statistics.round.epoch + 1)

/-- A running node: its orchestrator, its status file and all messages it gave to the sink. -/
structure RunningNode where
  orchestrator : Orchestrator
  file : StatusFile
  sent : List FinalizationMessage

namespace RunningNode

variable (cfg : FinalizationConfiguration) (input : PollInput)

def status (node : RunningNode) : VotingStatus := node.orchestrator.votingStatus

def update (f : Orchestrator → Orchestrator) : Program RunningNode :=
  .action fun node => { node with orchestrator := f node.orchestrator }

/-- `process`: gives an eligible message to the sink. -/
def process (message : Option FinalizationMessage) : Program RunningNode := .action fun node =>
    { node with sent := node.sent ++ (message.filter input.isEligible).toList }

/-- `save`: opening truncates the file, and every write appends to it. -/
def save : Program RunningNode := .branch fun node =>
    node.status.chunks.foldl
      (fun program chunk => .seq program (.action fun node =>
        { node with file := node.file.map (· ++ chunk) }))
      (.action fun node => { node with file := some [] })

def sendPrecommit : Program RunningNode := .branch fun node =>
    if node.status.hasSentPrecommit then .skip
    else
      match node.orchestrator.stageAdvancer.bind fun advancer =>
        advancer.canSendPrecommit cfg input.time input.precommitView with
      | none => .skip
      | some target =>
        .seq (process input (createPrecommit input.keys node.status.round target))
          (update Orchestrator.markPrecommit)

def advanceRound : Program RunningNode := .branch fun node =>
    if node.status.hasSentPrecommit && node.orchestrator.stageAdvancer.any fun advancer =>
        advancer.canStartNextRound input.nextRoundView then
      update fun orchestrator => orchestrator.nextRound input.time
    else .skip

/-- The prevote of a poll and what follows it; an exception ends the poll. -/
def sendPrevote (rest : Program RunningNode) : Program RunningNode := .branch fun node =>
    if !node.status.hasSentPrevote && node.orchestrator.stageAdvancer.any fun advancer =>
        advancer.canSendPrevote cfg input.time input.prevoteView then
      match createPrevote cfg input.statistics input.storage input.keys node.status.round with
      | .error _ => .skip
      | .ok message =>
        .seq (process input message) (.seq (update Orchestrator.markPrevote) rest)
    else rest

/-- The poll of the orchestrator; then the status is saved. -/
def pollOrchestrator : Program RunningNode :=
  .seq
    (.branch fun node =>
      if node.orchestrator.stageAdvancer.isNone then
        update fun orchestrator => orchestrator.startRound input.time
      else .skip)
    (sendPrevote cfg input
      (.seq (sendPrecommit cfg input) (.seq (advanceRound input) save)))

/-- The poll of an epoch that goes on; the maximum round can not be set below the minimum. -/
def pollRound : Program RunningNode := .branch fun node =>
    if input.roundsView.maxFinalizationRound < node.status.round ∧
        node.status.round < input.roundsView.minFinalizationRound then .skip
    else pollOrchestrator cfg input

/-- `BootstrapperFacade::poll`; the finalizer at its end changes other components only. -/
def poll : Program RunningNode := .branch fun node =>
    match calculateEpochStatus cfg input node.status.round.epoch with
    | .error _ => .skip
    | .ok .wait => .skip
    | .ok .continue => pollRound cfg input
    | .ok (.advance epoch) =>
      match node.orchestrator.setEpoch epoch with
      | .error _ => .skip
      | .ok orchestrator => .seq (update fun _ => orchestrator) (pollRound cfg input)

end RunningNode

inductive Node
  | running (node : RunningNode)
  | stopped (file : StatusFile) (sent : List FinalizationMessage)

inductive NodeEvent
  | poll (input : PollInput)
  /-- A poll that ends in a crash after some of its actions. -/
  | crash (input : PollInput) (count : ℕ)
  | restart

namespace Node

def sent : Node → List FinalizationMessage
  | running node => node.sent
  | stopped _ sent => sent

/-- A restart begins with the saved status; a file that can not be read keeps the node down. -/
def boot (file : StatusFile) (sent : List FinalizationMessage) : Node :=
  match VotingStatus.load file with
  | .error _ => stopped file sent
  | .ok status => running ⟨⟨status, none⟩, file, sent⟩

def step (cfg : FinalizationConfiguration) : Node → NodeEvent → Node
  | running node, .poll input => running ((RunningNode.poll cfg input).final node)
  | running node, .crash input count =>
    let stop := (RunningNode.poll cfg input).interrupted node count
    stopped stop.file stop.sent
  | stopped file sent, .restart => boot file sent
  | node, _ => node

def run (cfg : FinalizationConfiguration) (node : Node) (events : List NodeEvent) : Node :=
  events.foldl (step cfg) node

end Node

open Chain RoundMessageAggregator

private theorem clamp_down {value multiple : ℕ} (fits : value < 2 ^ 64) :
    clamp value multiple 0 = value / multiple * multiple := by
  have below := Nat.div_mul_le_self value multiple
  unfold clamp
  split_ifs with exact
  · rw [Nat.div_mul_cancel (Nat.dvd_of_mod_eq_zero exact)]
  · rw [Nat.add_zero, Nat.mod_eq_of_lt (by omega)]

private theorem clamp_up {multiple : ℕ} (value : ℕ) (pos : 0 < multiple)
    (fits : value + multiple ≤ 2 ^ 64) :
    value ≤ clamp value multiple 1 ∧ clamp value multiple 1 < value + multiple ∧
      multiple ∣ clamp value multiple 1 := by
  have split := Nat.div_add_mod' value multiple
  have rest := Nat.mod_lt value pos
  unfold clamp
  split_ifs with exact
  · exact ⟨le_rfl, by omega, Nat.dvd_of_mod_eq_zero exact⟩
  · rw [Nat.add_mul, Nat.one_mul, Nat.mod_eq_of_lt (by omega)]
    refine ⟨by omega, by omega, ?_⟩
    exact Nat.dvd_add (Nat.dvd_mul_left _ _) (Nat.dvd_refl _)

private theorem sub64_eq {lhs rhs : ℕ} (le : rhs ≤ lhs) (pos : 0 < rhs) (fits : lhs ≤ 2 ^ 64) :
    sub64 lhs rhs = lhs - rhs := by
  unfold sub64
  omega

/-- The last height that a prevote may reach, a multiple or below the finalized height. -/
def clampedChainHeight (cfg : FinalizationConfiguration) (chainHeight last : ℕ) : ℕ :=
  clamp (min (if cfg.prevoteBlocksMultiple ≤ chainHeight then
    chainHeight - cfg.prevoteBlocksMultiple else chainHeight) last)
    cfg.prevoteBlocksMultiple 0

def numHashes (cfg : FinalizationConfiguration) (chainHeight last startHeight : ℕ) : ℕ :=
  let clamped := clampedChainHeight cfg chainHeight last
  let numHashes := if startHeight < clamped then clamped - startHeight + 1 else 1
  if cfg.maxHashesPerPoint < numHashes then
    sub64 numHashes (clamp (numHashes - cfg.maxHashesPerPoint) cfg.prevoteBlocksMultiple 1)
  else numHashes

variable {cfg : FinalizationConfiguration} {chainHeight last startHeight : ℕ}

private theorem clampedChainHeight_spec (cfg : FinalizationConfiguration) (chainHeight : ℕ)
    (fits : last < 2 ^ 64) :
    let clamped := clampedChainHeight cfg chainHeight last
    clamped ≤ last ∧ clamped ≤ chainHeight ∧ cfg.prevoteBlocksMultiple ∣ clamped := by
  intro clamped
  have down : clamped = _ := clamp_down ((min_le_right _ _).trans_lt fits)
  have le := Nat.div_mul_le_self (min (if cfg.prevoteBlocksMultiple ≤ chainHeight then
    chainHeight - cfg.prevoteBlocksMultiple else chainHeight) last)
    cfg.prevoteBlocksMultiple
  rw [← down] at le
  refine ⟨le.trans (min_le_right _ _), (le.trans (min_le_left _ _)).trans ?_, ?_⟩
  · split_ifs <;> omega
  · rw [down]
    exact Nat.dvd_mul_left _ _

private theorem numHashes_spec (multiple : 1 ≤ cfg.prevoteBlocksMultiple)
    (limit : cfg.prevoteBlocksMultiple ≤ cfg.maxHashesPerPoint)
    (upper : startHeight ≤ last) (fits : last < 2 ^ 64) (stored : startHeight ≤ chainHeight) :
    let count := numHashes cfg chainHeight last startHeight
    1 ≤ count ∧ count ≤ cfg.maxHashesPerPoint ∧ startHeight + (count - 1) ≤ last ∧
      startHeight + (count - 1) ≤ chainHeight ∧
      (count = 1 ∨ cfg.prevoteBlocksMultiple ∣ startHeight + (count - 1)) := by
  obtain ⟨clamped_le, clamped_stored, divides⟩ := clampedChainHeight_spec cfg chainHeight fits
  unfold numHashes
  generalize clampedChainHeight cfg chainHeight last = clamped at *
  by_cases later : startHeight < clamped
  · have reach : startHeight + (clamped - startHeight + 1 - 1) = clamped := by omega
    simp only [if_pos later]
    split_ifs with many
    · -- the reduction is a multiple and stays below the count, as a whole multiple fits
      obtain ⟨above, below, whole⟩ :=
        clamp_up (clamped - startHeight + 1 - cfg.maxHashesPerPoint) multiple (by omega)
      generalize clamp (clamped - startHeight + 1 - cfg.maxHashesPerPoint)
        cfg.prevoteBlocksMultiple 1 = reduction at *
      have kept : startHeight + (clamped - startHeight + 1 - reduction - 1) =
          clamped - reduction := by omega
      rw [sub64_eq (by omega) (by omega) (by omega), kept]
      exact ⟨by omega, by omega, by omega, by omega, .inr (Nat.dvd_sub divides whole)⟩
    · simp_all
  · simp only [if_neg later]
    rw [if_neg (by omega)]
    exact ⟨le_rfl, by omega, upper, stored, .inl rfl⟩

variable {chain : LocalChain} {statistics : FinalizationStatistics} {keys : MessageSigner}
  {round : FinalizationRound} {first : ℕ} {msg : FinalizationMessage}
  {ctx : FinalizationContext}

private theorem stage_create_prevote (epoch point : BitVec 32) :
    (StepIdentifier.create epoch point .prevote).stage = .prevote := by
  refine if_pos (BitVec.eq_of_toNat_eq ?_)
  simp [StepIdentifier.create, BitVec.toNat_shiftLeft, Nat.shiftLeft_eq]

private theorem calculateVotingSetEndHeight_lt {epoch : BitVec 32} {grouping height : ℕ}
    (finish : calculateVotingSetEndHeight epoch grouping = .ok height) : height < 2 ^ 64 := by
  unfold calculateVotingSetEndHeight at finish
  split_ifs at finish
  all_goals
    have := Except.ok.inj finish
    omega

private theorem screen_prevote (count : 1 ≤ msg.hashesCount)
    (limit : msg.hashesCount ≤ ctx.config.maxHashesPerPoint) (prevote : msg.isPrevote)
    (start : calculateVotingSetEndHeight (msg.stepIdentifier.epoch - 1)
      ctx.config.votingSetGrouping = .ok first)
    (finish : calculateVotingSetEndHeight msg.stepIdentifier.epoch
      ctx.config.votingSetGrouping = .ok last)
    (height : ctx.height ≤ msg.height.toNat) (lower : first ≤ msg.height.toNat)
    (upper : msg.height.toNat + (msg.hashesCount - 1) ≤ last) :
    screen ctx msg = .ok none := by
  have fits := calculateVotingSetEndHeight_lt finish
  have reach : lastHashHeight msg =
      msg.height.toNat + (msg.hashesCount - 1) := Nat.mod_eq_of_lt (by omega)
  rw [screen, reach, if_neg (by omega), if_neg (by omega), if_pos prevote]
  dsimp only
  rw [start, finish]
  exact if_neg (by omega)

def prevoteHashes (cfg : FinalizationConfiguration) (chain : LocalChain)
    (statistics : FinalizationStatistics) (last : ℕ) : List Hash256 :=
  let startHeight := statistics.height.toNat
  let hashRange :=
    chain.loadHashesFrom startHeight (numHashes cfg chain.chainHeight last startHeight)
  if hashRange.isEmpty then [statistics.hash] else hashRange

private theorem prevoteHashes_of_zero (unfinalized : statistics.height.toNat = 0) :
    prevoteHashes cfg chain statistics last = [statistics.hash] := by
  simp [prevoteHashes, unfinalized, LocalChain.loadHashesFrom]

private theorem prevoteHashes_of_pos (finalized : 0 < statistics.height.toNat)
    (multiple : 1 ≤ cfg.prevoteBlocksMultiple)
    (limit : cfg.prevoteBlocksMultiple ≤ cfg.maxHashesPerPoint)
    (upper : statistics.height.toNat ≤ last) (fits : last < 2 ^ 64)
    (stored : statistics.height.toNat ≤ chain.chainHeight) :
    let count := numHashes cfg chain.chainHeight last statistics.height.toNat
    prevoteHashes cfg chain statistics last =
        (chain.hashes.drop (statistics.height.toNat - 1)).take count ∧
      (prevoteHashes cfg chain statistics last).length = count := by
  intro count
  obtain ⟨pos, -, -, reach, -⟩ := numHashes_spec multiple limit upper fits stored
  have loaded : chain.loadHashesFrom statistics.height.toNat count =
      (chain.hashes.drop (statistics.height.toNat - 1)).take count := by
    rw [LocalChain.loadHashesFrom, if_neg (by omega), Nat.min_eq_left (by omega)]
  have length : ((chain.hashes.drop (statistics.height.toNat - 1)).take count).length = count := by
    rw [List.length_take, List.length_drop, ← LocalChain.chainHeight]
    omega
  have same : prevoteHashes cfg chain statistics last =
      (chain.hashes.drop (statistics.height.toNat - 1)).take count := by
    rw [← loaded]
    refine if_neg fun empty => ?_
    rw [loaded, List.isEmpty_iff_length_eq_zero, length] at empty
    omega
  exact ⟨same, same ▸ length⟩

private theorem createPrevote_eq
    (finish : calculateVotingSetEndHeight round.epoch cfg.votingSetGrouping = .ok last) :
    createPrevote cfg statistics ⟨chain.chainHeight, chain.loadHashesFrom⟩ keys round =
      .ok (prepareMessage keys (StepIdentifier.create round.epoch round.point .prevote)
        statistics.height (prevoteHashes cfg chain statistics last)) := by
  rw [createPrevote, loadPrevoteHashChain, finish]
  rfl

private theorem prevoteHashes_spec (multiple : 1 ≤ cfg.prevoteBlocksMultiple)
    (limit : cfg.prevoteBlocksMultiple ≤ cfg.maxHashesPerPoint)
    (upper : statistics.height.toNat ≤ last) (fits : last < 2 ^ 64)
    (stored : statistics.height.toNat ≤ chain.chainHeight) :
    let count := (prevoteHashes cfg chain statistics last).length
    1 ≤ count ∧ count ≤ cfg.maxHashesPerPoint ∧ statistics.height.toNat + (count - 1) ≤ last ∧
      (count = 1 ∨ cfg.prevoteBlocksMultiple ∣ statistics.height.toNat + (count - 1)) := by
  rcases Nat.eq_zero_or_pos statistics.height.toNat with unfinalized | finalized
  · rw [prevoteHashes_of_zero unfinalized]
    exact ⟨le_rfl, multiple.trans limit, upper, .inl rfl⟩
  · obtain ⟨pos, few, below, -, last⟩ := numHashes_spec multiple limit upper fits stored
    rw [(prevoteHashes_of_pos finalized multiple limit upper fits stored).2]
    exact ⟨pos, few, below, last⟩

/-- The prevote that a node makes in an epoch has between one and the maximum number of hashes from
the finalized height on, ends there or at a multiple, and passes the checks of the round; it is made
when the node has a key for the epoch and the message fits into its size field. -/
theorem createPrevote_admissible (multiple : 1 ≤ cfg.prevoteBlocksMultiple)
    (limit : cfg.prevoteBlocksMultiple ≤ cfg.maxHashesPerPoint)
    (start : calculateVotingSetEndHeight (round.epoch - 1) cfg.votingSetGrouping = .ok first)
    (finish : calculateVotingSetEndHeight round.epoch cfg.votingSetGrouping = .ok last)
    (lower : first ≤ statistics.height.toNat) (upper : statistics.height.toNat ≤ last)
    (stored : statistics.height.toNat ≤ chain.chainHeight)
    (configured : ctx.config = cfg) (contextHeight : ctx.height = first) :
    let prevote := createPrevote cfg statistics ⟨chain.chainHeight, chain.loadHashesFrom⟩ keys
      round
    (∀ msg, prevote = .ok (some msg) → msg.height = statistics.height ∧ 1 ≤ msg.hashesCount ∧
        msg.hashesCount ≤ cfg.maxHashesPerPoint ∧
        (∀ offset < msg.hashesCount, 1 ≤ statistics.height.toNat →
          msg.hashes[offset]? = chain.hashes[statistics.height.toNat + offset - 1]?) ∧
        (msg.hashesCount = 1 ∨ cfg.prevoteBlocksMultiple ∣
          statistics.height.toNat + (msg.hashesCount - 1)) ∧
        screen ctx msg = .ok none) ∧
      (keys.canSign round.epoch → 224 + 32 * cfg.maxHashesPerPoint < 2 ^ 32 →
        ∃ msg, prevote = .ok (some msg)) := by
  intro prevote
  have fits := calculateVotingSetEndHeight_lt finish
  have built : prevote = _ := createPrevote_eq finish
  obtain ⟨pos, few, below, rounded⟩ := prevoteHashes_spec multiple limit upper fits stored
  rw [built]
  constructor
  · intro msg made
    obtain ⟨step, height, hashes⟩ := prepareMessage_spec (Except.ok.inj made)
    rw [← hashes] at pos few below rounded
    refine ⟨height, pos, few, fun offset inside finalized => ?_, rounded, ?_⟩
    · rw [FinalizationMessage.hashesCount, hashes] at inside
      obtain ⟨range, length⟩ := prevoteHashes_of_pos finalized multiple limit upper fits stored
      rw [hashes, range, List.getElem?_take_of_lt (length ▸ inside), List.getElem?_drop]
      congr 1
      omega
    · refine screen_prevote pos (configured ▸ few) ?_ (configured ▸ step ▸ start)
        (configured ▸ step ▸ finish) ?_ (height ▸ lower) (height ▸ below)
      · rw [FinalizationMessage.isPrevote, step, stage_create_prevote]
        rfl
      · rw [contextHeight, height]
        exact lower
  · intro signs size
    have short : 224 + 32 * (prevoteHashes cfg chain statistics last).length < 2 ^ 32 := by
      omega
    exact ⟨_, congrArg Except.ok ((if_pos signs).trans (dif_pos short))⟩

theorem createPrevote_admissible_two :
    let cfg : FinalizationConfiguration := ⟨3, 2, 1, 3, 2, 4, 1, 0, []⟩
    let chain : LocalChain := ⟨[1, 2, 3, 4, 5, 6], 0⟩
    let ctx : FinalizationContext := FinalizationContext.create 2 1 cfg [] (by decide)
      (by decide)
    let keys : MessageSigner := ⟨fun _ => true, fun _ _ => ⟨⟨0, 0⟩, ⟨0, 0⟩⟩⟩
    ∃ msg, createPrevote cfg ⟨⟨2, 1⟩, 1, 1⟩ ⟨chain.chainHeight, chain.loadHashesFrom⟩ keys
        ⟨2, 1⟩ = .ok (some msg) ∧
      msg.hashes = [1, 2] ∧ screen ctx msg = .ok none := by
  intro cfg chain ctx keys
  obtain ⟨admissible, makes⟩ := @createPrevote_admissible cfg 4 chain ⟨⟨2, 1⟩, 1, 1⟩ keys
    ⟨2, 1⟩ 1 ctx (by decide) (by decide) rfl rfl (by decide) (by decide) (by decide) rfl rfl
  obtain ⟨msg, made⟩ := makes rfl (by decide)
  obtain ⟨-, -, -, -, -, passes⟩ := admissible msg made
  rw [createPrevote_eq (by rfl : _ = Except.ok 4)] at made
  have hashes := (prepareMessage_spec (Except.ok.inj made)).2.2
  exact ⟨msg, made, hashes.trans (by decide), passes⟩

end BitxorCore.Finalization
