/- GID: Consumers/SyncFinality
   anchors: [src/bitxorcore/consumers, extensions/finalization]
   digest: A peer chain is committed only if it has a better score and leaves finalized blocks alone,
     or brings the block that the network has finalized. -/

import BitxorCore.Consumers.SyncAcceptance

set_option autoImplicit false
set_option relaxedAutoImplicit false

namespace BitxorCore.Consumers
open Model
open List

variable {T C : Type} {chain : Chain T} {elements : List (BlockElement T)}

def OnChain (chain : Chain T) (pair : HeightHashPair) : Prop :=
  loadHash chain pair.height = some pair.hash

def AmongPeerBlocks (elements : List (BlockElement T)) (pair : HeightHashPair) : Prop :=
  ∃ elem ∈ elements, elem.block.height = pair.height ∧ elem.entityHash = pair.hash

def chainScore (chain : Chain T) : ℕ := scoreAboveFirst chain

variable {pair : HeightHashPair}

private theorem length_of_onChain (on : OnChain chain pair) : pair.height ≤ chain.length := by
  obtain ⟨elem, found, _⟩ := Option.map_eq_some_iff.mp on
  exact (length_of_loadBlockElement found).2

private theorem containsLocal_eq_some_iff {isLocal : Bool}
    (contains : containsLocal chain pair = some isLocal) : isLocal = true ↔ OnChain chain pair := by
  rw [containsLocal] at contains
  split at contains
  · next shorter =>
    obtain rfl := Option.some_inj.mp contains
    refine iff_of_false Bool.false_ne_true fun on => ?_
    exact absurd (length_of_onChain on) (Nat.not_le.mpr shorter)
  · obtain ⟨hash, found, rfl⟩ := Option.map_eq_some_iff.mp contains
    rw [OnChain, found, beq_iff_eq, Option.some_inj, eq_comm]

private theorem localFinalized_of_onChain {proofStorage : ProofStorage}
    {localFinalized : HeightHashPair} (on : OnChain chain proofStorage.statistics)
    (found : localFinalizedHeightHashPair proofStorage chain = some localFinalized) :
    localFinalized = proofStorage.statistics := by
  have loaded : loadHashAtHeight chain proofStorage.statistics.height =
      some proofStorage.statistics.hash := by
    rw [loadHashAtHeight, if_neg (Nat.not_lt.mpr (length_of_onChain on))]
    exact on
  rw [localFinalizedHeightHashPair, loaded, Option.bind_eq_bind, Option.bind_some, if_pos rfl]
    at found
  exact (Option.some_inj.mp found).symm

private theorem height_of_consecutive {height index : ℕ} {elem : BlockElement T}
    (consecutive : Consecutive height elements) (found : elements[index]? = some elem) :
    elem.block.height = height + index := by
  induction elements generalizing height index with
  | nil => cases found
  | cons first rest ih =>
    cases index with
    | zero =>
      obtain rfl := Option.some_inj.mp found
      exact consecutive.1
    | succ index =>
      rw [ih consecutive.2 found]
      omega

private theorem amongPeerBlocks_of_containsRemote {height : ℕ}
    (consecutive : Consecutive height elements) (contains : containsRemote elements height pair) :
    AmongPeerBlocks elements pair := by
  rw [containsRemote, Bool.and_eq_true, decide_eq_true_eq] at contains
  obtain ⟨above, contains⟩ := contains
  cases found : elements[pair.height - height]? with
  | none =>
    rw [found] at contains
    cases contains
  | some elem =>
    rw [found] at contains
    refine ⟨elem, mem_of_getElem? found, ?_, (beq_iff_eq.mp contains).symm⟩
    rw [height_of_consecutive consecutive found, Nat.add_sub_cancel' above]

private theorem calculatePartialChainScore_append (parent : Block) (blocks : List Block)
    (block : Block) (more : List Block) :
    calculatePartialChainScore parent (blocks ++ block :: more) =
      calculatePartialChainScore parent (blocks ++ [block]) +
        calculatePartialChainScore block more := by
  induction blocks generalizing parent with
  | nil => rfl
  | cons first rest ih =>
    rw [cons_append, cons_append, calculatePartialChainScore, ih, ← Nat.add_assoc]
    rfl

private theorem chainScore_append (kept : Chain T) (common : BlockElement T) (above : Chain T) :
    chainScore (kept ++ common :: above) =
      chainScore (kept ++ [common]) + scoreAboveFirst (common :: above) := by
  cases kept with
  | nil => exact (Nat.zero_add _).symm
  | cons first rest =>
    change calculatePartialChainScore _ ((rest ++ common :: above).map _) =
      calculatePartialChainScore _ ((rest ++ [common]).map _) + _
    rw [map_append, map_append]
    exact calculatePartialChainScore_append _ _ _ _

private theorem take_eq_append_of_loadBlockElement {height : ℕ} {common : BlockElement T}
    (found : loadBlockElement chain height = some common) :
    chain.take height = chain.take (height - 1) ++ [common] := by
  cases height with
  | zero => cases found
  | succ below =>
    obtain ⟨inside, rfl⟩ := List.getElem?_eq_some_iff.mp found
    exact List.take_succ_eq_append_getElem inside

section Commits
variable {importanceGrouping : ℕ} {handlers : BlockchainSyncHandlers C T}
  {proofStorage : ProofStorage} {source : InputSource} {before after : SyncMemory C T}
  {committed : Committed T}

namespace Acceptance

variable (acceptance : Acceptance importanceGrouping handlers proofStorage elements source before
  after committed)

private theorem not_update (noUpdate : ¬(¬OnChain before.storage proofStorage.statistics ∧
      AmongPeerBlocks elements proofStorage.statistics)) :
    ¬(acceptance.isFinalizedBlockLocal = false ∧
      containsRemote elements acceptance.first.block.height proofStorage.statistics) := by
  rintro ⟨isNotLocal, contains⟩
  refine noUpdate ⟨fun on => ?_, amongPeerBlocks_of_containsRemote acceptance.storage_eq.2 contains⟩
  have isLocal := (containsLocal_eq_some_iff acceptance.isFinalizedBlockLocal_eq).mpr on
  exact absurd (isLocal.symm.trans isNotLocal) (by decide)

private theorem take_of_lt {height : ℕ} (below : height < acceptance.first.block.height) :
    after.storage.take height = before.storage.take height := by
  obtain ⟨positive, within, _⟩ := acceptance.bounds
  have length : (before.storage.take (acceptance.first.block.height - 1)).length =
      acceptance.first.block.height - 1 := length_take_of_le (by omega)
  rw [acceptance.storage_eq.1, take_append_of_le_length (by omega), take_take,
    Nat.min_eq_left (by omega)]

private theorem chainScore_lt (better : acceptance.unwound.score <
      calculatePartialChainScore acceptance.common.block (elements.map (·.block))) :
    chainScore before.storage < chainScore after.storage := by
  have shared := take_eq_append_of_loadBlockElement acceptance.common_eq
  have old : before.storage = before.storage.take (acceptance.first.block.height - 1 - 1) ++
      acceptance.common :: before.storage.drop (acceptance.first.block.height - 1) := by
    have whole := (take_append_drop (acceptance.first.block.height - 1) before.storage).symm
    rw [shared, append_assoc] at whole
    exact whole
  rw [acceptance.unwound_spec.1] at better
  rw [acceptance.storage_eq.1, shared, append_assoc, singleton_append, chainScore_append]
  nth_rewrite 1 [old]
  rw [chainScore_append]
  exact Nat.add_lt_add_left better _

end Acceptance

/-- A commit that does not bring the block finalized by the network leaves all blocks up to the
local finalized height as they are and has a higher score. A finalized block stays on the chain, and
only pulled chains replace more than the last block. A consumer that aborts or throws has changed
neither storage nor cache. -/
theorem sync_respects_finality (importanceGrouping : ℕ) (handlers : BlockchainSyncHandlers C T)
    (proofStorage : ProofStorage) (elements : List (BlockElement T)) (source : InputSource)
    (before after : SyncMemory C T) :
    (∀ committed, blockchainSyncConsumer importanceGrouping handlers proofStorage elements source
        before = (.ok committed, after) →
      (¬(¬OnChain before.storage proofStorage.statistics ∧
          AmongPeerBlocks elements proofStorage.statistics) →
        (∃ localFinalized,
          localFinalizedHeightHashPair proofStorage before.storage = some localFinalized ∧
          after.storage.take localFinalized.height =
            before.storage.take localFinalized.height) ∧
        chainScore before.storage < chainScore after.storage) ∧
      (OnChain before.storage proofStorage.statistics →
        OnChain after.storage proofStorage.statistics) ∧
      (source ≠ .remotePull → after.storage.take (before.storage.length - 1) =
        before.storage.take (before.storage.length - 1))) ∧
    ∀ stop, blockchainSyncConsumer importanceGrouping handlers proofStorage elements source
        before = (.error stop, after) →
      after.storage = before.storage ∧ after.cache = before.cache := by
  refine ⟨fun committed done => ?_, fun stop stopped => Prod.mk.inj
    (keepsIfStopped_blockchainSyncConsumer _ _ _ _ _ before stop after stopped)⟩
  obtain ⟨acceptance⟩ := acceptance_of_committed done
  have above : ¬(¬OnChain before.storage proofStorage.statistics ∧
      AmongPeerBlocks elements proofStorage.statistics) →
      acceptance.localFinalized.height < acceptance.first.block.height := fun noUpdate =>
    Nat.lt_of_not_le fun behind => acceptance.not_update noUpdate (acceptance.notBehind behind)
  refine ⟨fun noUpdate => ⟨⟨_, acceptance.localFinalized_eq,
    acceptance.take_of_lt (above noUpdate)⟩, ?_⟩, fun on => ?_, fun pushed => ?_⟩
  · exact acceptance.chainScore_lt (Nat.lt_of_not_le fun worse =>
      acceptance.not_update noUpdate (acceptance.better worse))
  · have same := localFinalized_of_onChain on acceptance.localFinalized_eq
    have below := above fun update => update.1 on
    rw [same] at below
    rw [OnChain, ← loadHash_take le_rfl, acceptance.take_of_lt below, loadHash_take le_rfl]
    exact on
  · obtain ⟨positive, _, shallow⟩ := acceptance.bounds
    have deep := shallow.resolve_left pushed
    exact acceptance.take_of_lt (by omega)

end Commits

/-- Counts the blocks that are undone and processed, and finds them all invalid. -/
def refusingHandlers : BlockchainSyncHandlers ℕ Unit where
  difficultyChecker _ _ := true
  undoBlock _ _ cache := cache + 1
  processor _ elements cache := (cache + elements.length, false)
  prune _ _ cache := cache

def countedBlocks : SyncMemory ℕ Unit := ⟨twoBlocks.storage, [], 0, 0⟩

theorem sync_respects_finality_one :
    (∃ committed after, blockchainSyncConsumer 10 permissiveHandlers firstFinalized
        [blockWith 2 60 3 [12, 13]] .remotePush twoBlocks = (.ok committed, after) ∧
      OnChain after.storage firstFinalized.statistics ∧
      chainScore twoBlocks.storage < chainScore after.storage) ∧
    ∃ after, blockchainSyncConsumer 10 refusingHandlers firstFinalized
        [blockWith 2 60 3 [12, 13]] .remotePush countedBlocks =
          (.error (.abort .processing), after) ∧
      after.cacheDelta = 3 ∧ after.storage = countedBlocks.storage ∧ after.cache = 0 := by
  have on : OnChain twoBlocks.storage firstFinalized.statistics := rfl
  obtain ⟨better, stays, _⟩ := (sync_respects_finality 10 permissiveHandlers firstFinalized
    [blockWith 2 60 3 [12, 13]] .remotePush twoBlocks _).1 _ rfl
  exact ⟨⟨_, _, rfl, stays on, (better fun update => update.1 on).2⟩, _, rfl, rfl,
    (sync_respects_finality 10 refusingHandlers firstFinalized [blockWith 2 60 3 [12, 13]]
      .remotePush countedBlocks _).2 _ rfl⟩

structure NodeState (C T : Type) extends SyncMemory C T where
  proofStorage : ProofStorage

section Runs
variable (importanceGrouping : ℕ) (handlers : BlockchainSyncHandlers C T)

def NodeState.receive (node : NodeState C T) (elements : List (BlockElement T))
    (source : InputSource) : NodeState C T where
  toSyncMemory := (blockchainSyncConsumer importanceGrouping handlers node.proofStorage elements
    source node.toSyncMemory).2
  proofStorage := node.proofStorage

/-- A node receives a range of blocks, or stores a proof for a block of its chain that is not below
the last one. -/
inductive NodeStep (node : NodeState C T) : NodeState C T → Prop
  | receive (elements : List (BlockElement T)) (source : InputSource) :
      NodeStep node (node.receive importanceGrouping handlers elements source)
  | proof (proofStorage : ProofStorage) (on : OnChain node.storage proofStorage.statistics)
      (later : node.proofStorage.statistics.height ≤ proofStorage.statistics.height) :
      NodeStep node { node with proofStorage }

/-- The last finalized block is on the chain, as are all blocks up to the one finalized before. -/
structure Extends (before after : NodeState C T) : Prop where
  on : OnChain after.storage after.proofStorage.statistics
  height : before.proofStorage.statistics.height ≤ after.proofStorage.statistics.height
  kept : after.storage.take before.proofStorage.statistics.height =
    before.storage.take before.proofStorage.statistics.height
  score : chainScore before.storage ≤ chainScore after.storage

variable {importanceGrouping handlers} {before after : NodeState C T}

private theorem extends_of_step (on : OnChain before.storage before.proofStorage.statistics)
    (step : NodeStep importanceGrouping handlers before after) : Extends before after := by
  cases step with
  | proof proofStorage on later => exact ⟨on, later, rfl, le_rfl⟩
  | receive elements source =>
    rcases done : blockchainSyncConsumer importanceGrouping handlers before.proofStorage elements
      source before.toSyncMemory with ⟨_ | committed, memory⟩ <;> rw [NodeState.receive, done]
    · have same : memory.storage = before.storage := congrArg Prod.fst
        (keepsIfStopped_blockchainSyncConsumer _ _ _ _ _ _ _ _ done)
      exact ⟨same.symm ▸ on, le_rfl, congrArg _ same, (congrArg chainScore same).ge⟩
    · obtain ⟨acceptance⟩ := acceptance_of_committed done
      have noUpdate := acceptance.not_update fun update => update.1 on
      have above : acceptance.localFinalized.height < acceptance.first.block.height :=
        Nat.lt_of_not_le fun behind => noUpdate (acceptance.notBehind behind)
      rw [localFinalized_of_onChain on acceptance.localFinalized_eq] at above
      have kept := acceptance.take_of_lt above
      refine ⟨?_, le_rfl, kept, (acceptance.chainScore_lt (Nat.lt_of_not_le fun worse =>
        noUpdate (acceptance.better worse))).le⟩
      change OnChain memory.storage _
      rw [OnChain, ← loadHash_take le_rfl, kept, loadHash_take le_rfl]
      exact on

/-- Over every run of a node whose proofs are for blocks of its chain, finalized blocks are never
replaced and the score never falls. -/
theorem finalizedBlocks_permanent (on : OnChain before.storage before.proofStorage.statistics)
    (run : Relation.ReflTransGen (NodeStep importanceGrouping handlers) before after) :
    Extends before after := by
  induction run with
  | refl => exact ⟨on, le_rfl, rfl, le_rfl⟩
  | tail _ step ih =>
    have last := extends_of_step ih.on step
    refine ⟨last.on, ih.height.trans last.height, ?_, ih.score.trans last.score⟩
    rw [← ih.kept, ← Nat.min_eq_left ih.height, ← take_take, last.kept, take_take]

theorem finalizedBlocks_permanent_push :
    let node : NodeState Unit Unit := ⟨twoBlocks, firstFinalized⟩
    let after := node.receive 10 permissiveHandlers [blockWith 2 60 3 [12]] .remotePush
    after.storage = [blockWith 1 50 1 [], blockWith 2 60 3 [12]] ∧ Extends node after :=
  ⟨rfl, finalizedBlocks_permanent rfl (.single (.receive _ _))⟩

end Runs

end BitxorCore.Consumers
