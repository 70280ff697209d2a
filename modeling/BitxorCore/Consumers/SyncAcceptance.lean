/- GID: Consumers/SyncAcceptance
   anchors: [src/bitxorcore/consumers, src/bitxorcore/model, src/bitxorcore/chain,
     extensions/finalization]
   digest: What holds of a peer chain that has replaced local blocks, and which transactions are
     reverted by it. -/

import BitxorCore.Library.Fallible
import BitxorCore.Types

set_option autoImplicit false
set_option relaxedAutoImplicit false

namespace BitxorCore.Consumers
open Library Library.Fallible Model

inductive BlockType where
  | genesis
  | importance
  | normal
  deriving DecidableEq

def isImportanceBlock : BlockType → Bool
  | .genesis | .importance => true
  | .normal => false

/-- A block header. Its last field is there in importance blocks only, and only read of them. -/
structure Block where
  height : ℕ
  timestamp : BitVec 64
  difficulty : BitVec 64
  previousBlockHash : Hash256
  type : BlockType
  previousImportanceBlockHash : Hash256
  deriving DecidableEq

structure TransactionElement (T : Type) where
  transaction : T
  entityHash : Hash256
  merkleComponentHash : Hash256
  deriving DecidableEq

structure BlockElement (T : Type) where
  block : Block
  entityHash : Hash256
  transactions : List (TransactionElement T)
  deriving DecidableEq

structure TransactionInfo (T : Type) where
  transaction : T
  entityHash : Hash256
  merkleComponentHash : Hash256
  deriving DecidableEq

variable {T C : Type}

def makeTransactionInfo (elem : TransactionElement T) : TransactionInfo T :=
  ⟨elem.transaction, elem.entityHash, elem.merkleComponentHash⟩

def extractTransactionInfos (elem : BlockElement T) : List (TransactionInfo T) :=
  elem.transactions.map makeTransactionInfo

def extractTransactionHashes (elements : List (BlockElement T)) : Finset Hash256 :=
  (elements.flatMap fun elem => elem.transactions.map (·.entityHash)).toFinset

def collectRevertedTransactionInfos (addedTransactionHashes : Finset Hash256)
    (removedTransactionInfos : List (TransactionInfo T)) : List (TransactionInfo T) :=
  removedTransactionInfos.filter fun info => decide (info.entityHash ∉ addedTransactionHashes)

def isChainLink (parent : Block) (parentHash : Hash256) (child : Block) : Bool :=
  if parent.height + 1 ≠ child.height ∨ parentHash ≠ child.previousBlockHash then false
  else parent.timestamp < child.timestamp

inductive CheckResult where
  | continue
  | emptyInput
  | remoteChainTooFarInFuture
  | remoteChainImproperLink
  | remoteChainImproperImportanceLink
  | remoteChainDuplicateTransactions
  deriving DecidableEq

def insertHashes : Finset Hash256 → List Hash256 → Option (Finset Hash256)
  | hashes, [] => some hashes
  | hashes, hash :: rest => if hash ∈ hashes then none else insertHashes (insert hash hashes) rest

/-- The loop over the elements, with the hashes of transactions seen, the previous element and the
hash of the previous importance block. -/
def checkElements : Finset Hash256 → Option (BlockElement T) → Option Hash256 →
    List (BlockElement T) → CheckResult
  | _, _, _, [] => .continue
  | hashes, previousElement, previousImportanceBlockHash, elem :: rest =>
    if previousElement.any fun prev =>
        !isChainLink prev.block prev.entityHash elem.block then
      .remoteChainImproperLink
    else if isImportanceBlock elem.block.type && previousImportanceBlockHash.any fun hash =>
        hash != elem.block.previousImportanceBlockHash then
      .remoteChainImproperImportanceLink
    else
      match insertHashes hashes (elem.transactions.map (·.entityHash)) with
      | none => .remoteChainDuplicateTransactions
      | some hashes =>
        checkElements hashes (some elem)
          (if isImportanceBlock elem.block.type then some elem.entityHash
            else previousImportanceBlockHash) rest

/-- `maxTimestamp` is the time now and the time that blocks may lie in the future. -/
def blockchainCheckConsumer (maxTimestamp : BitVec 64) (elements : List (BlockElement T)) :
    CheckResult :=
  match elements.getLast? with
  | none => .emptyInput
  | some last =>
    if last.block.timestamp ≤ maxTimestamp then checkElements ∅ none none elements
    else .remoteChainTooFarInFuture

abbrev Chain (T : Type) := List (BlockElement T)

variable (chain : Chain T)

def loadBlockElement : ℕ → Option (BlockElement T)
  | 0 => none
  | height + 1 => chain[height]?

variable (height : ℕ)

def loadHash : Option Hash256 :=
  (loadBlockElement chain height).map (·.entityHash)

def dropBlocksAfter : Chain T := chain.take height

/-- Throws unless the block is the next one. -/
def saveBlock (elem : BlockElement T) : Option (Chain T) :=
  if elem.block.height = chain.length + 1 then some (chain ++ [elem]) else none

def saveBlocks (elements : List (BlockElement T)) : Option (Chain T) :=
  elements.foldlM saveBlock chain

/-- The score of a block over its parent, as a 64-bit difference. -/
def calculateScore (parentBlock currentBlock : Block) : BitVec 64 :=
  if currentBlock.timestamp ≤ parentBlock.timestamp then 0
  else currentBlock.difficulty -
    (currentBlock.timestamp - parentBlock.timestamp) / BitVec.ofNat 64 1000

/-- Scores are added up in 128 bits, which are enough for any number of blocks. -/
def calculatePartialChainScore : Block → List Block → ℕ
  | _, [] => 0
  | parent, block :: rest =>
    (calculateScore parent block).toNat + calculatePartialChainScore block rest

/-- Throws if scores are too far apart. -/
def scoreDifference (score other : ℕ) : Option ℤ :=
  let difference : ℤ := score - other
  if difference.natAbs < 2 ^ 63 then some difference else none

/-- The last finalized block with its epoch, and the last finalized blocks of all epochs. -/
structure ProofStorage where
  statistics : HeightHashPair
  epoch : ℕ
  loadProof : ℕ → Option HeightHashPair

def loadHashAtHeight : Option Hash256 :=
  if chain.length < height then some 0 else loadHash chain height

def searchProofs (loadProof : ℕ → Option HeightHashPair) (chain : Chain T) :
    ℕ → Option HeightHashPair
  | 0 => none
  | epoch + 1 => do
    let proof ← loadProof epoch
    let hash ← loadHashAtHeight chain proof.height
    if proof.hash = hash then some proof else searchProofs loadProof chain epoch

variable (proofStorage : ProofStorage)

def localFinalizedHeightHashPair (chain : Chain T) :
    Option HeightHashPair := do
  let hash ← loadHashAtHeight chain proofStorage.statistics.height
  if proofStorage.statistics.hash = hash then some proofStorage.statistics
  else searchProofs proofStorage.loadProof chain proofStorage.epoch

def networkFinalizedHeightHashPair : HeightHashPair :=
  proofStorage.statistics

inductive InputSource where
  | unknown
  | local
  | remotePull
  | remotePush
  deriving DecidableEq

inductive UndoBlockType where
  | rollback
  | common
  deriving DecidableEq

inductive SyncFailure where
  | emptyInput
  | remoteChainUnlinked
  | remoteChainTooFarBehind
  | remoteChainDifficultiesMismatch
  | remoteChainScoreNotBetter
  | processing
  | remoteChainImproperImportanceLink
  deriving DecidableEq

inductive SyncStop where
  | abort (failure : SyncFailure)
  | exception

/-- What the consumer is configured with, for a cache in states `C`. Processing tells whether the
blocks are valid. -/
structure BlockchainSyncHandlers (C T : Type) where
  difficultyChecker : List Block → C → Bool
  undoBlock : BlockElement T → UndoBlockType → C → C
  processor : BlockElement T → List (BlockElement T) → C → C × Bool
  prune : ℕ → BitVec 64 → C → C

/-- The storage and the cache, and what is written to them at the end only: the blocks of the storage
modifier and the cache delta. -/
structure SyncMemory (C T : Type) where
  storage : Chain T
  modifier : Chain T
  cache : C
  cacheDelta : C

abbrev Sync (C T A : Type) := Fallible SyncStop (SyncMemory C T) A

abbrev abortIf (condition : Bool) (failure : SyncFailure) : Sync C T Unit :=
  throwIf condition (.abort failure)

def createDelta : Sync C T Unit := modify fun memory => { memory with cacheDelta := memory.cache }

def changeDelta (change : C → C) : Sync C T Unit :=
  modify fun memory => { memory with cacheDelta := change memory.cacheDelta }

/-- Whether storage has the block; throws for a block before the first. -/
def containsLocal (pair : HeightHashPair) : Option Bool :=
  if chain.length < pair.height then some false
  else (loadHash chain pair.height).map fun hash => pair.hash == hash

def containsRemote (elements : List (BlockElement T)) (peerStartHeight : ℕ)
    (pair : HeightHashPair) : Bool :=
  decide (peerStartHeight ≤ pair.height) &&
    (elements[pair.height - peerStartHeight]?).any fun elem => pair.hash == elem.entityHash

def isLinked (peerStartHeight localChainHeight : ℕ) (source : InputSource) : Bool :=
  decide (2 ≤ peerStartHeight) && decide (peerStartHeight ≤ localChainHeight + 1) &&
    (source == .remotePull || decide (localChainHeight ≤ peerStartHeight))

structure UnwindResult (T : Type) where
  score : ℕ
  transactionInfos : List (TransactionInfo T)

def UnwindResult.addBlockTransactionInfos (result : UnwindResult T) (elem : BlockElement T) :
    UnwindResult T :=
  { result with transactionInfos := extractTransactionInfos elem ++ result.transactionInfos }

/-- A block and the score over its parent are added once the parent is loaded. -/
def UnwindResult.addChild (result : UnwindResult T) (parent : BlockElement T) :
    Option (BlockElement T) → UnwindResult T
  | none => result
  | some child =>
    { result with
      score := result.score + (calculateScore parent.block child.block).toNat }.addBlockTransactionInfos
        child

/-- Unwinds the blocks above the common block, `count` of which are left. -/
def unwindLoop (undoBlock : BlockElement T → UndoBlockType → C → C) (chain : Chain T)
    (commonBlockHeight : ℕ) :
    ℕ → Option (BlockElement T) → UnwindResult T → Sync C T (UnwindResult T)
  | 0, child, result => do
    let parent ← orThrow .exception (loadBlockElement chain commonBlockHeight)
    changeDelta (undoBlock parent .common)
    return result.addChild parent child
  | count + 1, child, result => do
    let parent ← orThrow .exception (loadBlockElement chain (commonBlockHeight + count + 1))
    changeDelta (undoBlock parent .rollback)
    unwindLoop undoBlock chain commonBlockHeight count (some parent) (result.addChild parent child)

def unwindLocalChain (undoBlock : BlockElement T → UndoBlockType → C → C) (chain : Chain T)
    (commonBlockHeight : ℕ) : Sync C T (UnwindResult T) :=
  if chain.length = commonBlockHeight then pure ⟨0, []⟩
  else unwindLoop undoBlock chain commonBlockHeight (chain.length - commonBlockHeight) none ⟨0, []⟩

structure SyncState (T : Type) where
  localFinalizedHeight : ℕ
  localFinalizedTime : BitVec 64
  commonBlockElement : BlockElement T
  commonBlockHeight : ℕ
  scoreDelta : ℤ
  removedTransactionInfos : List (TransactionInfo T)

section Consumer
variable (importanceGrouping : ℕ) (handlers : BlockchainSyncHandlers C T)
  (proofStorage : ProofStorage) (elements : List (BlockElement T))

/-- Compares the peer chain with the local chain, which is unwound to the common block. -/
def preprocess (source : InputSource) : Sync C T (SyncState T) := do
  let memory ← get
  let chain := memory.storage
  let localFinalized ← orThrow .exception (localFinalizedHeightHashPair proofStorage chain)
  let networkFinalized := networkFinalizedHeightHashPair proofStorage
  let first ← orThrow .exception elements.head?
  let peerStartHeight := first.block.height
  abortIf (!isLinked peerStartHeight chain.length source) .remoteChainUnlinked
  let isFinalizedBlockLocal ← orThrow .exception (containsLocal chain networkFinalized)
  let isFinalizedBlockRemote := containsRemote elements peerStartHeight networkFinalized
  let isFinalizedBlockUpdate := !isFinalizedBlockLocal && isFinalizedBlockRemote
  abortIf (peerStartHeight ≤ localFinalized.height && !isFinalizedBlockUpdate)
    .remoteChainTooFarBehind
  let blocks := elements.map (·.block)
  abortIf (!handlers.difficultyChecker blocks memory.cache) .remoteChainDifficultiesMismatch
  let finalizedElement ← orThrow .exception (loadBlockElement chain localFinalized.height)
  createDelta
  let commonBlockHeight := peerStartHeight - 1
  let unwound ← unwindLocalChain handlers.undoBlock chain commonBlockHeight
  let commonBlockElement ← orThrow .exception (loadBlockElement chain commonBlockHeight)
  let peerScore := calculatePartialChainScore commonBlockElement.block blocks
  abortIf (peerScore ≤ unwound.score && !isFinalizedBlockUpdate) .remoteChainScoreNotBetter
  let scoreDelta ← orThrow .exception (scoreDifference peerScore unwound.score)
  return ⟨localFinalized.height, finalizedElement.block.timestamp, commonBlockElement,
    commonBlockHeight, scoreDelta, unwound.transactionInfos⟩

/-- The grouped height one grouping back; throws for heights that are not grouped. -/
def previousGroupedHeight (grouping height : ℕ) : Option ℕ :=
  if grouping = 0 then none
  else if height = 1 ∨ height ≠ 0 ∧ height % grouping = 0 then
    some (if grouping < height then height - grouping else 1)
  else none

/-- The first importance block of the peer chain has to be linked to storage. -/
def isFirstImportanceBlockLinked (chain : Chain T) : Option Bool :=
  match elements.find? fun elem => isImportanceBlock elem.block.type with
  | none => some true
  | some elem => do
    let previousHeight ← previousGroupedHeight importanceGrouping elem.block.height
    let previousImportanceBlockHash ← loadHash chain previousHeight
    return previousImportanceBlockHash == elem.block.previousImportanceBlockHash

def process (syncState : SyncState T) : Sync C T Unit := do
  let memory ← get
  let result := handlers.processor syncState.commonBlockElement elements memory.cacheDelta
  changeDelta fun _ => result.1
  abortIf (!result.2) .processing
  let linked ← orThrow .exception
    (isFirstImportanceBlockLinked importanceGrouping elements memory.storage)
  abortIf (!linked) .remoteChainImproperImportanceLink

/-- What subscribers are told of a commit. -/
structure Committed (T : Type) where
  scoreDelta : ℤ
  addedTransactionHashes : Finset Hash256
  revertedTransactionInfos : List (TransactionInfo T)

def saveElements (commonBlockHeight : ℕ) : Sync C T Unit := do
  let memory ← get
  let saved ← orThrow .exception
    (saveBlocks (dropBlocksAfter memory.storage commonBlockHeight) elements)
  modify fun memory => { memory with modifier := saved }

def commitAll (syncState : SyncState T) : Sync C T (Committed T) := do
  saveElements elements syncState.commonBlockHeight
  changeDelta (handlers.prune syncState.localFinalizedHeight syncState.localFinalizedTime)
  modify fun memory => { memory with cache := memory.cacheDelta }
  modify fun memory => { memory with storage := memory.modifier }
  let peerTransactionHashes := extractTransactionHashes elements
  return {
    scoreDelta := syncState.scoreDelta
    addedTransactionHashes := peerTransactionHashes
    revertedTransactionInfos := collectRevertedTransactionInfos peerTransactionHashes
      syncState.removedTransactionInfos }

def blockchainSyncConsumer (source : InputSource) : Sync C T (Committed T) := do
  abortIf elements.isEmpty .emptyInput
  let syncState ← preprocess handlers proofStorage elements source
  process importanceGrouping handlers elements syncState
  commitAll handlers elements syncState

end Consumer

open Option List

variable {T C : Type} {chain : Chain T} {elements : List (BlockElement T)}

theorem loadHash_take {height count : ℕ} (within : height ≤ count) :
    loadHash (chain.take count) height = loadHash chain height := by
  cases height with
  | zero => rfl
  | succ height =>
    rw [loadHash, loadHash, loadBlockElement, loadBlockElement, List.getElem?_take_of_lt within]

theorem length_of_loadBlockElement {height : ℕ} {elem : BlockElement T}
    (found : loadBlockElement chain height = some elem) :
    1 ≤ height ∧ height ≤ chain.length := by
  cases height with
  | zero => cases found
  | succ height => exact ⟨Nat.succ_pos _, (List.getElem?_eq_some_iff.mp found).1⟩

def Consecutive : ℕ → List (BlockElement T) → Prop
  | _, [] => True
  | height, elem :: rest => elem.block.height = height ∧ Consecutive (height + 1) rest

private theorem saveBlocks_eq_some_iff {saved : Chain T} : saveBlocks chain elements = some saved ↔
    saved = chain ++ elements ∧ Consecutive (chain.length + 1) elements := by
  induction elements generalizing chain with
  | nil =>
    rw [saveBlocks, foldlM_nil, append_nil]
    exact ⟨fun same => ⟨(some_inj.mp same).symm, trivial⟩, fun same => by rw [same.1]; rfl⟩
  | cons elem rest ih =>
    have unfolded : saveBlocks chain (elem :: rest) =
        (saveBlock chain elem).bind fun next => saveBlocks next rest := foldlM_cons
    rw [unfolded, saveBlock]
    by_cases next : elem.block.height = chain.length + 1
    · rw [if_pos next, bind_some, ih, append_assoc, length_append]
      exact ⟨fun ⟨same, later⟩ => ⟨same, next, later⟩, fun ⟨same, _, later⟩ => ⟨same, later⟩⟩
    · rw [if_neg next, bind_none]
      exact ⟨fun none => (some_ne_none _ none.symm).elim, fun ⟨_, here, _⟩ =>
        absurd here next⟩

variable {undoBlock : BlockElement T → UndoBlockType → C → C}

def scoreAboveFirst : List (BlockElement T) → ℕ
  | [] => 0
  | first :: rest => calculatePartialChainScore first.block (rest.map (·.block))

variable {child : Option (BlockElement T)} {rest : List (BlockElement T)}

variable {result : UnwindResult T} (parent : BlockElement T)

private theorem addChild_score (top : child = none → rest = [])
    (score : result.score = scoreAboveFirst (child.toList ++ rest)) :
    (result.addChild parent child).score = scoreAboveFirst (parent :: (child.toList ++ rest)) := by
  cases child with
  | none =>
    rw [top rfl] at score ⊢
    exact score
  | some child =>
    change result.score + (calculateScore parent.block child.block).toNat = _
    rw [score, Nat.add_comm]
    rfl

private theorem addChild_transactionInfos
    (infos : result.transactionInfos = rest.flatMap extractTransactionInfos) :
    (result.addChild parent child).transactionInfos =
      (child.toList ++ rest).flatMap extractTransactionInfos := by
  cases child with
  | none => exact infos
  | some child =>
    change extractTransactionInfos child ++ result.transactionInfos = _
    rw [infos]
    rfl

variable {unwound : UnwindResult T} {common : BlockElement T} {before after : SyncMemory C T}

/-- The loop is one block behind: the child is not yet part of the result. -/
private theorem unwindLoop_spec {commonBlockHeight count : ℕ}
    (found : loadBlockElement chain commonBlockHeight = some common)
    (above : chain.drop (commonBlockHeight + count) = child.toList ++ rest)
    (top : child = none → rest = []) (score : result.score = scoreAboveFirst (child.toList ++ rest))
    (infos : result.transactionInfos = rest.flatMap extractTransactionInfos)
    (loop : unwindLoop undoBlock chain commonBlockHeight count child result before =
      (.ok unwound, after)) :
    unwound.score = scoreAboveFirst (common :: chain.drop commonBlockHeight) ∧
      unwound.transactionInfos =
        (chain.drop commonBlockHeight).flatMap extractTransactionInfos := by
  induction count generalizing child rest result before with
  | zero =>
    rw [Nat.add_zero] at above
    obtain ⟨parent, loaded, loop⟩ := orThrow_bind_eq_ok.mp loop
    cases found.symm.trans loaded
    cases loop
    rw [above]
    exact ⟨addChild_score common top score, addChild_transactionInfos common infos⟩
  | succ count ih =>
    obtain ⟨parent, loaded, loop⟩ := orThrow_bind_eq_ok.mp loop
    have here : chain.drop (commonBlockHeight + count) = parent :: (child.toList ++ rest) := by
      obtain ⟨inside, rfl⟩ := List.getElem?_eq_some_iff.mp loaded
      rw [List.drop_eq_getElem_cons inside]
      exact congrArg _ above
    refine ih here (fun none => (some_ne_none _ none).elim) ?_ ?_ loop
    · exact addChild_score parent top score
    · exact addChild_transactionInfos parent infos

private theorem unwindLocalChain_spec {commonBlockHeight : ℕ}
    (within : commonBlockHeight ≤ chain.length)
    (found : loadBlockElement chain commonBlockHeight = some common)
    (unwinding : unwindLocalChain undoBlock chain commonBlockHeight before =
      (.ok unwound, after)) :
    unwound.score = scoreAboveFirst (common :: chain.drop commonBlockHeight) ∧
      unwound.transactionInfos =
        (chain.drop commonBlockHeight).flatMap extractTransactionInfos := by
  unfold unwindLocalChain at unwinding
  split at unwinding
  · next same =>
    cases unwinding
    rw [← same, drop_length]
    exact ⟨rfl, rfl⟩
  · refine unwindLoop_spec found ?_ (fun _ => rfl) rfl rfl unwinding
    rw [Nat.add_sub_cancel' within, drop_length]
    rfl

/-- The storage and the cache, which a commit changes. -/
def SyncMemory.shown (memory : SyncMemory C T) : Chain T × C := (memory.storage, memory.cache)

private theorem keeps_changeDelta (change : C → C) :
    Keeps SyncMemory.shown (changeDelta change : Sync C T Unit) :=
  keeps_modify fun _ => rfl

private theorem keeps_unwindLocalChain (chain : Chain T) (commonBlockHeight : ℕ) :
    Keeps SyncMemory.shown (unwindLocalChain undoBlock chain commonBlockHeight) := by
  have loop (count : ℕ) (child : Option (BlockElement T)) (result : UnwindResult T) :
      Keeps SyncMemory.shown
        (unwindLoop undoBlock chain commonBlockHeight count child result) := by
    induction count generalizing child result with
    | zero =>
      exact (keeps_orThrow _ _).bind fun _ => (keeps_changeDelta _).bind fun _ _ => rfl
    | succ count ih =>
      exact (keeps_orThrow _ _).bind fun parent => (keeps_changeDelta _).bind fun _ => ih _ _
  unfold unwindLocalChain
  split
  · exact fun _ => rfl
  · exact loop _ _ _

section Acceptance
variable (importanceGrouping : ℕ) (handlers : BlockchainSyncHandlers C T)
  (proofStorage : ProofStorage) (elements : List (BlockElement T)) (source : InputSource)

private theorem keeps_preprocess :
    Keeps SyncMemory.shown (preprocess handlers proofStorage elements source) := by
  refine keeps_get.bind fun memory => (keeps_orThrow _ _).bind fun localFinalized => ?_
  refine (keeps_orThrow _ _).bind fun first => (keeps_throwIf _ _).bind fun _ => ?_
  refine (keeps_orThrow _ _).bind fun isFinalizedBlockLocal => (keeps_throwIf _ _).bind fun _ => ?_
  refine (keeps_throwIf _ _).bind fun _ => (keeps_orThrow _ _).bind fun finalizedElement => ?_
  refine Keeps.bind (fun _ => rfl) fun _ => (keeps_unwindLocalChain _ _).bind fun unwound => ?_
  refine (keeps_orThrow _ _).bind fun commonBlockElement => (keeps_throwIf _ _).bind fun _ => ?_
  exact (keeps_orThrow _ _).bind fun scoreDelta _ => rfl

private theorem keeps_process (syncState : SyncState T) :
    Keeps SyncMemory.shown (process importanceGrouping handlers elements syncState) := by
  refine keeps_get.bind fun memory => (keeps_changeDelta _).bind fun _ => ?_
  refine (keeps_throwIf _ _).bind fun _ => (keeps_orThrow _ _).bind fun linked => ?_
  exact keeps_throwIf _ _

private theorem keeps_saveElements (commonBlockHeight : ℕ) :
    Keeps SyncMemory.shown (saveElements elements commonBlockHeight : Sync C T Unit) :=
  keeps_get.bind fun _ => (keeps_orThrow _ _).bind fun _ => keeps_modify fun _ => rfl

/-- Once the blocks are saved, nothing stops the commit. -/
private theorem keepsIfStopped_commitAll (syncState : SyncState T) :
    KeepsIfStopped SyncMemory.shown (commitAll handlers elements syncState) :=
  (keeps_saveElements elements _).bind_ifStopped fun _ _ _ _ stopped => nomatch stopped

theorem keepsIfStopped_blockchainSyncConsumer : KeepsIfStopped SyncMemory.shown
    (blockchainSyncConsumer importanceGrouping handlers proofStorage elements source) := by
  refine (keeps_throwIf _ _).bind_ifStopped fun _ => ?_
  refine (keeps_preprocess handlers proofStorage elements source).bind_ifStopped fun syncState => ?_
  refine (keeps_process importanceGrouping handlers elements syncState).bind_ifStopped fun _ => ?_
  exact keepsIfStopped_commitAll handlers elements syncState

/-- All that was found out about a peer chain before it was committed. -/
structure Acceptance (before after : SyncMemory C T) (committed : Committed T) where
  first : BlockElement T
  first_eq : elements.head? = some first
  localFinalized : HeightHashPair
  localFinalized_eq :
    localFinalizedHeightHashPair proofStorage before.storage = some localFinalized
  linked : isLinked first.block.height before.storage.length source
  isFinalizedBlockLocal : Bool
  isFinalizedBlockLocal_eq :
    containsLocal before.storage proofStorage.statistics = some isFinalizedBlockLocal
  notBehind : first.block.height ≤ localFinalized.height → isFinalizedBlockLocal = false ∧
    containsRemote elements first.block.height proofStorage.statistics
  unwound : UnwindResult T
  undone : SyncMemory C T
  unwound_eq : unwindLocalChain handlers.undoBlock before.storage (first.block.height - 1)
    { before with cacheDelta := before.cache } = (.ok unwound, undone)
  common : BlockElement T
  common_eq : loadBlockElement before.storage (first.block.height - 1) = some common
  better : calculatePartialChainScore common.block (elements.map (·.block)) ≤ unwound.score →
    isFinalizedBlockLocal = false ∧
      containsRemote elements first.block.height proofStorage.statistics
  importanceLinked :
    isFirstImportanceBlockLinked importanceGrouping elements before.storage = some true
  saved : saveBlocks (before.storage.take (first.block.height - 1)) elements = some after.storage
  added : committed.addedTransactionHashes = extractTransactionHashes elements
  reverted : committed.revertedTransactionInfos =
    collectRevertedTransactionInfos (extractTransactionHashes elements) unwound.transactionInfos

variable {importanceGrouping handlers proofStorage elements source}

private theorem of_guard {condition flag other : Bool}
    (passed : (condition && !(!flag && other)) = false) (holds : condition = true) :
    flag = false ∧ other = true := by
  revert passed
  rw [holds]
  cases flag <;> cases other <;> decide

variable {syncState : SyncState T} {committed : Committed T}

private theorem process_eq_ok
    (processing : process importanceGrouping handlers elements syncState before =
      (.ok (), after)) :
    isFirstImportanceBlockLinked importanceGrouping elements before.storage = some true := by
  obtain ⟨_, _, ⟨⟩, processing⟩ := bind_eq_ok.mp processing
  obtain ⟨_, _, _, processing⟩ := bind_eq_ok.mp processing
  obtain ⟨_, processing⟩ := throwIf_bind_eq_ok.mp processing
  obtain ⟨linked, found, processing⟩ := orThrow_bind_eq_ok.mp processing
  cases linked with
  | true => exact found
  | false => cases (throwIf_eq_ok.mp processing).1

private theorem commitAll_eq_ok
    (committing : commitAll handlers elements syncState before = (.ok committed, after)) :
    saveBlocks (before.storage.take syncState.commonBlockHeight) elements = some after.storage ∧
      committed.addedTransactionHashes = extractTransactionHashes elements ∧
      committed.revertedTransactionInfos = collectRevertedTransactionInfos
        (extractTransactionHashes elements) syncState.removedTransactionInfos := by
  obtain ⟨_, _, saving, committing⟩ := bind_eq_ok.mp committing
  obtain ⟨_, _, ⟨⟩, saving⟩ := bind_eq_ok.mp saving
  obtain ⟨_, stored, done⟩ := orThrow_bind_eq_ok.mp saving
  cases done
  cases committing
  exact ⟨stored, rfl, rfl⟩

theorem acceptance_of_committed
    (done : blockchainSyncConsumer importanceGrouping handlers proofStorage elements source before =
      (.ok committed, after)) :
    Nonempty (Acceptance importanceGrouping handlers proofStorage elements source before after
      committed) := by
  obtain ⟨_, done⟩ := throwIf_bind_eq_ok.mp done
  obtain ⟨syncState, preprocessed, preprocessing, done⟩ := bind_eq_ok.mp done
  obtain ⟨_, processed, processing, committing⟩ := bind_eq_ok.mp done
  have storage : preprocessed.storage = before.storage :=
    congrArg Prod.fst ((keeps_preprocess _ _ _ _).eq preprocessing)
  have storage' : processed.storage = before.storage :=
    (congrArg Prod.fst ((keeps_process _ _ _ _).eq processing)).trans storage
  have importanceLinked := process_eq_ok processing
  obtain ⟨saved, added, reverted⟩ := commitAll_eq_ok committing
  rw [storage] at importanceLinked
  rw [storage'] at saved
  obtain ⟨_, _, ⟨⟩, preprocessing⟩ := bind_eq_ok.mp preprocessing
  obtain ⟨localFinalized, localFinalized_eq, preprocessing⟩ := orThrow_bind_eq_ok.mp preprocessing
  obtain ⟨first, first_eq, preprocessing⟩ := orThrow_bind_eq_ok.mp preprocessing
  obtain ⟨linked, preprocessing⟩ := throwIf_bind_eq_ok.mp preprocessing
  obtain ⟨isLocal, isLocal_eq, preprocessing⟩ := orThrow_bind_eq_ok.mp preprocessing
  obtain ⟨notBehind, preprocessing⟩ := throwIf_bind_eq_ok.mp preprocessing
  obtain ⟨_, preprocessing⟩ := throwIf_bind_eq_ok.mp preprocessing
  obtain ⟨finalized, _, preprocessing⟩ := orThrow_bind_eq_ok.mp preprocessing
  obtain ⟨_, _, ⟨⟩, preprocessing⟩ := bind_eq_ok.mp preprocessing
  obtain ⟨unwound, undone, unwound_eq, preprocessing⟩ := bind_eq_ok.mp preprocessing
  obtain ⟨common, common_eq, preprocessing⟩ := orThrow_bind_eq_ok.mp preprocessing
  obtain ⟨better, preprocessing⟩ := throwIf_bind_eq_ok.mp preprocessing
  obtain ⟨delta, _, preprocessing⟩ := orThrow_bind_eq_ok.mp preprocessing
  cases preprocessing
  exact ⟨{
    first, first_eq, localFinalized, localFinalized_eq
    linked := by simpa using linked
    isFinalizedBlockLocal := isLocal
    isFinalizedBlockLocal_eq := isLocal_eq
    notBehind := fun behind => of_guard notBehind (decide_eq_true behind)
    unwound, unwound_eq, common, common_eq
    undone := preprocessed
    better := fun worse => of_guard better (decide_eq_true worse)
    importanceLinked, saved, added, reverted }⟩

namespace Acceptance

variable (acceptance : Acceptance importanceGrouping handlers proofStorage elements source before
  after committed)

theorem bounds :
    2 ≤ acceptance.first.block.height ∧ acceptance.first.block.height ≤ before.storage.length + 1 ∧
      (source = .remotePull ∨ before.storage.length ≤ acceptance.first.block.height) := by
  have linked := acceptance.linked
  simp only [isLinked, Bool.and_eq_true, Bool.or_eq_true, decide_eq_true_eq, beq_iff_eq] at linked
  exact ⟨linked.1.1, linked.1.2, linked.2⟩

theorem storage_eq :
    after.storage = before.storage.take (acceptance.first.block.height - 1) ++ elements ∧
      Consecutive acceptance.first.block.height elements := by
  obtain ⟨pos, within, _⟩ := acceptance.bounds
  obtain ⟨same, consecutive⟩ := saveBlocks_eq_some_iff.mp acceptance.saved
  rw [length_take_of_le (by omega), Nat.sub_add_cancel (by omega)] at consecutive
  exact ⟨same, consecutive⟩

theorem unwound_spec : acceptance.unwound.score = scoreAboveFirst
        (acceptance.common :: before.storage.drop (acceptance.first.block.height - 1)) ∧
      acceptance.unwound.transactionInfos =
        (before.storage.drop (acceptance.first.block.height - 1)).flatMap
          extractTransactionInfos := by
  obtain ⟨_, within, _⟩ := acceptance.bounds
  exact unwindLocalChain_spec (by omega) acceptance.common_eq acceptance.unwound_eq

end Acceptance

private theorem mem_extractTransactionHashes {hash : Hash256} :
    hash ∈ extractTransactionHashes elements ↔
    ∃ elem ∈ elements, ∃ tx ∈ elem.transactions, tx.entityHash = hash := by
  rw [extractTransactionHashes, List.mem_toFinset, List.mem_flatMap]
  exact exists_congr fun elem => and_congr_right fun _ => List.mem_map

/-- A peer chain replaces the last blocks of the local chain. The transactions of these blocks that
are in no peer block are reverted, in the order of the local chain, and the hashes of all peer
transactions are added. -/
theorem reverted_of_committed (importanceGrouping : ℕ) (handlers : BlockchainSyncHandlers C T)
    (proofStorage : ProofStorage) (elements : List (BlockElement T)) (source : InputSource)
    (before after : SyncMemory C T) (committed : Committed T)
    (done : blockchainSyncConsumer importanceGrouping handlers proofStorage elements source before =
      (.ok committed, after)) :
    ∃ kept dropped, before.storage = kept ++ dropped ∧ after.storage = kept ++ elements ∧
      committed.revertedTransactionInfos =
        (dropped.flatMap fun elem => elem.transactions.map fun tx =>
          ⟨tx.transaction, tx.entityHash, tx.merkleComponentHash⟩).filter
          (fun info => elements.all fun elem => elem.transactions.all fun tx =>
            tx.entityHash != info.entityHash) ∧
      ∀ hash, hash ∈ committed.addedTransactionHashes ↔ ∃ elem ∈ elements,
        ∃ tx ∈ elem.transactions, tx.entityHash = hash := by
  obtain ⟨acceptance⟩ := acceptance_of_committed done
  refine ⟨_, _, (take_append_drop (acceptance.first.block.height - 1) before.storage).symm,
    acceptance.storage_eq.1, ?_, ?_⟩
  · rw [acceptance.reverted, acceptance.unwound_spec.2, collectRevertedTransactionInfos]
    refine List.filter_congr fun info _ => ?_
    rw [Bool.eq_iff_iff, decide_eq_true_eq, mem_extractTransactionHashes]
    simp only [List.all_eq_true, bne_iff_ne]
    exact ⟨fun absent elem mem tx inside same =>
        absent ⟨elem, mem, tx, inside, same⟩,
      fun none ⟨elem, mem, tx, inside, same⟩ =>
        none elem mem tx inside same⟩
  · intro hash
    rw [acceptance.added]
    exact mem_extractTransactionHashes

end Acceptance

def blockWith (difficulty : BitVec 64) (entityHash : Hash256)
    (hashes : List Hash256) : BlockElement Unit where
  block := ⟨height, BitVec.ofNat 64 height, difficulty, 0, .normal, 0⟩
  entityHash
  transactions := hashes.map fun hash => ⟨(), hash, hash + 100⟩

def permissiveHandlers : BlockchainSyncHandlers Unit Unit where
  difficultyChecker _ _ := true
  undoBlock _ _ cache := cache
  processor _ _ cache := (cache, true)
  prune _ _ cache := cache

def firstFinalized : ProofStorage := ⟨⟨1, 1⟩, 1, fun _ => none⟩

def twoBlocks : SyncMemory Unit Unit where
  storage := [blockWith 1 50 1 [], blockWith 2 50 2 [11, 12]]
  modifier := []
  cache := ()
  cacheDelta := ()

theorem reverted_of_committed_one :
    ∃ committed after, blockchainSyncConsumer 10 permissiveHandlers firstFinalized
        [blockWith 2 60 3 [12, 13]] .remotePush twoBlocks = (.ok committed, after) ∧
      committed.revertedTransactionInfos = [⟨(), 11, 111⟩] ∧
      (∀ hash, hash ∈ committed.addedTransactionHashes ↔
        ∃ elem ∈ [blockWith 2 60 3 [12, 13]], ∃ tx ∈ elem.transactions, tx.entityHash = hash) := by
  refine ⟨_, _, rfl, by decide +kernel, ?_⟩
  obtain ⟨_, _, _, _, _, added⟩ := reverted_of_committed 10 permissiveHandlers firstFinalized
    [blockWith 2 60 3 [12, 13]] .remotePush twoBlocks _ _ rfl
  exact added

end BitxorCore.Consumers
