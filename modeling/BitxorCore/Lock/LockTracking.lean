/- GID: Lock/LockTracking
   anchors: [plugins/txes/lock_secret, plugins/txes/lock_hash, plugins/txes/aggregate,
     src/bitxorcore/chain, src/bitxorcore/consumers, plugins/txes/lock_shared]
   digest: A lock info cache tracks the open locks of a ledger, identifier by identifier. -/

import BitxorCore.Library.Settlement
import BitxorCore.Lock.LockObservers

set_option autoImplicit false
set_option relaxedAutoImplicit false

namespace BitxorCore.Lock
open Cache Chain Library.Settlement State
open LockInfo (isPending)

inductive LockKind where
  | secret
  | hash
  deriving DecidableEq, Repr

/-- An individual lock, with the account that a use of it pays. -/
structure IndividualLock where
  kind : LockKind
  identifier : Hash256
  endHeight : Nat
  tokenId : TokenId
  amount : Nat
  ownerAddress : Address
  destinationAddress : Address
  deriving DecidableEq

/-- What happened to locks: one was made, one was used, a block ended. -/
inductive LockEvent where
  | locked (lock : IndividualLock)
  | used (kind : LockKind) (identifier : Hash256) (height : Nat)
  | ended (height : Nat) (harvester : Address)

namespace IndividualLock

variable (lock : IndividualLock)

def completed (height : Nat) : LockReceipt where
  receiptType := match lock.kind with
    | .secret => .lockSecretCompleted
    | .hash => .lockHashCompleted
  height
  identifier := lock.identifier
  endHeight := lock.endHeight
  targetAddress := lock.destinationAddress
  tokenId := lock.tokenId
  amount := lock.amount

def expired (height : Nat) (harvester : Address) : LockReceipt where
  receiptType := match lock.kind with
    | .secret => .lockSecretExpired
    | .hash => .lockHashExpired
  height
  identifier := lock.identifier
  endHeight := lock.endHeight
  targetAddress := match lock.kind with
    | .secret => lock.ownerAddress
    | .hash => harvester
  tokenId := lock.tokenId
  amount := lock.amount

/-- A lock is settled by a use of its identifier before its end height, and otherwise by the
block at its end height. -/
def settledBy : LockEvent → Option LockReceipt
  | .locked _ => none
  | .used kind identifier height =>
    if kind = lock.kind ∧ identifier = lock.identifier ∧ height < lock.endHeight then
      some (lock.completed height)
    else none
  | .ended height harvester =>
    if height = lock.endHeight then some (lock.expired height harvester) else none

def ofSecretLockInfo (lockInfo : SecretLockInfo) : IndividualLock where
  kind := .secret
  identifier := lockInfo.identifier
  endHeight := lockInfo.endHeight
  tokenId := lockInfo.tokenId
  amount := lockInfo.amount
  ownerAddress := lockInfo.ownerAddress
  destinationAddress := lockInfo.data.recipientAddress

def ofHashLockInfo (lockInfo : HashLockInfo) : IndividualLock where
  kind := .hash
  identifier := lockInfo.identifier
  endHeight := lockInfo.endHeight
  tokenId := lockInfo.tokenId
  amount := lockInfo.amount
  ownerAddress := lockInfo.ownerAddress
  destinationAddress := lockInfo.ownerAddress

end IndividualLock

def LockEvent.lock : LockEvent → Option IndividualLock
  | .locked lock => some lock
  | .used _ _ _ => none
  | .ended _ _ => none

def lockRules : Rules IndividualLock LockEvent LockReceipt :=
  ⟨LockEvent.lock, IndividualLock.settledBy⟩

/-- A transaction, alone or embedded in an aggregate. `other` stands for any transaction without
locks: it leaves the account state cache as given. -/
inductive LockTransactionBody where
  | secretLock (notice : SecretLockNotification)
  | secretProof (notice : ProofPublicationNotification) (proof : List (BitVec 8))
  | hashLock (notice : HashLockNotification)
  | other (accountStateCache : AccountStateCacheDelta)

/-- A transaction with its hash; an aggregate has the bodies of its embedded transactions. -/
structure LockTransaction where
  hash : Hash256
  transactionType : TransactionType
  bodies : List LockTransactionBody

inductive PublishedNotification where
  | lock (notice : LockNotification)
  | other (accountStateCache : AccountStateCacheDelta)

def LockTransactionBody.publish : LockTransactionBody → List PublishedNotification
  | .secretLock notice => [.lock (.secretLockDuration notice.duration),
      .lock (.secretLockHashAlgorithm notice.hashAlgorithm),
      .lock (.secretLock notice)]
  | .secretProof notice proof => [.lock (.secretLockHashAlgorithm notice.hashAlgorithm),
      .lock (.proofSecret notice.hashAlgorithm notice.secret proof),
      .lock (.proofPublication notice)]
  | .hashLock notice => [.lock (.hashLockDuration notice.duration),
      .lock (.hashLockToken notice.tokenId notice.amount),
      .lock (.hashLock notice)]
  | .other accountStateCache => [.other accountStateCache]

def LockTransaction.publish (tx : LockTransaction) : List PublishedNotification :=
  .lock (.transaction tx.hash tx.transactionType) :: tx.bodies.flatMap LockTransactionBody.publish

structure LockBlock where
  harvester : Address
  transactions : List LockTransaction

def LockBlock.published (block : LockBlock) : List PublishedNotification :=
  block.transactions.flatMap LockTransaction.publish

/-- A chain: the height of its last block, its caches, the receipts written so far, and the
record of what happened to locks. -/
structure LockChain where
  height : Nat
  state : LockState
  receipts : List LockReceipt
  events : List LockEvent

def LockChain.genesis (accountStateCache : AccountStateCacheDelta) : LockChain :=
  ⟨0, ⟨accountStateCache, .empty, .empty⟩, [], []⟩

variable (cfg : LockConfiguration)

def lockEvents (height : Nat) : LockNotification → List LockEvent
  | .secretLock notice =>
    [.locked (.ofSecretLockInfo (createSecretLockInfo cfg height notice))]
  | .proofPublication notice =>
    [.used .secret
      (cfg.calculateSecretLockInfoHash notice.secret notice.recipient) height]
  | .hashLock notice => [.locked (.ofHashLockInfo (createHashLockInfo height notice))]
  | .transaction transactionHash .aggregateBonded => [.used .hash transactionHash height]
  | .transaction _ .other => []
  | .secretLockDuration _ => []
  | .secretLockHashAlgorithm _ => []
  | .proofSecret _ _ _ => []
  | .hashLockDuration _ => []
  | .hashLockToken _ _ => []

variable (chain : LockChain)

/-- Validates a notification at the next height and observes it. -/
def processNotification : PublishedNotification → Option LockChain
  | .lock notice =>
    let height := chain.height + 1
    if validateLockNotification cfg chain.state height notice = .success then
      (observeLockNotification store64 cfg .commit height chain.state notice).map
        fun observed => { chain with
          state := observed.1
          receipts := chain.receipts ++ observed.2
          events := chain.events ++ lockEvents cfg height notice }
    else none
  | .other accountStateCache =>
    some { chain with state := { chain.state with accountStateCache } }

def processTransactions (block : LockBlock) (chain : LockChain) : Option LockChain :=
  block.published.foldlM (processNotification cfg) chain

def processBlockNotification (harvester : Address) (chain : LockChain) : Option LockChain := do
  let height := chain.height + 1
  let secret ← expiredSecretLockInfoObserver store64 .commit height chain.state
  let hash ← expiredHashLockInfoObserver store64 .commit height harvester secret.1
  let paid := (chain.state.accountStateCache.forwardedAddress harvester).getD harvester
  return {
    height
    state := hash.1
    receipts := chain.receipts ++ secret.2 ++ hash.2
    events := chain.events ++ [.ended height paid] }

/-- A block is processed, or the caches are pruned at a height. -/
inductive LockStep where
  | block (block : LockBlock)
  | prune (height : Nat)

def processStep : LockStep → Option LockChain
  | .block block => do
    let processed ← processTransactions cfg block chain
    processBlockNotification block.harvester processed
  | .prune height => some { chain with state := { chain.state with
      secretLockInfoCache := chain.state.secretLockInfoCache.prune height
      hashLockInfoCache := chain.state.hashLockInfoCache.prune height } }

def processSteps (steps : List LockStep) (chain : LockChain) : Option LockChain :=
  steps.foldlM (processStep cfg) chain

def LockReceiptType.isBalanceCredit : LockReceiptType → Bool
  | .lockSecretCreated | .lockHashCreated => false
  | .lockSecretCompleted | .lockSecretExpired | .lockHashCompleted | .lockHashExpired => true

def LockChain.credits : List LockReceipt :=
  chain.receipts.filter fun receipt => receipt.receiptType.isBalanceCredit

/-- At a height the newest lock of every identifier recorded as ending is used or ends there, and
no older lock that is unused ends there. -/
def ExpirySafe {X : Type} (cache : LockInfoCache X) (height : Nat) : Prop :=
  ∀ identifier ∈ cache.ending height,
    (∀ back, (cache.history identifier).unusedBack = some back → back.endHeight = height) ∧
    ∀ older ∈ (cache.history identifier).tail, older.status = .unused → older.endHeight ≠ height

instance {X : Type} (cache : LockInfoCache X) (height : Nat) :
    Decidable (ExpirySafe cache height) :=
  List.decidableBAll (fun identifier =>
    (∀ back ∈ (cache.history identifier).unusedBack, back.endHeight = height) ∧
    ∀ older ∈ (cache.history identifier).tail, older.status = .unused → older.endHeight ≠ height)
    (cache.ending height)

/-- No identifier that pruning at a height removes has a pending lock. -/
def PruneSafe {X : Type} (cache : LockInfoCache X) (height last : Nat) : Prop :=
  ∀ identifier ∈ cache.ending height, ∀ lockInfo ∈ cache.history identifier,
    lockInfo.isPending last = false

instance {X : Type} (cache : LockInfoCache X) (height last : Nat) :
    Decidable (PruneSafe cache height last) :=
  List.decidableBAll (fun identifier =>
    ∀ lockInfo ∈ cache.history identifier, lockInfo.isPending last = false) (cache.ending height)

def EndHeightFits (height : Nat) : PublishedNotification → Prop
  | .lock (.secretLock notice) => height + notice.duration < 2 ^ 64
  | .lock (.hashLock notice) => height + notice.duration < 2 ^ 64
  | _ => True

instance (height : Nat) : (notice : PublishedNotification) → Decidable (EndHeightFits height notice)
  | .lock (.secretLock notice) =>
    inferInstanceAs (Decidable (height + notice.duration < 2 ^ 64))
  | .lock (.hashLock notice) =>
    inferInstanceAs (Decidable (height + notice.duration < 2 ^ 64))
  | .lock (.secretLockDuration _) | .lock (.secretLockHashAlgorithm _)
  | .lock (.proofSecret _ _ _) | .lock (.proofPublication _) | .lock (.hashLockDuration _)
  | .lock (.hashLockToken _ _) | .lock (.transaction _ _) | .other _ => isTrue trivial

def StepSafe : LockStep → Prop
  | .block block =>
    (∀ notice ∈ block.published, EndHeightFits (chain.height + 1) notice) ∧
    ∀ processed, processTransactions cfg block chain = some processed →
      ExpirySafe processed.state.secretLockInfoCache (chain.height + 1) ∧
      ExpirySafe processed.state.hashLockInfoCache (chain.height + 1)
  | .prune height =>
    PruneSafe chain.state.secretLockInfoCache height chain.height ∧
    PruneSafe chain.state.hashLockInfoCache height chain.height

instance (chain : LockChain) : (step : LockStep) → Decidable (StepSafe cfg chain step)
  | .block block => inferInstanceAs (Decidable (
      (∀ notice ∈ block.published, EndHeightFits (chain.height + 1) notice) ∧
      ∀ processed ∈ processTransactions cfg block chain,
        ExpirySafe processed.state.secretLockInfoCache (chain.height + 1) ∧
        ExpirySafe processed.state.hashLockInfoCache (chain.height + 1)))
  | .prune height => inferInstanceAs (Decidable (
      PruneSafe chain.state.secretLockInfoCache height chain.height ∧
      PruneSafe chain.state.hashLockInfoCache height chain.height))

def SafeAlong : List LockStep → LockChain → Prop
  | [], _ => True
  | step :: rest, chain => StepSafe cfg chain step ∧
      ∀ next, processStep cfg chain step = some next → SafeAlong rest next

instance decidableSafeAlong : (steps : List LockStep) → (chain : LockChain) →
    Decidable (SafeAlong cfg steps chain)
  | [], _ => isTrue trivial
  | step :: rest, chain =>
    have : ∀ next, Decidable (SafeAlong cfg rest next) := decidableSafeAlong rest
    inferInstanceAs (Decidable (StepSafe cfg chain step ∧
      ∀ next ∈ processStep cfg chain step, SafeAlong cfg rest next))

open List LockInfo LockInfoCache

variable {X : Type} [LockData X]

structure LockView (X : Type) [LockData X] where
  kind : LockKind
  toLock : LockInfo X → IndividualLock
  kind_toLock : ∀ lockInfo, (toLock lockInfo).kind = kind
  identifier_toLock : ∀ lockInfo, (toLock lockInfo).identifier = lockInfo.identifier
  endHeight_toLock : ∀ lockInfo, (toLock lockInfo).endHeight = lockInfo.endHeight

def secretLockView : LockView SecretLockData :=
  ⟨.secret, .ofSecretLockInfo, fun _ => rfl, fun _ => rfl, fun _ => rfl⟩

def hashLockView : LockView HashLockData :=
  ⟨.hash, .ofHashLockInfo, fun _ => rfl, fun _ => rfl, fun _ => rfl⟩

def IndividualLock.under (kind : LockKind) (identifier : Hash256) (lock : IndividualLock) : Bool :=
  lock.kind == kind && lock.identifier == identifier

open IndividualLock (completed settledBy under)

/-- The history of an identifier holds its open locks, their ends are recorded, and at most one of
them is still open after the next block. -/
structure TracksAt (view : LockView X) (identifier : Hash256) (history : LockInfoHistory X)
    (ending : Nat → List Hash256) (pending : List IndividualLock) (last : Nat) : Prop where
  pending_perm : (pending.filter (under view.kind identifier)).Perm
    ((history.filter (isPending last)).map view.toLock)
  recorded : ∀ lockInfo ∈ history, lockInfo.isPending last → identifier ∈ ending lockInfo.endHeight
  single : ∀ older ∈ history.tail, older.isPending (last + 1) = false
  identified : ∀ lockInfo ∈ history, lockInfo.identifier = identifier

/-- A cache holds the open locks of its kind. -/
def Tracks (view : LockView X) (cache : LockInfoCache X) (pending : List IndividualLock)
    (last : Nat) : Prop :=
  ∀ identifier, TracksAt view identifier (cache.history identifier) cache.ending pending last

variable {lockInfo : LockInfo X}

omit [LockData X] in
theorem LockInfo.isPending_iff {height : Nat} :
    lockInfo.isPending height = true ↔ lockInfo.status = .unused ∧ height < lockInfo.endHeight := by
  simp [isPending]

omit [LockData X] in
private theorem LockInfo.isPending_mono {height later : Nat}
    (later_le : height ≤ later) (pending : lockInfo.isPending later = true) :
    lockInfo.isPending height = true := by
  rw [isPending_iff] at pending ⊢
  exact ⟨pending.1, by omega⟩

omit [LockData X] in
private theorem filter_open_of_active {back : LockInfo X} {rest : LockInfoHistory X} {last : Nat}
    (active : back.isPending (last + 1) = true)
    (single : ∀ older ∈ rest, older.isPending (last + 1) = false) :
    ((back :: rest).filter (isPending last)).filter
        (fun lockInfo => decide (last + 1 < lockInfo.endHeight)) = [back] ∧
    ((back :: rest).filter (isPending last)).filter
        (fun lockInfo => !decide (last + 1 < lockInfo.endHeight)) =
      rest.filter (isPending last) := by
  have ends := (isPending_iff.mp active).2
  have backPending : back.isPending last = true := isPending_mono (by omega) active
  have early : ∀ older ∈ rest.filter (isPending last), ¬ last + 1 < older.endHeight := by
    intro older mem ends'
    obtain ⟨inRest, olderPending⟩ := mem_filter.mp mem
    have unused := (isPending_iff.mp olderPending).1
    have pendingNext := isPending_iff.mpr ⟨unused, ends'⟩
    rw [single older inRest] at pendingNext
    cases pendingNext
  rw [filter_cons_of_pos backPending]
  constructor
  · rw [filter_cons_of_pos (by simpa using ends), filter_eq_nil_iff.mpr]
    intro older mem
    simpa using early older mem
  · rw [filter_cons_of_neg (by simpa using ends), filter_eq_self.mpr]
    intro older mem
    simpa using early older mem

theorem tracks_empty (view : LockView X) : Tracks view .empty [] 0 :=
  fun _ => ⟨.refl _, nofun, nofun, nofun⟩

section
variable {view : LockView X} {cache : LockInfoCache X} {last : Nat}
  {ledger : Ledger IndividualLock LockReceipt} (tracks : Tracks view cache ledger.pending last)

section
variable {kind : LockKind} {key identifier : Hash256} {height : Nat}

private theorem pending_locked (lock : IndividualLock) :
    (ledger.step lockRules (.locked lock)).pending = ledger.pending ++ [lock] := by
  simp [Ledger.step, lockRules, LockEvent.lock, settledBy]

private theorem filter_pending_used :
    (ledger.step lockRules (.used kind key height)).pending.filter (under view.kind identifier) =
      (ledger.pending.filter (under view.kind identifier)).filter fun lock =>
        !(decide (kind = view.kind ∧ key = identifier) && decide (height < lock.endHeight)) := by
  simp only [Ledger.step, lockRules, LockEvent.lock, Option.toList_none, append_nil, filter_filter]
  refine filter_congr fun lock _ => ?_
  by_cases isUnder : under view.kind identifier lock = true
  · obtain ⟨ofKind, named⟩ : lock.kind = view.kind ∧ lock.identifier = identifier := by
      simpa [under] using isUnder
    by_cases here : kind = view.kind ∧ key = identifier
    · by_cases before : height < lock.endHeight <;>
        simp [isUnder, settledBy, ofKind, named, here, before]
    · have unsettled : lock.settledBy (.used kind key height) = none :=
        if_neg fun same => here ⟨same.1.trans ofKind, same.2.1.trans named⟩
      simp [isUnder, unsettled, here]
  · simp [isUnder]

end

include tracks

theorem Tracks.locked_other {lock : IndividualLock} (other : lock.kind ≠ view.kind) :
    Tracks view cache (ledger.step lockRules (.locked lock)).pending last := fun identifier =>
  { tracks identifier with
    pending_perm := by
      have apart : ¬ under view.kind identifier lock = true := by simp [under, other]
      rw [pending_locked, filter_append, filter_cons_of_neg apart, filter_nil, append_nil]
      exact (tracks identifier).pending_perm }

theorem Tracks.used_other {kind : LockKind} {key : Hash256} {height : Nat}
    (other : kind ≠ view.kind) :
    Tracks view cache (ledger.step lockRules (.used kind key height)).pending last :=
  fun identifier => { tracks identifier with
    pending_perm := by
      rw [filter_pending_used]
      simpa [other] using (tracks identifier).pending_perm }

theorem Tracks.locked {lockInfo : LockInfo X} (unused : lockInfo.status = .unused)
    (later : last + 1 < lockInfo.endHeight)
    (inactive : cache.isActive lockInfo.identifier (last + 1) = false) :
    Tracks view (cache.insert lockInfo)
      (ledger.step lockRules (.locked (view.toLock lockInfo))).pending last := by
  intro identifier
  have before := tracks identifier
  have recorded : ∀ other ∈ cache.history identifier, other.isPending last →
      identifier ∈ (cache.insert lockInfo).ending other.endHeight := fun other mem isPending =>
    mem_identifiers_add.mpr (.inr (before.recorded other mem isPending))
  rw [history_insert, pending_locked]
  by_cases here : identifier = lockInfo.identifier
  · subst here
    rw [isActive_eq] at inactive
    rw [if_pos rfl]
    refine ⟨?_, forall_mem_cons.mpr ⟨fun _ => mem_identifiers_add.mpr (.inl ⟨rfl, rfl⟩), recorded⟩,
      ?_, forall_mem_cons.mpr ⟨rfl, before.identified⟩⟩
    · have under : under view.kind lockInfo.identifier (view.toLock lockInfo) = true := by
        simp [under, view.kind_toLock, view.identifier_toLock]
      have isPending : lockInfo.isPending last = true := isPending_iff.mpr ⟨unused, by omega⟩
      rw [filter_append, filter_cons_of_pos isPending, map_cons, filter_cons_of_pos under,
        filter_nil]
      exact (perm_append_singleton _ _).trans (before.pending_perm.cons _)
    · intro older mem
      rw [tail_cons] at mem
      have single := before.single
      cases history : cache.history lockInfo.identifier with
      | nil => simp_all
      | cons back rest =>
        rw [history] at mem inactive single
        rcases mem_cons.mp mem with rfl | deeper
        · rwa [LockInfoHistory.isActive, isActive_eq_isPending] at inactive
        · exact single older deeper
  · have notUnder : ¬ under view.kind identifier (view.toLock lockInfo) = true := by
      simp [under, view.identifier_toLock, Ne.symm here]
    rw [if_neg here]
    refine { before with pending_perm := ?_, recorded := recorded }
    rw [filter_append, filter_cons_of_neg notUnder, filter_nil, append_nil]
    exact before.pending_perm

theorem Tracks.used {after : LockInfoCache X} {key : Hash256} {back : LockInfo X}
    (active : cache.isActive key (last + 1) = true) (isBack : cache.back key = some back)
    (done : cache.setBackStatus key .used = some after) :
    Tracks view after (ledger.step lockRules (.used view.kind key (last + 1))).pending last ∧
      ledger.pending.filterMap (settledBy · (.used view.kind key (last + 1))) =
        [(view.toLock back).completed (last + 1)] := by
  obtain ⟨back, rest, found, histories, endings⟩ := history_setBackStatus done
  rw [LockInfoCache.back, found, head?_cons] at isBack
  cases isBack
  have before := tracks key
  rw [found] at before
  have backActive : back.isPending (last + 1) = true := by
    rwa [isActive_eq, found, LockInfoHistory.isActive, isActive_eq_isPending] at active
  obtain ⟨onlyBack, others⟩ :=
    filter_open_of_active backActive (show ∀ older ∈ rest, _ from before.single)
  refine ⟨fun identifier => ?_, ?_⟩
  · rw [histories, funext endings]
    by_cases here : identifier = key
    · subst here
      rw [if_pos rfl]
      refine ⟨?_, forall_mem_cons.mpr ⟨fun isPending => ?_, fun older mem =>
        before.recorded older (mem_cons_of_mem _ mem)⟩, before.single,
        forall_mem_cons.mpr (forall_mem_cons.mp before.identified)⟩
      · have usedBack : ¬ isPending last { back with status := .used } = true := by
          simp [isPending]
        rw [filter_pending_used, filter_cons_of_neg usedBack, ← others]
        have filtered := before.pending_perm.filter fun lock => !decide (last + 1 < lock.endHeight)
        rw [filter_map] at filtered
        simpa [Function.comp_def, view.endHeight_toLock] using filtered
      · simp [LockInfo.isPending] at isPending
    · rw [if_neg here]
      refine { tracks identifier with pending_perm := ?_ }
      rw [filter_pending_used]
      simpa [Ne.symm here] using (tracks identifier).pending_perm
  · have filtered := before.pending_perm.filter fun lock => decide (last + 1 < lock.endHeight)
    rw [filter_map] at filtered
    have single : (ledger.pending.filter fun lock => decide (view.kind = lock.kind ∧
        key = lock.identifier ∧ last + 1 < lock.endHeight)).Perm [view.toLock back] := by
      refine .trans (.of_eq ?_) ((filtered.trans (.of_eq ?_)))
      · rw [filter_filter]
        refine filter_congr fun lock _ => ?_
        rw [Bool.eq_iff_iff, Bool.and_eq_true, under, Bool.and_eq_true, beq_iff_eq, beq_iff_eq,
          decide_eq_true_iff, decide_eq_true_iff, eq_comm (b := lock.kind),
          eq_comm (b := lock.identifier)]
        tauto
      · rw [← map_singleton, ← onlyBack]
        simp only [Function.comp_def, view.endHeight_toLock]
    have settled := filterMap_ite (fun lock : IndividualLock => view.kind = lock.kind ∧
      key = lock.identifier ∧ last + 1 < lock.endHeight) (·.completed (last + 1)) ledger.pending
    rwa [perm_singleton.mp single] at settled

theorem Tracks.ended (harvester : Address) :
    Tracks view cache (ledger.step lockRules (.ended (last + 1) harvester)).pending (last + 1) := by
  intro identifier
  have before := tracks identifier
  refine ⟨?_, fun lockInfo mem isPending =>
    before.recorded lockInfo mem (isPending_mono (by omega) isPending), fun older mem => ?_,
    before.identified⟩
  · have filtered := before.pending_perm.filter fun lock => decide (last + 1 ≠ lock.endHeight)
    rw [filter_map, filter_filter, filter_filter] at filtered
    have later : ∀ lockInfo ∈ cache.history identifier,
        (decide (last + 1 ≠ (view.toLock lockInfo).endHeight) && lockInfo.isPending last) =
          lockInfo.isPending (last + 1) := by
      intro lockInfo _
      rw [view.endHeight_toLock, Bool.eq_iff_iff, Bool.and_eq_true, isPending_iff,
        isPending_iff, decide_eq_true_iff]
      constructor
      · rintro ⟨differ, unused, before⟩
        exact ⟨unused, by omega⟩
      · rintro ⟨unused, before⟩
        exact ⟨by omega, unused, by omega⟩
    simp only [Ledger.step, lockRules, LockEvent.lock, Option.toList_none, append_nil]
    rw [← filter_congr later, filter_filter]
    refine List.Perm.trans (.of_eq (filter_congr fun lock _ => ?_)) filtered
    rw [Bool.and_comm]
    by_cases here : last + 1 = lock.endHeight <;> simp [settledBy, here]
  · rw [Bool.eq_false_iff]
    intro pending
    have pendingNext : older.isPending (last + 1) = true := isPending_mono (by omega) pending
    rw [before.single older mem] at pendingNext
    cases pendingNext

/-- Pruning identifiers without open locks loses none. -/
theorem Tracks.prune {height : Nat} (safe : PruneSafe cache height last) :
    Tracks view (cache.prune height) ledger.pending last := by
  intro identifier
  have before := tracks identifier
  rw [history_prune]
  split
  · rename_i removed
    refine ⟨before.pending_perm.trans (.of_eq ?_), nofun, nofun, nofun⟩
    rw [filter_eq_nil_iff.mpr]
    · rfl
    · intro lockInfo mem isPending
      rw [safe identifier removed lockInfo mem] at isPending
      cases isPending
  · rename_i kept
    refine { before with recorded := fun lockInfo mem isPending => ?_ }
    have recorded := before.recorded lockInfo mem isPending
    rw [ending_prune, if_neg]
    · exact recorded
    · rintro rfl
      exact kept recorded

end

omit [LockData X] in
private theorem filter_ending_of_safe {history : LockInfoHistory X} {last : Nat}
    (backEnds : ∀ back, history.unusedBack = some back → back.endHeight = last + 1)
    (olderEnd : ∀ older ∈ history.tail, older.status = .unused → older.endHeight ≠ last + 1) :
    ((history.filter (isPending last)).filter
        fun lockInfo => decide (lockInfo.endHeight = last + 1)) = history.unusedBack.toList := by
  cases history with
  | nil => rfl
  | cons back rest =>
    have noOlder : rest.filter (fun lockInfo =>
        decide (lockInfo.endHeight = last + 1) && lockInfo.isPending last) = [] := by
      rw [filter_eq_nil_iff]
      intro older mem holds
      obtain ⟨ends, isPending⟩ := Bool.and_eq_true_iff.mp holds
      exact olderEnd older mem (isPending_iff.mp isPending).1 (of_decide_eq_true ends)
    rw [filter_filter, filter_cons, noOlder]
    cases status : back.status with
    | unused =>
      have isBack : LockInfoHistory.unusedBack (back :: rest) = some back := by
        simp [LockInfoHistory.unusedBack, status]
      have ends := backEnds back isBack
      rw [isBack, if_pos]
      · rfl
      · simp [isPending, status, ends]
    | used => simp [LockInfoHistory.unusedBack, isPending, status]

theorem Tracks.filter_expired {view : LockView X} {cache : LockInfoCache X}
    {pending : List IndividualLock} {last : Nat} (tracks : Tracks view cache pending last)
    (safe : ExpirySafe cache (last + 1)) (identifier : Hash256) :
    ((cache.processUnusedExpiredLocks (last + 1)).filter
        fun lockInfo => lockInfo.identifier = identifier) =
      ((cache.history identifier).filter (isPending last)).filter
        fun lockInfo => decide (lockInfo.endHeight = last + 1) := by
  have named : ∀ key ∈ cache.ending (last + 1), ∀ back,
      (cache.history key).unusedBack = some back → back.identifier = key := by
    intro key _ back isBack
    refine (tracks key).identified back (mem_of_head? ?_)
    exact (Option.filter_eq_some_iff.mp isBack).1
  rw [processUnusedExpiredLocks_eq,
    filter_key_filterMap LockInfo.identifier (nodup_ending _ _) named]
  by_cases ends : identifier ∈ cache.ending (last + 1)
  · obtain ⟨backEnds, olderEnd⟩ := safe identifier ends
    rw [if_pos ends]
    exact (filter_ending_of_safe backEnds olderEnd).symm
  · rw [if_neg ends, filter_eq_nil_iff.mpr]
    intro lockInfo mem endsHere
    obtain ⟨inHistory, isPending⟩ := mem_filter.mp mem
    refine ends ?_
    rw [← of_decide_eq_true endsHere]
    exact (tracks identifier).recorded lockInfo inHistory isPending

end BitxorCore.Lock
