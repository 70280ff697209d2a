/- GID: Lock/LockPayouts
   anchors: [plugins/txes/lock_shared]
   digest: In runs with safe expiry every lock pays out exactly once; other runs pay one twice. -/

import BitxorCore.Lock.LockTracking

set_option autoImplicit false
set_option relaxedAutoImplicit false

namespace BitxorCore.Lock
open Cache Chain Library.Settlement State List IndividualLock
open Option (bind_eq_some_iff map_eq_some_iff some)

variable (accountStateCache : AccountStateCacheDelta)

def creditReceipt (receipt : LockReceipt) :
    Option AccountStateCacheDelta :=
  if receipt.receiptType.isBalanceCredit then
    accountStateCache.modify receipt.targetAddress fun accountState =>
      let balances :=
        AccountBalances.credit store64 accountState.balances receipt.tokenId receipt.amount
      some { accountState with balances }
  else some accountStateCache

def creditReceipts (receipts : List LockReceipt) :
    Option AccountStateCacheDelta :=
  receipts.foldlM creditReceipt accountStateCache

variable (accountStateCache : AccountStateCacheDelta)

private theorem creditReceipts_append (first second : List LockReceipt) :
    creditReceipts accountStateCache (first ++ second) =
      (creditReceipts accountStateCache first).bind (creditReceipts · second) :=
  foldlM_append

section Observers
variable {X : Type} [LockData X] {height : Nat} {receiptType : LockReceiptType}

def LockInfo.receipt (lockInfo : LockInfo X) (height : Nat) (receiptType : LockReceiptType)
    (address : Address) : LockReceipt :=
  ⟨receiptType, height, lockInfo.identifier, lockInfo.endHeight, address, lockInfo.tokenId,
    lockInfo.amount⟩

variable {lockInfo : LockInfo X}

private theorem creditReceipt_receipt (isCredit : receiptType.isBalanceCredit)
    (accountStateCache : AccountStateCacheDelta) (address : Address) :
    creditReceipt accountStateCache (lockInfo.receipt height receiptType address) =
      accountStateCache.modify address (changeBalance store64 .commit lockInfo) :=
  if_pos isCredit

private theorem creditReceipts_singleton (accountStateCache : AccountStateCacheDelta)
    (receipt : LockReceipt) :
    creditReceipts accountStateCache [receipt] = creditReceipt accountStateCache receipt := by
  simp [creditReceipts]

omit [LockData X] in
private theorem changeBalance_keepsLinks (lockInfo : LockInfo X) :
    AccountStateCacheDelta.KeepsLinks (changeBalance store64 .commit lockInfo) := by
  intro before after done
  simp only [changeBalance, some.injEq] at done
  subst done
  exact ⟨rfl, rfl, rfl⟩

variable {receipts : List LockReceipt} {cache after : LockInfoCache X}

private theorem lockObserver_commit
    (done : lockObserver .commit height receiptType lockInfo cache = some (after, receipts)) :
    cache.isActive lockInfo.identifier height = false ∧ after = cache.insert lockInfo ∧
      receipts = [lockInfo.receipt height receiptType lockInfo.ownerAddress] := by
  dsimp only [lockObserver] at done
  split at done
  · cases done
  · rename_i inactive
    cases done
    exact ⟨Bool.eq_false_iff.mpr inactive, rfl, rfl⟩

variable {accounts accounts' : AccountStateCacheDelta}

private theorem lockStatusAccountBalanceObserver_commit {key : Hash256}
    {destination : LockInfo X → Address}
    (isCredit : receiptType.isBalanceCredit)
    (done : lockStatusAccountBalanceObserver store64 .commit height receiptType key destination
      cache accounts = some (after, accounts', receipts)) :
    ∃ back, cache.back key = some back ∧ cache.setBackStatus key .used = some after ∧
      receipts = [back.receipt height receiptType (destination back)] ∧
      creditReceipts accounts receipts = some accounts' := by
  dsimp only [lockStatusAccountBalanceObserver] at done
  simp only [Option.bind_eq_bind, Option.bind_eq_some_iff, Option.pure_def, Option.some.injEq,
    Prod.mk.injEq] at done
  obtain ⟨back, isBack, changed, credited, used, marked, rfl, rfl, rfl⟩ := done
  refine ⟨back, isBack, marked, rfl, ?_⟩
  rw [← credited, ← creditReceipt_receipt isCredit]
  exact creditReceipts_singleton _ _

/-- Expired locks are paid in the order reported, each to the account of its kind. Payments do
not change which account acts for an address, so the payee of every lock is known beforehand. -/
private theorem payOutExpired_commit {harvester : Address}
    {target : AccountStateCacheDelta → LockInfo X → Option Address}
    (payee : LockInfo X → Address) (isCredit : receiptType.isBalanceCredit)
    {expired : List (LockInfo X)}
    {written : List LockReceipt}
    (known : ∀ current, current.forwardedAddress harvester = accounts.forwardedAddress harvester →
      ∀ lockInfo address, target current lockInfo = some address → address = payee lockInfo)
    (done : expired.foldlM (payOutExpired store64 .commit height receiptType target)
      (accounts, written) = some (accounts', receipts)) :
    receipts = written ++ expired.map (fun lockInfo =>
        lockInfo.receipt height receiptType (payee lockInfo)) ∧
      creditReceipts accounts (expired.map fun lockInfo =>
        lockInfo.receipt height receiptType (payee lockInfo)) = some accounts' ∧
      accounts'.forwardedAddress harvester = accounts.forwardedAddress harvester := by
  induction expired generalizing accounts written with
  | nil =>
    rw [foldlM_nil] at done
    cases done
    exact ⟨(append_nil _).symm, rfl, rfl⟩
  | cons lockInfo rest ih =>
    rw [foldlM_cons] at done
    obtain ⟨⟨next, writtenNext⟩, first, others⟩ := Option.bind_eq_some_iff.mp done
    dsimp only [payOutExpired] at first
    simp only [Option.bind_eq_bind, Option.bind_eq_some_iff, Option.pure_def, Option.some.injEq,
      Prod.mk.injEq] at first
    obtain ⟨address, targeted, changed, credited, rfl, rfl⟩ := first
    have isPayee := known accounts rfl lockInfo address targeted
    subst isPayee
    have kept := AccountStateCacheDelta.forwardedAddress_modify
      (changeBalance_keepsLinks lockInfo) credited harvester
    obtain ⟨rfl, restCredited, restKept⟩ := ih
      (fun current same => known current (same.trans kept)) others
    refine ⟨?_, ?_, restKept.trans kept⟩
    · rw [map_cons, ← singleton_append, ← append_assoc]
      rfl
    · rw [map_cons, ← singleton_append, creditReceipts_append, creditReceipts_singleton,
        creditReceipt_receipt isCredit, credited]
      exact restCredited

end Observers

/-- The ledger of the locks that the events of a chain made and settled. -/
def LockChain.ledger (chain : LockChain) : Ledger IndividualLock LockReceipt :=
  Ledger.empty.run lockRules chain.events

/-- Credits so far are those the ledger has settled, and the caches hold its open locks. -/
structure PaidOut (chain : LockChain) : Prop where
  credits_perm : chain.credits.Perm chain.ledger.settled
  secret : Tracks secretLockView chain.state.secretLockInfoCache chain.ledger.pending chain.height
  hash : Tracks hashLockView chain.state.hashLockInfoCache chain.ledger.pending chain.height

private theorem paidOut_genesis : PaidOut (.genesis accountStateCache) where
  credits_perm := .refl _
  secret := tracks_empty secretLockView
  hash := tracks_empty hashLockView

variable {receipts : List LockReceipt}

private theorem PaidOut.record {chain next : LockChain} (paid : PaidOut chain) {event : LockEvent}
    (written : next.receipts = chain.receipts ++ receipts)
    (logged : next.events = chain.events ++ [event])
    (settled : (receipts.filter fun receipt => receipt.receiptType.isBalanceCredit).Perm
      (chain.ledger.pending.filterMap (settledBy · event)))
    (secret : Tracks secretLockView next.state.secretLockInfoCache
      (chain.ledger.step lockRules event).pending next.height)
    (hash : Tracks hashLockView next.state.hashLockInfoCache
      (chain.ledger.step lockRules event).pending next.height) : PaidOut next := by
  have stepped : next.ledger = chain.ledger.step lockRules event := by
    rw [LockChain.ledger, logged, Ledger.run_append]
    rfl
  constructor
  · rw [stepped, LockChain.credits, written, filter_append]
    exact paid.credits_perm.append settled
  · rwa [stepped]
  · rwa [stepped]

open Library LockTransactionBody

section Notifications
variable {config : LockConfiguration} {chain next : LockChain} {notice : LockNotification}

private theorem processNotification_lock
    (done : processNotification config chain (.lock notice) = some next) :
    validateLockNotification config chain.state (chain.height + 1) notice = .success ∧
      ∃ state receipts,
        observeLockNotification store64 config .commit (chain.height + 1) chain.state
          notice = some (state, receipts) ∧
        next = { chain with
          state
          receipts := chain.receipts ++ receipts
          events := chain.events ++ lockEvents config (chain.height + 1) notice } := by
  dsimp only [processNotification] at done
  split at done
  · rename_i valid
    obtain ⟨⟨state, receipts⟩, observed, rfl⟩ := map_eq_some_iff.mp done
    exact ⟨valid, state, receipts, observed, rfl⟩
  · cases done

private theorem processNotification_validated
    (unobserved : observeLockNotification store64 config .commit (chain.height + 1) chain.state
      notice = some (chain.state, []))
    (silent : lockEvents config (chain.height + 1) notice = [])
    (done : processNotification config chain (.lock notice) = some next) :
    validateLockNotification config chain.state (chain.height + 1) notice = .success ∧
      next = chain := by
  obtain ⟨valid, state, receipts, observed, rfl⟩ := processNotification_lock done
  rw [unobserved] at observed
  cases observed
  rw [silent, append_nil, append_nil]
  exact ⟨valid, rfl⟩

private theorem lockDurationValidator_success {maxDuration duration : Nat}
    {failureResult : LockValidationResult} (fails : failureResult ≠ .success)
    (valid : lockDurationValidator maxDuration failureResult duration = .success) :
    duration ≠ 0 := by
  unfold lockDurationValidator at valid
  split at valid
  · rename_i bounds
    exact bounds.1
  · exact absurd valid fails

private theorem PaidOut.secretLock {notice : SecretLockNotification} (paid : PaidOut chain)
    (duration : notice.duration ≠ 0) (fits : chain.height + 1 + notice.duration < 2 ^ 64)
    (done : processNotification config chain (.lock (.secretLock notice)) = some next) :
    PaidOut next := by
  obtain ⟨-, state, receipts, observed, rfl⟩ := processNotification_lock done
  obtain ⟨⟨cache, written⟩, inserted, same⟩ := map_eq_some_iff.mp observed
  cases same
  obtain ⟨inactive, rfl, rfl⟩ := lockObserver_commit inserted
  refine paid.record rfl rfl ?_ (paid.secret.locked rfl ?_ inactive)
    (paid.hash.locked_other ?_)
  · simp [LockInfo.receipt, LockReceiptType.isBalanceCredit, settledBy]
  · simp only [createSecretLockInfo, store64_of_lt fits]
    omega
  · simp [ofSecretLockInfo, hashLockView]

private theorem PaidOut.hashLock {notice : HashLockNotification} (paid : PaidOut chain)
    (duration : notice.duration ≠ 0) (fits : chain.height + 1 + notice.duration < 2 ^ 64)
    (done : processNotification config chain (.lock (.hashLock notice)) = some next) :
    PaidOut next := by
  obtain ⟨-, state, receipts, observed, rfl⟩ := processNotification_lock done
  obtain ⟨⟨cache, written⟩, inserted, same⟩ := map_eq_some_iff.mp observed
  cases same
  obtain ⟨inactive, rfl, rfl⟩ := lockObserver_commit inserted
  refine paid.record rfl rfl ?_ (paid.secret.locked_other ?_)
    (paid.hash.locked rfl ?_ inactive)
  · simp [LockInfo.receipt, LockReceiptType.isBalanceCredit, settledBy]
  · simp [ofHashLockInfo, secretLockView]
  · simp only [createHashLockInfo, store64_of_lt fits]
    omega

variable {notice : ProofPublicationNotification}

private theorem PaidOut.proofPublication (paid : PaidOut chain)
    (done : processNotification config chain (.lock (.proofPublication notice)) =
      some next) : PaidOut next := by
  obtain ⟨valid, state, receipts, observed, rfl⟩ := processNotification_lock done
  have active := proofValidator_success valid
  obtain ⟨⟨cache, accounts, written⟩, used, same⟩ := map_eq_some_iff.mp observed
  cases same
  obtain ⟨back, isBack, marked, rfl, -⟩ := lockStatusAccountBalanceObserver_commit rfl used
  obtain ⟨tracks, settled⟩ := paid.secret.used active isBack marked
  refine paid.record rfl rfl (.of_eq ?_) tracks (paid.hash.used_other (by decide))
  exact settled.symm

variable {transactionHash : Hash256}

private theorem PaidOut.transaction {transactionType : TransactionType} (paid : PaidOut chain)
    (done : processNotification config chain
      (.lock (.transaction transactionHash transactionType)) = some next) : PaidOut next := by
  cases transactionType with
  | other =>
    obtain ⟨-, rfl⟩ := processNotification_validated rfl rfl done
    exact paid
  | aggregateBonded =>
    obtain ⟨valid, state, receipts, observed, rfl⟩ := processNotification_lock done
    have active := aggregateHashPresentValidator_success valid
    obtain ⟨⟨cache, accounts, written⟩, used, same⟩ := map_eq_some_iff.mp observed
    cases same
    obtain ⟨back, isBack, marked, rfl, -⟩ := lockStatusAccountBalanceObserver_commit rfl used
    obtain ⟨tracks, settled⟩ := paid.hash.used active isBack marked
    refine paid.record rfl rfl (.of_eq ?_) (paid.secret.used_other (by decide)) tracks
    exact settled.symm

private theorem height_processNotification {notice : PublishedNotification}
    (done : processNotification config chain notice = some next) :
    next.height = chain.height := by
  cases notice with
  | lock notice =>
    obtain ⟨-, state, receipts, -, rfl⟩ := processNotification_lock done
    rfl
  | other accountStateCache =>
    cases done
    rfl

private theorem PaidOut.body {body : LockTransactionBody} (paid : PaidOut chain)
    (fits : ∀ notice ∈ body.publish, EndHeightFits (chain.height + 1) notice)
    (done : body.publish.foldlM (processNotification config) chain = some next) :
    PaidOut next := by
  cases body
  all_goals
    simp only [publish, foldlM_cons, foldlM_nil,
      Option.bind_eq_bind, Option.bind_eq_some_iff, Option.pure_def, Option.some.injEq] at done
  case secretLock notice =>
    obtain ⟨first, durationDone, second, algorithmDone, third, locked, rfl⟩ := done
    obtain ⟨durationValid, rfl⟩ := processNotification_validated rfl rfl durationDone
    obtain ⟨-, rfl⟩ := processNotification_validated rfl rfl algorithmDone
    exact paid.secretLock (lockDurationValidator_success (by decide) durationValid)
      (fits (.lock (.secretLock notice)) (by simp [publish])) locked
  case secretProof notice proof =>
    obtain ⟨first, algorithmDone, second, secretDone, third, published, rfl⟩ := done
    obtain ⟨-, rfl⟩ := processNotification_validated rfl rfl algorithmDone
    obtain ⟨-, rfl⟩ := processNotification_validated rfl rfl secretDone
    exact paid.proofPublication published
  case hashLock notice =>
    obtain ⟨first, durationDone, second, tokenDone, third, locked, rfl⟩ := done
    obtain ⟨durationValid, rfl⟩ := processNotification_validated rfl rfl durationDone
    obtain ⟨-, rfl⟩ := processNotification_validated rfl rfl tokenDone
    exact paid.hashLock (lockDurationValidator_success (by decide) durationValid)
      (fits (.lock (.hashLock notice)) (by simp [publish])) locked
  case other accountStateCache =>
    obtain ⟨only, replaced, rfl⟩ := done
    cases replaced
    exact ⟨paid.credits_perm, paid.secret, paid.hash⟩

private theorem height_foldlM_processNotification {notifications : List PublishedNotification}
    (done : notifications.foldlM (processNotification config) chain = some next) :
    next.height = chain.height := by
  induction notifications generalizing chain with
  | nil =>
    cases done
    rfl
  | cons notice rest ih =>
    obtain ⟨middle, first, last⟩ := bind_eq_some_iff.mp done
    exact (ih last).trans (height_processNotification first)

private theorem PaidOut.transactions {block : LockBlock} (paid : PaidOut chain)
    (fits : ∀ notice ∈ block.published, EndHeightFits (chain.height + 1) notice)
    (done : processTransactions config block chain = some next) :
    PaidOut next ∧ next.height = chain.height := by
  refine PartialAction.foldlM_flatMap_preserves
    (P := fun current => PaidOut current ∧ current.height = chain.height) ?_ ⟨paid, rfl⟩ done
  rintro transaction mem current following ⟨paidBefore, sameHeight⟩ processed
  refine ⟨?_, (height_foldlM_processNotification processed).trans sameHeight⟩
  obtain ⟨started, transactionDone, bodiesDone⟩ := bind_eq_some_iff.mp processed
  have startedHeight := (height_processNotification transactionDone).trans sameHeight
  refine (PartialAction.foldlM_flatMap_preserves
    (P := fun current => PaidOut current ∧ current.height = chain.height) ?_
    ⟨paidBefore.transaction transactionDone, startedHeight⟩ bodiesDone).1
  rintro body bodyMember before after ⟨paidBody, sameBody⟩ bodyDone
  refine ⟨paidBody.body (fun notice published => ?_) bodyDone,
    (height_foldlM_processNotification bodyDone).trans sameBody⟩
  rw [sameBody]
  refine fits notice (mem_flatMap.mpr ⟨transaction, mem, ?_⟩)
  exact mem_cons_of_mem _ (mem_flatMap.mpr ⟨body, bodyMember, published⟩)

end Notifications

section Blocks
variable {config : LockConfiguration} {chain next : LockChain}

private theorem filterMap_settledBy_ended (pending : List IndividualLock) (height : Nat)
    (harvester : Address) :
    pending.filterMap (settledBy · (.ended height harvester)) =
      (pending.filter fun lock => decide (lock.endHeight = height)).map
        (expired · height harvester) := by
  simp only [eq_comm (b := height)]
  exact filterMap_ite (fun lock : IndividualLock => height = lock.endHeight) _ pending

private theorem Tracks.expired_perm {X : Type} [LockData X] {view : LockView X}
    {cache : LockInfoCache X} {pending : List IndividualLock} {last : Nat}
    (tracks : Tracks view cache pending last) (safe : ExpirySafe cache (last + 1))
    (identifier : Hash256) : (((cache.processUnusedExpiredLocks (last + 1)).map view.toLock).filter
        (under view.kind identifier)).Perm
      ((pending.filter fun lock => decide (lock.endHeight = last + 1)).filter
        (under view.kind identifier)) := by
  have handed := ((tracks identifier).pending_perm).filter
    fun lock => decide (lock.endHeight = last + 1)
  rw [filter_map] at handed
  simp only [Function.comp_def, view.endHeight_toLock] at handed
  rw [← tracks.filter_expired safe identifier] at handed
  rw [filter_map, filter_filter]
  rw [filter_filter] at handed
  simp only [Function.comp_def, under, view.kind_toLock, view.identifier_toLock,
    beq_self_eq_true, Bool.true_and, Bool.and_comm] at handed ⊢
  exact handed.symm

private theorem filter_under_other {X : Type} [LockData X] (view : LockView X)
    (lockInfos : List (LockInfo X)) {k : LockKind} (identifier : Hash256) (other : k ≠ view.kind) :
    (lockInfos.map view.toLock).filter (under k identifier) = [] := by
  rw [filter_eq_nil_iff]
  intro lock mem
  obtain ⟨lockInfo, -, rfl⟩ := mem_map.mp mem
  simp [under, view.kind_toLock, Ne.symm other]

def LockChain.payee (chain : LockChain) (harvester : Address) : Address :=
  (chain.state.accountStateCache.forwardedAddress harvester).getD harvester

/-- The receipts of the end of a block: one for each lock that the caches hand over. -/
def LockChain.expiryReceipts (chain : LockChain) (harvester : Address) : List LockReceipt :=
  let height := chain.height + 1
  let secretLocks := chain.state.secretLockInfoCache.processUnusedExpiredLocks height
  let hashLocks := chain.state.hashLockInfoCache.processUnusedExpiredLocks height
  (secretLocks.map secretLockView.toLock ++ hashLocks.map hashLockView.toLock).map
    (expired · height (chain.payee harvester))

private theorem processBlockNotification_eq_some {harvester : Address}
    (done : processBlockNotification harvester chain = some next) :
    ∃ accountStateCache,
      creditReceipts chain.state.accountStateCache (chain.expiryReceipts harvester) =
        some accountStateCache ∧
      next = {
        height := chain.height + 1
        state := { chain.state with accountStateCache }
        receipts := chain.receipts ++ chain.expiryReceipts harvester
        events := chain.events ++ [.ended (chain.height + 1) (chain.payee harvester)] } := by
  dsimp only [processBlockNotification] at done
  simp only [Option.bind_eq_bind, Option.bind_eq_some_iff, Option.pure_def,
    Option.some.injEq] at done
  obtain ⟨⟨secretState, secretReceipts⟩, secretDone, ⟨hashState, hashReceipts⟩, hashDone, rfl⟩ :=
    done
  obtain ⟨⟨secretAccounts, secretWritten⟩, secretPaid, same⟩ := Option.map_eq_some_iff.mp secretDone
  cases same
  obtain ⟨⟨hashAccounts, hashWritten⟩, hashPaid, same⟩ := map_eq_some_iff.mp hashDone
  cases same
  obtain ⟨rfl, secretCredited, kept⟩ := payOutExpired_commit
    (fun lockInfo => lockInfo.ownerAddress) rfl
    (fun _ _ _ _ targeted => (some.inj targeted).symm) secretPaid
  obtain ⟨rfl, hashCredited, -⟩ := payOutExpired_commit
    (fun _ => chain.payee harvester) rfl
    (fun current same _ address targeted => by
      rw [LockChain.payee, ← kept, ← same, targeted, Option.getD_some]) hashPaid
  have written : chain.expiryReceipts harvester =
      (chain.state.secretLockInfoCache.processUnusedExpiredLocks (chain.height + 1)).map
        (fun lockInfo =>
          lockInfo.receipt (chain.height + 1) .lockSecretExpired lockInfo.ownerAddress) ++
      (chain.state.hashLockInfoCache.processUnusedExpiredLocks (chain.height + 1)).map
        (fun lockInfo =>
          lockInfo.receipt (chain.height + 1) .lockHashExpired (chain.payee harvester)) := by
    rw [LockChain.expiryReceipts, map_append, map_map, map_map]
    rfl
  refine ⟨hashAccounts, ?_, ?_⟩
  · rw [written, creditReceipts_append, secretCredited]
    exact hashCredited
  · rw [written, nil_append, nil_append, append_assoc]
    rfl

section
variable (paid : PaidOut chain)
include paid

private theorem PaidOut.blockNotification {harvester : Address}
    (secretSafe : ExpirySafe chain.state.secretLockInfoCache (chain.height + 1))
    (hashSafe : ExpirySafe chain.state.hashLockInfoCache (chain.height + 1))
    (done : processBlockNotification harvester chain = some next) : PaidOut next := by
  obtain ⟨accounts, -, rfl⟩ := processBlockNotification_eq_some done
  refine paid.record rfl rfl ?_ (paid.secret.ended _) (paid.hash.ended _)
  have allCredits : ∀ receipt ∈ chain.expiryReceipts harvester,
      receipt.receiptType.isBalanceCredit = true := by
    intro receipt mem
    obtain ⟨lock, -, rfl⟩ := mem_map.mp mem
    unfold expired
    cases lock.kind <;> rfl
  rw [filter_eq_self.mpr allCredits, filterMap_settledBy_ended]
  refine List.Perm.map _ (perm_of_filter_key (fun lock => (lock.kind, lock.identifier)) ?_)
  rintro ⟨kind, identifier⟩
  have asUnder : (fun lock : IndividualLock =>
      decide ((lock.kind, lock.identifier) = (kind, identifier))) = under kind identifier := by
    funext lock
    rw [Bool.eq_iff_iff, decide_eq_true_iff, Prod.mk.injEq]
    simp [under]
  rw [asUnder, filter_append]
  cases kind with
  | secret =>
    have noHash := filter_under_other hashLockView
      (chain.state.hashLockInfoCache.processUnusedExpiredLocks (chain.height + 1))
      (k := .secret) identifier (by decide)
    rw [noHash, append_nil]
    exact paid.secret.expired_perm secretSafe identifier
  | hash =>
    have noSecret := filter_under_other secretLockView
      (chain.state.secretLockInfoCache.processUnusedExpiredLocks (chain.height + 1))
      (k := .hash) identifier (by decide)
    rw [noSecret, nil_append]
    exact paid.hash.expired_perm hashSafe identifier

private theorem PaidOut.step {step : LockStep} (safe : StepSafe config chain step)
    (done : processStep config chain step = some next) : PaidOut next := by
  cases step with
  | block block =>
    obtain ⟨fits, expirySafe⟩ := safe
    obtain ⟨processed, transactionsDone, blockDone⟩ := bind_eq_some_iff.mp done
    obtain ⟨paidProcessed, sameHeight⟩ := paid.transactions fits transactionsDone
    obtain ⟨secretSafe, hashSafe⟩ := expirySafe processed transactionsDone
    rw [← sameHeight] at secretSafe hashSafe
    exact paidProcessed.blockNotification secretSafe hashSafe blockDone
  | prune height =>
    cases done
    exact ⟨paid.credits_perm, paid.secret.prune safe.1, paid.hash.prune safe.2⟩

private theorem PaidOut.steps {steps : List LockStep} (safe : SafeAlong config steps chain)
    (done : processSteps config steps chain = some next) : PaidOut next := by
  induction steps generalizing chain with
  | nil =>
    cases done
    exact paid
  | cons step rest ih =>
    obtain ⟨stepSafe, restSafe⟩ := safe
    obtain ⟨middle, first, last⟩ := bind_eq_some_iff.mp done
    exact ih (paid.step stepSafe first) (restSafe middle first) last

private theorem PaidOut.not_pending {lock : IndividualLock}
    (ended : lock.endHeight ≤ chain.height) : lock ∉ chain.ledger.pending := by
  intro mem
  have openLater : ∀ {X : Type} [LockData X] {view : LockView X} {cache : LockInfoCache X},
      Tracks view cache chain.ledger.pending chain.height → lock.kind = view.kind → False := by
    intro X _ view cache tracks ofKind
    have under : lock ∈ chain.ledger.pending.filter
        (under view.kind lock.identifier) :=
      mem_filter.mpr ⟨mem, by simp [under, ofKind]⟩
    obtain ⟨lockInfo, held, rfl⟩ :=
      mem_map.mp ((tracks lock.identifier).pending_perm.mem_iff.mp under)
    have later := (LockInfo.isPending_iff.mp (mem_filter.mp held).2).2
    rw [view.endHeight_toLock] at ended
    omega
  cases ofKind : lock.kind with
  | secret => exact openLater paid.secret ofKind
  | hash => exact openLater paid.hash ofKind

end

end Blocks

/-- The balances that lock notifications and the ends of blocks change are those of the credits
in the receipts they write. -/
def ReceiptsAreCredits (config : LockConfiguration) : Prop :=
  (∀ notice before after,
    processNotification config before (.lock notice) = some after →
    ∃ receipts, after.receipts = before.receipts ++ receipts ∧
      creditReceipts before.state.accountStateCache receipts = some after.state.accountStateCache) ∧
  ∀ harvester before after, processBlockNotification harvester before = some after →
    ∃ receipts, after.receipts = before.receipts ++ receipts ∧
      creditReceipts before.state.accountStateCache receipts = some after.state.accountStateCache

private theorem creditReceipts_observeLockNotification {config : LockConfiguration} {height : Nat}
    {state after : LockState} {notice : LockNotification}
    (done : observeLockNotification store64 config .commit height state notice =
      some (after, receipts)) :
    creditReceipts state.accountStateCache receipts = some after.accountStateCache := by
  cases notice with
  | secretLock notice | hashLock notice =>
    obtain ⟨⟨cache, written⟩, inserted, same⟩ := map_eq_some_iff.mp done
    cases same
    obtain ⟨-, rfl, rfl⟩ := lockObserver_commit inserted
    rfl
  | proofPublication notice =>
    obtain ⟨⟨cache, accounts, written⟩, used, same⟩ := map_eq_some_iff.mp done
    cases same
    obtain ⟨-, -, -, -, credited⟩ := lockStatusAccountBalanceObserver_commit rfl used
    exact credited
  | transaction transactionHash transactionType =>
    cases transactionType with
    | other =>
      cases done
      rfl
    | aggregateBonded =>
      obtain ⟨⟨cache, accounts, written⟩, used, same⟩ := map_eq_some_iff.mp done
      cases same
      obtain ⟨-, -, -, -, credited⟩ := lockStatusAccountBalanceObserver_commit rfl used
      exact credited
  | secretLockDuration _ | secretLockHashAlgorithm _ | proofSecret _ _ _ | hashLockDuration _
  | hashLockToken _ _ =>
    cases done
    rfl

private theorem receipts_are_credits (config : LockConfiguration) : ReceiptsAreCredits config := by
  constructor
  · intro notice before after done
    obtain ⟨-, state, receipts, observed, rfl⟩ := processNotification_lock done
    exact ⟨receipts, rfl, creditReceipts_observeLockNotification observed⟩
  · intro harvester before after done
    obtain ⟨accounts, credited, rfl⟩ := processBlockNotification_eq_some done
    exact ⟨_, rfl, credited⟩

/-- In a run of safe steps the credits are exactly one for each lock that was used before its end
height or has reached it, at the height and to the account that the lock's own terms say. -/
theorem locks_pay_out_exactly_once {config : LockConfiguration} {steps : List LockStep}
    {accountStateCache : AccountStateCacheDelta} {chain : LockChain}
    (safe : SafeAlong config steps (.genesis accountStateCache))
    (done : processSteps config steps (.genesis accountStateCache) = some chain) :
    ReceiptsAreCredits config ∧
    chain.credits.Perm (due lockRules chain.events) ∧
    ∀ before lock rest, chain.events = before ++ .locked lock :: rest →
      lock.endHeight ≤ chain.height → (outcome lockRules lock rest).isSome := by
  have paid := (paidOut_genesis accountStateCache).steps safe done
  refine ⟨receipts_are_credits config, ?_, ?_⟩
  · exact paid.credits_perm.trans (settled_perm_due lockRules chain.events)
  · intro before lock rest events ended
    have closed := paid.not_pending ended
    rw [LockChain.ledger, events] at closed
    exact outcome_isSome_of_not_pending lockRules rfl closed

namespace Example

/-- Every proof is its own secret, and the identifier of a secret lock is its secret. -/
def config : LockConfiguration where
  maxSecretLockDuration := 100
  minProofSize := 0
  maxProofSize := 10
  maxHashLockDuration := 100
  lockedFundsPerAggregate := 10
  currencyTokenId := 1
  calculateHash _ proof := BitVec.ofNat 256 proof.length
  calculateSecretLockInfoHash secret _ := secret

def owner : Address := 7

def recipient : Address := 8

def harvester : Address := 9

def accounts : AccountStateCacheDelta :=
  [owner, recipient, harvester].foldl (·.addAccount · 1) .empty

def lockTransaction (duration : Nat) : LockTransaction :=
  ⟨0, .other, [.secretLock ⟨owner, 1, 50, duration, 0, 1, recipient⟩]⟩

def proofTransaction : LockTransaction := ⟨0, .other, [.secretProof ⟨0, 1, recipient⟩ [5]]⟩

def bondTransaction (hash : Hash256) (duration : Nat) : LockTransaction :=
  ⟨0, .other, [.hashLock ⟨owner, 1, 10, duration, hash⟩]⟩

def block (transactions : List LockTransaction) : LockStep := .block ⟨harvester, transactions⟩

/-- A lock until height 4 is used at height 2; its identifier is locked again until height 6. -/
def relockedSteps : List LockStep :=
  [block [lockTransaction 3], block [proofTransaction], block [lockTransaction 3], block [],
    block [], block []]

/-- Locks of both kinds are used or expire and are pruned, and one is made again afterwards. -/
def safeSteps : List LockStep :=
  [block [lockTransaction 2, bondTransaction 3 1, bondTransaction 4 2],
    block [⟨4, .aggregateBonded, []⟩, proofTransaction], block [], .prune 3,
    block [lockTransaction 1], block []]

end Example

/-- The second lock, made at height 3 with end height 6, is paid out at height 4, where the first
one would have ended, and again at height 6. -/
theorem relocked_secret_pays_out_twice :
    ∃ chain, processSteps Example.config Example.relockedSteps (.genesis Example.accounts) =
        some chain ∧
      chain.credits.map (fun receipt => (receipt.height, receipt.endHeight, receipt.amount)) =
        [(2, 4, 50), (4, 6, 50), (6, 6, 50)] ∧
      ¬ chain.credits.Perm (due lockRules chain.events) := by
  have counted : (processSteps Example.config Example.relockedSteps
      (.genesis Example.accounts)).map (fun chain =>
        (chain.credits.map fun receipt => (receipt.height, receipt.endHeight, receipt.amount),
          (due lockRules chain.events).length)) =
      some ([(2, 4, 50), (4, 6, 50), (6, 6, 50)], 2) := by decide +kernel
  obtain ⟨chain, done, same⟩ := Option.map_eq_some_iff.mp counted
  obtain ⟨credits, dueLength⟩ := Prod.mk.inj same
  refine ⟨chain, done, credits, fun perm => ?_⟩
  have lengths := congrArg length credits
  rw [length_map, perm.length_eq, dueLength] at lengths
  cases lengths

theorem locks_pay_out_exactly_once_of_safeSteps :
    ∃ chain, processSteps Example.config Example.safeSteps (.genesis Example.accounts) =
        some chain ∧ chain.credits.length = 4 ∧
      chain.credits.Perm (due lockRules chain.events) := by
  have counted : (processSteps Example.config Example.safeSteps
      (.genesis Example.accounts)).map (fun chain => chain.credits.length) = some 4 := by
    decide +kernel
  obtain ⟨chain, done, credited⟩ := Option.map_eq_some_iff.mp counted
  exact ⟨chain, done, credited, (locks_pay_out_exactly_once (by decide +kernel) done).2.1⟩

end BitxorCore.Lock
