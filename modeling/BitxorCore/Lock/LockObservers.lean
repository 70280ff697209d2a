/- GID: Lock/LockObservers
   anchors: [plugins/txes/lock_shared, plugins/txes/lock_secret, plugins/txes/lock_hash]
   digest: Lock notifications are validated, then create, use or expire locks. -/

import BitxorCore.Cache.IdentifierGroupCacheUtils
import BitxorCore.Chain.BlockExecutor

set_option autoImplicit false
set_option relaxedAutoImplicit false

namespace BitxorCore.Lock
open Cache Library.FiniteMap State

inductive LockStatus where
  | unused
  | used
  deriving DecidableEq, Repr

/-- A lock. What a kind of lock adds to the shared fields is its `data`. -/
structure LockInfo (X : Type) where
  ownerAddress : Address
  tokenId : TokenId
  amount : Nat
  endHeight : Nat
  status : LockStatus
  data : X
  deriving DecidableEq

/-- The identifier of a lock is determined by what its kind adds. -/
class LockData (X : Type) where
  identifier : X → Hash256

variable {X : Type}

namespace LockInfo

def identifier [LockData X] (lockInfo : LockInfo X) : Hash256 := LockData.identifier lockInfo.data

def isActive (lockInfo : LockInfo X) (height : Nat) : Bool :=
  decide (height < lockInfo.endHeight) && lockInfo.status == .unused

/-- Unused, and not yet expired when the blocks up to a height have been processed. -/
def isPending (height : Nat) (lockInfo : LockInfo X) : Bool :=
  lockInfo.status == .unused && decide (height < lockInfo.endHeight)

theorem isActive_eq_isPending (lockInfo : LockInfo X) (height : Nat) :
    lockInfo.isActive height = lockInfo.isPending height :=
  Bool.and_comm _ _

end LockInfo

abbrev LockInfoHistory (X : Type) := List (LockInfo X)

namespace LockInfoHistory

variable (history : LockInfoHistory X)

def isActive (height : Nat) : Bool :=
  match history with
  | [] => false
  | back :: _ => back.isActive height

def unusedBack : Option (LockInfo X) :=
  history.head?.filter fun back => back.status == .unused

end LockInfoHistory

/-- Histories by identifier, and the identifiers of the locks that end at each height. -/
structure LockInfoCache (X : Type) where
  histories : Map Hash256 (LockInfoHistory X)
  heightGrouping : GroupedSet Nat Hash256

namespace LockInfoCache

def empty : LockInfoCache X := ⟨∅, ∅⟩

variable (cache : LockInfoCache X) (identifier : Hash256)

def contains : Bool :=
  (cache.histories.lookup identifier).isSome

variable (height : Nat)

def isActive : Bool :=
  ((cache.histories.lookup identifier).map (LockInfoHistory.isActive · height)).getD false

def history : LockInfoHistory X :=
  (cache.histories.lookup identifier).getD []

def back : Option (LockInfo X) :=
  (cache.history identifier).head?

def insert [LockData X] (cache : LockInfoCache X) (lockInfo : LockInfo X) : LockInfoCache X where
  histories := cache.histories.insert lockInfo.identifier
    (lockInfo :: cache.history lockInfo.identifier)
  heightGrouping :=
    addIdentifierWithGroup cache.heightGrouping lockInfo.endHeight lockInfo.identifier

/-- Removes the newest lock of an identifier, and the identifier from the group of its end. -/
def remove : Option (LockInfoCache X) :=
  match cache.history identifier with
  | [] => none
  | back :: rest => some {
      histories := if rest.isEmpty then cache.histories.erase identifier
        else cache.histories.insert identifier rest
      heightGrouping := removeIdentifierWithGroup cache.heightGrouping back.endHeight identifier }

def setBackStatus (status : LockStatus) : Option (LockInfoCache X) :=
  match cache.history identifier with
  | [] => none
  | back :: rest => some { cache with
      histories := cache.histories.insert identifier ({ back with status } :: rest) }

/-- The locks handed to the consumer at a height: of each identifier in the group of the height,
the newest lock, if it is unused. -/
def processUnusedExpiredLocks : List (LockInfo X) :=
  (forEachIdentifierWithGroup cache.histories cache.heightGrouping height).filterMap
    LockInfoHistory.unusedBack

def prune : LockInfoCache X :=
  let pruned := removeAllIdentifiersWithGroup cache.histories cache.heightGrouping height
  ⟨pruned.1, pruned.2⟩

/-- The identifiers of locks that end at a height, as far as the cache has recorded them. -/
def ending : List Hash256 :=
  cache.heightGrouping.identifiers height

variable (cache : LockInfoCache X) (height : Nat)

theorem nodup_ending : (cache.ending height).Nodup := cache.heightGrouping.nodup_identifiers height

variable (identifier : Hash256)

theorem isActive_eq :
    cache.isActive identifier height = (cache.history identifier).isActive height := by
  unfold isActive history
  cases cache.histories.lookup identifier <;> rfl

theorem history_insert [LockData X] (lockInfo : LockInfo X) (identifier : Hash256) :
    (cache.insert lockInfo).history identifier =
      if identifier = lockInfo.identifier then lockInfo :: cache.history identifier
      else cache.history identifier := by
  unfold insert history
  rw [lookup_insert_apply]
  split
  · rename_i here
    subst here
    rfl
  · rfl

theorem history_setBackStatus {cache after : LockInfoCache X} {key : Hash256}
    {status : LockStatus} (done : cache.setBackStatus key status = some after) :
    ∃ back rest, cache.history key = back :: rest ∧ (∀ identifier, after.history identifier =
        if identifier = key then { back with status } :: rest else cache.history identifier) ∧
      ∀ height, after.ending height = cache.ending height := by
  unfold setBackStatus at done
  split at done
  · cases done
  · rename_i back rest found
    cases done
    refine ⟨back, rest, found, fun identifier => ?_, fun _ => rfl⟩
    unfold history
    rw [lookup_insert_apply]
    by_cases here : identifier = key <;> simp [here]

theorem history_prune : (cache.prune height).history identifier =
      if identifier ∈ cache.ending height then [] else cache.history identifier := by
  unfold prune history ending
  rw [lookup_removeAll]
  split <;> rfl

theorem ending_prune (other : Nat) :
    (cache.prune height).ending other = if other = height then [] else cache.ending other :=
  GroupedSet.identifiers_erase _ _ _

theorem processUnusedExpiredLocks_eq : cache.processUnusedExpiredLocks height =
      (cache.ending height).filterMap fun identifier => (cache.history identifier).unusedBack := by
  unfold processUnusedExpiredLocks forEachIdentifierWithGroup ending history
  rw [List.filterMap_filterMap]
  congr 1
  funext identifier
  cases cache.histories.lookup identifier <;> rfl

end LockInfoCache
open Chain

/-- Hash algorithms are bytes; values up to `opHash256` are supported. -/
abbrev LockHashAlgorithm := BitVec 8

def opHash256 : LockHashAlgorithm := 2

structure SecretLockData where
  hashAlgorithm : LockHashAlgorithm
  secret : Hash256
  recipientAddress : Address
  compositeHash : Hash256
  deriving DecidableEq

instance : LockData SecretLockData := ⟨SecretLockData.compositeHash⟩

structure HashLockData where
  hash : Hash256
  deriving DecidableEq

instance : LockData HashLockData := ⟨HashLockData.hash⟩

abbrev SecretLockInfo := LockInfo SecretLockData

abbrev HashLockInfo := LockInfo HashLockData

/-- Settings of the lock plugins, and the hash functions they use. -/
structure LockConfiguration where
  maxSecretLockDuration : Nat
  minProofSize : Nat
  maxProofSize : Nat
  maxHashLockDuration : Nat
  lockedFundsPerAggregate : Nat
  currencyTokenId : TokenId
  calculateHash : LockHashAlgorithm → List (BitVec 8) → Hash256
  calculateSecretLockInfoHash : Hash256 → Address → Hash256

/-! Aliases in notifications are resolved before they are observed or validated, in the same way
for both, so notifications carry resolved addresses and token ids. -/

structure SecretLockNotification where
  owner : Address
  tokenId : TokenId
  amount : Nat
  duration : Nat
  hashAlgorithm : LockHashAlgorithm
  secret : Hash256
  recipient : Address

structure ProofPublicationNotification where
  hashAlgorithm : LockHashAlgorithm
  secret : Hash256
  recipient : Address

structure HashLockNotification where
  owner : Address
  tokenId : TokenId
  amount : Nat
  duration : Nat
  hash : Hash256

inductive TransactionType where
  | aggregateBonded
  | other
  deriving DecidableEq, Repr

/-- The notifications the lock plugins validate or observe, apart from the block's. -/
inductive LockNotification where
  | secretLockDuration (duration : Nat)
  | secretLockHashAlgorithm (hashAlgorithm : LockHashAlgorithm)
  | secretLock (notice : SecretLockNotification)
  | proofSecret (hashAlgorithm : LockHashAlgorithm) (secret : Hash256) (proof : List (BitVec 8))
  | proofPublication (notice : ProofPublicationNotification)
  | hashLockDuration (duration : Nat)
  | hashLockToken (tokenId : TokenId) (amount : Nat)
  | hashLock (notice : HashLockNotification)
  | transaction (transactionHash : Hash256) (transactionType : TransactionType)

inductive LockReceiptType where
  | lockSecretCreated
  | lockSecretCompleted
  | lockSecretExpired
  | lockHashCreated
  | lockHashCompleted
  | lockHashExpired
  deriving DecidableEq, Repr

structure LockReceipt where
  receiptType : LockReceiptType
  height : Nat
  identifier : Hash256
  endHeight : Nat
  targetAddress : Address
  tokenId : TokenId
  amount : Nat
  deriving DecidableEq, Repr

structure LockState where
  accountStateCache : AccountStateCacheDelta
  secretLockInfoCache : LockInfoCache SecretLockData
  hashLockInfoCache : LockInfoCache HashLockData

inductive LockValidationResult where
  | success
  | failureLockSecretInvalidHashAlgorithm
  | failureLockSecretHashAlreadyExists
  | failureLockSecretProofSizeOutOfBounds
  | failureLockSecretSecretMismatch
  | failureLockSecretUnknownCompositeKey
  | failureLockSecretInactiveSecret
  | failureLockSecretHashAlgorithmMismatch
  | failureLockSecretInvalidDuration
  | failureLockHashInvalidTokenId
  | failureLockHashInvalidTokenAmount
  | failureLockHashHashAlreadyExists
  | failureLockHashUnknownHash
  | failureLockHashInactiveHash
  | failureLockHashInvalidDuration
  deriving DecidableEq, Repr

section Validators
variable (cfg : LockConfiguration) (state : LockState) (height : Nat)

/-- The shared duration check, with the failure of the plugin that uses it. -/
def lockDurationValidator (maxDuration : Nat) (failureResult : LockValidationResult)
    (duration : Nat) : LockValidationResult :=
  if duration ≠ 0 ∧ duration ≤ maxDuration then .success else failureResult

def secretLockDurationValidator : Nat → LockValidationResult :=
  lockDurationValidator cfg.maxSecretLockDuration .failureLockSecretInvalidDuration

def hashLockDurationValidator : Nat → LockValidationResult :=
  lockDurationValidator cfg.maxHashLockDuration .failureLockHashInvalidDuration

variable (hashAlgorithm : LockHashAlgorithm)

def secretLockHashAlgorithmValidator : LockValidationResult :=
  if hashAlgorithm ≤ opHash256 then .success else .failureLockSecretInvalidHashAlgorithm

def secretLockCacheUniqueValidator (notice : SecretLockNotification) : LockValidationResult :=
  let key := cfg.calculateSecretLockInfoHash notice.secret notice.recipient
  if state.secretLockInfoCache.isActive key height then .failureLockSecretHashAlreadyExists
  else .success

def proofSecretValidator (secret : Hash256)
    (proof : List (BitVec 8)) : LockValidationResult :=
  if opHash256 < hashAlgorithm then .failureLockSecretInvalidHashAlgorithm
  else if proof.length < cfg.minProofSize ∨ cfg.maxProofSize < proof.length then
    .failureLockSecretProofSizeOutOfBounds
  else if secret = cfg.calculateHash hashAlgorithm proof then .success
  else .failureLockSecretSecretMismatch

def proofValidator (notice : ProofPublicationNotification) : LockValidationResult :=
  let key := cfg.calculateSecretLockInfoHash notice.secret notice.recipient
  match state.secretLockInfoCache.back key with
  | none => .failureLockSecretUnknownCompositeKey
  | some lockInfo =>
    if ¬ state.secretLockInfoCache.isActive key height then .failureLockSecretInactiveSecret
    else if lockInfo.data.hashAlgorithm ≠ notice.hashAlgorithm then
      .failureLockSecretHashAlgorithmMismatch
    else .success

def hashLockTokenValidator (tokenId : TokenId) (amount : Nat) : LockValidationResult :=
  if cfg.lockedFundsPerAggregate ≠ amount then .failureLockHashInvalidTokenAmount
  else if cfg.currencyTokenId ≠ tokenId then .failureLockHashInvalidTokenId
  else .success

def hashLockCacheUniqueValidator (notice : HashLockNotification) : LockValidationResult :=
  if state.hashLockInfoCache.isActive notice.hash height then
    .failureLockHashHashAlreadyExists
  else .success

def aggregateHashPresentValidator (transactionHash : Hash256)
    (transactionType : TransactionType) : LockValidationResult :=
  if transactionType ≠ .aggregateBonded then .success
  else if ¬ state.hashLockInfoCache.contains transactionHash then .failureLockHashUnknownHash
  else if ¬ state.hashLockInfoCache.isActive transactionHash height then
    .failureLockHashInactiveHash
  else .success

def validateLockNotification : LockNotification → LockValidationResult
  | .secretLockDuration duration => secretLockDurationValidator cfg duration
  | .secretLockHashAlgorithm hashAlgorithm => secretLockHashAlgorithmValidator hashAlgorithm
  | .secretLock notice => secretLockCacheUniqueValidator cfg state height notice
  | .proofSecret hashAlgorithm secret proof =>
    proofSecretValidator cfg hashAlgorithm secret proof
  | .proofPublication notice => proofValidator cfg state height notice
  | .hashLockDuration duration => hashLockDurationValidator cfg duration
  | .hashLockToken tokenId amount => hashLockTokenValidator cfg tokenId amount
  | .hashLock notice => hashLockCacheUniqueValidator state height notice
  | .transaction transactionHash transactionType =>
    aggregateHashPresentValidator state height transactionHash transactionType

variable {cfg state height}

theorem proofValidator_success {notice : ProofPublicationNotification}
    (valid : proofValidator cfg state height notice = .success) :
    state.secretLockInfoCache.isActive
      (cfg.calculateSecretLockInfoHash notice.secret notice.recipient) height = true := by
  dsimp only [proofValidator] at valid
  split at valid
  · cases valid
  · split at valid
    · cases valid
    · rename_i active
      simpa using active

theorem aggregateHashPresentValidator_success {transactionHash : Hash256}
    (valid : aggregateHashPresentValidator state height transactionHash .aggregateBonded =
      .success) : state.hashLockInfoCache.isActive transactionHash height = true := by
  unfold aggregateHashPresentValidator at valid
  split at valid
  · contradiction
  · split at valid
    · cases valid
    · simp_all

end Validators

section Observers
variable (store : Nat → Nat) (cfg : LockConfiguration) (mode : NotifyMode) (height : Nat)
variable {X : Type} [LockData X]

/-- Credits an account with a locked amount on commit and takes it back on rollback. -/
def changeBalance (lockInfo : LockInfo X) (accountState : AccountState) : Option AccountState :=
  match mode with
  | .commit =>
    let balances :=
      AccountBalances.credit store accountState.balances lockInfo.tokenId lockInfo.amount
    some { accountState with balances }
  | .rollback =>
    (AccountBalances.debit accountState.balances lockInfo.tokenId lockInfo.amount).map
      fun balances => { accountState with balances }

variable (receiptType : LockReceiptType)

def lockReceipt (lockInfo : LockInfo X) (address : Address) : List LockReceipt :=
  match mode with
  | .commit => [⟨receiptType, height, lockInfo.identifier, lockInfo.endHeight, address,
      lockInfo.tokenId, lockInfo.amount⟩]
  | .rollback => []

def payOutExpired
    (target : AccountStateCacheDelta → LockInfo X → Option Address)
    (paid : AccountStateCacheDelta × List LockReceipt) (lockInfo : LockInfo X) :
    Option (AccountStateCacheDelta × List LockReceipt) := do
  let address ← target paid.1 lockInfo
  let accountStateCache ← paid.1.modify address (changeBalance store mode lockInfo)
  return (accountStateCache, paid.2 ++ lockReceipt mode height receiptType lockInfo address)

/-- Visits the unused locks that the cache reports as expired at the height. The source sorts the
receipts afterwards; here they keep the order of the visit. -/
def expiredLockInfoObserver
    (target : AccountStateCacheDelta → LockInfo X → Option Address)
    (lockInfoCache : LockInfoCache X) (accountStateCache : AccountStateCacheDelta) :
    Option (AccountStateCacheDelta × List LockReceipt) :=
  (lockInfoCache.processUnusedExpiredLocks height).foldlM
    (payOutExpired store mode height receiptType target) (accountStateCache, [])

/-- Marks the newest lock of a key as used and pays it out, or undoes both. -/
def lockStatusAccountBalanceObserver (key : Hash256)
    (destinationAccount : LockInfo X → Address) (lockInfoCache : LockInfoCache X)
    (accountStateCache : AccountStateCacheDelta) :
    Option (LockInfoCache X × AccountStateCacheDelta × List LockReceipt) := do
  let lockInfo ← lockInfoCache.back key
  let address := destinationAccount lockInfo
  let accounts ← accountStateCache.modify address (changeBalance store mode lockInfo)
  let status := match mode with
    | .commit => LockStatus.used
    | .rollback => LockStatus.unused
  let cache ← lockInfoCache.setBackStatus key status
  return (cache, accounts, lockReceipt mode height receiptType lockInfo address)

/-- Adds a lock that is not active yet on commit, removes the newest one on rollback. -/
def lockObserver (lockInfo : LockInfo X)
    (lockInfoCache : LockInfoCache X) : Option (LockInfoCache X × List LockReceipt) :=
  match mode with
  | .commit =>
    if lockInfoCache.isActive lockInfo.identifier height then none
    else some (lockInfoCache.insert lockInfo,
      lockReceipt .commit height receiptType lockInfo lockInfo.ownerAddress)
  | .rollback => (lockInfoCache.remove lockInfo.identifier).map fun cache => (cache, [])

variable (notice : SecretLockNotification)

/-- Heights are 64-bit, so the end height is the sum as stored. -/
def createSecretLockInfo : SecretLockInfo where
  ownerAddress := notice.owner
  tokenId := notice.tokenId
  amount := notice.amount
  endHeight := store64 (height + notice.duration)
  status := .unused
  data := {
    hashAlgorithm := notice.hashAlgorithm
    secret := notice.secret
    recipientAddress := notice.recipient
    compositeHash := cfg.calculateSecretLockInfoHash notice.secret notice.recipient }

def createHashLockInfo (notice : HashLockNotification) : HashLockInfo where
  ownerAddress := notice.owner
  tokenId := notice.tokenId
  amount := notice.amount
  endHeight := store64 (height + notice.duration)
  status := .unused
  data := { hash := notice.hash }

variable (state : LockState)

def secretLockObserver :
    Option (LockState × List LockReceipt) :=
  (lockObserver mode height .lockSecretCreated (createSecretLockInfo cfg height notice)
    state.secretLockInfoCache).map fun observed =>
      ({ state with secretLockInfoCache := observed.1 }, observed.2)

def hashLockObserver (notice : HashLockNotification) (state : LockState) :
    Option (LockState × List LockReceipt) :=
  (lockObserver mode height .lockHashCreated (createHashLockInfo height notice)
    state.hashLockInfoCache).map fun observed =>
      ({ state with hashLockInfoCache := observed.1 }, observed.2)

def proofObserver (notice : ProofPublicationNotification) (state : LockState) :
    Option (LockState × List LockReceipt) :=
  let key := cfg.calculateSecretLockInfoHash notice.secret notice.recipient
  (lockStatusAccountBalanceObserver store mode height .lockSecretCompleted key
    (fun lockInfo : SecretLockInfo => lockInfo.data.recipientAddress) state.secretLockInfoCache
    state.accountStateCache).map fun observed =>
      ({ state with secretLockInfoCache := observed.1, accountStateCache := observed.2.1 },
        observed.2.2)

def completedAggregateObserver (transactionHash : Hash256) (transactionType : TransactionType)
    (state : LockState) : Option (LockState × List LockReceipt) :=
  if transactionType ≠ .aggregateBonded then some (state, [])
  else
    (lockStatusAccountBalanceObserver store mode height .lockHashCompleted transactionHash
      (fun lockInfo : HashLockInfo => lockInfo.ownerAddress) state.hashLockInfoCache
      state.accountStateCache).map fun observed =>
        ({ state with hashLockInfoCache := observed.1, accountStateCache := observed.2.1 },
          observed.2.2)

/-- Notifications on the validator channel only are not observed. -/
def observeLockNotification :
    LockNotification → Option (LockState × List LockReceipt)
  | .secretLock notice => secretLockObserver cfg mode height notice state
  | .proofPublication notice => proofObserver store cfg mode height notice state
  | .hashLock notice => hashLockObserver mode height notice state
  | .transaction transactionHash transactionType =>
    completedAggregateObserver store mode height transactionHash transactionType state
  | .secretLockDuration _ => some (state, [])
  | .secretLockHashAlgorithm _ => some (state, [])
  | .proofSecret _ _ _ => some (state, [])
  | .hashLockDuration _ => some (state, [])
  | .hashLockToken _ _ => some (state, [])

def expiredSecretLockInfoObserver : Option (LockState × List LockReceipt) :=
  (expiredLockInfoObserver store mode height .lockSecretExpired
    (fun _ lockInfo => some lockInfo.ownerAddress) state.secretLockInfoCache
    state.accountStateCache).map fun observed =>
      ({ state with accountStateCache := observed.1 }, observed.2)

/-- Expired hash locks go to the harvester of the block, or to its main account. -/
def expiredHashLockInfoObserver (harvester : Address) (state : LockState) :
    Option (LockState × List LockReceipt) :=
  (expiredLockInfoObserver store mode height .lockHashExpired
    (fun accountStateCache _ => accountStateCache.forwardedAddress harvester)
    state.hashLockInfoCache state.accountStateCache).map fun observed =>
      ({ state with accountStateCache := observed.1 }, observed.2)

end Observers

end BitxorCore.Lock
