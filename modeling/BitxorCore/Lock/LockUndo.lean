/- GID: Lock/LockUndo
   anchors: [plugins/txes/lock_shared, plugins/txes/lock_secret, plugins/txes/lock_hash,
     src/bitxorcore/cache]
   digest: Undoing locks and uses in reverse restores all but identifiers of equal end height. -/

import BitxorCore.Lock.LockObservers

set_option autoImplicit false
set_option relaxedAutoImplicit false

namespace BitxorCore.Lock
open Cache Chain Library.FiniteMap State Option

inductive LockOperation (X : Type) where
  | insert (lockInfo : LockInfo X)
  | use (key : Hash256)

variable {X : Type} [LockData X]

namespace LockInfoCache

/-- The operation as committed at a height. A lock is inserted unused, where no lock of its
identifier is active, and the lock that is used has to be active. -/
def perform (height : Nat) (op : LockOperation X) (cache : LockInfoCache X) :
    Option (LockInfoCache X) :=
  match op with
  | .insert lockInfo =>
    if cache.isActive lockInfo.identifier height ∨ lockInfo.status ≠ .unused then none
    else some (cache.insert lockInfo)
  | .use key => if cache.isActive key height then cache.setBackStatus key .used else none

def revert (op : LockOperation X) (cache : LockInfoCache X) : Option (LockInfoCache X) :=
  match op with
  | .insert lockInfo => cache.remove lockInfo.identifier
  | .use key => cache.setBackStatus key .unused

def act (mode : NotifyMode) (height : Nat) (op : LockOperation X) (cache : LockInfoCache X) :
    Option (LockInfoCache X) :=
  match mode with
  | .commit => cache.perform height op
  | .rollback => cache.revert op

/-- Performs operations in order, each at the height of its block. -/
def performAll : List (Nat × LockOperation X) → LockInfoCache X → Option (LockInfoCache X)
  | [], cache => some cache
  | (height, op) :: rest, cache =>
    (cache.perform height op).bind (performAll rest)

def revertAll : List (Nat × LockOperation X) → LockInfoCache X → Option (LockInfoCache X)
  | [], cache => some cache
  | (_, op) :: rest, cache => (revertAll rest cache).bind (revert op)

/-- The caches that operations, their undoing and pruning lead to. -/
inductive Reachable : LockInfoCache X → Prop
  | empty : Reachable .empty
  | perform {cache next : LockInfoCache X} {height : Nat} {op : LockOperation X}
      (before : Reachable cache) (done : cache.perform height op = some next) :
      Reachable next
  | revert {cache next : LockInfoCache X} {op : LockOperation X}
      (before : Reachable cache) (done : cache.revert op = some next) : Reachable next
  | prune {cache : LockInfoCache X} (before : Reachable cache) (height : Nat) :
      Reachable (cache.prune height)

end LockInfoCache

section Notifications
variable (cfg : LockConfiguration) (height : Nat)

/-- The operation a notification stands for in the cache of secret locks. -/
def secretLockOperation : LockNotification → Option (LockOperation SecretLockData)
  | .secretLock notice => some (.insert (createSecretLockInfo cfg height notice))
  | .proofPublication notice =>
    some (.use (cfg.calculateSecretLockInfoHash notice.secret notice.recipient))
  | _ => none

/-- The operation a notification stands for in the cache of hash locks. -/
def hashLockOperation : LockNotification → Option (LockOperation HashLockData)
  | .hashLock notice => some (.insert (createHashLockInfo height notice))
  | .transaction transactionHash transactionType =>
    if transactionType = .aggregateBonded then some (.use transactionHash) else none
  | _ => none

variable {cfg height} {store : Nat → Nat} {state next : LockState} {receipts : List LockReceipt}

variable {receiptType : LockReceiptType} {mode : NotifyMode} {cache after : LockInfoCache X}

private theorem lockObserver_acts {lockInfo : LockInfo X} (unused : lockInfo.status = .unused)
    (done : lockObserver mode height receiptType lockInfo cache = some (after, receipts)) :
    cache.act mode height (.insert lockInfo) = some after := by
  cases mode with
  | commit =>
    simp only [lockObserver] at done
    split at done
    · cases done
    · rename_i inactive
      cases done
      simp [LockInfoCache.act, LockInfoCache.perform, inactive, unused]
  | rollback =>
    obtain ⟨removed, reverted, same⟩ := map_eq_some_iff.mp done
    cases same
    exact reverted

private theorem lockStatusAccountBalanceObserver_acts {key : Hash256}
    {destinationAccount : LockInfo X → Address} {accounts accountsAfter : AccountStateCacheDelta}
    (active : mode = .commit → cache.isActive key height)
    (done : lockStatusAccountBalanceObserver store mode height receiptType key destinationAccount
      cache accounts = some (after, accountsAfter, receipts)) :
    cache.act mode height (.use key) = some after := by
  obtain ⟨lockInfo, _, done⟩ := bind_eq_some_iff.mp done
  obtain ⟨credited, _, done⟩ := bind_eq_some_iff.mp done
  obtain ⟨changed, set, done⟩ := bind_eq_some_iff.mp done
  cases done
  cases mode with
  | commit => exact (if_pos (active rfl)).trans set
  | rollback => exact set

/-- On both lock caches, a notification that is accepted and committed performs the operation it
stands for, if any, and one that is rolled back reverts it. -/
theorem observed_acts {notice : LockNotification}
    (valid : mode = .commit → validateLockNotification cfg state height notice = .success)
    (done : observeLockNotification store cfg mode height state notice = some (next, receipts)) :
    (∀ op ∈ secretLockOperation cfg height notice,
        state.secretLockInfoCache.act mode height op = some next.secretLockInfoCache) ∧
      (secretLockOperation cfg height notice = none →
        next.secretLockInfoCache = state.secretLockInfoCache) ∧
      (∀ op ∈ hashLockOperation height notice,
        state.hashLockInfoCache.act mode height op = some next.hashLockInfoCache) ∧
      (hashLockOperation height notice = none →
        next.hashLockInfoCache = state.hashLockInfoCache) := by
  cases notice with
  | secretLock notice | hashLock notice =>
    obtain ⟨⟨after, written⟩, observed, same⟩ := map_eq_some_iff.mp done
    cases same
    have acted := lockObserver_acts rfl observed
    simp [secretLockOperation, hashLockOperation, acted]
  | proofPublication notice =>
    obtain ⟨⟨after, accounts, written⟩, observed, same⟩ := map_eq_some_iff.mp done
    cases same
    have acted := lockStatusAccountBalanceObserver_acts
      (fun commit => proofValidator_success (valid commit)) observed
    simp [secretLockOperation, hashLockOperation, acted]
  | transaction transactionHash transactionType =>
    cases transactionType with
    | aggregateBonded =>
      simp only [observeLockNotification, completedAggregateObserver, ne_eq, not_true_eq_false,
        ↓reduceIte] at done
      obtain ⟨⟨after, accounts, written⟩, observed, same⟩ := map_eq_some_iff.mp done
      cases same
      have acted := lockStatusAccountBalanceObserver_acts
        (fun commit => aggregateHashPresentValidator_success (valid commit)) observed
      simp [secretLockOperation, hashLockOperation, acted]
    | other =>
      cases done
      simp [secretLockOperation, hashLockOperation]
  | secretLockDuration | secretLockHashAlgorithm | proofSecret | hashLockDuration
  | hashLockToken =>
    cases done
    simp [secretLockOperation, hashLockOperation]

/-- A hash lock is inserted and used by the bonded aggregate, and the use is rolled back. -/
theorem observed_acts_hashLock :
    let state : LockState := ⟨AccountStateCacheDelta.empty.addAccount 7 1, .empty, .empty⟩
    ∃ locked used reverted : LockState,
      state.hashLockInfoCache.act .commit 1 (.insert (createHashLockInfo 1 ⟨7, 1, 10, 5, 3⟩)) =
        some locked.hashLockInfoCache ∧
      locked.hashLockInfoCache.act .commit 2 (.use 3) = some used.hashLockInfoCache ∧
      used.hashLockInfoCache.act .rollback 2 (.use 3) = some reverted.hashLockInfoCache := by
  intro state
  let cfg : LockConfiguration := ⟨0, 0, 0, 100, 10, 1, fun _ _ => 0, fun secret _ => secret⟩
  let locked : LockState := { state with
    hashLockInfoCache := LockInfoCache.empty.insert (createHashLockInfo 1 ⟨7, 1, 10, 5, 3⟩) }
  have inserted : observeLockNotification id cfg .commit 1 state (.hashLock ⟨7, 1, 10, 5, 3⟩) =
    some (locked, _) := rfl
  have valid : validateLockNotification cfg locked 2 (.transaction 3 .aggregateBonded) = .success := by
    decide +kernel
  obtain ⟨⟨reverted, receipts⟩, run⟩ := isSome_iff_exists.mp (show ((observeLockNotification id cfg
    .commit 2 locked (.transaction 3 .aggregateBonded)).bind fun used => observeLockNotification id
      cfg .rollback 2 used.1 (.transaction 3 .aggregateBonded)).isSome by decide +kernel)
  obtain ⟨⟨used, _⟩, done, undone⟩ := bind_eq_some_iff.mp run
  exact ⟨locked, used, reverted, (observed_acts (fun _ => rfl) inserted).2.2.1 _ rfl,
    (observed_acts (fun _ => valid) done).2.2.1 _ rfl,
    (observed_acts (fun commit : NotifyMode.rollback = .commit => nomatch commit) undone).2.2.1 _ rfl⟩

end Notifications

namespace LockInfoCache

/-- No history and no group is empty: each goes with the last lock it records. -/
structure Canonical (cache : LockInfoCache X) : Prop where
  histories : ∀ ident history, cache.histories.lookup ident = some history → history ≠ []
  groups : cache.heightGrouping.Filled

variable {cache next final : LockInfoCache X} {height : Nat} {op : LockOperation X}

section Canonical

omit [LockData X] in
private theorem canonical_setBackStatus {key : Hash256} {status : LockStatus}
    (canonical : cache.Canonical) (done : cache.setBackStatus key status = some next) :
    next.Canonical := by
  unfold setBackStatus at done
  split at done
  · cases done
  · cases done
    refine ⟨fun ident history found => ?_, canonical.groups⟩
    rw [lookup_insert_apply] at found
    split at found
    · cases found
      exact List.cons_ne_nil _ _
    · exact canonical.histories ident history found

private theorem Canonical.perform (canonical : cache.Canonical)
    (done : cache.perform height op = some next) : next.Canonical := by
  unfold LockInfoCache.perform at done
  cases op with
  | insert lockInfo =>
    dsimp only at done
    split at done
    · cases done
    · cases done
      refine ⟨fun ident history found => ?_, canonical.groups.add _ _⟩
      unfold LockInfoCache.insert at found
      rw [lookup_insert_apply] at found
      split at found
      · cases found
        exact List.cons_ne_nil _ _
      · exact canonical.histories ident history found
  | use key =>
    dsimp only at done
    split at done
    · exact canonical_setBackStatus canonical done
    · cases done

private theorem Canonical.revert (canonical : cache.Canonical)
    (done : cache.revert op = some next) : next.Canonical := by
  unfold LockInfoCache.revert at done
  cases op with
  | insert lockInfo =>
    dsimp only [LockInfoCache.remove] at done
    split at done
    · cases done
    · cases done
      refine ⟨fun ident history found => ?_, canonical.groups.remove _ _⟩
      split at found
      · rw [lookup_erase_apply] at found
        split at found
        · cases found
        · exact canonical.histories ident history found
      · rw [lookup_insert_apply] at found
        split at found
        · simp_all
        · exact canonical.histories ident history found
  | use key => exact canonical_setBackStatus canonical done

private theorem Reachable.canonical (reachable : cache.Reachable) : cache.Canonical := by
  induction reachable with
  | empty => exact ⟨fun ident history found => by simp [LockInfoCache.empty] at found, .empty⟩
  | perform _ done ih => exact ih.perform done
  | revert _ done ih => exact ih.revert done
  | prune _ height ih =>
    refine ⟨fun ident history found => ?_, ih.groups.erase height⟩
    unfold LockInfoCache.prune at found
    rw [lookup_removeAll] at found
    split at found
    · cases found
    · exact ih.histories ident history found

end Canonical

/-- The end heights and identifiers of the locks that operations insert. -/
def insertedEnds (ops : List (Nat × LockOperation X)) : List (Nat × Hash256) :=
  ops.filterMap fun step => match step.2 with
    | .insert lockInfo => some (lockInfo.endHeight, lockInfo.identifier)
    | .use _ => none

omit [LockData X] in
private theorem histories_erase_or_insert {ident : Hash256} {lockInfo : LockInfo X}
    (canonical : cache.Canonical) : (if (cache.history ident).isEmpty then
        (cache.histories.insert ident
          (lockInfo :: cache.history ident)).erase ident
      else (cache.histories.insert ident
        (lockInfo :: cache.history ident)).insert ident (cache.history ident)) =
      cache.histories := by
  refine Finmap.ext_lookup fun other => ?_
  cases found : cache.histories.lookup ident with
  | none =>
    have isEmpty : cache.history ident = [] := by rw [history, found]; rfl
    rw [isEmpty, if_pos (by rfl), lookup_erase_apply, lookup_insert_apply]
    by_cases here : other = ident
    · rw [if_pos here, here, found]
    · rw [if_neg here, if_neg here]
  | some locks =>
    have same : cache.history ident = locks := by rw [history, found]; rfl
    have nonempty := canonical.histories ident locks found
    rw [same, if_neg (fun isEmpty => nonempty (List.isEmpty_iff.mp isEmpty)),
      lookup_insert_apply, lookup_insert_apply]
    by_cases here : other = ident
    · rw [if_pos here, here, found]
    · rw [if_neg here, if_neg here]

variable {key : Hash256} {rest : LockInfoHistory X} {back : LockInfo X}

private theorem revert_use {restored : LockInfoCache X}
    (done : cache.perform height (.use key) = some next)
    (same : restored.histories = next.histories) :
    ∃ last, restored.revert (.use key) = some last ∧ last.histories = cache.histories ∧
      last.heightGrouping = restored.heightGrouping := by
  dsimp only [LockInfoCache.perform] at done
  split at done
  · rename_i active
    rw [isActive_eq] at active
    unfold setBackStatus at done
    split at done
    · cases done
    · rename_i back rest found
      cases done
      have unused : back.status = .unused := by
        rw [found, LockInfoHistory.isActive, LockInfo.isActive, Bool.and_eq_true] at active
        exact eq_of_beq active.2
      have restoredHistory : restored.history key = { back with status := .used } :: rest := by
        rw [history, same, lookup_insert_apply, if_pos rfl]
        rfl
      have foundKey : cache.histories.lookup key = some (back :: rest) := by
        rw [history] at found
        cases stored : cache.histories.lookup key with
        | none => simp [stored] at found
        | some locks => simpa [stored] using found
      simp only [LockInfoCache.revert, setBackStatus, restoredHistory]
      refine ⟨_, rfl, ?_, rfl⟩
      refine Finmap.ext_lookup fun other => ?_
      rw [lookup_insert_apply, same, lookup_insert_apply]
      by_cases here : other = key
      · rw [if_pos here, here, foundKey, ← unused]
      · rw [if_neg here, if_neg here]
  · cases done

/-- Undone in reverse order, operations restore all histories; the groups lose every identifier
that was inserted, also where it had been before. -/
private theorem revertAll_performAll {ops : List (Nat × LockOperation X)}
    (canonical : cache.Canonical) (done : performAll ops cache = some final) :
    ∃ last, revertAll ops final = some last ∧ last.histories = cache.histories ∧
      last.heightGrouping.Filled ∧ ∀ height, last.ending height =
        (cache.ending height).filter fun ident =>
          (height, ident) ∉ insertedEnds ops := by
  induction ops generalizing cache with
  | nil =>
    cases done
    exact ⟨final, rfl, rfl, canonical.groups, fun height => by simp [insertedEnds]⟩
  | cons step rest ih =>
    obtain ⟨height, op⟩ := step
    obtain ⟨next, first, later⟩ := bind_eq_some_iff.mp done
    obtain ⟨restored, reverted, histories, filled, ending⟩ := ih (canonical.perform first) later
    rw [revertAll, reverted, bind_some]
    cases op with
    | use key =>
      obtain ⟨last, undone, back, groups⟩ := revert_use first histories
      refine ⟨last, undone, back, groups ▸ filled, fun other => ?_⟩
      have same : next.ending other = cache.ending other := by
        dsimp only [LockInfoCache.perform] at first
        split at first
        · obtain ⟨_, _, _, _, kept⟩ := history_setBackStatus first
          exact kept other
        · cases first
      have unchanged : last.ending other = restored.ending other :=
        congrArg (GroupedSet.identifiers · other) groups
      rw [unchanged, ending, same]
      rfl
    | insert lockInfo =>
      dsimp only [LockInfoCache.perform] at first
      split at first
      · cases first
      · cases first
        have restoredHistory : restored.history lockInfo.identifier =
            lockInfo :: cache.history lockInfo.identifier := by
          have inserted := history_insert cache lockInfo lockInfo.identifier
          rw [if_pos rfl] at inserted
          rw [← inserted, history, history, histories]
        simp only [LockInfoCache.revert, LockInfoCache.remove, restoredHistory]
        refine ⟨_, rfl, ?_, filled.remove _ _, fun other => ?_⟩
        · rw [histories]
          exact histories_erase_or_insert canonical
        · have added : (cache.insert lockInfo).ending other = if other = lockInfo.endHeight then
                (cache.ending other).insert lockInfo.identifier
              else cache.ending other :=
            identifiers_add cache.heightGrouping lockInfo.endHeight other lockInfo.identifier
          refine (identifiers_remove restored.heightGrouping lockInfo.endHeight other
            lockInfo.identifier).trans ?_
          change (if other = lockInfo.endHeight then (restored.ending other).erase _
            else restored.ending other) = _
          have ends : insertedEnds ((height, .insert lockInfo) :: rest) =
              (lockInfo.endHeight, lockInfo.identifier) :: insertedEnds rest := rfl
          rw [ending, added, ends]
          by_cases here : other = lockInfo.endHeight
          · rw [if_pos here, if_pos here, erase_filter_insert (cache.nodup_ending other)]
            refine List.filter_congr fun ident _ => ?_
            simp only [here, List.mem_cons, Prod.mk.injEq, true_and, not_or, Bool.decide_and,
              decide_not, bne, Bool.and_comm]
            rfl
          · simp_all

/-- Undoing an accepted sequence of locks and uses in reverse order restores the whole cache,
exactly if none of its locks ends at a height where the cache had already recorded its
identifier. -/
theorem lockOperations_undone_iff {ops : List (Nat × LockOperation X)}
    (reachable : cache.Reachable) (done : performAll ops cache = some final) :
    revertAll ops final = some cache ↔
      ∀ ending ∈ insertedEnds ops, ending.2 ∉ cache.ending ending.1 := by
  obtain ⟨last, reverted, histories, filled, ending⟩ :=
    revertAll_performAll reachable.canonical done
  rw [reverted, some_inj]
  constructor
  · grind
  · intro fresh
    have groups : last.heightGrouping = cache.heightGrouping := by
      refine filled.ext reachable.canonical.groups fun height => (ending height).trans ?_
      refine List.filter_eq_self.mpr fun ident recorded => decide_eq_true fun inserted => ?_
      exact fresh (height, ident) inserted recorded
    cases last
    cases cache
    simp_all

section Example

/-- A hash lock of account 1 under hash 7 that ends at height 10. -/
def exampleLock : HashLockInfo := ⟨1, 5, 100, 10, .unused, ⟨7⟩⟩

def exampleCache : LockInfoCache HashLockData := LockInfoCache.empty.insert exampleLock

private theorem exampleCache_reachable : exampleCache.Reachable :=
  have done : LockInfoCache.empty.perform 1 (.insert exampleLock) = some exampleCache := rfl
  .perform .empty done

def otherExampleLock : HashLockInfo := { exampleLock with data := ⟨8⟩ }

theorem lockOperations_undone_iff_otherExampleLock : exampleCache.Reachable ∧
      performAll [(2, .insert otherExampleLock)] exampleCache =
        some (exampleCache.insert otherExampleLock) ∧
      (revertAll [(2, .insert otherExampleLock)] (exampleCache.insert otherExampleLock) =
          some exampleCache ↔
        ∀ ending ∈ insertedEnds [(2, .insert otherExampleLock)],
          ending.2 ∉ exampleCache.ending ending.1) :=
  have done : performAll [(2, .insert otherExampleLock)] exampleCache =
    some (exampleCache.insert otherExampleLock) := rfl
  ⟨exampleCache_reachable, done, lockOperations_undone_iff exampleCache_reachable done⟩

/-- The lock is used at height 2 and made again at height 3, to end at the same height. -/
def relockedOperations : List (Nat × LockOperation HashLockData) :=
  [(2, .use 7), (3, .insert exampleLock)]

/-- After both are undone the lock is unused again, but its expiry is not visited any more. -/
theorem undone_relock_never_expires :
    exampleCache.Reachable ∧ exampleCache.processUnusedExpiredLocks 10 = [exampleLock] ∧
      ((performAll relockedOperations exampleCache).bind
        (revertAll relockedOperations)).map (·.processUnusedExpiredLocks 10) = some [] :=
  ⟨exampleCache_reachable, by decide +kernel, by decide +kernel⟩

end Example

end LockInfoCache

end BitxorCore.Lock
