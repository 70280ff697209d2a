/- GID: Cache/AccountStateCache
   anchors: [src/bitxorcore/cache_core]
   digest: The account state cache adds accounts at once and removes them from a queue. -/

import BitxorCore.State.AccountState

set_option autoImplicit false
set_option relaxedAutoImplicit false

namespace BitxorCore.Cache
open Library.FiniteMap State Option

/-- Account states by address, the address of each known key, and the queued removals. -/
structure AccountStateCacheDelta where
  stateByAddress : Map Address AccountState
  keyToAddress : Map Key Address
  queuedRemoveByAddress : List (Nat × Address)
  queuedRemoveByPublicKey : List (Nat × Key)
  deriving DecidableEq

/-- `unlinked` keeps the address entry of an account whose public key is removed. -/
inductive CommitRemovalsMode where
  | linked
  | unlinked
  deriving DecidableEq, Repr

namespace AccountStateCacheDelta

def empty : AccountStateCacheDelta := ⟨∅, ∅, [], []⟩

variable (cache : AccountStateCacheDelta) (address : Address)

def find : Option AccountState :=
  cache.stateByAddress.lookup address

variable (publicKey : Key)

/-- The address an account is stored under, looked up by public key. -/
def findAddress : Option Address :=
  (cache.keyToAddress.lookup publicKey).filter fun address => (cache.find address).isSome

/-- Changes an account in place; fails when the account is unknown or the change fails. -/
def modify (change : AccountState → Option AccountState) : Option AccountStateCacheDelta := do
  let accountState ← cache.find address
  let changed ← change accountState
  return { cache with stateByAddress := cache.stateByAddress.insert address changed }

variable (height : Nat)

def addAccount : AccountStateCacheDelta :=
  if (cache.find address).isSome then cache
  else { cache with
    stateByAddress := cache.stateByAddress.insert address (.ofAddressHeight height) }

/-- Adds an account by public key. `toAddress` derives the address of a key not seen before. -/
def addAccountByKey (toAddress : Key → Address) (cache : AccountStateCacheDelta)
    (publicKey : Key) (height : Nat) : AccountStateCacheDelta :=
  let address := (cache.keyToAddress.lookup publicKey).getD (toAddress publicKey)
  let keyed := { cache with keyToAddress := insertNew cache.keyToAddress publicKey address }
  let added := keyed.addAccount address height
  let setKey (accountState : AccountState) : Option AccountState :=
    if accountState.publicKeyHeight ≠ 0 then some accountState
    else some { accountState with publicKey, publicKeyHeight := height }
  (added.modify address setKey).getD added

def queueRemove : AccountStateCacheDelta :=
  { cache with queuedRemoveByAddress := cache.queuedRemoveByAddress.insert (height, address) }

def queueRemoveByKey : AccountStateCacheDelta :=
  { cache with
    queuedRemoveByPublicKey := cache.queuedRemoveByPublicKey.insert (height, publicKey) }

def remove : AccountStateCacheDelta :=
  match cache.find address with
  | none => cache
  | some accountState =>
    if height ≠ accountState.addressHeight then cache
    else { cache with
      -- the key entry can only be removed when the public key is known
      keyToAddress :=
        if accountState.publicKeyHeight ≠ 0 then cache.keyToAddress.erase accountState.publicKey
        else cache.keyToAddress
      stateByAddress := cache.stateByAddress.erase address }

variable (mode : CommitRemovalsMode)

def removeByKey : AccountStateCacheDelta :=
  match cache.keyToAddress.lookup publicKey with
  | none => cache
  | some address =>
    match cache.find address with
    | none => cache
    | some accountState =>
      if height ≠ accountState.publicKeyHeight then cache
      else
        let keyToAddress := cache.keyToAddress.erase accountState.publicKey
        if mode = .linked ∧ accountState.publicKeyHeight = accountState.addressHeight then
          { cache with keyToAddress, stateByAddress := cache.stateByAddress.erase address }
        else { cache with
          keyToAddress
          stateByAddress := cache.stateByAddress.insert address
            { accountState with publicKey := 0, publicKeyHeight := 0 } }

def commitRemovals : AccountStateCacheDelta :=
  let withoutAddresses := cache.queuedRemoveByAddress.foldl
    (fun delta queued => delta.remove queued.2 queued.1) cache
  let withoutKeys := cache.queuedRemoveByPublicKey.foldl
    (fun delta queued => delta.removeByKey queued.2 queued.1 mode) withoutAddresses
  { withoutKeys with queuedRemoveByAddress := [], queuedRemoveByPublicKey := [] }

def NoneQueued : Prop :=
  cache.queuedRemoveByAddress = [] ∧ cache.queuedRemoveByPublicKey = []

theorem commitRemovals_eq_self_iff : cache.commitRemovals mode = cache ↔ cache.NoneQueued := by
  constructor
  · intro same
    rw [← same]
    exact ⟨rfl, rfl⟩
  · rintro ⟨noAddress, noKey⟩
    cases cache
    cases noAddress
    cases noKey
    rfl

/-- The account that acts for an address: its main account for a linked remote account. -/
def forwardedAddress : Option Address := do
  let accountState ← cache.find address
  if accountState.accountType ≠ .remote then return address
  let linkedAddress ← cache.findAddress accountState.linkedPublicKey
  let linkedAccountState ← cache.find linkedAddress
  if requireLinkedRemoteAndMainAccounts accountState linkedAccountState then
    return linkedAddress
  else none

variable {change : AccountState → Option AccountState} {cache after : AccountStateCacheDelta}

theorem modify_eq_some {address : Address}
    (done : cache.modify address change = some after) :
    ∃ accountState changed, cache.find address = some accountState ∧
      change accountState = some changed ∧
      after = { cache with stateByAddress := cache.stateByAddress.insert address changed } := by
  unfold modify at done
  simp only [bind_eq_bind, bind_eq_some_iff, pure_def, some.injEq] at done
  obtain ⟨accountState, found, changed, applied, rfl⟩ := done
  exact ⟨accountState, changed, found, applied, rfl⟩

/-- What forwarding reads of an account: its type, its key and the key it is linked to. -/
def links (cache : AccountStateCacheDelta) (address : Address) : Option (AccountType × Key × Key) :=
  (cache.find address).map fun accountState =>
    (accountState.accountType, accountState.publicKey, accountState.linkedPublicKey)

private theorem forwardedAddress_congr {cache other : AccountStateCacheDelta}
    (sameKeys : other.keyToAddress = cache.keyToAddress)
    (sameLinks : ∀ address, other.links address = cache.links address) (address : Address) :
    other.forwardedAddress address = cache.forwardedAddress address := by
  have known : ∀ a, (other.find a).isSome = (cache.find a).isSome := fun a => by
    simpa [links] using congrArg isSome (sameLinks a)
  have addresses : ∀ key, other.findAddress key = cache.findAddress key := fun key => by
    simp only [findAddress, sameKeys, known]
  unfold forwardedAddress
  have here := sameLinks address
  unfold links at here
  cases found : cache.find address with
  | none => simp_all
  | some accountState =>
    rw [found, map_some, map_eq_some_iff] at here
    obtain ⟨accountState', found', same⟩ := here
    simp only [Prod.mk.injEq] at same
    obtain ⟨sameType, sameKey, sameLinked⟩ := same
    simp only [found', addresses, sameType, sameLinked, bind_eq_bind, bind_some]
    split
    · rfl
    · cases cache.findAddress accountState.linkedPublicKey with
      | none => rfl
      | some linked =>
        have there := sameLinks linked
        unfold links at there
        simp only [bind_some]
        cases foundLinked : cache.find linked with
        | none => simp_all
        | some linkedState =>
          rw [foundLinked, map_some, map_eq_some_iff] at there
          obtain ⟨linkedState', foundLinked', sameThere⟩ := there
          simp only [Prod.mk.injEq] at sameThere
          simp [foundLinked', requireLinkedRemoteAndMainAccounts, areLinked, sameType, sameKey,
            sameLinked, sameThere]

def KeepsLinks (change : AccountState → Option AccountState) : Prop :=
  ∀ before after, change before = some after → after.accountType = before.accountType ∧
    after.publicKey = before.publicKey ∧ after.linkedPublicKey = before.linkedPublicKey

theorem forwardedAddress_modify {target : Address}
    (keeps : KeepsLinks change)
    (done : cache.modify target change = some after) (address : Address) :
    after.forwardedAddress address = cache.forwardedAddress address := by
  obtain ⟨before, changed, found, applied, rfl⟩ := modify_eq_some done
  obtain ⟨sameType, sameKey, sameLinked⟩ := keeps before changed applied
  apply forwardedAddress_congr
  · rfl
  intro other
  unfold links find
  rw [lookup_insert_apply]
  split
  · rename_i here
    subst here
    unfold find at found
    simp [found, sameType, sameKey, sameLinked]
  · rfl

def processForwardedAccountState (cache : AccountStateCacheDelta) (address : Address)
    (action : AccountState → Option AccountState) : Option AccountStateCacheDelta := do
  let forwarded ← cache.forwardedAddress address
  cache.modify forwarded action

end AccountStateCacheDelta
end BitxorCore.Cache
