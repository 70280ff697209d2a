/- GID: Multisig/MultisigValidators
   anchors: [plugins/txes/multisig]
   digest: A modification is accepted notification by notification, each validated before it acts. -/

import BitxorCore.Chain.BlockExecutor
import BitxorCore.Library.PartialFold
import BitxorCore.Library.Walk

set_option autoImplicit false
set_option relaxedAutoImplicit false

namespace BitxorCore.Multisig
open Chain Library Library.FiniteMap State

/-- Cosignatories of an account, the approvals it needs, and the accounts it cosigns. -/
structure MultisigEntry where
  cosignatoryAddresses : Finset Address
  minApproval : BitVec 32
  minRemoval : BitVec 32
  multisigAddresses : Finset Address

-- field by field: a derived instance transports along equalities of sets and does not compute
instance : DecidableEq MultisigEntry := fun lhs rhs =>
  decidable_of_iff (lhs.cosignatoryAddresses = rhs.cosignatoryAddresses ∧
      lhs.minApproval = rhs.minApproval ∧ lhs.minRemoval = rhs.minRemoval ∧
      lhs.multisigAddresses = rhs.multisigAddresses)
    (by cases lhs; cases rhs; simp)

def MultisigEntry.empty : MultisigEntry := ⟨∅, 0, 0, ∅⟩

abbrev MultisigCache := Map Address MultisigEntry

variable (cache : MultisigCache) (address : Address)

def getMultisigEntry : MultisigCache :=
  insertNew cache address .empty

def modifyEntry
    (change : MultisigEntry → MultisigEntry) : Option MultisigCache :=
  (cache.lookup address).map fun entry => cache.insert address (change entry)

def removeIfEmpty : MultisigCache :=
  match cache.lookup address with
  | none => cache
  | some entry =>
    if entry.cosignatoryAddresses = ∅ ∧ entry.multisigAddresses = ∅ then
      cache.erase address
    else cache

variable (multisig cosignatory : Address)

def addCosignatory (cache : MultisigCache) :
    Option MultisigCache := do
  let withMultisig ← modifyEntry (getMultisigEntry cache cosignatory) cosignatory
    fun entry => { entry with multisigAddresses := insert multisig entry.multisigAddresses }
  modifyEntry withMultisig multisig
    fun entry => { entry with cosignatoryAddresses := insert cosignatory entry.cosignatoryAddresses }

def removeCosignatory (cache : MultisigCache) :
    Option MultisigCache := do
  let withoutCosignatory ← modifyEntry cache multisig
    fun entry => { entry with
      cosignatoryAddresses := entry.cosignatoryAddresses.erase cosignatory }
  let withoutMultisig ← modifyEntry withoutCosignatory cosignatory
    fun entry => { entry with multisigAddresses := entry.multisigAddresses.erase multisig }
  return removeIfEmpty withoutMultisig cosignatory

def addAll (multisig : Address) (addresses : List Address) (shouldAdd : Bool)
    (cache : MultisigCache) : Option MultisigCache :=
  addresses.foldlM (fun delta cosignatory =>
    if shouldAdd then addCosignatory multisig cosignatory delta
    else removeCosignatory multisig cosignatory delta) cache

structure MultisigCosignatoriesNotification where
  multisig : Address
  addressAdditions : List Address
  addressDeletions : List Address

def multisigCosignatoriesObserver (notice : MultisigCosignatoriesNotification)
    (mode : NotifyMode) (cache : MultisigCache) : Option MultisigCache := do
  let isCommitMode := mode == .commit
  let entered := getMultisigEntry cache notice.multisig
  let added ← addAll notice.multisig notice.addressAdditions isCommitMode entered
  let deleted ← addAll notice.multisig notice.addressDeletions (!isCommitMode) added
  -- the facade's destructor
  return removeIfEmpty deleted notice.multisig

structure MultisigSettingsNotification where
  multisig : Address
  minRemovalDelta : Int
  minApprovalDelta : Int

def addDelta (value : BitVec 32) (direction delta : Int) : BitVec 32 :=
  BitVec.ofInt 32 (value.toInt + direction * delta)

def multisigSettingsObserver (notice : MultisigSettingsNotification)
    (mode : NotifyMode) (cache : MultisigCache) : Option MultisigCache :=
  let isNotContained := (cache.lookup notice.multisig).isNone
  if isNotContained ∧ mode = .commit then some cache
  else
    let direction : Int := match mode with
      | .commit => 1
      | .rollback => -1
    -- a missing entry is taken as one that the commit removed
    modifyEntry (getMultisigEntry cache notice.multisig) notice.multisig
      fun entry => { entry with
        minApproval := addDelta entry.minApproval direction notice.minApprovalDelta
        minRemoval := addDelta entry.minRemoval direction notice.minRemovalDelta }

open Library.PartialAction

structure MultisigConfiguration where
  maxMultisigDepth : BitVec 8
  maxCosignatoriesPerAccount : BitVec 32
  maxCosignedAccountsPerAccount : BitVec 32

inductive MultisigValidationResult where
  | success
  | failureMultisigAccountInBothSets
  | failureMultisigMultipleDeletes
  | failureMultisigRedundantModification
  | failureMultisigUnknownMultisigAccount
  | failureMultisigNotACosignatory
  | failureMultisigAlreadyACosignatory
  | failureMultisigMinSettingOutOfRange
  | failureMultisigMinSettingLargerThanNumCosignatories
  | failureMultisigMaxCosignedAccounts
  | failureMultisigMaxCosignatories
  | failureMultisigLoop
  | failureMultisigMaxMultisigDepth
  deriving DecidableEq, Repr

section Search

/-- What the search found through one linked address and through the others. -/
def mergeFound : Option (Nat × Finset Address) → Option (Nat × Finset Address) →
    Option (Nat × Finset Address) :=
  Option.map₂ fun found other => (max found.1 other.1, found.2 ∪ other.2)

instance : Std.Commutative fun found other : Nat × Finset Address =>
    (max found.1 other.1, found.2 ∪ other.2) where
  comm found other := by
    rw [max_comm, Finset.union_comm]

instance : Std.Associative fun found other : Nat × Finset Address =>
    (max found.1 other.1, found.2 ∪ other.2) where
  assoc first second third := by
    rw [max_assoc, Finset.union_assoc]

instance : Std.Commutative mergeFound := PartialFold.commutative_map₂ _

instance : Std.Associative mergeFound := PartialFold.associative_map₂ _

variable (getAddresses : MultisigEntry → Finset Address) (cache : MultisigCache)

/-- Number of levels above or below an address, and the addresses on them. The source recurses
without a bound; the search fails here when it goes deeper than `fuel`. -/
def findAll : Nat → Address → Option (Nat × Finset Address)
  | 0, _ => none
  | fuel + 1, address =>
    match cache.lookup address with
    | none => some (0, ∅)
    | some entry =>
      (getAddresses entry).fold mergeFound (some (0, ∅)) fun linkedAddress =>
        (findAll fuel linkedAddress).map fun found => (found.1 + 1, insert linkedAddress found.2)

end Search

def findAncestors : MultisigCache → Nat → Address → Option (Nat × Finset Address) :=
  findAll (·.multisigAddresses)

def findDescendants : MultisigCache → Nat → Address → Option (Nat × Finset Address) :=
  findAll (·.cosignatoryAddresses)

section Validators
variable {U : Type} [DecidableEq U] (cfg : MultisigConfiguration) (resolve : U → Address)
  (cache : MultisigCache)

/-- Looks only at the addresses as they are written, not at what aliases stand for. -/
def multisigCosignatoriesValidator (addressAdditions addressDeletions : List U) :
    MultisigValidationResult :=
  if 1 < addressDeletions.length then .failureMultisigMultipleDeletes
  else if addressAdditions.length ≠ addressAdditions.toFinset.card then
    .failureMultisigRedundantModification
  else if ∃ address ∈ addressAdditions, address ∈ addressDeletions then
    .failureMultisigAccountInBothSets
  else .success

def multisigMaxCosignedAccountsValidator (cosignatory : Address) : MultisigValidationResult :=
  match cache.lookup cosignatory with
  | none => .success
  | some cosignatoryEntry =>
    if cfg.maxCosignedAccountsPerAccount.toNat ≤ cosignatoryEntry.multisigAddresses.card then
      .failureMultisigMaxCosignedAccounts
    else .success

def multisigMaxCosignatoriesValidator (multisig : Address)
    (addressAdditionsCount addressDeletionsCount : Nat) : MultisigValidationResult :=
  let numCosignatories := match cache.lookup multisig with
    | none => 0
    | some multisigAccountEntry => multisigAccountEntry.cosignatoryAddresses.card
  -- the difference of the counts is signed, the sum is not
  let newNumCosignatories :=
    (numCosignatories + 2 ^ 64 + addressAdditionsCount - addressDeletionsCount) % 2 ^ 64
  if cfg.maxCosignatoriesPerAccount.toNat < newNumCosignatories then
    .failureMultisigMaxCosignatories
  else .success

def multisigInvalidCosignatoriesValidator
    (notice : MultisigCosignatoriesNotification) : MultisigValidationResult :=
  match cache.lookup notice.multisig with
  | none =>
    if notice.addressDeletions.length = 0 then .success
    else .failureMultisigUnknownMultisigAccount
  | some entry =>
    if ∃ address ∈ notice.addressAdditions, address ∈ entry.cosignatoryAddresses then
      .failureMultisigAlreadyACosignatory
    else if ∃ address ∈ notice.addressDeletions, address ∉ entry.cosignatoryAddresses then
      .failureMultisigNotACosignatory
    else .success

def multisigInvalidSettingsValidator (notice : MultisigSettingsNotification) :
    MultisigValidationResult :=
  match cache.lookup notice.multisig with
  | none =>
    if notice.minRemovalDelta ≠ -1 ∨ notice.minApprovalDelta ≠ -1 then
      .failureMultisigMinSettingOutOfRange
    else .success
  | some entry =>
    let newMinRemoval : Int := entry.minRemoval.toNat + notice.minRemovalDelta
    let newMinApproval : Int := entry.minApproval.toNat + notice.minApprovalDelta
    let maxValue : Int := entry.cosignatoryAddresses.card
    if newMinRemoval < 1 ∨ newMinApproval < 1 then .failureMultisigMinSettingOutOfRange
    else if maxValue < newMinRemoval ∨ maxValue < newMinApproval then
      .failureMultisigMinSettingLargerThanNumCosignatories
    else .success

def multisigLoopAndLevelValidator (top bottom : Address) : Option MultisigValidationResult := do
  let fuel := cfg.maxMultisigDepth.toNat + 1
  let (numTopLevels, ancestors) ← findAncestors cache fuel top
  let (numBottomLevels, descendants) ← findDescendants cache fuel bottom
  if cfg.maxMultisigDepth.toNat < numTopLevels + numBottomLevels + 1 then
    return .failureMultisigMaxMultisigDepth
  else if insert top ancestors ∩ insert bottom descendants ≠ ∅ then
    return .failureMultisigLoop
  else return .success

/-- The notifications of a modification the multisig plugin reacts to. Cosignatories are named
as in the transaction, by address or by alias. -/
inductive ModificationNotification (U : Type) where
  | newCosignatory (multisig : Address) (cosignatory : U)
  | cosignatories (multisig : Address) (addressAdditions addressDeletions : List U)
  | settings (notice : MultisigSettingsNotification)

/-- The first result other than success, as the aggregate validator returns it. -/
def firstFailure : List MultisigValidationResult → MultisigValidationResult
  | [] => .success
  | result :: rest => if result = .success then firstFailure rest else result

def validateNotification : ModificationNotification U → Option MultisigValidationResult
  | .newCosignatory multisig cosignatory => do
    let loopAndLevel ← multisigLoopAndLevelValidator cfg cache multisig
      (resolve cosignatory)
    return firstFailure
      [multisigMaxCosignedAccountsValidator cfg cache (resolve cosignatory), loopAndLevel]
  | .cosignatories multisig addressAdditions addressDeletions => some <| firstFailure
      [multisigCosignatoriesValidator addressAdditions addressDeletions,
       multisigMaxCosignatoriesValidator cfg cache multisig addressAdditions.length
         addressDeletions.length,
       multisigInvalidCosignatoriesValidator cache
         ⟨multisig, addressAdditions.map resolve, addressDeletions.map resolve⟩]
  | .settings notice => some (multisigInvalidSettingsValidator cache notice)

end Validators

section Modifications
variable {U : Type} [DecidableEq U] (cfg : MultisigConfiguration) (resolve : U → Address)

/-- New cosignatories are only validated; they are added together. -/
def observeNotification (mode : NotifyMode) : ModificationNotification U → Action MultisigCache
  | .newCosignatory _ _ => some
  | .cosignatories multisig addressAdditions addressDeletions =>
    multisigCosignatoriesObserver
      ⟨multisig, addressAdditions.map resolve, addressDeletions.map resolve⟩ mode
  | .settings notice => multisigSettingsObserver notice mode

def processNotification (notice : ModificationNotification U) : Action MultisigCache := fun cache =>
    if validateNotification cfg resolve cache notice = some .success then
      observeNotification resolve .commit notice cache
    else none

structure SignedModification (U : Type) where
  signerAddress : Address
  minRemovalDelta : Int
  minApprovalDelta : Int
  addressAdditions : List U
  addressDeletions : List U
  additions_length : addressAdditions.length < 2 ^ 8
  deletions_length : addressDeletions.length < 2 ^ 8

variable (modification : SignedModification U)

def SignedModification.publish : List (ModificationNotification U) :=
  let settings : ModificationNotification U := .settings
    ⟨modification.signerAddress, modification.minRemovalDelta, modification.minApprovalDelta⟩
  if modification.addressAdditions.isEmpty ∧ modification.addressDeletions.isEmpty then [settings]
  else modification.addressAdditions.map (.newCosignatory modification.signerAddress) ++
    [.cosignatories modification.signerAddress modification.addressAdditions
      modification.addressDeletions, settings]

/-- Validates and observes the notifications of a modification one after the other. -/
def SignedModification.accept : Action MultisigCache :=
  run (modification.publish.map (processNotification cfg resolve))

/-- Observes the notifications in reverse order and in rollback mode. -/
def SignedModification.undo : Action MultisigCache :=
  run (modification.publish.reverse.map (observeNotification resolve .rollback))

end Modifications

/-- A modification together with what the aliases in it stand for when it is processed. -/
structure ModificationStep (U : Type) where
  modification : SignedModification U
  resolve : U → Address

/-- The caches after each modification of a run, if all are accepted. -/
def acceptAll {U : Type} [DecidableEq U] (cfg : MultisigConfiguration) :
    List (ModificationStep U) → MultisigCache → Option (List MultisigCache)
  | [], _ => some []
  | step :: rest, cache => do
    let next ← step.modification.accept cfg step.resolve cache
    let later ← acceptAll cfg rest next
    return next :: later

end BitxorCore.Multisig
