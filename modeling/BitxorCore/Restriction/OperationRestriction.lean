/- GID: Restriction/OperationRestriction
   anchors: [plugins/txes/restriction_account/src]
   digest: An account never loses the permission to change its operation restrictions. -/

import BitxorCore.Library.Bytes
import BitxorCore.Library.PartialAction
import BitxorCore.Types
import Mathlib.Data.Finset.Basic
import Mathlib.Logic.Function.Basic

set_option autoImplicit false
set_option relaxedAutoImplicit false

namespace BitxorCore.Restriction
open Library.PartialAction

inductive OperationType
  | allow
  | block
  deriving DecidableEq, Repr

inductive ModificationAction
  | add
  | del
  deriving DecidableEq, Repr

/-- The flags that an entry of the cache has a restriction for. -/
inductive RestrictionKind
  | address
  | tokenId
  | outgoingAddress
  | outgoingTransactionType
  deriving DecidableEq, Repr

def RestrictionKind.ofFlags (flags : BitVec 16) : Option RestrictionKind :=
  if flags = 0x0001 then some .address
  else if flags = 0x0002 then some .tokenId
  else if flags = 0x4001 then some .outgoingAddress
  else if flags = 0x4004 then some .outgoingTransactionType
  else none

def RestrictionKind.valueSize : RestrictionKind → ℕ
  | .address | .outgoingAddress => 24
  | .tokenId => 8
  | .outgoingTransactionType => 2

def directionalRestrictionFlags (flags : BitVec 16) : BitVec 16 := flags &&& ~~~0x8000

def operationType (flags : BitVec 16) : OperationType :=
  if flags &&& 0x8000 = 0x8000 then .block else .allow

structure AccountRestriction where
  operationType : OperationType
  values : Finset (List ℕ)
  deriving DecidableEq

abbrev AccountRestrictions := RestrictionKind → AccountRestriction

abbrev AccountRestrictionCache := Address → Option AccountRestrictions

def toVector (value : BitVec (8 * 2)) : List ℕ := Library.Bytes.word 2 value

section
variable (kind : RestrictionKind) (restriction : AccountRestriction) (action : ModificationAction)
  (value : List ℕ)

/-- Throws for a value of another size, as `update` does. -/
def isOperationAllowed (operationType : OperationType) : Option Bool :=
  if kind.valueSize ≠ value.length then none
  else
    let validOperationType := decide (restriction.operationType = operationType)
    let validContainment := match action with
      | .add => decide (value ∉ restriction.values)
      | .del => decide (value ∈ restriction.values)
    some ((decide (restriction.values = ∅) || validOperationType) && validContainment)

def modifiedValues (values : Finset (List ℕ)) : Finset (List ℕ) :=
  match action with
  | .add => insert value values
  | .del => values.erase value

def update : Option (Finset (List ℕ)) :=
  if kind.valueSize ≠ value.length then none
  else some (modifiedValues action value restriction.values)

def allow : Option AccountRestriction := do
  let values ← update kind restriction action value
  return ⟨if values = ∅ then .block else .allow, values⟩

def block : Option AccountRestriction := do
  return ⟨.block, ← update kind restriction action value⟩

/-- The observer's choice between the two. -/
def modify : OperationType → Option AccountRestriction
  | .allow => allow kind restriction action value
  | .block => block kind restriction action value

def isAllowed : Bool :=
  if restriction.values = ∅ then true
  else match restriction.operationType with
    | .allow => decide (value ∈ restriction.values)
    | .block => decide (value ∉ restriction.values)

end

def AccountRestrictions.initial : AccountRestrictions := fun _ => ⟨.block, ∅⟩

def AccountRestrictions.isEmpty (restrictions : AccountRestrictions) : Bool :=
  [.address, .tokenId, .outgoingAddress, .outgoingTransactionType].all fun kind =>
    decide ((restrictions kind).values = ∅)

structure ModifyOperationRestrictionValueNotification where
  address : Address
  restrictionFlags : BitVec 16
  restrictionValue : BitVec (8 * 2)
  action : ModificationAction

structure AccountOperationRestrictionTransaction where
  signerAddress : Address
  restrictionFlags : BitVec 16
  restrictionAdditions : List (BitVec (8 * 2))
  restrictionDeletions : List (BitVec (8 * 2))

/-- The entity type of the operation restriction transactions. -/
def relevantEntityType : BitVec (8 * 2) := 0x4350

section
variable (notification : ModifyOperationRestrictionValueNotification)
  (cache : AccountRestrictionCache)

def valueModificationValidator : Option Bool :=
  match cache notification.address with
  | none => some true
  | some restrictions => do
    let kind ← RestrictionKind.ofFlags (directionalRestrictionFlags notification.restrictionFlags)
    isOperationAllowed kind (restrictions kind) notification.action
      (toVector notification.restrictionValue) (operationType notification.restrictionFlags)

def noSelfBlockingValidator : Bool :=
  let isRelevantEntityType := decide (notification.restrictionValue = relevantEntityType)
  let isAllow := decide (operationType notification.restrictionFlags = .allow)
  match notification.action with
  | .del => !(isAllow && isRelevantEntityType)
  | .add =>
    let numRestrictionValues := match cache notification.address with
      | none => 0
      | some restrictions => (restrictions .outgoingTransactionType).values.card
    let isAllowAndForbidden := isAllow && !isRelevantEntityType && numRestrictionValues == 0
    let isBlockAndForbidden := !isAllow && isRelevantEntityType
    !(isAllowAndForbidden || isBlockAndForbidden)

/-- The commit; an entry without any value is removed. -/
def valueModificationObserver : Option AccountRestrictionCache := do
  let restrictions := (cache notification.address).getD .initial
  let kind ← RestrictionKind.ofFlags (directionalRestrictionFlags notification.restrictionFlags)
  let value := toVector notification.restrictionValue
  let restriction ← modify kind (restrictions kind) notification.action value
    (operationType notification.restrictionFlags)
  let restrictions : AccountRestrictions := Function.update restrictions kind restriction
  return Function.update cache notification.address
    (if AccountRestrictions.isEmpty restrictions then none else some restrictions)

/-- Each notification is validated in the state that the ones before it left. -/
def notify : Action AccountRestrictionCache := fun cache => do
  let isValid ← valueModificationValidator notification cache
  if isValid && noSelfBlockingValidator notification cache then
    valueModificationObserver notification cache
  else none

end

def publish (transaction : AccountOperationRestrictionTransaction) :
    List ModifyOperationRestrictionValueNotification :=
  let raise (action : ModificationAction) (value : BitVec (8 * 2)) :=
    .mk transaction.signerAddress transaction.restrictionFlags value action
  transaction.restrictionAdditions.map (raise .add) ++
    transaction.restrictionDeletions.map (raise .del)

/-- The transaction is accepted if the validators of its other notifications agree too. -/
def execute (others : AccountOperationRestrictionTransaction → AccountRestrictionCache → Bool)
    (transaction : AccountOperationRestrictionTransaction) : Action AccountRestrictionCache :=
  fun cache =>
    if others transaction cache then run ((publish transaction).map notify) cache else none

def operationRestrictionValidator (transactionType : BitVec (8 * 2))
    (cache : AccountRestrictionCache) (sender : Address) : Bool :=
  match cache sender with
  | none => true
  | some restrictions =>
    isAllowed (restrictions .outgoingTransactionType) (toVector transactionType)

/-- Every account may send operation restriction transactions. -/
def Permitted (cache : AccountRestrictionCache) : Prop :=
  ∀ sender, operationRestrictionValidator relevantEntityType cache sender = true

private theorem isAllowed_iff {restriction : AccountRestriction} {value : List ℕ} :
    isAllowed restriction value = true ↔ restriction.values = ∅ ∨
      match restriction.operationType with
      | .allow => value ∈ restriction.values
      | .block => value ∉ restriction.values := by
  rw [isAllowed]
  split
  case isTrue empty => simp [empty]
  case isFalse filled => cases restriction.operationType <;> simp [filled]

/-- What one accepted modification does, if the values are empty or were modified in its mode. -/
private theorem modified_isAllowed {relevant value : List ℕ} {values : Finset (List ℕ)}
    {before after : OperationType} {action : ModificationAction}
    (allowed : isAllowed ⟨before, values⟩ relevant = true) (mode : values = ∅ ∨ before = after)
    (safe : match action with
      | .add => (after = .allow → value = relevant ∨ values ≠ ∅) ∧
        (after = .block → value ≠ relevant)
      | .del => after = .allow → value ≠ relevant) :
    let next := modifiedValues action value values
    isAllowed ⟨if next = ∅ then .block else after, next⟩ relevant = true := by
  intro next
  rw [isAllowed_iff] at allowed ⊢
  by_cases empty : next = ∅
  · exact .inl empty
  rw [if_neg empty]
  refine .inr ?_
  cases after with
  | allow =>
    have kept (filled : values ≠ ∅) : relevant ∈ values := by
      obtain rfl := mode.resolve_left filled
      exact allowed.resolve_left filled
    cases action with
    | add =>
      rcases safe.1 rfl with rfl | filled
      · exact Finset.mem_insert_self _ _
      · exact Finset.mem_insert_of_mem (kept filled)
    | del =>
      refine Finset.mem_erase.mpr ⟨(safe rfl).symm, kept ?_⟩
      rintro rfl
      exact empty rfl
  | block =>
    have absent : relevant ∉ values := by
      rcases mode with rfl | rfl
      · exact Finset.notMem_empty _
      · rcases allowed with rfl | absent
        · exact Finset.notMem_empty _
        · exact absent
    cases action with
    | add =>
      intro member
      rcases Finset.mem_insert.mp member with same | member
      · exact safe.2 rfl same.symm
      · exact absent member
    | del =>
      exact fun member => absent (Finset.mem_of_mem_erase member)

private theorem kind_eq {kind : RestrictionKind} (size : kind.valueSize = 2) :
    kind = .outgoingTransactionType := by
  cases kind <;> first | rfl | cases size

private theorem toVector_inj {value other : BitVec (8 * 2)} :
    toVector value = toVector other ↔ value = other := by
  refine ⟨fun same => ?_, congrArg _⟩
  have words := congrArg (Library.Bytes.ofWord 2) same
  rwa [toVector, toVector, Library.Bytes.ofWord_word, Library.Bytes.ofWord_word] at words

/-- The operation restriction an observer finds, which is empty for a missing entry. -/
private def current (cache : AccountRestrictionCache) (address : Address) : AccountRestriction :=
  (cache address).getD .initial .outgoingTransactionType

private theorem isAllowed_current {cache : AccountRestrictionCache} {sender : Address} :
    operationRestrictionValidator relevantEntityType cache sender =
      isAllowed (current cache sender) (toVector relevantEntityType) := by
  rw [operationRestrictionValidator, current]
  cases cache sender <;> rfl

section
variable {notification : ModifyOperationRestrictionValueNotification}
  {before after : AccountRestrictionCache}

private theorem modify_eq_some {kind : RestrictionKind}
    {restriction modified : AccountRestriction} {action : ModificationAction} {value : List ℕ}
    {mode : OperationType} (done : modify kind restriction action value mode = some modified) :
    kind.valueSize = value.length ∧
      let next := modifiedValues action value restriction.values
      modified = ⟨if next = ∅ then .block else mode, next⟩ := by
  by_cases size : kind.valueSize = value.length
  · refine ⟨size, ?_⟩
    cases mode <;> simp_all [modify, allow, block, update, eq_comm]
  · cases mode <;> simp [modify, allow, block, update, size] at done

/-- Only operation restrictions have values of this size. -/
private theorem observer_spec
    (observed : valueModificationObserver notification before = some after) :
    RestrictionKind.ofFlags (directionalRestrictionFlags notification.restrictionFlags) =
      some .outgoingTransactionType ∧
    (∀ sender ≠ notification.address, after sender = before sender) ∧
    let next := modifiedValues notification.action (toVector notification.restrictionValue)
      (current before notification.address).values
    current after notification.address =
      ⟨if next = ∅ then .block else operationType notification.restrictionFlags, next⟩ := by
  simp only [valueModificationObserver, Option.bind_eq_bind, Option.bind_eq_some_iff,
    Option.pure_def, Option.some.injEq] at observed
  obtain ⟨kind, flags, restriction, modified, rfl⟩ := observed
  obtain ⟨size, isNext⟩ := modify_eq_some modified
  obtain rfl := kind_eq (size.trans (Library.Bytes.length_word 2 _))
  refine ⟨flags, fun sender other => Function.update_of_ne other _ _, ?_⟩
  intro next
  change restriction = ⟨if next = ∅ then .block else _, next⟩ at isNext
  rw [current, Function.update_self]
  split
  case isTrue empty =>
    have none : next = ∅ := by
      simp only [AccountRestrictions.isEmpty, List.all_cons, Function.update_self,
        Bool.and_eq_true, decide_eq_true_eq] at empty
      rw [← empty.2.2.2.1, isNext]
    rw [none, if_pos rfl]
    rfl
  case isFalse =>
    rw [← isNext, Option.getD_some, Function.update_self]

/-- An accepted notification is for the mode of the values that are there. -/
private theorem mode_of_valid
    (flags : RestrictionKind.ofFlags (directionalRestrictionFlags notification.restrictionFlags) =
      some .outgoingTransactionType)
    (valid : valueModificationValidator notification before = some true) :
    (current before notification.address).values = ∅ ∨
      (current before notification.address).operationType =
        operationType notification.restrictionFlags := by
  rw [current]
  rw [valueModificationValidator] at valid
  cases entry : before notification.address with
  | none => exact .inl rfl
  | some restrictions =>
    simp only [entry, flags, Option.bind_eq_bind, Option.bind_some, isOperationAllowed] at valid
    split at valid
    · cases valid
    · simp only [Option.some.injEq, Bool.and_eq_true, Bool.or_eq_true, decide_eq_true_eq] at valid
      exact valid.1

private theorem safe_of_valid (valid : noSelfBlockingValidator notification before = true) :
    match notification.action with
    | .add => (operationType notification.restrictionFlags = .allow →
          toVector notification.restrictionValue = toVector relevantEntityType ∨
            (current before notification.address).values ≠ ∅) ∧
        (operationType notification.restrictionFlags = .block →
          toVector notification.restrictionValue ≠ toVector relevantEntityType)
    | .del => operationType notification.restrictionFlags = .allow →
        toVector notification.restrictionValue ≠ toVector relevantEntityType := by
  have count : (match before notification.address with
      | none => 0
      | some restrictions => (restrictions .outgoingTransactionType).values.card) =
      (current before notification.address).values.card := by
    rw [current]
    cases before notification.address <;> rfl
  simp only [noSelfBlockingValidator, count] at valid
  cases action : notification.action with
  | add =>
    cases mode : operationType notification.restrictionFlags <;>
      simp_all [toVector_inj, or_iff_not_imp_left]
  | del =>
    simp_all [toVector_inj, imp_iff_not_or]

/-- One notification does not lock any account out. -/
private theorem notify_preserves : Preserves Permitted (notify notification) := by
  intro before after permitted done sender
  simp only [notify, Option.bind_eq_bind, Option.bind_eq_some_iff] at done
  obtain ⟨isValid, validated, done⟩ := done
  split at done
  case isFalse => cases done
  case isTrue valid =>
    obtain ⟨rfl, safe⟩ := Bool.and_eq_true_iff.mp valid
    obtain ⟨flags, others, next⟩ := observer_spec done
    by_cases same : sender = notification.address
    · rw [same, isAllowed_current, next]
      refine modified_isAllowed ?_ (mode_of_valid flags validated) (safe_of_valid safe)
      rw [← isAllowed_current]
      exact permitted notification.address
    · rw [operationRestrictionValidator, others sender same]
      exact permitted sender

end

/-- No sequence of accepted operation restriction transactions takes from any account the
permission to send the next one. -/
theorem no_account_locks_itself_out
    {others : AccountOperationRestrictionTransaction → AccountRestrictionCache → Bool}
    {transactions : List AccountOperationRestrictionTransaction}
    {before after : AccountRestrictionCache}
    (unrestricted : ∀ address restrictions, before address = some restrictions →
      (restrictions .outgoingTransactionType).values = ∅)
    (accepted : run (transactions.map (execute others)) before = some after) (sender : Address) :
    operationRestrictionValidator relevantEntityType after sender = true := by
  have executed (transaction : AccountOperationRestrictionTransaction) :
      Preserves Permitted (execute others transaction) := by
    intro first last permitted done
    rw [execute] at done
    split at done
    · exact Preserves.run (fun _ _ => notify_preserves) first last permitted done
    · cases done
  refine Preserves.run (fun transaction _ => executed transaction) before after ?_ accepted sender
  intro address
  rw [operationRestrictionValidator]
  cases entry : before address with
  | none => rfl
  | some restrictions => exact isAllowed_iff.mpr (.inl (unrestricted address restrictions entry))

/-- One account starts to allow two operations, and then drops one of them again. -/
theorem no_account_locks_itself_out_of_two :
    ∃ after, run ([⟨0, 0x4004, [0x4350, 0x4154], []⟩, ⟨0, 0x4004, [], [0x4154]⟩].map
        (execute fun _ _ => true)) (fun _ => none) = some after ∧
      operationRestrictionValidator 0x4154 after 0 = false ∧
      ∀ sender, operationRestrictionValidator relevantEntityType after sender = true := by
  have dropped : (run ([⟨0, 0x4004, [0x4350, 0x4154], []⟩, ⟨0, 0x4004, [], [0x4154]⟩].map
      (execute fun _ _ => true)) (fun _ => none)).map
        (operationRestrictionValidator 0x4154 · 0) = some false := by
    decide +kernel
  obtain ⟨after, accepted, prohibited⟩ := Option.map_eq_some_iff.mp dropped
  exact ⟨after, accepted, prohibited, no_account_locks_itself_out (by simp) accepted⟩

end BitxorCore.Restriction
