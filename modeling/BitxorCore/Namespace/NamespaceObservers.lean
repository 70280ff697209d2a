/- GID: Namespace/NamespaceObservers
   anchors: [plugins/txes/namespace]
   digest: What the namespace plugin publishes, and the validators and observers it registers. -/

import BitxorCore.Cache.IdentifierGroupCacheUtils
import BitxorCore.Chain.BlockExecutor
import BitxorCore.Namespace.RootNamespaceHistory

set_option autoImplicit false
set_option relaxedAutoImplicit false

namespace BitxorCore.Namespaces
open Cache Library.FiniteMap State

abbrev NamespaceByIdMap := Map NamespaceId Namespace

namespace NamespaceByIdMap

variable (namespaceById : NamespaceByIdMap)

def addAll (children : Children) : NamespaceByIdMap :=
  children.foldl (fun flatMap child => flatMap.insert child.ns.id child.ns) namespaceById

def removeAll (children : Children) : NamespaceByIdMap :=
  children.foldl (fun flatMap child => flatMap.erase child.ns.id) namespaceById

end NamespaceByIdMap

structure NamespaceSizes where
  active : BitVec 64
  deep : BitVec 64
  deriving DecidableEq

structure NamespaceCache where
  historyById : Map NamespaceId RootNamespaceHistory
  namespaceById : NamespaceByIdMap
  rootNamespaceIdsByExpiryHeight : GroupedSet Height NamespaceId
  sizes : NamespaceSizes

namespace NamespaceCache

def empty : NamespaceCache := ⟨∅, ∅, ∅, 0, 0⟩

variable (cache : NamespaceCache) (id : NamespaceId)

def contains : Bool :=
  (cache.namespaceById.lookup id).isSome

/-- An active namespace together with the newest version of its root. -/
def find : Option (Namespace × RootNamespace) := do
  let ns ← cache.namespaceById.lookup id
  let history ← cache.historyById.lookup ns.rootId
  let root ← history.back
  return (ns, root)

/-- Registers a version of a root. Children of a version it does not extend become inactive. -/
def insertRoot (root : RootNamespace) : Option NamespaceCache :=
  let rootNamespaceIdsByExpiryHeight := addIdentifierWithGroup
    cache.rootNamespaceIdsByExpiryHeight root.lifetime.endHeight root.id
  match cache.historyById.lookup root.id with
  | some history => do
    let prev ← history.back
    let numChildren := BitVec.ofNat 64 prev.children.length
    return {
      historyById := cache.historyById.insert root.id
        (history.pushBack root.ownerAddress root.lifetime)
      namespaceById := if root.canExtend prev then cache.namespaceById
        else cache.namespaceById.removeAll prev.children
      rootNamespaceIdsByExpiryHeight
      sizes := if root.canExtend prev then
          { cache.sizes with deep := cache.sizes.deep + numChildren + 1 }
        else ⟨cache.sizes.active - numChildren, cache.sizes.deep + 1⟩ }
  | none => some {
      historyById := cache.historyById.insert root.id
        ((RootNamespaceHistory.mk root.id []).pushBack root.ownerAddress root.lifetime)
      namespaceById := cache.namespaceById.insert root.id (.ofRoot root.id)
      rootNamespaceIdsByExpiryHeight
      sizes := ⟨cache.sizes.active + 1, cache.sizes.deep + 1⟩ }

def insertChild (ns : Namespace) : Option NamespaceCache := do
  let history ← cache.historyById.lookup ns.rootId
  let added ← history.addChild ns
  let depth := BitVec.ofNat 64 added.activeOwnerHistoryDepth
  return { cache with
    historyById := cache.historyById.insert ns.rootId added
    namespaceById := cache.namespaceById.insert ns.id ns
    sizes := ⟨cache.sizes.active + 1, cache.sizes.deep + depth⟩ }

def setAlias (namespaceAlias : NamespaceAlias) : Option NamespaceCache := do
  let ns ← cache.namespaceById.lookup id
  let history ← cache.historyById.lookup ns.rootId
  let changed ← history.setAlias id namespaceAlias
  return { cache with historyById := cache.historyById.insert ns.rootId changed }

/-- Removes the newest version of a root; the children of the version before become active again
unless they already were. The only version of a root has to be without children. -/
def removeRoot : Option NamespaceCache := do
  let history ← cache.historyById.lookup id
  match history.roots with
  | [] => none
  | [removedRoot] =>
    if removedRoot.children.isEmpty then
      some {
        historyById := cache.historyById.erase id
        namespaceById := cache.namespaceById.erase id
        rootNamespaceIdsByExpiryHeight := removeIdentifierWithGroup
          cache.rootNamespaceIdsByExpiryHeight removedRoot.lifetime.endHeight id
        sizes := ⟨cache.sizes.active - 1, cache.sizes.deep - 1⟩ }
    else none
  | removedRoot :: currentRoot :: older =>
    let numRemovedChildren := BitVec.ofNat 64 removedRoot.children.length
    let numCurrentChildren := BitVec.ofNat 64 currentRoot.children.length
    some {
      historyById := cache.historyById.insert id { history with roots := currentRoot :: older }
      namespaceById := if removedRoot.canExtend currentRoot then cache.namespaceById
        else (cache.namespaceById.removeAll removedRoot.children).addAll currentRoot.children
      rootNamespaceIdsByExpiryHeight := removeIdentifierWithGroup
        cache.rootNamespaceIdsByExpiryHeight removedRoot.lifetime.endHeight id
      sizes := {
        active := if removedRoot.canExtend currentRoot then cache.sizes.active
          else cache.sizes.active - numRemovedChildren + numCurrentChildren
        deep := cache.sizes.deep - (1 + numRemovedChildren) } }

def removeChild (ns : Namespace) : Option NamespaceCache := do
  let history ← cache.historyById.lookup ns.rootId
  let removed ← history.removeChild ns.id
  let depth := BitVec.ofNat 64 removed.activeOwnerHistoryDepth
  return { cache with
    historyById := cache.historyById.insert ns.rootId removed
    namespaceById := cache.namespaceById.erase ns.id
    sizes := ⟨cache.sizes.active - 1, cache.sizes.deep - depth⟩ }

def remove : Option NamespaceCache := do
  let ns ← cache.namespaceById.lookup id
  if ns.rootId = id then cache.removeRoot id else cache.removeChild ns

def historySizes (history : RootNamespaceHistory) : NamespaceSizes where
  active := match history.roots with
    | [] => 0
    | back :: _ => 1 + BitVec.ofNat 64 back.children.length
  deep := BitVec.ofNat 64
    (history.roots.length + (history.roots.map fun root => root.children.length).sum)

def pruneHistory (height : Height) (cache : NamespaceCache) (history : RootNamespaceHistory) :
    NamespaceCache :=
  let (pruned, removedIds) := history.prune height
  let originalSizes := historySizes history
  let newSizes := historySizes pruned
  { cache with
    historyById := if pruned.roots.isEmpty then cache.historyById.erase history.id
      else cache.historyById.insert history.id pruned
    namespaceById := removedIds.foldl (fun flatMap id => flatMap.erase id) cache.namespaceById
    sizes := ⟨cache.sizes.active - (originalSizes.active - newSizes.active),
      cache.sizes.deep - (originalSizes.deep - newSizes.deep)⟩ }

/-- Prunes the histories of the roots in the group of a height. -/
def prune (height : Height) : NamespaceCache :=
  (cache.rootNamespaceIdsByExpiryHeight.identifiers height).foldl
    (fun pruned id => match pruned.historyById.lookup id with
      | none => pruned
      | some history => pruneHistory height pruned history) cache

end NamespaceCache

open Chain Library.PartialAction

/-- Settings of the namespace plugin, with durations in blocks, and the hash the ids come from. -/
structure NamespaceConfiguration where
  maxNameSize : BitVec 8
  maxChildNamespaces : BitVec 16
  maxNamespaceDepth : BitVec 8
  minNamespaceDuration : BlockDuration
  maxNamespaceDuration : BlockDuration
  namespaceGracePeriodDuration : BlockDuration
  reservedRootNamespaceNames : List (List (BitVec 8))
  rootNamespaceRentalFeePerBlock : BitVec 64
  childNamespaceRentalFee : BitVec 64
  rootNamespaceEternalFee : BitVec 64
  generateNamespaceId : NamespaceId → List (BitVec 8) → NamespaceId

inductive NamespaceValidationResult where
  | success
  | failureNamespaceInvalidDuration
  | failureNamespaceInvalidName
  | failureNamespaceNameIdMismatch
  | failureNamespaceExpired
  | failureNamespaceOwnerConflict
  | failureNamespaceInvalidRegistrationType
  | failureNamespaceRootNameReserved
  | failureNamespaceTooDeep
  | failureNamespaceUnknownParent
  | failureNamespaceAlreadyExists
  | failureNamespaceMaxChildrenExceeded
  | failureNamespaceAliasInvalidAction
  | failureNamespaceUnknown
  | failureNamespaceAliasAlreadyExists
  | failureNamespaceUnknownAlias
  | failureNamespaceAliasInconsistentUnlinkType
  | failureNamespaceAliasInconsistentUnlinkData
  | failureNamespaceAliasInvalidAddress
  deriving DecidableEq, Repr

/-- Registration types are bytes; values up to `isoCode` are valid. -/
abbrev NamespaceRegistrationType := BitVec 8

def NamespaceRegistrationType.root : NamespaceRegistrationType := 0

def NamespaceRegistrationType.child : NamespaceRegistrationType := 1

def NamespaceRegistrationType.isoCode : NamespaceRegistrationType := 2

/-- Alias actions are bytes; values up to `link` are valid. -/
abbrev AliasAction := BitVec 8

def AliasAction.unlink : AliasAction := 0

def AliasAction.link : AliasAction := 1

/-- The notifications of namespace and alias transactions that validators or observers of the
plugin react to; fees are charged by notifications of other plugins. -/
inductive NamespaceNotification where
  | registration (registrationType : NamespaceRegistrationType)
  | rootNamespace (owner : Address) (namespaceId : NamespaceId) (duration : BlockDuration)
  | childNamespace (owner : Address) (namespaceId parentId : NamespaceId)
  | isoCodeNamespace (owner : Address) (namespaceId parentId : NamespaceId)
  | namespaceName (namespaceId parentId : NamespaceId) (name : List (BitVec 8))
  | namespaceRequired (owner : Address) (namespaceId : NamespaceId)
  | aliasLink (namespaceId : NamespaceId) (aliasAction : AliasAction)
  | aliasedAddress (namespaceId : NamespaceId) (aliasAction : AliasAction) (address : Address)
  | aliasedTokenId (namespaceId : NamespaceId) (aliasAction : AliasAction) (tokenId : TokenId)

/-- The parent id and the duration of a registration share their bytes. -/
structure NamespaceRegistrationTransaction where
  signerAddress : Address
  parentIdOrDuration : BitVec 64
  id : NamespaceId
  registrationType : NamespaceRegistrationType
  name : List (BitVec 8)

namespace NamespaceRegistrationTransaction

variable (cfg : NamespaceConfiguration) (tx : NamespaceRegistrationTransaction)

def parentId : NamespaceId := tx.parentIdOrDuration

def duration : BlockDuration := tx.parentIdOrDuration

def rentalFee : BitVec 64 :=
  if tx.registrationType = .root then
    if tx.duration = eternalArtifactDuration then cfg.rootNamespaceEternalFee
    else if cfg.maxNamespaceDuration < tx.duration then
      cfg.rootNamespaceEternalFee
    else cfg.rootNamespaceRentalFeePerBlock * tx.duration
  else cfg.childNamespaceRentalFee

def publish : List NamespaceNotification :=
  let owner := tx.signerAddress
  .registration tx.registrationType :: if tx.registrationType = .root then
      let duration := if cfg.maxNamespaceDuration < tx.duration then eternalArtifactDuration
        else tx.duration
      [.rootNamespace owner tx.id duration, .namespaceName tx.id namespaceBaseId tx.name]
    else if tx.registrationType = .isoCode then
      [.isoCodeNamespace owner tx.id tx.parentId, .namespaceName tx.id tx.parentId tx.name]
    else
      [.childNamespace owner tx.id tx.parentId, .namespaceName tx.id tx.parentId tx.name]

end NamespaceRegistrationTransaction

inductive AliasedData where
  | address (address : Address)
  | tokenId (tokenId : TokenId)
  deriving DecidableEq

structure AliasTransaction where
  signerAddress : Address
  namespaceId : NamespaceId
  aliasAction : AliasAction
  aliasedData : AliasedData

def AliasTransaction.publish (tx : AliasTransaction) : List NamespaceNotification :=
  [.namespaceRequired tx.signerAddress tx.namespaceId, .aliasLink tx.namespaceId tx.aliasAction,
    match tx.aliasedData with
    | .address address =>
      .aliasedAddress tx.namespaceId tx.aliasAction address
    | .tokenId tokenId =>
      .aliasedTokenId tx.namespaceId tx.aliasAction tokenId]

inductive NamespaceTransaction where
  | registration (tx : NamespaceRegistrationTransaction)
  | namespaceAlias (tx : AliasTransaction)

def NamespaceTransaction.publish (cfg : NamespaceConfiguration) :
    NamespaceTransaction → List NamespaceNotification
  | .registration tx => tx.publish cfg
  | .namespaceAlias tx => tx.publish

section Names

def isAlphaNumeric (ch : BitVec 8) : Bool :=
  (decide (97 ≤ ch) && decide (ch ≤ 122)) || (decide (48 ≤ ch) && decide (ch ≤ 57))

def isValidChar (ch : BitVec 8) : Bool := isAlphaNumeric ch || ch == 45

def isValidName : List (BitVec 8) → Bool
  | [] => false
  | first :: rest => isAlphaNumeric first && rest.all isValidChar

end Names

section Validators
variable (cfg : NamespaceConfiguration) (isKnownAccount : Address → Bool) (height : Height)
  (cache : NamespaceCache)

/-- Validators throw where this is `none`, and pass over notifications of other kinds. -/
abbrev NamespaceValidator := NamespaceNotification → Option NamespaceValidationResult

def namespaceRegistrationTypeValidator : NamespaceValidator
  | .registration registrationType => some <|
    if registrationType ≤ .isoCode then .success else .failureNamespaceInvalidRegistrationType
  | _ => some .success

def namespaceNameValidator : NamespaceValidator
  | .namespaceName namespaceId parentId name => some <|
    if cfg.maxNameSize.toNat < name.length ∨ ¬ isValidName name then
      .failureNamespaceInvalidName
    else if namespaceId ≠ cfg.generateNamespaceId parentId name then
      .failureNamespaceNameIdMismatch
    else .success
  | _ => some .success

def rootNamespaceValidator : NamespaceValidator
  | .rootNamespace _ _ duration => some <|
    if cfg.minNamespaceDuration ≤ duration ∨ duration = eternalArtifactDuration then .success
    else .failureNamespaceInvalidDuration
  | _ => some .success

def namespaceReservedNameValidator : NamespaceValidator
  | .namespaceName namespaceId parentId _ => some <| if height = 1 then .success
    else
      let reservedRootIds := cfg.reservedRootNamespaceNames.map
        (cfg.generateNamespaceId namespaceBaseId)
      let id := if parentId = namespaceBaseId then namespaceId else parentId
      if reservedRootIds.contains id then .failureNamespaceRootNameReserved else .success
  | _ => some .success

def rootNamespaceAvailabilityValidator : NamespaceValidator
  | .rootNamespace owner namespaceId _ => some <| match cache.find namespaceId with
    | none => .success
    | some (_, root) =>
      if root.lifetime.endHeight = maxHeight then .failureNamespaceInvalidDuration
      else if ¬ root.lifetime.isActive height then .success
      else if root.ownerAddress = owner then .success
      else .failureNamespaceOwnerConflict
  | _ => some .success

def addOverflows (height : Height) (duration : BlockDuration) : Bool :=
  decide (height + duration < height)

def namespaceDurationOverflowValidator : NamespaceValidator
  | .rootNamespace _ namespaceId duration => some <|
    if addOverflows height duration then .failureNamespaceInvalidDuration
    else match cache.find namespaceId with
      | none => .success
      | some (_, root) =>
        if ¬ root.lifetime.isActive height then .success
        else if addOverflows root.lifetime.endHeight duration then
          .failureNamespaceInvalidDuration
        else
          let maxLifetime := cfg.maxNamespaceDuration + cfg.namespaceGracePeriodDuration
          let newLifetimeEnd := root.lifetime.endHeight + duration
          let maxLifetimeEnd :=
            if addOverflows height maxLifetime then maxHeight else height + maxLifetime
          if maxLifetimeEnd < newLifetimeEnd then .failureNamespaceInvalidDuration else .success
  | _ => some .success

def childNamespaceAvailabilityValidator : NamespaceValidator
  | .childNamespace owner namespaceId parentId =>
    if cache.contains namespaceId then some .failureNamespaceAlreadyExists
    else match cache.find parentId with
      | none => some .failureNamespaceUnknownParent
      | some (parent, root) =>
        if cfg.maxNamespaceDepth.toNat = parent.path.length then
          some .failureNamespaceTooDeep
        else do
          let isActive ← root.lifetime.isActiveExcludingGracePeriod height
            cfg.namespaceGracePeriodDuration
          return if ¬ isActive then .failureNamespaceExpired
            else if root.ownerAddress ≠ owner then .failureNamespaceOwnerConflict
            else .success
  | _ => some .success

def rootNamespaceMaxChildrenValidator : NamespaceValidator
  | .childNamespace _ _ parentId => do
    let (_, root) ← cache.find parentId
    return if cfg.maxChildNamespaces.toNat ≤ root.children.length then
        .failureNamespaceMaxChildrenExceeded
      else .success
  | _ => some .success

def requiredNamespaceValidator : NamespaceValidator
  | .namespaceRequired owner namespaceId =>
    match cache.find namespaceId with
    | none => some .failureNamespaceUnknown
    | some (_, root) => do
      let isActive ← root.lifetime.isActiveExcludingGracePeriod height
        cfg.namespaceGracePeriodDuration
      return if ¬ isActive then .failureNamespaceExpired
        else if root.ownerAddress = owner then .success
        else .failureNamespaceOwnerConflict
  | _ => some .success

def aliasActionValidator : NamespaceValidator
  | .aliasLink _ aliasAction => some <|
    if aliasAction ≤ .link then .success else .failureNamespaceAliasInvalidAction
  | _ => some .success

def aliasAvailabilityValidator : NamespaceValidator
  | .aliasLink namespaceId aliasAction =>
    match cache.find namespaceId with
    | none => some .failureNamespaceUnknown
    | some (_, root) => do
      let namespaceAlias ← root.aliasOf namespaceId
      return if aliasAction = .link ∧ namespaceAlias ≠ .none then
          .failureNamespaceAliasAlreadyExists
        else if aliasAction = .unlink ∧ namespaceAlias = .none then .failureNamespaceUnknownAlias
        else .success
  | _ => some .success

/-- The check of what is unlinked, common to both kinds of aliased data. -/
def unlinkAliasedDataConsistencyValidator (namespaceId : NamespaceId) (aliasAction : AliasAction)
    (isAliasedType : NamespaceAlias → Bool) (aliased : NamespaceAlias) :
    Option NamespaceValidationResult :=
  if aliasAction ≠ .unlink then some .success
  else match cache.find namespaceId with
    | none => some .failureNamespaceUnknown
    | some (_, root) => do
      let namespaceAlias ← root.aliasOf namespaceId
      return if ¬ isAliasedType namespaceAlias then .failureNamespaceAliasInconsistentUnlinkType
        else if namespaceAlias ≠ aliased then .failureNamespaceAliasInconsistentUnlinkData
        else .success

def NamespaceAlias.isAddress : NamespaceAlias → Bool
  | .address _ => true
  | _ => false

def NamespaceAlias.isToken : NamespaceAlias → Bool
  | .token _ => true
  | _ => false

def unlinkAliasedAddressConsistencyValidator : NamespaceValidator
  | .aliasedAddress namespaceId aliasAction address =>
    unlinkAliasedDataConsistencyValidator cache namespaceId aliasAction NamespaceAlias.isAddress
      (.address address)
  | _ => some .success

def unlinkAliasedTokenIdConsistencyValidator : NamespaceValidator
  | .aliasedTokenId namespaceId aliasAction tokenId =>
    unlinkAliasedDataConsistencyValidator cache namespaceId aliasAction NamespaceAlias.isToken
      (.token tokenId)
  | _ => some .success

def addressAliasValidator : NamespaceValidator
  | .aliasedAddress _ _ address => some <|
    if isKnownAccount address then .success else .failureNamespaceAliasInvalidAddress
  | _ => some .success

/-- The validators of the plugin, in the order of their registration. The one for the
availability of iso codes is not among them. -/
def registeredValidators : List NamespaceValidator :=
  [namespaceRegistrationTypeValidator, namespaceNameValidator cfg,
    rootNamespaceValidator cfg, aliasActionValidator, namespaceReservedNameValidator cfg height,
    rootNamespaceAvailabilityValidator height cache,
    namespaceDurationOverflowValidator cfg height cache,
    childNamespaceAvailabilityValidator cfg height cache,
    rootNamespaceMaxChildrenValidator cfg cache,
    requiredNamespaceValidator cfg height cache, aliasAvailabilityValidator cache,
    unlinkAliasedAddressConsistencyValidator cache,
    unlinkAliasedTokenIdConsistencyValidator cache, addressAliasValidator isKnownAccount]

def validateWith (notice : NamespaceNotification) :
    List NamespaceValidator → Option NamespaceValidationResult
  | [] => some .success
  | validator :: rest => do
    let result ← validator notice
    if result = .success then validateWith notice rest else return result

end Validators

section Observers
variable (cfg : NamespaceConfiguration) (mode : NotifyMode) (height : Height)

/-- Observers leave the cache alone at notifications of other kinds. -/
abbrev NamespaceObserver := NamespaceNotification → Action NamespaceCache

def isRenewal (root : RootNamespace) (owner : Address) : Bool :=
  root.lifetime.isActive height && root.ownerAddress == owner

def calculateNewLifetime (duration : BlockDuration) : Option NamespaceLifetime :=
  let lifetimeEnd := if duration = eternalArtifactDuration then maxHeight else height + duration
  NamespaceLifetime.create height lifetimeEnd cfg.namespaceGracePeriodDuration

def calculateLifetime (cache : NamespaceCache) (owner : Address) (namespaceId : NamespaceId)
    (duration : BlockDuration) : Option NamespaceLifetime := do
  let newLifetime ← calculateNewLifetime cfg height duration
  match cache.find namespaceId with
  | none => return newLifetime
  | some (_, root) =>
    if ¬ isRenewal height root owner then return newLifetime
    else
      -- if a renewal, the duration adds onto the current expiry
      NamespaceLifetime.create root.lifetime.start (root.lifetime.endHeight + duration) 0

def rootNamespaceObserver : NamespaceObserver
  | .rootNamespace owner namespaceId duration => fun cache =>
    match mode with
    | .rollback => cache.remove namespaceId
    | .commit => do
      let lifetime ← calculateLifetime cfg height cache owner namespaceId duration
      cache.insertRoot (.create namespaceId owner lifetime)
  | _ => some

/-- Adds a namespace under its parent on commit and removes it on rollback. -/
def descendantObserver (namespaceId parentId : NamespaceId) : Action NamespaceCache :=
  fun cache => match mode with
    | .rollback => cache.remove namespaceId
    | .commit => do
      let (parent, _) ← cache.find parentId
      cache.insertChild (parent.createChild namespaceId)

def childNamespaceObserver : NamespaceObserver
  | .childNamespace _ namespaceId parentId => descendantObserver mode namespaceId parentId
  | _ => some

def isoCodeNamespaceObserver : NamespaceObserver
  | .isoCodeNamespace _ namespaceId parentId => descendantObserver mode namespaceId parentId
  | _ => some

def shouldLink (aliasAction : AliasAction) : Bool :=
  match mode with
  | .commit => aliasAction == .link
  | .rollback => aliasAction == .unlink

/-- Links the data or clears the link, common to both kinds of aliased data. -/
def aliasedDataObserver (namespaceId : NamespaceId) (aliasAction : AliasAction)
    (aliased : NamespaceAlias) : Action NamespaceCache := fun cache =>
  cache.setAlias namespaceId (if shouldLink mode aliasAction then aliased else .none)

def aliasedAddressObserver : NamespaceObserver
  | .aliasedAddress namespaceId aliasAction address =>
    aliasedDataObserver mode namespaceId aliasAction (.address address)
  | _ => some

def aliasedTokenIdObserver : NamespaceObserver
  | .aliasedTokenId namespaceId aliasAction tokenId =>
    aliasedDataObserver mode namespaceId aliasAction (.token tokenId)
  | _ => some

/-- The observers of the plugin that change the cache, in the order of their registration. -/
def registeredObservers : List NamespaceObserver :=
  [rootNamespaceObserver cfg mode height, childNamespaceObserver mode,
    aliasedAddressObserver mode, aliasedTokenIdObserver mode]

/-- Notifies the registered observers, in reverse order on rollback. -/
def observeNamespaceNotification (notice : NamespaceNotification) : Action NamespaceCache :=
  let observers := match mode with
    | .commit => registeredObservers cfg mode height
    | .rollback => (registeredObservers cfg mode height).reverse
  run (observers.map fun observer => observer notice)

end Observers

section Processing
variable (cfg : NamespaceConfiguration) (isKnownAccount : Address → Bool) (height : Height)

def processNamespaceNotification (notice : NamespaceNotification) : Action NamespaceCache :=
  fun cache =>
    if validateWith notice (registeredValidators cfg isKnownAccount height cache) =
        some .success then
      observeNamespaceNotification cfg .commit height notice cache
    else none

/-- Validates and observes the notifications of a transaction one after the other. -/
def NamespaceTransaction.accept (tx : NamespaceTransaction) : Action NamespaceCache :=
  run ((tx.publish cfg).map
    (processNamespaceNotification cfg isKnownAccount height))

/-- Observes the notifications of a transaction in reverse order and in rollback mode. -/
def NamespaceTransaction.undo (tx : NamespaceTransaction) : Action NamespaceCache :=
  run ((tx.publish cfg).reverse.map
    (observeNamespaceNotification cfg .rollback height))

end Processing

section Lemmas
variable {cfg : NamespaceConfiguration} {isKnownAccount : Address → Bool} {height : Height}
  {mode : NotifyMode} {cache next : NamespaceCache} {notice : NamespaceNotification}

private theorem validateWith_eq_success {validators : List NamespaceValidator} :
    validateWith notice validators = some .success ↔
      ∀ validator ∈ validators, validator notice = some .success := by
  induction validators with
  | nil => simp [validateWith]
  | cons validator rest ih =>
    rw [validateWith, List.forall_mem_cons, ← ih]
    cases result : validator notice with
    | none => simp
    | some value =>
      by_cases passed : value = .success
      · simp [passed]
      · simp [passed]

theorem processNamespaceNotification_eq_some :
    processNamespaceNotification cfg isKnownAccount height notice cache = some next ↔
      (∀ validator ∈ registeredValidators cfg isKnownAccount height cache,
        validator notice = some .success) ∧
        observeNamespaceNotification cfg .commit height notice cache = some next := by
  unfold processNamespaceNotification
  rw [← validateWith_eq_success]
  split
  · simp [*]
  · simp [*]

/-! Each notification that changes the cache has one registered observer. -/

private theorem run_pass (observer : Action NamespaceCache) (before after : Nat) :
    run (List.replicate before some ++ observer :: List.replicate after some) = observer := by
  have pass : ∀ count, run (List.replicate count (some : Action NamespaceCache)) = some := by
    intro count
    induction count with
    | zero => rfl
    | succ count ih =>
      funext cache
      rw [List.replicate_succ, run_cons, ih]
      rfl
  funext cache
  rw [run_append, pass, Option.bind_some, run_cons, pass]
  cases observer cache <;> rfl

theorem observe_rootNamespace (owner : Address) (namespaceId : NamespaceId)
    (duration : BlockDuration) :
    observeNamespaceNotification cfg mode height (.rootNamespace owner namespaceId duration) =
      rootNamespaceObserver cfg mode height (.rootNamespace owner namespaceId duration) := by
  cases mode
  · exact run_pass _ 0 3
  · exact run_pass _ 3 0

theorem observe_childNamespace (owner : Address) (namespaceId parentId : NamespaceId) :
    observeNamespaceNotification cfg mode height
        (.childNamespace owner namespaceId parentId) =
      descendantObserver mode namespaceId parentId := by
  cases mode
  · exact run_pass _ 1 2
  · exact run_pass _ 2 1

variable (namespaceId : NamespaceId) (aliasAction : AliasAction)

theorem observe_aliasedAddress (address : Address) :
    observeNamespaceNotification cfg mode height
        (.aliasedAddress namespaceId aliasAction address) =
      aliasedDataObserver mode namespaceId aliasAction (.address address) := by
  cases mode
  · exact run_pass _ 2 1
  · exact run_pass _ 1 2

theorem observe_aliasedTokenId (tokenId : TokenId) :
    observeNamespaceNotification cfg mode height
        (.aliasedTokenId namespaceId aliasAction tokenId) =
      aliasedDataObserver mode namespaceId aliasAction (.token tokenId) := by
  cases mode
  · exact run_pass _ 3 0
  · exact run_pass _ 0 3

/-- Notifications that no registered observer reacts to; iso codes are among them. -/
def NamespaceNotification.IsUnobserved : NamespaceNotification → Prop
  | .registration _ => True
  | .isoCodeNamespace _ _ _ => True
  | .namespaceName _ _ _ => True
  | .namespaceRequired _ _ => True
  | .aliasLink _ _ => True
  | _ => False

theorem observe_unobserved (unobserved : notice.IsUnobserved) :
    observeNamespaceNotification cfg mode height notice = some := by
  cases notice with
  | registration | isoCodeNamespace | namespaceName | namespaceRequired | aliasLink =>
    cases mode <;> exact run_pass some 0 3
  | rootNamespace | childNamespace | aliasedAddress | aliasedTokenId => exact unobserved.elim

end Lemmas

end BitxorCore.Namespaces
