/- GID: Namespace/NamespaceLifetimes
   anchors: [plugins/txes/namespace]
   digest: Which accepted root registrations give the lifetime that was paid for. -/

import BitxorCore.Namespace.NamespaceObservers

set_option autoImplicit false
set_option relaxedAutoImplicit false

namespace BitxorCore.Namespaces
open Chain Library.FiniteMap Library.PartialAction State NamespaceTransaction Option

variable {cfg : NamespaceConfiguration} {isKnownAccount : Address → Bool} {height : Height}
  {cache next : NamespaceCache} {tx : NamespaceRegistrationTransaction}

def NamespaceRegistrationTransaction.effectiveDuration (cfg : NamespaceConfiguration)
    (tx : NamespaceRegistrationTransaction) : BlockDuration :=
  if cfg.maxNamespaceDuration < tx.duration then eternalArtifactDuration
  else tx.duration

/-- What validators and observer establish of a root namespace notification. -/
structure RootAccepted (cfg : NamespaceConfiguration) (height : Height)
    (cache : NamespaceCache) (owner : Address) (namespaceId : NamespaceId)
    (duration : BlockDuration) (lifetime : NamespaceLifetime) : Prop where
  fits : ¬ addOverflows height duration
  available : ∀ ns root, cache.find namespaceId = some (ns, root) →
    root.lifetime.endHeight ≠ maxHeight ∧
      (root.lifetime.isActive height → root.ownerAddress = owner ∧
        ¬ addOverflows root.lifetime.endHeight duration)
  calculated : calculateLifetime cfg height cache owner namespaceId duration = some lifetime

/-- What validators and observer establish of a child namespace notification. -/
structure ChildAccepted (cfg : NamespaceConfiguration) (height : Height)
    (cache : NamespaceCache) (owner : Address) (namespaceId parentId : NamespaceId)
    (parent : Namespace) (root : RootNamespace) : Prop where
  fresh : cache.contains namespaceId = false
  found : cache.find parentId = some (parent, root)
  depth : cfg.maxNamespaceDepth.toNat ≠ parent.path.length
  active : root.lifetime.isActiveExcludingGracePeriod height
    cfg.namespaceGracePeriodDuration = some true
  owned : root.ownerAddress = owner
  children : root.children.length < cfg.maxChildNamespaces.toNat

section Registration

theorem publish_root (isRoot : tx.registrationType = .root) : (registration tx).publish cfg =
      [.registration tx.registrationType, .rootNamespace tx.signerAddress tx.id
          (tx.effectiveDuration cfg),
        .namespaceName tx.id namespaceBaseId tx.name] := by
  simp only [publish, NamespaceRegistrationTransaction.publish, isRoot,
    ↓reduceIte, NamespaceRegistrationTransaction.effectiveDuration]

theorem publish_isoCode (isIsoCode : tx.registrationType = .isoCode) :
    (registration tx).publish cfg = [.registration tx.registrationType,
        .isoCodeNamespace tx.signerAddress tx.id tx.parentId,
        .namespaceName tx.id tx.parentId tx.name] := by
  simp only [publish, NamespaceRegistrationTransaction.publish, isIsoCode]
  rfl

theorem publish_child (isNotRoot : tx.registrationType ≠ .root)
    (isNotIsoCode : tx.registrationType ≠ .isoCode) : (registration tx).publish cfg =
      [.registration tx.registrationType, .childNamespace tx.signerAddress tx.id tx.parentId,
        .namespaceName tx.id tx.parentId tx.name] := by
  simp only [publish, NamespaceRegistrationTransaction.publish, isNotRoot, isNotIsoCode, ↓reduceIte]

variable {namespaceId parentId : NamespaceId}

private theorem accept_registration {middle : NamespaceNotification} {name : List (BitVec 8)}
    {registrationType : NamespaceRegistrationType}
    (accepted : run ([.registration registrationType, middle,
      .namespaceName namespaceId parentId name].map
        (processNamespaceNotification cfg isKnownAccount height)) cache = some next) :
    (∀ validator ∈ registeredValidators cfg isKnownAccount height cache,
      validator middle = some .success) ∧
        observeNamespaceNotification cfg .commit height middle cache = some next := by
  obtain ⟨first, registered, accepted⟩ := run_cons_eq_some.mp accepted
  obtain ⟨second, changed, accepted⟩ := run_cons_eq_some.mp accepted
  rw [List.map_singleton, run_singleton] at accepted
  obtain ⟨_, firstObserved⟩ := processNamespaceNotification_eq_some.mp registered
  obtain ⟨_, lastObserved⟩ := processNamespaceNotification_eq_some.mp accepted
  rw [observe_unobserved (by exact trivial)] at firstObserved lastObserved
  cases firstObserved
  cases lastObserved
  exact processNamespaceNotification_eq_some.mp changed

private theorem rootAccepted_of_validators {owner : Address} {namespaceId : NamespaceId}
    {duration : BlockDuration} {lifetime : NamespaceLifetime}
    (available : rootNamespaceAvailabilityValidator height cache
      (.rootNamespace owner namespaceId duration) = some .success)
    (fits : namespaceDurationOverflowValidator cfg height cache
      (.rootNamespace owner namespaceId duration) = some .success)
    (calculated : calculateLifetime cfg height cache owner namespaceId duration = some lifetime) :
    RootAccepted cfg height cache owner namespaceId duration lifetime := by
  unfold rootNamespaceAvailabilityValidator at available
  unfold namespaceDurationOverflowValidator at fits
  refine ⟨?_, fun ns root found => ?_, calculated⟩
  · intro overflow
    simp [overflow] at fits
  · simp only [found, some_inj] at available fits
    split at available
    · cases available
    · rename_i finite
      refine ⟨finite, fun active => ?_⟩
      rw [if_neg (fun inactive => inactive active)] at available
      split at available
      · rename_i owned
        refine ⟨owned, fun overflow => ?_⟩
        simp [active, overflow] at fits
      · cases available

theorem accept_root (isRoot : tx.registrationType = .root)
    (accepted : (registration tx).accept cfg isKnownAccount
      height cache = some next) :
    ∃ lifetime, RootAccepted cfg height cache tx.signerAddress tx.id
        (tx.effectiveDuration cfg) lifetime ∧
      cache.insertRoot (.create tx.id tx.signerAddress lifetime) = some next := by
  rw [accept, publish_root isRoot] at accepted
  obtain ⟨valid, observed⟩ := accept_registration accepted
  rw [observe_rootNamespace] at observed
  obtain ⟨lifetime, calculated, inserted⟩ := bind_eq_some_iff.mp observed
  exact ⟨lifetime, rootAccepted_of_validators (valid _ (by simp [registeredValidators]))
    (valid _ (by simp [registeredValidators])) calculated, inserted⟩

theorem accept_isoCode (isIsoCode : tx.registrationType = .isoCode)
    (accepted : (registration tx).accept cfg isKnownAccount
      height cache = some next) : next = cache := by
  rw [accept, publish_isoCode isIsoCode] at accepted
  obtain ⟨_, observed⟩ := accept_registration accepted
  rw [observe_unobserved (by exact trivial)] at observed
  cases observed
  rfl

private theorem childAccepted_of_validators {owner : Address}
    (available : childNamespaceAvailabilityValidator cfg height cache
      (.childNamespace owner namespaceId parentId) = some .success)
    (bounded : rootNamespaceMaxChildrenValidator cfg cache
      (.childNamespace owner namespaceId parentId) = some .success) :
    ∃ parent root, ChildAccepted cfg height cache owner namespaceId parentId parent root := by
  unfold childNamespaceAvailabilityValidator at available
  unfold rootNamespaceMaxChildrenValidator at bounded
  dsimp only at available bounded
  split at available
  · cases available
  · rename_i fresh
    cases found : cache.find parentId with
    | none =>
      rw [found] at available
      cases available
    | some entry =>
      obtain ⟨parent, root⟩ := entry
      rw [found] at available bounded
      dsimp only at available
      split at available
      · cases available
      · rename_i depth
        obtain ⟨isActive, active, available⟩ := bind_eq_some_iff.mp available
        cases isActive with
        | false => simp at available
        | true =>
          refine ⟨parent, root, Bool.eq_false_of_not_eq_true fresh, found, depth, active, ?_, ?_⟩
          · simp_all
          · simp_all

section
variable (accepted : (registration tx).accept cfg isKnownAccount height cache = some next)
include accepted

theorem accept_child (isNotRoot : tx.registrationType ≠ .root)
    (isNotIsoCode : tx.registrationType ≠ .isoCode) :
    ∃ parent root, ChildAccepted cfg height cache tx.signerAddress tx.id
        tx.parentId parent root ∧
      cache.insertChild (parent.createChild tx.id) = some next := by
  rw [accept, publish_child isNotRoot isNotIsoCode] at accepted
  obtain ⟨valid, observed⟩ := accept_registration accepted
  rw [observe_childNamespace] at observed
  obtain ⟨parent, root, checked⟩ := childAccepted_of_validators
    (valid (childNamespaceAvailabilityValidator cfg height cache)
      (by simp [registeredValidators]))
    (valid (rootNamespaceMaxChildrenValidator cfg cache) (by simp [registeredValidators]))
  refine ⟨parent, root, checked, ?_⟩
  simpa [descendantObserver, checked.found] using observed

theorem accept_registrationType : tx.registrationType ≤ .isoCode := by
  obtain ⟨first, registered, _⟩ := run_cons_eq_some.mp accepted
  have valid := (processNamespaceNotification_eq_some.mp registered).1
    namespaceRegistrationTypeValidator (by simp [registeredValidators])
  unfold namespaceRegistrationTypeValidator at valid
  by_contra invalid
  simp [invalid] at valid

end

end Registration

def AliasedData.toAlias : AliasedData → NamespaceAlias
  | .address aliased => .address aliased
  | .tokenId aliased => .token aliased

structure AliasAccepted (cfg : NamespaceConfiguration) (height : Height)
    (cache : NamespaceCache) (tx : AliasTransaction) (root : RootNamespace)
    (current : NamespaceAlias) : Prop where
  found : ∃ ns, cache.find tx.namespaceId = some (ns, root)
  active : root.lifetime.isActiveExcludingGracePeriod height
    cfg.namespaceGracePeriodDuration = some true
  known : root.aliasOf tx.namespaceId = some current
  action : tx.aliasAction = .link ∨ tx.aliasAction = .unlink
  linked : tx.aliasAction = .link → current = .none
  unlinked : tx.aliasAction = .unlink → current = tx.aliasedData.toAlias

section Alias
variable {aliasTransaction : AliasTransaction}

variable {aliasAction : AliasAction}

private theorem action_cases (valid : aliasAction ≤ .link) :
    aliasAction = .link ∨ aliasAction = .unlink := by
  simp only [AliasAction.link, AliasAction.unlink, BitVec.le_def, ← BitVec.toNat_inj] at valid ⊢
  simp at valid ⊢
  omega

variable {namespaceId : NamespaceId}

private theorem aliasOf_of_availability
    (available : aliasAvailabilityValidator cache (.aliasLink namespaceId aliasAction) =
      some .success) :
    ∃ ns root current, cache.find namespaceId = some (ns, root) ∧
      root.aliasOf namespaceId = some current ∧
      (aliasAction = .link → current = .none) := by
  unfold aliasAvailabilityValidator at available
  dsimp only at available
  cases found : cache.find namespaceId with
  | none =>
    rw [found] at available
    cases available
  | some entry =>
    obtain ⟨ns, root⟩ := entry
    rw [found] at available
    obtain ⟨current, known, available⟩ := bind_eq_some_iff.mp available
    refine ⟨ns, root, current, rfl, known, fun isLink => ?_⟩
    by_contra linked
    simp [isLink, linked] at available

variable {root : RootNamespace} {ns : Namespace}

private theorem active_of_required {owner : Address}
    (found : cache.find namespaceId = some (ns, root))
    (required : requiredNamespaceValidator cfg height cache
      (.namespaceRequired owner namespaceId) = some .success) :
    root.lifetime.isActiveExcludingGracePeriod height cfg.namespaceGracePeriodDuration =
      some true := by
  unfold requiredNamespaceValidator at required
  simp only [found] at required
  obtain ⟨isActive, active, valid⟩ := bind_eq_some_iff.mp required
  cases isActive with
  | false => simp at valid
  | true => exact active

private theorem unlinked_of_consistency
    {isAliasedType : NamespaceAlias → Bool} {aliased current : NamespaceAlias}
    (found : cache.find namespaceId = some (ns, root))
    (known : root.aliasOf namespaceId = some current)
    (consistent : unlinkAliasedDataConsistencyValidator cache namespaceId aliasAction
      isAliasedType aliased = some .success) (isUnlink : aliasAction = .unlink) :
    current = aliased := by
  simp only [unlinkAliasedDataConsistencyValidator, isUnlink, ne_eq, not_true_eq_false,
    ↓reduceIte, found, known, bind_eq_bind, bind_some] at consistent
  split at consistent
  · cases consistent
  · simp_all

theorem accept_alias (accepted : (namespaceAlias aliasTransaction).accept cfg
      isKnownAccount height cache = some next) :
    ∃ root current, AliasAccepted cfg height cache aliasTransaction root current ∧
      cache.setAlias aliasTransaction.namespaceId
        (if aliasTransaction.aliasAction = .link then aliasTransaction.aliasedData.toAlias
          else .none) = some next := by
  obtain ⟨first, required, accepted⟩ := run_cons_eq_some.mp accepted
  obtain ⟨second, linked, accepted⟩ := run_cons_eq_some.mp accepted
  obtain ⟨requiredValid, requiredObserved⟩ := processNamespaceNotification_eq_some.mp required
  obtain ⟨linkValid, linkObserved⟩ := processNamespaceNotification_eq_some.mp linked
  rw [observe_unobserved (by exact trivial)] at requiredObserved linkObserved
  cases requiredObserved
  cases linkObserved
  obtain ⟨third, aliased, accepted⟩ := run_cons_eq_some.mp accepted
  cases accepted
  obtain ⟨aliasValid, aliasObserved⟩ := processNamespaceNotification_eq_some.mp aliased
  have action : aliasTransaction.aliasAction = .link ∨ aliasTransaction.aliasAction = .unlink := by
    have valid := linkValid aliasActionValidator (by simp [registeredValidators])
    unfold aliasActionValidator at valid
    refine action_cases ?_
    by_contra invalid
    simp [invalid] at valid
  obtain ⟨ns, root, current, found, known, isLink⟩ := aliasOf_of_availability
    (linkValid (aliasAvailabilityValidator cache) (by simp [registeredValidators]))
  have active := active_of_required found (requiredValid
    (requiredNamespaceValidator cfg height cache) (by simp [registeredValidators]))
  have both : (aliasTransaction.aliasAction = .unlink →
        current = aliasTransaction.aliasedData.toAlias) ∧
      aliasedDataObserver .commit aliasTransaction.namespaceId aliasTransaction.aliasAction
        aliasTransaction.aliasedData.toAlias cache = some next := by
    cases data : aliasTransaction.aliasedData with
    | address address =>
      rw [data] at aliasValid aliasObserved
      rw [observe_aliasedAddress] at aliasObserved
      exact ⟨unlinked_of_consistency found known (aliasValid
        (unlinkAliasedAddressConsistencyValidator cache) (by simp [registeredValidators])),
        aliasObserved⟩
    | tokenId tokenId =>
      rw [data] at aliasValid aliasObserved
      rw [observe_aliasedTokenId] at aliasObserved
      exact ⟨unlinked_of_consistency found known (aliasValid
        (unlinkAliasedTokenIdConsistencyValidator cache) (by simp [registeredValidators])),
        aliasObserved⟩
  obtain ⟨isUnlink, observed⟩ := both
  refine ⟨root, current, ⟨⟨ns, found⟩, active, known, action, isLink, isUnlink⟩, ?_⟩
  simpa [aliasedDataObserver, shouldLink] using observed

end Alias

open NamespaceLifetime

section Arithmetic

private theorem toNat_add_of_not_addOverflows {height : Height} {duration : BlockDuration}
    (fits : ¬ addOverflows height duration) :
    (height + duration).toNat = height.toNat + duration.toNat := by
  have := height.isLt
  have := duration.isLt
  rw [addOverflows, decide_eq_true_iff, BitVec.lt_def, BitVec.toNat_add] at fits
  rw [BitVec.toNat_add]
  omega

variable {gracePeriodDuration : BlockDuration} {lifetime : NamespaceLifetime}
  {start endHeight : Height}

/-- A lifetime that is created does not wrap around; the grace period is left out only where the
end already is the maximum height. -/
theorem NamespaceLifetime.create_eq_some :
    create start endHeight gracePeriodDuration = some lifetime ↔
      start < endHeight ∧ lifetime.start = start ∧
        if endHeight = maxHeight then lifetime.endHeight = maxHeight
        else lifetime.endHeight.toNat = endHeight.toNat + gracePeriodDuration.toNat := by
  have endBound := endHeight.isLt
  have graceBound := gracePeriodDuration.isLt
  unfold create
  by_cases pos : start < endHeight
  · rw [if_neg (BitVec.not_le.mpr pos)]
    by_cases isMax : endHeight = maxHeight
    · subst isMax
      simp [pos, NamespaceLifetime.ext_iff, eq_comm]
    · simp only [isMax, ne_eq, not_false_eq_true, ↓reduceIte, pos, true_and]
      have sum := BitVec.toNat_add endHeight gracePeriodDuration
      by_cases overflow : endHeight + gracePeriodDuration < endHeight
      · rw [if_pos overflow]
        rw [BitVec.lt_def, sum] at overflow
        have := lifetime.endHeight.isLt
        simp only [reduceCtorEq, false_iff, not_and]
        omega
      · rw [if_neg overflow]
        rw [BitVec.lt_def, sum] at overflow
        rw [Option.some_inj, NamespaceLifetime.ext_iff, eq_comm (a := start),
          eq_comm (a := endHeight + gracePeriodDuration), ← BitVec.toNat_inj, ← BitVec.toNat_inj,
          sum]
        have : (endHeight.toNat + gracePeriodDuration.toNat) % 2 ^ 64 =
            endHeight.toNat + gracePeriodDuration.toNat := by omega
        rw [this]
  · rw [if_pos (BitVec.not_lt.mp pos)]
    simp [pos]

theorem NamespaceLifetime.start_lt_of_create
    (created : create start endHeight gracePeriodDuration = some lifetime) :
    start < lifetime.endHeight := by
  obtain ⟨pos, _, ends⟩ := create_eq_some.mp created
  rw [BitVec.lt_def] at pos ⊢
  split at ends
  · simp_all
  · omega

end Arithmetic

def NamespaceCache.newestRoot (cache : NamespaceCache) (id : NamespaceId) : Option RootNamespace :=
  (cache.historyById.lookup id).bind RootNamespaceHistory.back

/-- Looking up an id finds the newest version of the root namespace with that id, or nothing if
there is none; no child namespace has the id. -/
def NamespaceCache.FindsRoot (cache : NamespaceCache) (id : NamespaceId) : Prop :=
  cache.find id = (cache.newestRoot id).map fun root => (.ofRoot id, root)

/-- The registration is charged the fee of an eternal namespace. -/
def NamespaceRegistrationTransaction.IsChargedEternal (config : NamespaceConfiguration)
    (tx : NamespaceRegistrationTransaction) : Prop :=
  tx.duration = eternalArtifactDuration ∨ config.maxNamespaceDuration < tx.duration

def NamespaceRegistrationTransaction.Renews (height : Height)
    (tx : NamespaceRegistrationTransaction) (current : Option RootNamespace) : Prop :=
  ∃ root, current = some root ∧ isRenewal height root tx.signerAddress

/-- The lifetime a registration should give, for what is charged and what was there before. -/
structure LifetimeAsPaid (config : NamespaceConfiguration) (height : Height)
    (tx : NamespaceRegistrationTransaction) (current : Option RootNamespace)
    (lifetime : NamespaceLifetime) : Prop where
  eternal : tx.IsChargedEternal config → lifetime.endHeight = maxHeight
  renewed : ¬ tx.IsChargedEternal config → ∀ root, current = some root →
    isRenewal height root tx.signerAddress → lifetime.start = root.lifetime.start ∧
        lifetime.endHeight.toNat = root.lifetime.endHeight.toNat + tx.duration.toNat
  registered : ¬ tx.IsChargedEternal config → ¬ tx.Renews height current →
    lifetime.start = height ∧ lifetime.endHeight.toNat =
      height.toNat + tx.duration.toNat + config.namespaceGracePeriodDuration.toNat
  increased : ∀ root, current = some root → isRenewal height root tx.signerAddress →
    root.lifetime.endHeight < lifetime.endHeight ∨ lifetime.endHeight = maxHeight

section Lifetimes
variable {config : NamespaceConfiguration} {isKnownAccount : Address → Bool} {height : Height}
  {cache next : NamespaceCache} {tx : NamespaceRegistrationTransaction} {root : RootNamespace}

private theorem NamespaceCache.newestRoot_insertRoot (inserted : cache.insertRoot root = some next) :
    ∃ newest, next.newestRoot root.id = some newest ∧ newest.ownerAddress = root.ownerAddress ∧
      newest.lifetime = root.lifetime := by
  have newest : ∀ history : RootNamespaceHistory, ∃ newest,
      (history.pushBack root.ownerAddress root.lifetime).back = some newest ∧
        newest.ownerAddress = root.ownerAddress ∧ newest.lifetime = root.lifetime := by
    intro history
    obtain ⟨newest, pushed, owner, lifetime, _⟩ :=
      history.back_pushBack root.ownerAddress root.lifetime
    exact ⟨newest, pushed, owner, lifetime⟩
  rw [newestRoot]
  unfold insertRoot at inserted
  split at inserted
  · rename_i history found
    obtain ⟨prev, back, inserted⟩ := Option.bind_eq_some_iff.mp inserted
    cases inserted
    rw [lookup_insert_apply, if_pos rfl]
    exact newest history
  · cases inserted
    rw [lookup_insert_apply, if_pos rfl]
    exact newest ⟨root.id, []⟩

variable {lifetime : NamespaceLifetime}

theorem calculateLifetime_cases {owner : Address} {id : NamespaceId}
    {duration : BlockDuration} (finds : cache.FindsRoot id)
    (calculated : calculateLifetime config height cache owner id duration = some lifetime) :
    (∃ root, cache.newestRoot id = some root ∧ isRenewal height root owner ∧
        create root.lifetime.start (root.lifetime.endHeight + duration) 0 = some lifetime) ∨
      (∀ root, cache.newestRoot id = some root → ¬ isRenewal height root owner) ∧
        calculateNewLifetime config height duration = some lifetime := by
  obtain ⟨newLifetime, new, calculated⟩ := Option.bind_eq_some_iff.mp calculated
  rw [finds] at calculated
  cases newest : cache.newestRoot id with
  | none =>
    rw [newest] at calculated
    cases calculated
    exact .inr ⟨by simp, new⟩
  | some root =>
    rw [newest] at calculated
    dsimp only [Option.map_some] at calculated
    split at calculated
    · rename_i other
      cases calculated
      refine .inr ⟨?_, new⟩
      rintro _ ⟨⟩
      exact other
    · rename_i renewal
      exact .inl ⟨root, rfl, not_not.mp renewal, calculated⟩

theorem isChargedEternal_iff : tx.IsChargedEternal config ↔
      tx.effectiveDuration config = eternalArtifactDuration := by
  unfold NamespaceRegistrationTransaction.IsChargedEternal
    NamespaceRegistrationTransaction.effectiveDuration
  split <;> simp [*]

private theorem effectiveDuration_of_not_charged (finite : ¬ tx.IsChargedEternal config) :
    tx.effectiveDuration config = tx.duration ∧ 0 < tx.duration.toNat := by
  rw [NamespaceRegistrationTransaction.IsChargedEternal, not_or] at finite
  refine ⟨if_neg finite.2, Nat.pos_of_ne_zero fun zero => finite.1 ?_⟩
  exact BitVec.eq_of_toNat_eq zero

theorem NamespaceLifetime.create_zero {start endHeight : Height}
    (created : create start endHeight 0 = some lifetime) :
    lifetime.start = start ∧ lifetime.endHeight = endHeight := by
  obtain ⟨_, starts, ends⟩ := create_eq_some.mp created
  refine ⟨starts, ?_⟩
  split at ends
  · rename_i isMax
    rw [ends, isMax]
  · exact BitVec.eq_of_toNat_eq (by simpa using ends)

private theorem asPaid_of_renewal (renewal : isRenewal height root tx.signerAddress)
    (finite : root.lifetime.endHeight ≠ maxHeight)
    (fits : ¬ addOverflows root.lifetime.endHeight (tx.effectiveDuration config))
    (created : create root.lifetime.start
      (root.lifetime.endHeight + tx.effectiveDuration config) 0 = some lifetime) :
    LifetimeAsPaid config height tx (some root) lifetime ↔ ¬ tx.IsChargedEternal config := by
  obtain ⟨starts, ends⟩ := create_zero created
  have renews : tx.Renews height (some root) := ⟨root, rfl, renewal⟩
  constructor
  · intro asPaid charged
    have endsAtMax := asPaid.eternal charged
    rw [ends, isChargedEternal_iff.mp charged] at endsAtMax
    exact finite (by simpa [eternalArtifactDuration] using endsAtMax)
  · intro notCharged
    obtain ⟨effective, pos⟩ := effectiveDuration_of_not_charged notCharged
    have sum := toNat_add_of_not_addOverflows fits
    rw [← ends, effective] at sum
    refine ⟨fun charged => absurd charged notCharged, ?_, fun _ other => absurd renews other, ?_⟩
    · rintro _ _ ⟨⟩ _
      exact ⟨starts, sum⟩
    · rintro _ ⟨⟩ _
      exact .inl (BitVec.lt_def.mpr (by omega))

private theorem asPaid_of_registration {current : Option RootNamespace}
    (other : ¬ tx.Renews height current)
    (fits : ¬ addOverflows height (tx.effectiveDuration config))
    (calculated : calculateNewLifetime config height (tx.effectiveDuration config) =
      some lifetime) :
    LifetimeAsPaid config height tx current lifetime ↔ ¬ (¬ tx.IsChargedEternal config ∧
        height.toNat + tx.duration.toNat = maxHeight.toNat ∧
        config.namespaceGracePeriodDuration ≠ 0) := by
  have notRenewed : ∀ root, current = some root → ¬ isRenewal height root tx.signerAddress :=
    fun root found renewal => other ⟨root, found, renewal⟩
  obtain ⟨_, starts, ends⟩ := create_eq_some.mp calculated
  by_cases charged : tx.IsChargedEternal config
  · rw [if_pos (isChargedEternal_iff.mp charged), if_pos rfl] at ends
    refine iff_of_true ⟨fun _ => ends, fun finite => absurd charged finite,
      fun finite => absurd charged finite, fun root found renewal => ?_⟩
      fun condition => condition.1 charged
    exact absurd renewal (notRenewed root found)
  · obtain ⟨effective, _⟩ := effectiveDuration_of_not_charged charged
    have sum := toNat_add_of_not_addOverflows fits
    rw [if_neg fun eternal => charged (isChargedEternal_iff.mpr eternal)] at ends
    rw [effective] at ends sum
    have registered : LifetimeAsPaid config height tx current lifetime ↔
        lifetime.endHeight.toNat = height.toNat + tx.duration.toNat +
          config.namespaceGracePeriodDuration.toNat := by
      refine ⟨fun asPaid => (asPaid.registered charged other).2, fun paid => ?_⟩
      exact ⟨fun eternal => absurd eternal charged,
        fun _ root found renewal => absurd renewal (notRenewed root found),
        fun _ _ => ⟨starts, paid⟩,
        fun root found renewal => absurd renewal (notRenewed root found)⟩
    rw [registered]
    split at ends
    · rename_i isMax
      have atMax : height.toNat + tx.duration.toNat = maxHeight.toNat := by
        rw [← sum, isMax]
      simp only [charged, not_false_eq_true, atMax, ne_eq, true_and, not_not, ends,
        Nat.left_eq_add, ← BitVec.toNat_inj]
      rfl
    · rename_i notMax
      have below : height.toNat + tx.duration.toNat ≠ maxHeight.toNat := by
        rw [← sum]
        exact fun same => notMax (BitVec.eq_of_toNat_eq same)
      simp [ends, sum, below]

/-- An accepted root registration gives the lifetime that was paid for, exactly if it is not an
eternal renewal of an active namespace and not a finite registration that, with a grace period to
come, already ends at the maximum height. -/
theorem namespaceLifetime_asPaid_iff (isRoot : tx.registrationType = .root)
    (finds : cache.FindsRoot tx.id) (accepted : (registration tx).accept config isKnownAccount
      height cache = some next) :
    (∃ root, next.newestRoot tx.id = some root ∧
        LifetimeAsPaid config height tx (cache.newestRoot tx.id)
          root.lifetime) ↔
      ¬ (tx.IsChargedEternal config ∧ tx.Renews height (cache.newestRoot tx.id)) ∧
        ¬ (¬ tx.IsChargedEternal config ∧ ¬ tx.Renews height (cache.newestRoot tx.id) ∧
          height.toNat + tx.duration.toNat = maxHeight.toNat ∧
          config.namespaceGracePeriodDuration ≠ 0) := by
  obtain ⟨lifetime, checked, inserted⟩ := accept_root isRoot accepted
  obtain ⟨newest, foundNewest, _, sameLifetime⟩ := NamespaceCache.newestRoot_insertRoot inserted
  have reduced : (∃ root, next.newestRoot tx.id = some root ∧
      LifetimeAsPaid config height tx (cache.newestRoot tx.id)
        root.lifetime) ↔
      LifetimeAsPaid config height tx (cache.newestRoot tx.id) lifetime := by
    change next.newestRoot tx.id = some newest at foundNewest
    change newest.lifetime = lifetime at sameLifetime
    simp [foundNewest, sameLifetime]
  rw [reduced]
  rcases calculateLifetime_cases finds checked.calculated with
    ⟨root, current, renewal, created⟩ | ⟨other, calculated⟩
  · have active : root.lifetime.isActive height := by
      rw [isRenewal, Bool.and_eq_true] at renewal
      exact renewal.1
    have found : cache.find tx.id = some (.ofRoot tx.id, root) := by
      rw [finds, current, Option.map_some]
    obtain ⟨finite, whenActive⟩ := checked.available _ _ found
    have renews : tx.Renews height (some root) := ⟨root, rfl, renewal⟩
    rw [current, asPaid_of_renewal renewal finite (whenActive active).2 created]
    simp [renews]
  · have notRenewed : ¬ tx.Renews height (cache.newestRoot tx.id) :=
      fun ⟨root, found, renewal⟩ => other root found renewal
    rw [asPaid_of_registration notRenewed checked.fits calculated]
    simp [notRenewed]

end Lifetimes

section Example

/-- Durations from 1 to 100 blocks, a grace period of 10 blocks, and ids that spell the names. -/
def exampleConfiguration : NamespaceConfiguration where
  maxNameSize := 64
  maxChildNamespaces := 5
  maxNamespaceDepth := 3
  minNamespaceDuration := 1
  maxNamespaceDuration := 100
  namespaceGracePeriodDuration := 10
  reservedRootNamespaceNames := []
  rootNamespaceRentalFeePerBlock := 1
  childNamespaceRentalFee := 100
  rootNamespaceEternalFee := 5000
  generateNamespaceId := fun parentId name =>
    name.foldl (fun id letter => 256 * id + (letter - 90).setWidth 64) parentId

def exampleRegistration (duration : BlockDuration) : NamespaceRegistrationTransaction :=
  ⟨1, duration, 7, .root, [97]⟩

theorem exampleRegistration_accepted :
    ((registration (exampleRegistration 50)).accept exampleConfiguration
      (fun _ => true) 5 .empty).isSome := by
  decide +kernel

def exampleCache : NamespaceCache :=
  ((registration (exampleRegistration 50)).accept exampleConfiguration
    (fun _ => true) 5 .empty).get exampleRegistration_accepted

-- a child of another name, whose id is that of the root followed by its own letter
example : ((registration ⟨1, 7, 256 * 7 + 8, .child, [98]⟩).accept exampleConfiguration
    (fun _ => true) 20 exampleCache).map (·.contains (256 * 7 + 8)) = some true := by
  decide +kernel

theorem exampleRenewal_accepted (duration : BlockDuration) (known : duration = 0 ∨ duration = 20) :
    ((registration (exampleRegistration duration)).accept
      exampleConfiguration (fun _ => true) 20 exampleCache).isSome := by
  rcases known with rfl | rfl <;> decide +kernel

private theorem exampleCache_findsRoot : exampleCache.FindsRoot 7 := by
  unfold NamespaceCache.FindsRoot
  decide +kernel

theorem namespaceLifetime_asPaid_iff_exampleRenewal :
    ∃ next, (registration (exampleRegistration 20)).accept
        exampleConfiguration (fun _ => true) 20 exampleCache = some next ∧
      ((∃ root, next.newestRoot 7 = some root ∧
          LifetimeAsPaid exampleConfiguration 20 (exampleRegistration 20)
            (exampleCache.newestRoot 7) root.lifetime) ↔
        ¬ ((exampleRegistration 20).IsChargedEternal exampleConfiguration ∧
            (exampleRegistration 20).Renews 20 (exampleCache.newestRoot 7)) ∧
          ¬ (¬ (exampleRegistration 20).IsChargedEternal exampleConfiguration ∧
            ¬ (exampleRegistration 20).Renews 20 (exampleCache.newestRoot 7) ∧
            (20 : Height).toNat + (exampleRegistration 20).duration.toNat = maxHeight.toNat ∧
            exampleConfiguration.namespaceGracePeriodDuration ≠ 0)) :=
  have accepted := (Option.some_get (exampleRenewal_accepted 20 (.inr rfl))).symm
  ⟨_, accepted, namespaceLifetime_asPaid_iff rfl exampleCache_findsRoot accepted⟩

/-- At height 20 the owner pays the eternal fee, and the namespace still ends at height 65. -/
theorem eternal_renewal_keeps_end : exampleCache.FindsRoot 7 ∧
      (exampleRegistration 0).rentalFee exampleConfiguration =
        exampleConfiguration.rootNamespaceEternalFee ∧
      (exampleRegistration 0).IsChargedEternal exampleConfiguration ∧
      ∃ next root, (registration (exampleRegistration 0)).accept
          exampleConfiguration (fun _ => true) 20 exampleCache = some next ∧
        next.newestRoot 7 = some root ∧ root.lifetime = ⟨5, 65⟩ ∧
        root.lifetime.endHeight ≠ maxHeight := by
  have renewed : (((registration (exampleRegistration 0)).accept
      exampleConfiguration (fun _ => true) 20 exampleCache).bind
        (·.newestRoot 7)).map RootNamespace.lifetime = some ⟨5, 65⟩ := by
    decide +kernel
  obtain ⟨root, found, ends⟩ := Option.map_eq_some_iff.mp renewed
  obtain ⟨next, accepted, newest⟩ := Option.bind_eq_some_iff.mp found
  refine ⟨exampleCache_findsRoot, rfl, .inl rfl, next, root, accepted, newest, ends, ?_⟩
  rw [ends]
  decide

end Example

end BitxorCore.Namespaces
