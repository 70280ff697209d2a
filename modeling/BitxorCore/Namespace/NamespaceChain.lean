/- GID: Namespace/NamespaceChain
   anchors: [plugins/txes/namespace, src/bitxorcore/consumers]
   digest: Namespace caches that accepting, undoing and pruning lead to, and what holds in them. -/

import BitxorCore.Namespace.NamespaceLifetimes
import BitxorCore.Namespace.NamespaceOperations

set_option autoImplicit false
set_option relaxedAutoImplicit false

namespace BitxorCore.Namespaces
open Cache Chain Library.FiniteMap Library.PartialAction State List NamespaceTransaction Option

/-- A transaction in a block of a height; accounts become known independently of namespaces. -/
structure NamespaceStep where
  height : Height
  isKnownAccount : Address → Bool
  transaction : NamespaceTransaction

namespace NamespaceStep

variable (cfg : NamespaceConfiguration) (step : NamespaceStep)

def accept : Action NamespaceCache :=
  step.transaction.accept cfg step.isKnownAccount step.height

def undo : Action NamespaceCache :=
  step.transaction.undo cfg step.height

end NamespaceStep

/-- The ids that a registration generates stand for its path: there is no collision. -/
def NamespaceTransaction.Named (paths : Paths) : NamespaceTransaction → Prop
  | .registration transaction =>
    (transaction.registrationType = .root → paths transaction.id = [transaction.id]) ∧
      (transaction.registrationType = .child →
        paths transaction.id = paths transaction.parentId ++ [transaction.id])
  | .namespaceAlias _ => True

/-- The caches of a chain, with the last height that was pruned and the transactions above it that
may still be undone, the newest first. Pruned blocks are final. -/
inductive Reachable (cfg : NamespaceConfiguration) (paths : Paths) :
    Height → List NamespaceStep → NamespaceCache → Prop
  | empty : Reachable cfg paths 0 [] .empty
  | accept {final : Height} {stack : List NamespaceStep} {cache next : NamespaceCache}
      {step : NamespaceStep} (before : Reachable cfg paths final stack cache)
      (ordered : ∀ earlier ∈ stack, earlier.height ≤ step.height) (above : final < step.height)
      (named : step.transaction.Named paths) (accepted : step.accept cfg cache = some next) :
      Reachable cfg paths final (step :: stack) next
  | undo {final : Height} {stack : List NamespaceStep} {cache next : NamespaceCache}
      {step : NamespaceStep} (before : Reachable cfg paths final (step :: stack) cache)
      (undone : step.undo cfg cache = some next) : Reachable cfg paths final stack next
  | prune {final : Height} {stack : List NamespaceStep} {cache : NamespaceCache} {height : Height}
      (before : Reachable cfg paths final stack cache) (later : final ≤ height) :
      Reachable cfg paths height (stack.filter fun step => decide (height < step.height))
        (cache.prune height)

section Undo
variable {cfg : NamespaceConfiguration} {height : Height}
  {transaction : NamespaceRegistrationTransaction} {aliasTransaction : AliasTransaction}

private theorem undo_registration {middle : NamespaceNotification}
    {namespaceId parentId : NamespaceId} {name : List (BitVec 8)}
    {registrationType : NamespaceRegistrationType}
    (publish : (registration transaction).publish cfg =
      [.registration registrationType, middle, .namespaceName namespaceId parentId name]) :
    (registration transaction).undo cfg height =
      observeNamespaceNotification cfg .rollback height middle := by
  have first : observeNamespaceNotification cfg .rollback height
      (.namespaceName namespaceId parentId name) = some := observe_unobserved trivial
  have last : observeNamespaceNotification cfg .rollback height
      (.registration registrationType) = some := observe_unobserved trivial
  funext cache
  rw [undo, publish]
  simp only [reverse_cons, reverse_nil, nil_append, cons_append,
    map_cons, map_nil, run_cons, first, last, bind_some]
  cases observeNamespaceNotification cfg .rollback height middle cache <;> rfl

private theorem undo_root (isRoot : transaction.registrationType = .root) (cache : NamespaceCache) :
    (registration transaction).undo cfg height cache = cache.remove transaction.id := by
  rw [undo_registration (publish_root isRoot), observe_rootNamespace]
  rfl

private theorem undo_isoCode (isIsoCode : transaction.registrationType = .isoCode) :
    (registration transaction).undo cfg height = some := by
  rw [undo_registration (publish_isoCode isIsoCode), observe_unobserved (by exact trivial)]

private theorem undo_child (isNotRoot : transaction.registrationType ≠ .root)
    (isNotIsoCode : transaction.registrationType ≠ .isoCode) (cache : NamespaceCache) :
    (registration transaction).undo cfg height cache = cache.remove transaction.id := by
  rw [undo_registration (publish_child isNotRoot isNotIsoCode), observe_childNamespace]
  rfl

private theorem undo_alias (cache : NamespaceCache) :
    (namespaceAlias aliasTransaction).undo cfg height cache =
      cache.setAlias aliasTransaction.namespaceId
        (if aliasTransaction.aliasAction = .unlink then aliasTransaction.aliasedData.toAlias
          else .none) := by
  obtain ⟨signer, namespaceId, aliasAction, aliasedData⟩ := aliasTransaction
  rw [undo, publish, AliasTransaction.publish]
  simp only [reverse_cons, reverse_nil, nil_append, cons_append,
    map_cons, map_nil, run_cons, run_nil]
  have last : ∀ result : Option NamespaceCache,
      (result.bind fun next => (observeNamespaceNotification cfg .rollback height
        (.aliasLink namespaceId aliasAction) next).bind fun next =>
          (observeNamespaceNotification cfg .rollback height
            (.namespaceRequired signer namespaceId) next).bind some) = result := by
    intro result
    rw [observe_unobserved (by exact trivial), observe_unobserved (by exact trivial)]
    cases result <;> rfl
  refine (last _).trans ?_
  cases aliasedData with
  | address aliased =>
    rw [observe_aliasedAddress]
    simp [aliasedDataObserver, shouldLink, AliasedData.toAlias]
  | tokenId aliased =>
    rw [observe_aliasedTokenId]
    simp [aliasedDataObserver, shouldLink, AliasedData.toAlias]

end Undo

def lifetimesOf (old : Option RootNamespaceHistory) : List NamespaceLifetime :=
  old.elim [] fun history => history.roots.map RootNamespace.lifetime

section Acceptance
variable {cfg : NamespaceConfiguration} {paths : Paths} {height : Height}
  {isKnownAccount : Address → Bool} {cache next : NamespaceCache} {id : NamespaceId}
  {transaction : NamespaceRegistrationTransaction} {aliasTransaction : AliasTransaction}

theorem NamespaceLifetime.isActive_of_excluding {lifetime : NamespaceLifetime}
    {gracePeriodDuration : BlockDuration} (lived : lifetime.start < lifetime.endHeight)
    (active : lifetime.isActiveExcludingGracePeriod height gracePeriodDuration = some true) :
    lifetime.start ≤ height ∧ height < lifetime.endHeight := by
  unfold isActiveExcludingGracePeriod at active
  split at active
  · cases active
  · grind

variable {root : RootNamespace}

private theorem registrationType_cases {registrationType : NamespaceRegistrationType}
    (valid : registrationType ≤ .isoCode) (isNotRoot : registrationType ≠ .root)
    (isNotIsoCode : registrationType ≠ .isoCode) : registrationType = .child := by
  simp only [NamespaceRegistrationType.isoCode, NamespaceRegistrationType.root,
    NamespaceRegistrationType.child] at *
  bv_omega

/-- The step is a renewal that is charged as eternal, of a root with the given end. -/
def NamespaceStep.RenewsEternally (cfg : NamespaceConfiguration) (step : NamespaceStep)
    (cache : NamespaceCache) (id : NamespaceId) (endHeight : Height) : Prop :=
  ∃ transaction root, step.transaction = .registration transaction ∧
    transaction.registrationType = .root ∧ transaction.id = id ∧
    cache.newestRoot id = some root ∧
    (isRenewal step.height root transaction.signerAddress ∧ transaction.IsChargedEternal cfg) ∧
    root.lifetime.endHeight = endHeight

/-- The operation registers a version with the end of the newest version of its root. -/
def NamespaceOperation.KeepsEnd (cache : NamespaceCache) (op : NamespaceOperation)
    (id : NamespaceId) (endHeight : Height) : Prop :=
  ∃ owner lifetime root, op = .addRoot id owner lifetime ∧
    cache.newestRoot id = some root ∧ lifetime.endHeight = root.lifetime.endHeight ∧
    root.lifetime.endHeight = endHeight

variable (ok : WellFormed cfg paths cache.historyById)

include ok

private theorem newestRoot_eq_some (newest : cache.newestRoot id = some root) :
    ∃ older, cache.historyById.lookup id = some ⟨id, root :: older⟩ := by
  obtain ⟨history, found, back⟩ := bind_eq_some_iff.mp newest
  obtain ⟨older, roots⟩ := head?_eq_some_iff.mp back
  refine ⟨older, ?_⟩
  rw [found, ← roots, ← (ok _ _ found).sameId]

private theorem historyById_of_newestRoot_none
    (newest : cache.newestRoot id = none) : cache.historyById.lookup id = none := by
  cases found : cache.historyById.lookup id with
  | none => rfl
  | some history =>
    obtain ⟨back, older, roots, _⟩ := (ok id history found).exists_back
    rw [NamespaceCache.newestRoot, found, bind_some, RootNamespaceHistory.back, roots]
      at newest
    cases newest

private theorem childrenOk_cons {parent : Namespace}
    {older : List RootNamespace} {owner : Address} {parentId : NamespaceId}
    (checked : ChildAccepted cfg height cache owner id parentId parent root)
    (active : namespaceOf paths cache.historyById parentId = some parent)
    (found : cache.historyById.lookup parent.rootId = some ⟨parent.rootId, root :: older⟩)
    (named : paths id = paths parentId ++ [id]) (allowed : root.canAdd (parent.createChild id)) :
    ChildrenOk cfg paths parent.rootId
      (⟨parent.createChild id, .none⟩ :: root.children) := by
  have children := (ok _ _ found).children root mem_cons_self
  obtain ⟨path, sameId, history, back, others, lookedUp, roots, place⟩ :=
    ok.allPlaced.namespaceOf_eq_some active
  rw [found] at lookedUp
  cases lookedUp
  cases roots
  have fresh : id ∉ root.children.ids := by
    rw [RootNamespace.canAdd, Bool.and_eq_true, Bool.and_eq_true, Namespace.id_createChild,
      isNone_iff_eq_none] at allowed
    exact Children.find_eq_none.mp allowed.1.1
  have parentLength : 0 < parent.path.length := length_pos_of_ne_nil parent.nonempty
  have childPath : (parent.createChild id).path = parent.path ++ [id] := rfl
  have ids : Children.ids (⟨parent.createChild id, .none⟩ :: root.children) =
      id :: root.children.ids := by
    rw [Children.ids, map_cons, Namespace.id_createChild]
    rfl
  refine ⟨⟨?_, ?_, ?_⟩, ?_, checked.children, ?_⟩
  · rw [ids]
    exact nodup_cons.mpr ⟨fresh, children.distinct⟩
  · refine forall_mem_cons.mpr ⟨?_, children.named⟩
    rw [childPath, Namespace.id_createChild, named, path]
  · refine forall_mem_cons.mpr ⟨⟨Namespace.rootId_createChild _ _, ?_⟩, children.under⟩
    rw [childPath, length_append, length_singleton]
    omega
  · rw [ids]
    refine forall_mem_cons.mpr ⟨fun ancestor mem => ?_, fun child known ancestor mem =>
      (children.closed child known ancestor mem).imp_right (mem_cons_of_mem _)⟩
    rw [childPath, dropLast_concat] at mem
    rcases place with ⟨isRoot, rfl⟩ | ⟨child, known, rfl, _⟩
    · exact .inl (mem_singleton.mp mem)
    · rw [← dropLast_concat_getLast child.ns.nonempty] at mem
      rcases mem_append.mp mem with above | last
      · exact (children.closed child known ancestor above).imp_right (mem_cons_of_mem _)
      · rw [mem_singleton.mp last]
        exact .inr (mem_cons_of_mem _ (mem_map_of_mem known))
  · intro limited
    refine forall_mem_cons.mpr ⟨?_, children.shallow limited⟩
    have parentDepth := ok.depth_le limited active
    have notDeepest := checked.depth
    rw [childPath, length_append, length_singleton]
    omega

variable (indexed : cache.Indexed paths)

include indexed

theorem find_eq_some {ns : Namespace} (found : cache.find id = some (ns, root)) :
    namespaceOf paths cache.historyById id = some ns ∧
      ∃ older, cache.historyById.lookup ns.rootId = some ⟨ns.rootId, root :: older⟩ := by
  obtain ⟨_, flat, found⟩ := bind_eq_some_iff.mp found
  obtain ⟨history, lookedUp, found⟩ := bind_eq_some_iff.mp found
  obtain ⟨_, back, found⟩ := bind_eq_some_iff.mp found
  cases found
  rw [indexed.flat] at flat
  obtain ⟨older, roots⟩ := head?_eq_some_iff.mp back
  refine ⟨flat, older, ?_⟩
  rw [lookedUp, ← roots, ← (ok _ _ lookedUp).sameId]

private theorem findsRoot_of_path (path : paths id = [id]) : cache.FindsRoot id := by
  have head : (paths id).head? = some id := by rw [path, head?_cons]
  unfold NamespaceCache.FindsRoot NamespaceCache.find NamespaceCache.newestRoot
  rw [indexed.flat]
  cases found : cache.historyById.lookup id with
  | none =>
    rw [namespaceOf_of_absent head found]
    rfl
  | some history =>
    have historyOk := ok id history found
    obtain ⟨back, older, roots, _⟩ := historyOk.exists_back
    rw [namespaceOf_of_lookup head found, activeNamespace_of_roots roots, historyOk.sameId,
      if_pos rfl]
    simp [RootNamespaceHistory.back, found, roots]

/-- An accepted root registration evolves the history of its root. It keeps the end of the newest
version exactly if it renews it and is charged as eternal. -/
private theorem accept_root_evolves (isRoot : transaction.registrationType = .root)
    (path : paths transaction.id = [transaction.id])
    (started : ∀ lifetime ∈ lifetimesOf (cache.historyById.lookup transaction.id),
      lifetime.start ≤ height)
    (accepted : (registration transaction).accept cfg isKnownAccount
      height cache = some next) :
    ∃ lifetime new, Evolves cfg paths height transaction.id
        (.addRoot transaction.id transaction.signerAddress lifetime)
        (cache.historyById.lookup transaction.id) new ∧
      cache.insertRoot (.create transaction.id transaction.signerAddress lifetime) = some next ∧
      ∀ root, cache.newestRoot transaction.id = some root →
        (lifetime.endHeight = root.lifetime.endHeight ↔
          isRenewal height root transaction.signerAddress ∧ transaction.IsChargedEternal cfg) := by
  obtain ⟨lifetime, checked, inserted⟩ := accept_root isRoot accepted
  have finds := findsRoot_of_path ok indexed path
  rcases calculateLifetime_cases finds checked.calculated with
    ⟨root, newest, renewal, created⟩ | ⟨other, calculated⟩
  · obtain ⟨older, found⟩ := newestRoot_eq_some ok newest
    have lookedUp : cache.find transaction.id = some (.ofRoot transaction.id, root) := by
      rw [finds, newest, map_some]
    obtain ⟨active, owned⟩ := Bool.and_eq_true_iff.mp renewal
    obtain ⟨starts, ends⟩ := NamespaceLifetime.create_zero created
    have fits := ((checked.available _ _ lookedUp).2 active).2
    rw [addOverflows, decide_eq_true_iff, BitVec.not_lt, ← ends] at fits
    rw [NamespaceLifetime.isActive, Bool.and_eq_true, decide_eq_true_iff, decide_eq_true_iff]
      at active
    have evolves : Evolves cfg paths height transaction.id
        (.addRoot transaction.id root.ownerAddress lifetime)
        (some ⟨transaction.id, root :: older⟩) _ := .renew active.2 starts fits
    rw [← found, eq_of_beq owned] at evolves
    refine ⟨lifetime, _, evolves, inserted, fun current same => ?_⟩
    rw [newest] at same
    cases same
    rw [and_iff_right renewal, isChargedEternal_iff, ends, eternalArtifactDuration]
    constructor <;> intro same <;> bv_omega
  · obtain ⟨_, starts, _⟩ := NamespaceLifetime.create_eq_some.mp calculated
    have later : height < lifetime.endHeight := NamespaceLifetime.start_lt_of_create calculated
    -- an active version of another owner would have been rejected
    have expired : ∀ root, cache.newestRoot transaction.id = some root →
        root.lifetime.endHeight ≤ height := by
      intro root newest
      obtain ⟨older, found⟩ := newestRoot_eq_some ok newest
      have lookedUp : cache.find transaction.id = some (.ofRoot transaction.id, root) := by
        rw [finds, newest, map_some]
      have began : root.lifetime.start ≤ height := by
        refine started _ ?_
        rw [found]
        exact mem_cons_self
      by_contra unexpired
      have active : root.lifetime.isActive height := by
        simp [NamespaceLifetime.isActive, began, BitVec.not_le.mp unexpired]
      have owned := ((checked.available _ _ lookedUp).2 active).1
      exact other root newest (by simp [isRenewal, active, owned])
    have evolves : ∃ new, Evolves cfg paths height transaction.id
        (.addRoot transaction.id transaction.signerAddress lifetime)
        (cache.historyById.lookup transaction.id) new := by
      cases newest : cache.newestRoot transaction.id with
      | none =>
        rw [historyById_of_newestRoot_none ok newest]
        exact ⟨_, .register path (starts ▸ BitVec.le_refl _) later⟩
      | some root =>
        obtain ⟨older, found⟩ := newestRoot_eq_some ok newest
        rw [found]
        exact ⟨_, .takeOver (expired root newest) starts later⟩
    obtain ⟨new, evolves⟩ := evolves
    refine ⟨lifetime, new, evolves, inserted, fun root newest => iff_of_false ?_ ?_⟩
    · intro same
      exact absurd (Nat.lt_of_lt_of_le later (same ▸ expired root newest)) (Nat.lt_irrefl _)
    · exact fun eternal => other root newest eternal.1

private theorem accept_child_evolves (isNotRoot : transaction.registrationType ≠ .root)
    (isNotIsoCode : transaction.registrationType ≠ .isoCode)
    (named : paths transaction.id = paths transaction.parentId ++ [transaction.id])
    (accepted : (registration transaction).accept cfg isKnownAccount
      height cache = some next) :
    ∃ parent : Namespace, (∃ new, Evolves cfg paths height parent.rootId
        (.addChild (parent.createChild transaction.id))
        (cache.historyById.lookup parent.rootId) new) ∧
      cache.insertChild (parent.createChild transaction.id) = some next := by
  obtain ⟨parent, root, checked, inserted⟩ := accept_child accepted isNotRoot isNotIsoCode
  obtain ⟨active, older, found⟩ := find_eq_some ok indexed checked.found
  have lived := ((ok _ _ found).versions root mem_cons_self).lived
  have allowed : root.canAdd (parent.createChild transaction.id) := by
    obtain ⟨history, lookedUp, inserted⟩ := bind_eq_some_iff.mp inserted
    rw [Namespace.rootId_createChild, found] at lookedUp
    cases lookedUp
    obtain ⟨added, adds, _⟩ := bind_eq_some_iff.mp inserted
    by_contra refused
    simp [RootNamespaceHistory.addChild, RootNamespaceHistory.back, refused] at adds
  refine ⟨parent, ?_, inserted⟩
  rw [found]
  exact ⟨_, .addChild (NamespaceLifetime.isActive_of_excluding lived checked.active).2 allowed
    (childrenOk_cons ok checked active found named allowed)⟩

private theorem accept_alias_evolves (accepted : (namespaceAlias aliasTransaction).accept cfg
      isKnownAccount height cache = some next) :
    ∃ rootId, (∃ new, Evolves cfg paths height rootId (.setAlias aliasTransaction.namespaceId
        (if aliasTransaction.aliasAction = .unlink then aliasTransaction.aliasedData.toAlias
          else .none)
        (if aliasTransaction.aliasAction = .link then aliasTransaction.aliasedData.toAlias
          else .none)) (cache.historyById.lookup rootId) new) ∧
      cache.setAlias aliasTransaction.namespaceId
        (if aliasTransaction.aliasAction = .link then aliasTransaction.aliasedData.toAlias
          else .none) = some next := by
  obtain ⟨root, current, checked, changed⟩ := accept_alias accepted
  obtain ⟨ns, lookedUp⟩ := checked.found
  obtain ⟨active, older, found⟩ := find_eq_some ok indexed lookedUp
  have version := (ok _ _ found).versions root mem_cons_self
  have unexpired := (NamespaceLifetime.isActive_of_excluding version.lived checked.active).2
  have prev : (if aliasTransaction.aliasAction = .unlink then
      aliasTransaction.aliasedData.toAlias else .none) = current := by
    rcases checked.action with isLink | isUnlink
    · rw [isLink, if_neg (by decide), checked.linked isLink]
    · rw [if_pos isUnlink, checked.unlinked isUnlink]
  rw [prev]
  have known := checked.known
  unfold RootNamespace.aliasOf at known
  split at known
  · rename_i isRoot
    cases known
    rw [version.sameId] at isRoot
    refine ⟨ns.rootId, ?_, changed⟩
    rw [found, ← isRoot]
    exact ⟨_, .setRootAlias unexpired⟩
  · obtain ⟨child, present, rfl⟩ := map_eq_some_iff.mp known
    obtain ⟨mem, sameId⟩ := Children.find_eq_some present
    refine ⟨ns.rootId, ?_, changed⟩
    rw [found, ← sameId]
    exact ⟨_, .setChildAlias unexpired mem⟩

/-- Everything an accepted transaction does: nothing, or one operation that evolves one history
and that undoing reverts. -/
theorem NamespaceStep.accept_cases {step : NamespaceStep}
    (started : ∀ id, ∀ lifetime ∈ lifetimesOf (cache.historyById.lookup id),
      lifetime.start ≤ step.height)
    (named : step.transaction.Named paths) (accepted : step.accept cfg cache = some next) :
    (next = cache ∧ step.undo cfg = some ∧
        ∀ id endHeight, ¬ step.RenewsEternally cfg cache id endHeight) ∨
      ∃ id op new, Evolves cfg paths step.height id op
          (cache.historyById.lookup id) new ∧
        op.perform cache = some next ∧ step.undo cfg = op.revert ∧
        ∀ id endHeight, step.RenewsEternally cfg cache id endHeight ↔
          op.KeepsEnd cache id endHeight := by
  obtain ⟨height, isKnownAccount, stepTransaction⟩ := step
  cases stepTransaction with
  | registration transaction =>
    have onlyRoot : transaction.registrationType ≠ .root → ∀ id endHeight,
        ¬ NamespaceStep.RenewsEternally cfg ⟨height, isKnownAccount, .registration transaction⟩
          cache id endHeight := by
      rintro isNotRoot id endHeight ⟨_, _, ⟨⟩, isRoot, _⟩
      exact isNotRoot isRoot
    by_cases isRoot : transaction.registrationType = .root
    · obtain ⟨lifetime, new, evolves, inserted, ends⟩ := accept_root_evolves ok indexed isRoot
        (named.1 isRoot) (started transaction.id) accepted
      refine .inr ⟨_, _, new, evolves, inserted, funext fun _ => undo_root isRoot _, ?_⟩
      intro id endHeight
      constructor
      · rintro ⟨_, root, ⟨⟩, _, rfl, newest, eternal, same⟩
        exact ⟨_, lifetime, root, rfl, newest, (ends root newest).mpr eternal, same⟩
      · rintro ⟨_, _, root, ⟨⟩, newest, kept, same⟩
        exact ⟨transaction, root, rfl, isRoot, rfl, newest, (ends root newest).mp kept, same⟩
    · by_cases isIsoCode : transaction.registrationType = .isoCode
      · exact .inl ⟨accept_isoCode isIsoCode accepted, undo_isoCode isIsoCode, onlyRoot isRoot⟩
      · have isChild : transaction.registrationType = .child :=
          registrationType_cases (accept_registrationType accepted) isRoot isIsoCode
        obtain ⟨parent, ⟨new, evolves⟩, inserted⟩ := accept_child_evolves ok indexed isRoot
          isIsoCode (named.2 isChild) accepted
        refine .inr ⟨_, _, new, evolves, inserted, funext fun cache => ?_, ?_⟩
        · rw [NamespaceOperation.revert, Namespace.id_createChild]
          exact undo_child isRoot isIsoCode cache
        · intro id endHeight
          refine iff_of_false (onlyRoot isRoot id endHeight) ?_
          rintro ⟨_, _, _, ⟨⟩, _⟩
  | namespaceAlias transaction =>
    obtain ⟨rootId, ⟨new, evolves⟩, changed⟩ := accept_alias_evolves ok indexed accepted
    refine .inr ⟨_, _, new, evolves, changed, funext fun cache => undo_alias cache, ?_⟩
    intro id endHeight
    refine iff_of_false ?_ ?_
    · rintro ⟨_, _, ⟨⟩, _⟩
    · rintro ⟨_, _, _, ⟨⟩, _⟩

end Acceptance

end BitxorCore.Namespaces
