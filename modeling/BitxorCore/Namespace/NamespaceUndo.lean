/- GID: Namespace/NamespaceUndo
   anchors: [plugins/txes/namespace, src/bitxorcore/cache]
   digest: Undoing namespace transactions restores all but ends that eternal renewals keep. -/

import BitxorCore.Namespace.NamespaceInvariant

set_option autoImplicit false
set_option relaxedAutoImplicit false

namespace BitxorCore.Namespaces
open Cache Chain Library.FiniteMap Library.PartialAction State List NamespaceStep

/-- Transactions that are accepted one after the other, on top of those of a chain. -/
inductive AcceptedAlong (cfg : NamespaceConfiguration) (paths : Paths) (final : Height) :
    List NamespaceStep → List NamespaceStep → NamespaceCache → NamespaceCache → Prop
  | nil {stack : List NamespaceStep} {cache : NamespaceCache} :
      AcceptedAlong cfg paths final stack [] cache cache
  | cons {stack rest : List NamespaceStep} {step : NamespaceStep}
      {cache next last : NamespaceCache}
      (ordered : ∀ earlier ∈ stack, earlier.height ≤ step.height) (above : final < step.height)
      (named : step.transaction.Named paths) (accepted : step.accept cfg cache = some next)
      (later : AcceptedAlong cfg paths final (step :: stack) rest next last) :
      AcceptedAlong cfg paths final stack (step :: rest) cache last

/-- No transaction is a renewal charged as eternal, of a root whose end is in the given groups. -/
def EternalRenewalsUngrouped (cfg : NamespaceConfiguration)
    (groups : GroupedSet Height NamespaceId) : List NamespaceStep → NamespaceCache → Prop
  | [], _ => True
  | step :: rest, cache =>
    (∀ id endHeight, step.RenewsEternally cfg cache id endHeight →
        id ∉ groups.identifiers endHeight) ∧
      ∀ next, step.accept cfg cache = some next → EternalRenewalsUngrouped cfg groups rest next

section Undo
variable {cfg : NamespaceConfiguration} {paths : Paths} {final height : Height}
  {id : NamespaceId} {op : NamespaceOperation} {new : RootNamespaceHistory}
  {stack steps : List NamespaceStep} {cache last : NamespaceCache}

/-- The end and the id that an operation adds to the groups, if any. -/
def NamespaceOperation.addedEntries : NamespaceOperation → List (Height × NamespaceId)
  | .addRoot id _ lifetime => [(lifetime.endHeight, id)]
  | _ => []

private theorem endHeight_le_back {back : RootNamespace} {older : List RootNamespace}
    {lifetime : NamespaceLifetime} (ok : HistoryOk cfg paths id ⟨id, back :: older⟩)
    (known : lifetime ∈ lifetimesOf (some ⟨id, back :: older⟩)) :
    lifetime.endHeight ≤ back.lifetime.endHeight := by
  obtain ⟨root, mem, rfl⟩ := mem_map.mp known
  rcases mem_cons.mp mem with rfl | older
  · exact BitVec.le_refl _
  · exact rel_of_pairwise_cons ok.descend older

variable {other : NamespaceId} {key : Height}

private theorem keepsEnd_of_grouped
    (grouped : Grouped final cache.historyById cache.rootNamespaceIdsByExpiryHeight)
    (ok : WellFormed cfg paths cache.historyById) (above : final < height)
    (started : Started height cache.historyById)
    (evolves : Evolves cfg paths height id op (cache.historyById.lookup id) new)
    (entry : (key, other) ∈ op.addedEntries)
    (present : other ∈ cache.rootNamespaceIdsByExpiryHeight.identifiers key) :
    op.KeepsEnd cache other key := by
  cases op with
  | addChild ns => cases entry
  | setAlias other prev next => cases entry
  | addRoot rootId owner lifetime =>
    cases mem_singleton.mp entry
    have later : height < lifetime.endHeight :=
      (evolves.added (started id) lifetime mem_cons_self).2
    have same : other = id := evolves.addRoot_id
    subst same
    rcases grouped.ends _ _ present with isFinal | ⟨version, known, ends⟩
    · exact absurd (Nat.lt_of_lt_of_le (Nat.lt_trans above later) isFinal) (Nat.lt_irrefl _)
    · generalize found : cache.historyById.lookup other = old at evolves known
      cases evolves with
      | register path starts _ => cases known
      | @renew _ back older active starts notEarlier =>
        have notLater := endHeight_le_back (ok other _ found) known
        rw [ends] at notLater
        have kept : lifetime.endHeight = back.lifetime.endHeight :=
          BitVec.le_antisymm notLater notEarlier
        refine ⟨_, lifetime, back, rfl, ?_, kept, kept.symm⟩
        rw [NamespaceCache.newestRoot, found]
        rfl
      | @takeOver _ _ back older expired starts _ =>
        have notLater := endHeight_le_back (ok other _ found) known
        rw [ends] at notLater
        exact absurd (Nat.lt_of_lt_of_le later (BitVec.le_trans notLater expired))
          (Nat.lt_irrefl _)

variable {groups : GroupedSet Height NamespaceId}

private theorem identifiers_reverted {restored : GroupedSet Height NamespaceId}
    {ends : List (Height × NamespaceId)} (filtered : ∀ key, restored.identifiers key =
      ((op.addToGroups groups).identifiers key).filter
        fun id => decide ((key, id) ∉ ends)) (key : Height) :
    (op.removeFromGroups restored).identifiers key = (groups.identifiers key).filter
        fun id => decide ((key, id) ∉ op.addedEntries ++ ends) := by
  cases op with
  | addChild ns => exact filtered key
  | setAlias other prev next => exact filtered key
  | addRoot rootId owner lifetime =>
    have distinct := GroupedSet.nodup_identifiers groups key
    rw [NamespaceOperation.removeFromGroups, identifiers_remove, filtered key,
      NamespaceOperation.addToGroups, identifiers_add]
    by_cases here : key = lifetime.endHeight
    · subst here
      rw [if_pos rfl, if_pos rfl, erase_filter_insert distinct]
      refine filter_congr fun id _ => ?_
      rw [Bool.eq_iff_iff]
      simp [NamespaceOperation.addedEntries, and_comm]
    · simp [here, NamespaceOperation.addedEntries]

/-- A cache is restored but for entries that are missing from its groups. -/
structure RestoredBut (paths : Paths) (cache restored : NamespaceCache)
    (entries : List (Height × NamespaceId)) : Prop where
  histories : restored.historyById = cache.historyById
  indexed : restored.Indexed paths
  filled : restored.rootNamespaceIdsByExpiryHeight.Filled
  groups : ∀ key, restored.rootNamespaceIdsByExpiryHeight.identifiers key =
    (cache.rootNamespaceIdsByExpiryHeight.identifiers key).filter
      fun id => decide ((key, id) ∉ entries)

private theorem RestoredBut.revert {next undone : NamespaceCache}
    {entries : List (Height × NamespaceId)} (restoredNext : RestoredBut paths next undone entries)
    (ok : WellFormed cfg paths cache.historyById)
    (evolves : Evolves cfg paths height id op (cache.historyById.lookup id) new)
    (changed : ChangedTo paths cache next id (some new)
      (op.addToGroups cache.rootNamespaceIdsByExpiryHeight)) :
    ∃ restored, op.revert undone = some restored ∧
      RestoredBut paths cache restored (op.addedEntries ++ entries) := by
  have lookedUp : undone.historyById.lookup id = some new := by
    rw [restoredNext.histories, changed.histories, lookup_restore, if_pos rfl]
  obtain ⟨restored, reverted, back⟩ := evolves.revert (fun history => ok id history) lookedUp
    restoredNext.indexed
  refine ⟨restored, reverted, ?_, back.indexed, ?_, fun key => ?_⟩
  · rw [back.histories, restoredNext.histories, changed.histories]
    refine Finmap.ext_lookup fun other => ?_
    rw [lookup_restore, lookup_restore]
    by_cases here : other = id
    · rw [if_pos here, here]
    · rw [if_neg here, if_neg here]
  · rw [back.groups]
    cases op with
    | addRoot rootId owner lifetime => exact restoredNext.filled.remove _ _
    | addChild ns => exact restoredNext.filled
    | setAlias other prev next => exact restoredNext.filled
  · rw [back.groups]
    refine identifiers_reverted (fun key => ?_) key
    rw [restoredNext.groups key, changed.groups]

private theorem entries_ungrouped_iff {step : NamespaceStep}
    (invariant : Invariant cfg paths final stack cache)
    (ordered : ∀ earlier ∈ stack, earlier.height ≤ step.height) (above : final < step.height)
    (evolves : Evolves cfg paths step.height id op (cache.historyById.lookup id) new)
    (keeps : ∀ id endHeight, step.RenewsEternally cfg cache id endHeight ↔
      op.KeepsEnd cache id endHeight)
    (within : ∀ key id, id ∈ groups.identifiers key →
      id ∈ cache.rootNamespaceIdsByExpiryHeight.identifiers key) :
    (∀ key id, (key, id) ∈ op.addedEntries → id ∉ groups.identifiers key) ↔
      ∀ id endHeight, step.RenewsEternally cfg cache id endHeight →
        id ∉ groups.identifiers endHeight := by
  constructor
  · intro ungrouped other endHeight renews
    obtain ⟨owner, lifetime, root, rfl, _, kept, same⟩ := (keeps other endHeight).mp renews
    refine ungrouped endHeight other ?_
    rw [NamespaceOperation.addedEntries, kept, same]
    exact mem_cons_self
  · intro ungrouped key other entry present
    have keepsEnd := keepsEnd_of_grouped invariant.grouped invariant.supported.wellFormed above
      (invariant.startedAt ordered above) evolves entry (within key other present)
    exact ungrouped other key ((keeps other key).mpr keepsEnd) present

private theorem mem_addToGroups (mem : other ∈ groups.identifiers key) :
    other ∈ (op.addToGroups groups).identifiers key := by
  cases op with
  | addRoot rootId owner lifetime => exact mem_identifiers_add.mpr (.inr mem)
  | addChild ns => exact mem
  | setAlias id prev next => exact mem

/-- Undoing transactions from the last to the first restores everything but entries of the groups,
and those only if an eternal renewal keeps an end. -/
private theorem undone_along (invariant : Invariant cfg paths final stack cache)
    (accepted : AcceptedAlong cfg paths final stack steps cache last) :
    ∃ (restored : NamespaceCache) (entries : List (Height × NamespaceId)),
      run (steps.reverse.map (undo cfg)) last = some restored ∧
      RestoredBut paths cache restored entries ∧
      ∀ groups : GroupedSet Height NamespaceId, (∀ key id, id ∈ groups.identifiers key →
          id ∈ cache.rootNamespaceIdsByExpiryHeight.identifiers key) →
        ((∀ key id, (key, id) ∈ entries → id ∉ groups.identifiers key) ↔
          EternalRenewalsUngrouped cfg groups steps cache) := by
  induction accepted with
  | nil =>
    refine ⟨_, [], rfl, ⟨rfl, invariant.indexed, invariant.grouped.filled, fun key => ?_⟩, ?_⟩
    · simp
    · simp [EternalRenewalsUngrouped]
  | @cons stack rest step cache next last ordered above named accepted later ih =>
    obtain ⟨undone, entries, ran, restoredNext, condition⟩ :=
      ih (invariant.accept ordered above named accepted)
    have ok := invariant.supported.wellFormed
    have onlyNext : ∀ groups, EternalRenewalsUngrouped cfg groups (step :: rest) cache ↔
        (∀ id endHeight, step.RenewsEternally cfg cache id endHeight →
          id ∉ groups.identifiers endHeight) ∧ EternalRenewalsUngrouped cfg groups rest next := by
      simp [EternalRenewalsUngrouped, accepted]
    rw [reverse_cons, map_append, map_singleton]
    rcases accept_cases ok invariant.indexed (invariant.startedAt ordered above)
      named accepted with
      ⟨rfl, undo, never⟩ | ⟨id, op, new, evolves, performed, undo, keeps⟩
    · refine ⟨undone, entries, ?_, restoredNext, fun groups within => ?_⟩
      · rw [run_append, ran, Option.bind_some, run_singleton, undo]
      · simp_all
    · obtain ⟨_, done, changed⟩ := evolves.perform ok invariant.indexed
      rw [performed] at done
      cases done
      obtain ⟨restored, reverted, restoredBut⟩ := restoredNext.revert ok evolves changed
      refine ⟨restored, op.addedEntries ++ entries, ?_, restoredBut, fun groups within => ?_⟩
      · rw [run_append, ran, Option.bind_some, run_singleton, undo, reverted]
      · have withinNext : ∀ key id, id ∈ groups.identifiers key →
            id ∈ next.rootNamespaceIdsByExpiryHeight.identifiers key := by
          intro key id mem
          rw [changed.groups]
          exact mem_addToGroups (within key id mem)
        rw [onlyNext, ← condition groups withinNext,
          ← entries_ungrouped_iff invariant ordered above evolves keeps within]
        simp only [mem_append, or_imp, forall_and]

/-- From every reachable cache, undoing accepted transactions in reverse order never throws and
restores histories, flat map and sizes; it restores the whole cache exactly if no transaction is an
eternal renewal of a root whose end was in the expiry groups before. -/
theorem namespaceChanges_undone_iff (reachable : Reachable cfg paths final stack cache)
    (accepted : AcceptedAlong cfg paths final stack steps cache last) :
    (∃ restored, run (steps.reverse.map (undo cfg)) last = some restored ∧
        restored.historyById = cache.historyById ∧
        restored.namespaceById = cache.namespaceById ∧ restored.sizes = cache.sizes) ∧
      (run (steps.reverse.map (undo cfg)) last = some cache ↔
        EternalRenewalsUngrouped cfg cache.rootNamespaceIdsByExpiryHeight steps cache) := by
  have invariant := reachable.invariant
  obtain ⟨restored, entries, ran, back, condition⟩ := undone_along invariant accepted
  have flat : restored.namespaceById = cache.namespaceById := by
    refine Finmap.ext_lookup fun id => ?_
    rw [back.indexed.flat, invariant.indexed.flat, back.histories]
  have sizes : restored.sizes = cache.sizes := by
    have active := back.indexed.active
    have deep := back.indexed.deep
    rw [back.histories, ← invariant.indexed.active] at active
    rw [back.histories, ← invariant.indexed.deep] at deep
    cases sizes : restored.sizes
    rw [sizes] at active deep
    cases active
    cases deep
    rfl
  refine ⟨⟨restored, ran, back.histories, flat, sizes⟩, ?_⟩
  rw [← condition _ fun _ _ mem => mem, ran, Option.some_inj]
  constructor
  · rintro rfl key id entry present
    rw [back.groups key] at present
    exact of_decide_eq_true (mem_filter.mp present).2 entry
  · intro ungrouped
    have groups : restored.rootNamespaceIdsByExpiryHeight =
        cache.rootNamespaceIdsByExpiryHeight := by
      refine back.filled.ext invariant.grouped.filled fun key => ?_
      rw [back.groups key, filter_eq_self]
      exact fun id mem => decide_eq_true fun entry => ungrouped key id entry mem
    cases restored
    cases cache
    simp only [NamespaceCache.mk.injEq]
    exact ⟨back.histories, flat, groups, sizes⟩

end Undo

section Example

/-- Account 1 registers root namespace 7 in a block of a height. -/
def exampleStep (height : Height) (duration : BlockDuration) : NamespaceStep :=
  ⟨height, fun _ => true, .registration (exampleRegistration duration)⟩

def examplePaths : Paths := fun id => [id]

private theorem exampleStep_named (height : Height) (duration : BlockDuration) :
    (exampleStep height duration).transaction.Named examplePaths :=
  ⟨fun _ => rfl, fun isChild => absurd isChild
    (show NamespaceRegistrationType.root ≠ NamespaceRegistrationType.child by decide)⟩

private theorem exampleCache_reachable :
    Reachable exampleConfiguration examplePaths 0 [exampleStep 5 50] exampleCache :=
  .accept .empty (by simp) (by decide) (exampleStep_named 5 50)
    (Option.some_get exampleRegistration_accepted).symm

def exampleRenewed (duration : BlockDuration) (known : duration = 0 ∨ duration = 20) :
    NamespaceCache :=
  ((exampleStep 20 duration).accept exampleConfiguration exampleCache).get
    (exampleRenewal_accepted duration known)

private theorem exampleRenewed_accepted (duration : BlockDuration)
    (known : duration = 0 ∨ duration = 20) :
    AcceptedAlong exampleConfiguration examplePaths 0 [exampleStep 5 50] [exampleStep 20 duration]
      exampleCache (exampleRenewed duration known) :=
  .cons (by simp [exampleStep]) (show (0 : Height) < 20 by decide) (exampleStep_named 20 duration)
    (Option.some_get (exampleRenewal_accepted duration known)).symm .nil

theorem namespaceChanges_undone_iff_exampleRenewal :
    (∃ restored, run ([exampleStep 20 20].reverse.map
          (undo exampleConfiguration)) (exampleRenewed 20 (.inr rfl)) = some restored ∧
        restored.historyById = exampleCache.historyById ∧
        restored.namespaceById = exampleCache.namespaceById ∧
        restored.sizes = exampleCache.sizes) ∧
      (run ([exampleStep 20 20].reverse.map (undo exampleConfiguration))
          (exampleRenewed 20 (.inr rfl)) = some exampleCache ↔
        EternalRenewalsUngrouped exampleConfiguration exampleCache.rootNamespaceIdsByExpiryHeight
          [exampleStep 20 20] exampleCache) :=
  namespaceChanges_undone_iff exampleCache_reachable (exampleRenewed_accepted 20 (.inr rfl))

/-- Undoing a renewal that was charged as eternal takes namespace 7 out of the expiry group of
height 65, where the version before still ends. -/
theorem eternal_renewal_undo_loses_expiry :
    Reachable exampleConfiguration examplePaths 0 [exampleStep 5 50] exampleCache ∧
      AcceptedAlong exampleConfiguration examplePaths 0 [exampleStep 5 50] [exampleStep 20 0]
        exampleCache (exampleRenewed 0 (.inl rfl)) ∧
      exampleCache.rootNamespaceIdsByExpiryHeight.identifiers 65 = [7] ∧
      (run ([exampleStep 20 0].reverse.map (undo exampleConfiguration))
          (exampleRenewed 0 (.inl rfl))).map
        (fun restored => (restored.rootNamespaceIdsByExpiryHeight.identifiers 65,
          (restored.newestRoot 7).map RootNamespace.lifetime)) = some ([], some ⟨5, 65⟩) := by
  refine ⟨exampleCache_reachable, exampleRenewed_accepted 0 (.inl rfl), ?_, ?_⟩
  · decide +kernel
  · decide +kernel

end Example

end BitxorCore.Namespaces
