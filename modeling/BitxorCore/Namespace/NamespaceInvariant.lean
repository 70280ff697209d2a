/- GID: Namespace/NamespaceInvariant
   anchors: [plugins/txes/namespace, src/bitxorcore/cache]
   digest: Every reachable namespace cache is indexed, and its transactions can be taken back. -/

import BitxorCore.Namespace.NamespaceChain

set_option autoImplicit false
set_option relaxedAutoImplicit false

namespace BitxorCore.Namespaces
open Cache Chain Library.FiniteMap Library.PartialAction State List NamespaceOperation

def Started (height : Height) (histories : HistoryMap) : Prop :=
  ∀ id, ∀ lifetime ∈ lifetimesOf (histories.lookup id), lifetime.start ≤ height

/-- An id is grouped under final heights and under ends of versions of its root only. -/
structure Grouped (final : Height) (histories : HistoryMap)
    (groups : GroupedSet Height NamespaceId) : Prop where
  filled : groups.Filled
  ends : ∀ key id, id ∈ groups.identifiers key → key ≤ final ∨
    ∃ lifetime ∈ lifetimesOf (histories.lookup id), lifetime.endHeight = key

/-- The histories came about by the operations of the transactions above the final height, from
histories that are well-formed themselves. -/
inductive Supported (cfg : NamespaceConfiguration) (paths : Paths) (final : Height) :
    List NamespaceStep → HistoryMap → Prop
  | base {histories : HistoryMap} (ok : WellFormed cfg paths histories)
      (started : Started final histories) : Supported cfg paths final [] histories
  | idle {stack : List NamespaceStep} {histories : HistoryMap} {step : NamespaceStep}
      (below : Supported cfg paths final stack histories)
      (ordered : ∀ earlier ∈ stack, earlier.height ≤ step.height) (above : final < step.height)
      (undo : step.undo cfg = some) : Supported cfg paths final (step :: stack) histories
  | perform {stack : List NamespaceStep} {histories : HistoryMap} {step : NamespaceStep}
      {id : NamespaceId} {op : NamespaceOperation} {new : RootNamespaceHistory}
      (below : Supported cfg paths final stack histories)
      (ordered : ∀ earlier ∈ stack, earlier.height ≤ step.height) (above : final < step.height)
      (evolves : Evolves cfg paths step.height id op (histories.lookup id) new)
      (undo : step.undo cfg = op.revert) :
      Supported cfg paths final (step :: stack) (histories.insert id new)

structure Invariant (cfg : NamespaceConfiguration) (paths : Paths) (final : Height)
    (stack : List NamespaceStep) (cache : NamespaceCache) : Prop where
  supported : Supported cfg paths final stack cache.historyById
  indexed : cache.Indexed paths
  grouped : Grouped final cache.historyById cache.rootNamespaceIdsByExpiryHeight

section Lifetimes
variable {cfg : NamespaceConfiguration} {paths : Paths} {height : Height} {id : NamespaceId}
  {op : NamespaceOperation} {old : Option RootNamespaceHistory}
  {new : RootNamespaceHistory}

def NamespaceOperation.addedLifetimes : NamespaceOperation → List NamespaceLifetime
  | .addRoot _ _ lifetime => [lifetime]
  | _ => []

private theorem Evolves.lifetimes (evolves : Evolves cfg paths height id op old new) :
    lifetimesOf (some new) = op.addedLifetimes ++ lifetimesOf old := by
  cases evolves with
  | register path starts ends => rfl
  | renew active starts ends => rfl
  | takeOver expired starts ends => rfl
  | addChild active allowed added =>
    exact RootNamespaceHistory.map_lifetime_changeSharedChildren _ _
  | setRootAlias active => rfl
  | setChildAlias active mem =>
    exact RootNamespaceHistory.map_lifetime_changeSharedChildren _ _

theorem Evolves.added (evolves : Evolves cfg paths height id op old new)
    (started : ∀ lifetime ∈ lifetimesOf old, lifetime.start ≤ height) :
    ∀ lifetime ∈ op.addedLifetimes, lifetime.start ≤ height ∧ height < lifetime.endHeight := by
  cases evolves with
  | register path starts ends => simpa [addedLifetimes] using ⟨starts, ends⟩
  | renew active starts ends =>
    simp only [addedLifetimes, mem_singleton, forall_eq]
    refine ⟨?_, Nat.lt_of_lt_of_le active ends⟩
    rw [starts]
    exact started _ mem_cons_self
  | takeOver expired starts ends =>
    simp only [addedLifetimes, mem_singleton, forall_eq]
    exact ⟨starts ▸ BitVec.le_refl _, ends⟩
  | addChild active allowed added => simp [addedLifetimes]
  | setRootAlias active => simp [addedLifetimes]
  | setChildAlias active mem => simp [addedLifetimes]

theorem Evolves.addRoot_id {other : NamespaceId} {owner : Address} {lifetime : NamespaceLifetime}
    (evolves : Evolves cfg paths height id (.addRoot other owner lifetime) old new) :
    other = id := by
  cases evolves <;> rfl

private theorem lifetimesOf_pruned {history : RootNamespaceHistory}
    (ok : HistoryOk cfg paths id history) (lifetime : NamespaceLifetime) :
    (lifetime ∈ lifetimesOf (pruned height (some history)) →
        lifetime ∈ lifetimesOf (some history)) ∧
      (lifetime ∈ lifetimesOf (some history) → height < lifetime.endHeight →
        lifetime ∈ lifetimesOf (pruned height (some history))) := by
  cases left : pruned height (some history) with
  | none =>
    refine ⟨fun mem => absurd mem not_mem_nil, fun mem later => ?_⟩
    obtain ⟨root, known, rfl⟩ := mem_map.mp mem
    have kept : root ∈ (history.prune height).1.roots :=
      mem_filter.mpr ⟨known, decide_eq_true later⟩
    rw [pruned, Option.bind_some] at left
    split at left
    · simp_all
    · cases left
  | some kept =>
    obtain ⟨_, sublist, remaining⟩ := ok.pruned left
    refine ⟨fun mem => (sublist.map _).subset mem, fun mem later => ?_⟩
    obtain ⟨root, known, rfl⟩ := mem_map.mp mem
    exact mem_map_of_mem (remaining root known later)

end Lifetimes

section Supported
variable {cfg : NamespaceConfiguration} {paths : Paths} {final height : Height}
  {stack : List NamespaceStep} {histories next : HistoryMap}

theorem Supported.wellFormed (supported : Supported cfg paths final stack histories) :
    WellFormed cfg paths histories := by
  induction supported with
  | base ok started => exact ok
  | idle below ordered above undo ih => exact ih
  | @perform stack histories step id op new below ordered above evolves undo ih =>
    intro other history found
    rw [lookup_insert_apply] at found
    split at found
    · rename_i here
      cases found
      subst here
      exact evolves.historyOk fun history => ih other history
    · exact ih other history found

private theorem Supported.started (supported : Supported cfg paths final stack histories)
    (afterFinal : final ≤ height) (afterAll : ∀ step ∈ stack, step.height ≤ height) :
    Started height histories := by
  induction supported generalizing height with
  | base ok started =>
    exact fun id lifetime mem => BitVec.le_trans (started id lifetime mem) afterFinal
  | idle below ordered above undo ih => simp_all
  | @perform stack histories step id op new below ordered above evolves undo ih =>
    intro other lifetime mem
    rw [lookup_insert_apply] at mem
    split at mem
    · rename_i here
      subst here
      have started := ih (BitVec.le_of_lt above) ordered
      have afterStep := afterAll step mem_cons_self
      rw [evolves.lifetimes] at mem
      rcases mem_append.mp mem with added | known
      · exact BitVec.le_trans (evolves.added (started other) lifetime added).1 afterStep
      · exact BitVec.le_trans (started other lifetime known) afterStep
    · exact ih afterFinal (fun earlier known => afterAll earlier (mem_cons_of_mem _ known))
        other lifetime mem

variable {ids : List NamespaceId}

private theorem WellFormed.lifetimesOf_prunedAt (ok : WellFormed cfg paths histories)
    (prunes : PrunedAt height ids histories next) (id : NamespaceId)
    (lifetime : NamespaceLifetime) :
    (lifetime ∈ lifetimesOf (next.lookup id) → lifetime ∈ lifetimesOf (histories.lookup id)) ∧
      (lifetime ∈ lifetimesOf (histories.lookup id) → height < lifetime.endHeight →
        lifetime ∈ lifetimesOf (next.lookup id)) := by
  rw [prunes.lookup id]
  split
  · cases found : histories.lookup id with
    | none => exact ⟨fun mem => absurd mem not_mem_nil, fun mem => absurd mem not_mem_nil⟩
    | some history => exact lifetimesOf_pruned (ok id history found) lifetime
  · exact ⟨fun mem => mem, fun mem _ => mem⟩

private theorem WellFormed.prunedAt_insert {above : Height}
    {id : NamespaceId} {op : NamespaceOperation} {new : RootNamespaceHistory}
    (ok : WellFormed cfg paths histories)
    (evolves : Evolves cfg paths above id op (histories.lookup id) new)
    (later : height < above) (prunes : PrunedAt height ids (histories.insert id new) next) :
    ∃ former, PrunedAt height ids histories former ∧
      ∃ left, Evolves cfg paths above id op (former.lookup id) left ∧
        next = former.insert id left := by
  let before := if id ∈ ids then pruned height (histories.lookup id) else histories.lookup id
  have here : (restore next id before).lookup id = before := by
    rw [lookup_restore, if_pos rfl]
  have result : ∃ left, next.lookup id = some left ∧ Evolves cfg paths above id op before left := by
    rw [prunes.lookup id, lookup_insert_apply, if_pos rfl]
    by_cases mem : id ∈ ids
    · simp only [before, mem, ↓reduceIte]
      exact evolves.pruned (fun history => ok id history) later
    · simp only [before, mem, ↓reduceIte]
      exact ⟨new, rfl, evolves⟩
  obtain ⟨left, found, evolvesLeft⟩ := result
  refine ⟨restore next id before, ⟨fun other => ?_⟩, left, here.symm ▸ evolvesLeft, ?_⟩
  · by_cases same : other = id
    · subst same
      exact here
    · rw [lookup_restore, if_neg same, prunes.lookup other, lookup_insert_apply, if_neg same]
  · refine Finmap.ext_lookup fun other => ?_
    rw [lookup_insert_apply, lookup_restore]
    by_cases same : other = id
    · rw [if_pos same, same, found]
    · rw [if_neg same, if_neg same]

private theorem Supported.prune
    (supported : Supported cfg paths final stack histories) (later : final ≤ height)
    (prunes : PrunedAt height ids histories next) :
    Supported cfg paths height (stack.filter fun step => decide (height < step.height))
      next := by
  induction supported generalizing next with
  | base ok started =>
    refine .base (ok.prunedAt prunes) fun id lifetime mem => ?_
    exact BitVec.le_trans (started id lifetime ((ok.lifetimesOf_prunedAt prunes _ _).1 mem)) later
  | @idle stack histories step below ordered above undo ih =>
    by_cases kept : height < step.height
    · rw [filter_cons_of_pos (by simpa using kept)]
      exact .idle (ih prunes) (fun earlier mem => ordered earlier (mem_filter.mp mem).1)
        kept undo
    · simp_all
  | @perform stack histories step id op new below ordered above evolves undo ih =>
    by_cases kept : height < step.height
    · rw [filter_cons_of_pos (by simpa using kept)]
      obtain ⟨former, prunesBelow, left, evolvesBelow, same⟩ :=
        below.wellFormed.prunedAt_insert evolves kept prunes
      rw [same]
      exact .perform (ih prunesBelow)
        (fun earlier mem => ordered earlier (mem_filter.mp mem).1) kept evolvesBelow undo
    · -- all transactions are final now
      have allFinal : ∀ earlier ∈ step :: stack, earlier.height ≤ height := by grind
      have none : (step :: stack).filter (fun step => decide (height < step.height)) = [] := by
          simp_all
      have whole := Supported.perform below ordered above evolves undo
      rw [none]
      refine .base (whole.wellFormed.prunedAt prunes) fun id lifetime mem => ?_
      exact whole.started later allFinal id lifetime
        ((whole.wellFormed.lifetimesOf_prunedAt prunes _ _).1 mem)

end Supported

section Grouped
variable {cfg : NamespaceConfiguration} {paths : Paths} {final height : Height}
  {id : NamespaceId} {op : NamespaceOperation} {new : RootNamespaceHistory}
  {histories next : HistoryMap} {groups : GroupedSet Height NamespaceId}

private theorem lifetimesOf_insert (histories : HistoryMap) (id other : NamespaceId)
    (new : RootNamespaceHistory) :
    lifetimesOf ((histories.insert id new).lookup other) =
      if other = id then lifetimesOf (some new) else lifetimesOf (histories.lookup other) := by
  rw [lookup_insert_apply]
  split <;> rfl

section
variable (evolves : Evolves cfg paths height id op (histories.lookup id) new)
include evolves

private theorem Grouped.perform (grouped : Grouped final histories groups) :
    Grouped final (histories.insert id new) (op.addToGroups groups) := by
  -- entries that were there before still have their version
  have kept : ∀ key other, other ∈ groups.identifiers key → key ≤ final ∨
      ∃ lifetime ∈ lifetimesOf ((histories.insert id new).lookup other),
        lifetime.endHeight = key := by
    intro key other mem
    refine (grouped.ends key other mem).imp_right ?_
    rintro ⟨lifetime, known, ends⟩
    refine ⟨lifetime, ?_, ends⟩
    rw [lifetimesOf_insert]
    split
    · rename_i here
      rw [evolves.lifetimes, ← here]
      exact mem_append_right _ known
    · exact known
  cases op with
  | addRoot other owner lifetime =>
    refine ⟨grouped.filled.add _ _, fun key entry mem => ?_⟩
    rcases mem_identifiers_add.mp mem with ⟨rfl, rfl⟩ | mem
    · refine .inr ⟨lifetime, ?_, rfl⟩
      rw [lifetimesOf_insert, if_pos evolves.addRoot_id, evolves.lifetimes]
      exact mem_append_left _ mem_cons_self
    · exact kept key entry mem
  | addChild ns => exact ⟨grouped.filled, kept⟩
  | setAlias other prev next => exact ⟨grouped.filled, kept⟩

private theorem Grouped.revert (grouped : Grouped final (histories.insert id new) groups) :
    Grouped final histories (op.removeFromGroups groups) := by
  -- entries whose version is not the one removed still have it
  have kept : ∀ key other, other ∈ groups.identifiers key →
      (other = id → ∀ lifetime ∈ op.addedLifetimes, lifetime.endHeight ≠ key) →
      key ≤ final ∨ ∃ lifetime ∈ lifetimesOf (histories.lookup other),
        lifetime.endHeight = key := by
    intro key other mem remains
    refine (grouped.ends key other mem).imp_right ?_
    rintro ⟨lifetime, known, ends⟩
    refine ⟨lifetime, ?_, ends⟩
    rw [lifetimesOf_insert] at known
    split at known
    · rename_i here
      rw [evolves.lifetimes] at known
      rcases mem_append.mp known with added | old
      · exact absurd ends (remains here lifetime added)
      · rw [here]
        exact old
    · exact known
  cases op with
  | addRoot other owner lifetime =>
    refine ⟨grouped.filled.remove _ _, fun key entry mem => ?_⟩
    have same : other = id := evolves.addRoot_id
    rw [removeFromGroups, identifiers_remove] at mem
    split at mem
    · have distinct := GroupedSet.nodup_identifiers groups key
      refine kept key entry (mem_of_mem_erase mem) fun here => ?_
      rw [here, ← same] at mem
      exact absurd mem (List.Nodup.not_mem_erase distinct)
    · rename_i differs
      refine kept key entry mem fun _ => ?_
      simpa [addedLifetimes] using Ne.symm differs
  | addChild ns => exact ⟨grouped.filled, fun key entry mem => kept key entry mem
      fun _ => by simp [addedLifetimes]⟩
  | setAlias other prev next => exact ⟨grouped.filled, fun key entry mem =>
      kept key entry mem fun _ => by simp [addedLifetimes]⟩

end

private theorem Grouped.prune {ids : List NamespaceId} (grouped : Grouped final histories groups)
    (ok : WellFormed cfg paths histories) (later : final ≤ height)
    (prunes : PrunedAt height ids histories next) : Grouped height next groups := by
  refine ⟨grouped.filled, fun key id mem => ?_⟩
  rcases grouped.ends key id mem with isFinal | ⟨lifetime, known, ends⟩
  · exact .inl (BitVec.le_trans isFinal later)
  · by_cases isFinal : key ≤ height
    · exact .inl isFinal
    · refine .inr ⟨lifetime, ?_, ends⟩
      exact (ok.lifetimesOf_prunedAt prunes _ _).2 known (ends ▸ BitVec.not_le.mp isFinal)

end Grouped

section Reachable
variable {cfg : NamespaceConfiguration} {paths : Paths} {final height : Height}
  {stack : List NamespaceStep} {cache next : NamespaceCache} {step : NamespaceStep}

private theorem Invariant.empty : Invariant cfg paths 0 [] .empty where
  supported := .base (fun id history found => by simp [NamespaceCache.empty] at found)
    (fun id lifetime mem => by simp [NamespaceCache.empty, lifetimesOf] at mem)
  indexed := by
    refine ⟨fun id => ?_, rfl, rfl⟩
    rw [namespaceOf]
    cases (paths id).head? <;> simp [NamespaceCache.empty]
  grouped := ⟨.empty, fun key id mem => by
    simp [NamespaceCache.empty, GroupedSet.identifiers] at mem⟩

section
variable (invariant : Invariant cfg paths final stack cache)
  (ordered : ∀ earlier ∈ stack, earlier.height ≤ step.height) (above : final < step.height)
include invariant ordered above

theorem Invariant.startedAt : Started step.height cache.historyById :=
  invariant.supported.started (BitVec.le_of_lt above) ordered

theorem Invariant.accept
    (named : step.transaction.Named paths) (accepted : step.accept cfg cache = some next) :
    Invariant cfg paths final (step :: stack) next := by
  have ok := invariant.supported.wellFormed
  rcases NamespaceStep.accept_cases ok invariant.indexed (invariant.startedAt ordered above) named
    accepted with ⟨rfl, undo, _⟩ | ⟨id, op, new, evolves, performed, undo, _⟩
  · exact ⟨.idle invariant.supported ordered above undo, invariant.indexed, invariant.grouped⟩
  · obtain ⟨_, done, changed⟩ := evolves.perform ok invariant.indexed
    rw [performed] at done
    cases done
    refine ⟨?_, changed.indexed, ?_⟩
    · rw [changed.histories]
      exact .perform invariant.supported ordered above evolves undo
    · rw [changed.histories, changed.groups]
      exact invariant.grouped.perform evolves

end

private theorem Invariant.undo (invariant : Invariant cfg paths final (step :: stack) cache) :
    ∃ former, step.undo cfg cache = some former ∧ Invariant cfg paths final stack former := by
  obtain ⟨supported, indexed, grouped⟩ := invariant
  generalize found : cache.historyById = histories at supported
  cases supported with
  | idle below ordered above undo =>
    refine ⟨cache, congrFun undo cache, ?_⟩
    rw [← found] at below
    exact ⟨below, indexed, grouped⟩
  | @perform _ histories _ id op new below ordered above evolves undo =>
    have lookedUp : cache.historyById.lookup id = some new := by
      rw [found, lookup_insert_apply, if_pos rfl]
    obtain ⟨former, reverted, changed⟩ := evolves.revert
      (fun history => below.wellFormed id history) lookedUp indexed
    have restored : former.historyById = histories := by
      rw [changed.histories, found]
      refine Finmap.ext_lookup fun other => ?_
      rw [lookup_restore, lookup_insert_apply]
      by_cases here : other = id
      · rw [if_pos here, here]
      · rw [if_neg here, if_neg here]
    rw [found] at grouped
    refine ⟨former, (congrFun undo cache).trans reverted, ?_, changed.indexed, ?_⟩
    · rw [restored]
      exact below
    · rw [restored, changed.groups]
      exact grouped.revert evolves

private theorem Invariant.prune (invariant : Invariant cfg paths final stack cache)
    (later : final ≤ height) :
    Invariant cfg paths height (stack.filter fun step => decide (height < step.height))
      (cache.prune height) := by
  have ok := invariant.supported.wellFormed
  obtain ⟨prunes, groups, indexed⟩ := prune_spec ok.allPlaced invariant.indexed
  refine ⟨invariant.supported.prune later prunes, indexed, ?_⟩
  rw [groups]
  exact invariant.grouped.prune ok later prunes

theorem Reachable.invariant (reachable : Reachable cfg paths final stack cache) :
    Invariant cfg paths final stack cache := by
  induction reachable with
  | empty => exact .empty
  | accept _ ordered above named accepted ih => exact ih.accept ordered above named accepted
  | undo _ undone ih =>
    obtain ⟨former, done, invariant⟩ := ih.undo
    rw [done] at undone
    cases undone
    exact invariant
  | prune _ later ih => exact ih.prune later

end Reachable

open NamespaceLifetime Option

/-- The namespace of a registration is active, at its place and within the limits, and belongs to
the signer. -/
structure InEffect (cfg : NamespaceConfiguration) (height : Height) (cache : NamespaceCache)
    (tx : NamespaceRegistrationTransaction) (ns : Namespace) (root : RootNamespace) :
    Prop where
  contained : cache.find tx.id = some (ns, root)
  rootPath : tx.registrationType = .root → ns.path = [tx.id]
  path : tx.registrationType ≠ .root → ∃ parent,
    cache.namespaceById.lookup tx.parentId = some parent ∧ ns.path = parent.path ++ [tx.id]
  active : root.lifetime.isActive height
  owned : root.ownerAddress = tx.signerAddress
  depth : ns.path.length ≤ cfg.maxNamespaceDepth.toNat
  children : root.children.length ≤ cfg.maxChildNamespaces.toNat

def NamespaceRegistrationTransaction.IsInEffect (cfg : NamespaceConfiguration)
    (height : Height) (cache : NamespaceCache)
    (tx : NamespaceRegistrationTransaction) : Prop :=
  ∃ ns root, InEffect cfg height cache tx ns root

section Effects
variable {cfg : NamespaceConfiguration} {paths : Paths} {height final : Height}
  {isKnownAccount : Address → Bool} {cache next : NamespaceCache} {stack : List NamespaceStep}
  {tx : NamespaceRegistrationTransaction}

variable {lifetime : NamespaceLifetime} {id : NamespaceId} {owner : Address}

private theorem isActive_of_calculated {duration : BlockDuration}
    (checked : RootAccepted cfg height cache owner id duration lifetime) :
    lifetime.isActive height := by
  obtain ⟨newLifetime, new, calculated⟩ := bind_eq_some_iff.mp checked.calculated
  have newActive : newLifetime.isActive height := by
    have starts := (create_eq_some.mp new).2.1
    simp [isActive, starts, start_lt_of_create new]
  cases found : cache.find id with
  | none => simp_all
  | some entry =>
    obtain ⟨ns, root⟩ := entry
    rw [found] at calculated
    dsimp only at calculated
    split at calculated
    · cases calculated
      exact newActive
    · rename_i renewal
      obtain ⟨active, _⟩ := Bool.and_eq_true_iff.mp (not_not.mp renewal)
      have fits := ((checked.available ns root found).2 active).2
      obtain ⟨starts, ends⟩ := create_zero calculated
      rw [addOverflows, decide_eq_true_iff, BitVec.not_lt, ← ends] at fits
      rw [isActive, Bool.and_eq_true, decide_eq_true_iff, decide_eq_true_iff]
        at active
      have later : height < lifetime.endHeight := Nat.lt_of_lt_of_le active.2 fits
      simp [isActive, starts, active.1, later]

section
variable (ok : WellFormed cfg paths cache.historyById) (indexed : cache.Indexed paths)
include ok indexed

private theorem find_insertRoot
    (inserted : cache.insertRoot (.create id owner lifetime) = some next) :
    ∃ root, next.find id = some (.ofRoot id, root) ∧ root.ownerAddress = owner ∧
      root.lifetime = lifetime ∧
      root.children.length ≤ cfg.maxChildNamespaces.toNat := by
  have find : ∀ root : RootNamespace, next.namespaceById.lookup id = some (.ofRoot id) →
      (next.historyById.lookup id).bind RootNamespaceHistory.back = some root →
        next.find id = some (.ofRoot id, root) := by
    intro root flat newest
    obtain ⟨history, found, back⟩ := bind_eq_some_iff.mp newest
    simp [NamespaceCache.find, flat, found, back]
  cases found : cache.historyById.lookup id with
  | none =>
    rw [NamespaceCache.insertRoot] at inserted
    dsimp only [RootNamespace.create] at inserted
    rw [found] at inserted
    cases inserted
    refine ⟨.create id owner lifetime, find _ ?_ ?_, rfl, rfl, Nat.zero_le _⟩
    · rw [lookup_insert_apply, if_pos rfl]
    · rw [lookup_insert_apply, if_pos rfl]
      rfl
  | some history =>
    have historyOk := ok id history found
    obtain ⟨back, older, roots, _⟩ := historyOk.exists_back
    obtain ⟨historyId, historyRoots⟩ := history
    cases roots
    cases historyOk.sameId
    obtain ⟨_, done, changed⟩ :=
      @insertRoot_found _ _ _ owner lifetime _ _ found historyOk.toHistoryPlaced indexed
    cases inserted.symm.trans done
    have lookedUp := lookup_restore cache.historyById historyId historyId
      (some ((RootNamespaceHistory.mk historyId (back :: older)).pushBack owner lifetime))
    rw [if_pos rfl, ← changed.histories] at lookedUp
    obtain ⟨root, pushed, owned, lives, children⟩ :=
      RootNamespaceHistory.back_pushBack ⟨historyId, back :: older⟩ owner lifetime
    have flat : next.namespaceById.lookup historyId = some (.ofRoot historyId) := by
      rw [changed.indexed.flat, namespaceOf_of_lookup (head?_path historyOk.path) lookedUp,
        RootNamespaceHistory.activeNamespace, pushed, bind_some]
      exact if_pos rfl
    refine ⟨root, find root flat (by rw [lookedUp, bind_some, pushed]), owned, lives, ?_⟩
    rcases children with none | ⟨prev, before, same⟩
    · rw [none]
      exact Nat.zero_le _
    · cases before
      rw [same]
      exact (historyOk.children back mem_cons_self).bounded

private theorem isInEffect_root (isRoot : tx.registrationType = .root)
    (limited : cfg.maxNamespaceDepth ≠ 0)
    (accepted : (NamespaceTransaction.registration tx).accept cfg isKnownAccount
      height cache = some next) : tx.IsInEffect cfg height next := by
  obtain ⟨lifetime, checked, inserted⟩ := accept_root isRoot accepted
  obtain ⟨root, found, owned, lives, bounded⟩ := find_insertRoot ok indexed inserted
  refine ⟨_, root, found, fun _ => rfl, fun isNotRoot => absurd isRoot isNotRoot, ?_, owned, ?_,
    bounded⟩
  · rw [lives]
    exact isActive_of_calculated checked
  · exact Nat.one_le_iff_ne_zero.mpr fun zero => limited (BitVec.eq_of_toNat_eq zero)

private theorem isInEffect_child (isNotRoot : tx.registrationType ≠ .root)
    (isNotIsoCode : tx.registrationType ≠ .isoCode)
    (limited : cfg.maxNamespaceDepth ≠ 0)
    (accepted : (NamespaceTransaction.registration tx).accept cfg isKnownAccount
      height cache = some next) : tx.IsInEffect cfg height next := by
  obtain ⟨parent, root, checked, inserted⟩ := accept_child accepted isNotRoot isNotIsoCode
  obtain ⟨active, older, found⟩ := find_eq_some ok indexed checked.found
  have version := (ok _ _ found).versions root List.mem_cons_self
  have parentDepth := ok.depth_le limited active
  have notDeepest := checked.depth
  obtain ⟨history, lookedUp, inserted⟩ := bind_eq_some_iff.mp inserted
  rw [Namespace.rootId_createChild, found] at lookedUp
  cases lookedUp
  obtain ⟨added, adds, inserted⟩ := bind_eq_some_iff.mp inserted
  have changed : added.back = some { root with
      children := ⟨parent.createChild tx.id, .none⟩ :: root.children } := by
    simp only [RootNamespaceHistory.addChild, RootNamespaceHistory.back, List.head?_cons,
      bind_eq_bind, bind_some] at adds
    split at adds
    · cases adds
      rfl
    · cases adds
  have notParent : tx.parentId ≠ tx.id := by
    intro same
    have fresh := checked.fresh
    rw [NamespaceCache.contains, ← same, indexed.flat, active] at fresh
    cases fresh
  cases inserted
  refine ⟨parent.createChild tx.id, { root with
      children := ⟨parent.createChild tx.id, .none⟩ :: root.children }, ?_,
      fun isRoot => absurd isRoot isNotRoot,
    fun _ => ⟨parent, ?_, rfl⟩, ?_, checked.owned, ?_, checked.children⟩
  · simp [NamespaceCache.find, lookup_insert_apply, changed]
  · rw [lookup_insert_apply, Namespace.id_createChild, if_neg notParent, indexed.flat, active]
  · obtain ⟨starts, ends⟩ := isActive_of_excluding version.lived checked.active
    simp [isActive, starts, ends]
  · have length : (parent.createChild tx.id).path.length = parent.path.length + 1 :=
      List.length_append
    omega

end

/-- In every reachable state, an accepted registration takes effect exactly if it is not one of an
iso code, or is in effect already, and namespaces may have a depth at all. -/
theorem registration_isInEffect_iff (reachable : Reachable cfg paths final stack cache)
    (accepted : (NamespaceTransaction.registration tx).accept cfg isKnownAccount
      height cache = some next) :
    tx.IsInEffect cfg height next ↔
      (tx.registrationType = .isoCode → tx.IsInEffect cfg height cache) ∧
        cfg.maxNamespaceDepth ≠ 0 := by
  have ok := reachable.invariant.supported.wellFormed
  have indexed := reachable.invariant.indexed
  have limited : tx.IsInEffect cfg height next → cfg.maxNamespaceDepth ≠ 0 := by
    rintro ⟨ns, root, inEffect⟩ zero
    have depth := inEffect.depth
    rw [zero] at depth
    exact ns.nonempty (List.length_eq_zero_iff.mp (Nat.le_zero.mp depth))
  by_cases isIsoCode : tx.registrationType = .isoCode
  · have same := accept_isoCode isIsoCode accepted
    subst same
    exact ⟨fun inEffect => ⟨fun _ => inEffect, limited inEffect⟩, fun holds => holds.1 isIsoCode⟩
  · refine ⟨fun inEffect => ⟨fun isoCode => absurd isoCode isIsoCode, limited inEffect⟩, ?_⟩
    rintro ⟨_, limited⟩
    by_cases isRoot : tx.registrationType = .root
    · exact isInEffect_root ok indexed isRoot limited accepted
    · exact isInEffect_child ok indexed isRoot isIsoCode limited accepted

end Effects

section Example

theorem registration_isInEffect_iff_example :
    ∃ next, (NamespaceTransaction.registration (exampleRegistration 50)).accept
        exampleConfiguration (fun _ => true) 5 .empty = some next ∧
      ((exampleRegistration 50).IsInEffect exampleConfiguration 5 next ↔
        ((exampleRegistration 50).registrationType = .isoCode →
          (exampleRegistration 50).IsInEffect exampleConfiguration 5 .empty) ∧
          exampleConfiguration.maxNamespaceDepth ≠ 0) :=
  have accepted := (some_get exampleRegistration_accepted).symm
  have reachable : Reachable exampleConfiguration (fun id => [id]) 0 [] .empty := .empty
  ⟨_, accepted, registration_isInEffect_iff reachable accepted⟩

/-- Account 1 registers an iso code with id 7 under the parent of root namespaces. -/
def exampleIsoCode : NamespaceRegistrationTransaction := ⟨1, 0, 7, .isoCode, [97]⟩

/-- The iso code is accepted, and the cache does not contain it. -/
theorem isoCode_registration_without_effect :
    Reachable exampleConfiguration (fun id => [id]) 0 [] .empty ∧
      ∃ next, (NamespaceTransaction.registration exampleIsoCode).accept exampleConfiguration
          (fun _ => true) 5 .empty = some next ∧
        next.contains 7 = false ∧ ¬ exampleIsoCode.IsInEffect exampleConfiguration 5 next := by
  refine ⟨.empty, ?_⟩
  have accepted : ((NamespaceTransaction.registration exampleIsoCode).accept
      exampleConfiguration (fun _ => true) 5 .empty).map (fun next => next.contains 7) =
        some false := by
    decide +kernel
  obtain ⟨next, done, absent⟩ := map_eq_some_iff.mp accepted
  refine ⟨next, done, absent, ?_⟩
  rintro ⟨ns, root, inEffect⟩
  obtain ⟨_, flat, _⟩ := bind_eq_some_iff.mp inEffect.contained
  have present : next.contains 7 := by
    rw [NamespaceCache.contains]
    exact isSome_iff_exists.mpr ⟨_, flat⟩
  rw [absent] at present
  cases present

end Example

end BitxorCore.Namespaces
