/- GID: Namespace/NamespaceBookkeeping
   anchors: [plugins/txes/namespace]
   digest: Every change of a cache keeps the flat map and the sizes in step with the histories. -/

import BitxorCore.Namespace.NamespaceIndex

set_option autoImplicit false
set_option relaxedAutoImplicit false

namespace BitxorCore.Namespaces
open Cache Library.Bookkeeping Library.FiniteMap State RootNamespaceHistory List Children
open Option (bind_some elim_none elim_some)
open RootNamespace (create)
open BitVec (ofNat ofNat_add)

section Histories
variable {paths : Paths} {id : NamespaceId} {back : RootNamespace} {older : List RootNamespace}
  {owner : Address} {lifetime : NamespaceLifetime}

theorem RootNamespaceHistory.pushBack_extends
    (continues : (create id owner lifetime).canExtend back) :
    (mk id (back :: older)).pushBack owner lifetime =
      ⟨id, ⟨id, owner, lifetime, back.namespaceAlias, back.children⟩ :: back :: older⟩ := by
  simp only [pushBack, RootNamespaceHistory.back, head?_cons, continues, ↓reduceIte]
  rfl

theorem RootNamespaceHistory.pushBack_replaces
    (apart : ¬(create id owner lifetime).canExtend back) :
    (mk id (back :: older)).pushBack owner lifetime =
      ⟨id, .create id owner lifetime :: back :: older⟩ := by
  simp only [pushBack, RootNamespaceHistory.back, head?_cons, apart, Bool.false_eq_true, ↓reduceIte]

variable {root : RootNamespace}

theorem HistoryPlaced.only (path : paths id = [id])
    (version : VersionPlaced paths id root) : HistoryPlaced paths id ⟨id, [root]⟩ where
  sameId := rfl
  path := path
  nonempty := cons_ne_nil _ _
  versions := forall_mem_singleton.mpr version
  shared := isChain_singleton _
  descend := pairwise_singleton _ _

section
variable (placed : HistoryPlaced paths id ⟨id, back :: older⟩)
include placed

theorem HistoryPlaced.changeShared
    {change : Children → Children} (changed : Placed paths id (change back.children)) :
    HistoryPlaced paths id ⟨id, changeSharedChildren change (back :: older)⟩ where
  sameId := rfl
  path := placed.path
  nonempty := cons_ne_nil _ _
  versions := by
    have newest : ∀ root, (back :: older).head? = some root → root.children = back.children := by
      simp
    refine forall_changeSharedChildren placed.shared newest placed.versions
      fun root mem same => ?_
    have version := placed.versions root mem
    exact ⟨version.sameId, version.lived, same ▸ changed⟩
  shared := placed.shared.changeSharedChildren change
  descend := placed.descend.of_map_lifetime
    (map_lifetime_changeSharedChildren change _)

theorem HistoryPlaced.setRootAlias (next : NamespaceAlias) :
    HistoryPlaced paths id ⟨id, { back with namespaceAlias := next } :: older⟩ where
  sameId := rfl
  path := placed.path
  nonempty := cons_ne_nil _ _
  versions := by
    have version := placed.versions back mem_cons_self
    exact forall_mem_cons.mpr ⟨⟨version.sameId, version.lived, version.children⟩,
      fun root later => placed.versions root (mem_cons_of_mem _ later)⟩
  shared := placed.shared.tail.cons fun _ newest continues =>
    placed.shared.rel_head? newest continues
  descend := placed.descend.of_map_lifetime rfl

theorem HistoryPlaced.push (version : VersionPlaced paths id root)
    (shared : root.canExtend back → root.children = back.children)
    (ends : back.lifetime.endHeight ≤ root.lifetime.endHeight) :
    HistoryPlaced paths id ⟨id, root :: back :: older⟩ where
  sameId := rfl
  path := placed.path
  nonempty := cons_ne_nil _ _
  versions := forall_mem_cons.mpr ⟨version, placed.versions⟩
  shared := isChain_cons_cons.mpr ⟨shared, placed.shared⟩
  descend := by
    refine pairwise_cons.mpr ⟨fun other mem => ?_, placed.descend⟩
    rcases mem_cons.mp mem with rfl | later
    · exact ends
    · exact BitVec.le_trans (rel_of_pairwise_cons placed.descend later) ends

theorem HistoryPlaced.pushBack (lived : lifetime.start < lifetime.endHeight)
    (ends : back.lifetime.endHeight ≤ lifetime.endHeight) :
    HistoryPlaced paths id (RootNamespaceHistory.pushBack ⟨id, back :: older⟩ owner lifetime) := by
  by_cases continues : (create id owner lifetime).canExtend back
  · rw [pushBack_extends continues]
    exact placed.push ⟨rfl, lived, (placed.versions back mem_cons_self).children⟩
      (fun _ => rfl) ends
  · rw [pushBack_replaces continues]
    exact placed.push ⟨rfl, lived, .nil⟩ (fun extends_ => absurd extends_ continues) ends

end

theorem HistoryPlaced.pop (placed : HistoryPlaced paths id ⟨id, root :: back :: older⟩) :
    HistoryPlaced paths id ⟨id, back :: older⟩ where
  sameId := rfl
  path := placed.path
  nonempty := cons_ne_nil _ _
  versions := fun version mem => placed.versions version (mem_cons_of_mem _ mem)
  shared := placed.shared.tail
  descend := placed.descend.of_cons

end Histories

section Caches
variable {paths : Paths} {height : Height} {id : NamespaceId} {cache : NamespaceCache}

def restore (histories : HistoryMap) (id : NamespaceId) : Option RootNamespaceHistory → HistoryMap
  | none => histories.erase id
  | some history => histories.insert id history

variable (histories : HistoryMap)

theorem lookup_restore (id other : NamespaceId) (old : Option RootNamespaceHistory) :
    (restore histories id old).lookup other = if other = id then old else histories.lookup other := by
  cases old with
  | none => exact lookup_erase_apply histories id other
  | some history => exact lookup_insert_apply histories id other history

private theorem namespaceOf_restore (id other : NamespaceId) (old : Option RootNamespaceHistory) :
    namespaceOf paths (restore histories id old) other =
      if (paths other).head? = some id then old.bind fun history => history.activeNamespace other
      else namespaceOf paths histories other := by
  unfold namespaceOf
  cases root : (paths other).head? with
  | none => simp
  | some rootId =>
    rw [bind_some, lookup_restore]
    by_cases here : rootId = id
    · simp [here]
    · simp [here]

private theorem total_restore (f : RootNamespaceHistory → Nat) (histories : HistoryMap)
    (id : NamespaceId) (old : Option RootNamespaceHistory) :
    total f (restore histories id old) + share f histories id = total f histories + old.elim 0 f := by
  cases old with
  | none => exact total_erase f histories id
  | some history => exact total_insert f histories id history

theorem activeNamespace_mk (root id : NamespaceId) (back : RootNamespace)
    (older : List RootNamespace) :
    (mk root (back :: older)).activeNamespace id =
      if id = root then some (.ofRoot id)
      else (back.children.find id).map NamespaceData.ns := rfl

theorem NamespaceCache.Indexed.restored {next : NamespaceCache}
    (indexed : cache.Indexed paths) (id : NamespaceId) (old : Option RootNamespaceHistory)
    (histories : next.historyById = restore cache.historyById id old)
    (under : ∀ other, (paths other).head? = some id → next.namespaceById.lookup other =
      old.bind fun history => history.activeNamespace other)
    (others : ∀ other, (paths other).head? ≠ some id →
      next.namespaceById.lookup other = cache.namespaceById.lookup other)
    (active : next.sizes.active + ofNat 64 (share activeCount cache.historyById id) =
      cache.sizes.active + ofNat 64 (old.elim 0 activeCount))
    (deep : next.sizes.deep + ofNat 64 (share deepCount cache.historyById id) =
      cache.sizes.deep + ofNat 64 (old.elim 0 deepCount)) :
    next.Indexed paths where
  flat other := by
    rw [histories, namespaceOf_restore]
    split
    · exact under other ‹_›
    · rw [others other ‹_›, indexed.flat]
  active := by
    have updated := total_restore activeCount cache.historyById id old
    rw [indexed.active, ← ofNat_add, ← updated, ofNat_add] at active
    rw [histories]
    exact (BitVec.add_left_inj _).mp active
  deep := by
    have updated := total_restore deepCount cache.historyById id old
    rw [indexed.deep, ← ofNat_add, ← updated, ofNat_add] at deep
    rw [histories]
    exact (BitVec.add_left_inj _).mp deep

variable (flat : NamespaceByIdMap)

private theorem NamespaceByIdMap.lookup_removeAll (children : Children) (other : NamespaceId) :
    (flat.removeAll children).lookup other =
      if other ∈ children.ids then none else flat.lookup other := by
  rw [NamespaceByIdMap.removeAll, lookup_foldl_erase (fun child : NamespaceData => child.ns.id)]
  rfl

open NamespaceByIdMap (addAll lookup_removeAll)

private theorem lookup_addAll {children : Children} (distinct : children.ids.Nodup)
    (other : NamespaceId) : (flat.addAll children).lookup other =
      ((children.find other).map NamespaceData.ns).or (flat.lookup other) := by
  induction children generalizing flat with
  | nil => simp [addAll, find]
  | cons child rest ih =>
    obtain ⟨fresh, distinctRest⟩ := nodup_cons.mp distinct
    have step : flat.addAll (child :: rest) =
        addAll (flat.insert child.ns.id child.ns) rest := rfl
    rw [step, ih _ distinctRest, lookup_insert_apply, find_cons]
    by_cases here : other = child.ns.id
    · subst here
      have absent : find rest child.ns.id = none := find_eq_none.mpr fresh
      simp [absent]
    · rw [if_neg here, if_neg (Ne.symm here)]

theorem head?_path (path : paths id = [id]) : (paths id).head? = some id := by
  rw [path, head?_cons]

section Shares
variable {histories : HistoryMap} {back : RootNamespace} {older : List RootNamespace}

private theorem activeCount_mk :
    (mk id (back :: older)).activeCount = 1 + back.children.length := rfl

private theorem deepCount_mk : (mk id (back :: older)).deepCount =
      1 + back.children.length + (mk id older).deepCount := by
  simp [deepCount, countChildren]
  omega

theorem share_found {history : RootNamespaceHistory}
    (found : histories.lookup id = some history) (f : RootNamespaceHistory → Nat) :
    share f histories id = f history := by
  rw [share, found, elim_some]

private theorem share_absent (absent : histories.lookup id = none)
    (f : RootNamespaceHistory → Nat) : share f histories id = 0 := by
  rw [share, absent, elim_none]

end Shares

/-- The cache changed to hold what is given at an id, and its groups to those given. -/
structure ChangedTo (paths : Paths) (cache next : NamespaceCache) (id : NamespaceId)
    (old : Option RootNamespaceHistory) (groups : GroupedSet Height NamespaceId) : Prop where
  histories : next.historyById = restore cache.historyById id old
  groups : next.rootNamespaceIdsByExpiryHeight = groups
  indexed : next.Indexed paths

section Changes
variable {owner : Address} {lifetime : NamespaceLifetime} {back : RootNamespace}
  {older : List RootNamespace}

section
variable (change : Children → Children)
include change

private theorem activeCount_changeShared : (mk id
        (changeSharedChildren change (back :: older))).activeCount =
      1 + (change back.children).length := rfl

private theorem activeNamespace_changeShared (other : NamespaceId) : (mk id
        (changeSharedChildren change (back :: older))).activeNamespace other =
      if other = id then some (.ofRoot other)
      else ((change back.children).find other).map NamespaceData.ns := rfl

private theorem length_changeShared (roots : List RootNamespace) :
    (changeSharedChildren change roots).length = roots.length := by
  simpa using congrArg length
    (map_lifetime_changeSharedChildren change roots)

end

theorem insertRoot_absent (path : paths id = [id])
    (absent : cache.historyById.lookup id = none) (indexed : cache.Indexed paths) :
    ∃ next, cache.insertRoot (.create id owner lifetime) = some next ∧
      ChangedTo paths cache next id (some ⟨id, [.create id owner lifetime]⟩)
        (addIdentifierWithGroup cache.rootNamespaceIdsByExpiryHeight lifetime.endHeight id) := by
  have done := NamespaceCache.insertRoot.eq_1 cache (.create id owner lifetime)
  simp only [create, absent] at done
  refine ⟨_, done, rfl, rfl,
    indexed.restored id (some ⟨id, [.create id owner lifetime]⟩) rfl ?_ ?_ ?_ ?_⟩
  · intro other root
    rw [lookup_insert_apply, indexed.flat, namespaceOf_of_absent root absent, bind_some,
      activeNamespace_mk]
    by_cases here : other = id
    · rw [if_pos here, if_pos here, here]
    · rw [if_neg here, if_neg here]
      rfl
  · intro other apart
    rw [lookup_insert_apply, if_neg]
    rintro rfl
    exact apart (head?_path path)
  · rw [share_absent absent, elim_some, activeCount_mk]
    exact BitVec.add_zero _
  · rw [share_absent absent, elim_some, deepCount_mk]
    exact BitVec.add_zero _

private theorem setAlias_found {ns : Namespace} {next : NamespaceAlias}
    {history new : RootNamespaceHistory} {childId : NamespaceId}
    (found : cache.historyById.lookup id = some history)
    (active : namespaceOf paths cache.historyById childId = some ns) (root : ns.rootId = id)
    (changed : history.setAlias childId next = some new)
    (sameNamespaces : ∀ other, new.activeNamespace other = history.activeNamespace other)
    (sameActive : new.activeCount = history.activeCount)
    (sameDeep : new.deepCount = history.deepCount) (indexed : cache.Indexed paths) :
    ∃ after, cache.setAlias childId next = some after ∧
      ChangedTo paths cache after id (some new) cache.rootNamespaceIdsByExpiryHeight := by
  subst root
  have done := NamespaceCache.setAlias.eq_1 cache childId next
  rw [indexed.flat, active] at done
  simp only [found, Option.bind_eq_bind, Option.bind_some, changed, Option.pure_def] at done
  refine ⟨_, done, rfl, rfl, indexed.restored _ (some new) rfl ?_ ?_ ?_ ?_⟩
  · intro other under
    rw [indexed.flat, namespaceOf_of_lookup under found, bind_some, sameNamespaces]
  · exact fun other apart => rfl
  · rw [share_found found, elim_some, sameActive]
  · rw [share_found found, elim_some, sameDeep]

variable {root : RootNamespace} {histories : HistoryMap}

theorem namespaceOf_root
    (path : paths id = [id]) (found : histories.lookup id = some ⟨id, root :: older⟩) :
    namespaceOf paths histories id = some (.ofRoot id) := by
  rw [namespaceOf_of_lookup (head?_path path) found, activeNamespace_mk, if_pos rfl]

variable {child : NamespaceData}

theorem namespaceOf_child (placed : Placed paths id root.children)
    (path : paths id = [id]) (found : histories.lookup id = some ⟨id, root :: older⟩)
    (mem : child ∈ root.children) :
    namespaceOf paths histories child.ns.id = some child.ns := by
  rw [namespaceOf_of_lookup (placed.head? mem) found, activeNamespace_mk,
    if_neg (placed.id_ne path mem), find_of_mem placed.distinct mem,
    Option.map_some]

theorem remove_root (path : paths id = [id])
    (found : cache.historyById.lookup id = some ⟨id, root :: older⟩)
    (indexed : cache.Indexed paths) : cache.remove id = cache.removeRoot id := by
  have done := NamespaceCache.remove.eq_1 cache id
  rw [indexed.flat, namespaceOf_root path found] at done
  simpa using done

theorem removeRoot_only (path : paths id = [id])
    (found : cache.historyById.lookup id = some ⟨id, [root]⟩) (childless : root.children = [])
    (indexed : cache.Indexed paths) :
    ∃ former, cache.remove id = some former ∧ ChangedTo paths cache former id none
      (removeIdentifierWithGroup cache.rootNamespaceIdsByExpiryHeight root.lifetime.endHeight
        id) := by
  have done := NamespaceCache.removeRoot.eq_1 cache id
  rw [← remove_root path found indexed, found] at done
  simp only [Option.bind_eq_bind, bind_some, childless, isEmpty_nil, ↓reduceIte] at done
  refine ⟨_, done, rfl, rfl, indexed.restored id none rfl ?_ ?_ ?_ ?_⟩
  · intro other under
    rw [lookup_erase_apply, indexed.flat, namespaceOf_of_lookup under found, activeNamespace_mk,
      childless]
    by_cases here : other = id
    · rw [if_pos here]
      rfl
    · rw [if_neg here, if_neg here]
      rfl
  · intro other apart
    rw [lookup_erase_apply, if_neg]
    rintro rfl
    exact apart (head?_path path)
  · rw [share_found found, elim_none, activeCount_mk, childless]
    exact (BitVec.sub_add_cancel _ 1).trans (BitVec.add_zero _).symm
  · rw [share_found found, elim_none, deepCount_mk, childless]
    exact (BitVec.sub_add_cancel _ 1).trans (BitVec.add_zero _).symm

section
variable (found : cache.historyById.lookup id = some ⟨id, root :: back :: older⟩)
include found

theorem removeRoot_newest
    (placed : HistoryPlaced paths id ⟨id, root :: back :: older⟩) (indexed : cache.Indexed paths) :
    ∃ former, cache.remove id = some former ∧
      ChangedTo paths cache former id (some ⟨id, back :: older⟩)
        (removeIdentifierWithGroup cache.rootNamespaceIdsByExpiryHeight root.lifetime.endHeight
          id) := by
  have gone := (placed.versions root mem_cons_self).children
  have children := (placed.pop.versions back mem_cons_self).children
  rw [remove_root placed.path found indexed, NamespaceCache.removeRoot, found]
  refine ⟨_, rfl, rfl, rfl, indexed.restored id (some ⟨id, back :: older⟩) rfl ?_ ?_ ?_ ?_⟩
  · intro other under
    rw [bind_some, activeNamespace_mk]
    split
    · next continues =>
      rw [indexed.flat, namespaceOf_of_lookup under found, activeNamespace_mk,
        placed.shared.rel continues]
    · rw [lookup_addAll _ children.distinct, lookup_removeAll, indexed.flat,
        namespaceOf_of_lookup under found, activeNamespace_mk]
      by_cases here : other = id
      · subst here
        rw [find_eq_none.mpr (children.id_not_mem placed.path),
          if_neg (gone.id_not_mem placed.path), if_pos rfl, if_pos rfl]
        rfl
      · rw [if_neg here, if_neg here]
        have inactive : (if other ∈ root.children.ids then none
            else (root.children.find other).map NamespaceData.ns) = none := by
          split
          · rfl
          · rw [find_eq_none.mpr ‹_›]
            rfl
        rw [inactive, Option.or_none]
  · intro other away
    split
    · rfl
    · rw [lookup_addAll _ children.distinct, lookup_removeAll,
        if_neg (gone.not_mem_of_head? away),
        find_eq_none.mpr (children.not_mem_of_head? away)]
      rfl
  · simp only [share_found found, elim_some, activeCount_mk]
    split
    · next continues => rw [placed.shared.rel continues]
    · bv_omega
  · simp only [share_found found, elim_some, deepCount_mk]
    bv_omega

end

section Found
variable (found : cache.historyById.lookup id = some ⟨id, back :: older⟩)
  (placed : HistoryPlaced paths id ⟨id, back :: older⟩) (indexed : cache.Indexed paths)

include found placed indexed

/-- A version that extends the newest one keeps the children active; another one takes them out of
the flat map. -/
theorem insertRoot_found :
    ∃ next, cache.insertRoot (.create id owner lifetime) = some next ∧ ChangedTo paths cache next id
        (some ((mk id (back :: older)).pushBack owner lifetime))
        (addIdentifierWithGroup cache.rootNamespaceIdsByExpiryHeight lifetime.endHeight id) := by
  set pushed := (mk id (back :: older)).pushBack owner lifetime with isPushed
  have children := (placed.versions back mem_cons_self).children
  have done := NamespaceCache.insertRoot.eq_1 cache (.create id owner lifetime)
  rw [show (create id owner lifetime).id = id from rfl, found] at done
  by_cases continues : (create id owner lifetime).canExtend back
  · simp only [RootNamespaceHistory.back, head?_cons, Option.bind_eq_bind, Option.bind_some,
      continues, ↓reduceIte, Option.pure_def] at done
    rw [pushBack_extends continues] at isPushed
    refine ⟨_, done, rfl, rfl,
      indexed.restored id (some pushed) rfl ?_ (fun other apart => rfl) ?_ ?_⟩ <;> rw [isPushed]
    · intro other root
      rw [indexed.flat, namespaceOf_of_lookup root found]
      rfl
    · rw [share_found found, elim_some, activeCount_mk, activeCount_mk]
    · simp only [share_found found, elim_some, deepCount_mk]
      bv_omega
  · simp only [RootNamespaceHistory.back, head?_cons, Option.bind_eq_bind, Option.bind_some,
      continues, Bool.false_eq_true, ↓reduceIte, Option.pure_def] at done
    rw [pushBack_replaces continues] at isPushed
    refine ⟨_, done, rfl, rfl, indexed.restored id (some pushed) rfl ?_ ?_ ?_ ?_⟩
    · intro other root
      rw [lookup_removeAll, indexed.flat, namespaceOf_of_lookup root found,
        activeNamespace_mk, isPushed, bind_some,
        activeNamespace_mk]
      by_cases here : other = id
      · subst here
        rw [if_neg (children.id_not_mem placed.path), if_pos rfl, if_pos rfl]
      · rw [if_neg here, if_neg here]
        split
        · rfl
        · rw [find_eq_none.mpr ‹_›]
          rfl
    · intro other away
      rw [lookup_removeAll, if_neg (children.not_mem_of_head? away)]
    · simp only [isPushed, share_found found,
        elim_some, activeCount_mk, create, length_nil]
      bv_omega
    · simp only [isPushed, share_found found,
        elim_some, deepCount_mk, create, length_nil]
      bv_omega

theorem insertChild_found {ns : Namespace}
    (allowed : back.canAdd ns)
    (added : Placed paths id (⟨ns, .none⟩ :: back.children)) :
    ∃ next, cache.insertChild ns = some next ∧
      ChangedTo paths cache next id (some ⟨id, changeSharedChildren
        (⟨ns, .none⟩ :: ·) (back :: older)⟩) cache.rootNamespaceIdsByExpiryHeight := by
  have lived := (placed.versions back mem_cons_self).lived
  have root : ns.rootId = id := (added.under _ mem_cons_self).1
  have own : (paths ns.id).head? = some id := added.head? mem_cons_self
  have notRoot : ns.id ≠ id := added.id_ne placed.path mem_cons_self
  have done := NamespaceCache.insertChild.eq_1 cache ns
  rw [root, found] at done
  simp only [addChild, RootNamespaceHistory.back, head?_cons,
    Option.bind_eq_bind, Option.bind_some, allowed, ↓reduceIte, Option.pure_def,
    activeOwnerHistoryDepth_changeSharedChildren _ lived] at done
  refine ⟨_, done, rfl, rfl, indexed.restored id (some ⟨id,
    changeSharedChildren (⟨ns, .none⟩ :: ·) (back :: older)⟩) rfl ?_ ?_ ?_ ?_⟩
  · intro other under
    rw [lookup_insert_apply, indexed.flat, namespaceOf_of_lookup under found, activeNamespace_mk,
      bind_some, activeNamespace_changeShared, find_cons]
    by_cases here : other = ns.id
    · simp_all
    · rw [if_neg here, if_neg (Ne.symm here)]
  · intro other apart
    rw [lookup_insert_apply, if_neg]
    rintro rfl
    exact apart own
  · simp only [share_found found, elim_some, activeCount_changeShared, activeCount_mk,
      length_cons]
    bv_omega
  · simp only [share_found found, Option.elim_some, deepCount, length_changeShared,
      countChildren_add_child]
    bv_omega

variable (next : NamespaceAlias)

theorem setRootAlias_found :
    ∃ after, cache.setAlias id next = some after ∧
      ChangedTo paths cache after id (some ⟨id, { back with namespaceAlias := next } :: older⟩)
        cache.rootNamespaceIdsByExpiryHeight := by
  refine setAlias_found found (namespaceOf_root placed.path found) rfl ?_ (fun _ => rfl) rfl rfl
    indexed
  exact if_pos (placed.versions back mem_cons_self).sameId

theorem setChildAlias_found (mem : child ∈ back.children) :
    ∃ after, cache.setAlias child.ns.id next = some after ∧
      ChangedTo paths cache after id (some ⟨id, changeSharedChildren
        (·.setAlias child.ns.id next) (back :: older)⟩) cache.rootNamespaceIdsByExpiryHeight := by
  have version := placed.versions back mem_cons_self
  have present := find_of_mem version.children.distinct mem
  have sameLength : ∀ children : Children,
      (children.setAlias child.ns.id next).length = children.length :=
    fun children => length_map _
  refine setAlias_found found (namespaceOf_child version.children placed.path found mem)
    (version.children.under child mem).1 ?_ (fun other => ?_) ?_ ?_ indexed
  · have notRoot : back.id ≠ child.ns.id := by
      rw [version.sameId]
      exact Ne.symm (version.children.id_ne placed.path mem)
    exact (if_neg notRoot).trans (if_pos (by rw [present]; rfl))
  · rw [activeNamespace_changeShared, activeNamespace_mk, find_setAlias]
  · rw [activeCount_changeShared, activeCount_mk, sameLength]
  · simp only [deepCount, length_changeShared, countChildren_of_length sameLength]

theorem removeChild_found (mem : child ∈ back.children) (allowed : back.canRemove child.ns.id) :
    ∃ former, cache.remove child.ns.id = some former ∧
      ChangedTo paths cache former id (some ⟨id, changeSharedChildren
        (·.erase child.ns.id) (back :: older)⟩) cache.rootNamespaceIdsByExpiryHeight := by
  have version := placed.versions back mem_cons_self
  have notRoot : child.ns.id ≠ id := version.children.id_ne placed.path mem
  have removed : (back.children.erase child.ns.id).length + 1 = back.children.length :=
    length_erase version.children.distinct (mem_map_of_mem mem)
  have deep : countChildren (changeSharedChildren
      (·.erase child.ns.id) (back :: older)) + _ = _ :=
    countChildren_remove_child placed.shared removed
  have done := NamespaceCache.remove.eq_1 cache child.ns.id
  rw [indexed.flat, namespaceOf_child version.children placed.path found mem] at done
  have root : child.ns.rootId = id := (version.children.under child mem).1
  have own := version.children.head? mem
  subst root
  simp only [Option.bind_eq_bind, Option.bind_some, Ne.symm notRoot, ↓reduceIte,
    NamespaceCache.removeChild, found, removeChild,
    RootNamespaceHistory.back, head?_cons, allowed, Option.pure_def,
    activeOwnerHistoryDepth_changeSharedChildren _ version.lived] at done
  refine ⟨_, done, rfl, rfl, indexed.restored _ (some ⟨_,
    changeSharedChildren (·.erase child.ns.id) (back :: older)⟩) rfl
    ?_ ?_ ?_ ?_⟩
  · intro other under
    rw [lookup_erase_apply, indexed.flat, namespaceOf_of_lookup under found,
      activeNamespace_mk, bind_some, activeNamespace_changeShared, find_erase]
    by_cases here : other = child.ns.id
    · simp_all
    · rw [if_neg here, if_neg here]
  · intro other apart
    rw [lookup_erase_apply, if_neg]
    rintro rfl
    exact apart own
  · simp only [share_found found, elim_some, activeCount_changeShared, activeCount_mk,
      ← removed]
    bv_omega
  · simp only [share_found found, Option.elim_some, deepCount, length_changeShared, ← deep]
    bv_omega

end Found

end Changes

end Caches

end BitxorCore.Namespaces
