/- GID: Namespace/LinkedNamespaceCache
   anchors: [plugins/txes/namespace]
   digest: Over every sequence of changes that end roots in order, the bookkeeping is exact. -/

import BitxorCore.Namespace.LinkedChildren
import BitxorCore.Namespace.NamespaceOperations

set_option autoImplicit false
set_option relaxedAutoImplicit false

namespace BitxorCore.Namespaces
open Cache Library.Bookkeeping Library.FiniteMap State List Option

/-- A change of a cache delta; a history is copied when a delta first finds it. -/
inductive CacheOperation where
  | insertRoot (root : RootNamespace)
  | insertChild (ns : Namespace)
  | setAlias (id : NamespaceId) (namespaceAlias : NamespaceAlias)
  | remove (id : NamespaceId)
  | prune (height : Height)
  | copy (id : NamespaceId)

/-- What an operation does to a cache in which every version has children of its own. -/
def NamespaceCache.change (cache : NamespaceCache) : CacheOperation → Option NamespaceCache
  | .insertRoot root => cache.insertRoot root
  | .insertChild ns => cache.insertChild ns
  | .setAlias id namespaceAlias => cache.setAlias id namespaceAlias
  | .remove id => cache.remove id
  | .prune height => some (cache.prune height)
  | .copy _ => some cache

abbrev LinkedHistoryMap := Map NamespaceId LinkedHistory

namespace LinkedHistoryMap

variable (histories : LinkedHistoryMap)

/-- Changes the history with an id; one that has no entries left is removed. -/
def changeAt (id : NamespaceId) (change : LinkedHistory → LinkedHistory) : LinkedHistoryMap :=
  match histories.lookup id with
  | none => histories
  | some history =>
    if (change history).entries.isEmpty then histories.erase id
    else histories.insert id (change history)

private theorem lookup_changeAt (id other : NamespaceId)
    (change : LinkedHistory → LinkedHistory) : (changeAt histories id change).lookup other =
      if other = id then (histories.lookup id).bind fun history =>
        if (change history).entries.isEmpty then none else some (change history)
      else histories.lookup other := by
  rw [changeAt]
  split
  · next absent =>
    split
    · next here => rw [here, absent, bind_none]
    · rfl
  · next history found =>
    rw [found, bind_some]
    split
    · exact lookup_erase_apply _ _ _
    · exact lookup_insert_apply _ _ _ _

private theorem lookup_foldl_changeAt (change : LinkedHistory → LinkedHistory)
    (ids : List NamespaceId) (distinct : ids.Nodup) (histories : LinkedHistoryMap)
    (other : NamespaceId) :
    (ids.foldl (fun histories id => changeAt histories id change) histories).lookup other =
      if other ∈ ids then (histories.lookup other).bind fun history =>
        if (change history).entries.isEmpty then none else some (change history)
      else histories.lookup other := by
  induction ids generalizing histories with
  | nil => rw [if_neg not_mem_nil, foldl_nil]
  | cons first rest ih =>
    obtain ⟨fresh, distinctRest⟩ := nodup_cons.mp distinct
    rw [foldl_cons, ih distinctRest, lookup_changeAt]
    by_cases here : other = first
    · subst here
      rw [if_neg fresh, if_pos rfl, if_pos mem_cons_self]
    · simp only [mem_cons, here, ↓reduceIte, false_or]

end LinkedHistoryMap

structure LinkedNamespaceCache where
  historyById : LinkedHistoryMap
  namespaceById : NamespaceByIdMap
  rootNamespaceIdsByExpiryHeight : GroupedSet Height NamespaceId
  sizes : NamespaceSizes

namespace LinkedNamespaceCache

def empty : LinkedNamespaceCache := ⟨∅, ∅, ∅, 0, 0⟩

variable (cache : LinkedNamespaceCache)

def view : NamespaceCache where
  historyById := mapValues LinkedHistory.view cache.historyById
  namespaceById := cache.namespaceById
  rootNamespaceIdsByExpiryHeight := cache.rootNamespaceIdsByExpiryHeight
  sizes := cache.sizes

def changeHistories : CacheOperation → LinkedHistoryMap
  | .insertRoot root =>
    let history := (cache.historyById.lookup root.id).getD (.create root.id)
    cache.historyById.insert root.id (history.pushBack root.ownerAddress root.lifetime)
  | .insertChild ns =>
    cache.historyById.changeAt ns.rootId (·.changeBack (⟨ns, .none⟩ :: ·))
  | .setAlias id namespaceAlias =>
    match cache.namespaceById.lookup id with
    | none => cache.historyById
    | some ns => cache.historyById.changeAt ns.rootId (·.setAlias id namespaceAlias)
  | .remove id =>
    match cache.namespaceById.lookup id with
    | none => cache.historyById
    | some ns =>
      if ns.rootId = id then cache.historyById.changeAt id LinkedHistory.popBack
      else cache.historyById.changeAt ns.rootId (·.changeBack (·.erase id))
  | .prune height =>
    (cache.rootNamespaceIdsByExpiryHeight.identifiers height).foldl
      (fun histories id => histories.changeAt id (·.prune height)) cache.historyById
  | .copy id => cache.historyById.changeAt id LinkedHistory.copy

/-- The flat map, the groups and the sizes change with what is read through the pointers. An
operation that throws changes nothing. -/
def apply (op : CacheOperation) : LinkedNamespaceCache :=
  match cache.view.change op with
  | none => cache
  | some next =>
    ⟨cache.changeHistories op, next.namespaceById, next.rootNamespaceIdsByExpiryHeight, next.sizes⟩

/-- Roots and children are inserted with the one path of their id, and a root that is inserted
anew ends no earlier than its newest version. -/
def Admits (paths : Paths) (cache : LinkedNamespaceCache) : CacheOperation → Prop
  | .insertRoot root =>
    paths root.id = [root.id] ∧ root.lifetime.start < root.lifetime.endHeight ∧
      ∀ history ∈ cache.historyById.lookup root.id, ∀ newest ∈ history.entries.head?,
        newest.lifetime.endHeight ≤ root.lifetime.endHeight
  | .insertChild ns => ns.path = paths ns.id ∧ 2 ≤ ns.path.length
  | _ => True

/-- A sequence of operations, each of them admitted where it is applied. -/
def AdmitsAll (paths : Paths) : LinkedNamespaceCache → List CacheOperation → Prop
  | _, [] => True
  | cache, op :: rest =>
    cache.Admits paths op ∧ AdmitsAll paths (cache.apply op) rest

/-- The flat map holds roots and the children of newest versions, the sizes are those of the
histories, and pointers are shared where versions extend one another. -/
structure Exact (cache : LinkedNamespaceCache) : Prop where
  flat (id : NamespaceId) (ns : Namespace) : cache.namespaceById.lookup id = some ns ↔
    (id ∈ cache.historyById ∧ ns = .ofRoot id) ∨
      ∃ rootId, ∃ history ∈ cache.historyById.lookup rootId, ∃ newest ∈ history.view.back,
        ∃ child ∈ newest.children, child.ns = ns ∧ ns.id = id
  active : cache.sizes.active =
    BitVec.ofNat 64 (total (fun history => history.view.activeCount) cache.historyById)
  deep : cache.sizes.deep =
    BitVec.ofNat 64 (total (fun history => history.view.deepCount) cache.historyById)
  shared : ∀ id, ∀ history ∈ cache.historyById.lookup id, history.ExactlyShared

structure Kept (paths : Paths) (cache : LinkedNamespaceCache) : Prop where
  placed : AllPlaced paths cache.view.historyById
  indexed : cache.view.Indexed paths
  linked : ∀ id, ∀ history ∈ cache.historyById.lookup id, history.Linked

section Steps
variable {paths : Paths} {cache : LinkedNamespaceCache} {id : NamespaceId}

private theorem lookup_view (cache : LinkedNamespaceCache) (id : NamespaceId) :
    cache.view.historyById.lookup id = (cache.historyById.lookup id).map LinkedHistory.view :=
  lookup_mapValues _ _ _

private theorem kept_empty (paths : Paths) : empty.Kept paths where
  placed id history found := by cases found
  indexed := by
    refine ⟨fun id => ?_, rfl, rfl⟩
    cases root : (paths id).head? with
    | none => simp [namespaceOf, root, empty, view]
    | some rootId => rw [namespaceOf_of_absent root rfl]; rfl
  linked id history found := by cases found

variable {next : NamespaceCache} {histories : LinkedHistoryMap}

private theorem kept_mk
    (same : ∀ id, next.historyById.lookup id = (histories.lookup id).map LinkedHistory.view)
    (placed : AllPlaced paths next.historyById) (indexed : next.Indexed paths)
    (linked : ∀ id, ∀ history ∈ histories.lookup id, history.Linked) :
    Kept paths ⟨histories, next.namespaceById, next.rootNamespaceIdsByExpiryHeight,
      next.sizes⟩ := by
  have viewed : view ⟨histories, next.namespaceById, next.rootNamespaceIdsByExpiryHeight,
      next.sizes⟩ = next := by
    have sameHistories : mapValues LinkedHistory.view histories = next.historyById :=
      Finmap.ext_lookup fun id => (lookup_mapValues _ _ _).trans (same id).symm
    rw [view, sameHistories]
  exact ⟨viewed ▸ placed, viewed ▸ indexed, linked⟩

variable {op : CacheOperation} {groups : GroupedSet Height NamespaceId}

private theorem Kept.changed (kept : cache.Kept paths) {old : Option LinkedHistory}
    (done : cache.view.change op = some next)
    (changed : ChangedTo paths cache.view next id (old.map LinkedHistory.view) groups)
    (histories : ∀ other, (cache.changeHistories op).lookup other =
      if other = id then old else cache.historyById.lookup other)
    (placed : ∀ history ∈ old, HistoryPlaced paths id history.view)
    (linked : ∀ history ∈ old, history.Linked) : (cache.apply op).Kept paths := by
  rw [apply, done]
  refine kept_mk (fun other => ?_) (fun other history found => ?_) changed.indexed
    fun other history found => ?_
  · rw [changed.histories, lookup_restore, histories, lookup_view]
    split <;> rfl
  · rw [changed.histories, lookup_restore] at found
    split at found
    · next here =>
      obtain ⟨former, known, rfl⟩ := map_eq_some_iff.mp found
      exact here ▸ placed former known
    · exact kept.placed other history found
  · rw [histories] at found
    split at found
    · exact linked history found
    · exact kept.linked other history found

private theorem Kept.throws (kept : cache.Kept paths)
    (throws : cache.view.change op = none) : (cache.apply op).Kept paths := by
  rwa [apply, throws]

variable {history : LinkedHistory}

private theorem Kept.exists_back (kept : cache.Kept paths)
    (found : cache.historyById.lookup id = some history) :
    ∃ back older, history.view = ⟨id, back :: older⟩ ∧
      cache.view.historyById.lookup id = some ⟨id, back :: older⟩ ∧
      HistoryPlaced paths id ⟨id, back :: older⟩ := by
  have known : cache.view.historyById.lookup id = some history.view := by
    rw [lookup_view, found, map_some]
  have placed := kept.placed id history.view known
  obtain ⟨back, older, roots, _⟩ := placed.exists_back
  have same : history.view = ⟨id, back :: older⟩ := by
    rw [← roots, ← placed.sameId]
  exact ⟨back, older, same, same ▸ known, same ▸ placed⟩

variable {older : List RootNamespace} {back : RootNamespace}

private theorem lookup_changeAt_of_found
    {change : LinkedHistory → LinkedHistory} (found : histories.lookup id = some history)
    (same : (change history).view = ⟨id, back :: older⟩) (other : NamespaceId) :
    (histories.changeAt id change).lookup other =
      if other = id then some (change history) else histories.lookup other := by
  obtain ⟨entry, rest, entries, _⟩ := LinkedHistory.exists_entry same
  rw [LinkedHistoryMap.lookup_changeAt, found, bind_some, entries, isEmpty_cons,
    if_neg Bool.false_ne_true]

section
variable (kept : cache.Kept paths)
include kept

private theorem Kept.insertRoot {root : RootNamespace}
    (admitted : cache.Admits paths (.insertRoot root)) :
    (cache.apply (.insertRoot root)).Kept paths := by
  obtain ⟨path, lived, ordered⟩ := admitted
  have histories (other) : (cache.changeHistories (.insertRoot root)).lookup other = _ :=
    lookup_insert_apply _ _ _ _
  cases found : cache.historyById.lookup root.id with
  | none =>
    have absent : cache.view.historyById.lookup root.id = none := by
      rw [lookup_view, found, map_none]
    obtain ⟨next, done, changed⟩ := insertRoot_absent path absent kept.indexed
    rw [found, getD_none] at histories
    refine kept.changed done changed histories ?_ ?_
    · rintro _ ⟨⟩
      exact .only path ⟨rfl, lived, .nil⟩
    · rintro _ ⟨⟩
      exact (LinkedHistory.linked_create root.id).pushBack _ _
  | some history =>
    obtain ⟨back, older, same, known, placed⟩ := kept.exists_back found
    have linked := kept.linked root.id history found
    obtain ⟨next, done, changed⟩ := insertRoot_found known placed kept.indexed
    have pushed := linked.view_pushBack root.ownerAddress root.lifetime
    rw [same] at pushed
    rw [← pushed] at changed
    rw [found, getD_some] at histories
    refine kept.changed done changed histories ?_ ?_
    · rintro _ ⟨⟩
      obtain ⟨entry, rest, entries, rfl, _⟩ := LinkedHistory.exists_entry same
      rw [pushed]
      exact placed.pushBack lived (ordered history found entry (by rw [entries]; rfl))
    · rintro _ ⟨⟩
      exact linked.pushBack _ _

private theorem Kept.changedBack
    {change : Children → Children} {act : LinkedHistory → LinkedHistory}
    (done : cache.view.change op = some next)
    (changed : ChangedTo paths cache.view next id (some ⟨id,
      RootNamespaceHistory.changeSharedChildren change (back :: older)⟩) groups)
    (found : cache.historyById.lookup id = some history) (same : history.view = ⟨id, back :: older⟩)
    (histories : cache.changeHistories op = cache.historyById.changeAt id act)
    (acts : act history = history.changeBack change)
    (inPlace : Placed paths id (change back.children)) : (cache.apply op).Kept paths := by
  have linked := kept.linked id history found
  have viewed : (act history).view = ⟨id,
      RootNamespaceHistory.changeSharedChildren change (back :: older)⟩ := by
    rw [acts, linked.view_changeBack, same, (RootNamespaceHistory.mk.inj same).1]
  have placed := kept.placed id history.view (by rw [lookup_view, found, map_some])
  rw [same] at placed
  rw [← viewed] at changed
  refine kept.changed done changed
    (fun other => by rw [histories, lookup_changeAt_of_found found viewed]) ?_ ?_
  · rintro _ ⟨⟩
    rw [viewed]
    exact placed.changeShared inPlace
  · rintro _ ⟨⟩
    rw [acts]
    exact linked.changeBack _

private theorem Kept.insertChild {ns : Namespace} (admitted : cache.Admits paths (.insertChild ns)) :
    (cache.apply (.insertChild ns)).Kept paths := by
  obtain ⟨named, long⟩ := admitted
  cases found : cache.historyById.lookup ns.rootId with
  | none =>
    have throws : cache.view.change (.insertChild ns) = none := by
      rw [NamespaceCache.change, NamespaceCache.insertChild, lookup_view, found]
      rfl
    exact kept.throws throws
  | some history =>
    obtain ⟨back, older, same, known, placed⟩ := kept.exists_back found
    by_cases allowed : back.canAdd ns
    · have version := placed.versions back mem_cons_self
      have fresh : ns.id ∉ back.children.ids := by
        rw [← Children.find_eq_none]
        simp only [RootNamespace.canAdd, Bool.and_eq_true, isNone_iff_eq_none] at allowed
        exact allowed.1.1
      have added : Placed paths ns.rootId (⟨ns, .none⟩ :: back.children) :=
        ⟨nodup_cons.mpr ⟨fresh, version.children.distinct⟩,
          forall_mem_cons.mpr ⟨named, version.children.named⟩,
          forall_mem_cons.mpr ⟨⟨rfl, long⟩, version.children.under⟩⟩
      obtain ⟨next, done, changed⟩ := insertChild_found known placed kept.indexed allowed added
      exact kept.changedBack done changed found same rfl rfl added
    · have throws : cache.view.change (.insertChild ns) = none := by
        rw [NamespaceCache.change, NamespaceCache.insertChild, known]
        simp [RootNamespaceHistory.addChild, RootNamespaceHistory.back, allowed]
      exact kept.throws throws

private theorem Kept.found_cases {ns : Namespace}
    (active : cache.namespaceById.lookup id = some ns) :
    ∃ history back older, cache.historyById.lookup ns.rootId = some history ∧
      history.view = ⟨ns.rootId, back :: older⟩ ∧
      cache.view.historyById.lookup ns.rootId = some ⟨ns.rootId, back :: older⟩ ∧
      HistoryPlaced paths ns.rootId ⟨ns.rootId, back :: older⟩ ∧
      (id = ns.rootId ∧ ns = .ofRoot id ∨ ns.rootId ≠ id ∧
        ∃ child ∈ back.children, child.ns = ns ∧ ns.id = id) := by
  have shown : namespaceOf paths cache.view.historyById id = some ns :=
    (kept.indexed.flat id).symm.trans active
  obtain ⟨_, sameId, _, newest, others, read, roots, place⟩ := kept.placed.namespaceOf_eq_some shown
  rw [lookup_view] at read
  obtain ⟨history, found, rfl⟩ := map_eq_some_iff.mp read
  obtain ⟨back, older, same, known, placed⟩ := kept.exists_back found
  have sameBack : newest = back := by simp_all
  refine ⟨history, back, older, found, same, known, placed, place.imp_right ?_⟩
  rintro ⟨child, mem, rfl, _⟩
  rw [sameBack] at mem
  have version := placed.versions back mem_cons_self
  exact ⟨fun atRoot => version.children.id_ne placed.path mem (sameId.trans atRoot.symm),
    child, mem, rfl, sameId⟩

private theorem Kept.setAlias (id : NamespaceId)
    (namespaceAlias : NamespaceAlias) : (cache.apply (.setAlias id namespaceAlias)).Kept paths := by
  cases active : cache.namespaceById.lookup id with
  | none =>
    have throws : cache.view.change (.setAlias id namespaceAlias) = none := by
      rw [NamespaceCache.change, NamespaceCache.setAlias, view, active]
      rfl
    exact kept.throws throws
  | some ns =>
    have histories : cache.changeHistories (.setAlias id namespaceAlias) =
        cache.historyById.changeAt ns.rootId (·.setAlias id namespaceAlias) := by
      rw [changeHistories, active]
    obtain ⟨history, back, older, found, same, known, placed, place⟩ := kept.found_cases active
    obtain ⟨entry, rest, entries, rfl, sameRest⟩ := LinkedHistory.exists_entry same
    have version := placed.versions _ mem_cons_self
    rcases place with ⟨atRoot, _⟩ | ⟨apart, child, mem, rfl, rfl⟩
    · have sameId : entry.id = id := version.sameId.trans atRoot.symm
      rw [← atRoot] at known placed found same histories
      obtain ⟨next, done, changed⟩ := setRootAlias_found known placed kept.indexed namespaceAlias
      have viewed : (history.setAlias id namespaceAlias).view =
          ⟨id, { entry.resolve history.heap with namespaceAlias } :: older⟩ := by
        rw [← sameRest, LinkedHistory.setAlias, entries]
        dsimp only
        rw [if_pos sameId, ← (RootNamespaceHistory.mk.inj same).1]
        rfl
      rw [← viewed] at changed
      refine kept.changed done changed
        (fun other => by rw [histories, lookup_changeAt_of_found found viewed]) ?_ ?_
      · rintro _ ⟨⟩
        rw [viewed]
        exact placed.setRootAlias _
      · rintro _ ⟨⟩
        exact (kept.linked id history found).setAlias _ _
    · obtain ⟨next, done, changed⟩ :=
        setChildAlias_found known placed kept.indexed namespaceAlias mem
      refine kept.changedBack done changed found same histories ?_ (version.children.setAlias _ _)
      rw [LinkedHistory.setAlias, entries]
      exact if_neg (version.sameId.trans_ne apart)

private theorem Kept.removeRoot
    (found : cache.historyById.lookup id = some history) (same : history.view = ⟨id, back :: older⟩)
    (known : cache.view.historyById.lookup id = some ⟨id, back :: older⟩)
    (placed : HistoryPlaced paths id ⟨id, back :: older⟩)
    (histories : cache.changeHistories (.remove id) =
      cache.historyById.changeAt id LinkedHistory.popBack) :
    (cache.apply (.remove id)).Kept paths := by
  have viewed : history.popBack.view = ⟨id, older⟩ := by
    rw [LinkedHistory.view_popBack, same, (RootNamespaceHistory.mk.inj same).1]
    rfl
  cases older with
  | nil =>
    by_cases childless : back.children = []
    · obtain ⟨former, done, changed⟩ := removeRoot_only placed.path known childless kept.indexed
      have gone : ChangedTo paths cache.view former id (none.map LinkedHistory.view) _ := changed
      refine kept.changed done gone (fun other => ?_) ?_ ?_
      · have none_left : history.popBack.entries = [] :=
          map_eq_nil_iff.mp (RootNamespaceHistory.mk.inj viewed).2
        rw [histories, LinkedHistoryMap.lookup_changeAt, found, bind_some, none_left,
          isEmpty_nil, if_pos rfl]
      · rintro _ ⟨⟩
      · rintro _ ⟨⟩
    · have throws : cache.view.change (.remove id) = none := by
        rw [NamespaceCache.change, remove_root placed.path known kept.indexed,
          NamespaceCache.removeRoot, known]
        simp [childless]
      exact kept.throws throws
  | cons prev rest =>
    obtain ⟨former, done, changed⟩ := removeRoot_newest known placed kept.indexed
    rw [← viewed] at changed
    refine kept.changed done changed
      (fun other => by rw [histories, lookup_changeAt_of_found found viewed]) ?_ ?_
    · rintro _ ⟨⟩
      rw [viewed]
      exact placed.pop
    · rintro _ ⟨⟩
      exact (kept.linked id history found).popBack

private theorem Kept.remove (id : NamespaceId) : (cache.apply (.remove id)).Kept paths := by
  cases active : cache.namespaceById.lookup id with
  | none =>
    have throws : cache.view.change (.remove id) = none := by
      rw [NamespaceCache.change, NamespaceCache.remove, view, active]
      rfl
    exact kept.throws throws
  | some ns =>
    have histories : cache.changeHistories (.remove id) =
        if ns.rootId = id then cache.historyById.changeAt id LinkedHistory.popBack
        else cache.historyById.changeAt ns.rootId (·.changeBack (·.erase id)) := by
      rw [changeHistories, active]
    obtain ⟨history, back, older, found, same, known, placed, place⟩ := kept.found_cases active
    rcases place with ⟨atRoot, _⟩ | ⟨apart, child, mem, rfl, rfl⟩
    · rw [← atRoot] at known placed found same
      rw [if_pos atRoot.symm] at histories
      exact kept.removeRoot found same known placed histories
    · rw [if_neg apart] at histories
      have version := placed.versions back mem_cons_self
      by_cases allowed : back.canRemove child.ns.id
      · obtain ⟨former, done, changed⟩ := removeChild_found known placed kept.indexed mem allowed
        exact kept.changedBack done changed found same histories rfl (version.children.erase _)
      · have throws : cache.view.change (.remove child.ns.id) = none := by
          rw [NamespaceCache.change, NamespaceCache.remove, view, active]
          simp only [bind_eq_bind, bind_some, apart, ↓reduceIte]
          change cache.view.removeChild child.ns = none
          rw [NamespaceCache.removeChild, known]
          simp [RootNamespaceHistory.removeChild, RootNamespaceHistory.back, allowed]
        exact kept.throws throws

end

private theorem view_pruned (height : Height) (history : LinkedHistory) :
    (if (history.prune height).entries.isEmpty then none
      else some (history.prune height)).map LinkedHistory.view =
        pruned height (some history.view) := by
  have sameEmpty : (history.view.prune height).1.roots.isEmpty =
      (history.prune height).entries.isEmpty := by
    rw [← LinkedHistory.view_prune]
    exact isEmpty_map
  rw [pruned, bind_some, sameEmpty, ← LinkedHistory.view_prune]
  split <;> rfl

section
variable (kept : cache.Kept paths)
include kept

private theorem Kept.prune (height : Height) : (cache.apply (.prune height)).Kept paths := by
  have distinct := GroupedSet.nodup_identifiers cache.rootNamespaceIdsByExpiryHeight height
  obtain ⟨prunes, _, indexed⟩ := prune_spec kept.placed kept.indexed
  have histories := LinkedHistoryMap.lookup_foldl_changeAt (·.prune height) _ distinct
    cache.historyById
  refine kept_mk (fun id => ?_) (kept.placed.prunedAt prunes) indexed fun id history found => ?_
  · rw [changeHistories, histories, prunes.lookup id, lookup_view]
    change (if id ∈ cache.rootNamespaceIdsByExpiryHeight.identifiers height then _ else _) = _
    split
    · cases cache.historyById.lookup id with
      | none => rfl
      | some history => exact (view_pruned height history).symm
    · rfl
  · rw [changeHistories, mem_def, histories] at found
    split at found
    · obtain ⟨former, known, left⟩ := bind_eq_some_iff.mp found
      have read : cache.view.historyById.lookup id = some former.view := by
        rw [lookup_view, known, map_some]
      obtain rfl : former.prune height = history := by
        split at left
        · cases left
        · exact some.inj left
      exact (kept.linked id former known).prune (kept.placed id _ read).descend height
    · exact kept.linked id history found

private theorem Kept.copy (id : NamespaceId) : (cache.apply (.copy id)).Kept paths := by
  cases found : cache.historyById.lookup id with
  | none =>
    have unchanged : cache.apply (.copy id) = cache := by
      have histories : cache.changeHistories (.copy id) = cache.historyById := by
        rw [changeHistories, LinkedHistoryMap.changeAt, found]
      simp only [apply, NamespaceCache.change, histories, view]
    rw [unchanged]
    exact kept
  | some history =>
    obtain ⟨back, older, same, known, placed⟩ := kept.exists_back found
    obtain ⟨linked, viewed⟩ := (kept.linked id history found).copy
    have histories := lookup_changeAt_of_found found (viewed.trans same)
    refine kept_mk (fun other => ?_) kept.placed kept.indexed fun other former present => ?_
    · rw [changeHistories, histories, lookup_view]
      split
      · next here => rw [here, found, map_some, map_some, viewed]
      · rfl
    · rw [changeHistories, mem_def, histories] at present
      split at present
      · cases present
        exact linked
      · exact kept.linked other former present

private theorem Kept.apply (admitted : cache.Admits paths op) : (cache.apply op).Kept paths := by
  cases op with
  | insertRoot root => exact kept.insertRoot admitted
  | insertChild ns => exact kept.insertChild admitted
  | setAlias id namespaceAlias => exact kept.setAlias id namespaceAlias
  | remove id => exact kept.remove id
  | prune height => exact kept.prune height
  | copy id => exact kept.copy id

private theorem Kept.foldl_apply {ops : List CacheOperation} (admitted : cache.AdmitsAll paths ops) :
    (ops.foldl LinkedNamespaceCache.apply cache).Kept paths := by
  induction ops generalizing cache with
  | nil => exact kept
  | cons op rest ih => exact ih (kept.apply admitted.1) admitted.2

end

private theorem total_view (f : RootNamespaceHistory → Nat) (cache : LinkedNamespaceCache) :
    total f cache.view.historyById = total (fun history => f history.view) cache.historyById := by
  refine total_congr fun id => ?_
  rw [share, share, lookup_view]
  cases cache.historyById.lookup id <;> rfl

private theorem Kept.exact (kept : cache.Kept paths) : cache.Exact where
  flat id ns := by
    constructor
    · intro active
      obtain ⟨history, back, older, found, same, known, placed, place⟩ := kept.found_cases active
      rcases place with ⟨atRoot, isRoot⟩ | ⟨_, child, mem, isChild, sameId⟩
      · exact .inl ⟨Finmap.mem_iff.mpr ⟨history, atRoot ▸ found⟩, isRoot⟩
      · exact .inr ⟨ns.rootId, history, found, back, by rw [same]; rfl, child, mem, isChild, sameId⟩
    · have flat := kept.indexed.flat id
      rintro (⟨mem, rfl⟩ | ⟨rootId, history, found, newest, isNewest, child, mem, rfl, rfl⟩)
      · obtain ⟨history, found⟩ := Finmap.mem_iff.mp mem
        obtain ⟨back, older, same, known, placed⟩ := kept.exists_back found
        exact flat.trans (namespaceOf_root placed.path known)
      · obtain ⟨back, older, same, known, placed⟩ := kept.exists_back found
        obtain rfl : back = newest := by
          rw [same] at isNewest
          exact some.inj isNewest
        have version := placed.versions back mem_cons_self
        exact flat.trans (namespaceOf_child version.children placed.path known mem)
  active := by
    rw [← total_view]
    exact kept.indexed.active
  deep := by
    rw [← total_view]
    exact kept.indexed.deep
  shared id history found := (kept.linked id history found).exactlyShared

end Steps

/-- However roots and children are inserted and removed, aliases set and histories pruned: while
roots end in the order in which they are inserted, the bookkeeping is exact. -/
theorem exact_of_admitsAll (paths : Paths) (ops : List CacheOperation)
    (admitted : empty.AdmitsAll paths ops) : (ops.foldl apply empty).Exact :=
  ((kept_empty paths).foldl_apply admitted).exact

private def rootAndChild (id : NamespaceId) : List NamespaceId :=
  if id = 7 then [7] else if id = 8 then [7, 8] else []

private def rootFor (start endHeight : Height) : CacheOperation :=
  .insertRoot (.create 7 0 ⟨start, endHeight⟩)

private def childOfRoot : CacheOperation := .insertChild ⟨[7, 8], cons_ne_nil _ _⟩

theorem exact_of_renewals :
    ([rootFor 1 100, childOfRoot, rootFor 50 200, .remove 7, .setAlias 8 (.token 5),
      rootFor 60 150, .prune 100, .remove 8].foldl apply empty).Exact := by
  refine exact_of_admitsAll rootAndChild _ ⟨⟨rfl, by decide, ?_⟩, ⟨rfl, by decide⟩,
    ⟨rfl, by decide, ?_⟩, trivial, trivial, ⟨rfl, by decide, ?_⟩, trivial, trivial, trivial⟩
  · rintro _ ⟨⟩
  · rintro _ ⟨⟩ _ ⟨⟩
    decide
  · rintro _ ⟨⟩ _ ⟨⟩
    decide

/-- A renewal that ends before the version it renews is pruned first, and takes the children that
it shares with it out of the flat map. -/
theorem not_exact_of_earlier_end :
    ¬([rootFor 1 100, childOfRoot, rootFor 50 60, .prune 60].foldl apply empty).Exact := by
  intro exact
  have missing : ([rootFor 1 100, childOfRoot, rootFor 50 60,
    .prune 60].foldl apply empty).namespaceById.lookup 8 = none := by decide
  have present := (exact.flat 8 ⟨[7, 8], cons_ne_nil _ _⟩).mpr
    (.inr ⟨7, _, rfl, _, rfl, _, mem_cons_self, rfl, rfl⟩)
  rw [missing] at present
  cases present

end LinkedNamespaceCache

end BitxorCore.Namespaces
