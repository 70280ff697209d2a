/- GID: Namespace/NamespaceOperations
   anchors: [plugins/txes/namespace]
   digest: Each change of the cache evolves one history, and is taken back exactly on it. -/

import BitxorCore.Namespace.NamespaceBookkeeping

set_option autoImplicit false
set_option relaxedAutoImplicit false

namespace BitxorCore.Namespaces
open Cache Library.Bookkeeping Library.FiniteMap Library.PartialAction State List
open NamespaceCache (historySizes pruneHistory)

inductive NamespaceOperation where
  | addRoot (id : NamespaceId) (owner : Address) (lifetime : NamespaceLifetime)
  | addChild (ns : Namespace)
  | setAlias (id : NamespaceId) (prev next : NamespaceAlias)

namespace NamespaceOperation

def perform : NamespaceOperation → Action NamespaceCache
  | .addRoot id owner lifetime => fun cache => cache.insertRoot (.create id owner lifetime)
  | .addChild ns => fun cache => cache.insertChild ns
  | .setAlias id _ next => fun cache => cache.setAlias id next

def revert : NamespaceOperation → Action NamespaceCache
  | .addRoot id _ _ => fun cache => cache.remove id
  | .addChild ns => fun cache => cache.remove ns.id
  | .setAlias id prev _ => fun cache => cache.setAlias id prev

variable (groups : GroupedSet Height NamespaceId)

def addToGroups :
    NamespaceOperation → GroupedSet Height NamespaceId
  | .addRoot id _ lifetime => addIdentifierWithGroup groups lifetime.endHeight id
  | _ => groups

def removeFromGroups :
    NamespaceOperation → GroupedSet Height NamespaceId
  | .addRoot id _ lifetime => removeIdentifierWithGroup groups lifetime.endHeight id
  | _ => groups

end NamespaceOperation

open RootNamespaceHistory

/-- How an operation at a height evolves the history of a root, if there is one. -/
inductive Evolves (cfg : NamespaceConfiguration) (paths : Paths) (height : Height)
    (id : NamespaceId) : NamespaceOperation → Option RootNamespaceHistory →
      RootNamespaceHistory → Prop
  | register {owner : Address} {lifetime : NamespaceLifetime} (path : paths id = [id])
      (starts : lifetime.start ≤ height) (ends : height < lifetime.endHeight) :
      Evolves cfg paths height id (.addRoot id owner lifetime) none
        ⟨id, [.create id owner lifetime]⟩
  | renew {lifetime : NamespaceLifetime} {back : RootNamespace} {older : List RootNamespace}
      (active : height < back.lifetime.endHeight)
      (starts : lifetime.start = back.lifetime.start)
      (ends : back.lifetime.endHeight ≤ lifetime.endHeight) :
      Evolves cfg paths height id (.addRoot id back.ownerAddress lifetime)
        (some ⟨id, back :: older⟩) ⟨id, { back with lifetime } :: back :: older⟩
  | takeOver {owner : Address} {lifetime : NamespaceLifetime} {back : RootNamespace}
      {older : List RootNamespace} (expired : back.lifetime.endHeight ≤ height)
      (starts : lifetime.start = height) (ends : height < lifetime.endHeight) :
      Evolves cfg paths height id (.addRoot id owner lifetime) (some ⟨id, back :: older⟩)
        ⟨id, .create id owner lifetime :: back :: older⟩
  | addChild {ns : Namespace} {back : RootNamespace} {older : List RootNamespace}
      (active : height < back.lifetime.endHeight) (allowed : back.canAdd ns)
      (added : ChildrenOk cfg paths id (⟨ns, .none⟩ :: back.children)) :
      Evolves cfg paths height id (.addChild ns) (some ⟨id, back :: older⟩)
        ⟨id, changeSharedChildren (⟨ns, .none⟩ :: ·) (back :: older)⟩
  | setRootAlias {next : NamespaceAlias} {back : RootNamespace} {older : List RootNamespace}
      (active : height < back.lifetime.endHeight) :
      Evolves cfg paths height id (.setAlias id back.namespaceAlias next)
        (some ⟨id, back :: older⟩) ⟨id, { back with namespaceAlias := next } :: older⟩
  | setChildAlias {next : NamespaceAlias} {child : NamespaceData} {back : RootNamespace}
      {older : List RootNamespace} (active : height < back.lifetime.endHeight)
      (mem : child ∈ back.children) :
      Evolves cfg paths height id (.setAlias child.ns.id child.namespaceAlias next)
        (some ⟨id, back :: older⟩) ⟨id, changeSharedChildren
          (·.setAlias child.ns.id next) (back :: older)⟩

section Evolution
variable {cfg : NamespaceConfiguration} {paths : Paths} {height : Height} {id : NamespaceId}
  {op : NamespaceOperation} {old : Option RootNamespaceHistory} {new : RootNamespaceHistory}

private theorem ChildrenOk.setAlias {children : Children} (ok : ChildrenOk cfg paths id children)
    (childId : NamespaceId) (namespaceAlias : NamespaceAlias) :
    ChildrenOk cfg paths id (children.setAlias childId namespaceAlias) where
  toPlaced := ok.toPlaced.setAlias childId namespaceAlias
  closed child mem := by
    obtain ⟨former, known, same⟩ := Children.mem_setAlias mem
    rw [same, Children.ids_setAlias]
    exact ok.closed former known
  bounded := by
    rw [Children.setAlias, length_map]
    exact ok.bounded
  shallow limited child mem := by
    obtain ⟨former, known, same⟩ := Children.mem_setAlias mem
    rw [same]
    exact ok.shallow limited former known

variable {back : RootNamespace} {older : List RootNamespace}

private theorem HistoryOk.changeShared
    (ok : HistoryOk cfg paths id ⟨id, back :: older⟩) {change : Children → Children}
    (changed : ChildrenOk cfg paths id (change back.children)) :
    HistoryOk cfg paths id
      ⟨id, changeSharedChildren change (back :: older)⟩ := by
  have newest : ∀ root, (back :: older).head? = some root → root.children = back.children := by
    simp
  exact ⟨ok.toHistoryPlaced.changeShared changed.toPlaced, forall_changeSharedChildren ok.shared
    newest ok.children fun root _ same => same ▸ changed⟩

variable {root : RootNamespace}

private theorem HistoryOk.push
    (ok : HistoryOk cfg paths id ⟨id, back :: older⟩) (sameId : root.id = id)
    (lived : root.lifetime.start < root.lifetime.endHeight)
    (children : ChildrenOk cfg paths id root.children)
    (shared : root.canExtend back → root.children = back.children)
    (ends : back.lifetime.endHeight ≤ root.lifetime.endHeight) :
    HistoryOk cfg paths id ⟨id, root :: back :: older⟩ where
  toHistoryPlaced := ok.toHistoryPlaced.push ⟨sameId, lived, children.toPlaced⟩ shared ends
  children := forall_mem_cons.mpr ⟨children, ok.children⟩

private theorem not_canExtend_of_expired
    (expired : back.lifetime.endHeight ≤ root.lifetime.start) : ¬ root.canExtend back := by
  simp [RootNamespace.canExtend, NamespaceLifetime.isActive, BitVec.not_lt.mpr expired]

theorem Evolves.historyOk (evolves : Evolves cfg paths height id op old new)
    (ok : ∀ history, old = some history → HistoryOk cfg paths id history) :
    HistoryOk cfg paths id new := by
  cases evolves with
  | register path starts ends =>
    exact ⟨.only path ⟨rfl, Nat.lt_of_le_of_lt starts ends, .nil⟩, forall_mem_singleton.mpr .nil⟩
  | @renew lifetime back older active starts ends =>
    have before := ok _ rfl
    have version := before.versions back mem_cons_self
    refine before.push version.sameId ?_ (before.children back mem_cons_self) (fun _ => rfl) ends
    rw [starts]
    exact Nat.lt_of_lt_of_le version.lived ends
  | @takeOver owner lifetime back older expired starts ends =>
    refine (ok _ rfl).push rfl ?_ .nil (fun continues => ?_)
      (BitVec.le_of_lt (Nat.lt_of_le_of_lt expired ends))
    · rw [RootNamespace.create, starts]
      exact ends
    · exact absurd continues (not_canExtend_of_expired (by simpa [RootNamespace.create, starts]))
  | addChild active allowed added => exact (ok _ rfl).changeShared added
  | @setRootAlias next back older active =>
    have before := ok _ rfl
    refine ⟨before.toHistoryPlaced.setRootAlias next, forall_mem_cons.mpr ⟨?_, ?_⟩⟩
    · exact before.children back mem_cons_self
    · exact fun root later => before.children root (mem_cons_of_mem _ later)
  | @setChildAlias next child back older active mem =>
    have before := ok _ rfl
    exact before.changeShared ((before.children back mem_cons_self).setAlias child.ns.id next)

variable {cache : NamespaceCache} {lifetime : NamespaceLifetime}

private theorem pushBack_renewal
    (version : VersionPlaced paths id back) (starts : lifetime.start = back.lifetime.start) :
    (mk id (back :: older)).pushBack back.ownerAddress lifetime =
      ⟨id, { back with lifetime } :: back :: older⟩ := by
  have continues : (RootNamespace.create id back.ownerAddress lifetime).canExtend back := by
    simp [RootNamespace.canExtend, NamespaceLifetime.isActive, RootNamespace.create,
      version.sameId, starts, version.lived]
  rw [pushBack_extends continues]
  simp only [← version.sameId]

theorem Evolves.perform (evolves : Evolves cfg paths height id op (cache.historyById.lookup id) new)
    (ok : WellFormed cfg paths cache.historyById) (indexed : cache.Indexed paths) :
    ∃ next, op.perform cache = some next ∧ ChangedTo paths cache next id (some new)
      (op.addToGroups cache.rootNamespaceIdsByExpiryHeight) := by
  generalize found : cache.historyById.lookup id = old at evolves
  cases evolves with
  | register path starts ends => exact insertRoot_absent path found indexed
  | @renew lifetime back older active starts ends =>
    have before := ok _ _ found
    rw [← pushBack_renewal (before.versions back mem_cons_self) starts]
    exact insertRoot_found found before.toHistoryPlaced indexed
  | takeOver expired starts ends =>
    rw [← pushBack_replaces (not_canExtend_of_expired (starts ▸ expired))]
    exact insertRoot_found found (ok _ _ found).toHistoryPlaced indexed
  | addChild active allowed added =>
    exact insertChild_found found (ok _ _ found).toHistoryPlaced indexed allowed added.toPlaced
  | setRootAlias active => exact setRootAlias_found found (ok _ _ found).toHistoryPlaced indexed _
  | setChildAlias active mem =>
    exact setChildAlias_found found (ok _ _ found).toHistoryPlaced indexed _ mem

private theorem canRemove_newest {ns : Namespace} {root : RootNamespace}
    (children : root.children = ⟨ns, .none⟩ :: back.children)
    (ok : ChildrenOk cfg paths id back.children)
    (added : ChildrenOk cfg paths id (⟨ns, .none⟩ :: back.children))
    (path : paths id = [id]) : root.canRemove ns.id := by
  have fresh : ns.id ∉ back.children.ids := (nodup_cons.mp added.distinct).1
  have notRoot : ns.id ≠ id := added.id_ne path mem_cons_self
  rw [RootNamespace.canRemove, children, Children.find_cons, if_pos rfl, Option.any_some,
    Bool.not_eq_true', any_eq_false]
  intro other mem
  rw [Bool.and_eq_true, decide_eq_true_iff, beq_iff_eq]
  rintro ⟨deeper, ancestor⟩
  change ns.path.length < other.ns.path.length at deeper
  rcases mem_cons.mp mem with rfl | known
  · exact absurd deeper (Nat.lt_irrefl _)
  · have level : 0 < ns.path.length := length_pos_of_ne_nil ns.nonempty
    have inPath : ns.id ∈ other.ns.path.dropLast := by
      refine mem_of_getElem? (i := ns.path.length - 1) ?_
      rw [getElem?_dropLast, if_pos (by omega)]
      exact ancestor
    rcases ok.closed other known ns.id inPath with isRoot | isChild
    · exact notRoot isRoot
    · exact fresh isChild

private theorem revert_addChild {ns : Namespace}
    (found : cache.historyById.lookup id = some ⟨id, changeSharedChildren
      (⟨ns, .none⟩ :: ·) (back :: older)⟩)
    (ok : HistoryOk cfg paths id ⟨id, back :: older⟩)
    (added : ChildrenOk cfg paths id (⟨ns, .none⟩ :: back.children))
    (indexed : cache.Indexed paths) :
    ∃ former, cache.remove ns.id = some former ∧
      ChangedTo paths cache former id (some ⟨id, back :: older⟩)
        cache.rootNamespaceIdsByExpiryHeight := by
  have fresh : ns.id ∉ back.children.ids := (nodup_cons.mp added.distinct).1
  have erased : changeSharedChildren (·.erase ns.id)
      (changeSharedChildren (⟨ns, .none⟩ :: ·) (back :: older)) =
        back :: older := by
    rw [changeSharedChildren_comp]
    refine changeSharedChildren_eq_self ok.shared ?_
    rintro _ ⟨⟩
    exact Children.erase_cons fresh
  have removable :
      RootNamespace.canRemove { back with children := ⟨ns, .none⟩ :: back.children } ns.id :=
    canRemove_newest rfl (ok.children back mem_cons_self) added ok.path
  have after : HistoryPlaced paths id ⟨id, changeSharedChildren
    (⟨ns, .none⟩ :: ·) (back :: older)⟩ := ok.toHistoryPlaced.changeShared added.toPlaced
  have mem : (⟨ns, .none⟩ : NamespaceData) ∈ (⟨ns, .none⟩ : NamespaceData) :: back.children :=
    mem_cons_self
  rw [← erased]
  exact removeChild_found found after indexed mem removable

theorem Evolves.revert (evolves : Evolves cfg paths height id op old new)
    (ok : ∀ history, old = some history → HistoryOk cfg paths id history)
    (found : cache.historyById.lookup id = some new) (indexed : cache.Indexed paths) :
    ∃ former, op.revert cache = some former ∧ ChangedTo paths cache former id old
      (op.removeFromGroups cache.rootNamespaceIdsByExpiryHeight) := by
  have after := evolves.historyOk ok
  cases evolves with
  | register path starts ends => exact removeRoot_only path found rfl indexed
  | renew active starts ends => exact removeRoot_newest found after.toHistoryPlaced indexed
  | takeOver expired starts ends => exact removeRoot_newest found after.toHistoryPlaced indexed
  | addChild active allowed added => exact revert_addChild found (ok _ rfl) added indexed
  | @setRootAlias next back older active =>
    have reverted := setRootAlias_found found after.toHistoryPlaced indexed back.namespaceAlias
    exact reverted
  | @setChildAlias next child back older active mem =>
    have before := ok _ rfl
    have children := (before.versions back mem_cons_self).children
    have present := Children.find_of_mem children.distinct mem
    have changed : (⟨child.ns, next⟩ : NamespaceData) ∈
        back.children.setAlias child.ns.id next :=
      mem_map.mpr ⟨child, mem, if_pos rfl⟩
    have restored : changeSharedChildren
        (·.setAlias child.ns.id child.namespaceAlias)
          (changeSharedChildren (·.setAlias child.ns.id next)
            (back :: older)) = back :: older := by
      rw [changeSharedChildren_comp]
      refine changeSharedChildren_eq_self before.shared ?_
      rintro _ ⟨⟩
      exact Children.setAlias_setAlias children.distinct present next
    obtain ⟨former, done, changedTo⟩ :=
      setChildAlias_found found after.toHistoryPlaced indexed child.namespaceAlias changed
    refine ⟨former, done, ?_⟩
    rw [← restored]
    exact changedTo

end Evolution

def pruned (height : Height) (old : Option RootNamespaceHistory) : Option RootNamespaceHistory :=
  old.bind fun history =>
    if (history.prune height).1.roots.isEmpty then none else some (history.prune height).1

section Histories
variable {cfg : NamespaceConfiguration} {paths : Paths} {height lower : Height}
  {id : NamespaceId} {back : RootNamespace} {older : List RootNamespace}

private theorem pruned_some (roots : List RootNamespace) : pruned height (some ⟨id, roots⟩) =
    if (outlasting height roots).isEmpty then none else some ⟨id, outlasting height roots⟩ := rfl

private theorem pruned_kept (outlasts : height < back.lifetime.endHeight) :
    pruned height (some ⟨id, back :: older⟩) = some ⟨id, back :: outlasting height older⟩ := by
  rw [pruned_some, outlasting_cons outlasts]
  rfl

private theorem pruned_dropped (id : NamespaceId) (descend : EndsDescend (back :: older))
    (expired : ¬ height < back.lifetime.endHeight) :
    outlasting height (back :: older) = [] ∧ pruned height (some ⟨id, back :: older⟩) = none := by
  have gone : outlasting height (back :: older) = [] :=
    descend.outlasting_eq_nil (by simpa using expired)
  rw [pruned_some, gone]
  exact ⟨rfl, rfl⟩

private theorem pruned_changeShared (change : Children → Children)
    (descend : EndsDescend (back :: older))
    (outlasts : height < back.lifetime.endHeight) :
    pruned height (some ⟨id, changeSharedChildren change (back :: older)⟩) =
      some ⟨id, changeSharedChildren change
        (back :: outlasting height older)⟩ := by
  rw [pruned_some, outlasting_changeSharedChildren change descend, outlasting_cons outlasts]
  rfl

theorem Evolves.pruned {op : NamespaceOperation} {old : Option RootNamespaceHistory}
    {new : RootNamespaceHistory} (evolves : Evolves cfg paths height id op old new)
    (ok : ∀ history, old = some history → HistoryOk cfg paths id history) (above : lower < height) :
    ∃ kept, Namespaces.pruned lower (some new) = some kept ∧
      Evolves cfg paths height id op (Namespaces.pruned lower old) kept := by
  cases evolves with
  | register path starts ends =>
    exact ⟨_, pruned_kept (Nat.lt_trans above ends), .register path starts ends⟩
  | @renew lifetime back older active starts ends =>
    have backKept : lower < back.lifetime.endHeight := Nat.lt_trans above active
    have newKept : lower < lifetime.endHeight := Nat.lt_of_lt_of_le backKept ends
    refine ⟨_, pruned_kept newKept, ?_⟩
    rw [pruned_kept backKept, outlasting_cons backKept]
    exact .renew active starts ends
  | @takeOver owner lifetime back older expired starts ends =>
    have before := ok _ rfl
    refine ⟨_, pruned_kept (Nat.lt_trans above ends), ?_⟩
    by_cases backKept : lower < back.lifetime.endHeight
    · rw [pruned_kept backKept, outlasting_cons backKept]
      exact .takeOver expired starts ends
    · -- nothing is left of the versions before, and the root is registered anew
      obtain ⟨gone, dropped⟩ := pruned_dropped id before.descend backKept
      rw [dropped, gone]
      exact .register before.path (starts ▸ BitVec.le_refl _) ends
  | addChild active allowed added =>
    have backKept := Nat.lt_trans above active
    refine ⟨_, pruned_changeShared _ (ok _ rfl).descend backKept, ?_⟩
    rw [pruned_kept backKept]
    exact .addChild active allowed added
  | setRootAlias active =>
    have backKept := Nat.lt_trans above active
    refine ⟨_, pruned_kept backKept, ?_⟩
    rw [pruned_kept backKept]
    exact .setRootAlias active
  | setChildAlias active mem =>
    have backKept := Nat.lt_trans above active
    refine ⟨_, pruned_changeShared _ (ok _ rfl).descend backKept, ?_⟩
    rw [pruned_kept backKept]
    exact .setChildAlias active mem

variable {history kept : RootNamespaceHistory}

private theorem HistoryPlaced.pruned (placed : HistoryPlaced paths id history)
    (left : Namespaces.pruned height (some history) = some kept) :
    HistoryPlaced paths id kept ∧ kept.roots.Sublist history.roots ∧
      ∀ root ∈ history.roots, height < root.lifetime.endHeight → root ∈ kept.roots := by
  obtain ⟨back, older, roots, _⟩ := placed.exists_back
  obtain ⟨sameId, path, nonempty, versions, shared, descend⟩ := placed
  obtain ⟨historyId, historyRoots⟩ := history
  cases sameId
  cases roots
  by_cases outlasts : height < back.lifetime.endHeight
  · rw [pruned_kept outlasts] at left
    cases left
    have isPrefix : back :: outlasting height older <+: back :: older := by
      rw [← outlasting_cons outlasts]
      exact descend.outlasting_isPrefix
    refine ⟨⟨rfl, path, cons_ne_nil _ _, fun root mem =>
      versions root (isPrefix.subset mem), List.IsChain.prefix shared isPrefix,
      descend.sublist isPrefix.sublist⟩, isPrefix.sublist, ?_⟩
    · intro root mem later
      rcases mem_cons.mp mem with rfl | known
      · exact mem_cons_self
      · exact mem_cons_of_mem _ (mem_filter.mpr ⟨known, decide_eq_true later⟩)
  · rw [(pruned_dropped _ descend outlasts).2] at left
    cases left

theorem HistoryOk.pruned (ok : HistoryOk cfg paths id history)
    (left : Namespaces.pruned height (some history) = some kept) :
    HistoryOk cfg paths id kept ∧ kept.roots.Sublist history.roots ∧
      ∀ root ∈ history.roots, height < root.lifetime.endHeight → root ∈ kept.roots := by
  obtain ⟨placed, sublist, remaining⟩ := ok.toHistoryPlaced.pruned left
  exact ⟨⟨placed, fun root mem => ok.children root (sublist.subset mem)⟩, sublist, remaining⟩

end Histories

section Caches
variable {cfg : NamespaceConfiguration} {paths : Paths} {height : Height} {id : NamespaceId}
  {cache : NamespaceCache}

variable {other : NamespaceId}

private theorem mem_prunedIds {roots : List RootNamespace} (mem : other ∈ prunedIds height roots) :
    ∃ root ∈ roots, other ∈ root.children.ids := by
  induction roots with
  | nil => cases mem
  | cons root older ih =>
    rw [prunedIds] at mem
    split at mem
    · rcases mem_append.mp mem with later | here
      · simp_all
      · exact ⟨root, mem_cons_self, here⟩
    · simp_all

private theorem historySizes_active (history : RootNamespaceHistory) :
    (historySizes history).active = BitVec.ofNat 64 history.activeCount := by
  obtain ⟨id, roots⟩ := history
  cases roots with
  | nil => rfl
  | cons back older => exact (BitVec.ofNat_add 1 _).symm

variable {history : RootNamespaceHistory}

section
variable (placed : HistoryPlaced paths id history)
include placed

private theorem head?_of_prunedId (mem : other ∈ prunedIds height history.roots) :
    (paths other).head? = some id ∧ other ≠ id := by
  obtain ⟨root, known, child⟩ := mem_prunedIds mem
  have children := (placed.versions root known).children
  obtain ⟨namespaceData, present, rfl⟩ := mem_map.mp child
  exact ⟨children.head? present, children.id_ne placed.path present⟩

private theorem lookup_removedIds
    (found : cache.historyById.lookup id = some history) (indexed : cache.Indexed paths)
    (under : (paths other).head? = some id) :
    ((history.prune height).2.foldl (fun flatMap id => flatMap.erase id)
        cache.namespaceById).lookup other =
      (pruned height (some history)).bind fun kept => kept.activeNamespace other := by
  obtain ⟨back, older, roots, version⟩ := placed.exists_back
  have shown := indexed.flat other
  rw [namespaceOf_of_lookup under found] at shown
  obtain ⟨historyId, historyRoots⟩ := history
  cases roots
  cases placed.sameId
  rw [activeNamespace_mk] at shown
  rw [lookup_foldl_erase (fun id => id), map_id', shown]
  by_cases outlasts : height < back.lifetime.endHeight
  · -- what is active stays, and what is removed was not active
    have kept : outlasting height (back :: older) = back :: outlasting height older :=
      outlasting_cons outlasts
    have removed : (prune ⟨historyId, back :: older⟩ height).2 =
        (prunedIds height older).filter fun id =>
          decide (id ∉ back.children.ids) := by
      rw [outlasting] at kept
      simp only [prune, prunedIds, kept,
        isEmpty_cons, Bool.false_eq_true, ↓reduceIte, BitVec.not_le.mpr outlasts]
      rfl
    rw [pruned_kept outlasts, Option.bind_some, activeNamespace_mk, removed]
    split
    · rename_i mem
      obtain ⟨known, inactive⟩ := mem_filter.mp mem
      have pruned : other ∈ prunedIds height (back :: older) := by
        rw [prunedIds, if_neg (BitVec.not_le.mpr outlasts)]
        exact mem
      rw [if_neg (head?_of_prunedId placed pruned).2,
        Children.find_eq_none.mpr (of_decide_eq_true inactive)]
      rfl
    · rfl
  · obtain ⟨gone, dropped⟩ := pruned_dropped historyId placed.descend outlasts
    have removed : (prune ⟨historyId, back :: older⟩ height).2 =
        historyId :: (prunedIds height older ++ back.children.ids) := by
      rw [outlasting] at gone
      simp only [prune, prunedIds, gone, isEmpty_nil, ↓reduceIte, BitVec.not_lt.mp outlasts]
      rfl
    rw [dropped, removed, Option.bind_none, ite_eq_left_iff,
      mem_cons, mem_append, not_or, not_or]
    rintro ⟨notRoot, _, notChild⟩
    rw [if_neg notRoot, Children.find_eq_none.mpr notChild]
    rfl

private theorem lookup_removedIds_of_other (apart : (paths other).head? ≠ some id) :
    ((history.prune height).2.foldl (fun flatMap id => flatMap.erase id)
        cache.namespaceById).lookup other = cache.namespaceById.lookup other := by
  rw [lookup_foldl_erase (fun id => id), map_id', if_neg]
  intro mem
  have pruned : other = id ∨ other ∈ prunedIds height history.roots := by
    rw [prune] at mem
    split at mem
    · rw [mem_cons, placed.sameId] at mem
      exact mem
    · exact .inr mem
  rcases pruned with rfl | child
  · exact apart (by rw [placed.path, head?_cons])
  · exact apart (head?_of_prunedId placed child).1

private theorem changedTo_pruneHistory
    (found : cache.historyById.lookup id = some history) (indexed : cache.Indexed paths) :
    ChangedTo paths cache (pruneHistory height cache history) id
      (pruned height (some history)) cache.rootNamespaceIdsByExpiryHeight := by
  have counts : ∀ f : RootNamespaceHistory → Nat, (∀ id, f ⟨id, []⟩ = 0) →
      (pruned height (some history)).elim 0 f = f (history.prune height).1 := by
    intro f zero
    rw [pruned, Option.bind_some]
    split
    · rename_i isEmpty
      rw [Option.elim_none]
      rw [List.isEmpty_iff] at isEmpty
      rw [show (history.prune height).1 = ⟨(history.prune height).1.id, []⟩ by rw [← isEmpty], zero]
    · rw [Option.elim_some]
  have histories : (pruneHistory height cache history).historyById =
      restore cache.historyById id (pruned height (some history)) := by
    rw [pruneHistory, pruned, Option.bind_some]
    dsimp only
    rw [placed.sameId]
    split <;> rfl
  refine ⟨histories, rfl, indexed.restored id _ histories
    (fun other under => lookup_removedIds placed found indexed under)
    (fun other apart => lookup_removedIds_of_other placed apart) ?_ ?_⟩
  · rw [share_found found, counts _ fun _ => rfl]
    change cache.sizes.active - ((historySizes history).active -
      (historySizes (history.prune height).1).active) + _ = _
    rw [historySizes_active, historySizes_active]
    bv_omega
  · rw [share_found found, counts _ fun _ => rfl]
    change cache.sizes.deep - (BitVec.ofNat 64 history.deepCount -
      BitVec.ofNat 64 (history.prune height).1.deepCount) + _ = _
    bv_omega

end

structure PrunedAt (height : Height) (ids : List NamespaceId) (histories next : HistoryMap) :
    Prop where
  lookup (id : NamespaceId) : next.lookup id =
    if id ∈ ids then pruned height (histories.lookup id) else histories.lookup id

variable {ids : List NamespaceId} {histories next : HistoryMap}

section
variable (prunes : PrunedAt height ids histories next)
include prunes

private theorem PrunedAt.forall {P : NamespaceId → RootNamespaceHistory → Prop}
    (all : ∀ id history, histories.lookup id = some history → P id history)
    (keeps : ∀ id history kept, P id history → pruned height (some history) = some kept → P id kept)
    (id : NamespaceId) (kept : RootNamespaceHistory) (found : next.lookup id = some kept) :
    P id kept := by
  rw [prunes.lookup id] at found
  split at found
  · obtain ⟨history, known, left⟩ := Option.bind_eq_some_iff.mp found
    exact keeps id history kept (all id history known) left
  · exact all id kept found

theorem WellFormed.prunedAt (ok : WellFormed cfg paths histories) :
    WellFormed cfg paths next :=
  prunes.forall ok fun _ _ _ historyOk left => (historyOk.pruned left).1

theorem AllPlaced.prunedAt (placed : AllPlaced paths histories) :
    AllPlaced paths next :=
  prunes.forall placed fun _ _ _ historyPlaced left => (historyPlaced.pruned left).1

end

private def pruneById (height : Height) (cache : NamespaceCache) (id : NamespaceId) :
    NamespaceCache :=
  match cache.historyById.lookup id with
  | none => cache
  | some history => pruneHistory height cache history

section
variable (placed : AllPlaced paths cache.historyById) (indexed : cache.Indexed paths)
include placed indexed

private theorem pruneById_spec (first : NamespaceId) :
    PrunedAt height [first] cache.historyById (pruneById height cache first).historyById ∧
      (pruneById height cache first).rootNamespaceIdsByExpiryHeight =
        cache.rootNamespaceIdsByExpiryHeight ∧
      (pruneById height cache first).Indexed paths := by
  unfold pruneById
  cases found : cache.historyById.lookup first with
  | none =>
    refine ⟨⟨fun id => ?_⟩, rfl, indexed⟩
    by_cases here : id = first
    · subst here
      rw [if_pos mem_cons_self, found]
      rfl
    · rw [if_neg (by simpa using here)]
  | some history =>
    have changed : ChangedTo paths cache (pruneHistory height cache history) first _
        _ := changedTo_pruneHistory (placed first history found) found indexed
    refine ⟨⟨fun id => ?_⟩, changed.groups, changed.indexed⟩
    rw [changed.histories, lookup_restore, ← found]
    by_cases here : id = first
    · subst here
      rw [if_pos rfl, if_pos mem_cons_self]
    · rw [if_neg here, if_neg (by simpa using here)]

private theorem foldl_pruneById (ids : List NamespaceId) (distinct : ids.Nodup) :
    PrunedAt height ids cache.historyById (ids.foldl (pruneById height) cache).historyById ∧
      (ids.foldl (pruneById height) cache).rootNamespaceIdsByExpiryHeight =
        cache.rootNamespaceIdsByExpiryHeight ∧
      (ids.foldl (pruneById height) cache).Indexed paths := by
  induction ids generalizing cache with
  | nil => exact ⟨⟨fun id => (if_neg not_mem_nil).symm⟩, rfl, indexed⟩
  | cons first rest ih =>
    obtain ⟨fresh, distinctRest⟩ := nodup_cons.mp distinct
    -- the first history is pruned, and none of the others is the first
    obtain ⟨prunes, groups, middleIndexed⟩ := pruneById_spec placed indexed first
    obtain ⟨prunesRest, groupsRest, nextIndexed⟩ :=
      ih (placed.prunedAt prunes) middleIndexed distinctRest
    refine ⟨⟨fun id => ?_⟩, groupsRest.trans groups, nextIndexed⟩
    rw [foldl_cons, prunesRest.lookup id, prunes.lookup id]
    by_cases here : id = first
    · simp_all
    · simp only [mem_cons, here, not_mem_nil, or_self, ↓reduceIte, false_or]

theorem prune_spec :
    PrunedAt height (cache.rootNamespaceIdsByExpiryHeight.identifiers height) cache.historyById
        (cache.prune height).historyById ∧
      (cache.prune height).rootNamespaceIdsByExpiryHeight = cache.rootNamespaceIdsByExpiryHeight ∧
      (cache.prune height).Indexed paths :=
  foldl_pruneById placed indexed _ (GroupedSet.nodup_identifiers _ _)

end

end Caches

end BitxorCore.Namespaces
