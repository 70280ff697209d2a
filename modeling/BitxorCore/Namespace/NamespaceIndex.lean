/- GID: Namespace/NamespaceIndex
   anchors: [plugins/txes/namespace]
   digest: While ids stand for one path each, the histories determine the flat map and the sizes. -/

import BitxorCore.Library.KeyedList
import BitxorCore.Namespace.NamespaceObservers

set_option autoImplicit false
set_option relaxedAutoImplicit false

namespace BitxorCore.Namespaces
open Cache Library Library.Bookkeeping Library.FiniteMap State List Children

abbrev HistoryMap := Map NamespaceId RootNamespaceHistory

abbrev Paths := NamespaceId → List NamespaceId

section Children
variable {children : Children} {child : NamespaceData} {id : NamespaceId}

def Children.ids (children : Children) : List NamespaceId := children.map fun child => child.ns.id

theorem Children.find_eq_some (found : children.find id = some child) :
    child ∈ children ∧ child.ns.id = id :=
  ⟨mem_of_find?_eq_some found, by simpa using find?_some found⟩

theorem Children.find_cons (child : NamespaceData) (children : Children) (id : NamespaceId) :
    find (child :: children) id = if child.ns.id = id then some child else children.find id :=
  KeyedList.find_cons child children id

theorem Children.find_eq_none : children.find id = none ↔ id ∉ children.ids := by
  simp [find, ids]

theorem Children.find_of_mem (distinct : children.ids.Nodup) (mem : child ∈ children) :
    children.find child.ns.id = some child := by
  cases found : children.find child.ns.id with
  | none => exact absurd (mem_map_of_mem mem) (find_eq_none.mp found)
  | some other =>
    obtain ⟨otherMem, same⟩ := find_eq_some found
    rw [inj_on_of_nodup_map distinct otherMem mem same]

theorem Children.erase_cons (fresh : child.ns.id ∉ children.ids) :
    erase (child :: children) child.ns.id = children := by
  rw [erase, filter_cons_of_neg (by simp), filter_eq_self]
  intro other mem
  exact bne_iff_ne.mpr fun same => fresh (same ▸ mem_map_of_mem mem)

theorem Children.find_erase (children : Children) (id other : NamespaceId) :
    (children.erase id).find other = if other = id then none else children.find other :=
  KeyedList.find_eraseKey children id other

theorem Children.length_erase (distinct : children.ids.Nodup) (present : id ∈ children.ids) :
    (children.erase id).length + 1 = children.length := by
  obtain ⟨child, mem, rfl⟩ := mem_map.mp present
  exact (KeyedList.Distinct.perm_cons distinct mem).length_eq.symm

theorem Children.ids_setAlias (children : Children) (id : NamespaceId)
    (namespaceAlias : NamespaceAlias) :
    (children.setAlias id namespaceAlias).ids = children.ids := by
  rw [ids, setAlias, map_map]
  refine map_congr_left fun child _ => ?_
  rw [Function.comp_apply]
  split <;> rfl

theorem Children.mem_setAlias {namespaceAlias : NamespaceAlias}
    (mem : child ∈ children.setAlias id namespaceAlias) :
    ∃ former ∈ children, child.ns = former.ns := by
  obtain ⟨former, known, rfl⟩ := mem_map.mp mem
  refine ⟨former, known, ?_⟩
  split <;> rfl

theorem Children.find_setAlias (children : Children) (id other : NamespaceId)
    (namespaceAlias : NamespaceAlias) :
    ((children.setAlias id namespaceAlias).find other).map NamespaceData.ns =
      (children.find other).map NamespaceData.ns := by
  induction children with
  | nil => rfl
  | cons child rest ih =>
    have here : (if child.ns.id = id then { child with namespaceAlias } else child).ns =
        child.ns := by
      split <;> rfl
    rw [setAlias, map_cons, find, find, find?_cons, find?_cons, here]
    cases child.ns.id == other with
    | true => exact congrArg some here
    | false => exact ih

theorem Children.setAlias_setAlias (distinct : children.ids.Nodup)
    (found : children.find id = some child) (namespaceAlias : NamespaceAlias) :
    (children.setAlias id namespaceAlias).setAlias id child.namespaceAlias = children := by
  obtain ⟨mem, sameId⟩ := find_eq_some found
  rw [setAlias, setAlias, map_map]
  conv_rhs => rw [← map_id children]
  refine map_congr_left fun other known => ?_
  by_cases here : other.ns.id = id
  · have same : other = child := inj_on_of_nodup_map distinct known mem (here.trans sameId.symm)
    subst same
    simp [here]
  · simp [here]

end Children

/-- Children of a root lie under it, each at the path of its id. -/
structure Placed (paths : Paths) (id : NamespaceId) (children : Children) : Prop where
  distinct : children.ids.Nodup
  named : ∀ child ∈ children, child.ns.path = paths child.ns.id
  under : ∀ child ∈ children, child.ns.rootId = id ∧ 2 ≤ child.ns.path.length

/-- Children come with their ancestors and keep to the configured limits. -/
structure ChildrenOk (cfg : NamespaceConfiguration) (paths : Paths) (id : NamespaceId)
    (children : Children) : Prop extends Placed paths id children where
  closed : ∀ child ∈ children, ∀ ancestor ∈ child.ns.path.dropLast,
    ancestor = id ∨ ancestor ∈ children.ids
  bounded : children.length ≤ cfg.maxChildNamespaces.toNat
  shallow : cfg.maxNamespaceDepth ≠ 0 → ∀ child ∈ children,
    child.ns.path.length ≤ cfg.maxNamespaceDepth.toNat

structure VersionPlaced (paths : Paths) (id : NamespaceId) (root : RootNamespace) : Prop where
  sameId : root.id = id
  lived : root.lifetime.start < root.lifetime.endHeight
  children : Placed paths id root.children

/-- A history whose versions share their children as they extend one another, and end in the order
in which they were added. -/
structure HistoryPlaced (paths : Paths) (id : NamespaceId) (history : RootNamespaceHistory) :
    Prop where
  sameId : history.id = id
  path : paths id = [id]
  nonempty : history.roots ≠ []
  versions : ∀ root ∈ history.roots, VersionPlaced paths id root
  shared : RootNamespaceHistory.Shared history.roots
  descend : RootNamespaceHistory.EndsDescend history.roots

structure HistoryOk (cfg : NamespaceConfiguration) (paths : Paths) (id : NamespaceId)
    (history : RootNamespaceHistory) : Prop extends HistoryPlaced paths id history where
  children : ∀ root ∈ history.roots, ChildrenOk cfg paths id root.children

def WellFormed (cfg : NamespaceConfiguration) (paths : Paths) (histories : HistoryMap) : Prop :=
  ∀ id history, histories.lookup id = some history → HistoryOk cfg paths id history

def AllPlaced (paths : Paths) (histories : HistoryMap) : Prop :=
  ∀ id history, histories.lookup id = some history → HistoryPlaced paths id history

variable (history : RootNamespaceHistory)

def RootNamespaceHistory.activeNamespace (id : NamespaceId) :
    Option Namespace :=
  history.back.bind fun back =>
    if id = history.id then some (.ofRoot id)
    else (back.children.find id).map NamespaceData.ns

/-- The active namespace with an id, found from the root of its path. -/
def namespaceOf (paths : Paths) (histories : HistoryMap) (id : NamespaceId) : Option Namespace :=
  (paths id).head?.bind fun rootId =>
    (histories.lookup rootId).bind fun history => history.activeNamespace id

def RootNamespaceHistory.activeCount : Nat :=
  history.back.elim 0 fun back => 1 + back.children.length

def RootNamespaceHistory.deepCount : Nat :=
  history.roots.length + countChildren history.roots

/-- The flat map and the sizes are what the histories make them. -/
structure NamespaceCache.Indexed (paths : Paths) (cache : NamespaceCache) : Prop where
  flat : ∀ id, cache.namespaceById.lookup id = namespaceOf paths cache.historyById id
  active : cache.sizes.active =
    BitVec.ofNat 64 (total RootNamespaceHistory.activeCount cache.historyById)
  deep : cache.sizes.deep = BitVec.ofNat 64 (total RootNamespaceHistory.deepCount cache.historyById)

section WellFormed
variable {cfg : NamespaceConfiguration} {paths : Paths} {histories : HistoryMap}
  {id : NamespaceId} {history : RootNamespaceHistory} {children : Children} {child : NamespaceData}

theorem WellFormed.allPlaced (ok : WellFormed cfg paths histories) : AllPlaced paths histories :=
  fun id history found => (ok id history found).toHistoryPlaced

theorem HistoryPlaced.exists_back (placed : HistoryPlaced paths id history) :
    ∃ back older, history.roots = back :: older ∧ VersionPlaced paths id back := by
  obtain ⟨back, older, roots⟩ := exists_cons_of_ne_nil placed.nonempty
  exact ⟨back, older, roots, placed.versions back (roots ▸ mem_cons_self)⟩

theorem Placed.nil : Placed paths id [] where
  distinct := nodup_nil
  named := by simp
  under := by simp

theorem ChildrenOk.nil : ChildrenOk cfg paths id [] where
  toPlaced := .nil
  closed := by simp
  bounded := Nat.zero_le _
  shallow := by simp

section
variable (placed : Placed paths id children)
include placed

theorem Placed.id_ne (path : paths id = [id]) (mem : child ∈ children) : child.ns.id ≠ id := by
  intro same
  have long := (placed.under child mem).2
  rw [placed.named child mem, same, path] at long
  exact absurd long (by simp)

theorem Placed.id_not_mem (path : paths id = [id]) : id ∉ children.ids := by
  intro mem
  obtain ⟨child, known, same⟩ := mem_map.mp mem
  exact placed.id_ne path known same

theorem Placed.head? (mem : child ∈ children) : (paths child.ns.id).head? = some id := by
  rw [← placed.named child mem, head?_eq_some_head child.ns.nonempty]
  exact congrArg some (placed.under child mem).1

theorem Placed.not_mem_of_head? {other : NamespaceId}
    (apart : (paths other).head? ≠ some id) : other ∉ children.ids := by
  intro mem
  obtain ⟨child, known, rfl⟩ := mem_map.mp mem
  exact apart (placed.head? known)

variable (childId : NamespaceId)

theorem Placed.setAlias (namespaceAlias : NamespaceAlias) :
    Placed paths id (children.setAlias childId namespaceAlias) where
  distinct := by
    rw [ids_setAlias]
    exact placed.distinct
  named child mem := by
    obtain ⟨former, known, same⟩ := mem_setAlias mem
    rw [same]
    exact placed.named former known
  under child mem := by
    obtain ⟨former, known, same⟩ := mem_setAlias mem
    rw [same]
    exact placed.under former known

theorem Placed.erase : Placed paths id (children.erase childId) where
  distinct := (filter_sublist.map _).nodup placed.distinct
  named child mem := placed.named child (mem_filter.mp mem).1
  under child mem := placed.under child (mem_filter.mp mem).1

end

theorem namespaceOf_of_lookup {key : NamespaceId} (root : (paths id).head? = some key)
    (found : histories.lookup key = some history) :
    namespaceOf paths histories id = history.activeNamespace id := by
  rw [namespaceOf, root, Option.bind_some, found, Option.bind_some]

theorem namespaceOf_of_absent {key : NamespaceId} (root : (paths id).head? = some key)
    (absent : histories.lookup key = none) : namespaceOf paths histories id = none := by
  rw [namespaceOf, root, Option.bind_some, absent, Option.bind_none]

theorem activeNamespace_of_roots {back : RootNamespace} {older : List RootNamespace}
    (roots : history.roots = back :: older) (id : NamespaceId) :
    history.activeNamespace id = if id = history.id then some (.ofRoot id)
      else (back.children.find id).map NamespaceData.ns := by
  rw [RootNamespaceHistory.activeNamespace, RootNamespaceHistory.back, roots, head?_cons,
    Option.bind_some]

theorem AllPlaced.namespaceOf_eq_some {ns : Namespace} (placed : AllPlaced paths histories)
    (active : namespaceOf paths histories id = some ns) :
    ns.path = paths id ∧ ns.id = id ∧ ∃ history back older,
      histories.lookup ns.rootId = some history ∧ history.roots = back :: older ∧
      (id = ns.rootId ∧ ns = .ofRoot id ∨
        ∃ child ∈ back.children, child.ns = ns ∧ back.children.find id = some child) := by
  obtain ⟨rootId, root, rest⟩ := Option.bind_eq_some_iff.mp active
  obtain ⟨history, found, shown⟩ := Option.bind_eq_some_iff.mp rest
  have inPlace := placed rootId history found
  obtain ⟨back, older, roots, version⟩ := inPlace.exists_back
  rw [activeNamespace_of_roots roots, inPlace.sameId] at shown
  split at shown
  · rename_i here
    subst here
    cases shown
    exact ⟨inPlace.path.symm, rfl, history, back, older, found, roots, .inl ⟨rfl, rfl⟩⟩
  · obtain ⟨child, present, rfl⟩ := Option.map_eq_some_iff.mp shown
    obtain ⟨mem, sameId⟩ := find_eq_some present
    refine ⟨sameId ▸ version.children.named child mem, sameId, history, back, older, ?_, roots,
      .inr ⟨child, mem, rfl, present⟩⟩
    rw [(version.children.under child mem).1, found]

theorem WellFormed.depth_le {ns : Namespace} (ok : WellFormed cfg paths histories)
    (limited : cfg.maxNamespaceDepth ≠ 0) (active : namespaceOf paths histories id = some ns) :
    ns.path.length ≤ cfg.maxNamespaceDepth.toNat := by
  obtain ⟨_, _, history, back, older, found, roots, place⟩ :=
    ok.allPlaced.namespaceOf_eq_some active
  have children := (ok _ _ found).children back (roots ▸ mem_cons_self)
  rcases place with ⟨_, rfl⟩ | ⟨child, mem, rfl, _⟩
  · exact Nat.one_le_iff_ne_zero.mpr fun zero => limited (BitVec.eq_of_toNat_eq zero)
  · exact children.shallow limited child mem

end WellFormed

end BitxorCore.Namespaces
