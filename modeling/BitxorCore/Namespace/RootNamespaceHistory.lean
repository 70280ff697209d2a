/- GID: Namespace/RootNamespaceHistory
   anchors: [plugins/txes/namespace]
   digest: The versions of a root namespace, renewals sharing their children. -/

import BitxorCore.State.AccountState

set_option autoImplicit false
set_option relaxedAutoImplicit false

namespace BitxorCore.Namespaces
open State

abbrev NamespaceId := BitVec 64

def namespaceBaseId : NamespaceId := 0

abbrev Height := BitVec 64

abbrev BlockDuration := BitVec 64

def maxHeight : Height := BitVec.allOnes 64

def eternalArtifactDuration : BlockDuration := 0

/-- From `start` to `endHeight`, the latter excluded and including the grace period. -/
@[ext]
structure NamespaceLifetime where
  start : Height
  endHeight : Height
  deriving DecidableEq, Repr

namespace NamespaceLifetime

/-- Throws if the lifetime would not be positive or the grace period would overflow it. -/
def create (start endHeight : Height) (gracePeriodDuration : BlockDuration) :
    Option NamespaceLifetime :=
  if endHeight ≤ start then none
  else
    -- if the end is the maximum height, there can be no grace period
    let graceEnd := if endHeight ≠ maxHeight then endHeight + gracePeriodDuration else endHeight
    if graceEnd < endHeight then none else some ⟨start, graceEnd⟩

variable (lifetime : NamespaceLifetime)

def isActive (height : Height) : Bool :=
  decide (lifetime.start ≤ height) && decide (height < lifetime.endHeight)

/-- Throws if the grace period is not shorter than the lifetime. -/
def isActiveExcludingGracePeriod (height : Height)
    (gracePeriodDuration : BlockDuration) : Option Bool :=
  if lifetime.endHeight - lifetime.start ≤ gracePeriodDuration then none
  else some (decide (lifetime.start ≤ height) &&
    decide (height < lifetime.endHeight - gracePeriodDuration))

end NamespaceLifetime

/-- A namespace is known by the ids on the way from its root, its own last. -/
structure Namespace where
  path : List NamespaceId
  nonempty : path ≠ []
  deriving DecidableEq

namespace Namespace

def ofRoot (id : NamespaceId) : Namespace := ⟨[id], List.cons_ne_nil _ _⟩

variable (ns : Namespace)

def id : NamespaceId := ns.path.getLast ns.nonempty

def rootId : NamespaceId := ns.path.head ns.nonempty

def parentId : NamespaceId := ns.path.dropLast.getLast?.getD namespaceBaseId

def createChild (id : NamespaceId) : Namespace :=
  ⟨ns.path ++ [id], List.append_ne_nil_of_right_ne_nil _ (List.cons_ne_nil _ _)⟩

variable (id : NamespaceId) (ns : Namespace)

@[simp]
theorem rootId_ofRoot : (ofRoot id).rootId = id := rfl

@[simp]
theorem id_createChild : (ns.createChild id).id = id := by
  simp [createChild, Namespace.id]

@[simp]
theorem rootId_createChild : (ns.createChild id).rootId = ns.rootId := by
  simp [createChild, rootId, List.head_append_of_ne_nil ns.nonempty]

@[ext]
private theorem ext {ns other : Namespace} (same : ns.path = other.path) : ns = other := by
  cases ns
  cases other
  cases same
  rfl

end Namespace

inductive NamespaceAlias where
  | none
  | token (tokenId : TokenId)
  | address (address : Address)
  deriving DecidableEq

structure NamespaceData where
  ns : Namespace
  namespaceAlias : NamespaceAlias
  deriving DecidableEq

/-- Children of a root, the newest first; no two have the same id. -/
abbrev Children := List NamespaceData

namespace Children

variable (children : Children)

def find (id : NamespaceId) : Option NamespaceData :=
  List.find? (fun child => child.ns.id == id) children

def erase (id : NamespaceId) : Children :=
  children.filter fun child => child.ns.id != id

def setAlias (id : NamespaceId) (namespaceAlias : NamespaceAlias) : Children :=
  children.map fun child => if child.ns.id = id then { child with namespaceAlias } else child

end Children

structure RootNamespace where
  id : NamespaceId
  ownerAddress : Address
  lifetime : NamespaceLifetime
  namespaceAlias : NamespaceAlias
  children : Children
  deriving DecidableEq

namespace RootNamespace

def create (id : NamespaceId) (ownerAddress : Address) (lifetime : NamespaceLifetime) :
    RootNamespace :=
  ⟨id, ownerAddress, lifetime, .none, []⟩

/-- Has the same owner as a previous version, which was active at its start. -/
def canExtend (root prev : RootNamespace) : Bool :=
  root.id == prev.id && root.ownerAddress == prev.ownerAddress &&
    prev.lifetime.isActive root.lifetime.start

variable (root : RootNamespace)

/-- The alias of the root or of one of its children. Throws if there is no such child. -/
def aliasOf (id : NamespaceId) : Option NamespaceAlias :=
  if root.id = id then some root.namespaceAlias
  else (root.children.find id).map NamespaceData.namespaceAlias

/-- Whether a namespace may be added as a child: its id is new, and its parent is known, on the
level above it and under this root. -/
def canAdd (ns : Namespace) : Bool :=
  (root.children.find ns.id).isNone &&
    (root.id == ns.parentId || (root.children.find ns.parentId).any fun parent =>
      parent.ns.path.length == ns.path.length - 1) &&
    root.id == ns.rootId

def canRemove (id : NamespaceId) : Bool :=
  (root.children.find id).any fun child =>
    let level := child.ns.path.length
    !root.children.any fun other =>
      decide (level < other.ns.path.length) && other.ns.path[level - 1]? == some id

end RootNamespace

structure RootNamespaceHistory where
  id : NamespaceId
  roots : List RootNamespace
  deriving DecidableEq

namespace RootNamespaceHistory

/-- Applies a change to the children of the newest version. A version that extends the one before
it shares its children with it, so that the change goes back as far as versions extend. -/
def changeSharedChildren (change : Children → Children) : List RootNamespace → List RootNamespace
  | [] => []
  | root :: older =>
    { root with children := change root.children } ::
      if older.head?.any root.canExtend then changeSharedChildren change older else older

@[simp]
theorem changeSharedChildren_nil (change : Children → Children) :
    changeSharedChildren change [] = [] := rfl

theorem changeSharedChildren_cons (change : Children → Children) (root : RootNamespace)
    (older : List RootNamespace) :
    changeSharedChildren change (root :: older) = { root with children := change root.children } ::
      if older.head?.any root.canExtend then changeSharedChildren change older else older := rfl

/-- Number of versions in a row that `next` extends. -/
def countExtended (next : RootNamespace) : List RootNamespace → Nat
  | [] => 0
  | root :: older => if next.canExtend root then countExtended root older + 1 else 0

@[simp]
private theorem countExtended_nil (next : RootNamespace) : countExtended next [] = 0 := rfl

private theorem countExtended_cons (next root : RootNamespace) (older : List RootNamespace) :
    countExtended next (root :: older) =
      if next.canExtend root then countExtended root older + 1 else 0 := rfl

variable (history : RootNamespaceHistory)

def activeOwnerHistoryDepth : Nat :=
  match history.roots with
  | [] => 0
  | back :: _ => countExtended back history.roots

def back : Option RootNamespace := history.roots.head?

/-- Adds a version; one of the same owner in an active lifetime inherits children and alias. -/
def pushBack (owner : Address) (lifetime : NamespaceLifetime) : RootNamespaceHistory :=
  let newRoot := RootNamespace.create history.id owner lifetime
  let root := match history.back with
    | none => newRoot
    | some prev =>
      if newRoot.canExtend prev then
        { newRoot with
          namespaceAlias := prev.namespaceAlias, children := prev.children }
      else newRoot
  { history with roots := root :: history.roots }

theorem back_pushBack (owner : Address)
    (lifetime : NamespaceLifetime) :
    ∃ root, (history.pushBack owner lifetime).back = some root ∧ root.ownerAddress = owner ∧
      root.lifetime = lifetime ∧
      (root.children = [] ∨ ∃ prev, history.back = some prev ∧ root.children = prev.children) := by
  refine ⟨_, rfl, ?_⟩
  split
  · exact ⟨rfl, rfl, .inl rfl⟩
  · rename_i prev newest
    split
    · exact ⟨rfl, rfl, .inr ⟨prev, newest, rfl⟩⟩
    · exact ⟨rfl, rfl, .inl rfl⟩

/-- Adds a child to the newest version, or throws. -/
def addChild (ns : Namespace) : Option RootNamespaceHistory := do
  let back ← history.back
  if back.canAdd ns then
    return { history with roots := changeSharedChildren (⟨ns, .none⟩ :: ·) history.roots }
  else none

/-- Removes a child from the newest version, or throws. -/
def removeChild (id : NamespaceId) : Option RootNamespaceHistory := do
  let back ← history.back
  if back.canRemove id then
    return { history with roots := changeSharedChildren (·.erase id) history.roots }
  else none

/-- Sets the alias of the newest version or of one of its children, or throws. -/
def setAlias (id : NamespaceId) (namespaceAlias : NamespaceAlias) : Option RootNamespaceHistory :=
  match history.roots with
  | [] => none
  | back :: older =>
    if back.id = id then some { history with roots := { back with namespaceAlias } :: older }
    else if (back.children.find id).isSome then
      some { history with
        roots := changeSharedChildren (·.setAlias id namespaceAlias) history.roots }
    else none

/-- Ids that pruning removes, collected from the oldest version to the newest. -/
def prunedIds (height : Height) : List RootNamespace → List NamespaceId
  | [] => []
  | root :: older =>
    let childIds := root.children.map fun child => child.ns.id
    if root.lifetime.endHeight ≤ height then prunedIds height older ++ childIds
    else (prunedIds height older).filter fun id => decide (id ∉ childIds)

/-- Drops the versions that ended by a height; the ids of namespaces that are gone with them. -/
def prune (height : Height) : RootNamespaceHistory × List NamespaceId :=
  let roots := history.roots.filter fun root => decide (height < root.lifetime.endHeight)
  let ids := prunedIds height history.roots
  ({ history with roots }, if roots.isEmpty then history.id :: ids else ids)

open List RootNamespace

/-- A version that extends the one before it has the same children. -/
def Shared (roots : List RootNamespace) : Prop :=
  roots.IsChain fun newer older => newer.canExtend older → newer.children = older.children

def EndsDescend (roots : List RootNamespace) : Prop :=
  roots.Pairwise fun newer older => older.lifetime.endHeight ≤ newer.lifetime.endHeight

variable {roots : List RootNamespace} (change : Children → Children)

private theorem head?_changeSharedChildren (roots : List RootNamespace) :
    (changeSharedChildren change roots).head? =
      roots.head?.map fun root => { root with children := change root.children } := by
  cases roots <;> rfl

theorem changeSharedChildren_comp (next : Children → Children) (roots : List RootNamespace) :
    changeSharedChildren next (changeSharedChildren change roots) =
      changeSharedChildren (next ∘ change) roots := by
  induction roots with
  | nil => rfl
  | cons root older ih =>
    by_cases continues : older.head?.any root.canExtend
    · have still : (changeSharedChildren change older).head?.any root.canExtend := by
        rw [← continues]
        cases older <;> rfl
      simp only [changeSharedChildren_cons, continues, ↓reduceIte, Function.comp_apply, ← ih]
      congr 1
      exact if_pos still
    · simp only [changeSharedChildren_cons, continues, Bool.false_eq_true, ↓reduceIte,
        Function.comp_apply]
      congr 1
      exact if_neg continues

theorem changeSharedChildren_eq_self {change : Children → Children} (shared : Shared roots)
    (same : ∀ back, roots.head? = some back → change back.children = back.children) :
    changeSharedChildren change roots = roots := by
  induction roots with
  | nil => rfl
  | cons root older ih =>
    have here := same root rfl
    rw [changeSharedChildren_cons, here]
    congr 1
    split
    · rename_i continues
      refine ih shared.tail fun back newest => ?_
      rw [newest, Option.any_some] at continues
      rw [← shared.rel_head? newest continues, here]
    · rfl

theorem forall_changeSharedChildren {P : RootNamespace → Prop} {change : Children → Children}
    {children : Children} (shared : Shared roots)
    (newest : ∀ back, roots.head? = some back → back.children = children)
    (unchanged : ∀ root ∈ roots, P root) (changed : ∀ root ∈ roots, root.children = children →
      P { root with children := change root.children }) :
    ∀ root ∈ changeSharedChildren change roots, P root := by
  induction roots with
  | nil => simp
  | cons root older ih =>
    have here := newest root rfl
    rw [changeSharedChildren_cons, forall_mem_cons]
    refine ⟨changed root mem_cons_self here, ?_⟩
    split
    · rename_i continues
      refine ih shared.tail (fun back head => ?_)
        (fun other mem => unchanged other (mem_cons_of_mem _ mem))
        fun other mem => changed other (mem_cons_of_mem _ mem)
      rw [head, Option.any_some] at continues
      rw [← shared.rel_head? head continues, here]
    · exact fun other mem => unchanged other (mem_cons_of_mem _ mem)

theorem Shared.changeSharedChildren (shared : Shared roots) :
    Shared (changeSharedChildren change roots) := by
  induction roots with
  | nil => exact isChain_nil
  | cons root older ih =>
    rw [changeSharedChildren_cons]
    split
    · refine (ih shared.tail).cons fun back newest continues => ?_
      rw [head?_changeSharedChildren] at newest
      obtain ⟨former, head, rfl⟩ := Option.map_eq_some_iff.mp newest
      exact congrArg change (shared.rel_head? head continues)
    · rename_i apart
      refine shared.tail.cons fun back (newest : older.head? = some back) continues => ?_
      rw [newest, Option.any_some] at apart
      exact absurd continues apart

theorem map_lifetime_changeSharedChildren (roots : List RootNamespace) :
    (changeSharedChildren change roots).map lifetime = roots.map lifetime := by
  induction roots with
  | nil => rfl
  | cons root older ih =>
    rw [changeSharedChildren_cons, map_cons, map_cons]
    split
    · rw [ih]
    · rfl

theorem EndsDescend.of_map_lifetime {others : List RootNamespace} (descend : EndsDescend roots)
    (same : others.map lifetime = roots.map lifetime) :
    EndsDescend others := by
  have mapped : ∀ list : List RootNamespace, EndsDescend list ↔ (list.map lifetime).Pairwise
        fun newer older => older.endHeight ≤ newer.endHeight := by
    intro list
    rw [pairwise_map]
    rfl
  rw [mapped, same, ← mapped]
  exact descend

def countChildren (roots : List RootNamespace) : Nat :=
  (roots.map fun root => root.children.length).sum

private theorem countChildren_cons (root : RootNamespace) (older : List RootNamespace) :
    countChildren (root :: older) = root.children.length + countChildren older := by
  simp [countChildren]

theorem countChildren_of_length {change : Children → Children}
    (same : ∀ children : Children, (change children).length = children.length)
    (roots : List RootNamespace) :
    countChildren (changeSharedChildren change roots) = countChildren roots := by
  induction roots with
  | nil => rfl
  | cons root older ih =>
    rw [changeSharedChildren_cons, countChildren_cons, countChildren_cons, same]
    split
    · rw [ih]
    · rfl

private theorem countExtended_changeSharedChildren (next : RootNamespace)
    (roots : List RootNamespace) :
    countExtended next (changeSharedChildren change roots) = countExtended next roots := by
  induction roots generalizing next with
  | nil => rfl
  | cons root older ih =>
    rw [changeSharedChildren_cons, countExtended_cons, countExtended_cons]
    have same : countExtended { root with children := change root.children }
        (if older.head?.any root.canExtend then changeSharedChildren change older else older) =
        countExtended root older := by
      split
      · rw [ih]
        cases older <;> rfl
      · cases older <;> rfl
    rw [same]
    rfl

theorem countChildren_add_child (child : NamespaceData) (back : RootNamespace)
    (older : List RootNamespace) :
    countChildren (changeSharedChildren (child :: ·) (back :: older)) =
      countChildren (back :: older) + (countExtended back older + 1) := by
  induction older generalizing back with
  | nil => simp [changeSharedChildren_cons, countChildren]
  | cons root older ih =>
    rw [changeSharedChildren_cons, head?_cons, Option.any_some, countExtended_cons]
    rw [countChildren_cons, countChildren_cons back]
    by_cases continues : back.canExtend root
    · rw [if_pos continues, if_pos continues, ih, length_cons]
      omega
    · rw [if_neg continues, if_neg continues, length_cons]
      omega

variable {older : List RootNamespace} {back : RootNamespace}

theorem countChildren_remove_child {change : Children → Children} (shared : Shared (back :: older))
    (removed : (change back.children).length + 1 = back.children.length) :
    countChildren (changeSharedChildren change (back :: older)) + (countExtended back older + 1) =
      countChildren (back :: older) := by
  induction older generalizing back with
  | nil =>
    rw [changeSharedChildren_cons, countChildren_cons, countChildren_cons, countExtended_nil]
    simp only [head?_nil, Option.any_none, Bool.false_eq_true, ↓reduceIte]
    omega
  | cons root older ih =>
    rw [changeSharedChildren_cons, head?_cons, Option.any_some, countExtended_cons,
      countChildren_cons, countChildren_cons back]
    by_cases continues : back.canExtend root
    · have same : back.children = root.children := shared.rel continues
      have rest := ih shared.tail (same ▸ removed)
      rw [if_pos continues, if_pos continues]
      dsimp only
      omega
    · rw [if_neg continues, if_neg continues]
      dsimp only
      omega

private theorem activeOwnerHistoryDepth_mk {id : NamespaceId}
    (lived : back.lifetime.start < back.lifetime.endHeight) :
    (RootNamespaceHistory.mk id (back :: older)).activeOwnerHistoryDepth =
      countExtended back older + 1 := by
  have self : back.canExtend back := by
    simp [canExtend, NamespaceLifetime.isActive, lived]
  exact if_pos self

theorem activeOwnerHistoryDepth_changeSharedChildren {id : NamespaceId}
    (lived : back.lifetime.start < back.lifetime.endHeight) : (RootNamespaceHistory.mk id
        (changeSharedChildren change (back :: older))).activeOwnerHistoryDepth =
      countExtended back older + 1 := by
  have depth := countExtended_changeSharedChildren change back (back :: older)
  exact depth.trans (activeOwnerHistoryDepth_mk lived : (mk id _).activeOwnerHistoryDepth = _)

section Pruning
variable {height : Height}

theorem filter_isPrefix {α : Type} {keep : α → Bool} {list : List α}
    (before : list.Pairwise fun former later => keep later → keep former) :
    list.filter keep <+: list := by
  induction list with
  | nil => exact nil_prefix
  | cons first rest ih =>
    by_cases kept : keep first
    · simp_all
    · have gone : (first :: rest).filter keep = [] := by
        refine filter_eq_nil_iff.mpr fun other mem later => ?_
        rcases mem_cons.mp mem with rfl | known
        · exact kept later
        · exact kept (rel_of_pairwise_cons before known later)
      rw [gone]
      exact nil_prefix

def outlasting (height : Height) (roots : List RootNamespace) : List RootNamespace :=
  roots.filter fun root => decide (height < root.lifetime.endHeight)

theorem outlasting_cons (outlasts : height < back.lifetime.endHeight) :
    outlasting height (back :: older) = back :: outlasting height older :=
  filter_cons_of_pos (decide_eq_true outlasts)

section
variable (descend : EndsDescend roots)
include descend

theorem EndsDescend.outlasting_isPrefix : outlasting height roots <+: roots := by
  refine filter_isPrefix (descend.imp fun {newer older} ends later => ?_)
  rw [decide_eq_true_iff] at later ⊢
  exact Nat.lt_of_lt_of_le later ends

theorem EndsDescend.outlasting_eq_nil
    (ended : ∀ back, roots.head? = some back → ¬ height < back.lifetime.endHeight) :
    outlasting height roots = [] := by
  cases roots with
  | nil => rfl
  | cons root older =>
    have here := BitVec.not_lt.mp (ended root rfl)
    rw [outlasting, filter_eq_nil_iff]
    intro other mem
    rw [decide_eq_true_iff, BitVec.not_lt]
    rcases mem_cons.mp mem with rfl | later
    · exact here
    · exact BitVec.le_trans (rel_of_pairwise_cons descend later) here

theorem outlasting_changeSharedChildren : outlasting height (changeSharedChildren change roots) =
    changeSharedChildren change (outlasting height roots) := by
  induction roots with
  | nil => rfl
  | cons root older ih =>
    have descendOlder : EndsDescend older := descend.of_cons
    by_cases outlasts : height < root.lifetime.endHeight
    · rw [changeSharedChildren_cons, outlasting_cons (by exact outlasts), outlasting_cons outlasts,
        changeSharedChildren_cons]
      congr 1
      cases older with
      | nil => rfl
      | cons next rest =>
        by_cases kept : height < next.lifetime.endHeight
        · by_cases continues : root.canExtend next <;>
            simp_all [outlasting_cons kept]
        · have gone : outlasting height (next :: rest) = [] :=
            descendOlder.outlasting_eq_nil (by simpa using kept)
          split
          · rw [ih descendOlder, gone]
            rfl
          · rw [gone]
            rfl
    · have changedDescend : EndsDescend (changeSharedChildren change (root :: older)) :=
        descend.of_map_lifetime (map_lifetime_changeSharedChildren change _)
      rw [descend.outlasting_eq_nil (by simpa using outlasts),
        changedDescend.outlasting_eq_nil]
      · rfl
      · rw [head?_changeSharedChildren]
        simpa using outlasts

end

end Pruning

end RootNamespaceHistory

end BitxorCore.Namespaces
