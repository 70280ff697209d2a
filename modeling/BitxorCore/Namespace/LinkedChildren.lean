/- GID: Namespace/LinkedChildren
   anchors: [plugins/txes/namespace]
   digest: Entries of a history that hold the same pointer are those that extend one another. -/

import BitxorCore.Namespace.NamespaceBookkeeping

set_option autoImplicit false
set_option relaxedAutoImplicit false

namespace BitxorCore.Namespaces
open State List RootNamespaceHistory

/-- A root namespace as it is stored: its children are behind a pointer. -/
structure LinkedRoot where
  id : NamespaceId
  ownerAddress : Address
  lifetime : NamespaceLifetime
  namespaceAlias : NamespaceAlias
  pChildren : Nat
  deriving DecidableEq

namespace LinkedRoot

def canExtend (root prev : LinkedRoot) : Bool :=
  root.id == prev.id && root.ownerAddress == prev.ownerAddress &&
    prev.lifetime.isActive root.lifetime.start

def resolve (heap : Nat → Children) (root : LinkedRoot) : RootNamespace :=
  ⟨root.id, root.ownerAddress, root.lifetime, root.namespaceAlias, heap root.pChildren⟩

@[simp]
private theorem canExtend_resolve (heap : Nat → Children) (root prev : LinkedRoot) :
    (root.resolve heap).canExtend (prev.resolve heap) = root.canExtend prev := rfl

end LinkedRoot

open LinkedRoot (resolve)

/-- The entries of a history, the newest first, and the sets of children they point to. Pointers
below `next` have been handed out. -/
structure LinkedHistory where
  id : NamespaceId
  entries : List LinkedRoot
  heap : Nat → Children
  next : Nat

namespace LinkedHistory

def create (id : NamespaceId) : LinkedHistory := ⟨id, [], fun _ => [], 0⟩

variable (history : LinkedHistory)

def view : RootNamespaceHistory :=
  ⟨history.id, history.entries.map (resolve history.heap)⟩

def allocate (root : LinkedRoot) (children : Children) : LinkedHistory where
  id := history.id
  entries := { root with pChildren := history.next } :: history.entries
  heap := Function.update history.heap history.next children
  next := history.next + 1

/-- Adds an entry that points to the children of the newest one. -/
def share (root prev : LinkedRoot) : LinkedHistory :=
  { history with
    entries := { root with pChildren := prev.pChildren } :: history.entries }

def pushBack (owner : Address) (lifetime : NamespaceLifetime) : LinkedHistory :=
  let newRoot : LinkedRoot := ⟨history.id, owner, lifetime, .none, history.next⟩
  match history.entries.head? with
  | none => history.allocate newRoot []
  | some prev =>
    if newRoot.canExtend prev then
      history.share { newRoot with namespaceAlias := prev.namespaceAlias } prev
    else history.allocate newRoot []

def popBack : LinkedHistory :=
  { history with entries := history.entries.tail }

def changeBack (change : Children → Children) : LinkedHistory :=
  match history.entries with
  | [] => history
  | back :: _ =>
    { history with
      heap := Function.update history.heap back.pChildren (change (history.heap back.pChildren)) }

def setAlias (id : NamespaceId) (namespaceAlias : NamespaceAlias) : LinkedHistory :=
  match history.entries with
  | [] => history
  | back :: older =>
    if back.id = id then { history with entries := { back with namespaceAlias } :: older }
    else history.changeBack (·.setAlias id namespaceAlias)

def prune (height : Height) : LinkedHistory :=
  { history with
    entries := history.entries.filter fun root => decide (height < root.lifetime.endHeight) }

/-- Copies an entry behind its predecessors, with a copy of its children unless it extends the
newest of them. -/
def copyRoot (heap : Nat → Children) (root : LinkedRoot) (copied : LinkedHistory) : LinkedHistory :=
  match copied.entries.head? with
  | none => copied.allocate root (heap root.pChildren)
  | some prev =>
    if root.canExtend prev then copied.share root prev
    else copied.allocate root (heap root.pChildren)

def copy : LinkedHistory :=
  history.entries.foldr (copyRoot history.heap) (create history.id)

/-- Neighbours point to the same children exactly where the newer one extends the older one, and
pointers are handed out in order. -/
structure Linked (history : LinkedHistory) : Prop where
  chain : history.entries.IsChain fun newer older =>
    newer.canExtend older ↔ newer.pChildren = older.pChildren
  descend : history.entries.Pairwise fun newer older => older.pChildren ≤ newer.pChildren
  allocated : ∀ root ∈ history.entries, root.pChildren < history.next

section Entries
variable {history : LinkedHistory} {heap : Nat → Children} {back root : LinkedRoot}
  {older : List LinkedRoot} {id : NamespaceId}

theorem exists_entry {newest : RootNamespace} {others : List RootNamespace}
    (same : history.view = ⟨id, newest :: others⟩) :
    ∃ entry rest, history.entries = entry :: rest ∧ entry.resolve history.heap = newest ∧
      rest.map (resolve history.heap) = others :=
  map_eq_cons_iff.mp (RootNamespaceHistory.mk.inj same).2

theorem linked_create (id : NamespaceId) : (create id).Linked where
  chain := isChain_nil
  descend := List.Pairwise.nil
  allocated := by simp [create]

variable {entries : List LinkedRoot}

private theorem map_resolve_update {pointer : Nat}
    (apart : ∀ root ∈ entries, root.pChildren ≠ pointer) (children : Children) :
    entries.map (resolve (Function.update heap pointer children)) =
      entries.map (resolve heap) := by
  refine map_congr_left fun root mem => ?_
  rw [resolve, Function.update_of_ne (apart root mem), ← resolve]

section
variable (linked : history.Linked)
include linked

private theorem Linked.view_allocate (root : LinkedRoot) (children : Children) :
    (history.allocate root children).view = ⟨history.id,
      ⟨root.id, root.ownerAddress, root.lifetime, root.namespaceAlias, children⟩ ::
        history.view.roots⟩ := by
  rw [view, allocate, map_cons, map_resolve_update fun root mem =>
    (linked.allocated root mem).ne, resolve]
  simp [view]

private theorem Linked.allocate
    (apart : ∀ prev ∈ history.entries.head?, ¬root.canExtend prev) (children : Children) :
    (history.allocate root children).Linked where
  chain := by
    refine linked.chain.cons fun prev newest => ?_
    have old := linked.allocated prev (mem_of_mem_head? newest)
    refine iff_of_false (apart prev newest) fun same => ?_
    exact absurd (same ▸ old) (lt_irrefl _)
  descend := pairwise_cons.mpr
    ⟨fun prev mem => (linked.allocated prev mem).le, linked.descend⟩
  allocated := forall_mem_cons.mpr ⟨Nat.lt_succ_self _, fun prev mem =>
    Nat.lt_succ_of_lt (linked.allocated prev mem)⟩

private theorem Linked.share {prev : LinkedRoot}
    (newest : history.entries.head? = some prev) (continues : root.canExtend prev) :
    (history.share root prev).Linked where
  chain := by
    refine linked.chain.cons fun other head => ?_
    cases newest.symm.trans head
    exact iff_of_true continues rfl
  descend := by
    obtain ⟨older, entries⟩ := head?_eq_some_iff.mp newest
    refine pairwise_cons.mpr ⟨fun other mem => ?_, linked.descend⟩
    have descend := linked.descend
    rw [entries] at mem descend
    rcases mem_cons.mp mem with rfl | later
    · exact le_rfl
    · exact rel_of_pairwise_cons descend later
  allocated := forall_mem_cons.mpr
    ⟨linked.allocated prev (mem_of_mem_head? newest), linked.allocated⟩

theorem Linked.pushBack (owner : Address)
    (lifetime : NamespaceLifetime) : (history.pushBack owner lifetime).Linked := by
  rw [LinkedHistory.pushBack]
  split
  · next empty =>
    refine linked.allocate (fun prev newest => ?_) _
    rw [empty] at newest
    cases newest
  · next prev newest =>
    split
    · next continues => exact linked.share newest continues
    · next apart =>
      refine linked.allocate (fun other head => ?_) _
      cases newest.symm.trans head
      exact apart

theorem Linked.view_pushBack (owner : Address) (lifetime : NamespaceLifetime) :
    (history.pushBack owner lifetime).view = history.view.pushBack owner lifetime := by
  obtain ⟨id, entries, heap, next⟩ := history
  cases entries with
  | nil => exact linked.view_allocate _ _
  | cons prev older =>
    let newRoot : LinkedRoot := ⟨id, owner, lifetime, .none, next⟩
    have sameExtend : (RootNamespace.create id owner lifetime).canExtend
      (prev.resolve heap) = newRoot.canExtend prev := rfl
    by_cases continues : newRoot.canExtend prev
    · have shared : (LinkedHistory.mk id (prev :: older) heap next).pushBack owner lifetime =
          LinkedHistory.share _ { newRoot with namespaceAlias := prev.namespaceAlias }
            prev := if_pos continues
      rw [shared]
      exact (pushBack_extends (sameExtend.trans continues)).symm
    · have allocated : (LinkedHistory.mk id (prev :: older) heap next).pushBack owner lifetime =
          LinkedHistory.allocate _ newRoot [] := if_neg continues
      rw [allocated, linked.view_allocate]
      refine (pushBack_replaces ?_).symm
      rw [sameExtend]
      exact continues

private theorem Linked.of_isPrefix
    (isPrefix : entries <+: history.entries) : Linked { history with entries } where
  chain := List.IsChain.prefix linked.chain isPrefix
  descend := linked.descend.sublist isPrefix.sublist
  allocated root mem := linked.allocated root (isPrefix.subset mem)

theorem Linked.popBack : history.popBack.Linked where
  chain := linked.chain.tail
  descend := linked.descend.tail
  allocated root mem := linked.allocated root (mem_of_mem_tail mem)

end

theorem view_popBack (history : LinkedHistory) :
    history.popBack.view = ⟨history.id, history.view.roots.tail⟩ := by
  rw [view, popBack, map_tail]
  rfl

theorem Linked.changeBack (linked : history.Linked) (change : Children → Children) :
    (history.changeBack change).Linked := by
  rw [LinkedHistory.changeBack]
  split
  · exact linked
  · exact ⟨linked.chain, linked.descend, linked.allocated⟩

private theorem map_resolve_changeBack (change : Children → Children)
    (chain : (back :: older).IsChain fun newer older =>
      newer.canExtend older ↔ newer.pChildren = older.pChildren)
    (descend : (back :: older).Pairwise fun newer older => older.pChildren ≤ newer.pChildren) :
    (back :: older).map (resolve
        (Function.update heap back.pChildren (change (heap back.pChildren)))) =
      changeSharedChildren change
        ((back :: older).map (resolve heap)) := by
  induction older generalizing back with
  | nil => simp [changeSharedChildren_cons, resolve]
  | cons prev older ih =>
    obtain ⟨same, chainOlder⟩ := isChain_cons_cons.mp chain
    rw [map_cons]
    conv_rhs => rw [map_cons, changeSharedChildren_cons]
    have here : back.resolve (Function.update heap back.pChildren
        (change (heap back.pChildren))) =
        { back.resolve heap with children := change (heap back.pChildren) } := by
      simp [resolve]
    rw [here]
    congr 1
    by_cases continues : back.canExtend prev
    · rw [if_pos (by simpa using continues), ← ih chainOlder descend.tail, same.mp continues]
    · -- older pointers are smaller than the one behind which the children change
      rw [if_neg (by simpa using continues)]
      refine map_resolve_update (fun root mem => ?_) _
      have smaller : prev.pChildren < back.pChildren :=
        lt_of_le_of_ne (rel_of_pairwise_cons descend mem_cons_self)
          fun equal => continues (same.mpr equal.symm)
      rcases mem_cons.mp mem with rfl | later
      · exact smaller.ne
      · exact ((rel_of_pairwise_cons descend.tail later).trans_lt smaller).ne

theorem Linked.view_changeBack (linked : history.Linked) (change : Children → Children) :
    (history.changeBack change).view =
      ⟨history.id, changeSharedChildren change history.view.roots⟩ := by
  obtain ⟨id, entries, heap, next⟩ := history
  cases entries with
  | nil => rfl
  | cons back older =>
    exact congrArg (RootNamespaceHistory.mk id)
      (map_resolve_changeBack change linked.chain linked.descend)

theorem Linked.setAlias (linked : history.Linked) (id : NamespaceId)
    (namespaceAlias : NamespaceAlias) : (history.setAlias id namespaceAlias).Linked := by
  obtain ⟨rootId, entries, heap, next⟩ := history
  cases entries with
  | nil => exact linked
  | cons back older =>
    rw [LinkedHistory.setAlias]
    dsimp only
    split
    · refine ⟨linked.chain.tail.cons fun prev newest => linked.chain.rel_head? newest, ?_, ?_⟩
      · exact pairwise_cons.mpr ⟨fun other mem =>
          rel_of_pairwise_cons linked.descend mem, linked.descend.tail⟩
      · exact forall_mem_cons.mpr (forall_mem_cons.mp linked.allocated)
    · exact linked.changeBack _

theorem view_prune (history : LinkedHistory) (height : Height) :
    (history.prune height).view = (history.view.prune height).1 := by
  refine congrArg (RootNamespaceHistory.mk history.id) ?_
  rw [view, filter_map]
  rfl

theorem Linked.prune (linked : history.Linked)
    (descend : RootNamespaceHistory.EndsDescend history.view.roots) (height : Height) :
    (history.prune height).Linked := by
  refine linked.of_isPrefix (filter_isPrefix ?_)
  rw [view, RootNamespaceHistory.EndsDescend, pairwise_map] at descend
  refine descend.imp fun {newer older} ends later => ?_
  rw [decide_eq_true_iff] at later ⊢
  exact Nat.lt_of_lt_of_le later ends

private theorem copyRoot_spec {copied : LinkedHistory} (linked : copied.Linked)
    (same : copied.view = ⟨id, older.map (resolve heap)⟩)
    (chain : (root :: older).IsChain fun newer older =>
      newer.canExtend older ↔ newer.pChildren = older.pChildren) :
    (copyRoot heap root copied).Linked ∧ (copyRoot heap root copied).view =
      ⟨id, (root :: older).map (resolve heap)⟩ := by
  obtain ⟨copiedId, entries, sets, next⟩ := copied
  obtain ⟨rfl, sameRoots⟩ := RootNamespaceHistory.mk.inj same
  have sameExtend : ∀ {prev first : LinkedRoot}, prev.resolve sets = first.resolve heap →
        root.canExtend prev = root.canExtend first := fun {prev first} equal => by
    rw [← LinkedRoot.canExtend_resolve sets, equal]
    rfl
  cases entries with
  | nil =>
    obtain rfl : older = [] := map_eq_nil_iff.mp sameRoots.symm
    exact ⟨linked.allocate (by simp) _, linked.view_allocate _ _⟩
  | cons prev rest =>
    cases older with
    | nil => cases sameRoots
    | cons first earlier =>
      obtain ⟨sameHead, sameRest⟩ := cons.inj sameRoots
      by_cases continues : root.canExtend prev
      · have shared : copyRoot heap root ⟨copiedId, prev :: rest, sets, next⟩ =
            LinkedHistory.share _ root prev := if_pos continues
        rw [shared]
        refine ⟨linked.share rfl continues, ?_⟩
        have samePointer : root.pChildren = first.pChildren :=
          chain.rel.mp (sameExtend sameHead ▸ continues)
        have sameChildren : sets prev.pChildren = heap root.pChildren := by
          rw [samePointer]
          exact congrArg RootNamespace.children sameHead
        refine congrArg (RootNamespaceHistory.mk copiedId) (congrArg₂ cons ?_ sameRoots)
        exact congrArg (RootNamespace.mk _ _ _ _) sameChildren
      · have allocated : copyRoot heap root ⟨copiedId, prev :: rest, sets, next⟩ =
            LinkedHistory.allocate _ root (heap root.pChildren) := if_neg continues
        rw [allocated, linked.view_allocate]
        refine ⟨linked.allocate (by simpa using continues) _, ?_⟩
        exact congrArg (RootNamespaceHistory.mk copiedId) (congrArg (cons _) sameRoots)

theorem Linked.copy (linked : history.Linked) :
    history.copy.Linked ∧ history.copy.view = history.view := by
  obtain ⟨id, entries, heap, next⟩ := history
  have chain := linked.chain
  change (entries.foldr (copyRoot heap) (create id)).Linked ∧
    (entries.foldr (copyRoot heap) (create id)).view = ⟨id, entries.map (resolve heap)⟩
  clear linked
  induction entries with
  | nil => exact ⟨linked_create id, rfl⟩
  | cons root older ih =>
    obtain ⟨linkedOlder, sameOlder⟩ := ih chain.tail
    exact copyRoot_spec linkedOlder sameOlder chain

/-- Two entries point to the same children exactly if every entry from the newer to the older one
extends its predecessor. -/
def ExactlyShared (history : LinkedHistory) : Prop :=
  ∀ newer between older, newer :: between ++ [older] <:+: history.entries →
    (newer.pChildren = older.pChildren ↔
      (newer :: between ++ [older]).IsChain fun next prev => next.canExtend prev)

private theorem samePointer_iff {newer last : LinkedRoot} {between : List LinkedRoot}
    (chain : (newer :: between ++ [last]).IsChain fun newer older =>
      newer.canExtend older ↔ newer.pChildren = older.pChildren)
    (descend : (newer :: between ++ [last]).Pairwise fun newer older =>
      older.pChildren ≤ newer.pChildren) :
    newer.pChildren = last.pChildren ↔
      (newer :: between ++ [last]).IsChain fun next prev => next.canExtend prev := by
  induction between generalizing newer with
  | nil => simpa using (isChain_pair.mp chain).symm
  | cons next rest ih =>
    have step := chain.rel
    have below := ih chain.tail descend.tail
    have first : next.pChildren ≤ newer.pChildren := rel_of_pairwise_cons descend mem_cons_self
    have lower : last.pChildren ≤ next.pChildren := rel_of_pairwise_cons descend.tail (by simp)
    rw [cons_append, cons_append, isChain_cons_cons, step, ← cons_append, ← below]
    omega

theorem Linked.exactlyShared (linked : history.Linked) : history.ExactlyShared :=
  fun _ _ _ inside =>
    have chain := List.IsChain.infix linked.chain inside
    samePointer_iff chain (linked.descend.sublist inside.sublist)

end Entries

end LinkedHistory

end BitxorCore.Namespaces
