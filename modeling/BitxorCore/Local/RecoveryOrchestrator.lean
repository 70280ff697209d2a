/- GID: Local/RecoveryOrchestrator
   anchors: [src/bitxorcore/local/recovery, src/bitxorcore/observers, src/bitxorcore/chain]
   digest: Reapplied blocks keep the state where notifications can be undone in either order. -/

import BitxorCore.Multisig.MultisigValidators

set_option autoImplicit false
set_option relaxedAutoImplicit false

namespace BitxorCore.Local
open Cache Chain Library.FiniteMap Library.PartialAction Multisig State

structure BlockStatistic where
  height : Nat
  timestamp : Nat
  difficulty : Nat
  feeMultiplier : Nat
  deriving DecidableEq

def BlockStatistic.ofHeight (height : Nat) : BlockStatistic := ⟨height, 0, 0, 0⟩

/-- The block statistic cache, by height, and the caches beside it. -/
structure RecoveryCaches (D : Type) where
  blockStatistics : Map Nat BlockStatistic
  otherCaches : D

instance {D : Type} [DecidableEq D] : DecidableEq (RecoveryCaches D) := fun lhs rhs =>
  decidable_of_iff (lhs.blockStatistics = rhs.blockStatistics ∧ lhs.otherCaches = rhs.otherCaches)
    (by cases lhs; cases rhs; simp)

variable {D N E : Type}

/-- Fills the statistics up to a height from the closest one below. Heights are searched
downwards and wrap at zero, so a search in an empty cache never ends. -/
def fillBlockStatisticCache (blockStatistics : Map Nat BlockStatistic) (newHeight : Nat) :
    Option (Map Nat BlockStatistic) :=
  match (List.range (newHeight + 1)).reverse.find? (· ∈ blockStatistics) with
  | some originalHeight => some <|
    (List.range' (originalHeight + 1) (newHeight - originalHeight)).foldl
      (fun delta height => delta.insert height (.ofHeight height)) blockStatistics
  | none => if blockStatistics = ∅ then none else some blockStatistics

/-- Rolls back the stored blocks from a height on and executes them again, both through the
adapter that observes notifications in the order they are published. The block at height `h` is
at position `h - 1` of the storage. -/
def reapplyBlocks (observer : NotificationObserver (RecoveryCaches D) N)
    (publisher : NotificationPublisher N E) (blockStorage : List (BlockElement E))
    (startHeight : Nat) : Action (ObserverState (RecoveryCaches D)) := fun state => do
  let chainHeight := blockStorage.length
  let blockStatistics ← fillBlockStatisticCache state.otherCaches.blockStatistics chainHeight
  let filled := { state with otherCaches := { state.otherCaches with blockStatistics } }
  let entityObserver := notificationObserverAdapter observer publisher
  let blockElements := blockStorage.drop (startHeight - 1)
  let rolledBack ← run (blockElements.reverse.map (rollbackBlock entityObserver)) filled
  run (blockElements.map (executeBlock entityObserver)) rolledBack

private theorem fillBlockStatisticCache_of_mem {blockStatistics : Map Nat BlockStatistic}
    {newHeight : Nat} (present : newHeight ∈ blockStatistics) :
    fillBlockStatisticCache blockStatistics newHeight = some blockStatistics := by
  unfold fillBlockStatisticCache
  rw [List.range_succ, List.reverse_append, List.reverse_singleton, List.singleton_append,
    List.find?_cons_of_pos (by simpa using present)]
  simp

section Reapply
variable (observer : NotificationObserver (RecoveryCaches D) N)
  (publisher : NotificationPublisher N E)

/-- Each block can be rolled back to the state before it by undoing the notifications of every
entity in exact reverse order. -/
def UndoneInReverse : List (BlockElement E) → ObserverState (RecoveryCaches D) → Prop :=
  UndoneAlong (executeBlock (notificationObserverAdapter observer publisher))
    (rollbackBlock (reverseNotificationObserverAdapter observer publisher))

/-- Committed from the last to the first notification of every entity, each notification of the
block is undone by its rollback. No account removal is queued before the block. -/
def UndoneFromLast (blockElement : BlockElement E) (before : ObserverState (RecoveryCaches D)) :
    Prop :=
  before.accountStateCache.NoneQueued ∧
    Along (reverseNotificationObserverAdapter observer publisher .commit blockElement.height)
      (fun entity => UndoneAlong (observer .commit blockElement.height)
        (observer .rollback blockElement.height) (publisher.observed entity).reverse)
      blockElement.extractEntityInfos before

/-- The blocks lead to the same state when the notifications of every entity are committed from the
last to the first. -/
def SameFromLast (suffix : List (BlockElement E)) (before after : ObserverState (RecoveryCaches D)) :
    Prop :=
  run (suffix.map (executeBlock (reverseNotificationObserverAdapter observer publisher))) before =
    some after

variable {observer publisher} {blockElements suffix : List (BlockElement E)}
  {before after : ObserverState (RecoveryCaches D)}

private theorem rollbackBlock_of_undoneFromLast {blockElement : BlockElement E}
    (undone : UndoneFromLast observer publisher blockElement before)
    (executed : executeBlock (reverseNotificationObserverAdapter observer publisher) blockElement
      before = some after) :
    rollbackBlock (notificationObserverAdapter observer publisher) blockElement after =
      some before := by
  obtain ⟨noneQueued, along⟩ := undone
  have entities : UndoneAlong _ (notificationObserverAdapter observer publisher .rollback
      blockElement.height) blockElement.extractEntityInfos before :=
    undoneAlong_of_along (fun entity before next notices done => by
      have back := run_reverse_of_undoneAlong notices done
      rwa [List.reverse_reverse] at back) along
  unfold rollbackBlock observeAll
  rw [run_reverse_of_undoneAlong entities executed, Option.map_some,
    commitRemovals_eq_self noneQueued]

private theorem reapplyBlocks_eq
    (recorded : (blockElements ++ suffix).length ∈ after.otherCaches.blockStatistics) :
    reapplyBlocks observer publisher (blockElements ++ suffix) (blockElements.length + 1) after =
      (run (suffix.reverse.map (rollbackBlock (notificationObserverAdapter observer publisher)))
        after).bind (run (suffix.map
          (executeBlock (notificationObserverAdapter observer publisher)))) := by
  dsimp only [reapplyBlocks]
  rw [fillBlockStatisticCache_of_mem recorded]
  simp only [Nat.add_sub_cancel, List.drop_left, Option.bind_eq_bind, Option.bind_some]

end Reapply

section Invertible
variable (observers : List (NotificationObserver (RecoveryCaches D) N))

/-- Each observer's commit of a notification leads back to where its rollback succeeds. -/
def EachRedoes : Prop :=
  ∀ observer ∈ observers, ∀ height notice,
    Undoes (observer .rollback height notice) (observer .commit height notice)

def Quiet (state : ObserverState (RecoveryCaches D)) : Prop :=
  state.accountStateCache.NoneQueued

/-- No observer queues the removal of an account. -/
def EachQuiet : Prop :=
  ∀ observer ∈ observers, ∀ mode height notice, Preserves Quiet (observer mode height notice)

variable {observers} {publisher : NotificationPublisher N E}
  {before after : ObserverState (RecoveryCaches D)}

private theorem adapter_undoes_reverse (undoing : EachUndoes observers) (height : Nat)
    (entity : E) : Undoes
      (reverseNotificationObserverAdapter (aggregateNotificationObserver observers) publisher
        .commit height entity)
      (notificationObserverAdapter (aggregateNotificationObserver observers) publisher
        .rollback height entity) := by
  have undoes := Undoes.run fun notice (_ : notice ∈ (publisher.observed entity).reverse) =>
    aggregate_undoes undoing height notice
  rwa [List.reverse_reverse] at undoes

private theorem reverse_redoes_adapter (redoing : EachRedoes observers) (height : Nat)
    (entity : E) : Undoes
      (notificationObserverAdapter (aggregateNotificationObserver observers) publisher
        .rollback height entity)
      (reverseNotificationObserverAdapter (aggregateNotificationObserver observers) publisher
        .commit height entity) := by
  refine Undoes.run fun notice _ => ?_
  have redoes := Undoes.run fun observer (mem : observer ∈ observers.reverse) =>
    redoing observer (List.mem_reverse.mp mem) height notice
  rwa [List.reverse_reverse] at redoes

private theorem preserves_notices (quiet : EachQuiet observers) (mode : NotifyMode) (height : Nat)
    (notices : List N) : Preserves Quiet
      (run (notices.map (aggregateNotificationObserver observers mode height))) :=
  .run fun notice _ => .run fun observer mem =>
    quiet observer (by cases mode <;> simpa using mem) mode height notice

section
variable {adapter : EntityObserver (RecoveryCaches D) E}
  (keeps : ∀ mode height entity, Preserves Quiet (adapter mode height entity))
include keeps

private theorem preserves_entities (mode : NotifyMode) (height : Nat) (entities : List E) :
    Preserves Quiet (observeAll adapter mode height entities) :=
  .run fun entity _ => keeps mode height entity

/-- Blocks whose entities are undone one by one are undone in a state without queued removals. -/
private theorem undoneAlong_blocks {rollback : EntityObserver (RecoveryCaches D) E}
    (undoes : ∀ height entity, Undoes (adapter .commit height entity)
      (rollback .rollback height entity)) (suffix : List (BlockElement E))
    (noneQueued : Quiet before) :
    UndoneAlong (executeBlock adapter) (rollbackBlock rollback) suffix before := by
  refine undoneAlong_of_invariant (P := Quiet)
    (fun blockElement _ before next holds executed => ⟨?_, ?_⟩) noneQueued
  · rw [rollbackBlock_of_undoes blockElement (fun entity _ => undoes _ entity) executed,
      commitRemovals_eq_self holds]
  · exact preserves_entities keeps _ _ _ _ _ holds executed

private theorem redoneAlong_blocks {execute : EntityObserver (RecoveryCaches D) E}
    (redoes : ∀ height entity, Undoes (adapter .rollback height entity)
      (execute .commit height entity)) (suffix : List (BlockElement E))
    (noneQueued : Quiet after) :
    UndoneAlong (rollbackBlock adapter) (executeBlock execute) suffix after := by
  refine undoneAlong_of_invariant (P := Quiet)
    (fun blockElement _ after before holds rolledBack => ?_) noneQueued
  obtain ⟨middle, observed, rfl⟩ := Option.map_eq_some_iff.mp rolledBack
  have middleNoneQueued := preserves_entities keeps _ _ _ _ _ holds observed
  rw [commitRemovals_eq_self middleNoneQueued]
  have redone := Undoes.run (fun entity _ => redoes _ entity) after middle observed
  rw [List.reverse_reverse] at redone
  exact ⟨redone, middleNoneQueued⟩

end

private theorem preserves_rollbackBlock (adapter : EntityObserver (RecoveryCaches D) E)
    (blockElement : BlockElement E) : Preserves Quiet (rollbackBlock adapter blockElement) := by
  intro after before _ rolledBack
  obtain ⟨middle, -, rfl⟩ := Option.map_eq_some_iff.mp rolledBack
  exact ⟨rfl, rfl⟩

end Invertible

/-- Reapplying any stored suffix succeeds and keeps the state, if committing the notifications of
every entity from the last to the first leads to that state too and each of them is undone there.
For observers whose commits and rollbacks undo each other it does so only then. -/
theorem reapplyBlocks_keeps_state {observers : List (NotificationObserver (RecoveryCaches D) N)}
    {publisher : NotificationPublisher N E} (blockElements suffix : List (BlockElement E))
    (before after : ObserverState (RecoveryCaches D)) (executed : run (suffix.map (executeBlock
      (notificationObserverAdapter (aggregateNotificationObserver observers) publisher))) before =
        some after)
    (recorded : (blockElements ++ suffix).length ∈ after.otherCaches.blockStatistics) :
    let observer := aggregateNotificationObserver observers
    let reapplied :=
      reapplyBlocks observer publisher (blockElements ++ suffix) (blockElements.length + 1) after
    (SameFromLast observer publisher suffix before after →
      Along (executeBlock (reverseNotificationObserverAdapter observer publisher))
        (UndoneFromLast observer publisher) suffix before → reapplied = some after) ∧
    (EachUndoes observers → EachRedoes observers → EachQuiet observers →
      before.accountStateCache.NoneQueued →
      (reapplied = some after ↔ SameFromLast observer publisher suffix before after)) := by
  intro observer reapplied
  have keeps_of_back (back : run (suffix.reverse.map (rollbackBlock
      (notificationObserverAdapter observer publisher))) after = some before) :
      reapplied = some after := by
    rw [show reapplied = _ from reapplyBlocks_eq recorded, back, Option.bind_some, executed]
  refine ⟨fun same undone => keeps_of_back ?_, fun undoing redoing quiet noneQueued => ?_⟩
  · refine run_reverse_of_undoneAlong (undoneAlong_of_along ?_ undone) same
    exact fun _ _ _ => rollbackBlock_of_undoneFromLast
  have keeps : ∀ mode height entity, Preserves Quiet
      (notificationObserverAdapter observer publisher mode height entity) :=
    fun mode height _ => preserves_notices quiet mode height _
  have keepsReversed : ∀ mode height entity, Preserves Quiet
      (reverseNotificationObserverAdapter observer publisher mode height entity) :=
    fun mode height _ => preserves_notices quiet mode height _
  constructor
  · intro kept
    rw [show reapplied = _ from reapplyBlocks_eq recorded] at kept
    obtain ⟨middle, back, again⟩ := Option.bind_eq_some_iff.mp kept
    -- executions are undone in reverse, so only one state leads to the last one
    have undone (start : ObserverState (RecoveryCaches D))
        (startNoneQueued : Quiet start)
        (leads : run (suffix.map (executeBlock (notificationObserverAdapter observer publisher)))
          start = some after) :=
      run_reverse_of_undoneAlong (undoneAlong_blocks keeps
        (reverseAdapter_undoes undoing publisher) suffix startNoneQueued) leads
    have afterNoneQueued : Quiet after :=
      Preserves.run (fun _ _ => preserves_entities keeps _ _ _) _ _ noneQueued executed
    have middleNoneQueued : Quiet middle :=
      Preserves.run (fun _ _ => preserves_rollbackBlock _ _) _ _ afterNoneQueued back
    obtain rfl : middle = before := Option.some.inj
      ((undone middle middleNoneQueued again).symm.trans (undone before noneQueued executed))
    have redone := run_reverse_of_undoneAlong (redoneAlong_blocks keeps
      (reverse_redoes_adapter redoing) suffix.reverse afterNoneQueued) back
    rwa [List.reverse_reverse] at redone
  · intro same
    exact keeps_of_back (run_reverse_of_undoneAlong (undoneAlong_blocks keepsReversed
      (adapter_undoes_reverse undoing) suffix noneQueued) same)

section Example

/-- The multisig observers, acting on a multisig cache kept beside the other caches. -/
def recoveryMultisigObserver : NotificationObserver (RecoveryCaches MultisigCache)
    (ModificationNotification Address) := fun mode _ notice state => do
  let multisigCache ← observeNotification id mode notice state.otherCaches.otherCaches
  return { state with otherCaches.otherCaches := multisigCache }

/-- An entity publishes the notifications of the modifications it embeds. -/
def recoveryMultisigPublisher :
    NotificationPublisher (ModificationNotification Address) (List (SignedModification Address)) where
  publish := List.flatMap SignedModification.publish
  isSetObserver
    | .newCosignatory _ _ => false
    | _ => true

def recoveryState {D : Type} (otherCaches : D) : ObserverState (RecoveryCaches D) where
  accountStateCache := .empty
  otherCaches.blockStatistics :=
    ((∅ : Map Nat BlockStatistic).insert 1 (.ofHeight 1)).insert 2 (.ofHeight 2)
  otherCaches.otherCaches := otherCaches

/-- A block with one transaction. -/
def recoveryBlock {A : Type} (height : Nat) (transaction : List A) : BlockElement (List A) :=
  ⟨height, [], [transaction]⟩

/-- Account 1 adds a cosignatory and asks for one more approval. -/
def addition (cosignatory : Address) : SignedModification Address :=
  ⟨1, 1, 1, [cosignatory], [], Nat.one_lt_two_pow (by decide), Nat.two_pow_pos 8⟩

/-- Account 1 with cosignatories, and each cosignatory's own entry. -/
def multisigOf (cosignatories : Finset Address) (approvals : BitVec 32)
    (addresses : List Address) : MultisigCache :=
  addresses.foldl (fun delta address => delta.insert address ⟨∅, 0, 0, {1}⟩)
    ((∅ : MultisigCache).insert 1 ⟨cosignatories, approvals, approvals, ∅⟩)

/-- Changes the sign of a number, or adds to it. -/
def flippingObserver : NotificationObserver (RecoveryCaches ℤ) ℤ := fun mode _ notice state =>
  let value := state.otherCaches.otherCaches
  some { state with otherCaches.otherCaches :=
    if notice = 0 then -value
    else match mode with
      | .commit => value + notice
      | .rollback => value - notice }

private theorem flipping_undoes (mode other : NotifyMode) (different : mode ≠ other) (height : Nat)
    (notice : ℤ) :
    Undoes (flippingObserver mode height notice) (flippingObserver other height notice) := by
  rintro before after done
  cases done
  by_cases flips : notice = 0
  · simp [flippingObserver, flips]
  · cases mode <;> cases other <;> first | exact absurd rfl different | simp [flippingObserver, flips]

/-- A cosignatory is added to an account that has one. A number is changed by two notifications of
one transaction whose order matters. -/
theorem reapplyBlocks_keeps_state_examples :
    reapplyBlocks (aggregateNotificationObserver [recoveryMultisigObserver])
        recoveryMultisigPublisher [recoveryBlock 1 [], recoveryBlock 2 [addition 3]] 2
        (recoveryState (multisigOf {3, 2} 2 [2, 3])) =
      some (recoveryState (multisigOf {3, 2} 2 [2, 3])) ∧
    reapplyBlocks (aggregateNotificationObserver [flippingObserver]) ⟨id, fun _ => true⟩
        [recoveryBlock 1 [], recoveryBlock 2 [1, 0]] 2 (recoveryState (-1)) ≠
      some (recoveryState (-1)) := by
  constructor
  · refine (reapplyBlocks_keeps_state [recoveryBlock 1 []] [recoveryBlock 2 [addition 3]]
      (recoveryState (multisigOf {2} 1 [2])) (recoveryState (multisigOf {3, 2} 2 [2, 3]))
      (by decide +kernel) (by decide +kernel)).1 (by unfold SameFromLast; decide +kernel) ?_
    refine ⟨⟨⟨rfl, rfl⟩, ?_, fun _ _ => ⟨trivial, fun _ _ => trivial⟩⟩, fun _ _ => trivial⟩
    intro settled done
    cases done
    refine ⟨by decide +kernel, fun added done => ?_⟩
    cases done
    exact ⟨by decide +kernel, trivial⟩
  · refine fun kept => absurd ((reapplyBlocks_keeps_state [recoveryBlock 1 []]
      [recoveryBlock 2 [1, 0]] (recoveryState 0) (recoveryState (-1)) (by decide +kernel)
      (by decide +kernel)).2 ?_ ?_ ?_ ⟨rfl, rfl⟩ |>.mp kept)
      (by unfold SameFromLast; decide +kernel)
    · intro observer mem
      cases List.mem_singleton.mp mem
      exact flipping_undoes .commit .rollback (by decide)
    · intro observer mem
      cases List.mem_singleton.mp mem
      exact flipping_undoes .rollback .commit (by decide)
    · rintro observer mem mode height notice before after noneQueued done
      cases List.mem_singleton.mp mem
      cases done
      exact noneQueued

/-- An account made a multisig account of one cosignatory needs one approval; after its block is
reapplied it needs none, although undoing in reverse leads back to the state before. -/
theorem reapplyBlocks_loses_min_approval :
    let blocks := [recoveryBlock 1 [], recoveryBlock 2 [addition 2]]
    let observer := aggregateNotificationObserver [recoveryMultisigObserver]
    let execute := executeBlock (notificationObserverAdapter observer recoveryMultisigPublisher)
    run (blocks.map execute) (recoveryState ∅) = some (recoveryState (multisigOf {2} 1 [2])) ∧
    UndoneInReverse observer recoveryMultisigPublisher blocks (recoveryState ∅) ∧
    reapplyBlocks observer recoveryMultisigPublisher blocks 2
        (recoveryState (multisigOf {2} 1 [2])) =
      some (recoveryState (multisigOf {2} 0 [2])) ∧
    recoveryState (multisigOf {2} 0 [2]) ≠ recoveryState (multisigOf {2} 1 [2]) := by
  refine ⟨by decide +kernel, fun first executedFirst => ?_, by decide +kernel, by decide +kernel⟩
  cases executedFirst
  refine ⟨by decide +kernel, fun second executedSecond => ?_⟩
  cases executedSecond
  exact ⟨by decide +kernel, trivial⟩

end Example

end BitxorCore.Local
