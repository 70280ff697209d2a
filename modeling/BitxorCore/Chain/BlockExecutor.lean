/- GID: Chain/BlockExecutor
   anchors: [src/bitxorcore/chain, src/bitxorcore/model, src/bitxorcore/observers]
   digest: Rolling a block back in reverse at every layer undoes its execution. -/

import BitxorCore.Cache.AccountStateCache
import BitxorCore.Library.PartialAction

set_option autoImplicit false
set_option relaxedAutoImplicit false

namespace BitxorCore.Chain
open Cache Library.PartialAction State

inductive NotifyMode where
  | commit
  | rollback
  deriving DecidableEq, Repr

/-- The state observers change: the account state cache and all other caches. -/
structure ObserverState (C : Type) where
  accountStateCache : AccountStateCacheDelta
  otherCaches : C

instance {C : Type} [DecidableEq C] : DecidableEq (ObserverState C) := fun lhs rhs =>
  decidable_of_iff
    (lhs.accountStateCache = rhs.accountStateCache ∧ lhs.otherCaches = rhs.otherCaches)
    (by cases lhs; cases rhs; simp)

variable {C N E : Type}

/-- An observer acts on one notification, at a height and in a mode, and may throw. -/
abbrev NotificationObserver (C N : Type) := NotifyMode → Nat → N → Action (ObserverState C)

abbrev EntityObserver (C E : Type) := NotifyMode → Nat → E → Action (ObserverState C)

variable (observers : List (NotificationObserver C N))

/-- The built aggregate notifies its observers in order, and backwards in rollback mode. -/
def aggregateNotificationObserver :
    NotificationObserver C N := fun mode height notice =>
  let ordered := match mode with
    | .commit => observers
    | .rollback => observers.reverse
  run (ordered.map fun observer => observer mode height notice)

/-- What an entity publishes, and which notifications are on the observer channel. -/
structure NotificationPublisher (N E : Type) where
  publish : E → List N
  isSetObserver : N → Bool

def NotificationPublisher.observed (publisher : NotificationPublisher N E) (entity : E) : List N :=
  (publisher.publish entity).filter publisher.isSetObserver

variable (observer : NotificationObserver C N)

/-- Observes the notifications of an entity in the order they are published. -/
def notificationObserverAdapter
    (publisher : NotificationPublisher N E) : EntityObserver C E := fun mode height entity =>
  run ((publisher.observed entity).map (observer mode height))

/-- Stores the notifications of an entity and observes them from the last to the first. -/
def reverseNotificationObserverAdapter
    (publisher : NotificationPublisher N E) : EntityObserver C E := fun mode height entity =>
  run ((publisher.observed entity).reverse.map (observer mode height))

structure BlockElement (E : Type) where
  height : Nat
  block : E
  transactions : List E

def BlockElement.extractEntityInfos (blockElement : BlockElement E) : List E :=
  blockElement.transactions ++ [blockElement.block]

def observeAll (observer : EntityObserver C E) (mode : NotifyMode) (height : Nat)
    (entityInfos : List E) : Action (ObserverState C) :=
  run (entityInfos.map (observer mode height))

def executeBlock (observer : EntityObserver C E) (blockElement : BlockElement E) :
    Action (ObserverState C) :=
  observeAll observer .commit blockElement.height blockElement.extractEntityInfos

def commitRemovals (state : ObserverState C) : ObserverState C :=
  { state with accountStateCache := state.accountStateCache.commitRemovals .linked }

def rollbackBlock (observer : EntityObserver C E) (blockElement : BlockElement E) :
    Action (ObserverState C) := fun state =>
  (observeAll observer .rollback blockElement.height blockElement.extractEntityInfos.reverse
    state).map commitRemovals

/-- Each observer's rollback of a notification undoes its commit, wherever that succeeds. -/
def EachUndoes : Prop :=
  ∀ observer ∈ observers, ∀ height notice,
    Undoes (observer .commit height notice) (observer .rollback height notice)

theorem rollbackBlock_of_undoes {execute rollback : EntityObserver C E}
    (blockElement : BlockElement E) (each : ∀ entity ∈ blockElement.extractEntityInfos, Undoes
      (execute .commit blockElement.height entity) (rollback .rollback blockElement.height entity))
    {before after : ObserverState C}
    (executed : executeBlock execute blockElement before = some after) :
    rollbackBlock rollback blockElement after = some (commitRemovals before) := by
  unfold rollbackBlock observeAll
  rw [Undoes.run each before after executed, Option.map_some]

section
variable {observers : List (NotificationObserver C N)} (undoing : EachUndoes observers)
include undoing

theorem aggregate_undoes (height : Nat) (notice : N) : Undoes
    (aggregateNotificationObserver observers .commit height notice)
    (aggregateNotificationObserver observers .rollback height notice) :=
  Undoes.run fun observer mem => undoing observer mem height notice

variable (publisher : NotificationPublisher N E)

theorem reverseAdapter_undoes (height : Nat) (entity : E) : Undoes
      (notificationObserverAdapter (aggregateNotificationObserver observers) publisher
        .commit height entity)
      (reverseNotificationObserverAdapter (aggregateNotificationObserver observers) publisher
        .rollback height entity) :=
  Undoes.run fun notice _ => aggregate_undoes undoing height notice

/-- A block rolled back leaves the state before it, with the removals queued there committed. -/
private theorem rollbackBlock_executeBlock
    (blockElement : BlockElement E) {before after : ObserverState C} (executed : executeBlock
      (notificationObserverAdapter (aggregateNotificationObserver observers) publisher)
      blockElement before = some after) :
    rollbackBlock
        (reverseNotificationObserverAdapter (aggregateNotificationObserver observers) publisher)
        blockElement after =
      some (commitRemovals before) :=
  rollbackBlock_of_undoes blockElement
    (fun entity _ => reverseAdapter_undoes undoing publisher _ entity) executed

end

theorem commitRemovals_eq_self {state : ObserverState C}
    (noneQueued : state.accountStateCache.NoneQueued) : commitRemovals state = state := by
  unfold commitRemovals
  rw [(state.accountStateCache.commitRemovals_eq_self_iff .linked).mpr noneQueued]

/-- No account removal is queued in the state any block of the chain starts from. -/
def NoneQueuedAlong (observer : EntityObserver C E) : List (BlockElement E) → ObserverState C → Prop
  | [], _ => True
  | blockElement :: rest, state => state.accountStateCache.NoneQueued ∧
      ∀ next, executeBlock observer blockElement state = some next →
        NoneQueuedAlong observer rest next

private theorem undoneAlong_of_noneQueuedAlong {observers : List (NotificationObserver C N)}
    (undoing : EachUndoes observers) (publisher : NotificationPublisher N E)
    {chain : List (BlockElement E)} {before : ObserverState C} (noneQueued : NoneQueuedAlong
      (notificationObserverAdapter (aggregateNotificationObserver observers) publisher)
      chain before) :
    UndoneAlong
      (executeBlock
        (notificationObserverAdapter (aggregateNotificationObserver observers) publisher))
      (rollbackBlock
        (reverseNotificationObserverAdapter (aggregateNotificationObserver observers) publisher))
      chain before := by
  induction chain generalizing before with
  | nil => trivial
  | cons blockElement rest ih =>
    intro next executed
    refine ⟨?_, ih (noneQueued.2 next executed)⟩
    rw [rollbackBlock_executeBlock undoing publisher blockElement executed,
      commitRemovals_eq_self noneQueued.1]

/-- Executing a block and rolling it back is the identity on a state without queued account
removals, and so is executing a chain and rolling it back from its newest block. -/
theorem rollback_undoes_execution {observers : List (NotificationObserver C N)}
    (undoing : EachUndoes observers) (publisher : NotificationPublisher N E) :
    let observer := aggregateNotificationObserver observers
    let execute := executeBlock (notificationObserverAdapter observer publisher)
    let rollback := rollbackBlock (reverseNotificationObserverAdapter observer publisher)
    (∀ blockElement before after, before.accountStateCache.NoneQueued →
      execute blockElement before = some after → rollback blockElement after = some before) ∧
    ∀ chain before after,
      NoneQueuedAlong (notificationObserverAdapter observer publisher) chain before →
      run (chain.map execute) before = some after →
      run (chain.reverse.map rollback) after = some before := by
  intro observer execute rollback
  constructor
  · intro blockElement before after noneQueued executed
    have undone := rollbackBlock_executeBlock undoing publisher blockElement executed
    rwa [commitRemovals_eq_self noneQueued] at undone
  · intro chain before after noneQueued executed
    exact run_reverse_of_undoneAlong
      (undoneAlong_of_noneQueuedAlong undoing publisher noneQueued) executed

def counterObserver : NotificationObserver Nat Nat := fun mode _ notice state =>
  match mode with
  | .commit => some { state with otherCaches := state.otherCaches + notice }
  | .rollback =>
    if state.otherCaches < notice then none
    else some { state with otherCaches := state.otherCaches - notice }

/-- Doubles that counter on odd notifications, which does not commute with adding to it. -/
def doublingObserver : NotificationObserver Nat Nat := fun mode _ notice state =>
  if notice % 2 = 0 then some state
  else match mode with
    | .commit => some { state with otherCaches := 2 * state.otherCaches }
    | .rollback =>
      if state.otherCaches % 2 = 0 then
        some { state with otherCaches := state.otherCaches / 2 }
      else none

private theorem counters_undo : EachUndoes [counterObserver, doublingObserver] := by
  intro observer mem height notice before after done
  simp only [List.mem_cons, List.not_mem_nil, or_false] at mem
  rcases mem with rfl | rfl
  · cases done
    simp [counterObserver]
  · unfold doublingObserver at done ⊢
    split at done
    · cases done
      simp [*]
    · cases done
      simp [*]

theorem rollback_undoes_execution_of_counters :
    let publisher : NotificationPublisher Nat (List Nat) := ⟨id, fun n => n ≠ 4⟩
    let observer := aggregateNotificationObserver [counterObserver, doublingObserver]
    let rollback := rollbackBlock (reverseNotificationObserverAdapter observer publisher)
    let first : BlockElement (List Nat) := ⟨1, [7], [[1, 2], [4, 3]]⟩
    let second : BlockElement (List Nat) := ⟨2, [5, 6], [[2, 9]]⟩
    run ([second, first].map rollback) ⟨.empty, 260⟩ = some ⟨.empty, 1⟩ := by
  intro publisher observer rollback first second
  refine (rollback_undoes_execution counters_undo publisher).2 [first, second]
    ⟨.empty, 1⟩ ⟨.empty, 260⟩ ?_ rfl
  refine ⟨⟨rfl, rfl⟩, fun next executed => ?_⟩
  cases executed
  exact ⟨⟨rfl, rfl⟩, fun _ _ => trivial⟩

/-- An account added at height 1, whose removal is still queued. -/
def queuedRemovalState : ObserverState Unit where
  accountStateCache := ⟨(∅ : Library.FiniteMap.Map Address AccountState).insert 7
    (.ofAddressHeight 1), ∅, [(1, 7)], []⟩
  otherCaches := ()

/-- Executing an empty block changes nothing, but rolling it back removes the account. -/
theorem rollback_removes_queued_account :
    let publisher : NotificationPublisher Unit Unit := ⟨fun _ => [], fun _ => true⟩
    let observer : NotificationObserver Unit Unit := aggregateNotificationObserver []
    let blockElement : BlockElement Unit := ⟨2, (), []⟩
    EachUndoes ([] : List (NotificationObserver Unit Unit)) ∧
    executeBlock (notificationObserverAdapter observer publisher) blockElement
      queuedRemovalState = some queuedRemovalState ∧
    rollbackBlock (reverseNotificationObserverAdapter observer publisher) blockElement
      queuedRemovalState ≠ some queuedRemovalState := by
  refine ⟨fun _ mem => absurd mem List.not_mem_nil, rfl, ?_⟩
  decide

end BitxorCore.Chain
