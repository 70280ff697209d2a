/- GID: Chain/ChainSynchronizer
   anchors: [src/bitxorcore/chain/ChainSynchronizer.cpp]
   digest: After a failed range all is drained first, unless a later range completes normally. -/

import BitxorCore.Disruptor.ConsumerDispatcher

set_option autoImplicit false
set_option relaxedAutoImplicit false

namespace BitxorCore.Chain
open Disruptors

/-- A range that the consumer has taken, or refused with id zero. Ranges are not empty. -/
structure ElementInfo where
  id : ℕ
  endHeight : ℕ
  numBytes : ℕ
  numBytes_pos : 0 < numBytes

structure UnprocessedElements where
  elements : List ElementInfo := []
  numBytes : ℕ := 0
  hasPendingSync : Bool := false
  dirty : Bool := false

namespace UnprocessedElements
variable (maxSize : ℕ) (s : UnprocessedElements)

def hasPendingOperation : Bool := s.numBytes != 0 || s.hasPendingSync

def shouldStartSync : Bool × UnprocessedElements :=
  if maxSize ≤ s.numBytes ∨ s.hasPendingSync ∨ s.dirty then (false, s)
  else (true, { s with hasPendingSync := true })

def add (info : ElementInfo) : Bool × UnprocessedElements :=
  if s.dirty then (false, s)
  -- the disruptor did not accept the data
  else if info.id = 0 then (false, s)
  else (true, { s with elements := s.elements ++ [info], numBytes := s.numBytes + info.numBytes })

/-- Throws unless the front element has completed. -/
def remove (id : ℕ) (status : CompletionStatus) : Option UnprocessedElements :=
  match s.elements with
  | [] => none
  | info :: rest =>
    if info.id ≠ id then none
    else
      let removed := { s with elements := rest, numBytes := s.numBytes - info.numBytes }
      some { removed with dirty := removed.hasPendingOperation && decide (status ≠ .normal) }

def clearPendingSync : UnprocessedElements :=
  let cleared := { s with hasPendingSync := false }
  if cleared.dirty then { cleared with dirty := cleared.hasPendingOperation } else cleared

end UnprocessedElements

open UnprocessedElements (add clearPendingSync remove shouldStartSync)

inductive SyncAction where
  | shouldStartSync
  | add (info : ElementInfo)
  | remove (id : ℕ) (status : CompletionStatus)
  | clearPendingSync

/-- The unprocessed elements, and how many syncs were started and have not ended. -/
structure SyncState extends UnprocessedElements where
  pendingSyncs : ℕ := 0

namespace SyncState
variable {maxSize : ℕ} {x y z : SyncState} {action : SyncAction} {actions : List SyncAction}

def perform (maxSize : ℕ) (x : SyncState) : SyncAction → Option SyncState
  | .shouldStartSync =>
    let (starts, next) := x.toUnprocessedElements.shouldStartSync maxSize
    some ⟨next, if starts then x.pendingSyncs + 1 else x.pendingSyncs⟩
  | .add info => some ⟨(x.toUnprocessedElements.add info).2, x.pendingSyncs⟩
  | .remove id status => (x.toUnprocessedElements.remove id status).map (⟨·, x.pendingSyncs⟩)
  | .clearPendingSync => some ⟨x.toUnprocessedElements.clearPendingSync, x.pendingSyncs - 1⟩

def run (maxSize : ℕ) : List SyncAction → SyncState → Option SyncState
  | [], x => some x
  | action :: rest, x => (x.perform maxSize action).bind (run maxSize rest)

/-- The bytes are those of the queued ranges, and the flag tells the one pending sync. -/
structure Counted (x : SyncState) : Prop where
  numBytes : x.numBytes = (x.elements.map (·.numBytes)).sum
  pendingSyncs : x.pendingSyncs = if x.hasPendingSync then 1 else 0

/-- A range that completes normally while others have to be drained is the last pending one. -/
def StepSafe (x : SyncState) : SyncAction → Prop
  | .remove _ status => x.dirty → status = .normal → x.elements.length = 1 ∧ ¬x.hasPendingSync
  | _ => True

def SafeAlong (maxSize : ℕ) : List SyncAction → SyncState → Prop
  | [], _ => True
  | action :: rest, x => x.StepSafe action ∧
    ∀ y, x.perform maxSize action = some y → SafeAlong maxSize rest y

def SyncAction.isRemove : SyncAction → Bool
  | .remove _ _ => true
  | _ => false

def SyncAction.isClear : SyncAction → Bool
  | .clearPendingSync => true
  | _ => false

/-- After the actions, a range that was queued before has not completed, or the sync that was
pending has not ended. -/
def Undrained (x : SyncState) (actions : List SyncAction) : Prop :=
  actions.countP SyncAction.isRemove < x.elements.length ∨
    x.hasPendingSync ∧ ¬actions.any SyncAction.isClear

private theorem remove_eq_some {id : ℕ} {status : CompletionStatus}
    (done : x.perform maxSize (.remove id status) = some y) :
    ∃ info rest, x.elements = info :: rest ∧ y.elements = rest ∧
      y.numBytes = x.numBytes - info.numBytes ∧ y.hasPendingSync = x.hasPendingSync ∧
      y.pendingSyncs = x.pendingSyncs ∧
      y.dirty = (y.hasPendingOperation && decide (status ≠ .normal)) := by
  obtain ⟨next, removed, rfl⟩ := Option.map_eq_some_iff.mp done
  unfold remove at removed
  split at removed
  · cases removed
  · rename_i info rest queued
    split at removed
    · cases removed
    · cases removed
      exact ⟨info, rest, queued, rfl, rfl, rfl, rfl, rfl⟩

private theorem Counted.perform (counted : x.Counted) (done : x.perform maxSize action = some y) :
    y.Counted := by
  obtain ⟨bytes, syncs⟩ := counted
  cases action with
  | shouldStartSync =>
    simp only [SyncState.perform, shouldStartSync] at done
    split at done
    · cases done
      exact ⟨bytes, syncs⟩
    · cases done
      exact ⟨bytes, by simp_all⟩
  | add info =>
    simp only [SyncState.perform, add] at done
    split_ifs at done
    · cases done
      exact ⟨bytes, syncs⟩
    · cases done
      exact ⟨bytes, syncs⟩
    · cases done
      exact ⟨by simp [bytes], syncs⟩
  | remove id status =>
    obtain ⟨info, rest, queued, left, less, same, sameSyncs, -⟩ := remove_eq_some done
    rw [queued, List.map_cons, List.sum_cons] at bytes
    exact ⟨by rw [less, bytes, left, Nat.add_sub_cancel_left], by rw [same, sameSyncs, syncs]⟩
  | clearPendingSync =>
    have ended : x.pendingSyncs - 1 = 0 := by
      rw [syncs]
      split <;> rfl
    cases done
    dsimp only [clearPendingSync]
    split_ifs
    · exact ⟨bytes, ended⟩
    · exact ⟨bytes, ended⟩

private theorem Counted.run (counted : x.Counted) (done : run maxSize actions x = some y) :
    y.Counted := by
  induction actions generalizing x with
  | nil =>
    cases done
    exact counted
  | cons action rest ih =>
    obtain ⟨next, first, later⟩ := Option.bind_eq_some_iff.mp done
    exact ih (counted.perform first) later

private theorem Counted.hasPendingOperation (counted : x.Counted) (undrained : x.Undrained actions) :
    x.hasPendingOperation := by
  rcases undrained with queued | pending
  · cases shape : x.elements with
    | nil => simp [shape] at queued
    | cons info rest =>
      have positive := info.numBytes_pos
      have bytes := counted.numBytes
      rw [shape, List.map_cons, List.sum_cons] at bytes
      simp [UnprocessedElements.hasPendingOperation]
      omega
  · simp [UnprocessedElements.hasPendingOperation, pending.1]

private theorem Undrained.step (undrained : x.Undrained (action :: actions)) (dirty : x.dirty)
    (counted : x.Counted) (safe : x.StepSafe action) (done : x.perform maxSize action = some y) :
    y.Undrained actions ∧ y.dirty := by
  have countedNext := counted.perform done
  cases action with
  | shouldStartSync =>
    simp only [SyncState.perform, shouldStartSync, dirty, or_true,
      if_true] at done
    cases done
    exact ⟨undrained, dirty⟩
  | add info =>
    simp only [SyncState.perform, add, dirty, if_true] at done
    cases done
    exact ⟨undrained, dirty⟩
  | remove id status =>
    obtain ⟨info, rest, queued, left, -, same, -, flag⟩ := remove_eq_some done
    have next : y.Undrained actions := by
      rcases undrained with more | ⟨syncing, unended⟩
      · rw [queued, List.countP_cons_of_pos rfl, List.length_cons] at more
        exact .inl (left ▸ Nat.lt_of_succ_lt_succ more)
      · exact .inr ⟨same ▸ syncing, by simpa [SyncAction.isClear] using unended⟩
    have pending := countedNext.hasPendingOperation next
    refine ⟨next, ?_⟩
    have failed : status ≠ .normal := by
      intro normal
      obtain ⟨only, none⟩ := safe dirty normal
      rw [queued, List.length_cons] at only
      rcases next with more | ⟨syncing, -⟩
      · rw [left] at more
        omega
      · exact none (same ▸ syncing)
    simp [flag, pending, failed]
  | clearPendingSync =>
    have next : y.Undrained actions := by
      cases done
      refine .inl ?_
      unfold clearPendingSync
      simpa [Undrained, SyncAction.isRemove, SyncAction.isClear, dirty] using undrained
    have pending := countedNext.hasPendingOperation next
    refine ⟨next, ?_⟩
    cases done
    simp only [clearPendingSync, dirty, if_true] at pending ⊢
    exact pending

private theorem dirty_of_undrained (undrained : x.Undrained actions) (dirty : x.dirty)
    (counted : x.Counted) (safe : SafeAlong maxSize actions x)
    (done : run maxSize actions x = some y) : y.dirty := by
  induction actions generalizing x with
  | nil =>
    cases done
    exact dirty
  | cons action rest ih =>
    obtain ⟨next, first, later⟩ := Option.bind_eq_some_iff.mp done
    obtain ⟨stillUndrained, stillDirty⟩ := undrained.step dirty counted safe.1 first
    exact ih stillUndrained stillDirty (counted.perform first) (safe.2 next first) later

/-- In every run bytes and pending syncs are counted. From a completion that failed on, no range
is accepted and no sync starts until all that was pending is drained, if no range completes
normally before the last pending one. -/
theorem unprocessedElements_drained {before : List SyncAction}
    (reached : run maxSize before {} = some x) :
    x.numBytes = (x.elements.map (·.numBytes)).sum ∧ x.pendingSyncs ≤ 1 ∧
    ∀ id status y actions z, status ≠ .normal → x.perform maxSize (.remove id status) = some y →
      SafeAlong maxSize actions y → run maxSize actions y = some z → y.Undrained actions →
      (z.shouldStartSync maxSize).1 = false ∧ ∀ info, (z.add info).1 = false := by
  have counted : x.Counted := Counted.run ⟨rfl, rfl⟩ reached
  refine ⟨counted.numBytes, ?_, ?_⟩
  · rw [counted.pendingSyncs]
    split <;> omega
  · intro id status y actions z failed removed safe done undrained
    have countedNext := counted.perform removed
    obtain ⟨-, -, -, -, -, -, -, flag⟩ := remove_eq_some removed
    have pending := countedNext.hasPendingOperation undrained
    have dirty := dirty_of_undrained undrained (by simp [flag, pending, failed]) countedNext safe done
    simp [UnprocessedElements.shouldStartSync, UnprocessedElements.add, dirty]

def tenBytes (id : ℕ) : ElementInfo := ⟨id, id, 10, by decide⟩

theorem unprocessedElements_drained_two :
    ∃ y z, run 100 [.add (tenBytes 1), .add (tenBytes 2), .shouldStartSync,
        .remove 1 .aborted] {} = some y ∧
      run 100 [.clearPendingSync] y = some z ∧ (z.shouldStartSync 100).1 = false :=
  ⟨_, _, rfl, rfl, ((@unprocessedElements_drained 100 _
    [.add (tenBytes 1), .add (tenBytes 2), .shouldStartSync] rfl).2.2 1 .aborted _
    [.clearPendingSync] _ (by decide) rfl ⟨trivial, fun _ _ => trivial⟩ rfl
    (.inl (by decide))).1⟩

/-- The second range completes normally after the first has failed: a sync starts and a range is
accepted although the third range, queued all the time, has not completed. -/
theorem unprocessedElements_not_drained :
    ∃ y z, run 100 [.add (tenBytes 1), .add (tenBytes 2), .add (tenBytes 3), .remove 1 .aborted] {} =
        some y ∧ run 100 [.remove 2 .normal] y = some z ∧ y.Undrained [.remove 2 .normal] ∧
      (z.shouldStartSync 100).1 = true ∧ (z.add (tenBytes 4)).1 = true :=
  ⟨_, _, rfl, rfl, .inl (by decide), rfl, rfl⟩

end SyncState
end BitxorCore.Chain
