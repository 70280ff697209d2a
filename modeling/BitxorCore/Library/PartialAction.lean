/- GID: Library/PartialAction
   anchors: []
   digest: Actions that may fail, their sequences, and sequences undone backwards. -/

import Mathlib.Data.List.Basic

set_option autoImplicit false
set_option relaxedAutoImplicit false

namespace BitxorCore.Library.PartialAction

/-- A change of state that may fail; `none` is the failure. -/
abbrev Action (S : Type) := S → Option S

variable {S A : Type}

/-- Performs actions one after another and stops at the first failure. -/
def run : List (Action S) → Action S
  | [] => some
  | action :: rest => fun state => (action state).bind (run rest)

@[simp]
theorem run_nil (state : S) : run [] state = some state := rfl

theorem run_cons (action : Action S) (rest : List (Action S)) (state : S) :
    run (action :: rest) state = (action state).bind (run rest) := rfl

theorem run_append (first second : List (Action S)) (state : S) :
    run (first ++ second) state = (run first state).bind (run second) := by
  induction first generalizing state with
  | nil => rfl
  | cons action rest ih =>
    rw [List.cons_append, run_cons, run_cons]
    cases action state with
    | none => rfl
    | some next => exact ih next

@[simp]
theorem run_singleton (action : Action S) (state : S) : run [action] state = action state := by
  rw [run_cons]
  cases action state <;> rfl

variable {before after : S}

theorem run_cons_eq_some {action : Action S} {rest : List (Action S)} :
    run (action :: rest) before = some after ↔
      ∃ next, action before = some next ∧ run rest next = some after := by
  rw [run_cons, Option.bind_eq_some_iff]

theorem run_append_eq_some {first second : List (Action S)} :
    run (first ++ second) before = some after ↔
      ∃ middle, run first before = some middle ∧ run second middle = some after := by
  rw [run_append, Option.bind_eq_some_iff]

theorem foldlM_flatMap_preserves {B : Type} {P : S → Prop} {step : S → A → Option S}
    {expand : B → List A} {items : List B}
    (each : ∀ item ∈ items, ∀ s t, P s → (expand item).foldlM step s = some t → P t)
    (holds : P before) (done : (items.flatMap expand).foldlM step before = some after) :
    P after := by
  induction items generalizing before with
  | nil =>
    cases done
    exact holds
  | cons item rest ih =>
    rw [List.flatMap_cons, List.foldlM_append] at done
    obtain ⟨next, first, last⟩ := Option.bind_eq_some_iff.mp done
    exact ih (fun other mem => each other (List.mem_cons_of_mem _ mem))
      (each item List.mem_cons_self before next holds first) last

/-- The second action leads back to every state the first one can be performed in. -/
def Undoes (forward backward : Action S) : Prop :=
  ∀ before after, forward before = some after → backward after = some before

/-- Items whose actions have each been undone from the state they led to. -/
def UndoneAlong (forward backward : A → Action S) : List A → S → Prop
  | [], _ => True
  | item :: rest, before => ∀ next, forward item before = some next →
      backward item next = some before ∧ UndoneAlong forward backward rest next

variable {items : List A} {forward backward : A → Action S}

theorem undoneAlong_of_invariant {P : S → Prop} (each : ∀ item ∈ items, ∀ before next, P before →
      forward item before = some next → backward item next = some before ∧ P next)
    (start : P before) : UndoneAlong forward backward items before := by
  induction items generalizing before with
  | nil => trivial
  | cons item rest ih =>
    intro next first
    obtain ⟨back, holds⟩ := each item List.mem_cons_self before next start first
    exact ⟨back, ih (fun other mem => each other (List.mem_cons_of_mem _ mem)) holds⟩

theorem undoneAlong_of_undoes
    (each : ∀ item ∈ items, Undoes (forward item) (backward item)) (before : S) :
    UndoneAlong forward backward items before :=
  undoneAlong_of_invariant (P := fun _ => True)
    (fun item mem before next _ done => ⟨each item mem before next done, trivial⟩) trivial

/-- A property of every item in the state it is performed in. -/
def Along (forward : A → Action S) (holds : A → S → Prop) : List A → S → Prop
  | [], _ => True
  | item :: rest, before => holds item before ∧
      ∀ next, forward item before = some next → Along forward holds rest next

theorem undoneAlong_of_along {holds : A → S → Prop} (each : ∀ item before next, holds item before →
      forward item before = some next → backward item next = some before)
    (along : Along forward holds items before) : UndoneAlong forward backward items before := by
  induction items generalizing before with
  | nil => trivial
  | cons item rest ih =>
    intro next first
    exact ⟨each item before next along.1 first, ih (along.2 next first)⟩

theorem run_reverse_of_undoneAlong (undone : UndoneAlong forward backward items before)
    (done : run (items.map forward) before = some after) :
    run (items.reverse.map backward) after = some before := by
  induction items generalizing before with
  | nil =>
    cases done
    rfl
  | cons item rest ih =>
    obtain ⟨next, first, last⟩ := run_cons_eq_some.mp done
    obtain ⟨back, later⟩ := undone next first
    rw [List.reverse_cons, List.map_append, run_append, ih later last]
    simpa using back

/-- Every successful run of the action keeps the property. -/
def Preserves (P : S → Prop) (action : Action S) : Prop :=
  ∀ before after, P before → action before = some after → P after

theorem Preserves.run {P : S → Prop} (each : ∀ item ∈ items, Preserves P (forward item)) :
    Preserves P (run (items.map forward)) := by
  intro before after holds done
  induction items generalizing before with
  | nil =>
    cases done
    exact holds
  | cons item rest ih =>
    obtain ⟨next, first, last⟩ := run_cons_eq_some.mp done
    exact ih (fun other mem => each other (List.mem_cons_of_mem _ mem)) next
      (each item List.mem_cons_self before next holds first) last

theorem Undoes.run (each : ∀ item ∈ items, Undoes (forward item) (backward item)) :
    Undoes (run (items.map forward)) (run (items.reverse.map backward)) :=
  fun before _ done => run_reverse_of_undoneAlong (undoneAlong_of_undoes each before) done

end BitxorCore.Library.PartialAction
