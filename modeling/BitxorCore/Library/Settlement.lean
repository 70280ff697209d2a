/- GID: Library/Settlement
   anchors: []
   digest: Obligations created by events are settled by the first later event that settles them. -/

import Mathlib.Data.List.Perm.Basic
import Mathlib.Data.List.Perm.Lattice

set_option autoImplicit false
set_option relaxedAutoImplicit false

namespace BitxorCore.Library.Settlement
open List

variable {L E R : Type}

/-- How events create obligations and settle them with a result. -/
structure Rules (L E R : Type) where
  created : E → Option L
  settles : L → E → Option R

variable (rules : Rules L E R)

def outcome (obligation : L) : List E → Option R
  | [] => none
  | event :: rest => (rules.settles obligation event).or (outcome obligation rest)

/-- One result for each obligation that is settled after the event that created it. -/
def due : List E → List R
  | [] => []
  | event :: rest =>
    ((rules.created event).bind (outcome rules · rest)).toList ++ due rest

/-- The obligations still open, and the results of those that were settled. -/
structure Ledger (L R : Type) where
  pending : List L
  settled : List R

def Ledger.empty : Ledger L R := ⟨[], []⟩

def Ledger.step (ledger : Ledger L R) (event : E) : Ledger L R where
  pending := ledger.pending.filter (fun obligation => (rules.settles obligation event).isNone) ++
    (rules.created event).toList
  settled := ledger.settled ++ ledger.pending.filterMap (rules.settles · event)

def Ledger.run (ledger : Ledger L R) (events : List E) : Ledger L R :=
  events.foldl (Ledger.step rules) ledger

variable (ledger : Ledger L R)

theorem Ledger.run_append (first second : List E) :
    ledger.run rules (first ++ second) = (ledger.run rules first).run rules second :=
  foldl_append

private theorem filterMap_outcome_cons (pending : List L) (event : E) (rest : List E) :
    (pending.filterMap (rules.settles · event) ++
      (pending.filter fun obligation => (rules.settles obligation event).isNone).filterMap
        (outcome rules · rest)).Perm
      (pending.filterMap (outcome rules · (event :: rest))) := by
  induction pending with
  | nil => exact .refl _
  | cons obligation pending ih =>
    cases settled : rules.settles obligation event with
    | some result =>
      simp only [filterMap_cons, filter_cons, settled, outcome, Option.some_or,
        Option.isNone_some, Bool.false_eq_true, if_false, cons_append]
      exact ih.cons result
    | none =>
      simp only [filterMap_cons, filter_cons, settled, outcome, Option.none_or,
        Option.isNone_none, if_true]
      cases outcome rules obligation rest with
      | none => exact ih
      | some result => exact perm_middle.trans (ih.cons result)

theorem Ledger.settled_run_perm (events : List E) :
    (ledger.run rules events).settled.Perm
      (ledger.settled ++ ledger.pending.filterMap (outcome rules · events) ++ due rules events) := by
  induction events generalizing ledger with
  | nil => simp [Ledger.run, outcome, due]
  | cons event rest ih =>
    refine (ih (ledger.step rules event)).trans ?_
    have split := filterMap_outcome_cons rules ledger.pending event rest
    have created : ((rules.created event).toList.filterMap (outcome rules · rest)) =
        ((rules.created event).bind (outcome rules · rest)).toList := by
      cases rules.created event with
      | none => rfl
      | some obligation => cases found : outcome rules obligation rest <;> simp [found]
    simp only [Ledger.step, filterMap_append, created, due, append_assoc]
    refine List.Perm.append_left _ ?_
    rw [← append_assoc]
    exact split.append_right _

theorem settled_perm_due (events : List E) :
    (Ledger.empty.run rules events).settled.Perm (due rules events) := by
  simpa [Ledger.empty] using Ledger.empty.settled_run_perm rules events

theorem Ledger.mem_pending_run {ledger : Ledger L R} {obligation : L} {events : List E}
    (openBefore : obligation ∈ ledger.pending)
    (unsettled : outcome rules obligation events = none) :
    obligation ∈ (ledger.run rules events).pending := by
  induction events generalizing ledger with
  | nil => exact openBefore
  | cons event rest ih =>
    obtain ⟨now, later⟩ := Option.or_eq_none_iff.mp unsettled
    refine ih ?_ later
    simp [Ledger.step, openBefore, now]

theorem outcome_isSome_of_not_pending {before rest : List E} {event : E} {obligation : L}
    (made : rules.created event = some obligation)
    (closed : obligation ∉ (Ledger.empty.run rules (before ++ event :: rest)).pending) :
    (outcome rules obligation rest).isSome := by
  rw [Option.isSome_iff_ne_none]
  intro unsettled
  refine closed ?_
  rw [Ledger.run_append]
  change obligation ∈ (((Ledger.empty.run rules before).step rules event).run rules rest).pending
  refine Ledger.mem_pending_run rules ?_ unsettled
  simp [Ledger.step, made]

theorem filterMap_ite {A B : Type} (p : A → Prop) [DecidablePred p] (f : A → B) (list : List A) :
    list.filterMap (fun a => if p a then some (f a) else none) =
      (list.filter fun a => decide (p a)).map f := by
  induction list with
  | nil => rfl
  | cons a rest ih => by_cases holds : p a <;> simp [holds, ih]

theorem perm_of_filter_key {A K : Type} [DecidableEq A] [DecidableEq K] (key : A → K)
    {first second : List A}
    (each : ∀ k, (first.filter fun a => key a = k).Perm (second.filter fun a => key a = k)) :
    first.Perm second := by
  rw [perm_iff_count]
  intro a
  have same := (perm_iff_count.mp (each (key a))) a
  rwa [count_filter (by simp), count_filter (by simp)] at same

theorem filter_key_filterMap {A K : Type} [DecidableEq K] (key : A → K) {f : K → Option A}
    {entries : List K} (distinct : entries.Nodup)
    (keyed : ∀ k ∈ entries, ∀ a, f k = some a → key a = k) (k : K) :
    ((entries.filterMap f).filter fun a => key a = k) =
      if k ∈ entries then (f k).toList else [] := by
  induction entries with
  | nil => rfl
  | cons entry rest ih =>
    obtain ⟨fresh, distinct⟩ := nodup_cons.mp distinct
    have ih := ih distinct fun other mem => keyed other (mem_cons_of_mem _ mem)
    have keyedEntry := keyed entry mem_cons_self
    by_cases here : k = entry
    · subst here
      rw [if_neg fresh] at ih
      rw [if_pos mem_cons_self]
      cases found : f k with
      | none => rw [filterMap_cons_none found, ih]; rfl
      | some a =>
        rw [filterMap_cons_some found, filter_cons_of_pos (by simp [keyedEntry a found]), ih]
        rfl
    · simp only [mem_cons, here, false_or]
      rw [← ih]
      cases found : f entry with
      | none => rw [filterMap_cons_none found]
      | some a =>
        rw [filterMap_cons_some found, filter_cons_of_neg]
        simpa [keyedEntry a found] using Ne.symm here

end BitxorCore.Library.Settlement
