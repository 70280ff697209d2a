/- GID: Library/Halting
   anchors: []
   digest: Runs of a step function that reach a final state, or never do. -/

import Mathlib.Logic.Function.Iterate
import Mathlib.Order.Basic

set_option autoImplicit false
set_option relaxedAutoImplicit false

namespace BitxorCore.Library.Halting

variable {σ : Type} {step : σ → σ} {final : σ → Prop}

/-- The run from `start` reaches a final state. -/
def Halts (step : σ → σ) (final : σ → Prop) (start : σ) : Prop := ∃ n, final (step^[n] start)

variable {start : σ}

theorem Halts.here (finished : final start) : Halts step final start := ⟨0, finished⟩

theorem Halts.later (rest : Halts step final (step start)) : Halts step final start := by
  obtain ⟨n, finished⟩ := rest
  exact ⟨n + 1, finished⟩

theorem halts_step_iff (running : ¬final start) :
    Halts step final (step start) ↔ Halts step final start := by
  refine ⟨Halts.later, ?_⟩
  rintro ⟨n, finished⟩
  cases n with
  | zero => exact absurd finished running
  | succ n => exact ⟨n, finished⟩

theorem halts_of_rank (region : σ → Prop) (rank : σ → ℕ) (advance : ∀ state, region state →
      Halts step final (step state) ∨ region (step state) ∧ rank (step state) < rank state)
    (inside : region start) : Halts step final start := by
  induction bound : rank start using Nat.strongRecOn generalizing start with
  | ind value ih =>
    subst bound
    obtain halts | ⟨again, lower⟩ := advance start inside
    · exact halts.later
    · exact (ih _ lower again rfl).later

theorem not_halts_of_trap (region : σ → Prop)
    (trapped : ∀ state, region state → ¬final state ∧ region (step state))
    (inside : region start) : ¬Halts step final start := by
  rintro ⟨n, finished⟩
  have still : region (step^[n] start) := by
    induction n generalizing start with
    | zero => exact inside
    | succ n ih => exact ih (trapped start inside).2 finished
  exact (trapped _ still).1 finished

end BitxorCore.Library.Halting
