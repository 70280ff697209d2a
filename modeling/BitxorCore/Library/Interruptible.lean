/- GID: Library/Interruptible
   anchors: []
   digest: Programs that may be stopped after any of their actions. -/

import Mathlib.Data.List.Basic

set_option autoImplicit false
set_option relaxedAutoImplicit false

namespace BitxorCore.Library.Interruptible
open List

variable {S : Type}

/-- A program, given by the states it passes through: one after each atomic action. -/
def Program (S : Type) : Type := S → List S

namespace Program

def skip : Program S := fun _ => []

def action (f : S → S) : Program S := fun s => [f s]

def final (p : Program S) (s : S) : S := (p s).getLastD s

def seq (p q : Program S) : Program S := fun s => p s ++ q (p.final s)

def branch (f : S → Program S) : Program S := fun s => f s s

/-- The state after some actions; the last one if there are fewer. -/
def interrupted (p : Program S) (s : S) (count : ℕ) : S := ((p s).take count).getLastD s

variable {p q : Program S} {s : S} {count : ℕ}

theorem final_seq : (seq p q).final s = q.final (p.final s) := by
  change (p s ++ q (p.final s)).getLastD s = (q (p.final s)).getLastD (p.final s)
  rw [getLastD_eq_getLast?, getLastD_eq_getLast?, getLast?_append]
  cases (q (p.final s)).getLast? with
  | none => exact (getLastD_eq_getLast? ..).symm
  | some t => rfl

theorem interrupted_mem (p : Program S) (s : S) (count : ℕ) : p.interrupted s count ∈ s :: p s := by
  unfold interrupted
  rw [getLastD_eq_getLast?]
  cases found : ((p s).take count).getLast? with
  | none => exact mem_cons_self
  | some t =>
    exact mem_cons_of_mem s (mem_of_mem_take (mem_of_getLast? found))

/-- From a state the program ends where `post` holds, and `always` holds wherever it stops. -/
structure Meets (p : Program S) (s : S) (post always : S → Prop) : Prop where
  ends : post (p.final s)
  throughout : ∀ t ∈ s :: p s, always t

variable {post always mid : S → Prop}

theorem Meets.interrupted (meets : Meets p s post always) (count : ℕ) :
    always (p.interrupted s count) :=
  meets.throughout _ (interrupted_mem p s count)

theorem meets_skip (ends : post s) (here : always s) : Meets skip s post always :=
  ⟨ends, fun t mem => by
    rw [mem_singleton.mp mem]
    exact here⟩

theorem meets_action {f : S → S} (ends : post (f s)) (here : always s) (after : always (f s)) :
    Meets (action f) s post always :=
  ⟨ends, fun t mem => by
    obtain rfl | mem := mem_cons.mp mem
    · exact here
    · rw [mem_singleton.mp mem]
      exact after⟩

theorem Meets.seq (first : Meets p s mid always) (second : ∀ t, mid t → Meets q t post always) :
    Meets (seq p q) s post always := by
  have later := second _ first.ends
  refine ⟨final_seq ▸ later.ends, fun t mem => ?_⟩
  obtain rfl | mem := mem_cons.mp mem
  · exact first.throughout _ mem_cons_self
  · obtain early | late := mem_append.mp mem
    · exact first.throughout t (mem_cons_of_mem s early)
    · exact later.throughout t (mem_cons_of_mem _ late)

theorem meets_branch {f : S → Program S} (chosen : Meets (f s) s post always) :
    Meets (branch f) s post always :=
  ⟨chosen.ends, chosen.throughout⟩

theorem Meets.mono {post' always' : S → Prop} (meets : Meets p s post always)
    (ends : ∀ t, post t → post' t) (throughout : ∀ t, always t → always' t) :
    Meets p s post' always' :=
  ⟨ends _ meets.ends, fun t mem => throughout t (meets.throughout t mem)⟩

end Program

end BitxorCore.Library.Interruptible
