/- GID: Library/Fallible
   anchors: []
   digest: Programs that stop with an error where their state stands, and what they leave as it is. -/

import Mathlib.Logic.Basic

set_option autoImplicit false
set_option relaxedAutoImplicit false

namespace BitxorCore.Library

abbrev Fallible (E S A : Type) := ExceptT E (StateM S) A

namespace Fallible
variable {E S A B R : Type}

def throwIf (condition : Bool) (error : E) : Fallible E S Unit :=
  if condition then throw error else pure ()

def orThrow (error : E) : Option A → Fallible E S A
  | some value => pure value
  | none => throw error

variable {program : Fallible E S A} {next : A → Fallible E S B} {error : E} {before after : S}

theorem bind_eq (program : Fallible E S A) (next : A → Fallible E S B) (before : S) :
    (program >>= next) before = match program before with
      | (.ok value, middle) => next value middle
      | (.error error, middle) => (.error error, middle) := by
  change (match program before with | (result, middle) => ExceptT.bindCont next result middle) = _
  rcases program before with ⟨_ | _, _⟩ <;> rfl

theorem bind_eq_ok {result : B} : (program >>= next) before = (.ok result, after) ↔
    ∃ value middle, program before = (.ok value, middle) ∧
      next value middle = (.ok result, after) := by
  rw [bind_eq]
  rcases program before with ⟨_ | value, middle⟩
  · exact iff_of_false (fun same => nomatch same) fun ⟨_, _, same, _⟩ => nomatch same
  · exact ⟨fun done => ⟨value, middle, rfl, done⟩, by rintro ⟨_, _, ⟨⟩, done⟩; exact done⟩

theorem throwIf_eq_ok {condition : Bool} {value : Unit} :
    throwIf condition error before = (.ok value, after) ↔ condition = false ∧ before = after := by
  cases condition with
  | true => exact iff_of_false (fun same => nomatch congrArg Prod.fst same) (by simp)
  | false => exact ⟨fun same => ⟨rfl, congrArg Prod.snd same⟩, fun same => by rw [same.2]; rfl⟩

theorem throwIf_bind_eq_ok {condition : Bool} {next : Unit → Fallible E S B} {result : B} :
    (throwIf condition error >>= next) before = (.ok result, after) ↔
      condition = false ∧ next () before = (.ok result, after) := by
  rw [bind_eq_ok]
  constructor
  · rintro ⟨_, _, passed, done⟩
    obtain ⟨holds, rfl⟩ := throwIf_eq_ok.mp passed
    exact ⟨holds, done⟩
  · rintro ⟨rfl, done⟩
    exact ⟨(), before, rfl, done⟩

theorem orThrow_bind_eq_ok {found : Option A} {result : B} :
    (orThrow error found >>= next) before = (.ok result, after) ↔
      ∃ value, found = some value ∧ next value before = (.ok result, after) := by
  rw [bind_eq_ok]
  cases found with
  | none => exact iff_of_false (fun ⟨_, _, same, _⟩ => nomatch same) fun ⟨_, same, _⟩ => nomatch same
  | some held =>
    constructor
    · rintro ⟨_, _, ⟨⟩, done⟩
      exact ⟨held, rfl, done⟩
    · rintro ⟨_, ⟨⟩, done⟩
      exact ⟨held, before, rfl, done⟩

/-- A part of the state is the same after the program, whether it stops or not. -/
def Keeps (part : S → R) (program : Fallible E S A) : Prop :=
  ∀ before, part (program before).2 = part before

variable {part : S → R}

theorem keeps_throwIf (condition : Bool) (error : E) : Keeps part (throwIf condition error) := by
  cases condition <;> exact fun _ => rfl

theorem keeps_orThrow (error : E) (found : Option A) : Keeps part (orThrow error found) := by
  cases found <;> exact fun _ => rfl

theorem keeps_get : Keeps part (get : Fallible E S S) := fun _ => rfl

theorem keeps_modify {change : S → S} (same : ∀ state, part (change state) = part state) :
    Keeps part (modify change : Fallible E S Unit) :=
  same

theorem Keeps.bind (first : Keeps part program) (second : ∀ value, Keeps part (next value)) :
    Keeps part (program >>= next) := by
  intro before
  have kept := first before
  rw [bind_eq]
  rcases done : program before with ⟨_ | value, middle⟩
  · rw [done] at kept
    exact kept
  · rw [done] at kept
    exact (second value middle).trans kept

theorem Keeps.eq (keeps : Keeps part program) {result : Except E A}
    (done : program before = (result, after)) : part after = part before := by
  have kept := keeps before
  rwa [done] at kept

/-- A part of the state is the same after the program if it stops. -/
def KeepsIfStopped (part : S → R) (program : Fallible E S A) : Prop :=
  ∀ before error after, program before = (.error error, after) → part after = part before

theorem Keeps.bind_ifStopped (first : Keeps part program)
    (second : ∀ value, KeepsIfStopped part (next value)) :
    KeepsIfStopped part (program >>= next) := by
  intro before error after stopped
  have kept := first before
  rw [bind_eq] at stopped
  rcases done : program before with ⟨_ | value, middle⟩ <;> rw [done] at kept stopped
  · cases stopped
    exact kept
  · exact (second value middle error after stopped).trans kept

end Fallible

end BitxorCore.Library
