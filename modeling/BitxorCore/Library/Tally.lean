/- GID: Library/Tally
   anchors: []
   digest: The total weight of the items that meet a condition, and quorums of such weights. -/

import Mathlib.Algebra.BigOperators.Group.Finset.Piecewise
import Mathlib.Algebra.Order.Group.Nat

set_option autoImplicit false
set_option relaxedAutoImplicit false

namespace BitxorCore.Library.Tally

variable {A : Type} (weight : A → ℕ)

def tally (p : A → Prop) [DecidablePred p] : List A → ℕ
  | [] => 0
  | a :: rest => (if p a then weight a else 0) + tally p rest

variable {weight} {p q : A → Prop} [DecidablePred p] [DecidablePred q] {items others : List A}

@[simp]
theorem tally_nil : tally weight p [] = 0 := rfl

@[simp]
theorem tally_cons (a : A) (rest : List A) :
    tally weight p (a :: rest) = (if p a then weight a else 0) + tally weight p rest := rfl

@[simp]
theorem tally_append (items others : List A) :
    tally weight p (items ++ others) = tally weight p items + tally weight p others := by
  induction items with
  | nil => simp
  | cons a rest ih => simp only [List.cons_append, tally_cons, ih, Nat.add_assoc]

theorem tally_perm (perm : items.Perm others) : tally weight p items = tally weight p others := by
  induction perm with
  | nil => rfl
  | cons a _ ih => rw [tally_cons, tally_cons, ih]
  | swap a b rest => simp only [tally_cons]; omega
  | trans _ _ first second => exact first.trans second

theorem tally_congr (same : ∀ a ∈ items, p a ↔ q a) :
    tally weight p items = tally weight q items := by
  induction items with
  | nil => rfl
  | cons a rest ih => simp_all

theorem tally_mono (imp : ∀ a ∈ items, p a → q a) :
    tally weight p items ≤ tally weight q items := by
  induction items with
  | nil => exact le_rfl
  | cons a rest ih =>
    have here := imp a List.mem_cons_self
    have below := ih fun b mem => imp b (List.mem_cons_of_mem a mem)
    rw [tally_cons, tally_cons]
    by_cases holds : p a
    · rw [if_pos holds, if_pos (here holds)]
      omega
    · rw [if_neg holds]
      omega

theorem tally_eq_zero (never : ∀ a ∈ items, ¬p a) : tally weight p items = 0 := by
  induction items with
  | nil => rfl
  | cons a rest ih => simp_all

theorem tally_or (exclusive : ∀ a ∈ items, ¬(p a ∧ q a)) :
    tally weight (fun a => p a ∨ q a) items = tally weight p items + tally weight q items := by
  induction items with
  | nil => rfl
  | cons a rest ih =>
    have here := exclusive a List.mem_cons_self
    rw [tally_cons, tally_cons, tally_cons,
      ih fun b mem => exclusive b (List.mem_cons_of_mem a mem)]
    by_cases first : p a
    · have second : ¬q a := fun second => here ⟨first, second⟩
      rw [if_pos (.inl first), if_pos first, if_neg second]
      omega
    · by_cases second : q a
      · rw [if_pos (.inr second), if_neg first, if_pos second]
        omega
      · rw [if_neg (by simp [first, second]), if_neg first, if_neg second]
        omega

theorem sum_tally_le {B : Type} [DecidableEq B] (f : A → Option B) (classes : Finset B) :
    ∑ b ∈ classes, tally weight (fun a => p a ∧ f a = some b) items ≤ tally weight p items := by
  induction items with
  | nil => simp
  | cons a rest ih =>
    simp only [tally_cons, Finset.sum_add_distrib]
    refine Nat.add_le_add ?_ ih
    by_cases holds : p a
    · cases found : f a with
      | none => simp
      | some b =>
        simp only [holds, true_and, Option.some.injEq, Finset.sum_ite_eq, if_true]
        split_ifs
        · exact le_rfl
        · exact Nat.zero_le _
    · simp [holds]

theorem exists_common {r : A → Prop} [DecidablePred r] {quorum total : ℕ}
    (bounded : tally weight r items ≤ total) (among : ∀ a ∈ items, p a ∨ q a → r a)
    (majority : total < 2 * quorum) (first : quorum ≤ tally weight p items)
    (second : quorum ≤ tally weight q items) : ∃ a ∈ items, p a ∧ q a := by
  by_contra none
  have exclusive : ∀ a ∈ items, ¬(p a ∧ q a) := fun a mem both => none ⟨a, mem, both⟩
  have added : tally weight (fun a => p a ∨ q a) items = _ := tally_or exclusive
  have within : tally weight (fun a => p a ∨ q a) items ≤ tally weight r items := tally_mono among
  omega

end BitxorCore.Library.Tally
