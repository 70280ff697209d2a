/- GID: Utils/IntegerMath
   anchors: [src/bitxorcore/utils/IntegerMath.cpp]
   digest: The fixed-point logarithm keeps within 64 bits, is accurate and monotone. -/

import Mathlib.Data.Nat.Log
import Mathlib.Tactic.Ring

set_option autoImplicit false
set_option relaxedAutoImplicit false

namespace BitxorCore.Utils

abbrev Store := Int → Option Nat

def wrapped : Store := fun result => some (result % 2 ^ 64).toNat

def checked : Store := fun result =>
  if 0 ≤ result ∧ result < 2 ^ 64 then some result.toNat else none

def precision : Nat := 31

def powerOfTwo : Nat := 2 ^ precision

section

variable (store : Store)

/-- Doubles `x` until it is in `[1, 2)`, at most `fuel` times. -/
def normalize : Nat → Nat → Nat → Option (Nat × Nat)
  | 0, _, _ => none
  | fuel + 1, x, y =>
    if x < powerOfTwo then do
      normalize fuel (← store (x * 2)) (← store (y - 1))
    else some (x, y)

/-- Squares `x` and moves one coefficient to `y`. -/
def squareRound (x y : Nat) : Option (Nat × Nat) := do
  let x := (← store (x * x)) / 2 ^ precision
  let y ← store (y * 2)
  if 2 * powerOfTwo ≤ x then
    return (x / 2, ← store (y + 1))
  return (x, y)

def squareRounds : Nat → Nat → Nat → Option (Nat × Nat)
  | 0, x, y => some (x, y)
  | n + 1, x, y => do
    let (x, y) ← squareRound store x y
    squareRounds n x y

def log2TimesPowerOfTwo (value n : Nat) : Option Nat := do
  guard (value ≠ 0)
  let (x, y) ← normalize store 64 value precision
  let (_, y) ← squareRounds store n x y
  return y

end

def Keeps (store : Store) : Prop := ∀ result : Nat, result < 2 ^ 64 → store result = some result

theorem keeps_wrapped : Keeps wrapped := by
  intro result small
  rw [wrapped, Int.emod_eq_of_lt (by omega) (by omega), Int.toNat_natCast]

theorem keeps_checked : Keeps checked := by
  intro result small
  rw [checked, if_pos (by omega), Int.toNat_natCast]

variable {store store' : Store} {x y x' y' v w n : Nat}

private theorem normalize_eq (keeps : Keeps store) {k fuel : Nat} (low : 2 ^ 31 ≤ x * 2 ^ k)
    (high : x * 2 ^ k < 2 ^ 32) (enough : k < fuel) (room : k ≤ y) (small : y ≤ 31) :
    normalize store fuel x y = some (x * 2 ^ k, y - k) := by
  induction k generalizing x y fuel with
  | zero =>
    obtain ⟨fuel, rfl⟩ := Nat.exists_eq_add_of_lt enough
    rw [Nat.pow_zero, Nat.mul_one] at low ⊢
    rw [normalize, if_neg (by simp only [powerOfTwo, precision]; omega), Nat.sub_zero]
  | succ k ih =>
    obtain ⟨fuel, rfl⟩ := Nat.exists_eq_add_of_lt enough
    have shifted : x * 2 ^ (k + 1) = x * 2 * 2 ^ k := by ring
    have grows : x * 2 ≤ x * 2 * 2 ^ k := Nat.le_mul_of_pos_right _ (Nat.two_pow_pos k)
    rw [shifted] at low high ⊢
    have doubled : store (x * 2) = some (x * 2) := keeps (x * 2) (by omega)
    have less : store (y - 1) = some (y - 1) := by
      have := keeps (y - 1) (by omega)
      rwa [Nat.cast_sub (by omega)] at this
    rw [normalize, if_pos (by simp only [powerOfTwo, precision]; omega), doubled, less]
    refine (ih low high (by omega) (by omega) (by omega)).trans ?_
    rw [show y - (k + 1) = y - 1 - k by omega]

private theorem squareRound_spec (keeps : Keeps store) (low : 2 ^ 31 ≤ x) (high : x < 2 ^ 32)
    (room : y * 2 + 1 < 2 ^ 64) : 2 ^ 31 ≤ x * x / 2 ^ 31 ∧ x * x / 2 ^ 31 < 2 ^ 33 ∧
    ∃ z c, squareRound store x y = some (z, y * 2 + c) ∧
      (x * x / 2 ^ 31 < 2 ^ 32 ∧ z = x * x / 2 ^ 31 ∧ c = 0 ∨
        2 ^ 32 ≤ x * x / 2 ^ 31 ∧ z = x * x / 2 ^ 31 / 2 ∧ c = 1) := by
  have below : 2 ^ 31 * 2 ^ 31 ≤ x * x := Nat.mul_le_mul low low
  have square : x * x < 2 ^ 32 * 2 ^ 32 := Nat.mul_lt_mul'' high high
  have squared : store (x * x) = some (x * x) := keeps (x * x) square
  have doubled : store (y * 2) = some (y * 2) := keeps (y * 2) (by omega)
  have carried : store ((y * 2 : Nat) + 1) = some (y * 2 + 1) := keeps (y * 2 + 1) room
  refine ⟨by omega, by omega, ?_⟩
  simp only [squareRound, squared, doubled, powerOfTwo, precision, Option.bind_eq_bind,
    Option.bind_some, carried]
  split
  · exact ⟨_, 1, rfl, .inr ⟨‹_›, rfl, rfl⟩⟩
  · exact ⟨_, 0, rfl, .inl ⟨by omega, rfl, rfl⟩⟩

private theorem squareRounds_le (keeps : Keeps store) (keeps' : Keeps store') (low : 2 ^ 31 ≤ x)
    (high : x < 2 ^ 32) (low' : 2 ^ 31 ≤ x') (high' : x' < 2 ^ 32)
    (order : y < y' ∨ y = y' ∧ x ≤ x') (room : (y' + 1) * 2 ^ n ≤ 2 ^ 64) :
    ∃ z r z' r', squareRounds store n x y = some (z, r) ∧
      squareRounds store' n x' y' = some (z', r') ∧ r ≤ r' ∧
      y * 2 ^ n ≤ r ∧ r < (y + 1) * 2 ^ n := by
  induction n generalizing x y x' y' with
  | zero => exact ⟨x, y, x', y', rfl, rfl, by omega, by omega, by omega⟩
  | succ n ih =>
    have doubles (m : Nat) : m * 2 ^ (n + 1) = m * 2 * 2 ^ n := by ring
    rw [doubles] at room
    have fits : (y' + 1) * 2 ≤ 2 ^ 64 :=
      (Nat.le_mul_of_pos_right _ (Nat.two_pow_pos n)).trans room
    obtain ⟨least, most, z, c, round, coefficient⟩ :=
      squareRound_spec (y := y) keeps low high (by omega)
    obtain ⟨least', most', z', c', round', coefficient'⟩ :=
      squareRound_spec (y := y') keeps' low' high' (by omega)
    -- with equal coefficients the larger `x` has the larger square: it carries if the other does
    have squares : x ≤ x' → x * x / 2 ^ 31 ≤ x' * x' / 2 ^ 31 := fun le =>
      Nat.div_le_div_right (Nat.mul_le_mul le le)
    have last : (y' * 2 + c' + 1) * 2 ^ n ≤ 2 ^ 64 :=
      (Nat.mul_le_mul_right _ (by omega)).trans room
    obtain ⟨z, r, z', r', run, run', le, atLeast, below⟩ :=
      @ih z (y * 2 + c) z' (y' * 2 + c') (by omega) (by omega) (by omega) (by omega) (by omega) last
    rw [squareRounds, squareRounds, round, round', doubles, doubles]
    refine ⟨z, r, z', r', run, run', le, ?_, ?_⟩
    · exact (Nat.mul_le_mul_right _ (Nat.le_add_right _ _)).trans atLeast
    · exact below.trans_le (Nat.mul_le_mul_right _ (by omega))

private theorem normalize_value (keeps : Keeps store) (positive : 1 ≤ v) (limit : v < 2 ^ 32) :
    v.log2 ≤ 31 ∧ 2 ^ 31 ≤ v * 2 ^ (31 - v.log2) ∧ v * 2 ^ (31 - v.log2) < 2 ^ 32 ∧
      normalize store 64 v precision = some (v * 2 ^ (31 - v.log2), v.log2) := by
  have nonzero : v ≠ 0 := Nat.ne_of_gt positive
  have top : v.log2 < 32 := (Nat.log2_lt nonzero).mpr limit
  have split : 2 ^ v.log2 * 2 ^ (31 - v.log2) = 2 ^ 31 := by
    rw [← Nat.pow_add, Nat.add_sub_cancel' (Nat.le_of_lt_succ top)]
  have low := Nat.mul_le_mul_right (2 ^ (31 - v.log2)) (Nat.log2_self_le nonzero)
  have high := Nat.mul_lt_mul_of_pos_right (@Nat.lt_log2_self v) (Nat.two_pow_pos (31 - v.log2))
  rw [split] at low
  rw [Nat.pow_succ, Nat.mul_right_comm, split] at high
  refine ⟨by omega, low, high, ?_⟩
  rw [precision, normalize_eq keeps low high (by omega) (Nat.sub_le 31 _) (Nat.le_refl 31),
    Nat.sub_sub_self (Nat.le_of_lt_succ top)]

theorem log2TimesPowerOfTwo_le (keeps : Keeps store) (keeps' : Keeps store')
    (positive : 1 ≤ v) (le : v ≤ w) (limit : w < 2 ^ 32) (rounds : n ≤ 54) :
    ∃ r r', log2TimesPowerOfTwo store v n = some r ∧ log2TimesPowerOfTwo store' w n = some r' ∧
      r ≤ r' ∧ v.log2 * 2 ^ n ≤ r ∧ r < (v.log2 + 1) * 2 ^ n := by
  have nonzero : v ≠ 0 ∧ w ≠ 0 := by omega
  obtain ⟨-, low, high, normal⟩ := normalize_value keeps positive (le.trans_lt limit)
  obtain ⟨top, low', high', normal'⟩ := normalize_value keeps' (positive.trans le) limit
  have order : v.log2 < w.log2 ∨
      v.log2 = w.log2 ∧ v * 2 ^ (31 - v.log2) ≤ w * 2 ^ (31 - w.log2) := by
    have logs : v.log2 ≤ w.log2 :=
      (Nat.le_log2 nonzero.2).mpr ((Nat.log2_self_le nonzero.1).trans le)
    refine (Nat.lt_or_eq_of_le logs).imp_right fun same => ⟨same, ?_⟩
    rw [same]
    exact Nat.mul_le_mul_right _ le
  have room : (w.log2 + 1) * 2 ^ n ≤ 2 ^ 64 :=
    calc (w.log2 + 1) * 2 ^ n ≤ 2 ^ 5 * 2 ^ 54 :=
          Nat.mul_le_mul (by omega) (Nat.pow_le_pow_right (by decide) rounds)
      _ ≤ 2 ^ 64 := by decide
  obtain ⟨z, r, z', r', run, run', result⟩ :=
    squareRounds_le keeps keeps' low high low' high' order room
  refine ⟨r, r', ?_, ?_, result⟩
  · simp [log2TimesPowerOfTwo, nonzero, normal, run]
  · simp [log2TimesPowerOfTwo, nonzero, normal', run']

/-- The logarithm of every number of 32 bits drops no bits, has the integral part of the exact one
and does not decrease. -/
theorem log2TimesPowerOfTwo_accurate_mono (positive : 1 ≤ v) (limit : v < 2 ^ 32)
    (rounds : n ≤ 54) :
    ∃ r, log2TimesPowerOfTwo checked v n = some r ∧ log2TimesPowerOfTwo wrapped v n = some r ∧
      v.log2 * 2 ^ n ≤ r ∧ r < (v.log2 + 1) * 2 ^ n ∧
      ∀ w, v ≤ w → w < 2 ^ 32 →
        ∃ s, log2TimesPowerOfTwo wrapped w n = some s ∧ r ≤ s := by
  obtain ⟨r, r', safe, machine, le, atLeast, below⟩ :=
    log2TimesPowerOfTwo_le keeps_checked keeps_wrapped positive (Nat.le_refl v) limit rounds
  obtain ⟨s, s', machine', safe', le', -⟩ :=
    log2TimesPowerOfTwo_le keeps_wrapped keeps_checked positive (Nat.le_refl v) limit rounds
  obtain rfl : r' = s := Option.some.inj (machine.symm.trans machine')
  obtain rfl : s' = r := Option.some.inj (safe'.symm.trans safe)
  obtain rfl : r' = s' := Nat.le_antisymm le' le
  refine ⟨r', safe, machine, atLeast, below, ?_⟩
  intro w larger limit'
  obtain ⟨t, t', run, run', le'', -⟩ :=
    log2TimesPowerOfTwo_le keeps_wrapped keeps_wrapped positive larger limit' rounds
  obtain rfl : r' = t := Option.some.inj (machine.symm.trans run)
  exact ⟨t', run', le''⟩

theorem log2TimesPowerOfTwo_three :
    ∃ r, log2TimesPowerOfTwo wrapped 3 54 = some r ∧ 2 ^ 54 ≤ r ∧ r < 2 * 2 ^ 54 := by
  obtain ⟨r, -, run, atLeast, below, -⟩ :=
    @log2TimesPowerOfTwo_accurate_mono 3 54 (by decide) (by decide) (by decide)
  exact ⟨r, run, atLeast, below⟩

end BitxorCore.Utils
