/- GID: Chain/BlockDifficultyScorer
   anchors: [src/bitxorcore/chain/BlockDifficultyScorer.cpp, src/bitxorcore/types.h]
   digest: The difficulty is exact unless twenty times the unclamped one leaves 64 bits. -/

import BitxorCore.Local.RecoveryOrchestrator

set_option autoImplicit false
set_option relaxedAutoImplicit false

namespace BitxorCore.Chain
open List Local

namespace Difficulty

def defaultValue : ℕ := 100000000000000
def minValue : ℕ := defaultValue / 10
def maxValue : ℕ := defaultValue * 10

/-- `ClampedBaseValue::Clamp`. -/
def clamp (value : ℕ) : ℕ :=
  if value < minValue then minValue else if value > maxValue then maxValue else value

private theorem clamp_mono {a b : ℕ} (le : a ≤ b) : clamp a ≤ clamp b := by
  unfold clamp minValue maxValue defaultValue
  split_ifs <;> omega

end Difficulty

open Difficulty

/-- The conversion of a 128-bit number to 64 bits. It keeps what fits; what it does with larger
numbers is left to the number library. -/
structure WordConversion where
  convert : ℕ → ℕ
  lt : ∀ value, convert value < 2 ^ 64
  kept : ∀ value < 2 ^ 64, convert value = value

variable (narrow : WordConversion)

/-- Changes are limited to 5% of the last difficulty. The comparisons are made in 64 bits. -/
def limitChange (lastDifficulty difficulty : ℕ) : ℕ :=
  if 19 * lastDifficulty % 2 ^ 64 > 20 * difficulty % 2 ^ 64 then
    19 * lastDifficulty % 2 ^ 64 / 20
  else if 21 * lastDifficulty % 2 ^ 64 < 20 * difficulty % 2 ^ 64 then
    21 * lastDifficulty % 2 ^ 64 / 20
  else difficulty

/-- Statistics are ordered by height. The division throws when no time elapsed. -/
def calculateDifficulty (targetTime : ℕ) (statistics : List BlockStatistic) : Option ℕ :=
  match statistics with
  | [] | [_] => some (clamp defaultValue)
  | first :: second :: others =>
    let last := (second :: others).getLast (cons_ne_nil second others)
    let historySize := statistics.length
    let sum := statistics.foldl (fun sum entry => (sum + entry.difficulty) % 2 ^ 64) 0
    let timeDiff := (last.timestamp + 2 ^ 64 - first.timestamp) % 2 ^ 64
    let largeDifficulty :=
      sum / historySize * targetTime % 2 ^ 128 * (historySize - 1) % 2 ^ 128 / timeDiff
    if timeDiff = 0 then none
    else some (clamp (limitChange last.difficulty (narrow.convert largeDifficulty)))

structure DifficultyWindow where
  first : BlockStatistic
  rest : List BlockStatistic
  nonempty : rest ≠ []
  length_le : rest.length ≤ 59
  valid : ∀ entry ∈ first :: rest, minValue ≤ entry.difficulty ∧ entry.difficulty ≤ maxValue
  ordered : (first :: rest).Pairwise fun a b => a.timestamp < b.timestamp
  stamps : ∀ entry ∈ first :: rest, entry.timestamp < 2 ^ 64

namespace DifficultyWindow
variable (window : DifficultyWindow) (targetTime : ℕ)

def statistics : List BlockStatistic := window.first :: window.rest
def last : BlockStatistic := window.rest.getLast window.nonempty
def elapsed : ℕ := window.last.timestamp - window.first.timestamp
def sum : ℕ := (window.statistics.map (·.difficulty)).sum
def product : ℕ := window.sum / window.statistics.length * targetTime * window.rest.length

/-- Average times target time times number of gaps, per elapsed time. -/
def quotient : ℕ := window.product targetTime / window.elapsed

/-- The quotient, moved into 5% around the last difficulty and then into the valid range. -/
def difficulty : ℕ :=
  clamp (max (19 * window.last.difficulty / 20)
    (min (21 * window.last.difficulty / 20) (window.quotient targetTime)))

/-- No sum, product or conversion of the calculation leaves its type. -/
def StepsFit : Prop :=
  window.sum < 2 ^ 64 ∧ window.product targetTime < 2 ^ 128 ∧ window.quotient targetTime < 2 ^ 64 ∧
    21 * window.last.difficulty < 2 ^ 64 ∧ 20 * window.quotient targetTime < 2 ^ 64

/-- The comparisons that lost their upper bits still select a value that is the right one in the
valid range. -/
def Lucky : Prop :=
  let converted := narrow.convert (window.quotient targetTime)
  21 * window.last.difficulty < 20 * converted % 2 ^ 64 ∨
    19 * window.last.difficulty ≤ 20 * converted % 2 ^ 64 ∧
      clamp converted = clamp (21 * window.last.difficulty / 20)

variable {window targetTime}

private theorem last_mem : window.last ∈ window.statistics :=
  mem_cons_of_mem _ (getLast_mem window.nonempty)

private theorem last_valid :
    minValue ≤ window.last.difficulty ∧ window.last.difficulty ≤ maxValue :=
  window.valid _ last_mem

private theorem first_lt_last : window.first.timestamp < window.last.timestamp :=
  (pairwise_cons.mp window.ordered).1 _ (getLast_mem window.nonempty)

variable (entries : List BlockStatistic)

private theorem foldl_sum (start : ℕ)
    (fits : start + (entries.map (·.difficulty)).sum < 2 ^ 64) :
    entries.foldl (fun sum entry => (sum + entry.difficulty) % 2 ^ 64) start =
      start + (entries.map (·.difficulty)).sum := by
  induction entries generalizing start with
  | nil => rfl
  | cons entry entries ih => grind

private theorem sum_le (valid : ∀ entry ∈ entries, entry.difficulty ≤ maxValue) :
    (entries.map (·.difficulty)).sum ≤ entries.length * maxValue := by
  induction entries with
  | nil => exact Nat.zero_le _
  | cons entry entries ih =>
    obtain ⟨here, later⟩ := forall_mem_cons.mp valid
    have rest := ih later
    rw [map_cons, sum_cons, length_cons, Nat.succ_mul]
    omega

private theorem sum_le_length : window.sum ≤ window.statistics.length * maxValue :=
  sum_le _ fun entry mem => (window.valid entry mem).2

private theorem sum_lt : window.sum < 2 ^ 64 := by
  have length : window.statistics.length ≤ 60 := Nat.succ_le_succ window.length_le
  have sum := window.sum_le_length
  unfold maxValue defaultValue at sum
  omega

private theorem product_lt (hour : targetTime ≤ 3600000) : window.product targetTime < 2 ^ 128 := by
  have average : window.sum / window.statistics.length ≤ maxValue :=
    Nat.div_le_of_le_mul window.sum_le_length
  calc window.product targetTime
      ≤ maxValue * 3600000 * 59 := Nat.mul_le_mul (Nat.mul_le_mul average hour) window.length_le
    _ < 2 ^ 128 := by decide

variable {narrow}

private theorem calculateDifficulty_eq (hour : targetTime ≤ 3600000) :
    calculateDifficulty narrow targetTime window.statistics = some (clamp
      (limitChange window.last.difficulty (narrow.convert (window.quotient targetTime)))) := by
  have product := window.product_lt hour
  have later := window.first_lt_last
  have stamp := window.stamps _ last_mem
  have time : (window.last.timestamp + 2 ^ 64 - window.first.timestamp) % 2 ^ 64 =
      window.elapsed := by
    unfold elapsed
    omega
  obtain ⟨second, others, rest⟩ := exists_cons_of_ne_nil window.nonempty
  have sum := foldl_sum window.statistics 0 ((Nat.zero_add _).trans_lt window.sum_lt)
  unfold quotient DifficultyWindow.product DifficultyWindow.sum DifficultyWindow.last elapsed
    statistics at *
  simp only [rest, calculateDifficulty] at *
  rw [time, sum, if_neg (by omega), Nat.mod_mul_mod, Nat.zero_add]
  simp only [length_cons, Nat.add_sub_cancel] at product ⊢
  rw [Nat.mod_eq_of_lt product]

private theorem limitChange_eq {last value : ℕ} (valid : last ≤ maxValue)
    (fits : 20 * value < 2 ^ 64) :
    limitChange last value = max (19 * last / 20) (min (21 * last / 20) value) := by
  unfold maxValue defaultValue at valid
  rw [limitChange, Nat.mod_eq_of_lt fits, Nat.mod_eq_of_lt (by omega), Nat.mod_eq_of_lt (by omega)]
  split_ifs <;> omega

private theorem limitChange_eq_iff {last value wide : ℕ} (above : minValue ≤ last)
    (valid : last ≤ maxValue) (wraps : 2 ^ 64 ≤ 20 * wide) :
    clamp (limitChange last value) = clamp (max (19 * last / 20) (min (21 * last / 20) wide)) ↔
      21 * last < 20 * value % 2 ^ 64 ∨
        19 * last ≤ 20 * value % 2 ^ 64 ∧ clamp value = clamp (21 * last / 20) := by
  have apart : clamp (19 * last / 20) < clamp (21 * last / 20) := by
    unfold clamp minValue maxValue defaultValue at *
    split_ifs <;> omega
  have high : max (19 * last / 20) (min (21 * last / 20) wide) = 21 * last / 20 := by
    unfold maxValue defaultValue at valid
    omega
  unfold maxValue defaultValue at valid
  rw [high, limitChange, Nat.mod_eq_of_lt (by omega : 19 * last < 2 ^ 64),
    Nat.mod_eq_of_lt (by omega : 21 * last < 2 ^ 64)]
  generalize 20 * value % 2 ^ 64 = wrapped
  split_ifs with low top
  · omega
  · simp [top]
  · omega

variable {longer : DifficultyWindow}

section
variable (same : longer.statistics.map (·.difficulty) = window.statistics.map (·.difficulty))
include same

private theorem quotient_le (le : window.elapsed ≤ longer.elapsed) :
    longer.quotient targetTime ≤ window.quotient targetTime := by
  have length : longer.statistics.length = window.statistics.length := by
    simpa using congrArg length same
  have gaps : longer.rest.length = window.rest.length := Nat.succ.inj length
  have product : longer.product targetTime = window.product targetTime := by
    unfold DifficultyWindow.product DifficultyWindow.sum
    rw [same, length, gaps]
  have later := window.first_lt_last
  unfold quotient
  rw [product]
  apply Nat.div_le_div_left le
  unfold elapsed
  omega

private theorem last_eq : longer.last.difficulty = window.last.difficulty := by
  have last (w : DifficultyWindow) :
      (w.statistics.map (·.difficulty)).getLast? = some w.last.difficulty := by
    rw [getLast?_map, statistics, getLast?_cons_of_ne_nil w.nonempty, getLast?_eq_some_getLast]
    rfl
  exact Option.some.inj ((last longer).symm.trans (same ▸ last window))

end

/-- While twenty times the quotient fits into 64 bits no step wraps, the difficulty is exact and a
shorter time never lowers it. Otherwise the last comparison wraps. -/
theorem calculateDifficulty_eq_difficulty_iff (window : DifficultyWindow) (targetTime : ℕ)
    (hour : targetTime ≤ 3600000) :
    (window.StepsFit targetTime ↔ 20 * window.quotient targetTime < 2 ^ 64) ∧
    (calculateDifficulty narrow targetTime window.statistics = some (window.difficulty targetTime) ↔
      20 * window.quotient targetTime < 2 ^ 64 ∨ window.Lucky narrow targetTime) ∧
    (20 * window.quotient targetTime < 2 ^ 64 → ∀ longer : DifficultyWindow,
      longer.statistics.map (·.difficulty) = window.statistics.map (·.difficulty) →
      window.elapsed ≤ longer.elapsed → ∃ slow fast,
        calculateDifficulty narrow targetTime longer.statistics = some slow ∧
        calculateDifficulty narrow targetTime window.statistics = some fast ∧ slow ≤ fast) := by
  have bounds := window.last_valid
  have exact_ (w : DifficultyWindow) (fits : 20 * w.quotient targetTime < 2 ^ 64) :
      calculateDifficulty narrow targetTime w.statistics = some (w.difficulty targetTime) := by
    rw [calculateDifficulty_eq hour, narrow.kept _ (by omega), limitChange_eq w.last_valid.2 fits]
    rfl
  refine ⟨⟨fun steps => steps.2.2.2.2, fun fits => ?_⟩, ⟨fun same => ?_, ?_⟩, ?_⟩
  · unfold maxValue defaultValue at bounds
    exact ⟨window.sum_lt, product_lt hour, by omega, by omega, fits⟩
  · by_cases fits : 20 * window.quotient targetTime < 2 ^ 64
    · exact .inl fits
    · rw [calculateDifficulty_eq hour, Option.some_inj] at same
      exact .inr ((limitChange_eq_iff bounds.1 bounds.2 (not_lt.mp fits)).mp same)
  · rintro (fits | lucky)
    · exact exact_ window fits
    · by_cases fits : 20 * window.quotient targetTime < 2 ^ 64
      · exact exact_ window fits
      · rw [calculateDifficulty_eq hour, Option.some_inj]
        exact (limitChange_eq_iff bounds.1 bounds.2 (not_lt.mp fits)).mpr lucky
  · intro fits longer same le
    have quotient : longer.quotient targetTime ≤ _ := quotient_le same le
    refine ⟨_, _, exact_ longer (by omega), exact_ window fits, clamp_mono ?_⟩
    rw [last_eq same]
    omega

def twoBlocks (elapsed : ℕ) (positive : 0 < elapsed) (fits : elapsed < 2 ^ 64) :
    DifficultyWindow where
  first := ⟨1, 0, defaultValue, 0⟩
  rest := [⟨2, elapsed, defaultValue, 0⟩]
  nonempty := by simp
  length_le := by simp
  valid := by simp [minValue, maxValue, defaultValue]
  ordered := by simpa using positive
  stamps := by simpa using fits

theorem calculateDifficulty_eq_difficulty_second : 9000 ≤ 3600000 ∧
    ∃ kept : WordConversion, calculateDifficulty kept 9000 (twoBlocks 1000 (by decide)
      (by decide)).statistics = some 105000000000000 := by
  refine ⟨by decide, ⟨fun value => min value (2 ^ 64 - 1), by intro; omega, by omega⟩, ?_⟩
  refine ((calculateDifficulty_eq_difficulty_iff _ 9000 (by decide)).2.1.mpr (.inl ?_)).trans ?_
  · decide
  · decide

/-- One millisecond gives a lower difficulty than two. -/
theorem calculateDifficulty_lowered : ∃ short long : DifficultyWindow,
    short.elapsed < long.elapsed ∧
      short.statistics.map (·.difficulty) = long.statistics.map (·.difficulty) ∧
      short.difficulty 9224 = 105000000000000 ∧ ∀ narrow : WordConversion,
        calculateDifficulty narrow 9224 short.statistics = some 95000000000000 ∧
        calculateDifficulty narrow 9224 long.statistics = some 105000000000000 := by
  refine ⟨twoBlocks 1 (by decide) (by decide), twoBlocks 2 (by decide) (by decide), by decide,
    rfl, by decide, ?_⟩
  intro narrow
  rw [calculateDifficulty_eq (by decide), calculateDifficulty_eq (by decide),
    narrow.kept _ (by decide), narrow.kept _ (by decide)]
  decide

end DifficultyWindow
end BitxorCore.Chain
