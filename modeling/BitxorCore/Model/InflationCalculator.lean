/- GID: Model/InflationCalculator
   anchors: [src/bitxorcore/model/InflationCalculator.cpp,
     src/bitxorcore/config/ValidateConfiguration.cpp]
   digest: Spot amounts, cumulative amounts and the total inflation agree and do not wrap. -/

import BitxorCore.Utils.IntegerMath
import Mathlib.Algebra.BigOperators.Intervals
import Mathlib.Algebra.Order.BigOperators.Group.Finset

set_option autoImplicit false
set_option relaxedAutoImplicit false

namespace BitxorCore.Model
open Utils

/-- The amounts by the height they start at, in the order of the map. -/
structure InflationCalculator where
  inflationMap : List (ℕ × ℕ)
  ordered : inflationMap.Pairwise (·.1 < ·.1)
  heights : ∀ pair ∈ inflationMap, 0 < pair.1 ∧ pair.1 < 2 ^ 64

namespace InflationCalculator

private theorem exists_last {entries : List (ℕ × ℕ)} (ordered : entries.Pairwise (·.1 < ·.1))
    {pair : ℕ × ℕ} (member : pair ∈ entries) : ∃ last ∈ entries.getLast?, pair.1 ≤ last.1 := by
  rcases entries.eq_nil_or_concat with rfl | ⟨before, last, rfl⟩
  · cases member
  rw [List.concat_eq_append] at *
  refine ⟨last, List.getLast?_concat, ?_⟩
  rcases List.mem_append.mp member with member | member
  · exact ((List.pairwise_append.mp ordered).2.2 _ member _ List.mem_cons_self).le
  · rw [List.mem_singleton.mp member]

def empty : InflationCalculator := ⟨[], .nil, by simp⟩

def add (calculator : InflationCalculator) (height amount : BitVec 64) :
    Except (String × BitVec 64) InflationCalculator :=
  if refused : height = 0 ∨ ∃ pair ∈ calculator.inflationMap.getLast?, height.toNat ≤ pair.1 then
    .error ("cannot add inflation entry (height)", height)
  else .ok {
    inflationMap := calculator.inflationMap ++ [(height.toNat, amount.toNat)]
    ordered := by
      push Not at refused
      refine List.pairwise_append.mpr ⟨calculator.ordered, List.pairwise_singleton _ _, ?_⟩
      rintro pair member _ (_ | ⟨_, ⟨⟩⟩)
      obtain ⟨last, isLast, le⟩ := exists_last calculator.ordered member
      exact le.trans_lt (refused.2 last isLast)
    heights := by
      push Not at refused
      rintro pair member
      rcases List.mem_append.mp member with member | (_ | ⟨_, ⟨⟩⟩)
      · exact calculator.heights pair member
      · exact ⟨by bv_omega, height.isLt⟩ }

/-- The loop over the map, from the amount before its first entry. -/
def spotAmount (height : ℕ) : ℕ → List (ℕ × ℕ) → ℕ
  | amount, [] => amount
  | amount, pair :: rest => if height < pair.1 then amount else spotAmount height pair.2 rest

section
variable (store : Store) (height : ℕ)

/-- The loop over the map, with the total amount, the current amount and the current height. -/
def cumulativeAmount : ℕ → ℕ → ℕ → List (ℕ × ℕ) → Option (ℕ × ℕ × ℕ)
  | totalAmount, currentAmount, currentHeight, [] =>
    some (totalAmount, currentAmount, currentHeight)
  | totalAmount, currentAmount, currentHeight, pair :: rest => do
    let numBlocks ← store ((if height < pair.1 then height else pair.1 : ℕ) - currentHeight)
    let totalAmount ← store (totalAmount + (← store (currentAmount * numBlocks)))
    if height ≤ pair.1 then
      return (totalAmount, pair.2, pair.1)
    cumulativeAmount totalAmount pair.2 pair.1 rest

/-- What the entry that the loop ended at adds. -/
def addLastPeriod : ℕ × ℕ × ℕ → Option ℕ
  | (totalAmount, currentAmount, currentHeight) =>
    if currentHeight < height then do
      store (totalAmount + (← store (currentAmount * (← store (height - currentHeight)))))
    else some totalAmount

def maxAmount : ℕ := 2 ^ 64 - 1

/-- The loop over the map, with the raw total amount and the current pair. -/
def sumPeriods : ℕ → ℕ × ℕ → List (ℕ × ℕ) → Option (ℕ × Bool)
  | totalAmountRaw, currentPair, [] =>
    let isValid := decide (currentPair.2 = 0)
    some (if isValid then totalAmountRaw else 0, isValid)
  | totalAmountRaw, currentPair, pair :: rest => do
    let numBlocks ← store (pair.1 - currentPair.1)
    if 0 ≠ numBlocks ∧ maxAmount / numBlocks < currentPair.2 then
      return (0, false)
    let summand ← store (currentPair.2 * numBlocks)
    if (← store (maxAmount - summand)) < totalAmountRaw then
      return (0, false)
    sumPeriods (← store (totalAmountRaw + summand)) pair rest

end

variable (calculator : InflationCalculator)

def getSpotAmount (height : ℕ) : ℕ := spotAmount height 0 calculator.inflationMap

def getCumulativeAmount (store : Store) (height : ℕ) : Option ℕ :=
  if height = 0 then some 0
  else cumulativeAmount store height 0 0 1 calculator.inflationMap >>= addLastPeriod store height

def sumAll (store : Store) : Option (ℕ × Bool) :=
  sumPeriods store 0 (1, 0) calculator.inflationMap

/-- What all blocks below a height add to the supply. -/
def issued (height : ℕ) : ℕ := ∑ i ∈ Finset.Ico 1 height, calculator.getSpotAmount i

/-- The height and the amount of the last entry. -/
def lastPair : ℕ × ℕ := calculator.inflationMap.getLastD (1, 0)

end InflationCalculator

def validateConfiguration (initialCurrencyAtomicUnits maxTokenAtomicUnits : ℕ)
    (calculator : InflationCalculator) : Option (Except String Unit) := do
  let (totalInflation, isValid) ← calculator.sumAll wrapped
  if !isValid then
    return .error "total currency inflation could not be calculated"
  let totalCurrency ← wrapped (initialCurrencyAtomicUnits + totalInflation)
  if totalCurrency < initialCurrencyAtomicUnits ∨ maxTokenAtomicUnits < totalCurrency then
    return .error (s!"sum of InitialCurrencyAtomicUnits ({initialCurrencyAtomicUnits}) and " ++
      s!"inflation ({totalInflation}) must not exceed MaxTokenAtomicUnits ({maxTokenAtomicUnits})")
  return .ok ()

namespace InflationCalculator

section Loops
variable {store : Store} (keeps : Keeps store) {height total amount current : ℕ}
  {entries : List (ℕ × ℕ)}

/-- The entries ahead of a loop are in order and not below its current height. -/
def Ahead (current : ℕ) (entries : List (ℕ × ℕ)) : Prop :=
  ((current :: entries.map Prod.fst).Pairwise (· ≤ ·)) ∧ ∀ pair ∈ entries, pair.1 < 2 ^ 64

private theorem Ahead.head {pair : ℕ × ℕ} (ahead : Ahead current (pair :: entries)) :
    current ≤ pair.1 ∧ pair.1 < 2 ^ 64 ∧ Ahead pair.1 entries := by
  obtain ⟨ordered, fits⟩ := ahead
  rw [List.map_cons, List.pairwise_cons] at ordered
  exact ⟨ordered.1 _ List.mem_cons_self, fits _ List.mem_cons_self, ordered.2,
    fun _ member => fits _ (List.mem_cons_of_mem _ member)⟩

private theorem sum_before {pair : ℕ × ℕ} (le : height ≤ pair.1) :
    ∑ i ∈ Finset.Ico current height, spotAmount i amount (pair :: entries) =
      amount * (height - current) := by
  rw [Finset.sum_const_nat (m := amount), Nat.card_Ico, Nat.mul_comm]
  intro i inside
  rw [spotAmount, if_pos ((Finset.mem_Ico.mp inside).2.trans_le le)]

private theorem sum_after {pair : ℕ × ℕ} (le : current ≤ pair.1) (le' : pair.1 ≤ height) :
    ∑ i ∈ Finset.Ico current height, spotAmount i amount (pair :: entries) =
      amount * (pair.1 - current) +
        ∑ i ∈ Finset.Ico pair.1 height, spotAmount i pair.2 entries := by
  rw [← Finset.sum_Ico_consecutive _ le le', sum_before le_rfl]
  congr 1
  refine Finset.sum_congr rfl fun i inside => ?_
  rw [spotAmount, if_neg (Nat.not_lt.mpr (Finset.mem_Ico.mp inside).1)]

private theorem sum_nil :
    ∑ i ∈ Finset.Ico current height, spotAmount i amount [] = amount * (height - current) := by
  rw [Finset.sum_const_nat (m := amount), Nat.card_Ico, Nat.mul_comm]
  exact fun _ _ => rfl

include keeps

private theorem stored_sub {a b : ℕ} (le : b ≤ a) (fits : a < 2 ^ 64) :
    store (a - b) = some (a - b) := by
  rw [← Nat.cast_sub le]
  exact keeps _ (by omega)

private theorem stored_mul {a b : ℕ} (fits : a * b < 2 ^ 64) : store (a * b) = some (a * b) :=
  keeps (a * b) fits

private theorem stored_add {a b : ℕ} (fits : a + b < 2 ^ 64) : store (a + b) = some (a + b) :=
  keeps (a + b) fits

private theorem cumulativeAmount_eq (ahead : Ahead current entries) (started : current ≤ height)
    (small : height < 2 ^ 64)
    (fits : total + ∑ i ∈ Finset.Ico current height, spotAmount i amount entries < 2 ^ 64) :
    cumulativeAmount store height total amount current entries >>= addLastPeriod store height =
      some (total + ∑ i ∈ Finset.Ico current height, spotAmount i amount entries) := by
  induction entries generalizing total amount current with
  | nil =>
    rw [sum_nil] at fits ⊢
    simp only [cumulativeAmount, Option.bind_eq_bind, Option.bind_some, addLastPeriod]
    split
    · rw [stored_sub keeps started small, Option.bind_some, stored_mul keeps (by omega),
        Option.bind_some, stored_add keeps fits]
    · rw [show height - current = 0 by omega, Nat.mul_zero, Nat.add_zero]
  | cons pair rest ih =>
    obtain ⟨le, limit, ahead⟩ := ahead.head
    by_cases ends : height ≤ pair.1
    · rw [sum_before ends] at fits ⊢
      have least : (if height < pair.1 then height else pair.1) = height := by
        split <;> omega
      have product : amount * (height - current) < 2 ^ 64 := by omega
      simp only [cumulativeAmount, Option.bind_eq_bind, Option.bind_some, least,
        stored_sub keeps started small, stored_mul keeps product, stored_add keeps fits, ends,
        ↓reduceIte, Option.pure_def, addLastPeriod, Nat.not_lt.mpr ends]
    · have least : (if height < pair.1 then height else pair.1) = pair.1 := if_neg (by omega)
      rw [sum_after le (by omega)] at fits ⊢
      rw [← Nat.add_assoc] at fits ⊢
      have sum : total + amount * (pair.1 - current) < 2 ^ 64 := by omega
      have product : amount * (pair.1 - current) < 2 ^ 64 := by omega
      simp only [cumulativeAmount, Option.bind_eq_bind, Option.bind_some, least,
        stored_sub keeps le limit, stored_mul keeps product, stored_add keeps sum, ends, ↓reduceIte]
      exact ih ahead (by omega) fits

omit keeps in
private theorem Ahead.le_last (ahead : Ahead current entries) :
    current ≤ (entries.getLastD (current, amount)).1 := by
  induction entries generalizing current amount with
  | nil => exact le_rfl
  | cons pair rest ih =>
    obtain ⟨le, -, ahead⟩ := ahead.head
    rw [List.getLastD_cons]
    exact le.trans (ih ahead)

omit keeps in
private theorem spotAmount_last (ahead : Ahead current entries)
    (after : (entries.getLastD (current, amount)).1 ≤ height) :
    spotAmount height amount entries = (entries.getLastD (current, amount)).2 := by
  induction entries generalizing current amount with
  | nil => rfl
  | cons pair rest ih =>
    obtain ⟨-, -, ahead⟩ := ahead.head
    rw [List.getLastD_cons] at after ⊢
    rw [spotAmount, if_neg (Nat.not_lt.mpr (ahead.le_last.trans after))]
    exact ih ahead after

private theorem sumPeriods_eq {last : ℕ × ℕ} {sum : ℕ} (ahead : Ahead current entries)
    (small : total < 2 ^ 64) (isLast : entries.getLastD (current, amount) = last)
    (isSum : total + ∑ i ∈ Finset.Ico current last.1, spotAmount i amount entries = sum) :
    sumPeriods store total (current, amount) entries =
      some (if last.2 = 0 ∧ sum < 2 ^ 64 then (sum, true) else (0, false)) := by
  induction entries generalizing total amount current with
  | nil =>
    obtain rfl : (current, amount) = last := isLast
    rw [Finset.Ico_self, Finset.sum_empty, Nat.add_zero] at isSum
    subst isSum
    by_cases none : amount = 0
    · rw [if_pos ⟨none, small⟩]
      simp only [sumPeriods, none, decide_true, ↓reduceIte]
    · rw [if_neg fun valid => none valid.1]
      simp only [sumPeriods, none, decide_false, Bool.false_eq_true, ↓reduceIte]
  | cons pair rest ih =>
    obtain ⟨le, limit, ahead⟩ := ahead.head
    rw [List.getLastD_cons] at isLast
    have toLast : pair.1 ≤ last.1 := isLast ▸ ahead.le_last
    rw [sum_after le toLast, ← Nat.add_assoc] at isSum
    have divides : (0 ≠ pair.1 - current ∧ maxAmount / (pair.1 - current) < amount) ↔
        2 ^ 64 ≤ amount * (pair.1 - current) := by
      rcases Nat.eq_zero_or_pos (pair.1 - current) with zero | positive
      · simp [zero]
      · rw [Nat.div_lt_iff_lt_mul positive, maxAmount]
        omega
    simp only [sumPeriods, stored_sub keeps le limit, Option.bind_eq_bind, Option.bind_some,
      divides]
    by_cases large : 2 ^ 64 ≤ amount * (pair.1 - current)
    · rw [if_pos large, if_neg (by omega)]
      rfl
    have room : amount * (pair.1 - current) ≤ maxAmount := by
      rw [maxAmount]
      omega
    rw [if_neg large, stored_mul keeps (by omega), Option.bind_some,
      stored_sub keeps room (by decide), Option.bind_some]
    by_cases exceeds : maxAmount - amount * (pair.1 - current) < total
    · rw [maxAmount] at exceeds
      rw [if_pos (by rwa [maxAmount]), if_neg (by omega)]
      rfl
    · rw [maxAmount] at exceeds
      rw [if_neg (by rwa [maxAmount]), stored_add keeps (by omega)]
      exact ih ahead (by omega) isLast isSum

end Loops

variable {store : Store} (calculator : InflationCalculator) {height : ℕ}

private theorem ahead : Ahead 1 calculator.inflationMap := by
  refine ⟨List.pairwise_cons.mpr ⟨fun start member => ?_, ?_⟩, fun pair member =>
    (calculator.heights pair member).2⟩
  · obtain ⟨pair, entry, rfl⟩ := List.mem_map.mp member
    exact (calculator.heights pair entry).1
  · exact List.pairwise_map.mpr (calculator.ordered.imp le_of_lt)

private theorem getCumulativeAmount_eq (keeps : Keeps store) (small : height < 2 ^ 64)
    (fits : calculator.issued height < 2 ^ 64) :
    calculator.getCumulativeAmount store height = some (calculator.issued height) := by
  rw [getCumulativeAmount]
  split
  case isTrue zero =>
    subst zero
    rfl
  case isFalse positive =>
    have room : 0 + ∑ i ∈ Finset.Ico 1 height, spotAmount i 0 calculator.inflationMap < 2 ^ 64 := by
      rwa [Nat.zero_add]
    have loop := cumulativeAmount_eq keeps calculator.ahead (Nat.pos_of_ne_zero positive) small room
    rwa [Nat.zero_add] at loop

private theorem sumAll_eq (keeps : Keeps store) :
    calculator.sumAll store = some (if calculator.lastPair.2 = 0 ∧
      calculator.issued calculator.lastPair.1 < 2 ^ 64 then
        (calculator.issued calculator.lastPair.1, true) else (0, false)) :=
  sumPeriods_eq keeps calculator.ahead (by decide) rfl (Nat.zero_add _)

private theorem issued_le (ends : calculator.lastPair.2 = 0) (height : ℕ) :
    calculator.issued height ≤ calculator.issued calculator.lastPair.1 := by
  rcases le_total height calculator.lastPair.1 with before | after
  · exact Finset.sum_le_sum_of_subset (Finset.Ico_subset_Ico_right before)
  · have none : ∑ i ∈ Finset.Ico calculator.lastPair.1 height, calculator.getSpotAmount i = 0 :=
      Finset.sum_eq_zero fun i inside =>
        (spotAmount_last calculator.ahead (Finset.mem_Ico.mp inside).1).trans ends
    have start : 1 ≤ calculator.lastPair.1 := calculator.ahead.le_last
    rw [issued, ← Finset.sum_Ico_consecutive _ start after, none]
    exact le_rfl

private theorem issued_succ (positive : 1 ≤ height) : calculator.issued (height + 1) =
    calculator.issued height + calculator.getSpotAmount height :=
  Finset.sum_Ico_succ_top positive _

end InflationCalculator

section
variable {calculator : InflationCalculator} {initialCurrencyAtomicUnits maxTokenAtomicUnits : ℕ}

private theorem validateConfiguration_ok (accepted : validateConfiguration
      initialCurrencyAtomicUnits maxTokenAtomicUnits calculator = some (.ok ())) :
    calculator.lastPair.2 = 0 ∧ calculator.issued calculator.lastPair.1 < 2 ^ 64 ∧
      initialCurrencyAtomicUnits + calculator.issued calculator.lastPair.1 ≤
        maxTokenAtomicUnits := by
  have sum := calculator.sumAll_eq keeps_wrapped
  unfold validateConfiguration at accepted
  rw [sum, Option.bind_eq_bind, Option.bind_some] at accepted
  by_cases valid : calculator.lastPair.2 = 0 ∧ calculator.issued calculator.lastPair.1 < 2 ^ 64
  · rw [if_pos valid] at accepted
    simp only [Bool.not_true, Bool.false_eq_true, ↓reduceIte, wrapped, Option.bind_eq_bind,
      Option.bind_some, Option.pure_def] at accepted
    split at accepted
    · cases accepted
    case isFalse within =>
      exact ⟨valid.1, valid.2, by omega⟩
  · rw [if_neg valid] at accepted
    cases accepted

end

/-- The three walks over the map agree: each cumulative amount grows by the spot amount, the total
is reported exactly if it fits, and then no cumulative amount wraps or exceeds the maximum that the
configuration was accepted for. -/
theorem inflation_consistent (calculator : InflationCalculator) :
    (∀ height, 1 ≤ height → height + 1 < 2 ^ 64 →
      calculator.issued height + calculator.getSpotAmount height < 2 ^ 64 →
      ∃ amount, calculator.getCumulativeAmount wrapped height = some amount ∧
        calculator.getCumulativeAmount wrapped (height + 1) =
          some (amount + calculator.getSpotAmount height)) ∧
    (∃ amount isValid, calculator.sumAll wrapped = some (amount, isValid) ∧
      calculator.sumAll checked = some (amount, isValid) ∧
      (isValid = true ↔ calculator.lastPair.2 = 0 ∧
        calculator.issued calculator.lastPair.1 < 2 ^ 64) ∧
      (isValid = true → amount = calculator.issued calculator.lastPair.1 ∧
        ∀ height < 2 ^ 64, calculator.issued height ≤ amount ∧
          calculator.getCumulativeAmount wrapped height = some (calculator.issued height) ∧
          calculator.getCumulativeAmount checked height = some (calculator.issued height))) ∧
    ∀ initialCurrencyAtomicUnits maxTokenAtomicUnits, validateConfiguration
        initialCurrencyAtomicUnits maxTokenAtomicUnits calculator = some (.ok ()) →
      ∀ height < 2 ^ 64, ∃ amount, calculator.getCumulativeAmount wrapped height = some amount ∧
        initialCurrencyAtomicUnits + amount ≤ maxTokenAtomicUnits := by
  refine ⟨fun height positive small fits => ?_, ?_, fun initial maximum accepted height small => ?_⟩
  · have next := calculator.getCumulativeAmount_eq keeps_wrapped small
      (by rwa [calculator.issued_succ positive])
    rw [calculator.issued_succ positive] at next
    exact ⟨_, calculator.getCumulativeAmount_eq keeps_wrapped (by omega) (by omega), next⟩
  · have sum := calculator.sumAll_eq keeps_wrapped
    have sum' := calculator.sumAll_eq keeps_checked
    by_cases valid : calculator.lastPair.2 = 0 ∧ calculator.issued calculator.lastPair.1 < 2 ^ 64
    · rw [if_pos valid] at sum sum'
      refine ⟨_, _, sum, sum', iff_of_true rfl valid, fun _ => ⟨rfl, fun height small => ?_⟩⟩
      have le := calculator.issued_le valid.1 height
      exact ⟨le, calculator.getCumulativeAmount_eq keeps_wrapped small (le.trans_lt valid.2),
        calculator.getCumulativeAmount_eq keeps_checked small (le.trans_lt valid.2)⟩
    · rw [if_neg valid] at sum sum'
      exact ⟨0, false, sum, sum', iff_of_false nofun valid, nofun⟩
  · obtain ⟨ends, fits, within⟩ := validateConfiguration_ok accepted
    have le := calculator.issued_le ends height
    exact ⟨_, calculator.getCumulativeAmount_eq keeps_wrapped small (le.trans_lt fits),
      (Nat.add_le_add_left le _).trans within⟩

theorem inflation_consistent_of_three_entries :
    let calculator : InflationCalculator :=
      ⟨[(1, 100), (3, 50), (5, 0)], by decide, by decide⟩
    [(1, 100), (3, 50), (5, 0)].foldlM (fun calculator pair => calculator.add pair.1 pair.2)
        InflationCalculator.empty = .ok calculator ∧
      validateConfiguration 700 1000 calculator = some (.ok ()) ∧
      calculator.getCumulativeAmount wrapped (2 ^ 64 - 1) = some 300 ∧
      ∀ height < 2 ^ 64, ∃ amount, calculator.getCumulativeAmount wrapped height = some amount ∧
        700 + amount ≤ 1000 :=
  ⟨rfl, rfl, by decide +kernel, (inflation_consistent _).2.2 700 1000 rfl⟩

end BitxorCore.Model
