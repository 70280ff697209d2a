/- GID: Chain/BlockScorer
   anchors: [src/bitxorcore/chain/BlockScorer.cpp]
   digest: Which smaller generation hashes have a smaller hit. -/

import BitxorCore.Types
import BitxorCore.Utils.IntegerMath
import Mathlib.Tactic.IntervalCases

set_option autoImplicit false
set_option relaxedAutoImplicit false

namespace BitxorCore.Chain
open Utils

def wrappedTo (width : ℕ) : Store := fun result => some (result % 2 ^ width).toNat

def checkedTo (width : ℕ) : Store := fun result =>
  if 0 ≤ result ∧ result < 2 ^ width then some result.toNat else none

def byteAt (generationHash : Hash256) (i : ℕ) : ℕ := generationHash.toNat / 256 ^ (31 - i) % 256

structure GenerationHashInfo where
  value : ℕ
  numLeadingZeros : ℕ

/-- Four bytes of the hash, the first one being the highest. -/
def extractFromHashAtPosition (hash : Hash256) (index : ℕ) : ℕ :=
  2 ^ 24 * byteAt hash index + 2 ^ 16 * byteAt hash (index + 1) +
    2 ^ 8 * byteAt hash (index + 2) + byteAt hash (index + 3)

section
variable (store : ℕ → Store)

def numLeadingZeros (generationHash : Hash256) : Option ℕ :=
  match (List.range 32).find? fun i => byteAt generationHash i ≠ 0 with
  | some i => store 32 (8 * i + 7 - (byteAt generationHash i).log2)
  | none => some 256

def extractGenerationHashInfo (generationHash : Hash256) : Option GenerationHashInfo := do
  let zeros ← numLeadingZeros store generationHash
  if 224 ≤ zeros then
    return ⟨extractFromHashAtPosition generationHash 28, 224⟩
  let quotient := zeros / 8
  let remainder := zeros % 8
  let value ← store 32 (extractFromHashAtPosition generationHash quotient * 2 ^ remainder : ℕ)
  let value ← store 32
    (value + byteAt generationHash (quotient + 4) / 2 ^ (8 - remainder) : ℕ)
  return ⟨value, zeros⟩

def calculateHit (generationHash : Hash256) : Option ℕ := do
  let hashInfo ← extractGenerationHashInfo store generationHash
  if hashInfo.value = 0 then
    return 2 ^ 64 - 1
  if hashInfo.value = 0xFFFFFFFF then
    return 0
  let logValue ← log2TimesPowerOfTwo (store 64) hashInfo.value 54
  let scaled ← store 64 ((32 + hashInfo.numLeadingZeros) * 2 ^ 54 : ℕ)
  let result ← store 64 (scaled - logValue)
  -- divided by log2(e)
  let result ← store 128 (result * 10000000000000000)
  store 64 (result / 14426950408889634 : ℕ)

end

structure BlockHitContext where
  generationHash : Hash256
  elapsedTime : ℕ
  signer : Key
  difficulty : ℕ
  height : ℕ

/-- The target is any function of what the block hit condition passes to it. -/
def blockHitPredicate (calculateTarget : ℕ → ℕ → ℕ → ℕ) (importanceLookup : Key → ℕ → ℕ)
    (context : BlockHitContext) : Option Bool := do
  let importance := importanceLookup context.signer context.height
  let hit ← calculateHit wrappedTo context.generationHash
  return hit < calculateTarget context.elapsedTime context.difficulty importance

/-- The 32 bits from the first one that is set, or all of a smaller number. -/
def leadingBits (generationHash : Hash256) : ℕ :=
  generationHash.toNat / 2 ^ (generationHash.toNat.log2 - 31)

/-- Whether the leading bits of a hash are all set. -/
def LeadingOnes (generationHash : Hash256) : Prop := leadingBits generationHash = 2 ^ 32 - 1

def KeepsAll (store : ℕ → Store) : Prop :=
  ∀ width result : ℕ, result < 2 ^ width → store width result = some result

private theorem keepsAll_wrappedTo : KeepsAll wrappedTo := by
  intro width result small
  rw [wrappedTo, Int.emod_eq_of_lt (by omega) (by exact_mod_cast small), Int.toNat_natCast]

private theorem keepsAll_checkedTo : KeepsAll checkedTo := by
  intro width result small
  rw [checkedTo, if_pos ⟨by omega, by exact_mod_cast small⟩, Int.toNat_natCast]

section Extraction
variable {store : ℕ → Store} (keeps : KeepsAll store) {hash : Hash256}

private theorem byteAt_of_lt {i : ℕ} (small : hash.toNat < 256 ^ (31 - i)) : byteAt hash i = 0 := by
  rw [byteAt, Nat.div_eq_of_lt small, Nat.zero_mod]

private theorem pow_256 (n : ℕ) : 256 ^ n = 2 ^ (8 * n) := (Nat.pow_mul 2 8 n).symm

variable (nonzero : hash.toNat ≠ 0)
include nonzero

private theorem log2_le : hash.toNat.log2 ≤ 255 :=
  Nat.le_of_lt_succ ((Nat.log2_lt nonzero).mpr hash.isLt)

include keeps in
private theorem numLeadingZeros_eq :
    numLeadingZeros store hash = some (255 - hash.toNat.log2) := by
  have top := log2_le nonzero
  have low := Nat.log2_self_le nonzero
  have high := @Nat.lt_log2_self hash.toNat
  generalize hash.toNat.log2 = log at top low high
  have divided : 2 ^ (log % 8) ≤ hash.toNat / 256 ^ (log / 8) ∧
      hash.toNat / 256 ^ (log / 8) < 2 ^ (log % 8 + 1) := by
    rw [pow_256]
    constructor
    · rw [Nat.le_div_iff_mul_le (Nat.two_pow_pos _), ← Nat.pow_add, Nat.mod_add_div]
      exact low
    · rw [Nat.div_lt_iff_lt_mul (Nat.two_pow_pos _), ← Nat.pow_add, Nat.add_right_comm,
        Nat.mod_add_div]
      exact high
  have byte : byteAt hash (31 - log / 8) = hash.toNat / 256 ^ (log / 8) := by
    have small : 2 ^ (log % 8 + 1) ≤ 2 ^ 8 := Nat.pow_le_pow_right (by decide) (by omega)
    rw [byteAt, Nat.sub_sub_self (by omega)]
    exact Nat.mod_eq_of_lt (divided.2.trans_le small)
  have byteLog : (byteAt hash (31 - log / 8)).log2 = log % 8 := by
    rw [byte]
    exact (Nat.log2_eq_iff (Nat.ne_of_gt ((Nat.two_pow_pos _).trans_le divided.1))).mpr divided
  have found : (List.range 32).find? (fun i => byteAt hash i ≠ 0) = some (31 - log / 8) := by
    rw [List.find?_range_eq_some]
    refine ⟨?_, List.mem_range.mpr (by omega), fun j before => ?_⟩
    · have := Nat.two_pow_pos (log % 8)
      simp only [byte, decide_eq_true_eq]
      omega
    · have zero : byteAt hash j = 0 := by
        refine byteAt_of_lt (high.trans_le ?_)
        rw [pow_256]
        exact Nat.pow_le_pow_right (by decide) (by omega)
      simp [zero]
  rw [numLeadingZeros, found]
  dsimp only
  rw [byteLog, show (8 * (31 - log / 8 : ℕ) + 7 - (log % 8 : ℕ) : ℤ) = (255 - log : ℕ) by omega]
  exact keeps 32 _ (by omega)

omit nonzero in
private theorem extract_eq {index : ℕ} (inside : index ≤ 28) :
    extractFromHashAtPosition hash index = hash.toNat / 256 ^ (28 - index) % 2 ^ 32 := by
  have byte (j : ℕ) (few : j ≤ 3) : byteAt hash (index + j) =
      hash.toNat / 256 ^ (28 - index) / 256 ^ (3 - j) % 256 := by
    rw [byteAt, Nat.div_div_eq_div_mul, ← Nat.pow_add]
    congr 3
    omega
  have first := byte 0 (by decide)
  rw [Nat.add_zero] at first
  rw [extractFromHashAtPosition, first, byte 1 (by decide), byte 2 (by decide), byte 3 (by decide)]
  omega

omit nonzero in
private theorem shifted_parts {upper remainder : ℕ} (few : remainder < 8)
    (below : upper < 2 ^ (40 - remainder)) :
    upper / 256 % 2 ^ 32 * 2 ^ remainder < 2 ^ 32 ∧
      upper / 256 % 2 ^ 32 * 2 ^ remainder + upper % 256 / 2 ^ (8 - remainder) =
        upper / 2 ^ (8 - remainder) := by
  interval_cases remainder <;> omega

/-- The shifted bytes are the leading bits, and no bit is lost. -/
private theorem leading_parts (many : 32 ≤ hash.toNat.log2) :
    let zeros := 255 - hash.toNat.log2
    extractFromHashAtPosition hash (zeros / 8) * 2 ^ (zeros % 8) < 2 ^ 32 ∧
      extractFromHashAtPosition hash (zeros / 8) * 2 ^ (zeros % 8) +
        byteAt hash (zeros / 8 + 4) / 2 ^ (8 - zeros % 8) = leadingBits hash := by
  intro zeros
  have top := log2_le nonzero
  have high := @Nat.lt_log2_self hash.toNat
  let upper := hash.toNat / 256 ^ (27 - zeros / 8)
  have below : upper < 2 ^ (40 - zeros % 8) := by
    refine Nat.div_lt_of_lt_mul (high.trans_le ?_)
    rw [pow_256, ← Nat.pow_add]
    exact Nat.pow_le_pow_right (by decide) (by omega)
  have four : extractFromHashAtPosition hash (zeros / 8) = upper / 256 % 2 ^ 32 := by
    rw [extract_eq (by omega), Nat.div_div_eq_div_mul, ← Nat.pow_succ]
    congr 3
    omega
  have fifth : byteAt hash (zeros / 8 + 4) = upper % 256 := by
    rw [byteAt]
    congr 3
    omega
  have bits : leadingBits hash = upper / 2 ^ (8 - zeros % 8) := by
    rw [leadingBits, Nat.div_div_eq_div_mul, pow_256, ← Nat.pow_add]
    congr 2
    omega
  rw [four, fifth, bits]
  exact shifted_parts (Nat.mod_lt _ (by decide)) below

end Extraction

section Hits
variable {store : ℕ → Store} (keeps : KeepsAll store) {hash other : Hash256}

private theorem leadingBits_bounds (nonzero : hash.toNat ≠ 0) : 1 ≤ leadingBits hash ∧
    leadingBits hash < 2 ^ 32 ∧ (31 ≤ hash.toNat.log2 → 2 ^ 31 ≤ leadingBits hash) := by
  have low := Nat.log2_self_le nonzero
  have high := @Nat.lt_log2_self hash.toNat
  unfold leadingBits
  generalize hash.toNat.log2 = log at low high
  refine ⟨?_, ?_, fun many => ?_⟩
  · rw [Nat.le_div_iff_mul_le (Nat.two_pow_pos _), Nat.one_mul]
    exact (Nat.pow_le_pow_right (by decide) (Nat.sub_le _ _)).trans low
  · rw [Nat.div_lt_iff_lt_mul (Nat.two_pow_pos _), ← Nat.pow_add]
    exact high.trans_le (Nat.pow_le_pow_right (by decide) (by omega))
  · rw [Nat.le_div_iff_mul_le (Nat.two_pow_pos _), ← Nat.pow_add]
    exact (Nat.pow_le_pow_right (by decide) (by omega)).trans low

include keeps

private theorem extractGenerationHashInfo_eq (nonzero : hash.toNat ≠ 0) :
    extractGenerationHashInfo store hash =
      some ⟨leadingBits hash, 224 - (hash.toNat.log2 - 31)⟩ := by
  have top := log2_le nonzero
  unfold extractGenerationHashInfo
  rw [numLeadingZeros_eq keeps nonzero]
  by_cases few : 224 ≤ 255 - hash.toNat.log2
  · have none : hash.toNat.log2 - 31 = 0 := by omega
    have small : hash.toNat < 2 ^ 32 :=
      (@Nat.lt_log2_self hash.toNat).trans_le (Nat.pow_le_pow_right (by decide) (by omega))
    simp only [Option.bind_eq_bind, Option.bind_some, few, ↓reduceIte, extract_eq le_rfl,
      Nat.sub_self, Nat.pow_zero, Nat.div_one, Nat.mod_eq_of_lt small, leadingBits, none,
      Nat.sub_zero, Option.pure_def]
  · obtain ⟨shifted, sum⟩ := leading_parts nonzero (by omega)
    simp only [Option.bind_eq_bind, Option.bind_some, few, ↓reduceIte, keeps 32 _ shifted, sum,
      keeps 32 _ (leadingBits_bounds nonzero).2.1, Option.pure_def]
    rw [show 255 - hash.toNat.log2 = 224 - (hash.toNat.log2 - 31) by omega]

omit keeps in
/-- The largest logarithm below the edge case stays away from that of a power of two. -/
private theorem log_of_last : ∃ log, log2TimesPowerOfTwo (wrappedTo 64) (2 ^ 32 - 2) 54 =
    some log ∧ log + 2 ≤ 32 * 2 ^ 54 := by
  decide +kernel

private theorem scaledDifference_eq {scaled log : ℕ} (large : log ≤ scaled)
    (fits : scaled ≤ 256 * 2 ^ 54) : (do
      let logValue ← some log
      let scaled ← store 64 scaled
      let result ← store 64 (scaled - logValue)
      let result ← store 128 (result * 10000000000000000)
      store 64 (result / 14426950408889634 : ℕ)) =
    some ((scaled - log) * 10000000000000000 / 14426950408889634) := by
  have less : store 64 (scaled - log) = some (scaled - log) := by
    rw [← Nat.cast_sub large]
    exact keeps 64 _ (by omega)
  have times : store 128 ((scaled - log : ℕ) * 10000000000000000) =
      some ((scaled - log) * 10000000000000000) :=
    keeps 128 ((scaled - log) * 10000000000000000) (by omega)
  simp only [Option.bind_eq_bind, Option.bind_some, keeps 64 scaled (by omega), less, times]
  exact keeps 64 _ (by omega)

/-- The hit of a hash whose leading bits are not all set. -/
private theorem calculateHit_eq (nonzero : hash.toNat ≠ 0) (regular : ¬ LeadingOnes hash) :
    ∃ log, log2TimesPowerOfTwo (store 64) (leadingBits hash) 54 = some log ∧
      log + 2 ≤ 32 * 2 ^ 54 ∧ (31 ≤ hash.toNat.log2 → 31 * 2 ^ 54 ≤ log) ∧
      calculateHit store hash = some (((256 - (hash.toNat.log2 - 31)) * 2 ^ 54 - log) *
        10000000000000000 / 14426950408889634) := by
  have top := log2_le nonzero
  obtain ⟨positive, small, normal⟩ := leadingBits_bounds nonzero
  have belowLast : leadingBits hash ≤ 2 ^ 32 - 2 := by
    unfold LeadingOnes at regular
    omega
  obtain ⟨last, logLast, room⟩ := log_of_last
  obtain ⟨log, last', logs, logLast', le, atLeast, -⟩ := log2TimesPowerOfTwo_le (n := 54)
    (keeps 64) (keepsAll_wrappedTo 64) positive belowLast (by decide) le_rfl
  obtain rfl : last' = last := Option.some.inj (logLast'.symm.trans logLast)
  refine ⟨log, logs, by omega, fun many => ?_, ?_⟩
  · have : 31 ≤ (leadingBits hash).log2 := (Nat.le_log2 (by omega)).mpr (normal many)
    exact (Nat.mul_le_mul_right _ this).trans atLeast
  · have zeros : 32 + (224 - (hash.toNat.log2 - 31)) = 256 - (hash.toNat.log2 - 31) := by omega
    unfold calculateHit
    rw [extractGenerationHashInfo_eq keeps nonzero, Option.bind_eq_bind, Option.bind_some]
    dsimp only
    rw [if_neg (by omega), if_neg (by omega), logs, zeros]
    exact scaledDifference_eq keeps (Nat.le_trans (by omega) (Nat.mul_le_mul_right _
      (show 32 ≤ 256 - (hash.toNat.log2 - 31) by omega))) (Nat.mul_le_mul_right _ (by omega))

private theorem calculateHit_le {store' : ℕ → Store} (keeps' : KeepsAll store')
    (le : hash.toNat ≤ other.toNat) (nonzero : hash.toNat ≠ 0) (regular : ¬ LeadingOnes hash)
    (regular' : ¬ LeadingOnes other) : ∃ hit otherHit, calculateHit store hash = some hit ∧
      calculateHit store' other = some otherHit ∧ otherHit ≤ hit := by
  have nonzero' : other.toNat ≠ 0 := by omega
  have top := log2_le nonzero'
  obtain ⟨log, logs, room, -, hit⟩ := calculateHit_eq keeps nonzero regular
  obtain ⟨log', logs', -, normal', hit'⟩ := calculateHit_eq keeps' nonzero' regular'
  refine ⟨_, _, hit, hit', Nat.div_le_div_right (Nat.mul_le_mul_right _ ?_)⟩
  have log2Le : hash.toNat.log2 ≤ other.toNat.log2 :=
    (Nat.le_log2 nonzero').mpr ((Nat.log2_self_le nonzero).trans le)
  by_cases same : hash.toNat.log2 - 31 = other.toNat.log2 - 31
  -- as many leading zeros: the logarithm is monotone
  · have bits : leadingBits hash ≤ leadingBits other := by
      unfold leadingBits
      rw [same]
      exact Nat.div_le_div_right le
    obtain ⟨r, r', eq, eq', ordered, -⟩ := log2TimesPowerOfTwo_le (n := 54) (keeps 64) (keeps' 64)
      (leadingBits_bounds nonzero).1 bits (leadingBits_bounds nonzero').2.1 le_rfl
    obtain rfl : r = log := Option.some.inj (eq.symm.trans logs)
    obtain rfl : r' = log' := Option.some.inj (eq'.symm.trans logs')
    rw [same]
    exact Nat.sub_le_sub_left ordered _
  -- fewer leading zeros: a whole power of two outweighs both logarithms
  · have := normal' (by omega)
    omega

omit keeps in
private theorem calculateHit_zero : calculateHit store 0 = some (2 ^ 64 - 1) := by
  rfl

private theorem calculateHit_ones (ones : LeadingOnes hash) : calculateHit store hash = some 0 := by
  have nonzero : hash.toNat ≠ 0 := by
    intro zero
    simp [LeadingOnes, leadingBits, zero] at ones
  unfold calculateHit
  rw [extractGenerationHashInfo_eq keeps nonzero]
  simp only [Option.bind_eq_bind, Option.bind_some, show leadingBits hash = 2 ^ 32 - 1 from ones]
  rfl

/-- A hit that is not an edge case is positive and below the largest one. -/
private theorem calculateHit_regular (nonzero : hash.toNat ≠ 0) (regular : ¬ LeadingOnes hash) :
    ∃ hit, calculateHit store hash = some hit ∧ 0 < hit ∧ hit ≤ 2 ^ 64 - 1 := by
  have top := log2_le nonzero
  obtain ⟨log, -, room, -, hit⟩ := calculateHit_eq keeps nonzero regular
  exact ⟨_, hit, Nat.div_pos (by omega) (by decide), by omega⟩

end Hits

/-- The hit of a hash in both arithmetics. -/
private theorem exists_hit (hash : Hash256) : ∃ hit, calculateHit checkedTo hash = some hit ∧
    calculateHit wrappedTo hash = some hit ∧ hit ≤ 2 ^ 64 - 1 ∧ (LeadingOnes hash ↔ hit = 0) := by
  by_cases ones : LeadingOnes hash
  · exact ⟨0, calculateHit_ones keepsAll_checkedTo ones, calculateHit_ones keepsAll_wrappedTo ones,
      Nat.zero_le _, iff_of_true ones rfl⟩
  by_cases zero : hash.toNat = 0
  · obtain rfl : hash = 0 := BitVec.eq_of_toNat_eq zero
    exact ⟨2 ^ 64 - 1, calculateHit_zero, calculateHit_zero, le_rfl,
      iff_of_false ones (by decide)⟩
  obtain ⟨hit, eq, positive, small⟩ := calculateHit_regular keepsAll_checkedTo zero ones
  -- the two arithmetics agree, as each hit is at most the other one
  obtain ⟨first, last, eq₁, eq₂, le₁⟩ :=
    calculateHit_le keepsAll_checkedTo keepsAll_wrappedTo le_rfl zero ones ones
  obtain ⟨last', first', eq₃, eq₄, le₂⟩ :=
    calculateHit_le keepsAll_wrappedTo keepsAll_checkedTo le_rfl zero ones ones
  obtain rfl : hit = first := Option.some.inj (eq.symm.trans eq₁)
  obtain rfl : hit = first' := Option.some.inj (eq.symm.trans eq₄)
  obtain rfl : last = last' := Option.some.inj (eq₂.symm.trans eq₃)
  obtain rfl : last = hit := le_antisymm le₁ le₂
  exact ⟨last, eq, eq₂, small, iff_of_false ones positive.ne'⟩

/-- No intermediate value wraps, and a smaller hash has no smaller hit, with the block hit
condition monotone in the hash, unless the smaller hash alone has its leading bits all set. -/
theorem calculateHit_antitone_iff {hash other : Hash256} (le : hash ≤ other) :
    ∃ hit otherHit,
      (calculateHit checkedTo hash = some hit ∧ calculateHit wrappedTo hash = some hit) ∧
      (calculateHit checkedTo other = some otherHit ∧
        calculateHit wrappedTo other = some otherHit) ∧
      ((otherHit ≤ hit ∧ ∀ calculateTarget importanceLookup (context : BlockHitContext),
          blockHitPredicate calculateTarget importanceLookup
            { context with generationHash := hash } = some true →
          blockHitPredicate calculateTarget importanceLookup
            { context with generationHash := other } = some true) ↔
        (LeadingOnes hash → LeadingOnes other)) := by
  obtain ⟨hit, checked, wrapped, limit, ones⟩ := exists_hit hash
  obtain ⟨otherHit, checked', wrapped', limit', ones'⟩ := exists_hit other
  refine ⟨hit, otherHit, ⟨checked, wrapped⟩, ⟨checked', wrapped'⟩, ?_, ?_⟩
  · rintro ⟨antitone, -⟩ edge
    have := ones.mp edge
    exact ones'.mpr (by omega)
  · intro edges
    have antitone : otherHit ≤ hit := by
      by_cases edge' : LeadingOnes other
      · have := ones'.mp edge'
        omega
      have edge : ¬ LeadingOnes hash := fun edge => edge' (edges edge)
      by_cases zero : hash.toNat = 0
      · obtain rfl : hash = 0 := BitVec.eq_of_toNat_eq zero
        obtain rfl : hit = 2 ^ 64 - 1 := Option.some.inj (wrapped.symm.trans calculateHit_zero)
        exact limit'
      · obtain ⟨_, _, eq, eq', antitone⟩ :=
          calculateHit_le keepsAll_wrappedTo keepsAll_wrappedTo le zero edge edge'
        rwa [Option.some.inj (eq.symm.trans wrapped),
          Option.some.inj (eq'.symm.trans wrapped')] at antitone
    refine ⟨antitone, fun calculateTarget importanceLookup context => ?_⟩
    simp only [blockHitPredicate, wrapped, wrapped', Option.bind_eq_bind, Option.bind_some,
      Option.pure_def, Option.some.injEq, decide_eq_true_eq]
    exact antitone.trans_lt

theorem calculateHit_antitone_of_halves :
    ∃ hit otherHit, calculateHit wrappedTo (BitVec.twoPow 256 254) = some hit ∧
      calculateHit wrappedTo (BitVec.twoPow 256 255) = some otherHit ∧ otherHit ≤ hit := by
  obtain ⟨hit, otherHit, first, second, iff⟩ := calculateHit_antitone_iff
    (show BitVec.twoPow 256 254 ≤ BitVec.twoPow 256 255 by decide +kernel)
  refine ⟨hit, otherHit, first.2, second.2, (iff.mpr fun edge => ?_).1⟩
  revert edge
  unfold LeadingOnes
  decide +kernel

/-- The hash with 32 ones after its first zero is below one half, but has the hit 0. The target
is the one without smoothing for the original total importance. -/
theorem calculateHit_not_antitone :
    let hash := BitVec.twoPow 256 255 - BitVec.twoPow 256 223
    let other := BitVec.twoPow 256 255
    let target (elapsedTime difficulty importance : ℕ) :=
      elapsedTime / 1000 * importance * 2 ^ 64 * 8999999998 / 8999999998 / difficulty
    let hits (generationHash : Hash256) := blockHitPredicate target (fun _ _ => 1)
      ⟨generationHash, 15000, 0, 10 ^ 14, 2⟩
    hash < other ∧ calculateHit wrappedTo hash = some 0 ∧
      calculateHit wrappedTo other = some 12486629536330718 ∧
      hits hash = some true ∧ hits other = some false := by
  decide +kernel

end BitxorCore.Chain
