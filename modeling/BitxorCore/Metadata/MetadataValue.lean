/- GID: Metadata/MetadataValue
   anchors: [plugins/txes/metadata/src]
   digest: Accepted metadata updates are undone exactly and reach every value the delta can reach. -/

import BitxorCore.Chain.BlockExecutor
import Mathlib.Data.BitVec

set_option autoImplicit false
set_option relaxedAutoImplicit false

namespace BitxorCore.Metadata
open Chain Function List

abbrev Byte := BitVec 8

/-- An update of the value of a resolved key. The size of the value is that of the bytes. -/
structure MetadataValueNotification (K : Type) where
  key : K
  valueSizeDelta : ℤ
  value : List Byte
  delta_ge : -2 ^ 15 ≤ valueSizeDelta
  delta_lt : valueSizeDelta < 2 ^ 15
  size_lt : value.length < 2 ^ 16

inductive ValidationResult where
  | success
  | metadataValueTooSmall
  | metadataValueTooLarge
  | metadataValueSizeDeltaTooLarge
  | metadataValueSizeDeltaMismatch
  | metadataValueChangeIrreversible
  deriving DecidableEq

abbrev MetadataCache (K : Type) := K → Option (List Byte)

/-- `MetadataValue::update`: bytes behind the stored ones are zero before. -/
def updateValue (stored buffer : List Byte) : List Byte :=
  buffer.mapIdx fun i byte => stored.getD i 0#8 ^^^ byte

def canTrim (stored buffer : List Byte) (count : ℕ) : Bool :=
  stored.length = buffer.length ∧ count ≤ stored.length ∧
    stored.drop (buffer.length - count) = buffer.drop (buffer.length - count)

variable {K : Type}

def metadataSizesValidator (maxValueSize : ℕ) (notice : MetadataValueNotification K) :
    ValidationResult :=
  if notice.value.length = 0 then .metadataValueTooSmall
  else if notice.valueSizeDelta.natAbs > notice.value.length then .metadataValueSizeDeltaTooLarge
  else if notice.value.length > maxValueSize then .metadataValueTooLarge
  else .success

def metadataValueValidator (notice : MetadataValueNotification K) (cache : MetadataCache K) :
    ValidationResult :=
  let delta := notice.valueSizeDelta
  let size : ℤ := notice.value.length
  match cache notice.key with
  | none => if delta = size then .success else .metadataValueSizeDeltaMismatch
  | some stored =>
    if (if delta > 0 then (size - delta) % 2 ^ 16 else size) ≠ stored.length then
      .metadataValueSizeDeltaMismatch
    else if delta ≥ 0 then .success
    else if canTrim stored notice.value ((-delta) % 2 ^ 16).toNat then .success
    else .metadataValueChangeIrreversible

def updateCache [DecidableEq K] (cache : MetadataCache K) (key : K) (buffer : List Byte) :
    MetadataCache K :=
  match cache key with
  | none => update cache key (some (updateValue [] buffer))
  | some stored =>
    if buffer.length = 0 then update cache key none
    else update cache key (some (updateValue stored buffer))

def metadataValueObserver [DecidableEq K] (mode : NotifyMode)
    (notice : MetadataValueNotification K) (cache : MetadataCache K) : MetadataCache K :=
  let delta := notice.valueSizeDelta
  let valueSize : ℤ := match mode with
    | .commit => if delta < 0 then notice.value.length + delta else notice.value.length
    | .rollback => if delta > 0 then notice.value.length - delta else notice.value.length
  updateCache cache notice.key (notice.value.take valueSize.toNat)

def Accepted (maxValueSize : ℕ) (notice : MetadataValueNotification K) (cache : MetadataCache K) :
    Prop :=
  metadataSizesValidator maxValueSize notice = .success ∧
    metadataValueValidator notice cache = .success

/-- The first bytes of the exclusive or of two values, zeros behind their ends. -/
def xorTo (length : ℕ) (first second : List Byte) : List Byte :=
  (range length).map fun i => first.getD i 0#8 ^^^ second.getD i 0#8

variable (value : List Byte)

def stored : Option (List Byte) := if value = [] then none else some value

private theorem stored_ne : stored value ≠ some [] := by
  unfold stored
  split_ifs with empty
  · simp
  · simpa using empty

private theorem getD_stored : (stored value).getD [] = value := by
  unfold stored
  split_ifs with empty
  · exact empty.symm
  · rfl

@[simp]
private theorem length_xorTo (length : ℕ) (first second : List Byte) :
    (xorTo length first second).length = length := by
  simp [xorTo]

private theorem getD_xorTo (length i : ℕ) (first second : List Byte) :
    (xorTo length first second).getD i 0#8 =
      if i < length then first.getD i 0#8 ^^^ second.getD i 0#8 else 0#8 := by
  split_ifs with inside
  · simp [xorTo, getD_eq_getElem?_getD, inside]
  · simp [xorTo, getD_eq_getElem?_getD, inside]

variable {first second : List Byte}

private theorem ext_getD (length : first.length = second.length)
    (same : ∀ i < first.length, first.getD i 0#8 = second.getD i 0#8) : first = second := by
  apply ext_getElem length
  intro i inside _
  simpa [getD_eq_getElem?_getD, inside, length ▸ inside] using same i inside

variable {size : ℕ} {old value : List Byte}

private theorem updateValue_take (within : size ≤ value.length) :
    updateValue old (value.take size) = xorTo size old value := by
  apply ext_getElem
  · simpa [updateValue] using within
  · intro i inside _
    have bound : i < size := by simpa [updateValue, within] using inside
    simp [updateValue, xorTo, getD_eq_getElem?_getD, show i < value.length by omega]

private theorem getD_eq_of_drop_eq {start i : ℕ} (le : start ≤ i)
    (same : first.drop start = second.drop start) : first.getD i 0#8 = second.getD i 0#8 := by
  have at_i := congrArg (·[i - start]?) same
  rw [getElem?_drop, getElem?_drop, Nat.add_sub_cancel' le] at at_i
  rw [getD_eq_getElem?_getD, getD_eq_getElem?_getD, at_i]

private theorem xorTo_xorTo (tail : value.drop size = old.drop size) :
    xorTo old.length (xorTo size old value) value = old := by
  apply ext_getD (length_xorTo _ _ _)
  intro i inside
  rw [length_xorTo] at inside
  rw [getD_xorTo, if_pos inside, getD_xorTo]
  split_ifs with before
  · rw [BitVec.xor_assoc, BitVec.xor_self, BitVec.xor_zero]
  · rw [BitVec.zero_xor, getD_eq_of_drop_eq (not_lt.mp before) tail]

private theorem xorTo_payload (old new : List Byte) (within : new.length ≤ size) :
    xorTo new.length old (xorTo size old new) = new := by
  apply ext_getD (length_xorTo _ _ _)
  intro i inside
  rw [length_xorTo] at inside
  rw [getD_xorTo, if_pos inside, getD_xorTo, if_pos (by omega), ← BitVec.xor_assoc,
    BitVec.xor_self, BitVec.zero_xor]

variable {maxValueSize : ℕ} {notice : MetadataValueNotification K} {cache : MetadataCache K}

/-- The payload covers the longer of the old value and the new one, which has the given size, and
holds the bytes that are cut off. -/
structure Covers (notice : MetadataValueNotification K) (old : List Byte) (size : ℕ) : Prop where
  same : (size : ℤ) = old.length + notice.valueSizeDelta
  length : notice.value.length = max old.length size
  positive : 0 < notice.value.length
  tail : notice.value.drop size = old.drop size

private theorem accepted_iff {old : List Byte} (held : cache notice.key = stored old) :
    Accepted maxValueSize notice cache ↔
      (∃ size, Covers notice old size) ∧ notice.value.length ≤ maxValueSize := by
  have ge := notice.delta_ge
  have lt := notice.size_lt
  unfold Accepted metadataSizesValidator metadataValueValidator canTrim
  rw [held, stored]
  rcases lt_or_ge notice.valueSizeDelta 0 with shrunk | grown
  · obtain ⟨cut, eq⟩ : ∃ cut : ℕ, notice.valueSizeDelta = -cut :=
      ⟨_, Int.eq_neg_natAbs_of_nonpos shrunk.le⟩
    have count : (- -(cut : ℤ) % 2 ^ 16).toNat = cut := by omega
    simp only [eq, count]
    constructor
    · intro accepted
      refine ⟨⟨old.length - cut, ?_, ?_, ?_, ?_⟩, ?_⟩
      all_goals grind
    · rintro ⟨⟨size, same, length, positive, tail⟩, le⟩
      have : size = old.length - cut := by omega
      have : notice.value.length = old.length := by omega
      grind
  · constructor
    · intro accepted
      have same : (notice.value.length : ℤ) = old.length + notice.valueSizeDelta := by grind
      refine ⟨⟨notice.value.length, same, by omega, by grind, ?_⟩, by grind⟩
      rw [drop_length, drop_of_length_le (by omega)]
    · rintro ⟨⟨size, same, length, positive, tail⟩, le⟩
      grind

section Observer
variable [DecidableEq K] {old : List Byte} {size : ℕ}

private theorem updateCache_eq {buffer : List Byte} {key : K} (held : cache key = stored old)
    (some_ : old ≠ [] ∨ buffer ≠ []) :
    updateCache cache key buffer = update cache key (stored (updateValue old buffer)) := by
  unfold updateCache
  by_cases empty : old = []
  · have filled : buffer ≠ [] := some_.resolve_left (not_not.mpr empty)
    simp [held, stored, empty, updateValue, filled]
  · by_cases none : buffer = [] <;> simp [held, stored, empty, updateValue, none]

variable (held : cache notice.key = stored old) (covers : Covers notice old size)
include held covers

private theorem Covers.commit : metadataValueObserver .commit notice cache =
    update cache notice.key (stored (xorTo size old notice.value)) := by
  obtain ⟨same, length, positive, -⟩ := covers
  have valueSize : (if notice.valueSizeDelta < 0 then notice.value.length + notice.valueSizeDelta
      else notice.value.length : ℤ).toNat = size := by
    split_ifs <;> omega
  have taken : old ≠ [] ∨ notice.value.take size ≠ [] := by grind
  rw [metadataValueObserver, valueSize, updateCache_eq held taken, updateValue_take (by omega)]

private theorem Covers.rollback :
    metadataValueObserver .rollback notice (metadataValueObserver .commit notice cache) =
      cache := by
  rw [covers.commit held]
  obtain ⟨same, length, positive, tail⟩ := covers
  have valueSize : (if notice.valueSizeDelta > 0 then notice.value.length - notice.valueSizeDelta
      else notice.value.length : ℤ).toNat = old.length := by
    split_ifs <;> omega
  have taken : xorTo size old notice.value ≠ [] ∨ notice.value.take old.length ≠ [] := by
    rw [← length_pos_iff, ← length_pos_iff, length_take, length_xorTo]
    omega
  rw [metadataValueObserver, valueSize, updateCache_eq (update_self _ _ _) taken,
    updateValue_take (by omega), update_idem, xorTo_xorTo tail, ← held, update_eq_self]

private theorem Covers.size_eq {new : List Byte}
    (turned : metadataValueObserver .commit notice cache notice.key = stored new) :
    new.length = old.length + notice.valueSizeDelta := by
  rw [covers.commit held, update_self] at turned
  have reached := congrArg (fun found => (found.getD []).length) turned
  simp only [getD_stored, length_xorTo] at reached
  rw [← covers.same, reached]

end Observer

def payload (key : K) (old new : List Byte) (ge : -2 ^ 15 ≤ (new.length - old.length : ℤ))
    (lt : (new.length - old.length : ℤ) < 2 ^ 15) (fits : max old.length new.length < 2 ^ 16) :
    MetadataValueNotification K where
  key := key
  valueSizeDelta := new.length - old.length
  value := xorTo (max old.length new.length) old new
  delta_ge := ge
  delta_lt := lt
  size_lt := by simpa using fits

private theorem payload_covers {key : K} {old new : List Byte}
    (ge : -2 ^ 15 ≤ (new.length - old.length : ℤ)) (lt : (new.length - old.length : ℤ) < 2 ^ 15)
    (fits : max old.length new.length < 2 ^ 16) (positive : 0 < max old.length new.length) :
    Covers (payload key old new ge lt fits) old new.length where
  same := (add_sub_cancel _ _).symm
  length := length_xorTo _ _ _
  positive := (length_xorTo _ _ _).symm ▸ positive
  tail := by
    apply ext_getD
    · simp only [payload, length_drop, length_xorTo]
      omega
    · intro i inside
      simp only [payload, length_drop, length_xorTo] at inside
      simp [payload, xorTo, getD_eq_getElem?_getD, show new.length + i < old.length by omega]

/-- Accepted updates write the exclusive or and are undone exactly, and every value that is not
longer or shorter by more than the delta can say is reached. -/
theorem metadataUpdates_exact [DecidableEq K] (maxValueSize : ℕ) (fits : maxValueSize < 2 ^ 16)
    (cache : MetadataCache K) (noneEmpty : ∀ key, cache key ≠ some []) :
    (∀ (notice : MetadataValueNotification K) old, cache notice.key = stored old →
      Accepted maxValueSize notice cache →
      let after := metadataValueObserver .commit notice cache
      after notice.key = stored
        (xorTo (old.length + notice.valueSizeDelta).toNat old notice.value) ∧
      (∀ key, key ≠ notice.key → after key = cache key) ∧
      metadataValueObserver .rollback notice after = cache ∧ ∀ key, after key ≠ some []) ∧
    ∀ key old new, cache key = stored old → (old ≠ [] ∨ new ≠ []) →
      old.length ≤ maxValueSize → new.length ≤ maxValueSize →
      ((∃ notice : MetadataValueNotification K, notice.key = key ∧
          Accepted maxValueSize notice cache ∧
          metadataValueObserver .commit notice cache key = stored new) ↔
        -2 ^ 15 ≤ (new.length - old.length : ℤ) ∧ (new.length - old.length : ℤ) < 2 ^ 15) := by
  constructor
  · intro notice old held accepted
    obtain ⟨⟨size, covers⟩, -⟩ := (accepted_iff held).mp accepted
    have committed := covers.commit held
    refine ⟨?_, fun key other => ?_, covers.rollback held, fun key => ?_⟩
    · rw [committed, update_self, ← covers.same, Int.toNat_natCast]
    · rw [committed, update_of_ne other]
    · rw [committed, update_apply]
      split_ifs
      · exact stored_ne _
      · exact noneEmpty key
  · intro key old new held some_ oldLe newLe
    constructor
    · rintro ⟨notice, rfl, accepted, turned⟩
      obtain ⟨⟨size, covers⟩, -⟩ := (accepted_iff held).mp accepted
      have length := covers.size_eq held turned
      have ge := notice.delta_ge
      have lt := notice.delta_lt
      omega
    · rintro ⟨ge, lt⟩
      rw [← length_pos_iff, ← length_pos_iff] at some_
      have covers := @payload_covers K key old new ge lt (by omega) (by omega)
      refine ⟨_, rfl, (accepted_iff held).mpr ⟨⟨_, covers⟩, ?_⟩, ?_⟩
      · rw [covers.length]
        omega
      · rw [covers.commit held]
        exact (update_self _ _ _).trans (congrArg stored (xorTo_payload old new (by omega)))

def twoBytes : MetadataCache ℕ := update (fun _ => none) 7 (some [3#8, 5#8])

/-- Cuts the second byte off and turns the first one into 1. -/
def cutSecond : MetadataValueNotification ℕ :=
  ⟨7, -1, [2#8, 5#8], by decide, by decide, by decide⟩

theorem metadataUpdates_exact_cut : Accepted 1024 cutSecond twoBytes ∧
    metadataValueObserver .commit cutSecond twoBytes 7 = some [1#8] ∧
    metadataValueObserver .rollback cutSecond (metadataValueObserver .commit cutSecond twoBytes) =
      twoBytes ∧
    ∃ notice : MetadataValueNotification ℕ, notice.key = 7 ∧ Accepted 1024 notice twoBytes ∧
      metadataValueObserver .commit notice twoBytes 7 = some [1#8, 2#8, 3#8] := by
  have noneEmpty : ∀ key, twoBytes key ≠ some [] := by
    intro key
    rw [twoBytes, update_apply]
    split_ifs <;> simp
  have exact := metadataUpdates_exact 1024 (by decide) twoBytes noneEmpty
  have accepted : Accepted 1024 cutSecond twoBytes := ⟨by decide, by decide⟩
  obtain ⟨committed, -, undone, -⟩ := exact.1 cutSecond [3#8, 5#8] rfl accepted
  refine ⟨accepted, committed.trans (by decide), undone, ?_⟩
  exact (exact.2 7 [3#8, 5#8] [1#8, 2#8, 3#8] rfl (by simp) (by decide) (by decide)).mpr (by decide)

/-- A size may be up to 65535, but no delta is above 32767. -/
theorem metadataValue_unreachable : ¬∃ notice : MetadataValueNotification ℕ,
    Accepted 65535 notice (fun _ => none) ∧
      metadataValueObserver .commit notice (fun _ => none) notice.key =
        stored (replicate 40000 1#8) := by
  rintro ⟨notice, accepted, turned⟩
  have held : (fun _ : ℕ => none) notice.key = stored [] := rfl
  obtain ⟨⟨size, covers⟩, -⟩ := (accepted_iff held).mp accepted
  have length := covers.size_eq held turned
  have lt := notice.delta_lt
  rw [length_replicate, length_nil] at length
  omega

end BitxorCore.Metadata
