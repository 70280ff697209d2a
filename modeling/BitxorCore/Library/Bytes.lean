/- GID: Library/Bytes
   anchors: []
   digest: What is written as bytes is read back by a reader made of readers of its parts. -/

import Mathlib.Algebra.Order.Ring.Nat
import Mathlib.Data.List.Basic

set_option autoImplicit false
set_option relaxedAutoImplicit false

namespace BitxorCore.Library.Bytes
open List

/-- The last bytes of a number, the least significant one first. -/
def littleEndian : ℕ → ℕ → List ℕ
  | 0, _ => []
  | count + 1, value => value % 256 :: littleEndian count (value / 256)

variable (count : ℕ) (value : ℕ)

@[simp]
theorem length_littleEndian : (littleEndian count value).length = count := by
  induction count generalizing value with
  | zero => rfl
  | succ count ih => rw [littleEndian, length_cons, ih]

def ofLittleEndian : List ℕ → ℕ
  | [] => 0
  | byte :: rest => byte + 256 * ofLittleEndian rest

theorem ofLittleEndian_littleEndian {count value : ℕ} (fits : value < 256 ^ count) :
    ofLittleEndian (littleEndian count value) = value := by
  induction count generalizing value with
  | zero =>
    rw [Nat.pow_zero] at fits
    exact (Nat.lt_one_iff.mp fits).symm
  | succ count ih =>
    rw [Nat.pow_succ, Nat.mul_comm] at fits
    rw [littleEndian, ofLittleEndian, ih (Nat.div_lt_of_lt_mul fits), Nat.mod_add_div]

def AreBytes (bytes : List ℕ) : Prop := ∀ byte ∈ bytes, byte < 256

theorem areBytes_append {first second : List ℕ} :
    AreBytes (first ++ second) ↔ AreBytes first ∧ AreBytes second :=
  forall_mem_append

theorem areBytes_littleEndian : AreBytes (littleEndian count value) := by
  induction count generalizing value with
  | zero => exact forall_mem_nil _
  | succ count ih =>
    rw [littleEndian]
    exact forall_mem_cons.mpr ⟨Nat.mod_lt _ (by decide), ih _⟩

variable {bytes : List ℕ}

theorem ofLittleEndian_lt (areBytes : AreBytes bytes) :
    ofLittleEndian bytes < 256 ^ bytes.length := by
  induction bytes with
  | nil => exact Nat.one_pos
  | cons byte rest ih =>
    obtain ⟨small, smallRest⟩ := forall_mem_cons.mp areBytes
    have bound := ih smallRest
    rw [ofLittleEndian, length_cons, Nat.pow_succ]
    omega

theorem littleEndian_ofLittleEndian (areBytes : AreBytes bytes) :
    littleEndian bytes.length (ofLittleEndian bytes) = bytes := by
  induction bytes with
  | nil => rfl
  | cons byte rest ih =>
    obtain ⟨small, smallRest⟩ := forall_mem_cons.mp areBytes
    have low : (byte + 256 * ofLittleEndian rest) % 256 = byte := by omega
    have high : (byte + 256 * ofLittleEndian rest) / 256 = ofLittleEndian rest := by omega
    rw [length_cons, ofLittleEndian, littleEndian, low, high, ih smallRest]

theorem ofLittleEndian_take_le (bytes : List ℕ) :
    ofLittleEndian (bytes.take count) ≤ ofLittleEndian bytes := by
  induction count generalizing bytes with
  | zero => exact Nat.zero_le _
  | succ count ih =>
    cases bytes with
    | nil => exact le_rfl
    | cons byte rest => simp_all [take_succ_cons, ofLittleEndian]

theorem littleEndian_add {count value : ℕ} (fits : value < 256 ^ count) (more : ℕ) :
    littleEndian (count + more) value = littleEndian count value ++ replicate more 0 := by
  induction count generalizing value with
  | zero =>
    obtain rfl : value = 0 := by
      rw [Nat.pow_zero] at fits
      exact Nat.lt_one_iff.mp fits
    rw [Nat.zero_add, littleEndian, nil_append]
    induction more with
    | zero => rfl
    | succ more ih => rw [littleEndian, Nat.zero_div, ih, replicate_succ]
  | succ count ih =>
    rw [Nat.pow_succ, Nat.mul_comm] at fits
    rw [Nat.succ_add, littleEndian, littleEndian, ih (Nat.div_lt_of_lt_mul fits), cons_append]

def word (count : ℕ) (value : BitVec (8 * count)) : List ℕ := littleEndian count value.toNat

variable (value : BitVec (8 * count))

@[simp]
theorem length_word : (word count value).length = count := length_littleEndian count _

def ofWord (count : ℕ) (bytes : List ℕ) : BitVec (8 * count) := .ofNat _ (ofLittleEndian bytes)

theorem ofWord_word : ofWord count (word count value) = value := by
  have width : 2 ^ (8 * count) = 256 ^ count := Nat.pow_mul 2 8 count
  rw [ofWord, word, ofLittleEndian_littleEndian (width ▸ value.isLt), BitVec.ofNat_toNat,
    BitVec.setWidth_eq]

theorem areBytes_word : AreBytes (word count value) := areBytes_littleEndian count _

theorem word_ofWord (areBytes : AreBytes bytes) :
    word bytes.length (ofWord bytes.length bytes) = bytes := by
  have width : 2 ^ (8 * bytes.length) = 256 ^ bytes.length := Nat.pow_mul 2 8 bytes.length
  rw [word, ofWord, BitVec.toNat_ofNat, width, Nat.mod_eq_of_lt (ofLittleEndian_lt areBytes),
    littleEndian_ofLittleEndian areBytes]

theorem word_injective : Function.Injective (word count) :=
  Function.LeftInverse.injective (ofWord_word count)

/-- The bytes of an array, the first of which is the highest of its value. -/
def array (count : ℕ) (value : BitVec (8 * count)) : List ℕ := (word count value).reverse

@[simp]
theorem length_array :
    (array count value).length = count := by rw [array, length_reverse, length_word]

theorem areBytes_array : AreBytes (array count value) :=
  fun byte mem => areBytes_word count value byte (mem_reverse.mp mem)

theorem array_injective : Function.Injective (array count) :=
  reverse_injective.comp (word_injective count)

theorem length_flatMap {A B : Type} {bytes : A → List B} {width : ℕ}
    (length : ∀ record, (bytes record).length = width) (records : List A) :
    (records.flatMap bytes).length = width * records.length := by
  induction records with
  | nil => rfl
  | cons record rest ih =>
    rw [flatMap_cons, length_append, length, ih, length_cons, Nat.mul_succ, Nat.add_comm]

theorem flatMap_injective {A B : Type} {bytes : A → List B} {width : ℕ} (positive : 0 < width)
    (length : ∀ record, (bytes record).length = width) (injective : Function.Injective bytes) :
    Function.Injective fun records : List A => records.flatMap bytes := by
  intro first second same
  induction first generalizing second with
  | nil =>
    cases second with
    | nil => rfl
    | cons record rest =>
      have lengths := congrArg List.length same
      simp [length] at lengths
      omega
  | cons record rest ih =>
    cases second with
    | nil =>
      have lengths := congrArg List.length same
      simp [length] at lengths
      omega
    | cons other others =>
      simp only [flatMap_cons] at same
      obtain ⟨here, tail⟩ := append_inj same (by rw [length, length])
      rw [injective here, ih tail]

/-- Takes a value off the front of the bytes, or throws. -/
abbrev Reader (A : Type) := StateT (List ℕ) Option A

def readBytes (count : ℕ) : Reader (List ℕ) := fun bytes =>
  if count ≤ bytes.length then some (bytes.take count, bytes.drop count) else none

def readWord (count : ℕ) : Reader (BitVec (8 * count)) := do
  let bytes ← readBytes count
  return ofWord count bytes

def readArray (count : ℕ) : Reader (BitVec (8 * count)) := do
  let bytes ← readBytes count
  return ofWord count bytes.reverse

def Reads {A : Type} (reader : Reader A) (bytes : List ℕ) (value : A) : Prop :=
  ∀ rest, reader (bytes ++ rest) = some (value, rest)

variable {A B : Type}

theorem Reads.pure (value : A) : Reads (Pure.pure value) [] value := fun _ => rfl

variable {reader : Reader A} {value : A} {next : A → Reader B}

theorem Reads.bind {bytes more : List ℕ}
    {result : B} (first : Reads reader bytes value) (second : Reads (next value) more result) :
    Reads (reader >>= next) (bytes ++ more) result := by
  intro rest
  change (reader ((bytes ++ more) ++ rest)).bind (fun read => next read.1 read.2) = _
  rw [List.append_assoc, first, Option.bind_some, second]

theorem Reads.map {bytes : List ℕ} (first : Reads reader bytes value)
    (f : A → B) : Reads (reader >>= fun read => Pure.pure (f read)) bytes (f value) := by
  have both : Reads (reader >>= fun read => Pure.pure (f read)) (bytes ++ []) (f value) :=
    first.bind (Reads.pure (f value))
  rw [List.append_nil] at both
  exact both

theorem Reads.lift {computed : Option A} (done : computed = some value) :
    Reads (liftM computed) [] value := by
  subst done
  exact fun _ => rfl

theorem reads_readBytes {count : ℕ} {bytes : List ℕ} (length : bytes.length = count) :
    Reads (readBytes count) bytes bytes := by
  intro rest
  rw [readBytes, if_pos (by rw [List.length_append, length]; exact Nat.le_add_right _ _),
    List.take_left' length, List.drop_left' length]

theorem reads_readWord (count : ℕ) (value : BitVec (8 * count)) :
    Reads (readWord count) (word count value) value := by
  have read := (reads_readBytes (length_word count value)).map (ofWord count)
  rwa [ofWord_word] at read

theorem reads_readArray (count : ℕ) (value : BitVec (8 * count)) :
    Reads (readArray count) (array count value) value := by
  have read := (reads_readBytes (length_array count value)).map fun bytes =>
    ofWord count bytes.reverse
  rwa [array, List.reverse_reverse, ofWord_word] at read

def readMany (reader : Reader A) : ℕ → Reader (List A)
  | 0 => pure []
  | count + 1 => do
    let value ← reader
    let values ← readMany reader count
    return value :: values

variable {bytes : A → List ℕ}

theorem reads_readMany (each : ∀ value, Reads reader (bytes value) value) (values : List A) :
    Reads (readMany reader values.length) (values.flatMap bytes) values := by
  induction values with
  | nil => exact Reads.pure []
  | cons value values ih => exact (each value).bind (ih.map (value :: ·))

/-- What a reader takes off the front of bytes is related to the value it returns. -/
def Takes (reader : Reader A) (post : A → List ℕ → Prop) : Prop :=
  ∀ input value rest, AreBytes input → reader input = some (value, rest) →
    ∃ taken, input = taken ++ rest ∧ post value taken

variable {post : A → List ℕ → Prop}

theorem Takes.imp {weaker : A → List ℕ → Prop} (takes : Takes reader post)
    (implies : ∀ value taken, AreBytes taken → post value taken → weaker value taken) :
    Takes reader weaker := by
  intro input value rest areBytes read
  obtain ⟨taken, rfl, holds⟩ := takes input value rest areBytes read
  exact ⟨taken, rfl, implies value taken (areBytes_append.mp areBytes).1 holds⟩

theorem Takes.pure (holds : post value []) : Takes (Pure.pure value) post := by
  intro input result rest _ read
  obtain ⟨rfl, rfl⟩ := Prod.mk.inj (Option.some_inj.mp read)
  exact ⟨[], rfl, holds⟩

theorem Takes.throw : Takes (fun _ => none : Reader A) post :=
  fun _ _ _ _ read => (Option.some_ne_none _ read.symm).elim

theorem Takes.bind {first : A → List ℕ → Prop}
    {post : B → List ℕ → Prop} (takes : Takes reader first)
    (then_ : ∀ value taken, AreBytes taken → first value taken →
      Takes (next value) fun result more => post result (taken ++ more)) :
    Takes (reader >>= next) post := by
  intro input result rest areBytes read
  obtain ⟨⟨value, middle⟩, done, readNext⟩ := Option.bind_eq_some_iff.mp read
  obtain ⟨taken, rfl, holds⟩ := takes input value middle areBytes done
  obtain ⟨takenBytes, middleBytes⟩ := areBytes_append.mp areBytes
  obtain ⟨more, rfl, holdsToo⟩ :=
    then_ value taken takenBytes holds middle result rest middleBytes readNext
  exact ⟨taken ++ more, (List.append_assoc _ _ _).symm, holdsToo⟩

theorem takes_readBytes (count : ℕ) :
    Takes (readBytes count) fun value taken => taken = value ∧ taken.length = count := by
  intro input value rest _ read
  rw [readBytes] at read
  split at read
  · next enough =>
    obtain ⟨rfl, rfl⟩ := Prod.mk.inj (Option.some_inj.mp read)
    exact ⟨input.take count, (List.take_append_drop _ _).symm, rfl, List.length_take_of_le enough⟩
  · cases read

theorem takes_readWord (count : ℕ) :
    Takes (readWord count) fun value taken => taken = word count value := by
  refine (takes_readBytes count).bind fun bytes taken areBytes here => Takes.pure ?_
  obtain ⟨rfl, rfl⟩ := here
  rw [List.append_nil, word_ofWord areBytes]

theorem takes_readArray (count : ℕ) :
    Takes (readArray count) fun value taken => taken = array count value := by
  refine (takes_readBytes count).bind fun bytes taken areBytes here => Takes.pure ?_
  obtain ⟨rfl, length⟩ := here
  have reversed : AreBytes taken.reverse := fun byte mem => areBytes byte (List.mem_reverse.mp mem)
  have again := word_ofWord reversed
  rw [List.length_reverse, length] at again
  rw [List.append_nil, array, again, List.reverse_reverse]

theorem takes_readMany (each : Takes reader fun value taken => taken = bytes value) (count : ℕ) :
    Takes (readMany reader count) fun values taken =>
      values.length = count ∧ taken = values.flatMap bytes := by
  induction count with
  | zero => exact Takes.pure ⟨rfl, rfl⟩
  | succ count ih =>
    refine each.bind fun value taken _ here => ih.bind fun values more _ rest => Takes.pure ?_
    rw [List.append_nil, here, rest.2, List.flatMap_cons, List.length_cons, rest.1]
    exact ⟨rfl, rfl⟩

end BitxorCore.Library.Bytes
