/- GID: Ionet/PacketPayload
   anchors: [src/bitxorcore/ionet, src/bitxorcore/utils]
   digest: A packet is built from parts until it is too large, and read part by part. -/

import BitxorCore.Library.Bytes

set_option autoImplicit false
set_option relaxedAutoImplicit false

namespace BitxorCore.Ionet
open Library Library.Bytes List

def sizeofPacketHeader : ℕ := 8

def defaultMaxPacketDataSize : BitVec 32 := 100 * 1024 * 1024

/-- A packet that was received: as many bytes follow its header as the header says. -/
structure Packet where
  data : List ℕ
  areBytes : AreBytes data
  fits : sizeofPacketHeader + data.length < 2 ^ 32

def Packet.size (packet : Packet) : ℕ := sizeofPacketHeader + packet.data.length

def isPacketDataSizeValid (headerSize : BitVec 32) (maxPacketDataSize : BitVec 32) : Bool :=
  sizeofPacketHeader ≤ headerSize.toNat &&
    headerSize.toNat - sizeofPacketHeader ≤ maxPacketDataSize.toNat

def checkedAdd (value delta : BitVec 32) : Option (BitVec 32) :=
  if BitVec.allOnes 32 - delta < value then none else some (value + delta)

structure PacketPayloadBuilder where
  maxPacketDataSize : BitVec 32
  headerSize : BitVec 32
  buffers : List ℕ
  hasError : Bool

namespace PacketPayloadBuilder

def create : PacketPayloadBuilder := ⟨defaultMaxPacketDataSize, 8, [], false⟩

variable (builder : PacketPayloadBuilder)

def increaseSize (numBytes : BitVec 32) : PacketPayloadBuilder :=
  if builder.hasError then builder
  else
    match checkedAdd builder.headerSize numBytes with
    | none => { builder with hasError := true }
    | some headerSize =>
      { builder with
        headerSize
        hasError := !isPacketDataSizeValid headerSize builder.maxPacketDataSize }

/-- Appends bytes for which there is room. All parts of a payload are appended so; sizes are cast to
32 bits. -/
def appendBytes (bytes : List ℕ) : PacketPayloadBuilder :=
  let numBytes := BitVec.ofNat 32 bytes.length
  let increased := builder.increaseSize numBytes
  if increased.hasError then increased
  else { increased with buffers := increased.buffers ++ bytes.take numBytes.toNat }

def appendEntity (entity : List ℕ) : PacketPayloadBuilder := builder.appendBytes entity

def appendRange {T : Type} (bytes : T → List ℕ) (range : List T) : PacketPayloadBuilder :=
  builder.appendBytes (range.flatMap bytes)

def appendValue (count : ℕ) (value : BitVec (8 * count)) : PacketPayloadBuilder :=
  builder.appendBytes (word count value)

def appendValues {T : Type} (bytes : T → List ℕ) (values : List T) : PacketPayloadBuilder :=
  builder.appendBytes (values.flatMap bytes)

def build : Option (List ℕ) := if builder.hasError then none else some builder.buffers

/-- Nothing has failed, and the bytes given have been appended. -/
structure Holds (bytes : List ℕ) : Prop where
  success : builder.hasError = false
  buffers : builder.buffers = bytes
  size : builder.headerSize.toNat = sizeofPacketHeader + bytes.length
  within : bytes.length ≤ builder.maxPacketDataSize.toNat
  limit : builder.maxPacketDataSize = defaultMaxPacketDataSize

variable {builder} {bytes more : List ℕ}

private theorem holds_create : create.Holds [] := ⟨rfl, rfl, rfl, Nat.zero_le _, rfl⟩

private theorem checkedAdd_eq (value delta : BitVec 32) : checkedAdd value delta =
      if 2 ^ 32 ≤ value.toNat + delta.toNat then none else some (value + delta) := by
  have large := value.isLt
  have largeToo := delta.isLt
  have overflow : BitVec.allOnes 32 - delta < value ↔ 2 ^ 32 ≤ value.toNat + delta.toNat := by
    rw [BitVec.lt_def, BitVec.toNat_sub_of_le (BitVec.le_def.mpr (by
      rw [BitVec.toNat_allOnes]
      omega)), BitVec.toNat_allOnes]
    omega
  rw [checkedAdd]
  exact if_congr overflow rfl rfl

private theorem appendBytes_error (failed : builder.hasError = true) (more : List ℕ) :
    (builder.appendBytes more).hasError = true := by
  rw [appendBytes, increaseSize, if_pos failed, if_pos failed, failed]

private theorem Holds.appendBytes (holds : builder.Holds bytes)
    (fits : (bytes ++ more).length ≤ defaultMaxPacketDataSize.toNat) :
    (builder.appendBytes more).Holds (bytes ++ more) := by
  have maximum : defaultMaxPacketDataSize.toNat = 104857600 := by decide
  have header : sizeofPacketHeader = 8 := rfl
  have size := holds.size
  rw [length_append] at fits
  have numBytes : (BitVec.ofNat 32 more.length).toNat = more.length := by
    rw [BitVec.toNat_ofNat]
    exact Nat.mod_eq_of_lt (by omega)
  have sum : (builder.headerSize + BitVec.ofNat 32 more.length).toNat =
      sizeofPacketHeader + (bytes ++ more).length := by
    rw [BitVec.toNat_add, numBytes, length_append, Nat.mod_eq_of_lt (by omega)]
    omega
  have valid : isPacketDataSizeValid (builder.headerSize + BitVec.ofNat 32 more.length)
      builder.maxPacketDataSize = true := by
    rw [isPacketDataSizeValid, sum, holds.limit, length_append, Bool.and_eq_true,
      decide_eq_true_eq, decide_eq_true_eq]
    omega
  have increased : builder.increaseSize (BitVec.ofNat 32 more.length) =
      { builder with
        headerSize := builder.headerSize + BitVec.ofNat 32 more.length
        hasError := false } := by
    rw [increaseSize, if_neg (by rw [holds.success]; exact Bool.false_ne_true), checkedAdd_eq,
      if_neg (by omega)]
    dsimp only
    rw [valid]
    rfl
  rw [PacketPayloadBuilder.appendBytes, increased]
  refine ⟨rfl, ?_, sum, ?_, holds.limit⟩
  · simp [numBytes, take_length, holds.buffers]
  · simp [holds.limit, length_append, fits]

private theorem Holds.appendBytes_error (holds : builder.Holds bytes) (small : more.length < 2 ^ 32)
    (exceeds : defaultMaxPacketDataSize.toNat < (bytes ++ more).length) :
    (builder.appendBytes more).hasError = true := by
  have maximum : defaultMaxPacketDataSize.toNat = 104857600 := by decide
  have header : sizeofPacketHeader = 8 := rfl
  have size := holds.size
  rw [length_append] at exceeds
  have numBytes : (BitVec.ofNat 32 more.length).toNat = more.length := by simp_all
  have failed : (builder.increaseSize (BitVec.ofNat 32 more.length)).hasError = true := by
    rw [increaseSize, if_neg (by rw [holds.success]; exact Bool.false_ne_true), checkedAdd_eq,
      numBytes]
    split
    · rfl
    · next headerSize added =>
      split at added
      · cases added
      · obtain rfl := Option.some_inj.mp added
        rw [isPacketDataSizeValid, BitVec.toNat_add, numBytes, Nat.mod_eq_of_lt (by omega),
          holds.limit, Bool.not_eq_true', Bool.and_eq_false_iff, decide_eq_false_iff_not,
          decide_eq_false_iff_not]
        omega
  rw [PacketPayloadBuilder.appendBytes, if_pos failed, failed]

private theorem Holds.foldl_appendBytes (holds : builder.Holds bytes) (parts : List (List ℕ))
    (fits : (bytes ++ parts.flatten).length ≤ defaultMaxPacketDataSize.toNat) :
    (parts.foldl PacketPayloadBuilder.appendBytes builder).Holds (bytes ++ parts.flatten) := by
  induction parts generalizing builder bytes with
  | nil =>
    rw [flatten_nil, append_nil]
    exact holds
  | cons part parts ih =>
    rw [flatten_cons, ← append_assoc] at fits ⊢
    refine ih (holds.appendBytes ?_) fits
    rw [length_append] at fits
    omega

private theorem foldl_appendBytes_of_error (failed : builder.hasError = true)
    (parts : List (List ℕ)) :
    (parts.foldl PacketPayloadBuilder.appendBytes builder).hasError = true := by
  induction parts generalizing builder with
  | nil => exact failed
  | cons part parts ih => exact ih (PacketPayloadBuilder.appendBytes_error failed part)

private theorem Holds.foldl_appendBytes_error (holds : builder.Holds bytes) (parts : List (List ℕ))
    (small : ∀ part ∈ parts, part.length < 2 ^ 32)
    (exceeds : defaultMaxPacketDataSize.toNat < (bytes ++ parts.flatten).length) :
    (parts.foldl PacketPayloadBuilder.appendBytes builder).hasError = true := by
  induction parts generalizing builder bytes with
  | nil =>
    rw [flatten_nil, append_nil] at exceeds
    have within := holds.within
    rw [holds.limit] at within
    omega
  | cons part parts ih =>
    obtain ⟨smallPart, smallParts⟩ := forall_mem_cons.mp small
    rw [flatten_cons, ← append_assoc] at exceeds
    by_cases fits : (bytes ++ part).length ≤ defaultMaxPacketDataSize.toNat
    · exact ih (holds.appendBytes fits) smallParts exceeds
    · exact foldl_appendBytes_of_error
        (holds.appendBytes_error smallPart (Nat.lt_of_not_le fits)) parts

theorem build_foldl_appendBytes (parts : List (List ℕ))
    (small : ∀ part ∈ parts, part.length < 2 ^ 32) :
    (parts.foldl PacketPayloadBuilder.appendBytes create).build =
      if parts.flatten.length ≤ defaultMaxPacketDataSize.toNat then some parts.flatten
      else none := by
  rw [build]
  by_cases fits : parts.flatten.length ≤ defaultMaxPacketDataSize.toNat
  · have holds := holds_create.foldl_appendBytes parts fits
    rw [if_pos fits, holds.success, if_neg Bool.false_ne_true, holds.buffers, nil_append]
  · rw [if_neg fits, if_pos (holds_create.foldl_appendBytes_error parts small (by
      rw [nil_append]
      omega))]

end PacketPayloadBuilder

def entitySize (entity : List ℕ) : ℕ := ofLittleEndian (entity.take 4)

def readVariable : Reader (List ℕ) := fun bytes =>
  if 4 ≤ bytes.length ∧ entitySize bytes ≤ bytes.length then
    some (bytes.take (entitySize bytes), bytes.drop (entitySize bytes))
  else none

theorem reads_readVariable {entity : List ℕ} (minimum : 4 ≤ entity.length)
    (sized : entitySize entity = entity.length) : Reads readVariable entity entity := by
  intro rest
  have same : entitySize (entity ++ rest) = entity.length := by
    rw [entitySize, take_append_of_le_length minimum]
    exact sized
  rw [readVariable, same, if_pos (by rw [length_append]; omega), take_left, drop_left]

theorem takes_readVariable : Takes readVariable fun entity taken =>
    taken = entity ∧ (4 ≤ entitySize entity → entitySize entity = entity.length) := by
  intro input value rest _ read
  rw [readVariable] at read
  split at read
  · next enough =>
    obtain ⟨rfl, rfl⟩ := Prod.mk.inj (Option.some_inj.mp read)
    refine ⟨_, (take_append_drop _ _).symm, rfl, fun minimum => ?_⟩
    have least : 4 ≤ entitySize input := by
      refine minimum.trans ?_
      rw [entitySize, take_take, Nat.min_comm, ← take_take]
      exact ofLittleEndian_take_le _ _
    rw [entitySize, take_take, Nat.min_eq_left least, length_take_of_le enough.2]
    rfl
  · cases read

end BitxorCore.Ionet
