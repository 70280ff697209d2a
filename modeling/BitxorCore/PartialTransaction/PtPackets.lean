/- GID: PartialTransaction/PtPackets
   anchors: [extensions/partialtransaction, src/bitxorcore/model]
   digest: A packet is accepted exactly if it is the encoding of infos, which are then returned. -/

import BitxorCore.Ionet.PacketPayload
import BitxorCore.PartialTransaction.MemoryPtCache
import Mathlib.Data.Nat.Bitwise

set_option autoImplicit false
set_option relaxedAutoImplicit false

namespace BitxorCore.PartialTransactions
open Library Library.Bytes Ionet

/-- Information about a transaction. The hash is set, or the transaction, given by its bytes. -/
structure CosignedTransactionInfo where
  entityHash : Hash256
  transaction : Option (List ℕ)
  cosignatures : List Cosignature
  deriving DecidableEq

structure TransactionPlugin where
  supportsTopLevel : Bool
  isSizeValid : List ℕ → Bool

abbrev TransactionRegistry := ℕ → Option TransactionPlugin

def sizeofTransaction : ℕ := 0x80

def transactionType (transaction : List ℕ) : ℕ := ofLittleEndian ((transaction.drop 0x6E).take 2)

def isSizeValid (registry : TransactionRegistry) (transaction : List ℕ) : Bool :=
  if entitySize transaction < sizeofTransaction then false
  else
    match registry (transactionType transaction) with
    | none => false
    | some plugin => plugin.supportsTopLevel && plugin.isSizeValid transaction

def getPaddingSize (size alignment : ℕ) : ℕ :=
  if size % alignment = 0 then 0 else alignment - size % alignment

def zeroBytes (count : ℕ) : List ℕ := List.replicate count 0

/-- The tag: the number of cosignatures, and a bit for a transaction. -/
def tagOf (info : CosignedTransactionInfo) : BitVec 64 :=
  let numCosignatures := BitVec.ofNat 16 info.cosignatures.length
  if info.transaction.isSome then 0x8000 ||| numCosignatures.setWidth 64
  else numCosignatures.setWidth 64

variable (builder : PacketPayloadBuilder)

def appendTransactionInfo (info : CosignedTransactionInfo) :
    PacketPayloadBuilder :=
  let tagged := builder.appendValue 8 (tagOf info)
  let appended := match info.transaction with
    | some transaction =>
      (tagged.appendEntity transaction).appendValues (fun byte => [byte])
        (zeroBytes (getPaddingSize (entitySize transaction) 8))
    | none => tagged.appendRange (array 32) [info.entityHash]
  appended.appendRange Cosignature.bytes info.cosignatures

/-- The payload with which the handler answers, if it is not too large. -/
def buildPacket (infos : List CosignedTransactionInfo) : Option (List ℕ) :=
  (infos.foldl appendTransactionInfo .create).build

def readZeros : ℕ → Reader Unit
  | 0 => pure ()
  | count + 1 => do
    let byte ← readWord 1
    if byte = 0 then readZeros count else fun _ => none

def readCosignature : Reader Cosignature := do
  let version ← readWord 8
  let signerPublicKey ← readArray 32
  let signature ← readArray 64
  return ⟨version, signerPublicKey, signature⟩

def readEntity (isValid : List ℕ → Bool) (tag : BitVec 16) : Reader (Hash256 × Option (List ℕ)) :=
  if tag &&& 0x8000 ≠ 0 then do
    let transaction ← readVariable
    if isValid transaction then do
      readZeros (getPaddingSize (entitySize transaction) 8)
      return (0, some transaction)
    else fun _ => none
  else do
    let hash ← readArray 32
    return (hash, none)

def readCosignedTransactionInfo (isValid : List ℕ → Bool) : Reader CosignedTransactionInfo := do
  let tag ← readWord 2
  readZeros 6
  let entity ← readEntity isValid tag
  let cosignatures ← readMany readCosignature (tag &&& 0x7FFF).toNat
  return ⟨entity.1, entity.2, cosignatures⟩

/-- Reads until nothing is left. No round goes without a byte, so there are at most as many rounds
as bytes. -/
def readCosignedTransactionInfos (isValid : List ℕ → Bool) :
    ℕ → List ℕ → Option (List CosignedTransactionInfo)
  | _, [] => some []
  | 0, _ :: _ => none
  | rounds + 1, byte :: bytes => do
    let (info, rest) ← readCosignedTransactionInfo isValid (byte :: bytes)
    let infos ← readCosignedTransactionInfos isValid rounds rest
    return info :: infos

def extractCosignedTransactionInfosFromPacket (packet : Packet) (isValid : List ℕ → Bool) :
    List CosignedTransactionInfo :=
  (readCosignedTransactionInfos isValid packet.data.length packet.data).getD []

def tryParseResult (registry : TransactionRegistry) (packet : Packet) :
    Option (List CosignedTransactionInfo) :=
  let result := extractCosignedTransactionInfosFromPacket packet (isSizeValid registry)
  if !result.isEmpty || sizeofPacketHeader == packet.size then some result else none

def parts (info : CosignedTransactionInfo) : List (List ℕ) :=
  word 8 (tagOf info) ::
    (match info.transaction with
      | some transaction =>
        [transaction, zeroBytes (getPaddingSize (entitySize transaction) 8)]
      | none => [array 32 info.entityHash]) ++
    [info.cosignatures.flatMap Cosignature.bytes]

def encode (info : CosignedTransactionInfo) : List ℕ := (parts info).flatten

def encodeAll (infos : List CosignedTransactionInfo) : List ℕ := infos.flatMap encode

structure Encodable (registry : TransactionRegistry) (info : CosignedTransactionInfo) : Prop where
  few : info.cosignatures.length < 32768
  sized : ∀ transaction ∈ info.transaction, entitySize transaction = transaction.length
  areBytes : ∀ transaction ∈ info.transaction, AreBytes transaction
  valid : ∀ transaction ∈ info.transaction, isSizeValid registry transaction

def cleared (info : CosignedTransactionInfo) : CosignedTransactionInfo :=
  { info with entityHash := if info.transaction.isSome then 0 else info.entityHash }

open List PacketPayloadBuilder Option Cosignature

variable {registry : TransactionRegistry} {info : CosignedTransactionInfo}

variable (tag : BitVec 16)

private theorem tag_and_eq_zero_iff : tag &&& 0x8000 = 0 ↔ tag.toNat < 32768 := by
  have bit : tag.toNat &&& 32768 = (tag.toNat.testBit 15).toNat * 32768 := Nat.and_two_pow _ 15
  have bound := tag.isLt
  rw [← BitVec.toNat_inj, BitVec.toNat_and]
  change tag.toNat &&& 32768 = 0 ↔ _
  rw [bit, Nat.testBit_eq_decide_div_mod_eq]
  by_cases upper : tag.toNat / 2 ^ 15 % 2 = 1
  · rw [decide_eq_true upper, Bool.toNat_true]
    omega
  · rw [decide_eq_false upper, Bool.toNat_false]
    omega

private theorem tag_and_toNat : (tag &&& 0x7FFF).toNat = tag.toNat % 32768 := by
  rw [BitVec.toNat_and]
  exact Nat.and_two_pow_sub_one_eq_mod _ 15

private theorem tagOf_toNat (few : info.cosignatures.length < 32768) :
    (tagOf info).toNat = (if info.transaction.isSome then 32768 else 0) +
      info.cosignatures.length := by
  have count : ((BitVec.ofNat 16 info.cosignatures.length).setWidth 64).toNat =
      info.cosignatures.length := by
    rw [BitVec.toNat_setWidth, BitVec.toNat_ofNat, Nat.mod_eq_of_lt (by omega),
      Nat.mod_eq_of_lt (by omega)]
  rw [tagOf]
  split
  · rw [BitVec.toNat_or, count]
    exact (Nat.two_pow_add_eq_or_of_lt (i := 15) few 1).symm
  · rw [count, Nat.zero_add]

def shortTag (info : CosignedTransactionInfo) : BitVec 16 := (tagOf info).setWidth 16

private theorem shortTag_toNat (few : info.cosignatures.length < 32768) :
    (shortTag info).toNat = (if info.transaction.isSome then 32768 else 0) +
      info.cosignatures.length := by
  rw [shortTag, BitVec.toNat_setWidth, tagOf_toNat few]
  split <;> omega

private theorem word_tagOf (few : info.cosignatures.length < 32768) :
    word 8 (tagOf info) = word 2 (shortTag info) ++ zeroBytes 6 := by
  have small : (tagOf info).toNat < 256 ^ 2 := by
    rw [tagOf_toNat few]
    split <;> omega
  rw [word, word, shortTag_toNat few, ← tagOf_toNat few]
  exact littleEndian_add small 6

private theorem appendTransactionInfo_eq (info : CosignedTransactionInfo) :
    appendTransactionInfo builder info = (parts info).foldl appendBytes builder := by
  rw [appendTransactionInfo, parts]
  cases info.transaction with
  | none =>
    have hash : [info.entityHash].flatMap (array 32) = array 32 info.entityHash :=
      flatMap_singleton _ _
    rw [appendRange, appendRange, hash]
    rfl
  | some transaction =>
    dsimp only
    rw [appendValues, flatMap_singleton']
    rfl

variable (cosig : Cosignature)

private theorem length_bytes : cosig.bytes.length = sizeofCosignature := by
  rw [bytes, length_append, length_append, length_word, length_array, length_array]
  rfl

private theorem getPaddingSize_lt (size : ℕ) : getPaddingSize size 8 < 8 := by
  rw [getPaddingSize]
  split <;> omega

private theorem Encodable.length_part_lt (encodable : Encodable registry info) :
    ∀ part ∈ parts info, part.length < 2 ^ 32 := by
  have table : (info.cosignatures.flatMap bytes).length < 2 ^ 32 := by
    have few := encodable.few
    rw [length_flatMap length_bytes, sizeofCosignature]
    omega
  have tag : (word 8 (tagOf info)).length < 2 ^ 32 := by
    rw [length_word]
    decide
  rw [parts]
  cases here : info.transaction with
  | none =>
    have hash : (array 32 info.entityHash).length < 2 ^ 32 := by
      rw [length_array]
      decide
    simp only [cons_append, nil_append, forall_mem_cons]
    exact ⟨tag, hash, table, forall_mem_nil _⟩
  | some transaction =>
    have length : transaction.length < 2 ^ 32 := by
      rw [← encodable.sized transaction here, entitySize]
      have prefixBytes : AreBytes (transaction.take 4) := fun byte mem =>
        encodable.areBytes transaction here byte (mem_of_mem_take mem)
      refine (ofLittleEndian_lt prefixBytes).trans_le ?_
      exact (Nat.pow_le_pow_right (by decide) (length_take_le _ _)).trans (by decide)
    have padding : (zeroBytes (getPaddingSize (entitySize transaction) 8)).length < 2 ^ 32 := by
      rw [zeroBytes, length_replicate]
      exact (getPaddingSize_lt _).trans (by decide)
    simp only [cons_append, nil_append, forall_mem_cons]
    exact ⟨tag, length, padding, table, forall_mem_nil _⟩

private theorem buildPacket_eq {infos : List CosignedTransactionInfo}
    (encodable : ∀ info ∈ infos, Encodable registry info) :
    buildPacket infos =
      if (encodeAll infos).length ≤ defaultMaxPacketDataSize.toNat then some (encodeAll infos)
      else none := by
  have flat : (infos.flatMap parts).flatten = encodeAll infos := by
    clear encodable
    induction infos with
    | nil => rfl
    | cons info infos ih =>
      rw [flatMap_cons, flatten_append, ih]
      rfl
  have all : infos.foldl appendTransactionInfo .create =
      (infos.flatMap parts).foldl appendBytes .create := by
    rw [foldl_flatMap]
    exact congrArg (fun append => infos.foldl append .create)
      (funext fun builder => funext fun info => appendTransactionInfo_eq builder info)
  rw [buildPacket, all, build_foldl_appendBytes, flat]
  intro part mem
  obtain ⟨info, inside, here⟩ := mem_flatMap.mp mem
  exact (encodable info inside).length_part_lt part here

variable (count : ℕ)

private theorem zeroBytes_succ : zeroBytes (count + 1) = word 1 0 ++ zeroBytes count := rfl

private theorem reads_readZeros : Reads (readZeros count) (zeroBytes count) () := by
  induction count with
  | zero => exact Reads.pure ()
  | succ count ih =>
    rw [zeroBytes_succ]
    refine (reads_readWord 1 0).bind ?_
    rw [if_pos rfl]
    exact ih

private theorem takes_readZeros :
    Takes (readZeros count) fun _ taken => taken = zeroBytes count := by
  induction count with
  | zero => exact Takes.pure rfl
  | succ count ih =>
    refine (takes_readWord 1).bind fun byte taken _ here => ?_
    split
    · next zero =>
      refine ih.imp fun _ more _ rest => ?_
      rw [here, zero, rest, zeroBytes_succ]
    · exact Takes.throw

private theorem reads_readCosignature : Reads readCosignature cosig.bytes cosig := by
  rw [bytes, append_assoc]
  exact (reads_readWord 8 _).bind ((reads_readArray 32 _).bind
    ((reads_readArray 64 _).map (mk _ _)))

private theorem takes_readCosignature :
    Takes readCosignature fun cosig taken => taken = cosig.bytes := by
  refine (takes_readWord 8).bind fun version first _ here => ?_
  refine (takes_readArray 32).bind fun signer second _ hereToo => ?_
  refine (takes_readArray 64).bind fun signature third _ hereLast => Takes.pure ?_
  rw [here, hereToo, hereLast, append_nil, ← append_assoc]
  rfl

def entityBytes (info : CosignedTransactionInfo) : List ℕ :=
  match info.transaction with
  | some transaction => transaction ++ zeroBytes (getPaddingSize (entitySize transaction) 8)
  | none => array 32 info.entityHash

private theorem encode_eq (few : info.cosignatures.length < 32768) :
    encode info = word 2 (shortTag info) ++ (zeroBytes 6 ++ (entityBytes info ++
      info.cosignatures.flatMap bytes)) := by
  rw [encode, parts, entityBytes, cons_append, flatten_cons, word_tagOf few, append_assoc]
  cases info.transaction with
  | none => simp only [cons_append, nil_append, flatten_cons, flatten_nil, append_nil]
  | some transaction => simp only [cons_append, nil_append, flatten_cons,
      flatten_nil, append_nil, append_assoc]

private theorem sizeofTransaction_le_of_isSizeValid {transaction : List ℕ}
    (valid : isSizeValid registry transaction) : sizeofTransaction ≤ entitySize transaction := by
  by_contra small
  rw [isSizeValid, if_pos (Nat.lt_of_not_le small)] at valid
  exact Bool.false_ne_true valid

private theorem Encodable.reads_readEntity (encodable : Encodable registry info) :
    Reads (readEntity (isSizeValid registry) (shortTag info)) (entityBytes info)
      ((cleared info).entityHash, info.transaction) := by
  have tag := shortTag_toNat encodable.few
  have few := encodable.few
  rw [readEntity, entityBytes, cleared]
  cases here : info.transaction with
  | none =>
    rw [here] at tag
    have plain : shortTag info &&& 0x8000 = 0 := (tag_and_eq_zero_iff _).mpr (by
      rw [tag]
      simpa using few)
    rw [if_neg (not_not.mpr plain)]
    exact (reads_readArray 32 _).map fun hash => (hash, none)
  | some transaction =>
    rw [here] at tag
    have marked : shortTag info &&& 0x8000 ≠ 0 := fun plain => by
      have small := (tag_and_eq_zero_iff _).mp plain
      rw [tag] at small
      simp at small
    have valid := encodable.valid transaction here
    have sized := encodable.sized transaction here
    have minimum : 4 ≤ transaction.length := by
      rw [← sized]
      exact le_trans (by decide) (sizeofTransaction_le_of_isSizeValid valid)
    rw [if_pos marked]
    refine (reads_readVariable minimum sized).bind ?_
    rw [if_pos valid]
    exact (reads_readZeros _).map fun _ => (0, some transaction)

/-- What stands between the tag and the cosignatures of an info. -/
def EntityTaken (registry : TransactionRegistry) (tag : BitVec 16)
    (entity : Hash256 × Option (List ℕ)) (taken : List ℕ) : Prop :=
  match entity.2 with
  | none => tag.toNat < 32768 ∧ taken = array 32 entity.1
  | some transaction =>
    32768 ≤ tag.toNat ∧ entity.1 = 0 ∧
      taken = transaction ++ zeroBytes (getPaddingSize (entitySize transaction) 8) ∧
      entitySize transaction = transaction.length ∧ AreBytes transaction ∧
      isSizeValid registry transaction

private theorem takes_readEntity :
    Takes (readEntity (isSizeValid registry) tag) (EntityTaken registry tag) := by
  rw [readEntity]
  split
  · next marked =>
    have large : 32768 ≤ tag.toNat :=
      Nat.le_of_not_lt fun small => marked ((tag_and_eq_zero_iff tag).mpr small)
    refine takes_readVariable.bind fun transaction taken areBytes here => ?_
    obtain ⟨rfl, sized⟩ := here
    split
    · next valid =>
      refine (takes_readZeros _).bind fun _ more _ rest => Takes.pure ?_
      rw [append_nil, rest]
      refine ⟨large, rfl, rfl, sized ?_, areBytes, valid⟩
      exact le_trans (by decide) (sizeofTransaction_le_of_isSizeValid valid)
    · exact Takes.throw
  · next plain =>
    refine (takes_readArray 32).bind fun hash taken _ here => Takes.pure ?_
    rw [append_nil]
    exact ⟨(tag_and_eq_zero_iff tag).mp (not_not.mp plain), here⟩

private theorem Encodable.reads_readCosignedTransactionInfo (encodable : Encodable registry info) :
    Reads (readCosignedTransactionInfo (isSizeValid registry)) (encode info) (cleared info) := by
  have count : (shortTag info &&& 0x7FFF).toNat = info.cosignatures.length := by
    have few := encodable.few
    rw [tag_and_toNat, shortTag_toNat encodable.few]
    split <;> omega
  rw [encode_eq encodable.few]
  refine (reads_readWord 2 _).bind ((reads_readZeros 6).bind (encodable.reads_readEntity.bind ?_))
  rw [count]
  exact (reads_readMany reads_readCosignature info.cosignatures).map
    (CosignedTransactionInfo.mk (cleared info).entityHash info.transaction)

private theorem takes_readCosignedTransactionInfo :
    Takes (readCosignedTransactionInfo (isSizeValid registry)) fun info taken =>
      taken = encode info ∧ Encodable registry info ∧ cleared info = info := by
  refine (takes_readWord 2).bind fun tag first _ here => ?_
  refine (takes_readZeros 6).bind fun _ second _ zeros => ?_
  refine (takes_readEntity tag).bind fun entity third _ between => ?_
  refine (takes_readMany takes_readCosignature _).bind fun cosignatures last _ table =>
    Takes.pure ?_
  obtain ⟨hash, transaction⟩ := entity
  obtain ⟨length, table⟩ := table
  rw [tag_and_toNat] at length
  have few : cosignatures.length < 32768 := by omega
  have bound := tag.isLt
  have sameTag : shortTag ⟨hash, transaction, cosignatures⟩ = tag := by
    apply BitVec.eq_of_toNat_eq
    rw [shortTag_toNat few]
    dsimp only
    cases transaction with
    | none =>
      have small := between.1
      rw [isSome_none, if_neg Bool.false_ne_true]
      omega
    | some transaction =>
      have large := between.1
      rw [isSome_some, if_pos rfl]
      omega
  rw [encode_eq few, sameTag, here, zeros, table, append_nil]
  cases transaction with
  | none =>
    refine ⟨?_, ⟨few, ?_, ?_, ?_⟩, rfl⟩
    · rw [between.2]
      rfl
    all_goals exact fun _ mem => (some_ne_none _ mem.symm).elim
  | some transaction =>
    obtain ⟨_, cleared, taken, sized, areBytes, valid⟩ := between
    refine ⟨?_, ⟨few, ?_, ?_, ?_⟩, ?_⟩
    · rw [taken]
      rfl
    · rintro other ⟨⟩
      exact sized
    · rintro other ⟨⟩
      exact areBytes
    · rintro other ⟨⟩
      exact valid
    · rw [cleared]
      rfl

private theorem encode_ne_nil (info : CosignedTransactionInfo) : encode info ≠ [] := by
  intro empty
  have length := congrArg length empty
  rw [encode, parts, cons_append, flatten_cons, length_append, length_word] at length
  exact absurd length (by
    rw [length_nil]
    omega)

variable {infos : List CosignedTransactionInfo} {rounds : ℕ}

private theorem readCosignedTransactionInfos_encodeAll
    (encodable : ∀ info ∈ infos, Encodable registry info)
    (enough : (encodeAll infos).length ≤ rounds) :
    readCosignedTransactionInfos (isSizeValid registry) rounds (encodeAll infos) =
      some (infos.map cleared) := by
  induction infos generalizing rounds with
  | nil => cases rounds <;> rfl
  | cons info infos ih =>
    obtain ⟨here, later⟩ := forall_mem_cons.mp encodable
    have read := here.reads_readCosignedTransactionInfo (encodeAll infos)
    have positive : 0 < (encode info).length := length_pos_of_ne_nil (encode_ne_nil info)
    have split : encodeAll (info :: infos) = encode info ++ encodeAll infos := flatMap_cons
    rw [split, length_append] at enough
    rw [split]
    generalize bytes : encode info ++ encodeAll infos = input at read
    cases input with
    | nil => exact absurd (append_eq_nil_iff.mp bytes).1 (encode_ne_nil info)
    | cons byte rest =>
      cases rounds with
      | zero => omega
      | succ rounds =>
        rw [readCosignedTransactionInfos, read, bind_eq_bind, bind_some]
        dsimp only
        rw [ih later (by omega)]
        rfl

private theorem eq_encodeAll_of_readCosignedTransactionInfos {bytes : List ℕ}
    (areBytes : AreBytes bytes)
    (read : readCosignedTransactionInfos (isSizeValid registry) rounds bytes = some infos) :
    bytes = encodeAll infos ∧ ∀ info ∈ infos, Encodable registry info ∧ cleared info = info := by
  induction rounds generalizing bytes infos with
  | zero =>
    cases bytes with
    | nil =>
      obtain rfl := some_inj.mp read
      exact ⟨rfl, forall_mem_nil _⟩
    | cons byte rest => cases read
  | succ rounds ih =>
    cases bytes with
    | nil =>
      obtain rfl := some_inj.mp read
      exact ⟨rfl, forall_mem_nil _⟩
    | cons byte rest =>
      rw [readCosignedTransactionInfos] at read
      obtain ⟨⟨info, left⟩, first, read⟩ := bind_eq_some_iff.mp read
      obtain ⟨others, next, done⟩ := bind_eq_some_iff.mp read
      obtain rfl := some_inj.mp done
      obtain ⟨taken, split, rfl, encodable, same⟩ :=
        takes_readCosignedTransactionInfo _ _ _ areBytes first
      rw [split] at areBytes ⊢
      obtain ⟨rfl, encodableOthers⟩ := ih (areBytes_append.mp areBytes).2 next
      exact ⟨rfl, forall_mem_cons.mpr ⟨⟨encodable, same⟩, encodableOthers⟩⟩

private theorem areBytes_zeroBytes : AreBytes (zeroBytes count) := by
  intro byte mem
  rw [eq_of_mem_replicate mem]
  decide

private theorem areBytes_bytes : AreBytes cosig.bytes :=
  areBytes_append.mpr ⟨areBytes_append.mpr ⟨areBytes_word 8 _, areBytes_array 32 _⟩,
    areBytes_array 64 _⟩

private theorem Encodable.areBytes_encode (encodable : Encodable registry info) :
    AreBytes (encode info) := by
  have entity : AreBytes (entityBytes info) := by
    rw [entityBytes]
    cases here : info.transaction with
    | none => exact areBytes_array 32 _
    | some transaction =>
      exact areBytes_append.mpr ⟨encodable.areBytes transaction here, areBytes_zeroBytes _⟩
  have table : AreBytes (info.cosignatures.flatMap bytes) := by
    intro byte mem
    obtain ⟨cosig, _, inside⟩ := mem_flatMap.mp mem
    exact areBytes_bytes cosig byte inside
  rw [encode_eq encodable.few]
  exact areBytes_append.mpr ⟨areBytes_word 2 _, areBytes_append.mpr ⟨areBytes_zeroBytes 6,
    areBytes_append.mpr ⟨entity, table⟩⟩⟩

def packetOf (infos : List CosignedTransactionInfo)
    (encodable : ∀ info ∈ infos, Encodable registry info)
    (fits : (encodeAll infos).length ≤ defaultMaxPacketDataSize.toNat) : Packet where
  data := encodeAll infos
  areBytes byte mem := by
    obtain ⟨info, inside, here⟩ := mem_flatMap.mp mem
    exact (encodable info inside).areBytes_encode byte here
  fits := by
    have maximum : defaultMaxPacketDataSize.toNat = 104857600 := by decide
    rw [maximum] at fits
    rw [sizeofPacketHeader]
    omega

private theorem tryParseResult_of_read {packet : Packet}
    (read : readCosignedTransactionInfos (isSizeValid registry) packet.data.length packet.data =
      some infos) : tryParseResult registry packet = some infos := by
  have result : extractCosignedTransactionInfosFromPacket packet (isSizeValid registry) = infos := by
    rw [extractCosignedTransactionInfosFromPacket, read, getD_some]
  rw [tryParseResult, result]
  refine if_pos ?_
  cases infos with
  | nil =>
    obtain ⟨empty, _⟩ := eq_encodeAll_of_readCosignedTransactionInfos packet.areBytes read
    rw [Packet.size, empty]
    rfl
  | cons info infos => rfl

private theorem read_of_tryParseResult {packet : Packet}
    (accepted : tryParseResult registry packet = some infos) :
    readCosignedTransactionInfos (isSizeValid registry) packet.data.length packet.data =
      some infos := by
  cases read : readCosignedTransactionInfos (isSizeValid registry) packet.data.length
      packet.data with
  | some result => exact (tryParseResult_of_read read).symm.trans accepted
  | none =>
    -- an error gives an empty list, which is refused since there is data
    have result : extractCosignedTransactionInfosFromPacket packet (isSizeValid registry) = [] := by
      rw [extractCosignedTransactionInfosFromPacket, read, getD_none]
    have some : packet.data ≠ [] := by
      intro empty
      rw [empty] at read
      cases read
    have positive := length_pos_of_ne_nil some
    rw [tryParseResult, result, if_neg] at accepted
    · cases accepted
    · simp only [isEmpty_nil, Bool.not_true, Bool.false_or, beq_iff_eq, Packet.size]
      omega

/-- Infos with fewer than 32768 cosignatures and transactions of valid size, as many as fit into a
packet, are parsed into themselves, apart from hashes that a transaction makes redundant. A packet
is accepted only if it is, to the last byte, the encoding of the infos returned. -/
theorem packets_roundTrip (registry : TransactionRegistry) :
    (∀ infos, (∀ info ∈ infos, Encodable registry info) →
      (encodeAll infos).length ≤ defaultMaxPacketDataSize.toNat →
      ∃ packet : Packet, buildPacket infos = some packet.data ∧
        tryParseResult registry packet = some (infos.map cleared)) ∧
    ∀ (packet : Packet) (infos : List CosignedTransactionInfo),
      tryParseResult registry packet = some infos →
      packet.data = encodeAll infos ∧
        ∀ info ∈ infos, Encodable registry info ∧ cleared info = info := by
  constructor
  · intro infos encodable fits
    refine ⟨packetOf infos encodable fits, ?_, ?_⟩
    · rw [buildPacket_eq encodable, if_pos fits]
      rfl
    · exact tryParseResult_of_read (readCosignedTransactionInfos_encodeAll encodable le_rfl)
  · intro packet infos accepted
    exact eq_encodeAll_of_readCosignedTransactionInfos packet.areBytes
      (read_of_tryParseResult accepted)

def hashAndCosignature : CosignedTransactionInfo := ⟨7, none, [⟨0, 1, 2⟩]⟩

private theorem encodable_hashAndCosignature (registry : TransactionRegistry) :
    Encodable registry hashAndCosignature :=
  ⟨by decide, fun _ mem => (some_ne_none _ mem.symm).elim,
    fun _ mem => (some_ne_none _ mem.symm).elim,
    fun _ mem => (some_ne_none _ mem.symm).elim⟩

/-- A transaction of a size that is no multiple of the alignment. -/
def paddedTransaction : List ℕ := word 4 130 ++ zeroBytes 106 ++ word 2 0x4154 ++ zeroBytes 18

def transactionAndCosignature : CosignedTransactionInfo := ⟨5, paddedTransaction, [⟨0, 1, 2⟩]⟩

def transferRegistry : TransactionRegistry :=
  fun type => if type = 0x4154 then some ⟨true, fun transaction => transaction.length == 130⟩ else none

private theorem encodable_transactionAndCosignature :
    Encodable transferRegistry transactionAndCosignature := by
  refine ⟨by decide, ?_, ?_, ?_⟩ <;> intro transaction mem <;> obtain rfl := some_inj.mp mem
  · decide +kernel
  · unfold AreBytes
    decide +kernel
  · decide +kernel

theorem packets_roundTrip_padded :
    getPaddingSize (entitySize paddedTransaction) 8 = 6 ∧ ∃ packet : Packet,
      buildPacket [hashAndCosignature, transactionAndCosignature] = some packet.data ∧
        tryParseResult transferRegistry packet =
          some [hashAndCosignature, { transactionAndCosignature with entityHash := 0 }] := by
  refine ⟨by decide +kernel, (packets_roundTrip transferRegistry).1
    [hashAndCosignature, transactionAndCosignature] ?_ (by decide +kernel)⟩
  exact forall_mem_cons.mpr ⟨encodable_hashAndCosignature _,
    forall_mem_singleton.mpr encodable_transactionAndCosignature⟩

private theorem length_encodeAll_replicate (info : CosignedTransactionInfo) :
    (encodeAll (replicate count info)).length = count * (encode info).length := by
  induction count with
  | zero => exact (Nat.zero_mul _).symm
  | succ count ih =>
    have split : encodeAll (info :: replicate count info) =
        encode info ++ encodeAll (replicate count info) := flatMap_cons
    rw [replicate_succ, split, length_append, ih, Nat.succ_mul, Nat.add_comm]

/-- So many infos that no packet is built. -/
theorem buildPacket_too_large : (∀ info ∈ replicate 728178 hashAndCosignature,
      info.transaction = none ∧ info.cosignatures.length = 1) ∧
      buildPacket (replicate 728178 hashAndCosignature) = none := by
  constructor
  · intro info mem
    rw [eq_of_mem_replicate mem]
    exact ⟨rfl, rfl⟩
  · have encodable : ∀ info ∈ replicate 728178 hashAndCosignature,
        Encodable (fun _ => none) info := by
      intro info mem
      rw [eq_of_mem_replicate mem]
      exact encodable_hashAndCosignature _
    have length : (encode hashAndCosignature).length = 144 := by decide +kernel
    rw [buildPacket_eq encodable, length_encodeAll_replicate, length]
    exact if_neg (by decide)

end BitxorCore.PartialTransactions
