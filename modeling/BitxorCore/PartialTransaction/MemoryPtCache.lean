/- GID: PartialTransaction/MemoryPtCache
   anchors: [src/bitxorcore/cache_tx, src/bitxorcore/state, src/bitxorcore/model]
   digest: The size counter, the index and the sorted cosignatures of the partial transactions cache
     agree with what it holds, and it is limited while cosignatures leave it within its limit. -/

import BitxorCore.Library.Bytes
import BitxorCore.Library.KeyedList
import BitxorCore.Types
import Mathlib.Algebra.BigOperators.Group.List.Basic

set_option autoImplicit false
set_option relaxedAutoImplicit false

namespace BitxorCore.PartialTransactions
open Library Library.Bytes
open BitVec (eq_of_toNat_eq lt_def ofNat ofNat_add)

abbrev Timestamp := BitVec 64

structure Cosignature where
  version : BitVec 64
  signerPublicKey : Key
  signature : BitVec 512
  deriving DecidableEq

def Cosignature.bytes (cosig : Cosignature) : List ℕ :=
  word 8 cosig.version ++ array 32 cosig.signerPublicKey ++ array 64 cosig.signature

def sizeofCosignature : ℕ := 104

/-- What the cache reads of a transaction, which is known by its hash. -/
structure DetachedTransactionInfo where
  entityHash : Hash256
  size : BitVec 32
  deadline : Timestamp
  deriving DecidableEq

/-- A partial transaction and its cosignatures, sorted by their signers. -/
structure PtData where
  transactionInfo : DetachedTransactionInfo
  cosignatures : List Cosignature
  cosignaturesHash : Hash256
  deriving DecidableEq

structure TimestampedHash where
  time : Timestamp
  hash : Hash256
  deriving DecidableEq

def insertCosignature (cosig : Cosignature) : List Cosignature → List Cosignature
  | [] => [cosig]
  | other :: rest =>
    if other.signerPublicKey < cosig.signerPublicKey then
      other :: insertCosignature cosig rest
    else cosig :: other :: rest

namespace PtData

def create (transactionInfo : DetachedTransactionInfo) : PtData := ⟨transactionInfo, [], 0⟩

variable (data : PtData)

def entityHash : Hash256 := data.transactionInfo.entityHash

def timestampedHash : TimestampedHash :=
  ⟨data.transactionInfo.deadline, data.entityHash⟩

def hasCosignatory (signer : Key) : Bool :=
  data.cosignatures.any fun cosig => signer == cosig.signerPublicKey

def add (sha3 : List ℕ → Hash256) (data : PtData) (cosig : Cosignature) : Option PtData :=
  if data.hasCosignatory cosig.signerPublicKey then none
  else
    let cosignatures := insertCosignature cosig data.cosignatures
    some { data with cosignatures, cosignaturesHash := sha3 (cosignatures.flatMap (·.bytes)) }

def cosignaturesShortHash : BitVec 32 := toShortHash data.cosignaturesHash

def memory : ℕ :=
  data.transactionInfo.size.toNat + sizeofCosignature * data.cosignatures.length

end PtData

namespace TimestampedHash

def before (first second : TimestampedHash) : Bool :=
  decide (first.time < second.time) ||
    (decide (first.time = second.time) && decide (first.hash < second.hash))

def insertInto (entry : TimestampedHash) : List TimestampedHash → List TimestampedHash
  | [] => [entry]
  | other :: rest =>
    if other.before entry then other :: insertInto entry rest
    else if entry.before other then entry :: other :: rest
    else other :: rest

def Ascending (entries : List TimestampedHash) : Prop :=
  entries.Pairwise fun first second => first.before second

variable {first second third entry : TimestampedHash} {entries : List TimestampedHash}

private theorem before_iff : first.before second ↔ first.time.toNat < second.time.toNat ∨
    first.time.toNat = second.time.toNat ∧ first.hash.toNat < second.hash.toNat := by
  simp [before, lt_def, BitVec.toNat_inj]

private theorem before_trans (one : first.before second) (two : second.before third) :
    first.before third := by
  rw [before_iff] at *
  omega

private theorem eq_of_not_before (one : ¬first.before second) (two : ¬second.before first) :
    first = second := by
  rw [before_iff] at one two
  have sameTime : first.time = second.time := eq_of_toNat_eq (by omega)
  have sameHash : first.hash = second.hash := eq_of_toNat_eq (by omega)
  cases first
  cases second
  congr

private theorem mem_insertInto :
    third ∈ insertInto entry entries ↔ third = entry ∨ third ∈ entries := by
  induction entries with
  | nil => simp [insertInto]
  | cons other rest ih =>
    rw [insertInto]
    split
    · rw [List.mem_cons, ih, List.mem_cons]
      exact or_left_comm
    · next notAfter =>
      split
      · exact List.mem_cons
      · next notBefore =>
        have same := eq_of_not_before notAfter notBefore
        rw [List.mem_cons, same]
        exact ⟨Or.inr, fun found => found.elim Or.inl id⟩

private theorem Ascending.insertInto (ascending : Ascending entries) :
    Ascending (insertInto entry entries) := by
  induction entries with
  | nil => exact List.pairwise_singleton _ _
  | cons other rest ih =>
    obtain ⟨least, ascendingRest⟩ := List.pairwise_cons.mp ascending
    rw [TimestampedHash.insertInto]
    split
    · next smaller =>
      refine List.pairwise_cons.mpr ⟨fun later mem => ?_, ih ascendingRest⟩
      rcases mem_insertInto.mp mem with rfl | old
      · exact smaller
      · exact least later old
    · split
      · next smaller =>
        refine List.pairwise_cons.mpr ⟨fun later mem => ?_, ascending⟩
        rcases List.mem_cons.mp mem with rfl | old
        · exact smaller
        · exact before_trans smaller (least later old)
      · exact ascending

end TimestampedHash

/-- The held transactions in the order in which they are enumerated, the size of the cache and the
set of deadlines. -/
structure MemoryPtCache where
  transactionDataContainer : List PtData
  cacheSize : BitVec 64
  timestampedHashes : List TimestampedHash
  deriving DecidableEq

namespace MemoryPtCache

def create : MemoryPtCache := ⟨[], 0, []⟩

def find (cache : MemoryPtCache) (hash : Hash256) : Option PtData :=
  KeyedList.find PtData.entityHash cache.transactionDataContainer hash

/-- Adds a transaction without cosignatures, unless there is no room for it or it is held. -/
def add (maxCacheSize : BitVec 64) (cache : MemoryPtCache)
    (transactionInfo : DetachedTransactionInfo) : MemoryPtCache × Bool :=
  let transactionSize := transactionInfo.size.setWidth 64
  if maxCacheSize - cache.cacheSize < transactionSize then (cache, false)
  else if (cache.find transactionInfo.entityHash).isSome then (cache, false)
  else
    ({ transactionDataContainer := PtData.create transactionInfo :: cache.transactionDataContainer
       cacheSize := cache.cacheSize + transactionSize
       timestampedHashes := TimestampedHash.insertInto
         ⟨transactionInfo.deadline, transactionInfo.entityHash⟩ cache.timestampedHashes }, true)

def addCosignature (sha3 : List ℕ → Hash256) (cache : MemoryPtCache) (parentHash : Hash256)
    (cosig : Cosignature) : MemoryPtCache × Option DetachedTransactionInfo :=
  match cache.find parentHash with
  | none => (cache, none)
  | some data =>
    match data.add sha3 cosig with
    | none => (cache, none)
    | some cosigned =>
      ({ cache with
          transactionDataContainer := KeyedList.replaceKey PtData.entityHash
            cache.transactionDataContainer parentHash cosigned
          cacheSize := cache.cacheSize + ofNat 64 sizeofCosignature },
        some data.transactionInfo)

def erase (cache : MemoryPtCache) (data : PtData) : MemoryPtCache where
  transactionDataContainer :=
    KeyedList.eraseKey PtData.entityHash cache.transactionDataContainer data.entityHash
  cacheSize := cache.cacheSize - (data.transactionInfo.size.setWidth 64 +
    ofNat 64 (sizeofCosignature * data.cosignatures.length))
  timestampedHashes := cache.timestampedHashes.filter fun entry => entry != data.timestampedHash

def remove (cache : MemoryPtCache) (hash : Hash256) :
    MemoryPtCache × Option DetachedTransactionInfo :=
  match cache.find hash with
  | none => (cache, none)
  | some data => (cache.erase data, some data.transactionInfo)

/-- Erases the transaction with the earliest deadline until it is after `timestamp`. The loop ends
with the index, which every round makes smaller. -/
def pruneEarliest (timestamp : Timestamp) :
    ℕ → MemoryPtCache → MemoryPtCache × List DetachedTransactionInfo
  | 0, cache => (cache, [])
  | rounds + 1, cache =>
    match cache.timestampedHashes with
    | [] => (cache, [])
    | earliest :: _ =>
      if timestamp < earliest.time then (cache, [])
      else
        match cache.find earliest.hash with
        | none => (cache, [])
        | some data =>
          let pruned := pruneEarliest timestamp rounds (cache.erase data)
          (pruned.1, data.transactionInfo :: pruned.2)

/-- Removes the transactions with deadlines at or before a time. -/
def pruneTime (cache : MemoryPtCache) (timestamp : Timestamp) :
    MemoryPtCache × List DetachedTransactionInfo :=
  pruneEarliest timestamp cache.timestampedHashes.length cache

def pruneHashes (cache : MemoryPtCache) (hashPredicate : Hash256 → Bool) :
    MemoryPtCache × List DetachedTransactionInfo :=
  let pruned := cache.transactionDataContainer.filter fun data => hashPredicate data.entityHash
  (pruned.foldl erase cache, pruned.map (·.transactionInfo))

end MemoryPtCache

open List PtData KeyedList

/-- Cosignatures in the order of their signers, of which no two are the same. -/
def SignersAscend (cosignatures : List Cosignature) : Prop :=
  cosignatures.Pairwise fun first second =>
    first.signerPublicKey.toNat < second.signerPublicKey.toNat

def hashOfCosignatures (sha3 : List ℕ → Hash256) : List Cosignature → Hash256
  | [] => 0
  | first :: rest => sha3 ((first :: rest).flatMap (·.bytes))

section Cosignatures
variable {cosig other : Cosignature} {cosignatures : List Cosignature}

theorem insertCosignature_perm (cosig : Cosignature) (cosignatures : List Cosignature) :
    (insertCosignature cosig cosignatures).Perm (cosig :: cosignatures) := by
  induction cosignatures with
  | nil => exact List.Perm.refl _
  | cons first rest ih =>
    rw [insertCosignature]
    split
    · exact (ih.cons first).trans (List.Perm.swap _ _ _)
    · exact List.Perm.refl _

section
variable (ascend : SignersAscend cosignatures)
include ascend

private theorem SignersAscend.insertCosignature
    (fresh : ∀ other ∈ cosignatures, other.signerPublicKey ≠ cosig.signerPublicKey) :
    SignersAscend (insertCosignature cosig cosignatures) := by
  induction cosignatures with
  | nil => exact pairwise_singleton _ _
  | cons first rest ih =>
    obtain ⟨least, ascendRest⟩ := pairwise_cons.mp ascend
    obtain ⟨apart, freshRest⟩ := forall_mem_cons.mp fresh
    rw [PartialTransactions.insertCosignature]
    split
    · next smaller =>
      refine pairwise_cons.mpr ⟨fun later mem => ?_, ih ascendRest freshRest⟩
      rcases mem_cons.mp ((insertCosignature_perm _ _).mem_iff.mp mem) with rfl | old
      · exact lt_def.mp smaller
      · exact least later old
    · next notSmaller =>
      have apartNat : first.signerPublicKey.toNat ≠ cosig.signerPublicKey.toNat :=
        fun same => apart (eq_of_toNat_eq same)
      have larger : cosig.signerPublicKey.toNat < first.signerPublicKey.toNat := by
        rw [lt_def] at notSmaller
        omega
      refine pairwise_cons.mpr ⟨fun later mem => ?_, ascend⟩
      rcases mem_cons.mp mem with rfl | old
      · exact larger
      · exact larger.trans (least later old)

private theorem SignersAscend.nodup : (cosignatures.map Cosignature.signerPublicKey).Nodup := by
  refine pairwise_map.mpr (ascend.imp fun {first second} less same => ?_)
  rw [same] at less
  exact absurd less (lt_irrefl _)

private theorem SignersAscend.eq_of_same {others : List Cosignature}
    (otherAscend : SignersAscend others) (same : ∀ c, c ∈ cosignatures ↔ c ∈ others) :
    cosignatures = others := by
  have perm : cosignatures.Perm others :=
    (perm_ext_iff_of_nodup ascend.nodup.of_map otherAscend.nodup.of_map).mpr same
  refine perm.eq_of_pairwise (fun first second _ _ less greater => ?_) ascend otherAscend
  exact absurd (less.trans greater) (lt_irrefl _)

end

end Cosignatures

namespace PtData

structure WellCosigned (sha3 : List ℕ → Hash256) (data : PtData) : Prop where
  ascend : SignersAscend data.cosignatures
  hashed : data.cosignaturesHash = hashOfCosignatures sha3 data.cosignatures

variable {sha3 : List ℕ → Hash256} {data cosigned other : PtData} {cosig : Cosignature}

theorem hasCosignatory_iff {signer : Key} :
    data.hasCosignatory signer ↔ ∃ held ∈ data.cosignatures, held.signerPublicKey = signer := by
  rw [hasCosignatory, any_eq_true]
  exact exists_congr fun held => and_congr_right fun _ => beq_iff_eq.trans eq_comm

theorem add_eq_some_iff : data.add sha3 cosig = some cosigned ↔
    (∀ held ∈ data.cosignatures, held.signerPublicKey ≠ cosig.signerPublicKey) ∧
      cosigned = { data with
        cosignatures := insertCosignature cosig data.cosignatures
        cosignaturesHash := sha3 ((insertCosignature cosig data.cosignatures).flatMap
          (·.bytes)) } := by
  rw [add]
  split
  · next known =>
    obtain ⟨held, mem, same⟩ := hasCosignatory_iff.mp known
    simp only [reduceCtorEq, false_iff]
    exact fun fresh => fresh.1 held mem same
  · next unknown =>
    have fresh : ∀ held ∈ data.cosignatures,
        held.signerPublicKey ≠ cosig.signerPublicKey := fun held mem same =>
      unknown (hasCosignatory_iff.mpr ⟨held, mem, same⟩)
    rw [Option.some_inj]
    exact ⟨fun done => ⟨fresh, done.symm⟩, fun done => done.2.symm⟩

theorem transactionInfo_of_add (added : data.add sha3 cosig = some cosigned) :
    cosigned.transactionInfo = data.transactionInfo := by
  rw [(add_eq_some_iff.mp added).2]

private theorem memory_of_add (added : data.add sha3 cosig = some cosigned) :
    cosigned.memory = data.memory + sizeofCosignature := by
  obtain ⟨_, rfl⟩ := add_eq_some_iff.mp added
  rw [memory, memory, (insertCosignature_perm _ _).length_eq, length_cons, Nat.mul_succ,
    Nat.add_assoc]

private theorem hashOfCosignatures_insert (cosig : Cosignature) (cosignatures : List Cosignature) :
    hashOfCosignatures sha3 (insertCosignature cosig cosignatures) =
      sha3 ((insertCosignature cosig cosignatures).flatMap (·.bytes)) := by
  cases inserted : insertCosignature cosig cosignatures with
  | nil =>
    have length := (insertCosignature_perm cosig cosignatures).length_eq
    rw [inserted] at length
    cases length
  | cons first rest => rfl

private theorem wellCosigned_create (info : DetachedTransactionInfo) :
    (create info).WellCosigned sha3 := ⟨List.Pairwise.nil, rfl⟩

private theorem WellCosigned.of_add (well : data.WellCosigned sha3)
    (added : data.add sha3 cosig = some cosigned) : cosigned.WellCosigned sha3 := by
  obtain ⟨fresh, rfl⟩ := add_eq_some_iff.mp added
  exact ⟨well.ascend.insertCosignature fresh, (hashOfCosignatures_insert _ _).symm⟩

private theorem WellCosigned.hash_eq (well : data.WellCosigned sha3)
    (otherWell : other.WellCosigned sha3)
    (same : ∀ c, c ∈ data.cosignatures ↔ c ∈ other.cosignatures) :
    data.cosignaturesHash = other.cosignaturesHash := by
  rw [well.hashed, otherWell.hashed, well.ascend.eq_of_same otherWell.ascend same]

end PtData

namespace MemoryPtCache

def memoryOfAll (cache : MemoryPtCache) : ℕ :=
  (cache.transactionDataContainer.map PtData.memory).sum

/-- The size and the index are those of the held transactions. The size is counted by a word. -/
structure Kept (sha3 : List ℕ → Hash256) (cache : MemoryPtCache) : Prop where
  distinct : KeyedList.Distinct entityHash cache.transactionDataContainer
  size : cache.cacheSize = ofNat 64 cache.memoryOfAll
  ascending : TimestampedHash.Ascending cache.timestampedHashes
  indexed : ∀ entry, entry ∈ cache.timestampedHashes ↔
    ∃ data ∈ cache.transactionDataContainer, data.timestampedHash = entry
  cosigned : ∀ data ∈ cache.transactionDataContainer, data.WellCosigned sha3

variable {sha3 : List ℕ → Hash256} {maxCacheSize : BitVec 64} {cache : MemoryPtCache}
  {data : PtData} {info : DetachedTransactionInfo} {hash : Hash256} {cosig : Cosignature}

theorem kept_create (sha3 : List ℕ → Hash256) : create.Kept sha3 where
  distinct := nodup_nil
  size := rfl
  ascending := List.Pairwise.nil
  indexed := by simp [create]
  cosigned := by simp [create]

def added (cache : MemoryPtCache) (info : DetachedTransactionInfo) : MemoryPtCache where
  transactionDataContainer := PtData.create info :: cache.transactionDataContainer
  cacheSize := cache.cacheSize + info.size.setWidth 64
  timestampedHashes :=
    TimestampedHash.insertInto ⟨info.deadline, info.entityHash⟩ cache.timestampedHashes

theorem add_eq (maxCacheSize : BitVec 64) (cache : MemoryPtCache) (info : DetachedTransactionInfo) :
    cache.add maxCacheSize info = if maxCacheSize - cache.cacheSize < info.size.setWidth 64 ∨
          (cache.find info.entityHash).isSome then (cache, false)
      else (cache.added info, true) := by
  rw [add]
  split
  · next full => rw [if_pos (.inl full)]
  · next room =>
    split
    · next held => rw [if_pos (.inr held)]
    · next unheld => rw [if_neg (not_or.mpr ⟨room, unheld⟩)]; rfl

private theorem memoryOfAll_added :
    (cache.added info).memoryOfAll = info.size.toNat + cache.memoryOfAll := by
  simp [memoryOfAll, added, PtData.memory, PtData.create]

theorem setWidth_eq_ofNat (size : BitVec 32) : size.setWidth 64 = ofNat 64 size.toNat := by
  apply eq_of_toNat_eq
  rw [BitVec.toNat_setWidth, BitVec.toNat_ofNat]

theorem Kept.added (kept : cache.Kept sha3) (fresh : cache.find info.entityHash = none) :
    (cache.added info).Kept sha3 where
  distinct := kept.distinct.cons fresh
  size := by
    rw [memoryOfAll_added, Nat.add_comm, ofNat_add, ← kept.size, ← setWidth_eq_ofNat]
    rfl
  ascending := kept.ascending.insertInto
  indexed entry := by
    change entry ∈ TimestampedHash.insertInto _ _ ↔ ∃ data ∈ PtData.create info :: _, _
    rw [TimestampedHash.mem_insertInto, kept.indexed, exists_mem_cons_iff]
    exact or_congr_left eq_comm
  cosigned := forall_mem_cons.mpr ⟨PtData.wellCosigned_create info, kept.cosigned⟩

/-- The cache after one of its transactions is replaced by itself with one more cosignature. -/
def cosign (cache : MemoryPtCache) (hash : Hash256) (cosigned : PtData) : MemoryPtCache :=
  { cache with
    transactionDataContainer := replaceKey entityHash
      cache.transactionDataContainer hash cosigned
    cacheSize := cache.cacheSize + ofNat 64 sizeofCosignature }

theorem addCosignature_cases (sha3 : List ℕ → Hash256) (cache : MemoryPtCache) (hash : Hash256)
    (cosig : Cosignature) :
    cache.addCosignature sha3 hash cosig = (cache, none) ∧ (∀ data, cache.find hash = some data →
          data.hasCosignatory cosig.signerPublicKey) ∨
      ∃ data cosigned, cache.find hash = some data ∧ data.add sha3 cosig = some cosigned ∧
        cache.addCosignature sha3 hash cosig =
          (cache.cosign hash cosigned, some data.transactionInfo) := by
  rw [addCosignature]
  cases found : cache.find hash with
  | none => exact .inl ⟨rfl, fun _ held => (Option.some_ne_none _ held.symm).elim⟩
  | some data =>
    dsimp only
    cases done : data.add sha3 cosig with
    | none =>
      refine .inl ⟨rfl, fun other same => ?_⟩
      obtain rfl := Option.some_inj.mp same
      rw [PtData.add] at done
      by_contra unknown
      rw [if_neg unknown] at done
      exact Option.some_ne_none _ done
    | some cosigned => exact .inr ⟨data, cosigned, rfl, done, rfl⟩

section Cosign
variable {cosigned : PtData} (found : cache.find hash = some data)
  (done : data.add sha3 cosig = some cosigned)

include found done

private theorem entityHash_of_add : cosigned.entityHash = hash := by
  rw [entityHash, transactionInfo_of_add done]
  change data.entityHash = hash
  exact key_of_find found

private theorem Kept.memoryOfAll_cosign (kept : cache.Kept sha3) :
    (cache.cosign hash cosigned).memoryOfAll = cache.memoryOfAll + sizeofCosignature := by
  have same := key_of_find found
  have old := ((kept.distinct.perm_cons (mem_of_find found)).map PtData.memory).sum_eq
  have new := ((kept.distinct.perm_replaceKey (mem_of_find found) same cosigned).map
    PtData.memory).sum_eq
  rw [map_cons, sum_cons] at old new
  rw [same] at old
  change sum (map PtData.memory (replaceKey _ _ _ _)) = _
  rw [new, memory_of_add done, memoryOfAll, old]
  omega

theorem Kept.cosign (kept : cache.Kept sha3) : (cache.cosign hash cosigned).Kept sha3 where
  distinct := kept.distinct.replaceKey (entityHash_of_add found done)
  size := by
    rw [kept.memoryOfAll_cosign found done, ofNat_add, ← kept.size]
    rfl
  ascending := kept.ascending
  indexed entry := by
    have same := key_of_find found
    have present : ∃ old ∈ cache.transactionDataContainer, old.entityHash = hash :=
      ⟨data, mem_of_find found, same⟩
    have sameStamp : cosigned.timestampedHash = data.timestampedHash := by
      rw [timestampedHash, timestampedHash, entityHash, transactionInfo_of_add done]
      rfl
    change entry ∈ cache.timestampedHashes ↔ ∃ other ∈ replaceKey _ _ _ _, _
    rw [kept.indexed]
    constructor
    · rintro ⟨other, mem, rfl⟩
      by_cases here : other.entityHash = hash
      · have equal := kept.distinct.eq mem (mem_of_find found) (here.trans same.symm)
        exact ⟨cosigned, (mem_replaceKey present).mpr (.inl rfl), by
          rw [sameStamp, equal]⟩
      · exact ⟨other, (mem_replaceKey present).mpr (.inr ⟨mem, here⟩), rfl⟩
    · rintro ⟨other, mem, rfl⟩
      rcases (mem_replaceKey present).mp mem with rfl | ⟨old, _⟩
      · exact ⟨data, mem_of_find found, sameStamp.symm⟩
      · exact ⟨other, old, rfl⟩
  cosigned other mem := by
    have present : ∃ old ∈ cache.transactionDataContainer, old.entityHash = hash :=
      ⟨data, mem_of_find found, key_of_find found⟩
    rcases (mem_replaceKey present).mp mem with rfl | ⟨old, _⟩
    · exact (kept.cosigned data (mem_of_find found)).of_add done
    · exact kept.cosigned other old

end Cosign

section
variable (kept : cache.Kept sha3) (mem : data ∈ cache.transactionDataContainer)
include kept mem

theorem Kept.memoryOfAll_erase :
    cache.memoryOfAll = data.memory + (cache.erase data).memoryOfAll := by
  have split := ((kept.distinct.perm_cons mem).map PtData.memory).sum_eq
  rw [map_cons, sum_cons] at split
  exact split

theorem Kept.erase : (cache.erase data).Kept sha3 where
  distinct := kept.distinct.eraseKey _
  size := by
    have split := kept.memoryOfAll_erase mem
    have memory : data.transactionInfo.size.setWidth 64 +
        ofNat 64 (sizeofCosignature * data.cosignatures.length) =
          ofNat 64 data.memory := by
      rw [setWidth_eq_ofNat, ← ofNat_add, PtData.memory]
    change cache.cacheSize - _ = _
    rw [memory, kept.size, split, ofNat_add, BitVec.add_comm, BitVec.add_sub_cancel]
  ascending := kept.ascending.filter _
  indexed entry := by
    change entry ∈ cache.timestampedHashes.filter _ ↔ ∃ other ∈ eraseKey entityHash _ _, _
    rw [mem_filter, kept.indexed]
    constructor
    · rintro ⟨⟨other, held, rfl⟩, apart⟩
      refine ⟨other, mem_eraseKey.mpr ⟨held, fun same => ?_⟩, rfl⟩
      rw [kept.distinct.eq held mem same] at apart
      simp at apart
    · rintro ⟨other, held, rfl⟩
      obtain ⟨old, apart⟩ := mem_eraseKey.mp held
      refine ⟨⟨other, old, rfl⟩, bne_iff_ne.mpr fun same => apart ?_⟩
      exact (TimestampedHash.mk.inj same).2
  cosigned other held := kept.cosigned other (mem_eraseKey.mp held).1

end

theorem find_added (cache : MemoryPtCache) (info : DetachedTransactionInfo) (target : Hash256) :
    (cache.added info).find target =
      if info.entityHash = target then some (PtData.create info) else cache.find target :=
  find_cons _ _ _

theorem find_erase (cache : MemoryPtCache) (data : PtData) (target : Hash256) :
    (cache.erase data).find target = if target = data.entityHash then none else cache.find target :=
  find_eraseKey _ _ _

theorem find_cosign {cosigned : PtData} (found : cache.find hash = some data)
    (done : data.add sha3 cosig = some cosigned) (target : Hash256) :
    (cache.cosign hash cosigned).find target =
      if target = hash then some cosigned else cache.find target := by
  have here : KeyedList.find entityHash cache.transactionDataContainer hash = some data := found
  have replaced := KeyedList.find_replaceKey (entityHash_of_add found done)
    cache.transactionDataContainer target
  rw [here, Option.map_some] at replaced
  exact replaced

def Erased : MemoryPtCache → MemoryPtCache → Prop := Relation.ReflTransGen fun cache next =>
    ∃ data ∈ cache.transactionDataContainer, next = cache.erase data

private theorem erased_remove (cache : MemoryPtCache) (hash : Hash256) :
    Erased cache (cache.remove hash).1 := by
  rw [remove]
  cases found : cache.find hash with
  | none => exact .refl
  | some data => exact .single ⟨data, mem_of_find found, rfl⟩

private theorem erased_pruneEarliest (timestamp : Timestamp) (rounds : ℕ) (cache : MemoryPtCache) :
    Erased cache (pruneEarliest timestamp rounds cache).1 := by
  induction rounds generalizing cache with
  | zero => exact .refl
  | succ rounds ih =>
    rw [pruneEarliest]
    split
    · exact .refl
    · next earliest rest _ =>
      split
      · exact .refl
      · cases found : cache.find earliest.hash with
        | none => exact .refl
        | some data => exact .head ⟨data, mem_of_find found, rfl⟩ (ih (cache.erase data))

private theorem erased_foldl {pruned : List PtData}
    (distinct : KeyedList.Distinct entityHash pruned)
    (held : ∀ data ∈ pruned, data ∈ cache.transactionDataContainer) :
    Erased cache (pruned.foldl MemoryPtCache.erase cache) := by
  induction pruned generalizing cache with
  | nil => exact .refl
  | cons data rest ih =>
    obtain ⟨fresh, distinctRest⟩ := nodup_cons.mp distinct
    refine .head ⟨data, held data mem_cons_self, rfl⟩ (ih distinctRest fun other mem => ?_)
    refine mem_eraseKey.mpr ⟨held other (mem_cons_of_mem _ mem), fun same => ?_⟩
    exact fresh (same ▸ mem_map_of_mem mem)

private theorem Kept.erased_pruneHashes (kept : cache.Kept sha3) (hashPredicate : Hash256 → Bool) :
    Erased cache (cache.pruneHashes hashPredicate).1 :=
  erased_foldl (List.Nodup.sublist (List.Sublist.map _ filter_sublist) kept.distinct)
    fun _ mem => (mem_filter.mp mem).1

private theorem Kept.of_erased {next : MemoryPtCache} (kept : cache.Kept sha3)
    (erased : Erased cache next) :
    next.Kept sha3 ∧ next.memoryOfAll ≤ cache.memoryOfAll := by
  induction erased with
  | refl => exact ⟨kept, le_rfl⟩
  | tail _ last ih =>
    obtain ⟨keptNow, smaller⟩ := ih
    obtain ⟨data, mem, rfl⟩ := last
    have split := keptNow.memoryOfAll_erase mem
    exact ⟨keptNow.erase mem, by omega⟩

inductive Operation where
  | add (transactionInfo : DetachedTransactionInfo)
  | addCosignature (parentHash : Hash256) (cosig : Cosignature)
  | remove (hash : Hash256)
  | pruneTime (timestamp : Timestamp)
  | pruneHashes (hashPredicate : Hash256 → Bool)

def apply (sha3 : List ℕ → Hash256) (maxCacheSize : BitVec 64) (cache : MemoryPtCache) :
    Operation → MemoryPtCache
  | .add transactionInfo => (cache.add maxCacheSize transactionInfo).1
  | .addCosignature parentHash cosig => (cache.addCosignature sha3 parentHash cosig).1
  | .remove hash => (cache.remove hash).1
  | .pruneTime timestamp => (cache.pruneTime timestamp).1
  | .pruneHashes hashPredicate => (cache.pruneHashes hashPredicate).1

def run (sha3 : List ℕ → Hash256) (maxCacheSize : BitVec 64) (cache : MemoryPtCache)
    (ops : List Operation) : MemoryPtCache :=
  ops.foldl (apply sha3 maxCacheSize) cache

section
variable (kept : cache.Kept sha3) (maxCacheSize : BitVec 64)
include kept

private theorem Kept.apply_cases (op : Operation) :
    Erased cache (cache.apply sha3 maxCacheSize op) ∨
      (∃ info, ¬maxCacheSize - cache.cacheSize < info.size.setWidth 64 ∧
        cache.find info.entityHash = none ∧
        cache.apply sha3 maxCacheSize op = cache.added info) ∨
      ∃ hash cosig data cosigned, op = .addCosignature hash cosig ∧
        cache.find hash = some data ∧ data.add sha3 cosig = some cosigned ∧
        cache.apply sha3 maxCacheSize op = cache.cosign hash cosigned := by
  cases op with
  | add info =>
    rw [apply, add_eq]
    split
    · exact .inl .refl
    · next accepted =>
      obtain ⟨room, unheld⟩ := not_or.mp accepted
      exact .inr (.inl ⟨info, room, Option.not_isSome_iff_eq_none.mp unheld, rfl⟩)
  | addCosignature hash cosig =>
    rw [apply]
    rcases addCosignature_cases sha3 cache hash cosig with ⟨same, _⟩ |
      ⟨data, cosigned, found, done, next⟩
    · rw [same]
      exact .inl .refl
    · simp_all
  | remove hash => exact .inl (erased_remove cache hash)
  | pruneTime timestamp => exact .inl (erased_pruneEarliest timestamp _ cache)
  | pruneHashes hashPredicate => exact .inl (kept.erased_pruneHashes hashPredicate)

private theorem Kept.apply (op : Operation) : (cache.apply sha3 maxCacheSize op).Kept sha3 := by
  rcases kept.apply_cases maxCacheSize op with erased |
    ⟨info, _, fresh, next⟩ | ⟨hash, cosig, data, cosigned, _, found, done, next⟩
  · exact (kept.of_erased erased).1
  · exact next ▸ kept.added fresh
  · exact next ▸ kept.cosign found done

theorem Kept.run (ops : List Operation) : (cache.run sha3 maxCacheSize ops).Kept sha3 :=
  foldlRecOn ops _ kept fun _ keptNow op _ =>
    keptNow.apply maxCacheSize op

end

/-- A cosignature that is added leaves the cache within its maximum size. -/
def Fits (sha3 : List ℕ → Hash256) (maxCacheSize : BitVec 64) (cache : MemoryPtCache) :
    Operation → Prop
  | .addCosignature parentHash cosig =>
    (cache.addCosignature sha3 parentHash cosig).2.isSome →
      cache.cacheSize.toNat + sizeofCosignature ≤ maxCacheSize.toNat
  | _ => True

def FitsAll (sha3 : List ℕ → Hash256) (maxCacheSize : BitVec 64) :
    MemoryPtCache → List Operation → Prop
  | _, [] => True
  | cache, op :: rest =>
    cache.Fits sha3 maxCacheSize op ∧
      FitsAll sha3 maxCacheSize (cache.apply sha3 maxCacheSize op) rest

structure Limited (sha3 : List ℕ → Hash256) (maxCacheSize : BitVec 64) (cache : MemoryPtCache) :
    Prop extends Kept sha3 cache where
  within : cache.memoryOfAll ≤ maxCacheSize.toNat

section
variable (limited : cache.Limited sha3 maxCacheSize)
include limited

theorem Limited.cacheSize_toNat : cache.cacheSize.toNat = cache.memoryOfAll := by
  rw [limited.size, BitVec.toNat_ofNat]
  exact Nat.mod_eq_of_lt (lt_of_le_of_lt limited.within maxCacheSize.isLt)

theorem Limited.room_iff (info : DetachedTransactionInfo) :
    maxCacheSize - cache.cacheSize < info.size.setWidth 64 ↔
      maxCacheSize.toNat < cache.cacheSize.toNat + info.size.toNat := by
  have within : cache.cacheSize.toNat ≤ maxCacheSize.toNat :=
    limited.cacheSize_toNat.trans_le limited.within
  have small := info.size.isLt
  rw [lt_def, BitVec.toNat_sub_of_le (BitVec.le_def.mpr within), BitVec.toNat_setWidth,
    Nat.mod_eq_of_lt (by omega)]
  omega

private theorem Limited.apply {op : Operation} (fits : cache.Fits sha3 maxCacheSize op) :
    (cache.apply sha3 maxCacheSize op).Limited sha3 maxCacheSize := by
  refine ⟨limited.toKept.apply maxCacheSize op, ?_⟩
  have counted := limited.cacheSize_toNat
  rcases limited.toKept.apply_cases maxCacheSize op with erased |
    ⟨info, room, fresh, next⟩ | ⟨hash, cosig, data, cosigned, rfl, found, done, next⟩
  · exact (limited.toKept.of_erased erased).2.trans limited.within
  · rw [limited.room_iff info] at room
    rw [next, memoryOfAll_added]
    omega
  · have accepted : (cache.addCosignature sha3 hash cosig).2.isSome := by
      rw [addCosignature, found]
      dsimp only
      rw [done]
      rfl
    have bound := fits accepted
    rw [next, limited.toKept.memoryOfAll_cosign found done]
    omega

private theorem Limited.run {ops : List Operation} (fits : FitsAll sha3 maxCacheSize cache ops) :
    (cache.run sha3 maxCacheSize ops).Limited sha3 maxCacheSize := by
  induction ops generalizing cache with
  | nil => exact limited
  | cons op rest ih => exact ih (limited.apply fits.1) fits.2

end

/-- The accounts of a cache: its size, its index, its cosignatures and its limit. -/
structure Accounts (maxCacheSize : BitVec 64) (cache : MemoryPtCache) : Prop where
  memorySize : cache.cacheSize.toNat = (cache.transactionDataContainer.map fun data =>
    data.transactionInfo.size.toNat + sizeofCosignature * data.cosignatures.length).sum
  once : (cache.transactionDataContainer.map entityHash).Nodup
  index : ∀ entry, entry ∈ cache.timestampedHashes ↔
    ∃ data ∈ cache.transactionDataContainer, data.timestampedHash = entry
  indexOrder : cache.timestampedHashes.Pairwise fun first second => first.before second
  signers : ∀ data ∈ cache.transactionDataContainer,
    (data.cosignatures.map Cosignature.signerPublicKey).Nodup
  refused : ∀ info : DetachedTransactionInfo,
    maxCacheSize.toNat < cache.cacheSize.toNat + info.size.toNat →
      cache.add maxCacheSize info = (cache, false)

/-- While every cosignature leaves the cache within its maximum size, its accounts are kept, and
hashes of cosignatures depend on the sets of cosignatures only. -/
theorem accounts_run (sha3 : List ℕ → Hash256) (maxCacheSize : BitVec 64)
    (ops : List Operation) (fits : FitsAll sha3 maxCacheSize create ops) :
    (create.run sha3 maxCacheSize ops).Accounts maxCacheSize ∧
      ∀ others, ∀ data ∈ (create.run sha3 maxCacheSize ops).transactionDataContainer,
        ∀ other ∈ (create.run sha3 maxCacheSize others).transactionDataContainer,
          (∀ cosig, cosig ∈ data.cosignatures ↔ cosig ∈ other.cosignatures) →
            data.cosignaturesShortHash = other.cosignaturesShortHash := by
  have limited := Limited.run ⟨kept_create sha3, Nat.zero_le _⟩ fits
  refine ⟨⟨limited.cacheSize_toNat, limited.distinct, limited.indexed, limited.ascending,
    fun data mem => (limited.cosigned data mem).ascend.nodup, fun info exceeds => ?_⟩, ?_⟩
  · rw [add_eq, if_pos (.inl ((limited.room_iff info).mpr exceeds))]
  · intro others data mem other otherMem same
    have otherKept := (kept_create sha3).run maxCacheSize others
    exact congrArg toShortHash
      ((limited.cosigned data mem).hash_eq (otherKept.cosigned other otherMem) same)

theorem accounts_run_one :
    (create.run (fun _ => 0) 1000 [.add ⟨7, 500, 3⟩, .addCosignature 7 ⟨0, 1, 0⟩]).Accounts 1000 ∧
      (create.run (fun _ => 0) 1000 [.add ⟨7, 500, 3⟩, .addCosignature 7 ⟨0, 1, 0⟩]).cacheSize =
        604 :=
  ⟨(accounts_run (fun _ => 0) 1000 [.add ⟨7, 500, 3⟩, .addCosignature 7 ⟨0, 1, 0⟩]
    ⟨trivial, fun _ => by decide, trivial⟩).1, by decide⟩

/-- A cosignature brings a full cache above its maximum size, after which the difference wraps
around and another transaction is added. -/
theorem add_above_maximum : 1000 < (create.run (fun _ => 0) 1000
        [.add ⟨7, 1000, 3⟩, .addCosignature 7 ⟨0, 1, 0⟩]).cacheSize.toNat + 500 ∧
      ((create.run (fun _ => 0) 1000
        [.add ⟨7, 1000, 3⟩, .addCosignature 7 ⟨0, 1, 0⟩]).add 1000 ⟨8, 500, 3⟩).2 = true := by
  decide

end MemoryPtCache

end BitxorCore.PartialTransactions
