/- GID: PartialTransaction/PtUpdater
   anchors: [extensions/partialtransaction]
   digest: A refresh keeps its transaction while the cache is within its limit. -/

import BitxorCore.PartialTransaction.MemoryPtCache

set_option autoImplicit false
set_option relaxedAutoImplicit false

namespace BitxorCore.PartialTransactions

inductive CosignatoriesValidationResult where
  | failure
  | ineligible
  | missing
  | success
  deriving DecidableEq

/-- What the validators say about a transaction with cosignatures. -/
abbrev CosignatoriesValidator :=
  DetachedTransactionInfo → List Cosignature → CosignatoriesValidationResult

structure StaleTransactionInfo where
  aggregateHash : Hash256
  eligibleCosignatures : List Cosignature
  deriving DecidableEq

structure CheckEligibilityResult where
  validationResult : CosignatoriesValidationResult
  staleTransactionInfo : Option StaleTransactionInfo
  deriving DecidableEq

namespace CheckEligibilityResult

def ofValidationResult (validationResult : CosignatoriesValidationResult) :
    CheckEligibilityResult :=
  ⟨validationResult, none⟩

variable (result : CheckEligibilityResult)

def isEligible : Bool :=
  result.validationResult == .missing || result.validationResult == .success

def isPurgeRequired : Bool := result.validationResult == .failure

end CheckEligibilityResult

variable (validateCosignatories : CosignatoriesValidator)

def stillEligible (data : PtData) :
    List Cosignature :=
  data.cosignatures.filter fun existing =>
    validateCosignatories data.transactionInfo [existing] != .ineligible

/-- Checks a new cosignature before its signature is verified, and finds out whether existing
cosignatures are stale. -/
def checkEligibility (cache : MemoryPtCache)
    (parentHash : Hash256) (cosig : Cosignature) : CheckEligibilityResult :=
  match cache.find parentHash with
  | none => .ofValidationResult .ineligible
  | some data =>
    if data.hasCosignatory cosig.signerPublicKey then .ofValidationResult .ineligible
    else
      let validateAll := validateCosignatories data.transactionInfo
        (data.cosignatures ++ [⟨0, cosig.signerPublicKey, cosig.signature⟩])
      if validateAll ≠ .ineligible then .ofValidationResult validateAll
      else
        let validateNew := validateCosignatories data.transactionInfo [cosig]
        if validateNew = .ineligible then .ofValidationResult .ineligible
        else
          { CheckEligibilityResult.ofValidationResult validateNew with
            staleTransactionInfo := some ⟨parentHash, stillEligible validateCosignatories data⟩ }

/-- Removes an entry and adds it again with those of its cosignatures that are eligible. -/
def refreshStaleCacheEntry (sha3 : List ℕ → Hash256) (maxCacheSize : BitVec 64)
    (cache : MemoryPtCache) (stale : StaleTransactionInfo) : MemoryPtCache :=
  match cache.remove stale.aggregateHash with
  | (removed, none) => removed
  | (removed, some removedInfo) =>
    stale.eligibleCosignatures.foldl
      (fun current cosig =>
        (current.addCosignature sha3 stale.aggregateHash cosig).1)
      (removed.add maxCacheSize removedInfo).1

structure PtUpdater where
  sha3 : List ℕ → Hash256
  maxCacheSize : BitVec 64
  validateCosignatories : CosignatoriesValidator
  /-- The aggregate without its cosignatures. -/
  aggregate : DetachedTransactionInfo
  /-- Whether the aggregate is valid apart from missing cosignatures. -/
  isValid : Bool
  /-- Whether the signature of a cosignature is one of the aggregate hash. -/
  verify : Cosignature → Bool

inductive PtTask where
  /-- An aggregate has arrived with cosignatures. -/
  | arrived (cosignatures : List Cosignature)
  | inserting (cosignatures : List Cosignature)
  /-- A cosignature has arrived. -/
  | started (cosig : Cosignature)
  | refreshing (stale : StaleTransactionInfo) (eligible : Option Cosignature)
  | purging
  | verifying (cosig : Cosignature)
  | adding (cosig : Cosignature)
  | checking
  | completing (completedCosignatures : List Cosignature)
  deriving DecidableEq

/-- The cache and the updates that are not done. Beside them stands what has happened: how often the
aggregate was inserted, whether that was without cosignatures the last time, which cosignatures were
checked since then, and the cosignatures of the completed aggregates. -/
structure PtSystem where
  cache : MemoryPtCache
  tasks : List PtTask
  insertions : ℕ
  insertedAlone : Bool
  received : List Cosignature
  completed : List (List Cosignature)

/-- The first cosignatures of signers that have none in the cache. -/
def extractCosignatures (cached : Option PtData) : List Key → List Cosignature → List Cosignature
  | _, [] => []
  | cosignatories, cosig :: rest =>
    let signer := cosig.signerPublicKey
    let remaining := extractCosignatures cached (signer :: cosignatories) rest
    if cosignatories.contains signer || cached.any fun data => data.hasCosignatory signer then
      remaining
    else ⟨0, signer, cosig.signature⟩ :: remaining

namespace PtUpdater

variable (updater : PtUpdater)

def afterEligibility (cosig : Cosignature) (result : CheckEligibilityResult) : List PtTask :=
  let eligible := if result.isEligible then some cosig else none
  match result.staleTransactionInfo, result.isPurgeRequired with
  | some stale, false => [.refreshing stale eligible]
  | _, true => [.purging]
  | none, false => if result.isEligible then [.verifying cosig] else []

/-- Runs an update up to its next access to the cache; the other updates are those in `tasks`. -/
def runTask (sys : PtSystem) : PtTask → PtSystem
  | .arrived cosignatures =>
    let cached := sys.cache.find updater.aggregate.entityHash
    let extracted := extractCosignatures cached [] cosignatures
    { sys with
      tasks := (if cached.isSome then extracted.map .started else [.inserting extracted]) ++
        sys.tasks }
  | .inserting cosignatures =>
    if updater.isValid then
      match sys.cache.add updater.maxCacheSize updater.aggregate with
      | (_, false) => sys
      | (cache, true) =>
        { sys with
          cache
          tasks := (if cosignatures.isEmpty then [.checking] else cosignatures.map .started) ++
            sys.tasks
          insertions := sys.insertions + 1
          insertedAlone := cosignatures.isEmpty
          received := [] }
    else sys
  | .started cosig =>
    let result := checkEligibility updater.validateCosignatories sys.cache
      updater.aggregate.entityHash cosig
    { sys with
      tasks := afterEligibility cosig result ++ sys.tasks
      received := cosig :: sys.received }
  | .refreshing stale eligible =>
    { sys with
      cache := refreshStaleCacheEntry updater.sha3 updater.maxCacheSize sys.cache stale
      tasks := eligible.toList.map .verifying ++ sys.tasks }
  | .purging => { sys with cache := (sys.cache.remove updater.aggregate.entityHash).1 }
  | .verifying cosig =>
    { sys with
      tasks := (if updater.verify cosig then [.adding cosig] else []) ++ sys.tasks }
  | .adding cosig =>
    match sys.cache.addCosignature updater.sha3 updater.aggregate.entityHash cosig with
    | (_, none) => sys
    | (cache, some _) => { sys with cache, tasks := .checking :: sys.tasks }
  | .checking =>
    match sys.cache.find updater.aggregate.entityHash with
    | none => sys
    | some data =>
      if updater.validateCosignatories data.transactionInfo data.cosignatures = .success then
        { sys with tasks := .completing data.cosignatures :: sys.tasks }
      else sys
  | .completing completedCosignatures =>
    match sys.cache.remove updater.aggregate.entityHash with
    | (_, none) => sys
    | (cache, some _) =>
      { sys with cache, completed := completedCosignatures :: sys.completed }

/-- Something arrives, one of the updates goes on, or the cache changes elsewhere. -/
inductive Step : PtSystem → PtSystem → Prop
  | arrive (sys : PtSystem) (cosignatures : List Cosignature) :
    Step sys { sys with tasks := .arrived cosignatures :: sys.tasks }
  | cosign (sys : PtSystem) (cosig : Cosignature) :
    Step sys { sys with tasks := .started cosig :: sys.tasks }
  | take (sys : PtSystem) (task : PtTask) (others : List PtTask) : sys.tasks.Perm (task :: others) →
      Step sys (updater.runTask { sys with tasks := others } task)
  | elsewhere (sys : PtSystem) (cache : MemoryPtCache) : cache.Kept updater.sha3 →
      cache.find updater.aggregate.entityHash = sys.cache.find updater.aggregate.entityHash →
      Step sys { sys with cache }

structure Initial (sys : PtSystem) : Prop where
  kept : sys.cache.Kept updater.sha3
  absent : sys.cache.find updater.aggregate.entityHash = none
  idle : sys.tasks = []
  never : sys.insertions = 0
  none : sys.completed = []

end PtUpdater

open Library KeyedList MemoryPtCache

variable {sha3 : List ℕ → Hash256} {maxCacheSize : BitVec 64} {cache : MemoryPtCache}
  {data : PtData} {hash : Hash256}

private theorem insertCosignature_eq_append {cosig : Cosignature} {cosignatures : List Cosignature}
    (largest : ∀ held ∈ cosignatures, held.signerPublicKey.toNat < cosig.signerPublicKey.toNat) :
    insertCosignature cosig cosignatures = cosignatures ++ [cosig] := by
  induction cosignatures with
  | nil => rfl
  | cons first rest ih =>
    obtain ⟨smaller, largestRest⟩ := List.forall_mem_cons.mp largest
    rw [insertCosignature, if_pos (BitVec.lt_def.mpr smaller), ih largestRest]
    rfl

private theorem find_replay (sha3 : List ℕ → Hash256) (rest : List Cosignature)
    (found : cache.find hash = some data) (ascend : SignersAscend (data.cosignatures ++ rest)) :
    (∃ replayed, (rest.foldl (fun current cosig =>
        (current.addCosignature sha3 hash cosig).1) cache).find hash = some replayed ∧
      replayed.transactionInfo = data.transactionInfo ∧
      replayed.cosignatures = data.cosignatures ++ rest) ∧
    ∀ target ≠ hash, (rest.foldl (fun current cosig =>
        (current.addCosignature sha3 hash cosig).1) cache).find target =
      cache.find target := by
  induction rest generalizing cache data with
  | nil => exact ⟨⟨data, found, rfl, (List.append_nil _).symm⟩, fun _ _ => rfl⟩
  | cons cosig rest ih =>
    have largest : ∀ held ∈ data.cosignatures,
        held.signerPublicKey.toNat < cosig.signerPublicKey.toNat := fun held mem =>
      (List.pairwise_append.mp ascend).2.2 held mem cosig List.mem_cons_self
    have fresh : ∀ held ∈ data.cosignatures,
        held.signerPublicKey ≠ cosig.signerPublicKey := fun held mem same =>
      absurd (same ▸ largest held mem) (lt_irrefl _)
    obtain ⟨cosigned, done⟩ : ∃ cosigned, data.add sha3 cosig = some cosigned :=
      ⟨_, PtData.add_eq_some_iff.mpr ⟨fresh, rfl⟩⟩
    have appended : cosigned.cosignatures = data.cosignatures ++ [cosig] := by
      rw [(PtData.add_eq_some_iff.mp done).2]
      exact insertCosignature_eq_append largest
    have next : (cache.addCosignature sha3 hash cosig).1 = cache.cosign hash cosigned := by
      rw [addCosignature, found]
      dsimp only
      rw [done]
      rfl
    have foundNext : (cache.cosign hash cosigned).find hash = some cosigned := by
      rw [find_cosign found done, if_pos rfl]
    have ascendNext : SignersAscend (cosigned.cosignatures ++ rest) := by simp_all
    obtain ⟨⟨replayed, foundLast, sameInfo, sameCosignatures⟩, others⟩ := ih foundNext ascendNext
    rw [List.foldl_cons, next]
    refine ⟨⟨replayed, foundLast, ?_, ?_⟩, fun target apart => ?_⟩
    · rw [sameInfo, PtData.transactionInfo_of_add done]
    · simp_all
    · rw [others target apart, find_cosign found done, if_neg apart]

private theorem replay_absent (rest : List Cosignature) (absent : cache.find hash = none) :
    rest.foldl (fun current cosig =>
      (current.addCosignature sha3 hash cosig).1) cache = cache := by
  induction rest with
  | nil => rfl
  | cons cosig rest ih =>
    have same : (cache.addCosignature sha3 hash cosig).1 = cache := by
      rw [addCosignature, absent]
    rw [List.foldl_cons, same, ih]

/-- A transaction is held with some of its cosignatures, and all others as before. -/
structure Refreshed (before after : MemoryPtCache) (data : PtData)
    (eligible : List Cosignature) : Prop where
  held : ∃ refreshed, after.find data.entityHash = some refreshed ∧
    refreshed.transactionInfo = data.transactionInfo ∧ refreshed.cosignatures = eligible
  others : ∀ hash ≠ data.entityHash, after.find hash = before.find hash

/-- The cache without a transaction and its cosignatures has room for the transaction, as far as
the cache can tell. -/
def HasRoomAgain (maxCacheSize : BitVec 64) (cache : MemoryPtCache) (data : PtData) : Prop :=
  ¬maxCacheSize - (cache.cacheSize - BitVec.ofNat 64 (data.transactionInfo.size.toNat +
    sizeofCosignature * data.cosignatures.length)) < data.transactionInfo.size.setWidth 64

private theorem cacheSize_erase (cache : MemoryPtCache) (data : PtData) :
    (cache.erase data).cacheSize = cache.cacheSize - BitVec.ofNat 64
      (data.transactionInfo.size.toNat + sizeofCosignature * data.cosignatures.length) := by
  rw [BitVec.ofNat_add, ← setWidth_eq_ofNat]
  rfl

private theorem hasRoomAgain_of_limited (limited : cache.Limited sha3 maxCacheSize)
    (mem : data ∈ cache.transactionDataContainer) : HasRoomAgain maxCacheSize cache data := by
  have split := limited.toKept.memoryOfAll_erase mem
  have within := limited.within
  have erased : (cache.erase data).Limited sha3 maxCacheSize := ⟨limited.toKept.erase mem, by omega⟩
  have room := (erased.room_iff data.transactionInfo).not
  rw [erased.cacheSize_toNat] at room
  rw [HasRoomAgain, ← cacheSize_erase]
  refine room.mpr ?_
  rw [PtData.memory] at split
  omega

private theorem refreshed_iff (found : cache.find hash = some data)
    {eligible : List Cosignature} (ascend : SignersAscend eligible) :
    Refreshed cache (refreshStaleCacheEntry sha3 maxCacheSize cache ⟨hash, eligible⟩) data
      eligible ↔ HasRoomAgain maxCacheSize cache data := by
  obtain rfl := key_of_find found
  have removed : cache.remove data.entityHash = (cache.erase data, some data.transactionInfo) := by
    rw [remove, found]
  have absent : (cache.erase data).find data.entityHash = none := by
    rw [find_erase, if_pos rfl]
  have unheld : ¬((cache.erase data).find data.transactionInfo.entityHash).isSome := by
    have none : (cache.erase data).find data.transactionInfo.entityHash = none := absent
    rw [none]
    exact Bool.false_ne_true
  rw [refreshStaleCacheEntry, removed, HasRoomAgain, ← cacheSize_erase]
  dsimp only
  rw [add_eq]
  by_cases full : maxCacheSize - (cache.erase data).cacheSize <
      data.transactionInfo.size.setWidth 64
  · rw [if_pos (.inl full), replay_absent _ absent]
    refine iff_of_false (fun refreshed => ?_) (not_not.mpr full)
    obtain ⟨held, heldFound, _⟩ := refreshed.held
    rw [absent] at heldFound
    cases heldFound
  · rw [if_neg (not_or.mpr ⟨full, unheld⟩)]
    refine iff_of_true ?_ full
    have foundAgain : ((cache.erase data).added data.transactionInfo).find data.entityHash =
        some (PtData.create data.transactionInfo) := by
      rw [find_added]
      exact if_pos rfl
    obtain ⟨⟨replayed, foundLast, sameInfo, sameCosignatures⟩, others⟩ :=
      find_replay sha3 eligible foundAgain ascend
    refine ⟨⟨replayed, foundLast, sameInfo, sameCosignatures⟩, fun target apart => ?_⟩
    have apartInfo : ¬data.transactionInfo.entityHash = target := fun same => apart same.symm
    rw [others target apart, find_added, if_neg apartInfo, find_erase, if_neg apart]

section Refresh
variable (sha3 : List ℕ → Hash256) (maxCacheSize : BitVec 64)
  (validateCosignatories : CosignatoriesValidator) (ops : List Operation) (hash : Hash256)
  (data : PtData) (found : (create.run sha3 maxCacheSize ops).find hash = some data)
include found

/-- Cosignatures are exempt from the limit, so that the room a transaction had may be taken once it
is removed. -/
private theorem refresh_iff_hasRoomAgain : (Refreshed (create.run sha3 maxCacheSize ops)
        (refreshStaleCacheEntry sha3 maxCacheSize (create.run sha3 maxCacheSize ops)
          ⟨hash, stillEligible validateCosignatories data⟩)
        data (stillEligible validateCosignatories data) ↔
      HasRoomAgain maxCacheSize (create.run sha3 maxCacheSize ops) data) ∧
    ((create.run sha3 maxCacheSize ops).memoryOfAll ≤ maxCacheSize.toNat →
      HasRoomAgain maxCacheSize (create.run sha3 maxCacheSize ops) data) := by
  have kept := (kept_create sha3).run maxCacheSize ops
  have ascend := (kept.cosigned data (mem_of_find found)).ascend
  refine ⟨refreshed_iff found (ascend.filter _), fun within => ?_⟩
  exact hasRoomAgain_of_limited ⟨kept, within⟩ (mem_of_find found)

/-- Whatever the cache went through, while it is within its limit a refresh leaves an aggregate with
exactly its still eligible cosignatures, and all other entries alone. -/
theorem refreshed_of_within
    (within : (create.run sha3 maxCacheSize ops).memoryOfAll ≤ maxCacheSize.toNat) :
    Refreshed (create.run sha3 maxCacheSize ops)
      (refreshStaleCacheEntry sha3 maxCacheSize (create.run sha3 maxCacheSize ops)
        ⟨hash, stillEligible validateCosignatories data⟩)
      data (stillEligible validateCosignatories data) := by
  obtain ⟨refreshed_iff_room, room⟩ :=
    refresh_iff_hasRoomAgain sha3 maxCacheSize validateCosignatories ops hash data found
  exact refreshed_iff_room.mpr (room within)

end Refresh

def cosignedTwice : PtData := ⟨⟨7, 500, 3⟩, [⟨0, 1, 0⟩, ⟨0, 2, 0⟩], 0⟩

def withoutSecond : CosignatoriesValidator := fun _ cosignatures =>
  if cosignatures.any fun cosig => cosig.signerPublicKey == 2 then .ineligible
  else .missing

def roomyOperations : List Operation :=
  [.add ⟨7, 500, 3⟩, .add ⟨8, 104, 3⟩, .addCosignature 7 ⟨0, 1, 0⟩, .addCosignature 7 ⟨0, 2, 0⟩,
    .addCosignature 8 ⟨0, 3, 0⟩]

/-- Another aggregate fills the cache, which cosignatures bring above its maximum size. -/
def crowdedOperations : List Operation := .add ⟨9, 396, 3⟩ :: roomyOperations

theorem refreshed_of_within_roomy :
    (create.run (fun _ => 0) 1000 roomyOperations).memoryOfAll = 916 ∧
      stillEligible withoutSecond cosignedTwice = [⟨0, 1, 0⟩] ∧
      Refreshed (create.run (fun _ => 0) 1000 roomyOperations)
        (refreshStaleCacheEntry (fun _ => 0) 1000 (create.run (fun _ => 0) 1000 roomyOperations)
          ⟨7, stillEligible withoutSecond cosignedTwice⟩)
        cosignedTwice (stillEligible withoutSecond cosignedTwice) :=
  ⟨by decide +kernel, by decide +kernel, refreshed_of_within (fun _ => 0) 1000 withoutSecond
    roomyOperations 7 cosignedTwice (by decide +kernel) (by decide +kernel)⟩

-- outside the limit a refresh may lose an aggregate with an eligible cosignature
example : (create.run (fun _ => 0) 1000 crowdedOperations).find 7 = some cosignedTwice ∧
      (refreshStaleCacheEntry (fun _ => 0) 1000 (create.run (fun _ => 0) 1000 crowdedOperations)
        ⟨7, stillEligible withoutSecond cosignedTwice⟩).find 7 = none := by
  decide +kernel

end BitxorCore.PartialTransactions
