/- GID: Consumers/ImportanceLinks
   anchors: [src/bitxorcore/consumers, src/bitxorcore/model]
   digest: Importance blocks of a chain that is built from accepted ranges are linked to one
     another. -/

import BitxorCore.Consumers.SyncAcceptance

set_option autoImplicit false
set_option relaxedAutoImplicit false

namespace BitxorCore.Consumers

variable {T C : Type} {chain : Chain T} {elements rest : List (BlockElement T)} {grouping : ℕ}

def TypedBy (grouping : ℕ) (elements : List (BlockElement T)) : Prop :=
  ∀ elem ∈ elements, isImportanceBlock elem.block.type ↔ grouping ∣ elem.block.height

instance (grouping : ℕ) (elements : List (BlockElement T)) :
    Decidable (TypedBy grouping elements) :=
  inferInstanceAs (Decidable (∀ elem ∈ elements,
    isImportanceBlock elem.block.type ↔ grouping ∣ elem.block.height))

/-- The height of the previous importance block, or of the first block. -/
def previousHeight (grouping height : ℕ) : ℕ := if grouping < height then height - grouping else 1

/-- Every importance block above the first block has the hash of the previous one. -/
def ImportanceLinked (grouping : ℕ) (chain : Chain T) : Prop :=
  ∀ height elem, 2 ≤ height → loadBlockElement chain height = some elem →
    isImportanceBlock elem.block.type →
    loadHash chain (previousHeight grouping height) = some elem.block.previousImportanceBlockHash

variable {height : ℕ}

private theorem loadBlockElement_append_left (within : height ≤ chain.length)
    (elements : List (BlockElement T)) :
    loadBlockElement (chain ++ elements) height = loadBlockElement chain height := by
  cases height with
  | zero => rfl
  | succ height => exact List.getElem?_append_left within

private theorem loadHash_append_left (within : height ≤ chain.length)
    (elements : List (BlockElement T)) :
    loadHash (chain ++ elements) height = loadHash chain height := by
  rw [loadHash, loadHash, loadBlockElement_append_left within]

private theorem previousHeight_lt (pos : 0 < grouping) (above : 2 ≤ height) :
    previousHeight grouping height < height := by
  rw [previousHeight]
  split <;> omega

variable {elem : BlockElement T}

private theorem ImportanceLinked.concat (pos : 0 < grouping)
    (linked : ImportanceLinked grouping chain)
    (last : 1 ≤ chain.length → isImportanceBlock elem.block.type →
      loadHash chain (previousHeight grouping (chain.length + 1)) =
        some elem.block.previousImportanceBlockHash) :
    ImportanceLinked grouping (chain ++ [elem]) := by
  intro height other above found isImportance
  obtain ⟨_, within⟩ := length_of_loadBlockElement found
  have below := previousHeight_lt pos above
  rw [List.length_append, List.length_singleton] at within
  rw [loadHash_append_left (by omega)]
  by_cases new : height = chain.length + 1
  · simp_all [loadBlockElement]
  · rw [loadBlockElement_append_left (by omega)] at found
    exact linked height other above found isImportance

private theorem ImportanceLinked.take (pos : 0 < grouping)
    (linked : ImportanceLinked grouping chain) (count : ℕ) :
    ImportanceLinked grouping (chain.take count) := by
  intro height elem above found isImportance
  obtain ⟨_, within⟩ := length_of_loadBlockElement found
  have shorter : (chain.take count).length ≤ count := List.length_take_le _ _
  have below := previousHeight_lt pos above
  have split := loadBlockElement_append_left within (chain.drop count)
  rw [List.take_append_drop] at split
  rw [loadHash_take (by omega)]
  exact linked height elem above (split.trans found) isImportance

/-- The check consumer remembers the last importance block above a height, if there is one. -/
def Tracks (grouping common : ℕ) (current : Chain T) : Option Hash256 → Prop
  | none => ∀ height, common < height → height ≤ current.length → ¬grouping ∣ height
  | some hash => ∃ last, common < last ∧ last ≤ current.length ∧ grouping ∣ last ∧
    loadHash current last = some hash ∧
    ∀ height, last < height → height ≤ current.length → ¬grouping ∣ height

variable {prev : Option Hash256}

/-- The link of the next block is checked against the block remembered, or, for the first importance
block of a range, against the blocks below the range. -/
private theorem loadHash_of_tracks {common : ℕ} {current : Chain T}
    (pos : 0 < grouping) (isBlock : 1 ≤ common)
    (isNext : grouping ∣ current.length + 1) (tracks : Tracks grouping common current prev)
    (same : prev.all fun hash => hash == elem.block.previousImportanceBlockHash)
    (first : prev = none → previousHeight grouping (current.length + 1) ≤ common →
      loadHash current (previousHeight grouping (current.length + 1)) =
        some elem.block.previousImportanceBlockHash) :
    loadHash current (previousHeight grouping (current.length + 1)) =
      some elem.block.previousImportanceBlockHash := by
  cases prev with
  | none =>
    refine first rfl ?_
    rw [previousHeight]
    split
    · next above =>
      -- a multiple above the common height would have been remembered
      by_contra higher
      exact tracks (current.length + 1 - grouping) (by omega) (by omega)
        (Nat.dvd_sub isNext (Nat.dvd_refl grouping))
    · exact isBlock
  | some hash =>
    obtain ⟨last, above, within, multiple, found, none⟩ := tracks
    have least := Nat.le_of_dvd (by omega) multiple
    have atMost : last + grouping ≤ current.length + 1 := by
      obtain ⟨steps, rfl⟩ := multiple
      obtain ⟨next, same⟩ := isNext
      rw [same, ← Nat.mul_succ]
      refine Nat.mul_le_mul_left _ (Nat.lt_of_mul_lt_mul_left (a := grouping) ?_)
      omega
    have exactly : last = current.length + 1 - grouping := by
      by_contra different
      exact none (current.length + 1 - grouping) (by omega) (by omega)
        (Nat.dvd_sub isNext (Nat.dvd_refl grouping))
    rw [previousHeight, if_pos (by omega), ← exactly, found]
    exact congrArg Option.some (beq_iff_eq.mp same)

variable {previousElement : Option (BlockElement T)} {hashes : Finset Hash256}

private theorem checkElements_cons
    (checked : checkElements hashes previousElement prev (elem :: rest) = .continue) :
    (isImportanceBlock elem.block.type →
        prev.all fun hash => hash == elem.block.previousImportanceBlockHash) ∧
      ∃ hashes, checkElements hashes (some elem)
        (if isImportanceBlock elem.block.type then some elem.entityHash else prev) rest =
          .continue := by
  rw [checkElements] at checked
  split at checked
  · cases checked
  split at checked
  · cases checked
  next linked =>
  split at checked
  · cases checked
  next hashes _ =>
  refine ⟨fun isImportance => ?_, hashes, checked⟩
  rw [isImportance, Bool.true_and] at linked
  cases prev with
  | none => rfl
  | some hash => simpa using linked

private theorem importanceLinked_append_of_checkElements (common : ℕ)
    (pos : 0 < grouping) (isBlock : 1 ≤ common) (longer : common ≤ chain.length)
    (linked : ImportanceLinked grouping chain)
    (consecutive : Consecutive (chain.length + 1) elements) (typed : TypedBy grouping elements)
    (checked : checkElements hashes previousElement prev elements = .continue)
    (tracks : Tracks grouping common chain prev) (first : prev = none → ∀ elem,
      elements.find? (fun elem => isImportanceBlock elem.block.type) = some elem →
      previousHeight grouping elem.block.height ≤ common →
      loadHash chain (previousHeight grouping elem.block.height) =
        some elem.block.previousImportanceBlockHash) :
    ImportanceLinked grouping (chain ++ elements) := by
  induction elements generalizing chain hashes previousElement prev with
  | nil =>
    rw [List.append_nil]
    exact linked
  | cons elem rest ih =>
    obtain ⟨here, later⟩ := consecutive
    obtain ⟨type, types⟩ := List.forall_mem_cons.mp typed
    obtain ⟨same, hashes, checkedRest⟩ := checkElements_cons checked
    rw [here] at type
    have length : (chain ++ [elem]).length = chain.length + 1 := by simp
    have split : chain ++ elem :: rest = (chain ++ [elem]) ++ rest := by simp
    rw [split]
    by_cases isImportance : isImportanceBlock elem.block.type = true
    · -- the block is linked and remembered
      have link := loadHash_of_tracks pos isBlock (type.mp isImportance) tracks
        (same isImportance) fun none low => by
          have own := first none elem (List.find?_cons_of_pos isImportance)
          rw [here] at own
          exact own low
      rw [if_pos isImportance] at checkedRest
      refine ih (by omega) (linked.concat pos fun _ _ => link) (by rw [length]; exact later)
        types checkedRest ?_ fun none => (Option.some_ne_none _ none).elim
      refine ⟨chain.length + 1, by omega, by omega, type.mp isImportance, ?_, by omega⟩
      rw [loadHash, loadBlockElement, List.getElem?_concat_length]
      rfl
    · rw [if_neg isImportance] at checkedRest
      have notMultiple : ¬grouping ∣ chain.length + 1 := fun multiple =>
        isImportance (type.mpr multiple)
      refine ih (by omega) (linked.concat pos fun _ yes => absurd yes isImportance)
        (by rw [length]; exact later) types checkedRest ?_ fun none other found low => ?_
      · cases prev with
        | none =>
          intro height above within
          by_cases new : height = chain.length + 1
          · rw [new]
            exact notMultiple
          · exact tracks height above (by omega)
        | some hash =>
          obtain ⟨last, above, within, multiple, loaded, none⟩ := tracks
          refine ⟨last, above, by omega, multiple, ?_, fun height higher below => ?_⟩
          · rw [loadHash_append_left within]
            exact loaded
          · grind
      · have skipped : (elem :: rest).find? (fun elem => isImportanceBlock elem.block.type) =
            rest.find? fun elem => isImportanceBlock elem.block.type :=
          List.find?_cons_of_neg isImportance
        rw [loadHash_append_left (by omega)]
        exact first none other (skipped.trans found) low

private theorem previousGroupedHeight_eq_some {prev : ℕ}
    (found : previousGroupedHeight grouping height = some prev) :
    prev = previousHeight grouping height := by
  rw [previousGroupedHeight] at found
  split at found
  · cases found
  · split at found
    · exact (Option.some_inj.mp found).symm
    · cases found

private theorem loadHash_of_isFirstImportanceBlockLinked
    (linked : isFirstImportanceBlockLinked grouping elements chain = some true)
    (isFirst : elements.find? (fun elem => isImportanceBlock elem.block.type) = some elem) :
    loadHash chain (previousHeight grouping elem.block.height) =
      some elem.block.previousImportanceBlockHash := by
  rw [isFirstImportanceBlockLinked, isFirst] at linked
  obtain ⟨prev, grouped, linked⟩ := Option.bind_eq_some_iff.mp linked
  obtain ⟨hash, loaded, linked⟩ := Option.bind_eq_some_iff.mp linked
  rw [← previousGroupedHeight_eq_some grouped, loaded, beq_iff_eq.mp (Option.some_inj.mp linked)]

variable {maxTimestamp : BitVec 64}

private theorem checkElements_of_blockchainCheckConsumer
    (checked : blockchainCheckConsumer maxTimestamp elements = .continue) :
    checkElements ∅ none none elements = .continue := by
  rw [blockchainCheckConsumer] at checked
  split at checked
  · cases checked
  · split at checked
    · exact checked
    · cases checked

private theorem ImportanceLinked.accept {handlers : BlockchainSyncHandlers C T}
    {proofStorage : ProofStorage} {source : InputSource} {before after : SyncMemory C T}
    {committed : Committed T} (pos : 0 < grouping)
    (linked : ImportanceLinked grouping before.storage) (typed : TypedBy grouping elements)
    (checked : blockchainCheckConsumer maxTimestamp elements = .continue)
    (done : blockchainSyncConsumer grouping handlers proofStorage elements source before =
      (.ok committed, after)) : ImportanceLinked grouping after.storage := by
  obtain ⟨acceptance⟩ := acceptance_of_committed done
  obtain ⟨above, within, _⟩ := acceptance.bounds
  obtain ⟨same, consecutive⟩ := acceptance.storage_eq
  have length : (before.storage.take (acceptance.first.block.height - 1)).length =
      acceptance.first.block.height - 1 := List.length_take_of_le (by omega)
  rw [same]
  refine importanceLinked_append_of_checkElements (acceptance.first.block.height - 1)
    pos (by omega) length.ge (linked.take pos _) ?_ typed
    (checkElements_of_blockchainCheckConsumer checked) ?_ ?_
  · rw [length, Nat.sub_add_cancel (by omega)]
    exact consecutive
  · intro height above below
    omega
  · intro _ elem isFirst low
    rw [loadHash_take low]
    exact loadHash_of_isFirstImportanceBlockLinked acceptance.importanceLinked isFirst

/-- The chains that come from a first block by accepting ranges of blocks. -/
inductive Built (grouping : ℕ) (C T : Type) : Chain T → Prop
  | first (elem : BlockElement T) : elem.block.height = 1 → Built grouping C T [elem]
  | accept (maxTimestamp : BitVec 64) (handlers : BlockchainSyncHandlers C T)
    (proofStorage : ProofStorage) (elements : List (BlockElement T)) (source : InputSource)
    (before after : SyncMemory C T) (committed : Committed T) :
    Built grouping C T before.storage → TypedBy grouping elements →
    blockchainCheckConsumer maxTimestamp elements = .continue →
    blockchainSyncConsumer grouping handlers proofStorage elements source before =
      (.ok committed, after) → Built grouping C T after.storage

/-- In a chain that is built by accepting ranges of blocks, each of which has importance blocks
exactly at multiples of the grouping, every importance block has the hash of the block one grouping
before it, or of the first block. -/
theorem importanceLinked_of_built {grouping : ℕ} (pos : 0 < grouping) {chain : Chain T}
    (built : Built grouping C T chain) :
    ∀ height elem, 2 ≤ height → loadBlockElement chain height = some elem →
      isImportanceBlock elem.block.type →
      loadHash chain (if grouping < height then height - grouping else 1) =
        some elem.block.previousImportanceBlockHash := by
  have linked : ImportanceLinked grouping chain := by
    induction built with
    | first elem _ =>
      intro height other above found
      have within := (length_of_loadBlockElement found).2
      rw [List.length_singleton] at within
      omega
    | accept _ _ _ _ _ _ _ _ _ typed checked done ih => exact ih.accept pos typed checked done
  exact linked

/-- A block of a chain with grouping 2. Blocks at heights above 1 have their hash from `entityHash`,
and importance blocks are linked to `previousImportanceBlockHash`. -/
def groupedBlock (height : ℕ) (difficulty : BitVec 64)
    (entityHash previousBlockHash previousImportanceBlockHash : Hash256) : BlockElement Unit where
  block := ⟨height, BitVec.ofNat 64 height, difficulty, previousBlockHash,
    if height = 1 then .genesis else if height % 2 = 0 then .importance else .normal,
    previousImportanceBlockHash⟩
  entityHash
  transactions := []

/-- Blocks 2 to 4 are accepted, then blocks 3 to 6 take the place of blocks 3 and 4. -/
def replacedChain : Chain Unit :=
  [groupedBlock 1 50 1 0 0, groupedBlock 2 50 2 1 1, groupedBlock 3 60 13 2 0,
    groupedBlock 4 60 14 13 2, groupedBlock 5 60 15 14 0, groupedBlock 6 60 16 15 14]

private theorem built_replacedChain : Built 2 Unit Unit replacedChain := by
  have original : Built 2 Unit Unit [groupedBlock 1 50 1 0 0, groupedBlock 2 50 2 1 1,
      groupedBlock 3 50 3 2 0, groupedBlock 4 50 4 3 2] :=
    .accept 10 permissiveHandlers firstFinalized
      [groupedBlock 2 50 2 1 1, groupedBlock 3 50 3 2 0, groupedBlock 4 50 4 3 2] .remotePull
      ⟨[groupedBlock 1 50 1 0 0], [], (), ()⟩ ⟨_, _, (), ()⟩ ⟨_, _, _⟩
      (.first (groupedBlock 1 50 1 0 0) rfl) (by decide) (by decide +kernel) rfl
  exact .accept 10 permissiveHandlers firstFinalized
    [groupedBlock 3 60 13 2 0, groupedBlock 4 60 14 13 2, groupedBlock 5 60 15 14 0,
      groupedBlock 6 60 16 15 14] .remotePull ⟨_, [], (), ()⟩ ⟨_, _, (), ()⟩ ⟨_, _, _⟩ original
    (by decide) (by decide +kernel) rfl

theorem importanceLinked_of_built_replacedChain :
    loadHash replacedChain 4 = some (groupedBlock 6 60 16 15 14).block.previousImportanceBlockHash ∧
      loadHash replacedChain 1 = some (groupedBlock 2 50 2 1 1).block.previousImportanceBlockHash :=
  ⟨importanceLinked_of_built (by decide) built_replacedChain 6 _ (by decide) rfl rfl,
    importanceLinked_of_built (by decide) built_replacedChain 2 _ (by decide) rfl rfl⟩

end BitxorCore.Consumers
