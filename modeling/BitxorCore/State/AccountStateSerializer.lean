/- GID: State/AccountStateSerializer
   anchors: [src/bitxorcore/state]
   digest: A saved account state loads to the same content, and saves to the same bytes again. -/

import BitxorCore.Library.Bytes
import BitxorCore.State.AccountActivity
import BitxorCore.State.AccountState
import BitxorCore.State.CompactAccountBalances

set_option autoImplicit false
set_option relaxedAutoImplicit false

namespace BitxorCore.State
open Library Library.Bytes

abbrev OrderedTokenId := Fin (2 ^ 64)

instance : Zero OrderedTokenId := ⟨⟨0, Nat.two_pow_pos 64⟩⟩

/-- All that is stored of an account. The type of the account is its underlying number. -/
structure StoredAccountState where
  address : Address
  addressHeight : BitVec 64
  publicKey : Key
  publicKeyHeight : BitVec 64
  accountType : BitVec 8
  supplementalPublicKeys : AccountPublicKeys
  importanceSnapshots : AccountImportanceSnapshots
  activityBuckets : AccountActivityBuckets
  balances : CompactTokenMap OrderedTokenId Amount

def StoredAccountState.create (address : Address) (addressHeight : BitVec 64) :
    StoredAccountState where
  address
  addressHeight
  publicKey := 0
  publicKeyHeight := 0
  accountType := 0
  supplementalPublicKeys := .create
  importanceSnapshots := .create
  activityBuckets := .create
  balances := .create

namespace AccountStateSerializer

inductive AccountStateFormat where
  | regular
  | highValue
  deriving DecidableEq

def AccountStateFormat.toByte : AccountStateFormat → BitVec 8
  | .regular => 0
  | .highValue => 1

variable (state : StoredAccountState)

def getFormat : AccountStateFormat :=
  if state.importanceSnapshots.active then .highValue else .regular

def processRange {T : Type} (values : List T) (start count : ℕ) : List T :=
  (values.drop start).take count

def snapshotBytes (snapshot : ImportanceSnapshot) : List ℕ :=
  word 8 snapshot.importance ++ word 8 snapshot.height

def bucketBytes (bucket : ActivityBucket) : List ℕ :=
  word 8 bucket.startHeight ++
    (word 8 bucket.totalFeesPaid ++ (word 4 bucket.beneficiaryCount ++ word 8 bucket.rawScore))

def votingKeyBytes (key : PinnedVotingKey) : List ℕ :=
  array 32 key.votingKey ++ (word 4 key.startEpoch ++ word 4 key.endEpoch)

def tokenBytes (token : OrderedTokenId × Amount) : List ℕ :=
  word 8 (BitVec.ofFin token.1) ++ word 8 token.2

def linkedFlag : BitVec 8 := 1

def nodeFlag : BitVec 8 := 2

def vrfFlag : BitVec 8 := 4

variable (flag mask : BitVec 8)

def hasFlag : Bool := flag &&& mask == flag

variable (accessor : PublicKeyAccessor)

def writeKey : List ℕ :=
  if hasFlag flag mask then array 32 accessor.get else []

def writeSupplementalPublicKeys (keys : AccountPublicKeys) : List ℕ :=
  word 1 keys.mask ++ (word 1 (BitVec.ofNat 8 keys.voting.length) ++
    (writeKey linkedFlag keys.mask keys.linked ++ (writeKey nodeFlag keys.mask keys.node ++
      (writeKey vrfFlag keys.mask keys.vrf ++ keys.voting.flatMap votingKeyBytes))))

def writeSnapshots (snapshots : AccountImportanceSnapshots) (start count : ℕ) : List ℕ :=
  (processRange snapshots.slots start count).flatMap snapshotBytes

def writeBuckets (buckets : AccountActivityBuckets) (start count : ℕ) : List ℕ :=
  (processRange buckets.slots start count).flatMap bucketBytes

/-- Importances of high value accounts are written without those kept for rollbacks. -/
def writeImportance : List ℕ :=
  if getFormat state = .highValue then
    writeSnapshots state.importanceSnapshots 0 (importanceHistorySize - rollbackBufferSize) ++
      writeBuckets state.activityBuckets 0 (activityBucketHistorySize - rollbackBufferSize)
  else []

def writeTokens (balances : CompactTokenMap OrderedTokenId Amount) : List ℕ :=
  word 2 (BitVec.ofNat 16 balances.size) ++ balances.iterate.flatMap tokenBytes

def saveNonHistorical : List ℕ :=
  array 24 state.address ++ (word 8 state.addressHeight ++ (array 32 state.publicKey ++
    (word 8 state.publicKeyHeight ++ (word 1 state.accountType ++
      (word 1 (getFormat state).toByte ++
        (writeSupplementalPublicKeys state.supplementalPublicKeys ++
          (writeImportance state ++ writeTokens state.balances)))))))

def writeHistory : List ℕ :=
  if getFormat state = .highValue then
    writeSnapshots state.importanceSnapshots (importanceHistorySize - rollbackBufferSize)
        rollbackBufferSize ++
      writeBuckets state.activityBuckets (activityBucketHistorySize - rollbackBufferSize)
        rollbackBufferSize
  else
    writeSnapshots state.importanceSnapshots 0 importanceHistorySize ++
      writeBuckets state.activityBuckets 0 activityBucketHistorySize

def save : List ℕ := saveNonHistorical state ++ writeHistory state

def readSnapshot : Reader ImportanceSnapshot := do
  let importance ← readWord 8
  let height ← readWord 8
  return ⟨importance, height⟩

def readBucket : Reader ActivityBucket := do
  let startHeight ← readWord 8
  let totalFeesPaid ← readWord 8
  let beneficiaryCount ← readWord 4
  let rawScore ← readWord 8
  return ⟨⟨totalFeesPaid, beneficiaryCount, rawScore⟩, startHeight⟩

def readVotingKey : Reader PinnedVotingKey := do
  let votingKey ← readArray 32
  let startEpoch ← readWord 4
  let endEpoch ← readWord 4
  return ⟨votingKey, startEpoch, endEpoch⟩

def readToken : Reader (OrderedTokenId × Amount) := do
  let tokenId ← readWord 8
  let amount ← readWord 8
  return (tokenId.toFin, amount)

/-- The snapshots and buckets read so far, which fill arrays from the back. -/
structure ImportanceReader where
  snapshots : List ImportanceSnapshot
  buckets : List ActivityBucket

namespace ImportanceReader

def create : ImportanceReader := ⟨[], []⟩

variable (reader : ImportanceReader)

def hasSnapshots : Bool := !reader.snapshots.isEmpty

def readSnapshots (count : ℕ) : Reader ImportanceReader := do
  let read ← readMany readSnapshot count
  return { reader with snapshots := reader.snapshots ++ read }

def readBuckets (count : ℕ) : Reader ImportanceReader := do
  let read ← readMany readBucket count
  return { reader with buckets := reader.buckets ++ read }

def snapshotArray : List ImportanceSnapshot :=
  List.replicate (importanceHistorySize - reader.snapshots.length) default ++
    reader.snapshots.reverse

def bucketArray : List ActivityBucket :=
  List.replicate (activityBucketHistorySize - reader.buckets.length) default ++
    reader.buckets.reverse

def placeSnapshot (snapshots : AccountImportanceSnapshots) (snapshot : ImportanceSnapshot) :
    Option AccountImportanceSnapshots :=
  if snapshot.height = 0 then some snapshots.push
  else snapshots.set snapshot.importance snapshot.height

def placeBucket (buckets : AccountActivityBuckets) (bucket : ActivityBucket) :
    Option AccountActivityBuckets :=
  if bucket.startHeight = 0 then some buckets.push
  else buckets.update bucket.startHeight fun _ => bucket.toHeightDetachedActivityBucket

def apply (state : StoredAccountState) : Option StoredAccountState := do
  let importanceSnapshots ← reader.snapshotArray.foldlM placeSnapshot state.importanceSnapshots
  let activityBuckets ← reader.bucketArray.foldlM placeBucket state.activityBuckets
  return { state with importanceSnapshots, activityBuckets }

end ImportanceReader

def readKey : Reader PublicKeyAccessor :=
  if hasFlag flag mask then do
    let key ← readArray 32
    accessor.set key
  else pure accessor

def readVotingKeys : ℕ → VotingKeysAccessor → Reader VotingKeysAccessor
  | 0, keys => pure keys
  | count + 1, keys => do
    let key ← readVotingKey
    let added ← keys.add key
    readVotingKeys count added

def readSupplementalPublicKeys (keys : AccountPublicKeys) : Reader AccountPublicKeys := do
  let mask ← readWord 1
  let numVotingKeys ← readWord 1
  let linked ← readKey linkedFlag mask keys.linked
  let node ← readKey nodeFlag mask keys.node
  let vrf ← readKey vrfFlag mask keys.vrf
  let voting ← readVotingKeys numVotingKeys.toNat keys.voting
  return ⟨linked, node, vrf, voting⟩

/-- Credits the tokens in the order in which they are read, and optimizes the first one. -/
def readTokens : ℕ → ℕ → CompactTokenMap OrderedTokenId Amount →
    Reader (CompactTokenMap OrderedTokenId Amount)
  | 0, _, balances => pure balances
  | count + 1, index, balances => do
    let token ← readToken
    let credited ← balances.credit token.1 token.2
    let optimized ← credited.optimizeFirst index token.1
    readTokens count (index + 1) optimized

/-- Throws if the format is not known. -/
def readImportance (format : BitVec 8) : Reader ImportanceReader :=
  if format = AccountStateFormat.highValue.toByte then do
    let reader ← ImportanceReader.create.readSnapshots (importanceHistorySize - rollbackBufferSize)
    reader.readBuckets (activityBucketHistorySize - rollbackBufferSize)
  else if format ≠ AccountStateFormat.regular.toByte then failure
  else pure .create

def loadAccountStateWithoutHistory : Reader (StoredAccountState × ImportanceReader) := do
  let address ← readArray 24
  let addressHeight ← readWord 8
  let created := StoredAccountState.create address addressHeight
  let publicKey ← readArray 32
  let publicKeyHeight ← readWord 8
  let accountType ← readWord 1
  let format ← readWord 1
  let supplementalPublicKeys ← readSupplementalPublicKeys created.supplementalPublicKeys
  let importanceReader ← readImportance format
  let numTokens ← readWord 2
  let balances ← readTokens numTokens.toNat 0 created.balances
  return ({ created with publicKey, publicKeyHeight, accountType, supplementalPublicKeys, balances },
    importanceReader)

def readHistory (importanceReader : ImportanceReader) : Reader ImportanceReader :=
  if importanceReader.hasSnapshots then do
    let reader ← importanceReader.readSnapshots rollbackBufferSize
    reader.readBuckets rollbackBufferSize
  else do
    let reader ← importanceReader.readSnapshots importanceHistorySize
    reader.readBuckets activityBucketHistorySize

def load : Reader StoredAccountState := do
  let (state, importanceReader) ← loadAccountStateWithoutHistory
  let reader ← readHistory importanceReader
  reader.apply state

open CompactArrayStack ImportanceReader StoredAccountState List

private theorem reads_snapshot (snapshot : ImportanceSnapshot) :
    Reads readSnapshot (snapshotBytes snapshot) snapshot :=
  (reads_readWord 8 snapshot.importance).bind
    ((reads_readWord 8 snapshot.height).map (ImportanceSnapshot.mk snapshot.importance))

private theorem reads_bucket (bucket : ActivityBucket) :
    Reads readBucket (bucketBytes bucket) bucket :=
  (reads_readWord 8 bucket.startHeight).bind ((reads_readWord 8 bucket.totalFeesPaid).bind
    ((reads_readWord 4 bucket.beneficiaryCount).bind ((reads_readWord 8 bucket.rawScore).map
      fun rawScore => ActivityBucket.mk
        ⟨bucket.totalFeesPaid, bucket.beneficiaryCount, rawScore⟩ bucket.startHeight)))

private theorem reads_votingKey (key : PinnedVotingKey) :
    Reads readVotingKey (votingKeyBytes key) key :=
  (reads_readArray 32 key.votingKey).bind ((reads_readWord 4 key.startEpoch).bind
    ((reads_readWord 4 key.endEpoch).map (PinnedVotingKey.mk key.votingKey key.startEpoch)))

private theorem reads_token (token : OrderedTokenId × Amount) :
    Reads readToken (tokenBytes token) token :=
  (reads_readWord 8 (BitVec.ofFin token.1)).bind
    ((reads_readWord 8 token.2).map fun amount => (token.1, amount))

private theorem isSet_eq : accessor.isSet = (accessor.get != 0) := by
  cases accessor <;> rfl

private theorem hasFlag_mask (keys : AccountPublicKeys) :
    hasFlag linkedFlag keys.mask = keys.linked.isSet ∧
      hasFlag nodeFlag keys.mask = keys.node.isSet ∧
      hasFlag vrfFlag keys.mask = keys.vrf.isSet := by
  unfold AccountPublicKeys.mask
  cases keys.linked.isSet <;> cases keys.node.isSet <;> cases keys.vrf.isSet <;> decide

/-- What is left of a key in the bytes: a zero key counts as unset. -/
def stored (accessor : PublicKeyAccessor) : PublicKeyAccessor :=
  if accessor.isSet then some accessor.get else none

private theorem get_stored : (stored accessor).get = accessor.get := by
  unfold stored
  split
  · rfl
  · next unset =>
    rw [isSet_eq] at unset
    have zero : accessor.get = 0 := by simpa using unset
    rw [zero]
    rfl

private theorem reads_key {flag mask : BitVec 8} {accessor : PublicKeyAccessor}
    (flagged : hasFlag flag mask = accessor.isSet) :
    Reads (readKey flag mask none) (writeKey flag mask accessor) (stored accessor) := by
  unfold readKey writeKey stored
  rw [flagged]
  split
  · have read : Reads (readArray 32 >>= fun key => liftM (PublicKeyAccessor.set none key))
        (array 32 accessor.get ++ []) (some accessor.get) :=
      (reads_readArray 32 accessor.get).bind (Reads.lift rfl)
    rw [append_nil] at read
    exact read
  · exact Reads.pure none

private theorem reads_votingKeys {keys former result : VotingKeysAccessor}
    (added : keys.foldlM VotingKeysAccessor.add former = some result) :
    Reads (readVotingKeys keys.length former) (keys.flatMap votingKeyBytes) result := by
  induction keys generalizing former with
  | nil =>
    cases added
    exact Reads.pure _
  | cons key rest ih =>
    obtain ⟨next, one, others⟩ := Option.bind_eq_some_iff.mp added
    exact (reads_votingKey key).bind ((Reads.lift one).bind (ih others))

private theorem reads_supplementalPublicKeys {keys : AccountPublicKeys} (sorted : keys.voting.Sorted)
    (few : keys.voting.length ≤ 255) :
    Reads (readSupplementalPublicKeys .create) (writeSupplementalPublicKeys keys)
      ⟨stored keys.linked, stored keys.node, stored keys.vrf, keys.voting⟩ := by
  obtain ⟨linked, node, vrf⟩ := hasFlag_mask keys
  have count : (BitVec.ofNat 8 keys.voting.length).toNat = keys.voting.length :=
    Nat.mod_eq_of_lt (Nat.lt_succ_of_le few)
  have voting := reads_votingKeys sorted.foldlM_add
  rw [← count] at voting
  exact (reads_readWord 1 keys.mask).bind ((reads_readWord 1 (BitVec.ofNat 8 _)).bind
    ((reads_key linked).bind ((reads_key node).bind ((reads_key vrf).bind
      (voting.map (AccountPublicKeys.mk (stored keys.linked) (stored keys.node) (stored keys.vrf)))))))

variable {T : Type}

private theorem length_processRange {values : List T} {start count : ℕ}
    (inside : start + count ≤ values.length) : (processRange values start count).length = count := by
  rw [processRange, length_take, length_drop]
  omega

variable (reader : ImportanceReader) (snapshots : AccountImportanceSnapshots) (start count : ℕ)

private theorem reads_snapshots (inside : start + count ≤ importanceHistorySize) :
    Reads (reader.readSnapshots count) (writeSnapshots snapshots start count)
      { reader with
        snapshots := reader.snapshots ++ processRange snapshots.slots start count } := by
  have many := reads_readMany reads_snapshot (processRange snapshots.slots start count)
  rw [length_processRange (inside.trans_eq snapshots.length_slots.symm)] at many
  exact many.map fun read => mk (reader.snapshots ++ read) reader.buckets

variable (buckets : AccountActivityBuckets)

private theorem reads_buckets (inside : start + count ≤ activityBucketHistorySize) :
    Reads (reader.readBuckets count) (writeBuckets buckets start count)
      { reader with buckets := reader.buckets ++ processRange buckets.slots start count } := by
  have many := reads_readMany reads_bucket (processRange buckets.slots start count)
  rw [length_processRange (inside.trans_eq buckets.length_slots.symm)] at many
  exact many.map fun read => mk reader.snapshots (reader.buckets ++ read)

private theorem reads_snapshots_buckets
    {start count bucketStart bucketCount : ℕ} (inside : start + count ≤ importanceHistorySize)
    (bucketsInside : bucketStart + bucketCount ≤ activityBucketHistorySize) :
    Reads (reader.readSnapshots count >>= fun next => next.readBuckets bucketCount)
      (writeSnapshots state.importanceSnapshots start count ++
        writeBuckets state.activityBuckets bucketStart bucketCount)
      ⟨reader.snapshots ++ processRange state.importanceSnapshots.slots start count,
        reader.buckets ++ processRange state.activityBuckets.slots bucketStart bucketCount⟩ :=
  (reads_snapshots reader _ _ _ inside).bind (reads_buckets _ _ _ _ bucketsInside)

def nonHistorical (state : StoredAccountState) : ImportanceReader :=
  if getFormat state = .highValue then
    ⟨processRange state.importanceSnapshots.slots 0 (importanceHistorySize - rollbackBufferSize),
      processRange state.activityBuckets.slots 0
        (activityBucketHistorySize - rollbackBufferSize)⟩
  else .create

private theorem reads_importance :
    Reads (readImportance (getFormat state).toByte) (writeImportance state)
      (nonHistorical state) := by
  unfold readImportance writeImportance nonHistorical
  cases getFormat state with
  | regular => exact Reads.pure _
  | highValue =>
    exact reads_snapshots_buckets state .create (by decide) (by decide)

private theorem processRange_append (values : List T) (start count : ℕ)
    (whole : start + count = values.length) :
    processRange values 0 start ++ processRange values start count = values := by
  have rest : (values.drop start).take count = values.drop start := by
    refine take_of_length_le ?_
    rw [length_drop]
    omega
  rw [processRange, processRange, drop_zero, rest, take_append_drop]

private theorem processRange_all (values : List T) {count : ℕ} (whole : values.length = count) :
    processRange values 0 count = values := by
  rw [processRange, drop_zero, take_of_length_le whole.le]

private theorem reads_history :
    Reads (readHistory (nonHistorical state)) (writeHistory state)
      ⟨state.importanceSnapshots.slots, state.activityBuckets.slots⟩ := by
  have snapshots := state.importanceSnapshots.length_slots
  have buckets := state.activityBuckets.length_slots
  unfold readHistory writeHistory nonHistorical
  cases getFormat state with
  | regular =>
    have read := reads_snapshots_buckets state .create (Nat.zero_add importanceHistorySize).le
      (Nat.zero_add activityBucketHistorySize).le
    rw [processRange_all _ snapshots, processRange_all _ buckets] at read
    exact read
  | highValue =>
    let front : ImportanceReader := ⟨processRange state.importanceSnapshots.slots 0 1,
      processRange state.activityBuckets.slots 0 5⟩
    have known : front.hasSnapshots = true := by
      rw [hasSnapshots, Bool.not_eq_true', isEmpty_eq_false_iff,
        ← length_pos_iff, length_processRange (by rw [snapshots]; decide)]
      exact Nat.one_pos
    have inside : 1 + rollbackBufferSize ≤ importanceHistorySize := le_rfl
    have bucketsInside : 5 + rollbackBufferSize ≤ activityBucketHistorySize := le_rfl
    have read := reads_snapshots_buckets state front inside bucketsInside
    rw [processRange_append _ 1 rollbackBufferSize snapshots.symm,
      processRange_append _ 5 rollbackBufferSize buckets.symm] at read
    change Reads (if front.hasSnapshots = true then _ else _) _ _
    rw [if_pos known]
    exact read

private theorem placeSnapshot_eq (snapshot : ImportanceSnapshot)
    (above : snapshot.height ≠ 0 → snapshots.top.height ≠ 0 →
      snapshots.top.height < snapshot.height)
    (blank : snapshot.height = 0 → snapshot = default) :
    placeSnapshot snapshots snapshot = some (CompactArrayStack.push snapshots snapshot) := by
  unfold placeSnapshot
  split
  · next zero => rw [blank zero, AccountImportanceSnapshots.push]
  · next nonzero => exact AccountImportanceSnapshots.set_spec _ _ (above nonzero)

private theorem placeBucket_eq (bucket : ActivityBucket)
    (above : bucket.startHeight ≠ 0 → buckets.top.startHeight ≠ 0 →
      buckets.top.startHeight < bucket.startHeight)
    (blank : bucket.startHeight = 0 → bucket = default) :
    placeBucket buckets bucket = some (CompactArrayStack.push buckets bucket) := by
  unfold placeBucket
  split
  · next zero => rw [blank zero, AccountActivityBuckets.push]
  · next nonzero =>
    refine AccountActivityBuckets.update_create _ ?_
    by_cases first : buckets.top.startHeight = 0
    · rw [first]
      bv_omega
    · exact above nonzero first

variable {state}

private theorem apply_slots {created : StoredAccountState}
    (snapshots : Graded ImportanceSnapshot.height state.importanceSnapshots.slots)
    (buckets : Graded ActivityBucket.startHeight state.activityBuckets.slots)
    (noSnapshots : created.importanceSnapshots = CompactArrayStack.create)
    (noBuckets : created.activityBuckets = CompactArrayStack.create) :
    ∃ replayedSnapshots replayedBuckets,
      apply ⟨state.importanceSnapshots.slots, state.activityBuckets.slots⟩
        created = some { created with
          importanceSnapshots := replayedSnapshots, activityBuckets := replayedBuckets } ∧
      replayedSnapshots.slots = state.importanceSnapshots.slots ∧
      replayedBuckets.slots = state.activityBuckets.slots := by
  have replaySnapshots := snapshots.replay rfl placeSnapshot_eq
  have replayBuckets := buckets.replay rfl placeBucket_eq
  refine ⟨_, _, ?_, slots_replayed state.importanceSnapshots, slots_replayed state.activityBuckets⟩
  have fullSnapshots : snapshotArray ⟨state.importanceSnapshots.slots,
      state.activityBuckets.slots⟩ = state.importanceSnapshots.slots.reverse := by
    rw [snapshotArray, state.importanceSnapshots.length_slots, Nat.sub_self]
    rfl
  have fullBuckets : bucketArray ⟨state.importanceSnapshots.slots,
      state.activityBuckets.slots⟩ = state.activityBuckets.slots.reverse := by
    rw [bucketArray, state.activityBuckets.length_slots, Nat.sub_self]
    rfl
  rw [apply, fullSnapshots, fullBuckets, noSnapshots, noBuckets, replaySnapshots, replayBuckets]
  rfl

variable {tokens : List (OrderedTokenId × Amount)}

private theorem reads_tokens {index : ℕ} {balances result : CompactTokenMap OrderedTokenId Amount}
    (credited : balances.creditTokens index tokens = some result) :
    Reads (readTokens tokens.length index balances) (tokens.flatMap tokenBytes) result := by
  induction tokens generalizing index balances with
  | nil =>
    cases credited
    exact Reads.pure _
  | cons token rest ih =>
    obtain ⟨next, one, more⟩ := Option.bind_eq_some_iff.mp credited
    obtain ⟨optimized, first, others⟩ := Option.bind_eq_some_iff.mp more
    exact (reads_token token).bind ((Reads.lift one).bind ((Reads.lift first).bind (ih others)))

/-- Two accounts that are the same but for their balances. A key that is zero is the same as one
that is unset. -/
structure SameAttributes (first second : StoredAccountState) : Prop where
  address : first.address = second.address
  addressHeight : first.addressHeight = second.addressHeight
  publicKey : first.publicKey = second.publicKey
  publicKeyHeight : first.publicKeyHeight = second.publicKeyHeight
  accountType : first.accountType = second.accountType
  linked : first.supplementalPublicKeys.linked.get = second.supplementalPublicKeys.linked.get
  node : first.supplementalPublicKeys.node.get = second.supplementalPublicKeys.node.get
  vrf : first.supplementalPublicKeys.vrf.get = second.supplementalPublicKeys.vrf.get
  voting : first.supplementalPublicKeys.voting = second.supplementalPublicKeys.voting
  snapshots : first.importanceSnapshots.slots = second.importanceSnapshots.slots
  buckets : first.activityBuckets.slots = second.activityBuckets.slots

structure SameContent (first second : StoredAccountState) : Prop
    extends SameAttributes first second where
  balances : ∀ id, first.balances.get id = second.balances.get id
  tokens : first.balances.iterate = second.balances.iterate
  size : first.balances.size = second.balances.size

theorem SameAttributes.trans {first second third : StoredAccountState}
    (same : SameAttributes first second) (next : SameAttributes second third) :
    SameAttributes first third where
  address := same.address.trans next.address
  addressHeight := same.addressHeight.trans next.addressHeight
  publicKey := same.publicKey.trans next.publicKey
  publicKeyHeight := same.publicKeyHeight.trans next.publicKeyHeight
  accountType := same.accountType.trans next.accountType
  linked := same.linked.trans next.linked
  node := same.node.trans next.node
  vrf := same.vrf.trans next.vrf
  voting := same.voting.trans next.voting
  snapshots := same.snapshots.trans next.snapshots
  buckets := same.buckets.trans next.buckets

variable {first second : StoredAccountState}

private theorem SameAttributes.getFormat_eq
    (same : SameAttributes first second) : getFormat first = getFormat second := by
  have active : first.importanceSnapshots.active = second.importanceSnapshots.active := by
    simp only [AccountImportanceSnapshots.active, AccountImportanceSnapshots.height, top,
      same.snapshots]
  rw [getFormat, getFormat, active]

theorem SameContent.saveNonHistorical_eq
    (same : SameContent first second) : saveNonHistorical first = saveNonHistorical second := by
  have mask : first.supplementalPublicKeys.mask = second.supplementalPublicKeys.mask := by
    simp only [AccountPublicKeys.mask, isSet_eq, same.linked, same.node, same.vrf]
  simp only [saveNonHistorical, writeSupplementalPublicKeys, writeImportance, writeTokens, writeKey,
    writeSnapshots, writeBuckets, mask, same.getFormat_eq, same.address, same.addressHeight,
    same.publicKey, same.publicKeyHeight, same.accountType, same.linked, same.node, same.vrf,
    same.voting, same.snapshots, same.buckets, same.tokens, same.size]

private theorem SameContent.save_eq (same : SameContent first second) :
    save first = save second := by
  simp only [save, same.saveNonHistorical_eq, writeHistory, writeSnapshots, writeBuckets,
    same.getFormat_eq, same.snapshots, same.buckets]

/-- Parts of an account other than its balances that are loaded as they are saved. -/
structure Orderly (state : StoredAccountState) : Prop where
  snapshots : Graded ImportanceSnapshot.height state.importanceSnapshots.slots
  buckets : Graded ActivityBucket.startHeight state.activityBuckets.slots
  voting : state.supplementalPublicKeys.voting.Sorted
  fewKeys : state.supplementalPublicKeys.voting.length ≤ 255

theorem Orderly.of_same (orderly : Orderly second)
    (same : SameAttributes first second) : Orderly first where
  snapshots := same.snapshots ▸ orderly.snapshots
  buckets := same.buckets ▸ orderly.buckets
  voting := same.voting ▸ orderly.voting
  fewKeys := same.voting ▸ orderly.fewKeys

/-- What an account needs to be loaded as it was saved: an ordered map behind its balances, none
of them zero, and parts that keep to their order. -/
structure Loadable (state : StoredAccountState) (ref : OrderedTokens OrderedTokenId Amount) :
    Prop extends Orderly state where
  balances : state.balances.Represents ref
  positive : ∀ token ∈ state.balances.tokens, token.2 ≠ 0
  fewTokens : state.balances.size ≤ 65535

/-- The account state as it is read before the importances are applied. -/
def withoutImportances (state : StoredAccountState)
    (balances : CompactTokenMap OrderedTokenId Amount) : StoredAccountState :=
  { create state.address state.addressHeight with
    publicKey := state.publicKey
    publicKeyHeight := state.publicKeyHeight
    accountType := state.accountType
    supplementalPublicKeys := ⟨stored state.supplementalPublicKeys.linked,
      stored state.supplementalPublicKeys.node, stored state.supplementalPublicKeys.vrf,
      state.supplementalPublicKeys.voting⟩
    balances }

section Loadable
variable {ref : OrderedTokens OrderedTokenId Amount}

private theorem Loadable.reads_withoutHistory (loadable : Loadable state ref)
    {balances : CompactTokenMap OrderedTokenId Amount}
    (credited : CompactTokenMap.create.creditTokens 0 state.balances.tokens = some balances) :
    Reads loadAccountStateWithoutHistory (saveNonHistorical state)
      (withoutImportances state balances, nonHistorical state) := by
  have iterate := loadable.balances.ordered.shape.iterate_eq
  have count : (BitVec.ofNat 16 state.balances.size).toNat = state.balances.iterate.length := by
    rw [iterate, CompactTokenMap.length_tokens]
    exact Nat.mod_eq_of_lt (Nat.lt_succ_of_le loadable.fewTokens)
  rw [← iterate] at credited
  have tokens := reads_tokens credited
  rw [← count] at tokens
  refine (reads_readArray 24 state.address).bind ((reads_readWord 8 state.addressHeight).bind
    ((reads_readArray 32 state.publicKey).bind ((reads_readWord 8 state.publicKeyHeight).bind
      ((reads_readWord 1 state.accountType).bind
        ((reads_readWord 1 (getFormat state).toByte).bind
          ((reads_supplementalPublicKeys loadable.voting loadable.fewKeys).bind
            ((reads_importance state).bind ((reads_readWord 2 (BitVec.ofNat 16 _)).bind ?_))))))))
  exact tokens.map fun read => (withoutImportances state read, nonHistorical state)

theorem Loadable.exists_load (loadable : Loadable state ref) :
    ∃ loaded first, load (save state) = some (loaded, []) ∧ SameContent loaded state ∧
      Loadable loaded ⟨ref.map, first⟩ := by
  obtain ⟨balances, first, credited, rep, sameTokens⟩ := loadable.balances.reload loadable.positive
  obtain ⟨snapshots, buckets, applied, sameSnapshots, sameBuckets⟩ :=
    apply_slots loadable.snapshots loadable.buckets
      (rfl : (withoutImportances state balances).importanceSnapshots = CompactArrayStack.create)
      (rfl : (withoutImportances state balances).activityBuckets = CompactArrayStack.create)
  have sameSize : balances.size = state.balances.size := by
    rw [← CompactTokenMap.length_tokens, sameTokens, CompactTokenMap.length_tokens]
  let loaded : StoredAccountState := { withoutImportances state balances with
    importanceSnapshots := snapshots, activityBuckets := buckets }
  have attributes : SameAttributes loaded state :=
    ⟨rfl, rfl, rfl, rfl, rfl, get_stored _, get_stored _, get_stored _, rfl, sameSnapshots,
      sameBuckets⟩
  refine ⟨loaded, first, ?_, ⟨attributes, fun id => ?_, ?_, sameSize⟩,
    ⟨loadable.toOrderly.of_same attributes, rep, ?_, ?_⟩⟩
  · have history : Reads (readHistory (nonHistorical state) >>= fun reader =>
        liftM (reader.apply (withoutImportances state balances))) (writeHistory state ++ []) _ :=
      (reads_history state).bind (Reads.lift applied)
    have whole : Reads load (saveNonHistorical state ++ (writeHistory state ++ [])) _ :=
      (loadable.reads_withoutHistory credited).bind history
    rw [append_nil] at whole
    have read := whole []
    rw [append_nil] at read
    exact read
  · change balances.get id = state.balances.get id
    simp only [CompactTokenMap.get, CompactTokenMap.find_eq, sameTokens]
  · change balances.iterate = state.balances.iterate
    rw [rep.ordered.shape.iterate_eq, loadable.balances.ordered.shape.iterate_eq, sameTokens]
  · exact sameTokens.symm ▸ loadable.positive
  · exact sameSize.trans_le loadable.fewTokens

end Loadable

/-- An account whose parts went through operations of their own. No importance or activity is at
height zero, no voting key ends before it starts, and no balance has come to zero by a credit. -/
structure Built (state : StoredAccountState) : Prop where
  snapshots : ∃ ops, (∀ op ∈ ops, op.Dated) ∧
    state.importanceSnapshots = AccountImportanceSnapshots.run ops
  buckets : ∃ ops, (∀ op ∈ ops, op.Dated) ∧ state.activityBuckets = AccountActivityBuckets.run ops
  voting : ∃ ops, (∀ op ∈ ops, op.Forward) ∧
    state.supplementalPublicKeys.voting = VotingKeysAccessor.run ops
  balances : ∃ ops, state.balances = CompactTokenMap.runOnBalances ops
  positive : ∀ token ∈ state.balances.iterate, token.2 ≠ 0

theorem Built.orderly (built : Built state)
    (fewKeys : state.supplementalPublicKeys.voting.length ≤ 255) : Orderly state where
  snapshots := by
    obtain ⟨ops, dated, snapshots⟩ := built.snapshots
    exact snapshots ▸ AccountImportanceSnapshots.graded_run dated
  buckets := by
    obtain ⟨ops, dated, buckets⟩ := built.buckets
    exact buckets ▸ AccountActivityBuckets.graded_run dated
  voting := by
    obtain ⟨ops, forward, voting⟩ := built.voting
    exact voting ▸ VotingKeysAccessor.sorted_run forward
  fewKeys := fewKeys

theorem Built.exists_represents (built : Built state) : ∃ ref, state.balances.Represents ref := by
  obtain ⟨ops, balances⟩ := built.balances
  rw [balances]
  exact CompactTokenMap.exists_represents_run ops

/-- An account state that is saved is loaded with the same content, and saved to the same bytes
again. -/
theorem load_save (state : StoredAccountState) (built : Built state)
    (fewTokens : state.balances.size ≤ 65535)
    (fewKeys : state.supplementalPublicKeys.voting.length ≤ 255) :
    ∃ loaded, load (save state) = some (loaded, []) ∧ SameContent loaded state ∧
      save loaded = save state := by
  obtain ⟨ref, rep⟩ := built.exists_represents
  have positive := built.positive
  rw [rep.ordered.shape.iterate_eq] at positive
  have loadable : Loadable state ref := ⟨built.orderly fewKeys, rep, positive, fewTokens⟩
  obtain ⟨loaded, _, done, same, _⟩ := loadable.exists_load
  exact ⟨loaded, done, same, same.save_eq⟩

theorem positive_of_all
    (positive : tokens.all fun token => token.2 ≠ 0) : ∀ token ∈ tokens, token.2 ≠ 0 :=
  fun token held => of_decide_eq_true (all_eq_true.1 positive token held)

/-- An account with an importance, an activity, a voting key and two tokens. -/
def activeAccount : StoredAccountState :=
  { create 1 2 with
    importanceSnapshots := AccountImportanceSnapshots.run [.set 5 100, .push, .set 7 300]
    activityBuckets := AccountActivityBuckets.run [.update 100 fun _ => ⟨3, 1, 0⟩, .push]
    supplementalPublicKeys := ⟨some 9, none, none, VotingKeysAccessor.run [.add ⟨1, 2, 3⟩]⟩
    balances := CompactTokenMap.runOnBalances [.credit 8 10, .optimize 8, .credit 7 1] }

theorem load_save_activeAccount :
    ∃ loaded, load (save activeAccount) = some (loaded, []) ∧ SameContent loaded activeAccount ∧
      save loaded = save activeAccount := by
  refine load_save activeAccount ⟨⟨_, ?_, rfl⟩, ⟨_, ?_, rfl⟩, ⟨_, ?_, rfl⟩, ⟨_, rfl⟩, ?_⟩
    (by decide +kernel) (by decide +kernel)
  · simp [AccountImportanceSnapshots.Operation.Dated]
  · simp [AccountActivityBuckets.Operation.Dated]
  · simp [VotingKeysAccessor.Operation.Forward]
  · exact positive_of_all (by decide +kernel)

def undatedImportance : StoredAccountState :=
  { create 1 2 with
    importanceSnapshots := AccountImportanceSnapshots.run [.set 5 0] }

def undatedActivity : StoredAccountState :=
  { create 1 2 with
    activityBuckets := AccountActivityBuckets.run [.push, .update 0 fun _ => ⟨3, 1, 0⟩] }

def wrappedBalance : StoredAccountState :=
  { create 1 2 with
    balances := CompactTokenMap.runOnBalances [.credit 7 1, .credit 7 (-1)] }

/-- Voting keys that end before they start, and one that starts between. -/
def backwardVotingKeys : StoredAccountState :=
  { create 1 2 with
    supplementalPublicKeys := ⟨none, none, none, VotingKeysAccessor.run
      [.add ⟨1, 10, 20⟩, .add ⟨2, 100, 1⟩, .add ⟨3, 200, 15⟩]⟩ }

/-- Importances and activities at height zero are not loaded, nor are balances of zero, and with
voting keys that end before they start loading may throw. -/
theorem load_save_loses :
    (load (save undatedImportance)).map (fun read => read.1.importanceSnapshots.slots) ≠
        some undatedImportance.importanceSnapshots.slots ∧
      (load (save undatedActivity)).map (fun read => read.1.activityBuckets.slots) ≠
        some undatedActivity.activityBuckets.slots ∧
      (load (save wrappedBalance)).map (fun read => save read.1) ≠ some (save wrappedBalance) ∧
      (load (save backwardVotingKeys)).isNone := by
  refine ⟨?_, ?_, ?_, ?_⟩ <;> decide +kernel

end AccountStateSerializer

end BitxorCore.State
