/- GID: Finalization/FinalizationMessage
   anchors: [extensions/finalization, src/bitxorcore/model]
   digest: Finalization messages, the voters of an epoch, and the check of one message. -/

import BitxorCore.Finalization.RoundTally
import BitxorCore.Library.Bytes

set_option autoImplicit false
set_option relaxedAutoImplicit false

namespace BitxorCore.Finalization
open Library Library.FiniteMap Library.Bookkeeping Model Bytes

inductive FinalizationStage
  | prevote
  | precommit
  deriving DecidableEq, Repr

structure FinalizationRound where
  epoch : BitVec 32
  point : BitVec 32
  deriving DecidableEq, Repr

@[ext]
structure StepIdentifier where
  epoch : BitVec 32
  pointStage : BitVec 32
  deriving DecidableEq, Repr

namespace StepIdentifier

def create (epoch point : BitVec 32) (stage : FinalizationStage) : StepIdentifier :=
  ⟨epoch, (point <<< 1) ||| (match stage with | .prevote => 0#32 | .precommit => 1#32)⟩

variable (step : StepIdentifier)

def round : FinalizationRound := ⟨step.epoch, step.pointStage >>> 1⟩

def stage : FinalizationStage :=
  if step.pointStage &&& 1#32 = 0#32 then .prevote else .precommit

theorem create_round_stage : create step.round.epoch step.round.point step.stage = step := by
  obtain ⟨epoch, pointStage⟩ := step
  refine StepIdentifier.ext rfl (BitVec.eq_of_getLsbD_eq fun i _ => ?_)
  have low : pointStage &&& 1#32 = 0#32 ↔ pointStage.getLsbD 0 = false := by
    rw [← BitVec.toNat_inj]
    simp [BitVec.getLsbD, Nat.testBit_zero]
  simp only [create, round, stage]
  cases i with
  | zero => split_ifs with even <;> simp_all
  | succ i =>
    have shifted : (pointStage >>> 1 <<< 1).getLsbD (i + 1) = pointStage.getLsbD (i + 1) := by
      rw [BitVec.getLsbD_shiftLeft, BitVec.getLsbD_ushiftRight, Nat.add_comm 1]
      simp_all
    split_ifs <;> simp_all

end StepIdentifier

abbrev VotingKey := BitVec 256

abbrev TreeSignature := Crypto.BmTreeSignature VotingKey (BitVec 512)

/-- A message; its size in bytes has 32 bits. -/
@[ext]
structure FinalizationMessage where
  reserved1 : BitVec 32
  signature : TreeSignature
  version : BitVec 32
  stepIdentifier : StepIdentifier
  height : BitVec 64
  hashes : List Hash256
  size_lt : 224 + 32 * hashes.length < 2 ^ 32
  deriving DecidableEq

namespace FinalizationMessage

def currentVersion : BitVec 32 := 1

variable (msg : FinalizationMessage)

def hashesCount : ℕ := msg.hashes.length

def size : ℕ := 224 + 32 * msg.hashesCount

def isPrevote : Bool := msg.stepIdentifier.stage == .prevote

def toBuffer : List ℕ :=
  word 4 msg.version ++ (littleEndian 4 msg.hashesCount ++
    (word 4 msg.stepIdentifier.epoch ++ (word 4 msg.stepIdentifier.pointStage ++
      (word 8 msg.height ++ msg.hashes.flatMap (array 32)))))

def key : VotingKey × Bool := (msg.signature.root.parentPublicKey, msg.isPrevote)

theorem eq_of_toBuffer_eq {first second : FinalizationMessage}
    (same : first.toBuffer = second.toBuffer) (padding : first.reserved1 = second.reserved1) :
    { first with signature := second.signature } = second := by
  obtain ⟨version, rest⟩ := List.append_inj same (by simp)
  obtain ⟨-, rest⟩ := List.append_inj rest (by simp)
  obtain ⟨epoch, rest⟩ := List.append_inj rest (by simp)
  obtain ⟨pointStage, rest⟩ := List.append_inj rest (by simp)
  obtain ⟨height, hashes⟩ := List.append_inj rest (by simp)
  refine FinalizationMessage.ext padding rfl (word_injective 4 version) ?_
    (word_injective 8 height) ?_
  · exact StepIdentifier.ext (word_injective 4 epoch) (word_injective 4 pointStage)
  · exact flatMap_injective (by decide) (length_array 32) (array_injective 32) hashes

def vote (weight : ℕ) : Vote :=
  if msg.isPrevote then
    .prevote ⟨msg.height.toNat, msg.hashes, weight, by have := msg.size_lt; omega⟩
  else .precommit ⟨msg.height.toNat, msg.hashes.headD 0, weight⟩

end FinalizationMessage

/-- The settings of the finalization extension; the step duration is in milliseconds. -/
structure FinalizationConfiguration where
  size : ℕ
  threshold : ℕ
  stepDuration : ℕ
  maxHashesPerPoint : ℕ
  prevoteBlocksMultiple : ℕ
  votingSetGrouping : ℕ
  messageSynchronizationMaxResponseSize : ℕ
  treasuryReissuanceEpoch : ℕ
  treasuryReissuanceEpochIneligibleVoterAddresses : List ℕ

structure PinnedVotingKey where
  votingKey : VotingKey
  startEpoch : ℕ
  endEpoch : ℕ
  deriving DecidableEq

def findVotingPublicKeyForEpoch (pinnedPublicKeys : List PinnedVotingKey) (epoch : ℕ) : VotingKey :=
  match pinnedPublicKeys.find? fun key => key.startEpoch ≤ epoch && epoch ≤ key.endEpoch with
  | some key => key.votingKey
  | none => 0

/-- What the histories of a high value account say at the height of an epoch. -/
structure VotingAccount where
  address : ℕ
  balance : ℕ
  votingPublicKeys : List PinnedVotingKey

/-- The voters of an epoch. Their balances are parts of one supply of 64 bits, and the blocks that
they can vote for in one round fit into memory. -/
structure FinalizationContext where
  epoch : ℕ
  height : ℕ
  config : FinalizationConfiguration
  accounts : Map VotingKey ℕ
  weight : ℕ
  accounts_le : total id accounts ≤ weight
  weight_lt : weight < 2 ^ 64
  blocks_fit : count accounts * config.maxHashesPerPoint < 2 ^ 64

namespace FinalizationContext

variable (epoch : ℕ) (config : FinalizationConfiguration)

/-- The voting key under which the constructor registers an account, if it does. -/
def eligibleKey? (account : VotingAccount) :
    Option VotingKey :=
  let key := findVotingPublicKeyForEpoch account.votingPublicKeys epoch
  if account.balance = 0 then none
  else if key = 0 then none
  else if config.treasuryReissuanceEpoch ≤ epoch &&
      config.treasuryReissuanceEpochIneligibleVoterAddresses.contains account.address then none
  else some key

/-- `emplace` keeps the first account with a key. -/
def register (accounts : Map VotingKey ℕ) (key : VotingKey) (balance : ℕ) : Map VotingKey ℕ :=
  if (accounts.lookup key).isSome then accounts else accounts.insert key balance

/-- One iteration of the constructor's loop over the high value accounts. -/
def addAccount (state : Map VotingKey ℕ × ℕ)
    (account : VotingAccount) : Map VotingKey ℕ × ℕ :=
  match eligibleKey? epoch config account with
  | none => state
  | some key => (register state.1 key account.balance, (state.2 + account.balance) % 2 ^ 64)

def addAccounts (accounts : List VotingAccount) :
    Map VotingKey ℕ × ℕ :=
  accounts.foldl (addAccount epoch config) (∅, 0)

variable (accounts : Map VotingKey ℕ) (key : VotingKey) (balance : ℕ)

private theorem total_register_le :
    total id (register accounts key balance) ≤ total id accounts + balance := by
  unfold register
  split_ifs
  · exact Nat.le_add_right _ _
  · have := total_insert id accounts key balance
    simp only [id] at this
    omega

private theorem count_register_le : count (register accounts key balance) ≤ count accounts + 1 := by
  unfold register
  split_ifs
  · exact Nat.le_succ _
  · have keys : (accounts.insert key balance).keys ⊆ insert key accounts.keys := by
      intro other mem
      rw [Finmap.mem_keys, Finmap.mem_insert] at mem
      rw [Finset.mem_insert, Finmap.mem_keys]
      exact mem
    exact (Finset.card_le_card keys).trans (Finset.card_insert_le _ _)

private theorem foldl_addAccount_spec
    (accounts : List VotingAccount) {state : Map VotingKey ℕ × ℕ} {balances voters : ℕ}
    (fits : balances + (accounts.map VotingAccount.balance).sum < 2 ^ 64)
    (registered : total id state.1 ≤ state.2) (bounded : state.2 ≤ balances)
    (counted : count state.1 ≤ voters) :
    let after := accounts.foldl (addAccount epoch config) state
    total id after.1 ≤ after.2 ∧ after.2 < 2 ^ 64 ∧ count after.1 ≤ voters + accounts.length := by
  induction accounts generalizing state balances voters with
  | nil => exact ⟨registered, lt_of_le_of_lt bounded (Nat.lt_of_add_right_lt fits), counted⟩
  | cons account rest ih =>
    rw [List.map_cons, List.sum_cons] at fits
    have step : total id (addAccount epoch config state account).1 ≤
          (addAccount epoch config state account).2 ∧
        (addAccount epoch config state account).2 ≤ balances + account.balance ∧
        count (addAccount epoch config state account).1 ≤ voters + 1 := by
      unfold addAccount
      cases eligibleKey? epoch config account with
      | none =>
        exact ⟨registered, bounded.trans (Nat.le_add_right _ _), counted.trans (Nat.le_succ _)⟩
      | some key =>
        have more := total_register_le state.1 key account.balance
        have size := count_register_le state.1 key account.balance
        dsimp only
        rw [Nat.mod_eq_of_lt (by omega)]
        exact ⟨by omega, by omega, by omega⟩
    have tail := ih (by omega) step.1 step.2.1 step.2.2
    rw [List.length_cons, Nat.add_comm rest.length, ← Nat.add_assoc]
    exact tail

private theorem addAccounts_spec
    {accounts : List VotingAccount} (supply : (accounts.map VotingAccount.balance).sum < 2 ^ 64) :
    let after := addAccounts epoch config accounts
    total id after.1 ≤ after.2 ∧ after.2 < 2 ^ 64 ∧ count after.1 ≤ accounts.length := by
  have fits : 0 + (accounts.map VotingAccount.balance).sum < 2 ^ 64 := by rwa [Nat.zero_add]
  have empty : total id ((∅, 0) : Map VotingKey ℕ × ℕ).1 ≤ 0 := Nat.le_refl 0
  have nobody : count ((∅, 0) : Map VotingKey ℕ × ℕ).1 ≤ 0 := Nat.le_refl 0
  have spec := foldl_addAccount_spec epoch config accounts fits empty (Nat.le_refl 0) nobody
  rwa [Nat.zero_add] at spec

def create (epoch height : ℕ) (config : FinalizationConfiguration) (accounts : List VotingAccount)
    (supply : (accounts.map VotingAccount.balance).sum < 2 ^ 64)
    (memory : accounts.length * config.maxHashesPerPoint < 2 ^ 64) : FinalizationContext where
  epoch := epoch
  height := height
  config := config
  accounts := (addAccounts epoch config accounts).1
  weight := (addAccounts epoch config accounts).2
  accounts_le := (addAccounts_spec epoch config supply).1
  weight_lt := (addAccounts_spec epoch config supply).2.1
  blocks_fit := lt_of_le_of_lt
    (Nat.mul_le_mul_right _ (addAccounts_spec epoch config supply).2.2) memory

variable (ctx : FinalizationContext) (votingPublicKey : VotingKey)

/-- The weight of a voter; a key that is not registered has none. -/
def lookup : ℕ :=
  share id ctx.accounts votingPublicKey

def isEligibleVoter : Bool :=
  ctx.lookup votingPublicKey != 0

end FinalizationContext

structure MessageCrypto where
  verify : TreeSignature → BitVec 32 → List ℕ → Bool
  messageHash : FinalizationMessage → Hash256

inductive ProcessMessageResult
  | failureVoter
  | failurePadding
  | failureVersion
  | failureSignature
  | success
  deriving DecidableEq, Repr

def processMessage (crypto : MessageCrypto) (msg : FinalizationMessage)
    (ctx : FinalizationContext) : ProcessMessageResult × ℕ :=
  let weight := ctx.lookup msg.signature.root.parentPublicKey
  if weight = 0 then (.failureVoter, 0)
  else if msg.reserved1 ≠ 0 then (.failurePadding, 0)
  else if msg.version ≠ FinalizationMessage.currentVersion then (.failureVersion, 0)
  else if crypto.verify msg.signature msg.stepIdentifier.epoch msg.toBuffer then
    (.success, weight)
  else (.failureSignature, 0)

theorem processMessage_success {crypto : MessageCrypto} {msg : FinalizationMessage}
    {ctx : FinalizationContext} {weight : ℕ}
    (success : processMessage crypto msg ctx = (.success, weight)) :
    weight = ctx.lookup msg.signature.root.parentPublicKey ∧ weight ≠ 0 ∧
      msg.reserved1 = 0 ∧ msg.version = FinalizationMessage.currentVersion := by
  unfold processMessage at success
  dsimp only at success
  split_ifs at success with voter padding version signature <;> simp_all

/-- The last height that an epoch finalizes; throws for parameters that make no sense. -/
def calculateVotingSetEndHeight (epoch : BitVec 32) (grouping : ℕ) : Except String ℕ :=
  if grouping = 0 then .error "grouping zero is not supported"
  else if epoch = 0 then .error "epoch zero is not supported"
  else .ok (if epoch = 1 then 1 else (epoch - 1).toNat * grouping % 2 ^ 64)

end BitxorCore.Finalization
