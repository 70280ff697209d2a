/- GID: Finalization/FinalizationProof
   anchors: [extensions/finalization]
   digest: When a proof that a node builds from its messages passes the node's own check. -/

import BitxorCore.Finalization.MultiRoundMessageAggregator

set_option autoImplicit false
set_option relaxedAutoImplicit false

namespace BitxorCore.Finalization
open Library Library.FiniteMap Library.Bookkeeping Library.ParentForest Model List
open FinalizationMessage (currentVersion ext key size vote)

/-- The messages of a proof that differ in their signatures only. -/
structure FinalizationMessageGroup where
  stage : FinalizationStage
  height : BitVec 64
  hashes : List Hash256
  signatures : List TreeSignature
  hashes_fit : 224 + 32 * hashes.length < 2 ^ 32

def FinalizationMessageGroup.size (group : FinalizationMessageGroup) : ℕ :=
  24 + 32 * group.hashes.length + 192 * group.signatures.length

structure FinalizationProof where
  version : BitVec 32
  round : FinalizationRound
  height : ℕ
  hash : Hash256
  messageGroups : List FinalizationMessageGroup

def FinalizationProof.currentVersion : BitVec 32 := 1

/-- Messages are grouped by their size and then by the bytes that are signed. -/
abbrev GroupKey := ℕ ×ₗ List ℕ

def groupKey (message : FinalizationMessage) : GroupKey := toLex (message.size, message.toBuffer)

/-- Groups of messages; each keeps the message that it was made for. -/
abbrev MessageSignatureGroups := OrderedMap GroupKey (FinalizationMessage × List TreeSignature)

variable (round : FinalizationRound)

def canGroup (message : FinalizationMessage) : Bool :=
  round == message.stepIdentifier.round && message.reserved1 == 0 &&
    message.version == currentVersion

def addToGroup (groups : MessageSignatureGroups)
    (message : FinalizationMessage) : MessageSignatureGroups :=
  if canGroup round message then
    match groups.lookup (groupKey message) with
    | none => groups.insert (groupKey message) (message, [message.signature])
    | some (template, signatures) =>
      groups.insert (groupKey message) (template, signatures ++ [message.signature])
  else groups

def toMessageGroup (template : FinalizationMessage) (signatures : List TreeSignature) :
    FinalizationMessageGroup :=
  ⟨template.stepIdentifier.stage, template.height, template.hashes, signatures, template.size_lt⟩

def groupMessages (messages : List FinalizationMessage) : List FinalizationMessageGroup :=
  (messages.foldl (addToGroup round) OrderedMap.empty).entries.map fun entry =>
    toMessageGroup entry.2.1 entry.2.2

/-- The size of a proof has 32 bits; the groups of a larger one do not fit into its buffer. -/
def createFinalizationProof (target : HeightHashPair)
    (messages : List FinalizationMessage) : Option FinalizationProof :=
  let messageGroups := groupMessages round messages
  if 56 + (messageGroups.map FinalizationMessageGroup.size).sum < 2 ^ 32 then
    some ⟨FinalizationProof.currentVersion, round, target.height, target.hash, messageGroups⟩
  else none

inductive VerifyFinalizationProofResult
  | failureInvalidVersion
  | failureInvalidEpoch
  | failureInvalidMesssage
  | failureNoPrecommit
  | failureInvalidHeight
  | failureInvalidHash
  | success
  deriving DecidableEq, Repr

def createTemplateMessage (group : FinalizationMessageGroup)
    (signature : TreeSignature) : FinalizationMessage where
  reserved1 := 0
  signature := signature
  version := currentVersion
  stepIdentifier := StepIdentifier.create round.epoch round.point group.stage
  height := group.height
  hashes := group.hashes
  size_lt := group.hashes_fit

def FinalizationProof.messages (proof : FinalizationProof) : List FinalizationMessage :=
  proof.messageGroups.flatMap fun group =>
    group.signatures.map (createTemplateMessage proof.round group)

/-- The results after `Neutral_Redundant`. -/
def RoundMessageAggregatorAddResult.isSuccess : RoundMessageAggregatorAddResult → Bool
  | .successPrevote | .successPrecommit => true
  | _ => false

/-- The loop over the messages of a proof; it stops at the first one that is not accepted. -/
def replay (crypto : MessageCrypto) (agg : RoundMessageAggregator) :
    List FinalizationMessage → Except String (Option RoundMessageAggregator)
  | [] => .ok (some agg)
  | message :: rest =>
    match agg.add crypto message with
    | .error reason => .error reason
    | .ok (result, after) => if result.isSuccess then replay crypto after rest else .ok none

def verifyTarget (proof : FinalizationProof) (round : RoundContext) :
    VerifyFinalizationProofResult :=
  match round.tryFindBestPrecommit with
  | none => .failureNoPrecommit
  | some best =>
    if best.height ≠ proof.height then .failureInvalidHeight
    else if best.hash ≠ proof.hash then .failureInvalidHash
    else .success

def verifyFinalizationProof (crypto : MessageCrypto) (proof : FinalizationProof)
    (ctx : FinalizationContext) : Except String VerifyFinalizationProofResult :=
  if proof.version ≠ FinalizationProof.currentVersion then .ok .failureInvalidVersion
  else if proof.round.epoch.toNat ≠ ctx.epoch then .ok .failureInvalidEpoch
  else
    match replay crypto (RoundMessageAggregator.create ctx) proof.messages with
    | .error reason => .error reason
    | .ok none => .ok .failureInvalidMesssage
    | .ok (some agg) => .ok (verifyTarget proof agg.roundContext)

variable {round : FinalizationRound} {message template : FinalizationMessage}
  {messages : List FinalizationMessage}

private theorem createTemplateMessage_eq (can : canGroup round template = true)
    (signatures : List TreeSignature) (signature : TreeSignature) :
    createTemplateMessage round (toMessageGroup template signatures) signature =
      { template with signature := signature } := by
  simp only [canGroup, Bool.and_eq_true, beq_iff_eq] at can
  obtain ⟨⟨rfl, padding⟩, version⟩ := can
  refine ext padding.symm rfl version.symm ?_ rfl rfl
  exact StepIdentifier.create_round_stage template.stepIdentifier

private theorem eq_of_groupKey_eq (can : canGroup round template = true)
    (canOther : canGroup round message = true) (same : groupKey template = groupKey message) :
    { template with signature := message.signature } = message := by
  simp only [canGroup, Bool.and_eq_true, beq_iff_eq] at can canOther
  have buffers := (Prod.mk.inj (toLex.injective same)).2
  exact FinalizationMessage.eq_of_toBuffer_eq buffers (can.1.2.trans canOther.1.2.symm)

def groupContent (entry : GroupKey × FinalizationMessage × List TreeSignature) :
    List FinalizationMessage :=
  entry.2.2.map fun signature => { entry.2.1 with signature := signature }

/-- Every group is of messages that can be grouped, and together the groups have the messages. -/
structure Grouped (round : FinalizationRound) (messages : List FinalizationMessage)
    (groups : MessageSignatureGroups) : Prop where
  templates : ∀ entry ∈ groups.entries, entry.1 = groupKey entry.2.1 ∧
    canGroup round entry.2.1 = true
  signed : ∀ entry ∈ groups.entries, entry.2.2 ≠ []
  content : (groups.entries.flatMap groupContent).Perm messages

variable {groups : MessageSignatureGroups}

private theorem Grouped.addToGroup
    (grouped : Grouped round messages groups) (can : canGroup round message = true) :
    Grouped round (messages ++ [message]) (addToGroup round groups message) := by
  rw [Finalization.addToGroup, if_pos can]
  cases found : groups.lookup (groupKey message) with
  | none =>
    have entries := OrderedMap.entries_insert_of_none (message, [message.signature]) found
    refine ⟨fun entry mem => ?_, fun entry mem => ?_, ?_⟩
    · obtain rfl | mem := mem_cons.mp (entries.mem_iff.mp mem)
      · exact ⟨rfl, can⟩
      · exact grouped.templates entry mem
    · obtain rfl | mem := mem_cons.mp (entries.mem_iff.mp mem)
      · exact cons_ne_nil _ _
      · exact grouped.signed entry mem
    · exact (entries.flatMap_right groupContent).trans
        ((grouped.content.cons message).trans (perm_append_singleton message messages).symm)
  | some value =>
    obtain ⟨template, signatures⟩ := value
    obtain ⟨rest, before, after⟩ := OrderedMap.entries_insert_of_some
      (template, signatures ++ [message.signature]) found
    have old := grouped.templates _ (before.mem_iff.mpr mem_cons_self)
    refine ⟨fun entry mem => ?_, fun entry mem => ?_, ?_⟩
    · obtain rfl | mem := mem_cons.mp (after.mem_iff.mp mem)
      · exact old
      · exact grouped.templates entry (before.mem_iff.mpr (mem_cons_of_mem _ mem))
    · obtain rfl | mem := mem_cons.mp (after.mem_iff.mp mem)
      · exact append_ne_nil_of_right_ne_nil _ (cons_ne_nil _ _)
      · exact grouped.signed entry (before.mem_iff.mpr (mem_cons_of_mem _ mem))
    · have here : groupContent (groupKey message, template, signatures ++ [message.signature]) =
          groupContent (groupKey message, template, signatures) ++ [message] := by
        rw [groupContent, map_append, map_singleton]
        exact congrArg (_ ++ [·]) (eq_of_groupKey_eq old.2 can old.1.symm)
      have content := (before.flatMap_right groupContent).symm.trans grouped.content
      refine (after.flatMap_right groupContent).trans ?_
      rw [flatMap_cons, here, append_assoc] at *
      refine (List.Perm.append_left _ perm_append_comm).trans ?_
      rw [← append_assoc]
      exact content.append_right [message]

private theorem groupMessages_grouped (can : ∀ message ∈ messages, canGroup round message = true) :
    Grouped round messages (messages.foldl (addToGroup round) OrderedMap.empty) := by
  induction messages using reverseRecOn with
  | nil =>
    exact ⟨fun _ mem => absurd mem not_mem_nil,
      fun _ mem => absurd mem not_mem_nil, List.Perm.refl _⟩
  | append_singleton messages message ih =>
    rw [foldl_append]
    refine Grouped.addToGroup (ih fun other mem => can other ?_) (can message (by simp))
    exact mem_append_left _ mem

private theorem size_toMessageGroup_le
    {entry : GroupKey × FinalizationMessage × List TreeSignature} (signed : entry.2.2 ≠ []) :
    (toMessageGroup entry.2.1 entry.2.2).size ≤
      ((groupContent entry).map size).sum := by
  obtain ⟨key, template, signatures⟩ := entry
  have same : (groupContent (key, template, signatures)).map size =
      replicate signatures.length (224 + 32 * template.hashes.length) := by
    rw [groupContent, map_map, eq_replicate_iff]
    refine ⟨length_map _, fun size mem => ?_⟩
    obtain ⟨signature, -, rfl⟩ := mem_map.mp mem
    rfl
  obtain ⟨others, count⟩ := Nat.exists_eq_succ_of_ne_zero
    (length_pos_of_ne_nil signed).ne'
  have rest : others * 192 ≤ others * (224 + 32 * template.hashes.length) :=
    Nat.mul_le_mul_left others (by omega)
  rw [same, sum_replicate_nat]
  change 24 + 32 * template.hashes.length + 192 * signatures.length ≤ _
  rw [show signatures.length = others + 1 from count, Nat.add_mul]
  omega

private theorem Grouped.sum_size_le (grouped : Grouped round messages groups) :
    ((groups.entries.map fun entry => toMessageGroup entry.2.1 entry.2.2).map
      FinalizationMessageGroup.size).sum ≤ (messages.map size).sum := by
  rw [← (grouped.content.map size).sum_eq]
  have signed := grouped.signed
  generalize groups.entries = entries at signed ⊢
  induction entries with
  | nil => exact le_rfl
  | cons entry rest ih =>
    have here := size_toMessageGroup_le (signed entry mem_cons_self)
    have tail := ih fun other mem => signed other (mem_cons_of_mem entry mem)
    rw [flatMap_cons, map_append, sum_append, map_cons, map_cons, sum_cons]
    exact Nat.add_le_add here tail

private theorem createFinalizationProof_spec (target : HeightHashPair)
    (can : ∀ message ∈ messages, canGroup round message = true)
    (fits : 56 + (messages.map size).sum < 2 ^ 32) :
    ∃ groups, createFinalizationProof round target messages =
        some ⟨FinalizationProof.currentVersion, round, target.height, target.hash, groups⟩ ∧
      (FinalizationProof.messages
        ⟨FinalizationProof.currentVersion, round, target.height, target.hash, groups⟩).Perm
        messages := by
  have grouped := groupMessages_grouped can
  have size : 56 + ((groupMessages round messages).map FinalizationMessageGroup.size).sum <
      2 ^ 32 := by
    have := grouped.sum_size_le
    rw [groupMessages]
    omega
  refine ⟨groupMessages round messages, if_pos size, ?_⟩
  refine List.Perm.trans (List.Perm.of_eq ?_) grouped.content
  rw [FinalizationProof.messages, groupMessages, flatMap_map]
  refine flatMap_congr fun entry mem => map_congr_left fun signature _ => ?_
  exact createTemplateMessage_eq (grouped.templates entry mem).2 _ signature

section Replay

variable {crypto : MessageCrypto} {ctx : FinalizationContext}
  {agg : RoundMessageAggregator} {accepted : List FinalizationMessage}

private theorem Holds.replay (holds : Holds crypto ctx accepted agg)
    (distinct : ((accepted ++ messages).map key).Nodup)
    (admissible : ∀ message ∈ messages, Admissible crypto ctx message) :
    ∃ after, replay crypto agg messages = .ok (some after) ∧
      Holds crypto ctx (accepted ++ messages) after := by
  induction messages generalizing accepted agg with
  | nil => exact ⟨agg, rfl, by rwa [append_nil]⟩
  | cons message rest ih =>
    have here := admissible message mem_cons_self
    have fresh : ∀ other ∈ accepted, other.key ≠ message.key := by
        simp_all [map_append, nodup_append]
    have next := holds.accept here fresh
    rw [append_cons] at distinct ⊢
    obtain ⟨after, replayed, final⟩ := ih next distinct
      fun other mem => admissible other (mem_cons_of_mem message mem)
    refine ⟨after, ?_, final⟩
    rw [Finalization.replay, holds.add_of_admissible here fresh]
    cases message.isPrevote <;> exact replayed

end Replay

def FinalizationMessage.blocks (message : FinalizationMessage) : List HeightHashPair :=
  blocksFrom message.height.toNat message.hashes

/-- The messages of the round still fit into one response and into one proof, and the chain of a
prevote gives every block that the tree has the parent that it has there. -/
structure Replayable (agg : RoundMessageAggregator) (message : FinalizationMessage) : Prop where
  response : agg.heldSize + message.size ≤
    agg.finalizationContext.config.messageSynchronizationMaxResponseSize
  proof : 56 + (agg.heldSize + message.size) < 2 ^ 32
  chain : message.isPrevote = true → Forest.Agrees agg.roundContext.tree message.blocks

structure Provable (crypto : MessageCrypto) (ctx : FinalizationContext)
    (round : FinalizationRound) (accepted : List FinalizationMessage)
    (agg : RoundMessageAggregator) : Prop where
  holds : Holds crypto ctx accepted agg
  rounds : ∀ message ∈ accepted, message.stepIdentifier.round = round
  response : agg.heldSize ≤ ctx.config.messageSynchronizationMaxResponseSize
  proof : 56 + agg.heldSize < 2 ^ 32
  chains : ∀ blocks ∈ RoundContext.branches (ctx.votesOf accepted),
    Forest.Follows agg.roundContext.tree.parent none blocks

section Provable

variable {crypto : MessageCrypto} {ctx : FinalizationContext}
  {agg : RoundMessageAggregator} {accepted : List FinalizationMessage}

private theorem create_provable (crypto : MessageCrypto) (ctx : FinalizationContext)
    (round : FinalizationRound) :
    Provable crypto ctx round [] (RoundMessageAggregator.create ctx) where
  holds := create_holds crypto ctx
  rounds _ mem := absurd mem not_mem_nil
  response := by
    rw [(create_holds crypto ctx).heldSize_eq]
    exact Nat.zero_le _
  proof := by
    rw [(create_holds crypto ctx).heldSize_eq]
    decide
  chains _ mem := absurd mem not_mem_nil

private theorem branches_voteOf (ctx : FinalizationContext) (message : FinalizationMessage) :
    RoundContext.branches [ctx.voteOf message] =
      if message.isPrevote then [message.blocks] else [] := by
  unfold FinalizationContext.voteOf vote
  split_ifs <;> rfl

private theorem Provable.accept (provable : Provable crypto ctx round accepted agg)
    (admissible : Admissible crypto ctx message)
    (fresh : ∀ other ∈ accepted, other.key ≠ message.key)
    (here : message.stepIdentifier.round = round) (replayable : Replayable agg message) :
    Provable crypto ctx round (accepted ++ [message]) (agg.accept crypto message
        (ctx.lookup message.signature.root.parentPublicKey)) := by
  have holds := provable.holds.accept admissible fresh
  have size := holds.heldSize_eq
  rw [map_append, sum_append, ← provable.holds.heldSize_eq, map_singleton, sum_singleton] at size
  have tree : (agg.roundContext.accept (ctx.voteOf message)).tree =
      (RoundContext.branches [ctx.voteOf message]).foldl Forest.addBranch
        agg.roundContext.tree :=
    RoundContext.acceptAll_tree agg.roundContext [ctx.voteOf message]
  refine ⟨holds, fun other mem => ?_, ?_, ?_, fun blocks mem => ?_⟩
  · obtain mem | rfl := (mem_append.mp mem).imp_right mem_singleton.mp
    · exact provable.rounds other mem
    · exact here
  · rw [size, ← provable.holds.context_eq]
    exact replayable.response
  · rw [size]
    exact replayable.proof
  · change Forest.Follows (agg.roundContext.accept (ctx.voteOf message)).tree.parent
      none blocks
    rw [tree, branches_voteOf]
    rw [FinalizationContext.votesOf, map_append, map_singleton, RoundContext.branches,
      filterMap_append, mem_append] at mem
    -- earlier chains keep the parents of their blocks, and the new one agrees with them
    obtain earlier | new := mem
    · have follows := provable.chains blocks earlier
      split_ifs
      · refine Forest.Follows.addBranch follows fun key inside => ?_
        rw [provable.holds.counted]
        exact (mem_tree_iff _ _).mpr ⟨blocks, earlier, inside⟩
      · exact follows
    · have new' : blocks ∈ RoundContext.branches [ctx.voteOf message] := new
      rw [branches_voteOf] at new'
      split_ifs at new' ⊢ with prevote
      · obtain rfl := mem_singleton.mp new'
        have distinct : message.blocks.Nodup := by
          have few : message.hashes.length ≤ 2 ^ 32 := by have := message.size_lt; omega
          exact (blocksFrom_pairwise message.height.toNat few).imp fun differ same =>
            differ (congrArg HeightHashPair.height same)
        exact (replayable.chain prevote).follows distinct
      · exact absurd new' not_mem_nil

variable {target : HeightHashPair}

section
variable (provable : Provable crypto ctx round accepted agg) (epoch : ctx.epoch = round.epoch.toNat)
  (best : agg.roundContext.tryFindBestPrecommit = some target)
include provable epoch best

private theorem Provable.verifies_of_perm
    {proof : FinalizationProof} (version : proof.version = FinalizationProof.currentVersion)
    (same : proof.round = round) (height : proof.height = target.height)
    (hash : proof.hash = target.hash) (all : proof.messages.Perm accepted) :
    verifyFinalizationProof crypto proof ctx = .ok .success := by
  have holds := provable.holds
  have distinct : (([] ++ proof.messages).map key).Nodup :=
    (all.map key).nodup_iff.mpr holds.distinct
  obtain ⟨after, replayed, final⟩ := (create_holds crypto ctx).replay distinct
    fun message mem => holds.admissible message (all.mem_iff.mp mem)
  have outcome := sameOutcome_of_follows ctx.weight (calculateWeightedThreshold ctx)
    provable.chains (all.map ctx.voteOf) (List.Perm.refl _)
  have found : after.roundContext.tryFindBestPrecommit = some target := by
    rw [← best, final.counted, holds.counted]
    exact outcome.bestPrecommit
  rw [verifyFinalizationProof, if_neg (not_not.mpr version), same,
    if_neg (not_not.mpr epoch.symm), replayed]
  simp [verifyTarget, found, height, hash]

private theorem Provable.verifies (order : MessageOrder) :
    ∃ proof, createFinalizationProof round target (agg.unknownMessages order []) =
        some proof ∧ verifyFinalizationProof crypto proof ctx = .ok .success := by
  have holds := provable.holds
  have perm := holds.unknownMessages_perm order provable.response
  have can : ∀ message ∈ agg.unknownMessages order [], canGroup round message = true := by
    intro message mem
    have inside := perm.mem_iff.mp mem
    obtain ⟨-, -, padding, version⟩ :=
      processMessage_success (holds.admissible message inside).processed
    simp [canGroup, provable.rounds message inside, padding, version]
  have fits := provable.proof
  rw [holds.heldSize_eq, ← (perm.map size).sum_eq] at fits
  obtain ⟨groups, created, content⟩ := createFinalizationProof_spec target can fits
  exact ⟨_, created, provable.verifies_of_perm epoch best rfl rfl rfl rfl (content.trans perm)⟩

end

end Provable

namespace MultiRoundMessageAggregator

variable {crypto : MessageCrypto} {factory : RoundMessageAggregatorFactory}
  {state : MultiRoundMessageAggregator}

def StepReplayable (crypto : MessageCrypto) (factory : RoundMessageAggregatorFactory)
    (state : MultiRoundMessageAggregator) : AggregatorAction → Prop
  | .add message =>
    let agg := state.aggregatorAt factory message.stepIdentifier.round
    ∀ result after, agg.add crypto message = .ok (result, after) →
      result.isSuccess = true → Replayable agg message
  | _ => True

def RunReplayable (crypto : MessageCrypto) (factory : RoundMessageAggregatorFactory) :
    MultiRoundMessageAggregator → List AggregatorAction → Prop
  | _, [] => True
  | state, action :: rest =>
    state.StepReplayable crypto factory action ∧
      RunReplayable crypto factory (state.step crypto factory action) rest

/-- Every aggregator of the state is one from whose messages a proof can be made. -/
def AllProvable (crypto : MessageCrypto) (factory : RoundMessageAggregatorFactory)
    (state : MultiRoundMessageAggregator) : Prop :=
  state.EachRound factory fun ctx round agg =>
    ∃ accepted, Provable crypto ctx round accepted agg

private theorem AllProvable.step (all : state.AllProvable crypto factory)
    {action : AggregatorAction} (replayable : state.StepReplayable crypto factory action) :
    (state.step crypto factory action).AllProvable crypto factory := by
  refine EachRound.step all (fun ctx round => ⟨[], create_provable crypto ctx round⟩)
    action ?_
  rintro message rfl ⟨accepted, provable⟩
  obtain ⟨admissible, fresh, eq⟩ | eq := provable.holds.offer_cases message
  · rw [eq]
    have added := provable.holds.add_of_admissible admissible fresh
    refine ⟨_, provable.accept admissible fresh rfl (replayable _ _ added ?_)⟩
    cases message.isPrevote <;> rfl
  · rw [eq]
    exact ⟨accepted, provable⟩

private theorem AllProvable.run (all : state.AllProvable crypto factory)
    {actions : List AggregatorAction} (replayable : RunReplayable crypto factory state actions) :
    (state.run crypto factory actions).AllProvable crypto factory := by
  induction actions generalizing state with
  | nil => exact all
  | cons action rest ih => exact ih (all.step replayable.1) replayable.2

end MultiRoundMessageAggregator

open MultiRoundMessageAggregator

/-- In every run in which the messages of a round fit into one response and one proof, and every
accepted chain gives known blocks the parents they have, the proof of the best precommit passes the
check, in whatever order the messages are visited. -/
theorem localFinalizationProof_verifies (crypto : MessageCrypto)
    (factory : RoundMessageAggregatorFactory) (first : FinalizationRound)
    (previousFinalized : HeightHashPair) (actions : List AggregatorAction)
    (replayable : RunReplayable crypto factory (create first previousFinalized) actions)
    (order : MessageOrder) (descriptor : BestPrecommitDescriptor)
    (found : ((create first previousFinalized).run crypto factory actions).tryFindBestPrecommit order =
      some descriptor) :
    ∃ proof, createFinalizationProof descriptor.round descriptor.target descriptor.proof =
        some proof ∧
      verifyFinalizationProof crypto proof (factory.context descriptor.round) = .ok .success := by
  have start : (create first previousFinalized).AllProvable crypto factory :=
    fun _ _ found => absurd found (by simp [create])
  obtain ⟨agg, inside, best, eq⟩ := tryFindBestPrecommit_spec found
  obtain ⟨accepted, provable⟩ := start.run replayable _ _ inside
  rw [eq]
  exact provable.verifies (factory.epoch_eq descriptor.round) best order

def exampleCrypto : MessageCrypto := ⟨fun _ _ _ => true, fun _ => 0⟩

def exampleContext (maxResponseSize epoch : ℕ) : FinalizationContext :=
  FinalizationContext.create epoch 1 ⟨1, 1, 15, 5, 4, 10, maxResponseSize, 9, []⟩
    [⟨1, 1, [⟨7, 1, 9⟩]⟩] (by decide) (by change 5 < 2 ^ 64; decide)

def exampleFactory (maxResponseSize : ℕ) : RoundMessageAggregatorFactory :=
  ⟨fun round => exampleContext maxResponseSize round.epoch.toNat, fun _ => rfl⟩

def exampleRound : FinalizationRound := ⟨2, 1⟩

/-- The voter's message of a stage for the block at height one. -/
def exampleMessage (stage : FinalizationStage) : FinalizationMessage :=
  ⟨0, ⟨⟨7, 0⟩, ⟨0, 0⟩⟩, 1, StepIdentifier.create 2 1 stage, 1, [10], by decide⟩

def exampleActions : List AggregatorAction :=
  [.add (exampleMessage .prevote), .add (exampleMessage .precommit)]

def exampleAggregator (maxResponseSize : ℕ) : RoundMessageAggregator :=
  (RoundMessageAggregator.create (exampleContext maxResponseSize 2)).offerAll exampleCrypto
    [exampleMessage .prevote, exampleMessage .precommit]

variable (maxResponseSize : ℕ)

private theorem exampleAdmissible (stage : FinalizationStage) :
    Admissible exampleCrypto (exampleContext maxResponseSize 2) (exampleMessage stage) := by
  cases stage <;> exact ⟨rfl, rfl⟩

private theorem exampleHolds :
    Holds exampleCrypto (exampleContext maxResponseSize 2)
      [exampleMessage .prevote, exampleMessage .precommit]
      (exampleAggregator maxResponseSize) := by
  have first := (create_holds exampleCrypto (exampleContext maxResponseSize 2)).accept
    (exampleAdmissible maxResponseSize .prevote) fun _ mem => absurd mem not_mem_nil
  exact first.accept (exampleAdmissible maxResponseSize .precommit) (by decide)

variable (order : MessageOrder)

private theorem exampleFound {maxResponseSize : ℕ}
    (best : (exampleAggregator maxResponseSize).roundContext.tryFindBestPrecommit = some ⟨1, 10⟩) :
    ((create exampleRound ⟨1, 10⟩).run exampleCrypto (exampleFactory maxResponseSize)
      exampleActions).tryFindBestPrecommit order =
      some ⟨exampleRound, ⟨1, 10⟩,
        (exampleAggregator maxResponseSize).unknownMessages order []⟩ := by
  have entries : ((create exampleRound ⟨1, 10⟩).run exampleCrypto (exampleFactory maxResponseSize)
      exampleActions).roundMessageAggregators.entries =
      [(exampleRound, exampleAggregator maxResponseSize)] := rfl
  rw [tryFindBestPrecommit, entries, reverse_singleton, findSome?_singleton]
  dsimp only
  rw [best]
  rfl

private theorem exampleUnknown :
    ∃ stage, (exampleAggregator 300).unknownMessages order [] = [exampleMessage stage] := by
  have perm := (exampleHolds 300).perm_order order
  unfold RoundMessageAggregator.unknownMessages
  simp only [contains_nil, Bool.not_false, filter_true]
  generalize ((order.order (exampleAggregator 300).messages).map Prod.snd).map
    MessageDescriptor.message = visited at perm ⊢
  obtain ⟨first, second, rfl⟩ := length_eq_two.mp perm.length_eq
  have known : ∀ message ∈ [first, second], ∃ stage, message = exampleMessage stage := by
    intro message mem
    have inside := perm.mem_iff.mp mem
    simp only [mem_cons, not_mem_nil, or_false] at inside
    exact inside.elim (⟨_, ·⟩) (⟨_, ·⟩)
  obtain ⟨stage, rfl⟩ := known first (by simp)
  obtain ⟨other, rfl⟩ := known second (by simp)
  exact ⟨stage, rfl⟩

/-- The two messages of a voter are a quorum, but the proof has one of them only. -/
theorem localFinalizationProof_truncated : ∃ order descriptor proof,
    ((create exampleRound ⟨1, 10⟩).run exampleCrypto (exampleFactory 300)
      exampleActions).tryFindBestPrecommit order = some descriptor ∧
    createFinalizationProof descriptor.round descriptor.target descriptor.proof = some proof ∧
    verifyFinalizationProof exampleCrypto proof ((exampleFactory 300).context descriptor.round) =
      .ok .failureNoPrecommit := by
  have best : (exampleAggregator 300).roundContext.tryFindBestPrecommit = some ⟨1, 10⟩ := by
    decide +kernel
  have found := exampleFound (someEnumeration _ _) best
  obtain ⟨stage, unknown⟩ := exampleUnknown (someEnumeration _ _)
  rw [unknown] at found
  refine ⟨_, _, ⟨1, exampleRound, 1, 10, groupMessages exampleRound [exampleMessage stage]⟩, found,
    ?_, ?_⟩
  · refine if_pos ?_
    cases stage <;> decide +kernel
  · cases stage <;> decide +kernel

private theorem exampleReplayable : RunReplayable exampleCrypto (exampleFactory 600)
    (create exampleRound ⟨1, 10⟩) exampleActions := by
  have start := create_holds exampleCrypto (exampleContext 600 2)
  have next := start.accept (exampleAdmissible 600 .prevote)
    fun _ mem => absurd mem not_mem_nil
  have size : ((create exampleRound ⟨1, 10⟩).aggregatorAt (exampleFactory 600) exampleRound).heldSize =
      0 := start.heldSize_eq
  have size' : (((create exampleRound ⟨1, 10⟩).step exampleCrypto (exampleFactory 600)
      (.add (exampleMessage .prevote))).aggregatorAt (exampleFactory 600) exampleRound).heldSize =
      256 := next.heldSize_eq
  have room {agg : RoundMessageAggregator} (held : agg.heldSize ≤ 256) :
      agg.heldSize + 256 ≤ 600 ∧ 56 + (agg.heldSize + 256) < 2 ^ 32 := by omega
  have first := room (size.trans_le (Nat.zero_le 256))
  have second := room size'.le
  refine ⟨fun _ _ _ _ => ⟨first.1, first.2, fun _ => ?_⟩,
    fun _ _ _ _ => ⟨second.1, second.2, nofun⟩, trivial⟩
  exact ⟨fun inside => absurd inside not_mem_nil, trivial⟩

theorem localFinalizationProof_verifies_pair : ∃ order descriptor proof,
    ((create exampleRound ⟨1, 10⟩).run exampleCrypto (exampleFactory 600)
      exampleActions).tryFindBestPrecommit order = some descriptor ∧
    createFinalizationProof descriptor.round descriptor.target descriptor.proof = some proof ∧
    verifyFinalizationProof exampleCrypto proof ((exampleFactory 600).context descriptor.round) =
      .ok .success := by
  have best : (exampleAggregator 600).roundContext.tryFindBestPrecommit = some ⟨1, 10⟩ := by
    decide +kernel
  have found := exampleFound (someEnumeration _ _) best
  obtain ⟨proof, created, verified⟩ := localFinalizationProof_verifies exampleCrypto
    (exampleFactory 600) exampleRound ⟨1, 10⟩ exampleActions exampleReplayable _ _ found
  exact ⟨_, _, proof, found, created, verified⟩

end BitxorCore.Finalization
