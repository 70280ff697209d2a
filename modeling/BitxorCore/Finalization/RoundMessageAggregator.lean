/- GID: Finalization/RoundMessageAggregator
   anchors: [extensions/finalization/src/chain/RoundMessageAggregator.cpp]
   digest: An aggregator counts every voter once in a stage, so a height has one quorum. -/

import BitxorCore.Finalization.FinalizationMessage
import BitxorCore.Finalization.RoundSafety

set_option autoImplicit false
set_option relaxedAutoImplicit false

namespace BitxorCore.Finalization
open Library Library.FiniteMap Library.Bookkeeping Library.Tally Library.ParentForest Model List
open FinalizationMessage (key vote)

inductive RoundMessageAggregatorAddResult
  | failureInvalidHashes
  | failureInvalidPoint
  | failureInvalidHeight
  | failureProcessing
  | failureConflicting
  | neutralRedundant
  | successPrevote
  | successPrecommit
  deriving DecidableEq, Repr

structure MessageDescriptor where
  message : FinalizationMessage
  hash : Hash256

def createMessageDescriptor (crypto : MessageCrypto) (message : FinalizationMessage) :
    MessageDescriptor :=
  ⟨message, crypto.messageHash message⟩

def MessageDescriptor.shortHash (descriptor : MessageDescriptor) : BitVec 32 :=
  toShortHash descriptor.hash

def calculateWeightedThreshold (ctx : FinalizationContext) : ℕ :=
  ctx.weight * ctx.config.threshold % 2 ^ 64 / ctx.config.size

structure RoundMessageAggregator where
  finalizationContext : FinalizationContext
  roundContext : RoundContext
  messages : Map (VotingKey × Bool) MessageDescriptor

namespace RoundMessageAggregator

def create (ctx : FinalizationContext) : RoundMessageAggregator :=
  ⟨ctx, RoundContext.create ctx.weight (calculateWeightedThreshold ctx), ∅⟩

def lastHashHeight (message : FinalizationMessage) : ℕ :=
  (message.height.toNat + (message.hashesCount - 1)) % 2 ^ 64

/-- The checks of `add` before it looks for an earlier message of the voter. -/
def screen (ctx : FinalizationContext) (message : FinalizationMessage) :
    Except String (Option RoundMessageAggregatorAddResult) :=
  if message.hashesCount = 0 ∨ ctx.config.maxHashesPerPoint < message.hashesCount then
    .ok (some .failureInvalidHashes)
  else if lastHashHeight message < ctx.height then
    .ok (some .failureInvalidHeight)
  else if message.isPrevote then do
    let epoch := message.stepIdentifier.epoch
    let epochMinHeight ← calculateVotingSetEndHeight (epoch - 1) ctx.config.votingSetGrouping
    let epochMaxHeight ← calculateVotingSetEndHeight epoch ctx.config.votingSetGrouping
    if message.height.toNat < epochMinHeight ∨ epochMaxHeight < lastHashHeight message then
      .ok (some .failureInvalidHashes)
    else .ok none
  else if message.hashesCount ≠ 1 then .ok (some .failureInvalidHashes)
  else .ok none

variable (crypto : MessageCrypto) (agg : RoundMessageAggregator)

def accept (message : FinalizationMessage) (weight : ℕ) : RoundMessageAggregator :=
  { agg with
    messages := agg.messages.insert message.key (createMessageDescriptor crypto message)
    roundContext := agg.roundContext.accept (message.vote weight) }

/-- What `add` does with a message that passes its first checks. -/
def addScreened (message : FinalizationMessage) :
    RoundMessageAggregatorAddResult × RoundMessageAggregator :=
  match agg.messages.lookup message.key with
  | some descriptor =>
    (if descriptor.hash = crypto.messageHash message then .neutralRedundant
      else .failureConflicting, agg)
  | none =>
    match processMessage crypto message agg.finalizationContext with
    | (.success, weight) =>
      (if message.isPrevote then .successPrevote else .successPrecommit,
        agg.accept crypto message weight)
    | _ => (.failureProcessing, agg)

def add (message : FinalizationMessage) :
    Except String (RoundMessageAggregatorAddResult × RoundMessageAggregator) :=
  match screen agg.finalizationContext message with
  | .error reason => .error reason
  | .ok (some failure) => .ok (failure, agg)
  | .ok none => .ok (agg.addScreened crypto message)

/-- The aggregator after a message was offered; an exception leaves it as it is. -/
def offer (message : FinalizationMessage) : RoundMessageAggregator :=
  match agg.add crypto message with
  | .error _ => agg
  | .ok (_, after) => after

def offerAll (messages : List FinalizationMessage) : RoundMessageAggregator :=
  messages.foldl (offer crypto) agg

end RoundMessageAggregator

open RoundMessageAggregator

variable {crypto : MessageCrypto} {ctx : FinalizationContext}
  {agg : RoundMessageAggregator} {message : FinalizationMessage}
  {accepted : List FinalizationMessage}

namespace FinalizationContext

/-- The vote of a message with the weight that a context gives it. -/
def voteOf (ctx : FinalizationContext) (message : FinalizationMessage) : Vote :=
  message.vote (ctx.lookup message.signature.root.parentPublicKey)

def castOf (ctx : FinalizationContext) (message : FinalizationMessage) : VotingKey × Vote :=
  (message.signature.root.parentPublicKey, ctx.voteOf message)

def votesOf (ctx : FinalizationContext) (messages : List FinalizationMessage) : List Vote :=
  messages.map ctx.voteOf

end FinalizationContext

/-- A message that an aggregator of the context accepts unless it has one with the same key. -/
structure Admissible (crypto : MessageCrypto) (ctx : FinalizationContext)
    (message : FinalizationMessage) : Prop where
  screened : screen ctx message = .ok none
  processed : processMessage crypto message ctx =
    (.success, ctx.lookup message.signature.root.parentPublicKey)

structure Holds (crypto : MessageCrypto) (ctx : FinalizationContext)
    (accepted : List FinalizationMessage) (agg : RoundMessageAggregator) : Prop where
  context_eq : agg.finalizationContext = ctx
  counted : agg.roundContext =
    (RoundContext.create ctx.weight (calculateWeightedThreshold ctx)).acceptAll
      (ctx.votesOf accepted)
  distinct : (accepted.map key).Nodup
  stored : ∀ key descriptor, agg.messages.lookup key = some descriptor ↔
    ∃ message ∈ accepted, message.key = key ∧ createMessageDescriptor crypto message = descriptor
  admissible : ∀ message ∈ accepted, Admissible crypto ctx message

theorem create_holds (crypto : MessageCrypto) (ctx : FinalizationContext) :
    Holds crypto ctx [] (create ctx) where
  context_eq := rfl
  counted := rfl
  distinct := nodup_nil
  stored key descriptor := by simp [create]
  admissible _ mem := absurd mem not_mem_nil

section
variable (holds : Holds crypto ctx accepted agg)
include holds

private theorem Holds.lookup_eq_none (fresh : ∀ other ∈ accepted, other.key ≠ message.key) :
    agg.messages.lookup message.key = none := by
  rw [Option.eq_none_iff_forall_ne_some]
  intro descriptor found
  obtain ⟨other, mem, same, -⟩ := (holds.stored _ _).mp found
  exact fresh other mem same

section
variable (admissible : Admissible crypto ctx message)
  (fresh : ∀ other ∈ accepted, other.key ≠ message.key)
include admissible fresh

theorem Holds.accept : Holds crypto ctx (accepted ++ [message]) (agg.accept crypto message
        (ctx.lookup message.signature.root.parentPublicKey)) where
  context_eq := holds.context_eq
  counted := by
    rw [FinalizationContext.votesOf, map_append, RoundContext.acceptAll, foldl_append]
    exact congrArg (RoundContext.accept · (ctx.voteOf message)) holds.counted
  distinct := by
    rw [map_append, nodup_append]
    refine ⟨holds.distinct, nodup_singleton _, ?_⟩
    intro key mem other single
    obtain ⟨earlier, inside, rfl⟩ := mem_map.mp mem
    rw [map_singleton, mem_singleton] at single
    rw [single]
    exact fresh earlier inside
  stored key descriptor := by
    change (agg.messages.insert message.key _).lookup key = _ ↔ _
    rw [lookup_insert_apply]
    split_ifs with here
    · constructor
      · rintro ⟨⟩
        exact ⟨message, by simp, here.symm, rfl⟩
      · rintro ⟨other, mem, same, rfl⟩
        obtain mem | rfl := (mem_append.mp mem).imp_right mem_singleton.mp
        · exact absurd (same.trans here) (fresh other mem)
        · rfl
    · rw [holds.stored]
      refine exists_congr fun other => and_congr_left fun same => ?_
      rw [mem_append, mem_singleton]
      refine ⟨.inl, fun mem => mem.resolve_right ?_⟩
      rintro rfl
      exact here same.1.symm
  admissible other mem := by
    obtain mem | rfl := (mem_append.mp mem).imp_right mem_singleton.mp
    · exact holds.admissible other mem
    · exact admissible

theorem Holds.add_of_admissible :
    agg.add crypto message = .ok (if message.isPrevote then .successPrevote else .successPrecommit,
        agg.accept crypto message
          (ctx.lookup message.signature.root.parentPublicKey)) := by
  rw [add, holds.context_eq, admissible.screened]
  rw [addScreened, holds.lookup_eq_none fresh, holds.context_eq, admissible.processed]

end

theorem Holds.offer_cases (message : FinalizationMessage) :
    (Admissible crypto ctx message ∧ (∀ other ∈ accepted, other.key ≠ message.key) ∧
      agg.offer crypto message = agg.accept crypto message
        (ctx.lookup message.signature.root.parentPublicKey)) ∨
    agg.offer crypto message = agg := by
  by_cases taken : Admissible crypto ctx message ∧ ∀ other ∈ accepted, other.key ≠ message.key
  · simp_all [offer, holds.add_of_admissible]
  · right
    rw [offer, add, holds.context_eq]
    cases screened : screen ctx message with
    | error reason => rfl
    | ok failure =>
      cases failure with
      | some failure => rfl
      | none =>
        rw [addScreened]
        cases found : agg.messages.lookup message.key with
        | some descriptor => rfl
        | none =>
          have fresh : ∀ other ∈ accepted, other.key ≠ message.key := by
            intro other mem same
            rw [(holds.stored _ _).mpr ⟨other, mem, same, rfl⟩] at found
            exact Option.some_ne_none _ found
          rw [holds.context_eq]
          cases processed : processMessage crypto message ctx with
          | mk result weight =>
            cases result with
            | success =>
              obtain ⟨rfl, -⟩ := processMessage_success processed
              exact absurd ⟨⟨screened, processed⟩, fresh⟩ taken
            | _ => rfl

theorem Holds.offerAll (messages : List FinalizationMessage) : ∃ more, more.Sublist messages ∧
      Holds crypto ctx (accepted ++ more) (agg.offerAll crypto messages) := by
  induction messages generalizing accepted agg with
  | nil => exact ⟨[], List.Sublist.slnil, by rwa [append_nil]⟩
  | cons message rest ih =>
    obtain ⟨admissible, fresh, eq⟩ | eq := holds.offer_cases message
    · have next := holds.accept admissible fresh
      rw [← eq] at next
      obtain ⟨more, sublist, after⟩ := ih next
      refine ⟨message :: more, sublist.cons_cons message, ?_⟩
      rw [append_assoc] at after
      exact after
    · obtain ⟨more, sublist, after⟩ := ih holds
      refine ⟨more, sublist.cons message, ?_⟩
      rw [RoundMessageAggregator.offerAll, foldl_cons, eq]
      exact after

end

theorem isPrevote_vote (message : FinalizationMessage) (weight : ℕ) :
    (message.vote weight).IsPrevote ↔ message.isPrevote = true := by
  unfold vote
  split_ifs with prevote
  · exact ⟨fun _ => prevote, fun _ => trivial⟩
  · exact ⟨False.elim, fun is => absurd is prevote⟩

private theorem weight_vote (message : FinalizationMessage) (weight : ℕ) :
    (message.vote weight).weight = weight := by
  unfold vote
  split_ifs <;> rfl

private theorem blocks_of_vote {prevote : Prevote} {weight : ℕ}
    (same : message.vote weight = .prevote prevote) : prevote.hashes = message.hashes := by
  unfold vote at same
  split_ifs at same
  obtain rfl := Vote.prevote.inj same
  rfl

private theorem mem_keys_of_lookup {key : VotingKey} (pos : ctx.lookup key ≠ 0) :
    key ∈ ctx.accounts.keys := by
  rw [Finmap.mem_keys]
  by_contra absent
  rw [FinalizationContext.lookup, share, Finmap.lookup_eq_none.mpr absent] at pos
  exact pos rfl

private theorem nodup_voters (distinct : (accepted.map key).Nodup)
    (p : Vote → Prop) [DecidablePred p] (stage : Bool)
    (decided : ∀ message, p (ctx.voteOf message) → message.isPrevote = stage) :
    (((accepted.map ctx.castOf).filter fun cast => p cast.2).map Prod.fst).Nodup := by
  rw [List.Nodup, pairwise_map] at distinct ⊢
  rw [pairwise_filter, pairwise_map]
  refine distinct.imp fun {first second} differ firstIn secondIn same => differ ?_
  rw [decide_eq_true_iff] at firstIn secondIn
  exact Prod.ext same ((decided first firstIn).trans (decided second secondIn).symm)

theorem Holds.fromVoters (holds : Holds crypto ctx accepted agg) :
    FromVoters ctx.lookup ctx.accounts.keys (accepted.map ctx.castOf) where
  registered cast mem := by
    obtain ⟨message, inside, rfl⟩ := mem_map.mp mem
    have processed := (holds.admissible message inside).processed
    exact mem_keys_of_lookup (processMessage_success processed).2.1
  ownWeight cast mem := by
    obtain ⟨message, -, rfl⟩ := mem_map.mp mem
    exact weight_vote message _
  prevoteOnce := nodup_voters holds.distinct Vote.IsPrevote true
    fun message => (isPrevote_vote message _).mp
  precommitOnce := nodup_voters holds.distinct (fun vote => ¬vote.IsPrevote) false
    fun message other => Bool.eq_false_iff.mpr fun is => other ((isPrevote_vote message _).mpr is)

theorem votesOf_eq (ctx : FinalizationContext) (messages : List FinalizationMessage) :
    ctx.votesOf messages = (messages.map ctx.castOf).map Prod.snd := by
  rw [map_map]
  rfl

theorem Holds.withinTotal (holds : Holds crypto ctx accepted agg) :
    WithinTotal ctx.weight (ctx.votesOf accepted) := by
  rw [votesOf_eq]
  exact holds.fromVoters.withinTotal ctx.weight_lt ctx.accounts_le

theorem Holds.sound (holds : Holds crypto ctx accepted agg) :
    RoundContext.Sound (ctx.votesOf accepted) agg.roundContext := by
  rw [holds.counted]
  exact RoundContext.acceptAll_sound _ _ _

def NextHeight (above below : HeightHashPair) : Prop := below.height = (above.height + 1) % 2 ^ 64

private theorem blocksFrom_isChain (height : ℕ) (hashes : List Hash256) :
    (blocksFrom height hashes).IsChain NextHeight := by
  induction hashes generalizing height with
  | nil => exact List.IsChain.nil
  | cons hash rest ih =>
    refine isChain_cons.mpr ⟨fun next found => ?_, ih (height + 1)⟩
    cases rest with
    | nil => exact absurd found nofun
    | cons other rest =>
      obtain rfl := Option.some.inj found
      exact (Nat.mod_add_mod height (2 ^ 64) 1).symm

variable {path : List HeightHashPair}

private theorem height_of_mem {top above : HeightHashPair}
    (chain : (top :: path).IsChain fun below above => NextHeight above below) (mem : above ∈ path) :
    ∃ distance, 0 < distance ∧ distance ≤ path.length ∧
      top.height = (above.height + distance) % 2 ^ 64 := by
  induction path generalizing top with
  | nil => exact absurd mem not_mem_nil
  | cons next rest ih =>
    obtain ⟨here, chain⟩ := isChain_cons_cons.mp chain
    rw [length_cons]
    obtain rfl | mem := mem_cons.mp mem
    · exact ⟨1, Nat.one_pos, by omega, here⟩
    · obtain ⟨distance, pos, bounded, eq⟩ := ih chain mem
      refine ⟨distance + 1, by omega, by omega, ?_⟩
      rw [here, eq, Nat.mod_add_mod, Nat.add_assoc]

private theorem eq_of_height_eq {first second : HeightHashPair}
    (chain : path.IsChain fun below above => NextHeight above below)
    (short : path.length ≤ 2 ^ 64) (firstIn : first ∈ path) (secondIn : second ∈ path)
    (same : first.height = second.height) : first = second := by
  induction path with
  | nil => exact absurd firstIn not_mem_nil
  | cons top rest ih =>
    rw [length_cons] at short
    rw [mem_cons] at firstIn secondIn
    obtain rfl | firstLater := firstIn
    · obtain rfl | secondLater := secondIn
      · rfl
      · obtain ⟨distance, pos, bounded, eq⟩ := height_of_mem chain secondLater
        omega
    · obtain rfl | secondLater := secondIn
      · obtain ⟨distance, pos, bounded, eq⟩ := height_of_mem chain firstLater
        omega
      · exact ih (isChain_cons.mp chain).2 (by omega) firstLater secondLater

variable {chains : List (List HeightHashPair)} {tree : FinalizationHashTree}

private theorem foldl_addBranch_steps
    (steps : Forest.Steps NextHeight tree) (linked : ∀ blocks ∈ chains, blocks.IsChain NextHeight) :
    Forest.Steps NextHeight (chains.foldl Forest.addBranch tree) := by
  induction chains generalizing tree with
  | nil => exact steps
  | cons blocks rest ih =>
    exact ih (steps.addBranch (linked blocks mem_cons_self))
      fun other mem => linked other (mem_cons_of_mem _ mem)

private theorem size_foldl_addBranch_le
    {longest : ℕ} (bounded : ∀ blocks ∈ chains, blocks.length ≤ longest) :
    (chains.foldl Forest.addBranch tree).size ≤ tree.size + chains.length * longest := by
  induction chains generalizing tree with
  | nil => simp
  | cons blocks rest ih =>
    have here := bounded blocks mem_cons_self
    have grown := Forest.size_addBranch_le tree blocks
    have tail : (rest.foldl Forest.addBranch (Forest.addBranch tree blocks)).size ≤ _ :=
      ih fun other mem => bounded other (mem_cons_of_mem _ mem)
    rw [foldl_cons, length_cons, Nat.add_mul]
    omega

private theorem screen_spec (screened : screen ctx message = .ok none) :
    message.hashesCount ≠ 0 ∧ message.hashesCount ≤ ctx.config.maxHashesPerPoint ∧
      (message.isPrevote = false → message.hashesCount = 1) := by
  unfold screen at screened
  by_cases counts : message.hashesCount = 0 ∨ ctx.config.maxHashesPerPoint < message.hashesCount
  · rw [if_pos counts] at screened
    exact absurd screened (by simp)
  · rw [if_neg counts] at screened
    rw [not_or, not_lt] at counts
    refine ⟨counts.1, counts.2, fun precommit => ?_⟩
    by_contra several
    simp only [precommit, Bool.false_eq_true, if_false, if_pos several] at screened
    split_ifs at screened <;> simp at screened

private theorem length_branches {V : Type} (casts : List (V × Vote)) :
    (RoundContext.branches (casts.map Prod.snd)).length =
      ((casts.filter fun cast => cast.2.IsPrevote).map Prod.fst).length := by
  induction casts with
  | nil => rfl
  | cons cast rest ih =>
    obtain ⟨voter, vote⟩ := cast
    rw [filter_cons]
    cases vote with
    | prevote _ => exact congrArg Nat.succ ih
    | precommit _ => exact ih

private theorem FromVoters.length_branches_le {V : Type} [DecidableEq V] {weight : V → ℕ}
    {voters : Finset V} {casts : List (V × Vote)} (fromVoters : FromVoters weight voters casts) :
    (RoundContext.branches (casts.map Prod.snd)).length ≤ voters.card := by
  rw [length_branches, ← toFinset_card_of_nodup fromVoters.prevoteOnce]
  refine Finset.card_le_card fun voter mem => ?_
  obtain ⟨cast, inside, rfl⟩ := mem_map.mp (mem_toFinset.mp mem)
  exact fromVoters.registered cast (mem_of_mem_filter inside)

section
variable (holds : Holds crypto ctx accepted agg)
include holds

private theorem Holds.length_blocks_le
    {blocks : List HeightHashPair} (mem : blocks ∈ RoundContext.branches (ctx.votesOf accepted)) :
    blocks.length ≤ ctx.config.maxHashesPerPoint := by
  obtain ⟨prevote, inside, rfl⟩ := exists_prevote_of_mem_branches mem
  obtain ⟨message, sent, same⟩ := mem_map.mp inside
  rw [Prevote.blocks, length_blocksFrom, blocks_of_vote same]
  exact (screen_spec (holds.admissible message sent).screened).2.1

private theorem Holds.tree_eq : agg.roundContext.tree =
      (RoundContext.branches (ctx.votesOf accepted)).foldl Forest.addBranch Forest.empty := by
  rw [holds.counted, RoundContext.acceptAll_tree]
  rfl

private theorem Holds.size_tree_lt : agg.roundContext.tree.size < 2 ^ 64 := by
  have chains := holds.fromVoters.length_branches_le
  rw [← votesOf_eq] at chains
  have bounded : ((RoundContext.branches (ctx.votesOf accepted)).foldl Forest.addBranch
      (Forest.empty : FinalizationHashTree)).size ≤ 0 + _ :=
    size_foldl_addBranch_le fun blocks mem => holds.length_blocks_le mem
  rw [holds.tree_eq]
  refine lt_of_le_of_lt (bounded.trans ?_) ctx.blocks_fit
  rw [Nat.zero_add]
  exact Nat.mul_le_mul_right _ chains

private theorem Holds.eq_of_mem_path
    {block first second : HeightHashPair} (firstIn : first ∈ agg.roundContext.tree.path block)
    (secondIn : second ∈ agg.roundContext.tree.path block)
    (same : first.height = second.height) : first = second := by
  have steps : Forest.Steps NextHeight agg.roundContext.tree := by
    rw [holds.tree_eq]
    refine foldl_addBranch_steps Forest.steps_empty fun blocks mem => ?_
    obtain ⟨prevote, -, rfl⟩ := exists_prevote_of_mem_branches mem
    exact blocksFrom_isChain _ _
  have short := (Forest.length_path_le_size agg.roundContext.tree block).trans
    holds.size_tree_lt.le
  exact eq_of_height_eq (steps.path block) short firstIn secondIn same

end

def Vote.committed? : Vote → Option HeightHashPair
  | .prevote _ => none
  | .precommit vote => some vote.block

section Quorum

variable (holds : Holds crypto ctx accepted agg)
include holds

private theorem Holds.cumulative_add_pending_le : agg.roundContext.cumulativePrecommitWeight +
      total id agg.roundContext.pendingPrecommitWeights ≤ ctx.weight := by
  have within := holds.withinTotal
  have sound := holds.sound
  generalize agg.roundContext = round at sound ⊢
  generalize ctx.votesOf accepted = votes at within sound
  have parked : total id round.pendingPrecommitWeights ≤
      precommitWeight votes (fun block => ¬round.Known block) := by
    refine le_trans (Finset.sum_le_sum fun key _ => ?_)
      (sum_tally_le Vote.committed? round.pendingPrecommitWeights.keys)
    have eq : share id round.pendingPrecommitWeights key = round.pendingWeight key := by
      rw [share, RoundContext.pendingWeight]
      cases round.pendingPrecommitWeights.lookup key <;> rfl
    rw [eq, sound.counted.pending key]
    refine (Nat.mod_le _ _).trans (tally_mono fun vote _ => ?_)
    cases vote with
    | prevote _ => exact False.elim
    | precommit vote => exact fun both => ⟨both.2, congrArg some both.1⟩
  have split : precommitWeight votes (fun _ => True) =
      precommitWeight votes round.Known + precommitWeight votes (fun block =>
        ¬round.Known block) :=
    RoundContext.precommitWeight_or (fun block => by tauto) (by tauto)
  rw [cumulative_eq within sound]
  exact (Nat.add_le_add_left parked _).trans (split ▸ within.precommits)

variable {first second : HeightHashPair} {quorum : ℕ}

private theorem Holds.prevote_unique (majority : ctx.weight < 2 * quorum)
    (firstQuorum : quorum ≤ (agg.roundContext.weights first).prevote)
    (secondQuorum : quorum ≤ (agg.roundContext.weights second).prevote)
    (same : first.height = second.height) : first = second := by
  have within := holds.withinTotal
  rw [prevote_eq within holds.sound] at firstQuorum secondQuorum
  obtain ⟨vote, inside, votedFirst, votedSecond⟩ := exists_common within.prevotes
    (fun vote _ either => by
      cases vote with
      | prevote _ => trivial
      | precommit _ => exact either.elim id id) majority firstQuorum secondQuorum
  cases vote with
  | precommit _ => exact votedFirst.elim
  | prevote prevote =>
    have distinct : (prevote.blocks.map HeightHashPair.height).Nodup :=
      pairwise_map.mpr (blocksFrom_pairwise prevote.height prevote.count_le)
    exact inj_on_of_nodup_map distinct votedFirst votedSecond same

private theorem Holds.precommit_unique (majority : ctx.weight < 2 * quorum)
    (firstQuorum : quorum ≤ (agg.roundContext.weights first).precommit)
    (secondQuorum : quorum ≤ (agg.roundContext.weights second).precommit)
    (same : first.height = second.height) : first = second := by
  have within := holds.withinTotal
  rw [precommit_eq within holds.sound] at firstQuorum secondQuorum
  obtain ⟨vote, inside, votedFirst, votedSecond⟩ := exists_common within.precommits
    (fun vote _ either => by
      cases vote with
      | prevote _ => exact either.elim id id
      | precommit _ => trivial) majority firstQuorum secondQuorum
  cases vote with
  | prevote _ => exact votedFirst.elim
  | precommit precommit => exact holds.eq_of_mem_path votedFirst.2 votedSecond.2 same

end Quorum

/-- Quorum uniqueness: whatever messages are offered, an aggregator counts at most one vote of a
voter in a stage, never more than the weight of all voters, and at most one block of a height has a
quorum of prevotes and at most one has a quorum of precommits. -/
theorem roundMessageAggregator_quorumUnique (crypto : MessageCrypto)
    (ctx : FinalizationContext) (messages : List FinalizationMessage) :
    let round := ((RoundMessageAggregator.create ctx).offerAll crypto messages).roundContext
    (∃ accepted, accepted.Sublist messages ∧
      FromVoters ctx.lookup ctx.accounts.keys (accepted.map ctx.castOf) ∧
      round = (RoundContext.create ctx.weight
        (calculateWeightedThreshold ctx)).acceptAll (ctx.votesOf accepted)) ∧
    round.cumulativePrecommitWeight + total id round.pendingPrecommitWeights ≤ ctx.weight ∧
    sub64 round.totalWeight round.cumulativePrecommitWeight =
      round.totalWeight - round.cumulativePrecommitWeight ∧
    (round.totalWeight < 2 * round.threshold → ∀ height, ∀ first second : Hash256,
      (round.threshold ≤ (round.weights ⟨height, first⟩).prevote →
        round.threshold ≤ (round.weights ⟨height, second⟩).prevote → first = second) ∧
      (round.threshold ≤ (round.weights ⟨height, first⟩).precommit →
        round.threshold ≤ (round.weights ⟨height, second⟩).precommit → first = second)) := by
  obtain ⟨accepted, sublist, holds⟩ := (create_holds crypto ctx).offerAll messages
  rw [nil_append] at holds
  have limits := RoundContext.acceptAll_limits
    (RoundContext.create ctx.weight (calculateWeightedThreshold ctx))
    (ctx.votesOf accepted)
  rw [← holds.counted] at limits
  have weights := holds.cumulative_add_pending_le
  have fits := ctx.weight_lt
  refine ⟨⟨accepted, sublist, holds.fromVoters, holds.counted⟩, weights, ?_, ?_⟩
  · have totalWeight : _ = ctx.weight := limits.1
    rw [sub64, totalWeight]
    omega
  · intro majority height first second
    have totalWeight : _ = ctx.weight := limits.1
    rw [totalWeight] at majority
    refine ⟨fun one two => ?_, fun one two => ?_⟩
    · exact congrArg HeightHashPair.hash (holds.prevote_unique majority one two rfl)
    · exact congrArg HeightHashPair.hash (holds.precommit_unique majority one two rfl)

end BitxorCore.Finalization
