/- GID: Finalization/MultiRoundMessageAggregator
   anchors: [extensions/finalization/src/chain/MultiRoundMessageAggregator.cpp]
   digest: Messages are routed to the aggregators of their rounds; the best precommit is read back. -/

import BitxorCore.Finalization.RoundMessageAggregator

set_option autoImplicit false
set_option relaxedAutoImplicit false

namespace BitxorCore.Finalization
open Library Library.FiniteMap Library.Bookkeeping Library.ParentForest Model List
open FinalizationMessage (key size)

namespace FinalizationRound

private def toLexRound (round : FinalizationRound) : ℕ ×ₗ ℕ :=
  toLex (round.epoch.toNat, round.point.toNat)

private theorem toLexRound_injective : Function.Injective toLexRound := by
  rintro ⟨epoch, point⟩ ⟨epoch', point'⟩ same
  have parts := Prod.mk.inj (toLex.injective same)
  simpa [BitVec.toNat_inj] using parts

instance : LinearOrder FinalizationRound := LinearOrder.lift' toLexRound toLexRound_injective

end FinalizationRound

def takeWithin (maxSize : ℕ) : ℕ → List FinalizationMessage → List FinalizationMessage
  | _, [] => []
  | totalSize, msg :: rest =>
    let totalSize := (totalSize + msg.size) % 2 ^ 64
    if maxSize < totalSize then [] else msg :: takeWithin maxSize totalSize rest

abbrev MessageOrder := Enumeration (VotingKey × Bool) MessageDescriptor

def RoundMessageAggregator.unknownMessages (order : MessageOrder)
    (knownShortHashes : List (BitVec 32)) (agg : RoundMessageAggregator) :
    List FinalizationMessage :=
  let descriptors := (order.order agg.messages).map Prod.snd
  takeWithin agg.finalizationContext.config.messageSynchronizationMaxResponseSize 0
    ((descriptors.filter fun descriptor => !knownShortHashes.contains descriptor.shortHash).map
      MessageDescriptor.message)

private theorem takeWithin_eq_self {maxSize totalSize : ℕ} {messages : List FinalizationMessage}
    (fits : totalSize + (messages.map size).sum ≤ maxSize) :
    takeWithin maxSize totalSize messages = messages := by
  induction messages generalizing totalSize with
  | nil => rfl
  | cons msg rest ih =>
    rw [map_cons, sum_cons] at fits
    have reduced := Nat.mod_le (totalSize + msg.size) (2 ^ 64)
    rw [takeWithin, if_neg (by omega), ih (by omega)]

section Held

variable {crypto : MessageCrypto} {context : FinalizationContext}
  {agg : RoundMessageAggregator} {accepted : List FinalizationMessage}

def RoundMessageAggregator.heldSize (agg : RoundMessageAggregator) : ℕ :=
  total (fun descriptor => descriptor.message.size) agg.messages

section
variable (holds : Holds crypto context accepted agg)
include holds

theorem Holds.heldSize_eq : agg.heldSize = (accepted.map size).sum := by
  have keys : agg.messages.keys = (accepted.map key).toFinset := by
    ext key
    rw [Finmap.mem_keys, Finmap.mem_iff, mem_toFinset, mem_map]
    simp only [holds.stored]
    exact ⟨fun ⟨_, msg, mem, same, _⟩ => ⟨msg, mem, same⟩,
      fun ⟨msg, mem, same⟩ => ⟨_, msg, mem, same, rfl⟩⟩
  rw [RoundMessageAggregator.heldSize, total, keys, sum_toFinset _ holds.distinct, map_map]
  refine congrArg sum (map_congr_left fun msg mem => ?_)
  have found := (holds.stored msg.key _).mpr ⟨msg, mem, rfl, rfl⟩
  rw [Function.comp_apply, share, found]
  rfl

variable (order : MessageOrder)

theorem Holds.perm_order :
    (((order.order agg.messages).map Prod.snd).map MessageDescriptor.message).Perm
      accepted := by
  have distinct : ((accepted.map fun msg =>
      (msg.key, createMessageDescriptor crypto msg)).map Prod.fst).Nodup := by
    rw [map_map]
    exact holds.distinct
  have perm := order.perm_order (m := agg.messages) distinct fun key descriptor => by
    rw [holds.stored, mem_map]
    simp only [Prod.mk.injEq]
  have messages := (perm.map Prod.snd).map MessageDescriptor.message
  rw [map_map, map_map] at messages
  exact messages.symm.trans (List.Perm.of_eq (map_id accepted))

theorem Holds.unknownMessages_perm
    (fits : agg.heldSize ≤ context.config.messageSynchronizationMaxResponseSize) :
    (agg.unknownMessages order []).Perm accepted := by
  have perm := holds.perm_order order
  have size : 0 + ((((order.order agg.messages).map Prod.snd).map
      MessageDescriptor.message).map size).sum ≤
      agg.finalizationContext.config.messageSynchronizationMaxResponseSize := by
    rw [Nat.zero_add, (perm.map size).sum_eq, ← holds.heldSize_eq,
      holds.context_eq]
    exact fits
  unfold RoundMessageAggregator.unknownMessages
  simp only [contains_nil, Bool.not_false, filter_true]
  rw [takeWithin_eq_self size]
  exact perm

end

end Held

structure RoundMessageAggregatorFactory where
  context : FinalizationRound → FinalizationContext
  epoch_eq : ∀ round, (context round).epoch = round.epoch.toNat

structure MultiRoundMessageAggregator where
  minFinalizationRound : FinalizationRound
  maxFinalizationRound : FinalizationRound
  previousFinalizedHeightHashPair : HeightHashPair
  roundMessageAggregators : OrderedMap FinalizationRound RoundMessageAggregator

structure BestPrecommitDescriptor where
  round : FinalizationRound
  target : HeightHashPair
  proof : List FinalizationMessage

inductive AggregatorAction
  | setMaxFinalizationRound (round : FinalizationRound)
  | add (msg : FinalizationMessage)
  | prune (epoch : BitVec 32)

namespace MultiRoundMessageAggregator

def create (round : FinalizationRound) (previousFinalized : HeightHashPair) :
    MultiRoundMessageAggregator :=
  ⟨round, round, previousFinalized, OrderedMap.empty⟩

variable (crypto : MessageCrypto) (factory : RoundMessageAggregatorFactory)
  (state : MultiRoundMessageAggregator)

def tryGetRoundContext (round : FinalizationRound) : Option RoundContext :=
  (state.roundMessageAggregators.lookup round).map RoundMessageAggregator.roundContext

/-- The estimate of the latest round up to a round that has one. -/
def findEstimate (round : FinalizationRound) : HeightHashPair :=
  (state.roundMessageAggregators.entries.reverse.findSome? fun entry =>
    if round < entry.1 then none else entry.2.roundContext.tryFindEstimate).getD
    state.previousFinalizedHeightHashPair

def tryFindBestPrecommit (order : MessageOrder) : Option BestPrecommitDescriptor :=
  state.roundMessageAggregators.entries.reverse.findSome? fun (round, agg) =>
    agg.roundContext.tryFindBestPrecommit.map fun target =>
      ⟨round, target, agg.unknownMessages order []⟩

def setMaxFinalizationRound (round : FinalizationRound) :
    Except String MultiRoundMessageAggregator :=
  if round < state.minFinalizationRound then .error "cannot set max finalization round below min"
  else .ok { state with maxFinalizationRound := round }

/-- The aggregator of a round; a missing one is created. -/
def aggregatorAt (round : FinalizationRound) : RoundMessageAggregator :=
  (state.roundMessageAggregators.lookup round).getD
    (RoundMessageAggregator.create (factory.context round))

/-- The result of `add` and the state after it, also when the aggregator throws. -/
def add (msg : FinalizationMessage) :
    Except String RoundMessageAggregatorAddResult × MultiRoundMessageAggregator :=
  let round := msg.stepIdentifier.round
  if round < state.minFinalizationRound ∨ state.maxFinalizationRound < round then
    (.ok .failureInvalidPoint, state)
  else
    let agg := state.aggregatorAt factory round
    ((agg.add crypto msg).map Prod.fst,
      { state with
        roundMessageAggregators :=
          state.roundMessageAggregators.insert round (agg.offer crypto msg) })

def prune (epoch : BitVec 32) : MultiRoundMessageAggregator :=
  let kept := state.roundMessageAggregators.filterKeys fun round =>
    decide (FinalizationRound.mk epoch 0 ≤ round)
  { state with
    roundMessageAggregators := kept
    minFinalizationRound := match kept.entries with
      | [] => state.maxFinalizationRound
      | (round, _) :: _ => round }

/-- The state after an action; an exception changes nothing else. -/
def step (crypto : MessageCrypto) (factory : RoundMessageAggregatorFactory)
    (state : MultiRoundMessageAggregator) : AggregatorAction → MultiRoundMessageAggregator
  | .setMaxFinalizationRound round =>
    match state.setMaxFinalizationRound round with
    | .error _ => state
    | .ok after => after
  | .add msg => (state.add crypto factory msg).2
  | .prune epoch => state.prune epoch

def run (crypto : MessageCrypto) (factory : RoundMessageAggregatorFactory)
    (state : MultiRoundMessageAggregator) (actions : List AggregatorAction) :
    MultiRoundMessageAggregator :=
  actions.foldl (step crypto factory) state

variable {crypto : MessageCrypto} {factory : RoundMessageAggregatorFactory}
  {state : MultiRoundMessageAggregator} {round : FinalizationRound}

/-- Every aggregator is the one of its round, and what it went through has a property. -/
def EachRound (factory : RoundMessageAggregatorFactory)
    (p : FinalizationContext → FinalizationRound → RoundMessageAggregator → Prop)
    (state : MultiRoundMessageAggregator) : Prop :=
  ∀ round agg, state.roundMessageAggregators.lookup round = some agg →
    p (factory.context round) round agg

variable {p : FinalizationContext → FinalizationRound → RoundMessageAggregator → Prop}

section
variable (each : EachRound factory p state)
  (fresh : ∀ context round, p context round (RoundMessageAggregator.create context))
include each fresh

private theorem EachRound.aggregatorAt (round : FinalizationRound) :
    p (factory.context round) round (state.aggregatorAt factory round) := by
  unfold MultiRoundMessageAggregator.aggregatorAt
  cases found : state.roundMessageAggregators.lookup round with
  | none => exact fresh _ round
  | some agg => exact each round agg found

theorem EachRound.step (action : AggregatorAction) (offered : ∀ msg, action = .add msg →
      p (factory.context msg.stepIdentifier.round) msg.stepIdentifier.round
        (state.aggregatorAt factory msg.stepIdentifier.round) →
      p (factory.context msg.stepIdentifier.round) msg.stepIdentifier.round
        ((state.aggregatorAt factory msg.stepIdentifier.round).offer crypto msg)) :
    EachRound factory p (state.step crypto factory action) := by
  cases action with
  | setMaxFinalizationRound round =>
    change EachRound factory p (match state.setMaxFinalizationRound round with
      | .error _ => state
      | .ok after => after)
    unfold MultiRoundMessageAggregator.setMaxFinalizationRound
    split_ifs
    · exact each
    · exact each
  | prune epoch =>
    intro round agg found
    change (state.roundMessageAggregators.filterKeys _).lookup round = _ at found
    rw [OrderedMap.lookup_filterKeys] at found
    split_ifs at found
    exact each round agg found
  | add msg =>
    change EachRound factory p (state.add crypto factory msg).2
    unfold MultiRoundMessageAggregator.add
    dsimp only
    split_ifs
    · exact each
    · intro round agg found
      rw [OrderedMap.lookup_insert] at found
      split_ifs at found with here
      · obtain rfl := Option.some.inj found
        subst here
        exact offered msg rfl (each.aggregatorAt fresh _)
      · exact each round agg found

end

theorem tryFindBestPrecommit_spec {order : MessageOrder} {descriptor : BestPrecommitDescriptor}
    (found : state.tryFindBestPrecommit order = some descriptor) :
    ∃ agg, state.roundMessageAggregators.lookup descriptor.round = some agg ∧
      agg.roundContext.tryFindBestPrecommit = some descriptor.target ∧
      descriptor.proof = agg.unknownMessages order [] := by
  obtain ⟨⟨round, agg⟩, mem, best⟩ := exists_of_findSome?_eq_some found
  obtain ⟨target, here, rfl⟩ := Option.map_eq_some_iff.mp best
  exact ⟨agg, OrderedMap.lookup_eq_some_iff.mpr (mem_reverse.mp mem), here, rfl⟩

end MultiRoundMessageAggregator

end BitxorCore.Finalization
