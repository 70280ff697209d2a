/- GID: Finalization/RoundTally
   anchors: [extensions/finalization]
   digest: What a round context counts is the tally of the votes it accepted. -/

import BitxorCore.Library.FiniteMap
import BitxorCore.Library.OrderedMap
import BitxorCore.Library.ParentForest
import BitxorCore.Library.Tally
import BitxorCore.Types

set_option autoImplicit false
set_option relaxedAutoImplicit false

namespace BitxorCore.Finalization
open Library Library.FiniteMap Model

abbrev FinalizationHashTree := ParentForest.Forest HeightHashPair

/-- The blocks that hashes name from a height on; heights have 64 bits. -/
def blocksFrom (height : ℕ) : List Hash256 → List HeightHashPair
  | [] => []
  | hash :: rest => ⟨height % 2 ^ 64, hash⟩ :: blocksFrom (height + 1) rest

namespace FinalizationHashTree

variable (tree : FinalizationHashTree)

def contains (key : HeightHashPair) : Bool := decide (key ∈ tree)

def findAncestors (key : HeightHashPair) : List HeightHashPair := tree.path key

def isDescendant (parentKey childKey : HeightHashPair) : Bool :=
  decide (parentKey ∈ tree.findAncestors childKey)

/-- `addBranch` never changes the parent of a node that the tree has. -/
def addBranch (height : ℕ) (hashes : List Hash256) : FinalizationHashTree :=
  ParentForest.Forest.addBranch tree (blocksFrom height hashes)

end FinalizationHashTree

def add64 (lhs rhs : ℕ) : ℕ := (lhs + rhs) % 2 ^ 64

def sub64 (lhs rhs : ℕ) : ℕ := (lhs + (2 ^ 64 - rhs % 2 ^ 64)) % 2 ^ 64

@[ext]
structure Weights where
  prevote : ℕ := 0
  precommit : ℕ := 0
  deriving DecidableEq, Repr

structure RoundContext where
  totalWeight : ℕ
  threshold : ℕ
  cumulativePrecommitWeight : ℕ
  tree : FinalizationHashTree
  candidates : OrderedMap HeightHashPair Weights
  pendingPrecommitWeights : Map HeightHashPair ℕ

namespace RoundContext

def create (weight threshold : ℕ) : RoundContext :=
  ⟨weight, threshold, 0, ParentForest.Forest.empty, OrderedMap.empty, ∅⟩

variable (ctx : RoundContext)

def size : ℕ := ctx.candidates.entries.length

def tryFindLastMatch (predicate : HeightHashPair → Weights → Bool) : Option HeightHashPair :=
  ctx.candidates.findLast? predicate

def canReachPrecommitThreshold (weights : Weights) : Bool :=
  decide (ctx.threshold ≤ add64 weights.precommit
    (sub64 ctx.totalWeight ctx.cumulativePrecommitWeight))

def tryFindBestPrevote : Option HeightHashPair :=
  ctx.tryFindLastMatch fun _ weights => decide (ctx.threshold ≤ weights.prevote)

def tryFindBestPrecommit : Option HeightHashPair := ctx.tryFindLastMatch fun _ weights =>
    decide (ctx.threshold ≤ weights.prevote) && decide (ctx.threshold ≤ weights.precommit)

variable (bestPrevote : HeightHashPair)

/-- The last block from a best prevote back that can still reach the precommit threshold. -/
def tryFindEstimateFrom : Option HeightHashPair :=
  ctx.tryFindLastMatch fun key weights =>
    FinalizationHashTree.isDescendant ctx.tree key bestPrevote &&
      ctx.canReachPrecommitThreshold weights

def tryFindEstimate : Option HeightHashPair :=
  match ctx.tryFindBestPrevote with
  | none => none
  | some bestPrevote => ctx.tryFindEstimateFrom bestPrevote

def isDescendant (parentKey childKey : HeightHashPair) : Bool :=
  FinalizationHashTree.isDescendant ctx.tree parentKey childKey

/-- No candidate strictly below the block can still reach the precommit threshold. -/
def noDescendantCanReach : Bool :=
  ctx.candidates.entries.reverse.all fun (key, weights) =>
    bestPrevote == key ||
      !(FinalizationHashTree.isDescendant ctx.tree bestPrevote key &&
        ctx.canReachPrecommitThreshold weights)

def isCompletable : Bool :=
  match ctx.tryFindBestPrevote with
  | none => false
  | some bestPrevote =>
    if (ctx.tryFindEstimateFrom bestPrevote).any (bestPrevote != ·) then true
    else !ctx.canReachPrecommitThreshold {} && ctx.noDescendantCanReach bestPrevote

variable (key : HeightHashPair)

def weights : Weights := (ctx.candidates.lookup key).getD {}

variable (weight : ℕ)

/-- `emplace` and the increment of the prevote weight. -/
def addPrevote : RoundContext :=
  let weights := ctx.weights key
  { ctx with
    candidates := ctx.candidates.insert key
      { weights with prevote := add64 weights.prevote weight } }

def addPrecommit : RoundContext :=
  match ctx.candidates.lookup key with
  | none => ctx
  | some weights =>
    { ctx with
      candidates := ctx.candidates.insert key
        { weights with precommit := add64 weights.precommit weight } }

/-- A precommit counts for the block and for all blocks above it. -/
def addPrecommits (keys : List HeightHashPair) (weight : ℕ) : RoundContext :=
  let counted := keys.foldl (fun ctx key => ctx.addPrecommit key weight) ctx
  { counted with
    cumulativePrecommitWeight := add64 counted.cumulativePrecommitWeight weight }

def acceptBlock (key : HeightHashPair) : RoundContext :=
  let counted := ctx.addPrevote key weight
  match counted.pendingPrecommitWeights.lookup key with
  | none => counted
  | some pendingWeight =>
    let released := counted.addPrecommits
      (FinalizationHashTree.findAncestors counted.tree key) pendingWeight
    { released with pendingPrecommitWeights := released.pendingPrecommitWeights.erase key }

variable (height : ℕ)

def addBranch (hashes : List Hash256) : RoundContext :=
  { ctx with tree := FinalizationHashTree.addBranch ctx.tree height hashes }

def acceptPrevote (hashes : List Hash256) (weight : ℕ) : RoundContext :=
  (blocksFrom height hashes).foldl (fun ctx key => ctx.acceptBlock weight key)
    (ctx.addBranch height hashes)

/-- The precommit waits until a prevote brings its block into the tree. -/
def parkPrecommit : RoundContext :=
  { ctx with
    pendingPrecommitWeights := ctx.pendingPrecommitWeights.insert key
      (add64 ((ctx.pendingPrecommitWeights.lookup key).getD 0) weight) }

def acceptPrecommit (hash : Hash256) (weight : ℕ) : RoundContext :=
  let key : HeightHashPair := ⟨height % 2 ^ 64, hash⟩
  let ancestorKeys := FinalizationHashTree.findAncestors ctx.tree key
  if ancestorKeys.isEmpty then ctx.parkPrecommit key weight
  else ctx.addPrecommits ancestorKeys weight

end RoundContext

open Library.Tally List ParentForest.Forest

/-- A prevote; the loop over its hashes counts in 32 bits. -/
structure Prevote where
  height : ℕ
  hashes : List Hash256
  weight : ℕ
  count_le : hashes.length ≤ 2 ^ 32

structure Precommit where
  height : ℕ
  hash : Hash256
  weight : ℕ

def Prevote.blocks (prevote : Prevote) : List HeightHashPair :=
  blocksFrom prevote.height prevote.hashes

def Precommit.block (precommit : Precommit) : HeightHashPair :=
  ⟨precommit.height % 2 ^ 64, precommit.hash⟩

variable {hashes : List Hash256}

private theorem mem_blocksFrom_height {height : ℕ} {key : HeightHashPair}
    (mem : key ∈ blocksFrom height hashes) :
    ∃ i < hashes.length, key.height = (height + i) % 2 ^ 64 := by
  induction hashes generalizing height with
  | nil => exact absurd mem not_mem_nil
  | cons hash rest ih =>
    obtain rfl | mem := mem_cons.mp mem
    · exact ⟨0, Nat.succ_pos _, rfl⟩
    · obtain ⟨i, inside, eq⟩ := ih mem
      exact ⟨i + 1, Nat.succ_lt_succ inside, by rw [eq, Nat.add_right_comm]; rfl⟩

theorem blocksFrom_pairwise (height : ℕ)
    (count_le : hashes.length ≤ 2 ^ 32) :
    (blocksFrom height hashes).Pairwise fun first second => first.height ≠ second.height := by
  induction hashes generalizing height with
  | nil => exact List.Pairwise.nil
  | cons hash rest ih =>
    rw [length_cons] at count_le
    refine pairwise_cons.mpr ⟨fun other mem => ?_, ih (height + 1) (by omega)⟩
    obtain ⟨i, inside, eq⟩ := mem_blocksFrom_height mem
    dsimp only
    omega

theorem Prevote.nodup_blocks (prevote : Prevote) : prevote.blocks.Nodup :=
  (blocksFrom_pairwise prevote.height prevote.count_le).imp fun differ same =>
    differ (congrArg HeightHashPair.height same)

inductive Vote
  | prevote (prevote : Prevote)
  | precommit (precommit : Precommit)

namespace Vote

def weight : Vote → ℕ
  | prevote vote => vote.weight
  | precommit vote => vote.weight

def Prevotes (key : HeightHashPair) : Vote → Prop
  | prevote vote => key ∈ vote.blocks
  | precommit _ => False

def Precommits (p : HeightHashPair → Prop) : Vote → Prop
  | prevote _ => False
  | precommit vote => p vote.block

instance (key : HeightHashPair) : DecidablePred (Prevotes key)
  | prevote vote => inferInstanceAs (Decidable (key ∈ vote.blocks))
  | precommit _ => inferInstanceAs (Decidable False)

instance (p : HeightHashPair → Prop) [DecidablePred p] : DecidablePred (Precommits p)
  | prevote _ => inferInstanceAs (Decidable False)
  | precommit vote => inferInstanceAs (Decidable (p vote.block))

end Vote

def prevoteWeight (votes : List Vote) (key : HeightHashPair) : ℕ :=
  tally Vote.weight (Vote.Prevotes key) votes

def precommitWeight (votes : List Vote) (p : HeightHashPair → Prop) [DecidablePred p] : ℕ :=
  tally Vote.weight (Vote.Precommits p) votes

namespace RoundContext

def accept (ctx : RoundContext) : Vote → RoundContext
  | .prevote vote => ctx.acceptPrevote vote.height vote.hashes vote.weight
  | .precommit vote => ctx.acceptPrecommit vote.height vote.hash vote.weight

def acceptAll (ctx : RoundContext) (votes : List Vote) : RoundContext := votes.foldl accept ctx

def Known (ctx : RoundContext) (key : HeightHashPair) : Prop :=
  (ctx.candidates.lookup key).isSome = true

instance (ctx : RoundContext) : DecidablePred ctx.Known :=
  fun _ => inferInstanceAs (Decidable (_ = true))

variable {ctx : RoundContext} {key target : HeightHashPair} {weight : ℕ}

theorem lookup_of_known (known : ctx.Known key) :
    ctx.candidates.lookup key = some (ctx.weights key) := by
  obtain ⟨weights, found⟩ := Option.isSome_iff_exists.mp known
  rw [RoundContext.weights, found]
  rfl

theorem weights_of_not_known (unknown : ¬ctx.Known key) : ctx.weights key = {} := by
  rw [weights, Option.not_isSome_iff_eq_none.mp unknown]
  rfl

structure SameButCandidates (before after : RoundContext) : Prop where
  totalWeight : after.totalWeight = before.totalWeight
  threshold : after.threshold = before.threshold
  cumulative : after.cumulativePrecommitWeight = before.cumulativePrecommitWeight
  tree : after.tree = before.tree
  pending : after.pendingPrecommitWeights = before.pendingPrecommitWeights

private theorem SameButCandidates.trans {first second third : RoundContext}
    (one : SameButCandidates first second) (two : SameButCandidates second third) :
    SameButCandidates first third :=
  ⟨two.1.trans one.1, two.2.trans one.2, two.3.trans one.3, two.4.trans one.4, two.5.trans one.5⟩

private theorem known_addPrevote :
    (ctx.addPrevote key weight).Known target ↔ target = key ∨ ctx.Known target := by
  rw [Known, addPrevote, OrderedMap.lookup_insert]
  split_ifs with here <;> simp [here, Known]

private theorem weights_addPrevote : (ctx.addPrevote key weight).weights target =
    { ctx.weights target with
      prevote := if target = key then add64 (ctx.weights target).prevote weight
        else (ctx.weights target).prevote } := by
  rw [weights, addPrevote, OrderedMap.lookup_insert]
  split_ifs with here
  · subst here
    rfl
  · rfl

private theorem addPrecommit_same : SameButCandidates ctx (ctx.addPrecommit key weight) := by
  unfold addPrecommit
  split <;> exact ⟨rfl, rfl, rfl, rfl, rfl⟩

private theorem known_addPrecommit :
    (ctx.addPrecommit key weight).Known target ↔ ctx.Known target := by
  unfold addPrecommit
  split
  · rfl
  · next weights found =>
    rw [Known, Known, OrderedMap.lookup_insert]
    split_ifs with here <;> simp [here, found]

private theorem weights_addPrecommit (known : ctx.Known key) :
    (ctx.addPrecommit key weight).weights target =
      { ctx.weights target with
        precommit := if target = key then add64 (ctx.weights target).precommit weight
          else (ctx.weights target).precommit } := by
  rw [addPrecommit, lookup_of_known known]
  simp only [weights, OrderedMap.lookup_insert]
  split_ifs with here
  · subst here
    rfl
  · rfl

variable (keys : List HeightHashPair)

private theorem foldl_addPrecommit_same : SameButCandidates ctx
    (keys.foldl (fun ctx key => ctx.addPrecommit key weight) ctx) := by
  induction keys generalizing ctx with
  | nil => exact ⟨rfl, rfl, rfl, rfl, rfl⟩
  | cons key rest ih => exact addPrecommit_same.trans ih

private theorem foldl_addPrecommit_weights {keys : List HeightHashPair} (distinct : keys.Nodup)
    (known : ∀ key ∈ keys, ctx.Known key) :
    let counted := keys.foldl (fun ctx key => ctx.addPrecommit key weight) ctx
    (∀ target, counted.Known target ↔ ctx.Known target) ∧ ∀ target, counted.weights target =
        { ctx.weights target with
          precommit := if target ∈ keys then add64 (ctx.weights target).precommit weight
            else (ctx.weights target).precommit } := by
  induction keys generalizing ctx with
  | nil => exact ⟨fun _ => Iff.rfl, fun _ => rfl⟩
  | cons key rest ih =>
    obtain ⟨fresh, distinct⟩ := nodup_cons.mp distinct
    have known' : ∀ other ∈ rest, (ctx.addPrecommit key weight).Known other :=
      fun other mem => known_addPrecommit.mpr (known other (mem_cons_of_mem key mem))
    obtain ⟨knowns, weights⟩ := ih distinct known'
    refine ⟨fun target => (knowns target).trans known_addPrecommit, fun target => ?_⟩
    rw [foldl_cons, weights target, weights_addPrecommit (known key mem_cons_self)]
    by_cases here : target = key
    · subst here
      simp [fresh]
    · simp [here]

variable (weight) in
private theorem weights_addPrecommits {keys : List HeightHashPair} (distinct : keys.Nodup)
    (known : ∀ key ∈ keys, ctx.Known key) :
    (∀ target, (ctx.addPrecommits keys weight).Known target ↔ ctx.Known target) ∧
    ∀ target, (ctx.addPrecommits keys weight).weights target =
      { ctx.weights target with
        precommit := if target ∈ keys then add64 (ctx.weights target).precommit weight
          else (ctx.weights target).precommit } :=
  foldl_addPrecommit_weights distinct known

private theorem cumulative_addPrecommits :
    (ctx.addPrecommits keys weight).cumulativePrecommitWeight =
      add64 ctx.cumulativePrecommitWeight weight :=
  congrArg (add64 · weight) (foldl_addPrecommit_same keys).cumulative

/-- The weights of a round and its tree do not change while a vote is counted. -/
structure SameRound (before after : RoundContext) : Prop where
  totalWeight : after.totalWeight = before.totalWeight
  threshold : after.threshold = before.threshold
  tree : after.tree = before.tree

variable (ctx weight) in
private theorem addPrecommits_sameRound : SameRound ctx (ctx.addPrecommits keys weight) := by
  have same : SameButCandidates ctx
      (keys.foldl (fun ctx key => ctx.addPrecommit key weight) ctx) :=
    foldl_addPrecommit_same keys
  exact ⟨same.totalWeight, same.threshold, same.tree⟩

variable (ctx weight) in
private theorem foldl_acceptBlock_sameRound (blocks : List HeightHashPair) : SameRound ctx
    (blocks.foldl (fun ctx key => ctx.acceptBlock weight key) ctx) := by
  have one (ctx : RoundContext) (key : HeightHashPair) :
      SameRound ctx (ctx.acceptBlock weight key) := by
    unfold acceptBlock
    dsimp only
    split
    · exact ⟨rfl, rfl, rfl⟩
    · next pendingWeight _ =>
      have same := (ctx.addPrevote key weight).addPrecommits_sameRound pendingWeight
        (ctx.tree.path key)
      exact ⟨same.1, same.2, same.3⟩
  induction blocks generalizing ctx with
  | nil => exact ⟨rfl, rfl, rfl⟩
  | cons key rest ih =>
    have rest := ih (ctx.acceptBlock weight key)
    exact ⟨rest.1.trans (one _ _).1, rest.2.trans (one _ _).2, rest.3.trans (one _ _).3⟩

def pendingWeight (ctx : RoundContext) (key : HeightHashPair) : ℕ :=
  (ctx.pendingPrecommitWeights.lookup key).getD 0

private theorem add64_zero {value : ℕ} (bounded : value < 2 ^ 64) : add64 value 0 = value :=
  Nat.mod_eq_of_lt bounded

variable (weight) in
private theorem acceptBlock_spec
    (above : ∀ other ∈ ctx.tree.path key, other = key ∨ ctx.Known other)
    (bounded : ∀ target, (ctx.weights target).precommit < 2 ^ 64)
    (bounded_cumulative : ctx.cumulativePrecommitWeight < 2 ^ 64) :
    let after := ctx.acceptBlock weight key
    after.cumulativePrecommitWeight = add64 ctx.cumulativePrecommitWeight (ctx.pendingWeight key) ∧
    (∀ target, after.pendingWeight target = if target = key then 0 else ctx.pendingWeight target) ∧
    (∀ target, after.Known target ↔ target = key ∨ ctx.Known target) ∧
    ∀ target, after.weights target =
      { prevote := if target = key then add64 (ctx.weights target).prevote weight
          else (ctx.weights target).prevote
        precommit := if target ∈ ctx.tree.path key then
            add64 (ctx.weights target).precommit (ctx.pendingWeight key)
          else (ctx.weights target).precommit } := by
  unfold acceptBlock
  dsimp only
  have parked : (ctx.addPrevote key weight).pendingPrecommitWeights.lookup key =
      ctx.pendingPrecommitWeights.lookup key := rfl
  rw [parked]
  cases found : ctx.pendingPrecommitWeights.lookup key with
  | none =>
    have nothing : ctx.pendingWeight key = 0 := by rw [pendingWeight, found]; rfl
    refine ⟨?_, fun target => ?_, fun target => known_addPrevote, fun target => ?_⟩
    · rw [nothing, add64_zero bounded_cumulative]
      rfl
    · split_ifs with here
      · rw [here]
        exact nothing
      · rfl
    · rw [weights_addPrevote, nothing, add64_zero (bounded target), ite_self]
  | some pending =>
    have something : ctx.pendingWeight key = pending := by rw [pendingWeight, found]; rfl
    have known : ∀ other ∈ ctx.tree.path key, (ctx.addPrevote key weight).Known other :=
      fun other mem => known_addPrevote.mpr (above other mem)
    obtain ⟨knowns, weights⟩ := weights_addPrecommits pending (ctx.tree.nodup_path key) known
    rw [something]
    refine ⟨cumulative_addPrecommits _, fun target => ?_,
      fun target => (knowns target).trans known_addPrevote, fun target => ?_⟩
    · rw [pendingWeight]
      rw [lookup_erase_apply]
      split_ifs
      · rfl
      · exact congrArg (fun map => (Finmap.lookup target map).getD 0)
          (foldl_addPrecommit_same _).pending
    · refine (weights target).trans ?_
      rw [weights_addPrevote]

variable (ctx weight key) in
private theorem tree_acceptBlock : (ctx.acceptBlock weight key).tree = ctx.tree :=
  (foldl_acceptBlock_sameRound ctx weight [key]).tree

/-- What a context counts: the votes, and `extra` from the prevote that is being accepted. A
precommit counts once its block is a candidate, for the path of the block in the tree; until then
it is parked. -/
structure Counted (votes : List Vote) (extra : HeightHashPair → ℕ) (ctx : RoundContext) : Prop where
  prevote : ∀ key, (ctx.weights key).prevote = (prevoteWeight votes key + extra key) % 2 ^ 64
  precommit : ∀ key, (ctx.weights key).precommit =
    precommitWeight votes (fun block => ctx.Known block ∧ key ∈ ctx.tree.path block) %
      2 ^ 64
  cumulative : ctx.cumulativePrecommitWeight = precommitWeight votes ctx.Known % 2 ^ 64
  pending : ∀ key, ctx.pendingWeight key =
    precommitWeight votes (fun block => block = key ∧ ¬ctx.Known block) % 2 ^ 64
  inside : ∀ key, ctx.Known key → key ∈ ctx.tree
  closed : ∀ key, ctx.Known key → ∀ above ∈ ctx.tree.path key, ctx.Known above

variable (total threshold : ℕ)

private theorem create_counted : Counted [] (fun _ => 0) (create total threshold) where
  prevote _ := rfl
  precommit _ := rfl
  cumulative := rfl
  pending _ := rfl
  inside _ known := absurd known Bool.false_ne_true
  closed _ _ _ mem := absurd (mem_of_mem_path mem)
    not_mem_empty

variable {votes : List Vote}

theorem precommitWeight_or {p q r : HeightHashPair → Prop}
    [DecidablePred p] [DecidablePred q] [DecidablePred r]
    (union : ∀ block, r block ↔ p block ∨ q block) (exclusive : ∀ block, ¬(p block ∧ q block)) :
    precommitWeight votes r = precommitWeight votes p + precommitWeight votes q := by
  rw [precommitWeight, precommitWeight, precommitWeight, ← tally_or]
  · refine tally_congr fun vote _ => ?_
    cases vote with
    | prevote _ => exact ⟨False.elim, fun either => either.elim id id⟩
    | precommit vote => exact union vote.block
  · intro vote _
    cases vote with
    | prevote _ => exact fun both => both.1
    | precommit vote => exact exclusive vote.block

theorem precommitWeight_congr {p q : HeightHashPair → Prop}
    [DecidablePred p] [DecidablePred q] (same : ∀ block, p block ↔ q block) :
    precommitWeight votes p = precommitWeight votes q := by
  refine tally_congr fun vote _ => ?_
  cases vote with
  | prevote _ => exact Iff.rfl
  | precommit vote => exact same vote.block

private theorem prevoteWeight_prevote (key : HeightHashPair)
    (prevote : Prevote) : prevoteWeight (votes ++ [.prevote prevote]) key =
      prevoteWeight votes key + if key ∈ prevote.blocks then prevote.weight else 0 := by
  rw [prevoteWeight, tally_append, tally_cons, tally_nil]
  rfl

private theorem precommitWeight_prevote (p : HeightHashPair → Prop)
    [DecidablePred p] (prevote : Prevote) :
    precommitWeight (votes ++ [.prevote prevote]) p = precommitWeight votes p := by
  rw [precommitWeight, tally_append, tally_cons, tally_nil]
  rfl

private theorem precommitWeight_precommit (p : HeightHashPair → Prop)
    [DecidablePred p] (precommit : Precommit) :
    precommitWeight (votes ++ [.precommit precommit]) p =
      precommitWeight votes p + if p precommit.block then precommit.weight else 0 := by
  rw [precommitWeight, tally_append, tally_cons, tally_nil]
  rfl

private theorem precommitWeight_eq_zero {p : HeightHashPair → Prop}
    [DecidablePred p] (never : ∀ block, ¬p block) : precommitWeight votes p = 0 := by
  refine tally_eq_zero fun vote _ => ?_
  cases vote with
  | prevote _ => exact id
  | precommit vote => exact never vote.block

variable {votes : List Vote} {extra : HeightHashPair → ℕ}

section
variable (counted : Counted votes extra ctx)
include counted

private theorem Counted.precommit_lt (target : HeightHashPair) :
    (ctx.weights target).precommit < 2 ^ 64 := by
  rw [counted.precommit]
  exact Nat.mod_lt _ (Nat.two_pow_pos 64)

private theorem Counted.cumulative_lt : ctx.cumulativePrecommitWeight < 2 ^ 64 := by
  rw [counted.cumulative]
  exact Nat.mod_lt _ (Nat.two_pow_pos 64)

variable (weight) in
private theorem Counted.acceptBlock (inside : key ∈ ctx.tree)
    (above : ∀ other ∈ ctx.tree.path key, other = key ∨ ctx.Known other) :
    Counted votes (fun target => extra target + if target = key then weight else 0)
      (ctx.acceptBlock weight key) := by
  obtain ⟨cumulative, pending, knowns, weights⟩ := acceptBlock_spec weight above
    counted.precommit_lt counted.cumulative_lt
  have tree := tree_acceptBlock ctx key weight
  refine ⟨fun target => ?_, fun target => ?_, ?_, fun target => ?_, fun target known => ?_,
    fun target known => ?_⟩
  · rw [weights]
    dsimp only
    rw [counted.prevote]
    split_ifs
    · rw [add64, Nat.mod_add_mod, Nat.add_assoc]
    · rfl
  · rw [weights]
    dsimp only
    rw [counted.precommit, counted.pending, tree]
    split_ifs with onPath
    · rw [add64, ← Nat.add_mod]
      refine congrArg (· % 2 ^ 64) (precommitWeight_or ?_ ?_).symm
      · intro block
        rw [knowns]
        by_cases same : block = key
        · subst same
          tauto
        · tauto
      · tauto
    · refine congrArg (· % 2 ^ 64) (precommitWeight_congr fun block => ?_)
      rw [knowns]
      by_cases same : block = key
      · subst same
        tauto
      · tauto
  · rw [cumulative, counted.cumulative, counted.pending, add64, ← Nat.add_mod]
    refine congrArg (· % 2 ^ 64) (precommitWeight_or ?_ ?_).symm
    · intro block
      rw [knowns]
      by_cases same : block = key
      · tauto
      · tauto
    · tauto
  · rw [pending, counted.pending]
    split_ifs with here
    · subst here
      have nothing : precommitWeight votes (fun block => block = target ∧
          ¬(ctx.acceptBlock weight target).Known block) = 0 :=
        precommitWeight_eq_zero fun block => by rw [knowns]; tauto
      rw [nothing, Nat.zero_mod]
    · refine congrArg (· % 2 ^ 64) (precommitWeight_congr fun block => ?_)
      rw [knowns]
      by_cases same : block = target
      · subst same
        tauto
      · tauto
  · rw [tree]
    exact ((knowns target).mp known).elim (fun here => here ▸ inside) (counted.inside target)
  · rw [tree]
    intro other mem
    rw [knowns]
    obtain rfl | known := (knowns target).mp known
    · exact above other mem
    · exact .inr (counted.closed target known other mem)

variable (weight) in
private theorem Counted.acceptBlocks
    (blocks : List HeightHashPair) (inside : ∀ key ∈ blocks, key ∈ ctx.tree)
    (above : ∀ before key after, blocks = before ++ key :: after →
      ∀ other ∈ ctx.tree.path key, other = key ∨ ctx.Known other ∨ other ∈ before) :
    let after := blocks.foldl (fun ctx key => ctx.acceptBlock weight key) ctx
    Counted votes (fun target => extra target + weight * blocks.count target) after ∧
      (∀ target, after.Known target ↔ ctx.Known target ∨ target ∈ blocks) := by
  induction blocks generalizing ctx extra with
  | nil => exact ⟨counted, fun target => by simp⟩
  | cons key rest ih =>
    have aboveKey : ∀ other ∈ ctx.tree.path key, other = key ∨ ctx.Known other := by
      intro other mem
      simpa using above [] key rest rfl other mem
    obtain ⟨-, -, knowns, -⟩ := acceptBlock_spec weight aboveKey
      counted.precommit_lt counted.cumulative_lt
    have tree := tree_acceptBlock ctx key weight
    have step := counted.acceptBlock weight (inside key mem_cons_self) aboveKey
    obtain ⟨counted', knowns'⟩ := ih step
      (fun other mem => by rw [tree]; exact inside other (mem_cons_of_mem key mem))
      (fun before other after split ancestor mem => by
        rw [tree] at mem
        rw [knowns]
        have later := above (key :: before) other after (by rw [split]; rfl) ancestor mem
        rw [mem_cons] at later
        tauto)
    refine ⟨?_, fun target => ?_⟩
    · have extras : (fun target => extra target + weight * (key :: rest).count target) =
          fun target => extra target + (if target = key then weight else 0) +
            weight * rest.count target := by
        funext target
        by_cases here : target = key
        · subst here
          rw [count_cons_self, if_pos rfl, Nat.mul_succ]
          omega
        · rw [count_cons_of_ne (Ne.symm here), if_neg here, Nat.add_zero]
      rw [extras]
      exact counted'
    · rw [foldl_cons, knowns', knowns, mem_cons]
      tauto

end

structure Sound (votes : List Vote) (ctx : RoundContext) : Prop where
  counted : Counted votes (fun _ => 0) ctx
  known_iff : ∀ key, ctx.Known key ↔ key ∈ ctx.tree

private theorem create_sound : Sound [] (create total threshold) where
  counted := create_counted total threshold
  known_iff _ := ⟨fun known => absurd known Bool.false_ne_true, fun mem => absurd mem not_mem_empty⟩

private theorem Counted.addBranch (counted : Counted votes extra ctx) (height : ℕ)
    (hashes : List Hash256) : Counted votes extra (ctx.addBranch height hashes) := by
  have stable {block : HeightHashPair} (known : ctx.Known block) :
      (ctx.addBranch height hashes).tree.path block = ctx.tree.path block :=
    path_addBranch (counted.inside block known)
  refine ⟨counted.prevote, fun key => ?_, counted.cumulative, counted.pending, fun key known => ?_,
    fun key known => ?_⟩
  · refine (counted.precommit key).trans
      (congrArg (· % 2 ^ 64) (precommitWeight_congr fun block => ?_))
    refine and_congr_right fun known => ?_
    rw [stable known]
  · exact mem_addBranch.mpr (.inl (counted.inside key known))
  · rw [stable known]
    exact counted.closed key known

variable (ctx) in
private theorem acceptPrevote_sameRound (prevote : Prevote) : SameRound
    (ctx.addBranch prevote.height prevote.hashes)
    (ctx.acceptPrevote prevote.height prevote.hashes prevote.weight) :=
  foldl_acceptBlock_sameRound _ prevote.weight prevote.blocks

private theorem Sound.acceptPrevote (sound : Sound votes ctx) (prevote : Prevote) :
    Sound (votes ++ [.prevote prevote])
      (ctx.acceptPrevote prevote.height prevote.hashes prevote.weight) := by
  obtain ⟨counted, known_iff⟩ := sound
  have tree : (ctx.acceptPrevote prevote.height prevote.hashes prevote.weight).tree =
      ParentForest.Forest.addBranch ctx.tree prevote.blocks :=
    (acceptPrevote_sameRound ctx prevote).tree
  obtain ⟨after, knowns⟩ := (counted.addBranch prevote.height prevote.hashes).acceptBlocks
    prevote.weight prevote.blocks
    (fun key mem => mem_addBranch.mpr (.inr mem))
    (fun before key after split other mem => by
      change other ∈ ParentForest.Forest.path
        (ParentForest.Forest.addBranch ctx.tree prevote.blocks) key at mem
      rw [split] at mem
      have located := ParentForest.Forest.mem_path_addBranch mem
      rw [← known_iff] at located
      exact located)
  have same (p : HeightHashPair → Prop) [DecidablePred p] : precommitWeight votes p % 2 ^ 64 =
      precommitWeight (votes ++ [.prevote prevote]) p % 2 ^ 64 := by
    rw [precommitWeight_prevote]
  refine ⟨⟨fun key => ?_, fun key => (after.precommit key).trans (same _),
    after.cumulative.trans (same _), fun key => (after.pending key).trans (same _), after.inside,
    after.closed⟩, fun key => ?_⟩
  · refine (after.prevote key).trans (congrArg (· % 2 ^ 64) ?_)
    rw [prevoteWeight_prevote]
    by_cases mem : key ∈ prevote.blocks
    · rw [count_eq_one_of_mem prevote.nodup_blocks mem, if_pos mem]
      omega
    · rw [count_eq_zero_of_not_mem mem, if_neg mem]
      omega
  · rw [tree, mem_addBranch, ← known_iff]
    exact knowns key

variable (ctx) in
private theorem acceptPrecommit_sameRound (precommit : Precommit) : SameRound ctx
    (ctx.acceptPrecommit precommit.height precommit.hash precommit.weight) := by
  unfold acceptPrecommit
  dsimp only
  split_ifs
  · exact ⟨rfl, rfl, rfl⟩
  · exact addPrecommits_sameRound ctx _ _

private theorem prevoteWeight_precommit (key : HeightHashPair) (precommit : Precommit) :
    prevoteWeight (votes ++ [.precommit precommit]) key = prevoteWeight votes key := by
  rw [prevoteWeight, tally_append, tally_cons, tally_nil]
  rfl

variable {precommit : Precommit}

private theorem Sound.addPrecommits (sound : Sound votes ctx)
    (inside : precommit.block ∈ ctx.tree) :
    Sound (votes ++ [.precommit precommit])
      (ctx.addPrecommits (ctx.tree.path precommit.block) precommit.weight) := by
  obtain ⟨counted, known_iff⟩ := sound
  have known := (known_iff precommit.block).mpr inside
  have tree := (addPrecommits_sameRound ctx precommit.weight
    (ctx.tree.path precommit.block)).tree
  obtain ⟨knowns, weights⟩ := weights_addPrecommits precommit.weight
    (ctx.tree.nodup_path precommit.block) (counted.closed _ known)
  refine ⟨⟨fun key => ?_, fun key => ?_, ?_, fun key => ?_, fun key => ?_, fun key => ?_⟩,
    fun key => ?_⟩
  · rw [weights, prevoteWeight_precommit]
    exact counted.prevote key
  · rw [weights, precommitWeight_precommit, tree]
    simp only [knowns, known, true_and]
    rw [counted.precommit]
    split_ifs
    · exact Nat.mod_add_mod _ _ _
    · rfl
  · rw [cumulative_addPrecommits, precommitWeight_precommit, counted.cumulative,
      if_pos ((knowns _).mpr known), add64, Nat.mod_add_mod]
    exact congrArg (fun weight => (weight + precommit.weight) % 2 ^ 64)
      (precommitWeight_congr fun block => (knowns block).symm)
  · have parked : (ctx.addPrecommits (ctx.tree.path precommit.block)
        precommit.weight).pendingWeight key = ctx.pendingWeight key :=
      congrArg (fun map => (Finmap.lookup key map).getD 0) (foldl_addPrecommit_same _).pending
    rw [parked, counted.pending, precommitWeight_precommit]
    simp only [knowns, known, not_true_eq_false, and_false, if_false, Nat.add_zero]
  · rw [knowns, tree]
    exact counted.inside key
  · rw [knowns, tree]
    simp only [knowns]
    exact counted.closed key
  · rw [knowns, tree]
    exact known_iff key

private theorem Sound.parkPrecommit (sound : Sound votes ctx)
    (outside : precommit.block ∉ ctx.tree) :
    Sound (votes ++ [.precommit precommit])
      (ctx.parkPrecommit precommit.block precommit.weight) := by
  obtain ⟨counted, known_iff⟩ := sound
  have unknown : ¬(ctx.parkPrecommit precommit.block precommit.weight).Known precommit.block :=
    (known_iff precommit.block).not.mpr outside
  refine ⟨⟨fun key => ?_, fun key => ?_, ?_, fun key => ?_, counted.inside, counted.closed⟩,
    known_iff⟩
  · rw [prevoteWeight_precommit]
    exact counted.prevote key
  · rw [precommitWeight_precommit, if_neg fun both => unknown both.1]
    exact counted.precommit key
  · rw [precommitWeight_precommit, if_neg unknown]
    exact counted.cumulative
  · rw [precommitWeight_precommit, pendingWeight, RoundContext.parkPrecommit]
    rw [lookup_insert_apply]
    split_ifs with here applies applies
    · have parked : (ctx.pendingPrecommitWeights.lookup precommit.block).getD 0 = _ :=
        counted.pending precommit.block
      rw [Option.getD_some, here, parked]
      exact Nat.mod_add_mod _ _ _
    · exact absurd ⟨here.symm, unknown⟩ applies
    · exact absurd applies.1.symm here
    · exact counted.pending key

private theorem Sound.acceptPrecommit (sound : Sound votes ctx) (precommit : Precommit) :
    Sound (votes ++ [.precommit precommit])
      (ctx.acceptPrecommit precommit.height precommit.hash precommit.weight) := by
  unfold RoundContext.acceptPrecommit
  dsimp only
  split_ifs with empty
  · refine sound.parkPrecommit fun inside => ?_
    rw [FinalizationHashTree.findAncestors, List.isEmpty_iff, path_eq_nil_iff] at empty
    exact empty inside
  · refine sound.addPrecommits ?_
    by_contra outside
    refine empty ?_
    rw [FinalizationHashTree.findAncestors, List.isEmpty_iff]
    exact path_eq_nil_iff.mpr outside

private theorem Sound.accept (sound : Sound votes ctx) (vote : Vote) :
    Sound (votes ++ [vote]) (ctx.accept vote) := by
  cases vote with
  | prevote vote => exact sound.acceptPrevote vote
  | precommit vote => exact sound.acceptPrecommit vote

theorem Sound.acceptAll (sound : Sound votes ctx) (more : List Vote) :
    Sound (votes ++ more) (ctx.acceptAll more) := by
  induction more generalizing votes ctx with
  | nil => rwa [append_nil]
  | cons vote rest ih =>
    have rest := ih (sound.accept vote)
    rwa [append_assoc, singleton_append] at rest

theorem acceptAll_sound (votes : List Vote) :
    Sound votes ((create total threshold).acceptAll votes) :=
  (create_sound total threshold).acceptAll votes

theorem acceptAll_limits (ctx : RoundContext) (votes : List Vote) :
    (ctx.acceptAll votes).totalWeight = ctx.totalWeight ∧
      (ctx.acceptAll votes).threshold = ctx.threshold := by
  induction votes generalizing ctx with
  | nil => exact ⟨rfl, rfl⟩
  | cons vote rest ih =>
    have step : (ctx.accept vote).totalWeight = ctx.totalWeight ∧
        (ctx.accept vote).threshold = ctx.threshold := by
      cases vote with
      | prevote vote =>
        have same := acceptPrevote_sameRound ctx vote
        exact ⟨same.1, same.2⟩
      | precommit vote =>
        have same := acceptPrecommit_sameRound ctx vote
        exact ⟨same.1, same.2⟩
    exact ⟨(ih _).1.trans step.1, (ih _).2.trans step.2⟩

def branches (votes : List Vote) : List (List HeightHashPair) := votes.filterMap fun vote =>
    match vote with
    | .prevote vote => some vote.blocks
    | .precommit _ => none

theorem acceptAll_tree (ctx : RoundContext) (votes : List Vote) : (ctx.acceptAll votes).tree =
      (branches votes).foldl ParentForest.Forest.addBranch ctx.tree := by
  induction votes generalizing ctx with
  | nil => rfl
  | cons vote rest ih =>
    rw [acceptAll, foldl_cons, ← acceptAll, ih]
    cases vote with
    | prevote vote =>
      exact congrArg (foldl _ · (branches rest)) (acceptPrevote_sameRound ctx vote).tree
    | precommit vote =>
      exact congrArg (foldl _ · (branches rest)) (acceptPrecommit_sameRound ctx vote).tree

end RoundContext

end BitxorCore.Finalization
