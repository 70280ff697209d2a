/- GID: Finalization/RoundSafety
   anchors: [extensions/finalization/src/chain/RoundContext.cpp]
   digest: Nothing beyond the estimate of a completable round can still be finalized in it. -/

import BitxorCore.Finalization.RoundOrder

set_option autoImplicit false
set_option relaxedAutoImplicit false

namespace BitxorCore.Finalization
open Library Library.FiniteMap Library.Tally Library.ParentForest Model RoundContext List Prod

def Vote.IsPrevote : Vote → Prop
  | .prevote _ => True
  | .precommit _ => False

instance : DecidablePred Vote.IsPrevote
  | .prevote _ => inferInstanceAs (Decidable True)
  | .precommit _ => inferInstanceAs (Decidable False)

structure WithinTotal (total : ℕ) (votes : List Vote) : Prop where
  fits : total < 2 ^ 64
  prevotes : tally Vote.weight Vote.IsPrevote votes ≤ total
  precommits : precommitWeight votes (fun _ => True) ≤ total

variable {total threshold : ℕ} {votes more : List Vote} {ctx : RoundContext}
  {key above below : HeightHashPair}

private theorem precommitWeight_mono {p q : HeightHashPair → Prop} [DecidablePred p]
    [DecidablePred q] (imp : ∀ block, p block → q block) :
    precommitWeight votes p ≤ precommitWeight votes q := by
  refine tally_mono fun vote _ => ?_
  cases vote with
  | prevote _ => exact id
  | precommit vote => exact imp vote.block

private theorem precommitWeight_append {p : HeightHashPair → Prop} [DecidablePred p] :
    precommitWeight (votes ++ more) p = precommitWeight votes p + precommitWeight more p :=
  tally_append votes more

private theorem WithinTotal.prevoteWeight_le (within : WithinTotal total votes)
    (key : HeightHashPair) : prevoteWeight votes key ≤ total := by
  refine le_trans (tally_mono fun vote _ => ?_) within.prevotes
  cases vote with
  | prevote _ => exact fun _ => trivial
  | precommit _ => exact id

private theorem WithinTotal.of_append (within : WithinTotal total (votes ++ more)) :
    WithinTotal total votes := by
  obtain ⟨fits, prevotes, precommits⟩ := within
  rw [tally_append] at prevotes
  rw [precommitWeight_append] at precommits
  exact ⟨fits, by omega, by omega⟩

private theorem WithinTotal.precommitWeight_mod (within : WithinTotal total votes)
    (p : HeightHashPair → Prop) [DecidablePred p] :
    precommitWeight votes p % 2 ^ 64 = precommitWeight votes p := by
  have bound : precommitWeight votes p ≤ _ := precommitWeight_mono fun _ _ => trivial
  exact Nat.mod_eq_of_lt ((bound.trans within.precommits).trans_lt within.fits)

section Readings

variable (within : WithinTotal total votes) (sound : Sound votes ctx)
include within sound

theorem prevote_eq (key : HeightHashPair) :
    (ctx.weights key).prevote = prevoteWeight votes key := by
  rw [sound.counted.prevote]
  exact Nat.mod_eq_of_lt ((within.prevoteWeight_le key).trans_lt within.fits)

theorem precommit_eq (key : HeightHashPair) : (ctx.weights key).precommit =
    precommitWeight votes (fun block => ctx.Known block ∧ key ∈ ctx.tree.path block) := by
  rw [sound.counted.precommit, within.precommitWeight_mod]

theorem cumulative_eq : ctx.cumulativePrecommitWeight = precommitWeight votes ctx.Known := by
  rw [sound.counted.cumulative, within.precommitWeight_mod]

private theorem cumulative_le : ctx.cumulativePrecommitWeight ≤ total := by
  rw [cumulative_eq within sound]
  exact (precommitWeight_mono fun _ _ => trivial).trans within.precommits

private theorem precommit_le_cumulative (key : HeightHashPair) :
    (ctx.weights key).precommit ≤ ctx.cumulativePrecommitWeight := by
  rw [cumulative_eq within sound, precommit_eq within sound]
  exact precommitWeight_mono fun _ both => both.1

private theorem canReach_iff (totalWeight : ctx.totalWeight = total) {weights : Weights}
    (bounded : weights.precommit ≤ ctx.cumulativePrecommitWeight) :
    ctx.canReachPrecommitThreshold weights = true ↔
      ctx.threshold ≤ weights.precommit + (total - ctx.cumulativePrecommitWeight) := by
  have within_total := cumulative_le within sound
  have fits := within.fits
  have rest : sub64 ctx.totalWeight ctx.cumulativePrecommitWeight =
      total - ctx.cumulativePrecommitWeight := by
    rw [sub64, totalWeight]
    omega
  rw [canReachPrecommitThreshold, decide_eq_true_iff, rest, add64, Nat.mod_eq_of_lt (by omega)]

end Readings

private theorem later_path (inside : key ∈ ctx.tree) :
    (ctx.acceptAll more).tree.path key = ctx.tree.path key := by
  rw [acceptAll_tree]
  exact path_foldl_addBranch inside

section Later

variable (within : WithinTotal total (votes ++ more)) (sound : Sound votes ctx)
include within sound

private theorem later_precommit_le (key : HeightHashPair) :
    ((ctx.acceptAll more).weights key).precommit ≤
      (ctx.weights key).precommit + (total - ctx.cumulativePrecommitWeight) := by
  have after := sound.acceptAll more
  rw [precommit_eq within after, precommit_eq within.of_append sound,
    cumulative_eq within.of_append sound, precommitWeight_append]
  -- precommits for known blocks count as before, all others were not counted
  have early : precommitWeight votes (fun block => (ctx.acceptAll more).Known block ∧
        key ∈ (ctx.acceptAll more).tree.path block) ≤
      precommitWeight votes (fun block => ctx.Known block ∧ key ∈ ctx.tree.path block) +
        precommitWeight votes (fun block => ¬ctx.Known block) := by
    have union : precommitWeight votes (fun block =>
        (ctx.Known block ∧ key ∈ ctx.tree.path block) ∨ ¬ctx.Known block) = _ :=
      precommitWeight_or (fun _ => Iff.rfl) (by tauto)
    rw [← union]
    refine precommitWeight_mono fun block both => ?_
    by_cases known : ctx.Known block
    · rw [later_path ((sound.known_iff block).mp known)] at both
      exact .inl ⟨known, both.2⟩
    · exact .inr known
  have late : precommitWeight more (fun block => (ctx.acceptAll more).Known block ∧
      key ∈ (ctx.acceptAll more).tree.path block) ≤ precommitWeight more (fun _ => True) :=
    precommitWeight_mono fun _ _ => trivial
  have split : precommitWeight votes (fun _ => True) =
      precommitWeight votes ctx.Known + precommitWeight votes (fun block =>
        ¬ctx.Known block) :=
    precommitWeight_or (fun block => by tauto) (by tauto)
  have bound := within.precommits
  rw [precommitWeight_append] at bound
  omega

private theorem later_prevote_ge (key : HeightHashPair) :
    (ctx.weights key).prevote ≤ ((ctx.acceptAll more).weights key).prevote := by
  rw [prevote_eq within.of_append sound, prevote_eq within (sound.acceptAll more), prevoteWeight,
    prevoteWeight, tally_append]
  exact Nat.le_add_right _ _

end Later

private theorem precommit_le_of_mem_path (within : WithinTotal total votes)
    (sound : Sound votes ctx) (mem : above ∈ ctx.tree.path below) :
    (ctx.weights below).precommit ≤ (ctx.weights above).precommit := by
  rw [precommit_eq within sound, precommit_eq within sound]
  exact precommitWeight_mono fun block both => ⟨both.1, Forest.path_trans mem both.2⟩

def StartAt (start : HeightHashPair) (votes : List Vote) : Prop :=
  ∀ blocks ∈ branches votes, ∀ first ∈ blocks.head?, first = start

variable {start : HeightHashPair} {parent : HeightHashPair → Option HeightHashPair}

theorem exists_prevote_of_mem_branches {blocks : List HeightHashPair}
    (mem : blocks ∈ branches votes) :
    ∃ prevote : Prevote, .prevote prevote ∈ votes ∧ prevote.blocks = blocks := by
  obtain ⟨vote, mem, eq⟩ := mem_filterMap.mp mem
  cases vote with
  | precommit _ => exact absurd eq nofun
  | prevote prevote => exact ⟨prevote, mem, Option.some.inj eq⟩

private theorem StartAt.noChainStartsInside (startAt : StartAt start votes) :
    NoChainStartsInside votes := by
  intro blocks mem others otherMem first head behind
  obtain rfl := startAt blocks mem first head
  obtain ⟨prevote, -, rfl⟩ := exists_prevote_of_mem_branches otherMem
  have distinct := prevote.nodup_blocks
  cases chain : prevote.blocks with
  | nil => simp [chain] at behind
  | cons top rest =>
    rw [chain] at behind distinct
    obtain rfl := startAt _ otherMem top (by simp [chain])
    exact (nodup_cons.mp distinct).1 behind

/-- The tree holds the blocks of the chains, and every chain is a way down from a root. -/
structure Linked (expected : HeightHashPair → Option HeightHashPair) (votes : List Vote)
    (tree : FinalizationHashTree) : Prop where
  obeys : Forest.Obeys tree expected
  follows : ∀ blocks ∈ branches votes, Forest.Follows expected none blocks
  mem_iff : ∀ key, key ∈ tree ↔ ∃ blocks ∈ branches votes, key ∈ blocks

private theorem linked_acceptAll {all : List Vote} (consistent : ConsistentWith parent all)
    (starts : NoChainStartsInside all) (sub : ∀ blocks ∈ branches votes, blocks ∈ branches all) :
    Linked (expectedParent parent all) votes
      ((create total threshold).acceptAll votes).tree := by
  have follows : ∀ blocks ∈ branches votes,
      Forest.Follows (expectedParent parent all) none blocks := fun blocks mem =>
    follows_expectedParent consistent starts (sub blocks mem)
  refine ⟨?_, follows, fun key => mem_tree_iff total threshold⟩
  rw [acceptAll_tree]
  exact obeys_foldl_addBranch Forest.obeys_empty follows

section Linked

variable {expected : HeightHashPair → Option HeightHashPair} {tree : FinalizationHashTree}
  (linked : Linked expected votes tree)
include linked

private theorem Linked.path_eq {before after : List HeightHashPair}
    (mem : before ++ key :: after ∈ branches votes) : tree.path key = key :: before.reverse := by
  have eq := linked.obeys.path_of_follows (linked.follows _ mem) fun other inside =>
    (linked.mem_iff other).mpr ⟨_, mem, by
      rw [mem_append, mem_singleton] at inside
      rw [mem_append, mem_cons]
      tauto⟩
  rwa [Option.elim_none, append_nil] at eq

private theorem Linked.prevoteWeight_le (mem : above ∈ tree.path below) :
    prevoteWeight votes below ≤ prevoteWeight votes above := by
  refine tally_mono fun vote inside => ?_
  cases vote with
  | precommit _ => exact id
  | prevote prevote =>
    intro votedFor
    have chain : prevote.blocks ∈ branches votes := mem_filterMap.mpr ⟨_, inside, rfl⟩
    obtain ⟨before, after, split⟩ := append_of_mem votedFor
    rw [split] at chain
    rw [linked.path_eq chain, mem_cons, mem_reverse] at mem
    change above ∈ prevote.blocks
    rw [split, mem_append, mem_cons]
    tauto

private theorem Linked.comparable (within : WithinTotal total votes) {quorum : ℕ}
    (majority : total < 2 * quorum) (first : quorum ≤ prevoteWeight votes above)
    (second : quorum ≤ prevoteWeight votes below) :
    above ∈ tree.path below ∨ below ∈ tree.path above := by
  obtain ⟨vote, inside, votedAbove, votedBelow⟩ := exists_common within.prevotes
    (fun vote _ either => by
      cases vote with
      | prevote _ => trivial
      | precommit _ => exact either.elim id id) majority first second
  cases vote with
  | precommit _ => exact votedAbove.elim
  | prevote prevote =>
    have chain : prevote.blocks ∈ branches votes := mem_filterMap.mpr ⟨_, inside, rfl⟩
    exact linked.obeys.comparable (linked.follows _ chain)
      (fun key mem => (linked.mem_iff key).mpr ⟨_, chain, mem⟩) votedAbove votedBelow

end Linked

private theorem getElem?_blocksFrom (height : ℕ) (hashes : List Hash256) (i : ℕ) :
    (blocksFrom height hashes)[i]? = hashes[i]?.map fun hash => ⟨(height + i) % 2 ^ 64, hash⟩ := by
  induction hashes generalizing height i with
  | nil => rfl
  | cons hash rest ih =>
    cases i with
    | zero => rfl
    | succ i =>
      rw [blocksFrom, getElem?_cons_succ, getElem?_cons_succ, ih]
      rw [Nat.add_right_comm]
      rfl

variable {before after : List HeightHashPair}

private theorem height_of_split {height : ℕ} {hashes : List Hash256}
    (split : blocksFrom height hashes = before ++ key :: after) :
    key.height = (height + before.length) % 2 ^ 64 := by
  have found : (blocksFrom height hashes)[before.length]? = some key := by simp [split]
  rw [getElem?_blocksFrom, Option.map_eq_some_iff] at found
  obtain ⟨hash, -, rfl⟩ := found
  rfl

theorem length_blocksFrom (height : ℕ) (hashes : List Hash256) :
    (blocksFrom height hashes).length = hashes.length := by
  induction hashes generalizing height with
  | nil => rfl
  | cons hash rest ih => rw [blocksFrom, length_cons, length_cons, ih]

/-- A chain whose last block comes last does not wrap around the largest height: else the block
with that height would come later. -/
private theorem straight_of_last {prevote : Prevote}
    (split : prevote.blocks = before ++ key :: after) (last : ∀ block ∈ before, block ≤ key) :
    prevote.height % 2 ^ 64 + before.length < 2 ^ 64 := by
  have keyHeight := height_of_split split
  have length : before.length < 2 ^ 32 := by
    have count := prevote.count_le
    rw [← length_blocksFrom prevote.height, ← Prevote.blocks, split, length_append,
      length_cons] at count
    omega
  by_contra wraps
  have place : 2 ^ 64 - 1 - prevote.height % 2 ^ 64 < before.length := by omega
  obtain ⟨early, block, late, cut, earlyLength⟩ : ∃ early block late,
      before = early ++ block :: late ∧ early.length = 2 ^ 64 - 1 - prevote.height % 2 ^ 64 := by
    refine ⟨_, before[2 ^ 64 - 1 - prevote.height % 2 ^ 64], _,
      (take_append_drop (2 ^ 64 - 1 - prevote.height % 2 ^ 64) before).symm.trans
        (congrArg _ (drop_eq_getElem_cons place)), ?_⟩
    rw [length_take]
    omega
  have whole : prevote.blocks = early ++ block :: (late ++ key :: after) := by
    rw [split, cut, append_assoc]
    rfl
  have blockHeight := height_of_split whole
  have largest := HeightHashPair.height_le_of_le (last block (by simp [cut]))
  omega

private theorem Linked.height_lt {expected : HeightHashPair → Option HeightHashPair}
    {tree : FinalizationHashTree} (linked : Linked expected votes tree)
    {top : HeightHashPair} (inside : top ∈ tree) (last : ∀ block ∈ tree.path top, block ≤ top)
    (first : below ∈ tree.path top) (second : above ∈ tree.path below) (differ : above ≠ below) :
    above.height < below.height := by
  obtain ⟨blocks, chain, mem⟩ := (linked.mem_iff top).mp inside
  obtain ⟨prevote, -, rfl⟩ := exists_prevote_of_mem_branches chain
  obtain ⟨before, after, split⟩ := append_of_mem mem
  have path : tree.path top = top :: before.reverse := linked.path_eq (split ▸ chain)
  have straight := straight_of_last split fun block early => last block (by simp [path, early])
  obtain ⟨early, late, cut, bound⟩ : ∃ early late,
      prevote.blocks = early ++ below :: late ∧ early.length ≤ before.length := by
    rw [path, mem_cons, mem_reverse] at first
    obtain rfl | first := first
    · exact ⟨before, after, split, le_rfl⟩
    · obtain ⟨early, late, rfl⟩ := append_of_mem first
      exact ⟨early, late ++ top :: after, by rw [split, append_assoc]; rfl, by simp⟩
  rw [linked.path_eq (cut ▸ chain), mem_cons, mem_reverse] at second
  obtain ⟨start, rest, rfl⟩ := append_of_mem (second.resolve_left differ)
  have belowHeight := height_of_split cut
  have whole : prevote.blocks = start ++ above :: (rest ++ below :: late) := by
    rw [cut, append_assoc]
    rfl
  have aboveHeight := height_of_split whole
  rw [length_append, length_cons] at belowHeight bound
  omega

theorem lastMatch_spec {predicate : HeightHashPair → Weights → Bool}
    (found : ctx.tryFindLastMatch predicate = some key) :
    ctx.Known key ∧ predicate key (ctx.weights key) = true ∧
      ∀ other, ctx.Known other → predicate other (ctx.weights other) = true → other ≤ key := by
  obtain ⟨⟨weights, inside, holds⟩, last⟩ := OrderedMap.findLast?_spec found
  have known : ctx.Known key := Option.isSome_iff_exists.mpr ⟨weights, inside⟩
  rw [lookup_of_known known, Option.some.injEq] at inside
  subst inside
  exact ⟨known, holds, fun other otherKnown => last other _ (lookup_of_known otherKnown)⟩

private theorem isCompletable_spec {bestPrevote estimate : HeightHashPair}
    (completable : ctx.isCompletable = true) (best : ctx.tryFindBestPrevote = some bestPrevote)
    (found : ctx.tryFindEstimate = some estimate) (same : estimate = bestPrevote) :
    ctx.canReachPrecommitThreshold {} = false ∧
      ∀ key, ctx.Known key → key ≠ bestPrevote → bestPrevote ∈ ctx.tree.path key →
        ctx.canReachPrecommitThreshold (ctx.weights key) = false := by
  rw [tryFindEstimate, best] at found
  rw [isCompletable, best] at completable
  simp only [found, same, Option.any_some, bne_self_eq_false, Bool.false_eq_true, if_false,
    Bool.and_eq_true, Bool.not_eq_true'] at completable
  refine ⟨completable.1, fun key known differ descends => ?_⟩
  have all := all_eq_true.mp completable.2 (key, ctx.weights key)
    (mem_reverse.mpr (OrderedMap.lookup_eq_some_iff.mp (lookup_of_known known)))
  simpa [Ne.symm differ, FinalizationHashTree.isDescendant, FinalizationHashTree.findAncestors,
    descends] using all

section Safety

variable {now : RoundContext} {expected : HeightHashPair → Option HeightHashPair}
  (within : WithinTotal total (votes ++ more)) (sound : Sound votes now)
  (totalNow : now.totalWeight = total)
include within sound totalNow

private theorem canReach_of_later
    (reached : now.threshold ≤ ((now.acceptAll more).weights key).precommit) :
    now.canReachPrecommitThreshold (now.weights key) = true := by
  rw [canReach_iff within.of_append sound totalNow
    (precommit_le_cumulative within.of_append sound key)]
  exact reached.trans (later_precommit_le within sound key)

private theorem not_below_bestPrevote {bestPrevote estimate : HeightHashPair}
    (completable : now.isCompletable = true) (best : now.tryFindBestPrevote = some bestPrevote)
    (found : now.tryFindEstimate = some estimate)
    (last : ∀ block ∈ now.tree.path bestPrevote, block ≤ bestPrevote)
    (reached : now.threshold ≤ ((now.acceptAll more).weights key).precommit)
    (descends : bestPrevote ∈ (now.acceptAll more).tree.path key) : key = bestPrevote := by
  by_contra differ
  have bestKnown := (lastMatch_spec best).1
  by_cases same : estimate = bestPrevote
  · obtain ⟨unseen, seen⟩ := isCompletable_spec completable best found same
    have able := canReach_of_later within sound totalNow reached
    by_cases known : now.Known key
    · rw [later_path ((sound.known_iff key).mp known)] at descends
      rw [seen key known differ descends] at able
      exact Bool.false_ne_true able
    · rw [weights_of_not_known known, unseen] at able
      exact Bool.false_ne_true able
  · -- the best prevote itself can not reach the threshold, so nothing below it can
    have bestReached : now.threshold ≤ ((now.acceptAll more).weights bestPrevote).precommit :=
      reached.trans (precommit_le_of_mem_path within (sound.acceptAll more) descends)
    have able := canReach_of_later within sound totalNow bestReached
    rw [tryFindEstimate, best] at found
    obtain ⟨-, holds, greatest⟩ := lastMatch_spec found
    rw [Bool.and_eq_true, FinalizationHashTree.isDescendant, decide_eq_true_iff] at holds
    have self : bestPrevote ∈ now.tree.path bestPrevote :=
      Forest.mem_path_self.mpr ((sound.known_iff bestPrevote).mp bestKnown)
    have above := greatest bestPrevote bestKnown (by
      rw [Bool.and_eq_true, FinalizationHashTree.isDescendant, decide_eq_true_iff]
      exact ⟨self, able⟩)
    exact same (le_antisymm (last estimate holds.1) above)

end Safety

/-- In a completable round no block beyond the estimate gets a quorum of precommits. -/
private theorem bestPrecommit_above_estimate {bestPrecommit estimate : HeightHashPair}
    (within : WithinTotal total (votes ++ more)) (majority : total < 2 * threshold)
    (consistent : ConsistentWith parent (votes ++ more)) (startAt : StartAt start (votes ++ more))
    (completable : ((create total threshold).acceptAll votes).isCompletable = true)
    (found : ((create total threshold).acceptAll votes).tryFindEstimate = some estimate)
    (bestLater : (((create total threshold).acceptAll votes).acceptAll more).tryFindBestPrecommit =
      some bestPrecommit) :
    bestPrecommit ∈ (((create total threshold).acceptAll votes).acceptAll more).tree.path
      estimate := by
  have linked : Linked _ votes ((create total threshold).acceptAll votes).tree :=
    linked_acceptAll consistent startAt.noChainStartsInside fun blocks mem => by
      rw [branches, filterMap_append]
      exact mem_append_left _ mem
  have linkedLater : Linked _ (votes ++ more)
      ((create total threshold).acceptAll (votes ++ more)).tree :=
    linked_acceptAll consistent startAt.noChainStartsInside fun _ mem => mem
  rw [show (create total threshold).acceptAll (votes ++ more) =
    ((create total threshold).acceptAll votes).acceptAll more from foldl_append] at linkedLater
  have sound := acceptAll_sound total threshold votes
  have soundLater := sound.acceptAll more
  obtain ⟨totalNow, thresholdNow⟩ := acceptAll_limits (create total threshold) votes
  have thresholdLater := (acceptAll_limits ((create total threshold).acceptAll votes) more).2
  generalize (create total threshold).acceptAll votes = now at *
  obtain ⟨bestPrevote, best⟩ : ∃ bestPrevote, now.tryFindBestPrevote = some bestPrevote := by
    cases best : now.tryFindBestPrevote with
    | none => simp [tryFindEstimate, best] at found
    | some bestPrevote => exact ⟨bestPrevote, rfl⟩
  obtain ⟨bestKnown, bestQuorum, bestLast⟩ := lastMatch_spec best
  have inside := (sound.known_iff bestPrevote).mp bestKnown
  rw [decide_eq_true_iff] at bestQuorum
  have last : ∀ block ∈ now.tree.path bestPrevote, block ≤ bestPrevote := by
    intro block mem
    refine bestLast block (sound.counted.closed _ bestKnown block mem) ?_
    rw [decide_eq_true_iff]
    refine bestQuorum.trans ?_
    rw [prevote_eq within.of_append sound, prevote_eq within.of_append sound]
    exact linked.prevoteWeight_le mem
  obtain ⟨-, holds, -⟩ := lastMatch_spec bestLater
  rw [Bool.and_eq_true, decide_eq_true_iff, decide_eq_true_iff, thresholdLater] at holds
  have self : bestPrevote ∈ now.tree.path bestPrevote := Forest.mem_path_self.mpr inside
  -- both blocks have a quorum of prevotes later, so they are on one path
  have above : bestPrecommit ∈ now.tree.path bestPrevote := by
    have quorum : now.threshold ≤ prevoteWeight (votes ++ more) bestPrecommit := by
      rw [← prevote_eq within soundLater]
      exact holds.1
    have quorum' : now.threshold ≤ prevoteWeight (votes ++ more) bestPrevote := by
      rw [← prevote_eq within soundLater]
      exact bestQuorum.trans (later_prevote_ge within sound bestPrevote)
    have stable : (now.acceptAll more).tree.path bestPrevote = _ := later_path inside
    rw [← stable]
    obtain above | below := linkedLater.comparable within (by rw [thresholdNow]; exact majority)
      quorum quorum'
    · exact above
    · rw [not_below_bestPrevote within sound totalNow completable best found last holds.2 below,
        stable]
      exact self
  have able := canReach_of_later within sound totalNow holds.2
  have known := sound.counted.closed _ bestKnown bestPrecommit above
  rw [tryFindEstimate, best] at found
  obtain ⟨estimateKnown, estimateHolds, greatest⟩ := lastMatch_spec found
  rw [Bool.and_eq_true, FinalizationHashTree.isDescendant, decide_eq_true_iff] at estimateHolds
  have before : bestPrecommit ≤ estimate := greatest bestPrecommit known (by
    rw [Bool.and_eq_true, FinalizationHashTree.isDescendant, decide_eq_true_iff]
    exact ⟨above, able⟩)
  rw [later_path ((sound.known_iff estimate).mp estimateKnown)]
  obtain done | other := Forest.comparable above estimateHolds.1
  · exact done
  · by_cases same : estimate = bestPrecommit
    · rw [same] at other ⊢
      exact other
    · have rises := linked.height_lt inside last above other same
      exact absurd (HeightHashPair.lt_of_height_lt rises) (not_lt.mpr before)

section Voters

variable {V : Type}

/-- Votes of registered voters, each with the weight of its voter and at most one in each stage. -/
structure FromVoters (weight : V → ℕ) (voters : Finset V) (casts : List (V × Vote)) : Prop where
  registered : ∀ cast ∈ casts, cast.1 ∈ voters
  ownWeight : ∀ cast ∈ casts, cast.2.weight = weight cast.1
  prevoteOnce : ((casts.filter fun cast => cast.2.IsPrevote).map fst).Nodup
  precommitOnce : ((casts.filter fun cast => ¬cast.2.IsPrevote).map fst).Nodup

variable {casts : List (V × Vote)} {weight : V → ℕ} {voters : Finset V}

theorem tally_le_sum
    {p : Vote → Prop} [DecidablePred p] (registered : ∀ cast ∈ casts, p cast.2 → cast.1 ∈ voters)
    (ownWeight : ∀ cast ∈ casts, cast.2.weight = weight cast.1)
    (once : ((casts.filter fun cast => p cast.2).map fst).Nodup) :
    tally Vote.weight p (casts.map snd) ≤ ∑ voter ∈ voters, weight voter := by
  classical
  have eq : tally Vote.weight p (casts.map snd) =
      (((casts.filter fun cast => p cast.2).map fst).map weight).sum := by
    clear registered once
    induction casts with
    | nil => rfl
    | cons cast rest ih =>
      have here := ownWeight cast mem_cons_self
      have tail := ih fun other mem => ownWeight other (mem_cons_of_mem cast mem)
      rw [map_cons, tally_cons, tail]
      by_cases holds : p cast.2
      · simp [holds, here]
      · simp [holds]
  rw [eq, ← sum_toFinset weight once]
  refine Finset.sum_le_sum_of_subset fun voter mem => ?_
  obtain ⟨cast, inside, rfl⟩ := mem_map.mp (mem_toFinset.mp mem)
  exact registered cast (mem_of_mem_filter inside) (by simpa using of_mem_filter inside)

theorem FromVoters.withinTotal (fromVoters : FromVoters weight voters casts) (fits : total < 2 ^ 64)
    (bounded : ∑ voter ∈ voters, weight voter ≤ total) :
    WithinTotal total (casts.map snd) := by
  obtain ⟨registered, ownWeight, prevoteOnce, precommitOnce⟩ := fromVoters
  refine ⟨fits, (tally_le_sum (fun cast mem _ => registered cast mem) ownWeight
    prevoteOnce).trans bounded, ?_⟩
  refine le_trans (tally_mono (q := fun vote => ¬vote.IsPrevote) fun vote _ => ?_)
    ((tally_le_sum (fun cast mem _ => registered cast mem) ownWeight precommitOnce).trans bounded)
  cases vote with
  | prevote _ => exact False.elim
  | precommit _ => exact fun _ => id

/-- Safety of a completable round: whatever voters who have not voted yet add, every block that
gets finalized is the estimate or above it. -/
theorem completableRound_safe (weight : V → ℕ) (voters : Finset V) (casts further : List (V × Vote))
    (parent : HeightHashPair → Option HeightHashPair) (start : HeightHashPair)
    (total threshold : ℕ) (fits : total < 2 ^ 64)
    (fromVoters : FromVoters weight voters (casts ++ further))
    (bounded : ∑ voter ∈ voters, weight voter ≤ total) (majority : total < 2 * threshold)
    (consistent : ConsistentWith parent ((casts ++ further).map snd))
    (startAt : StartAt start ((casts ++ further).map snd)) (estimate bestPrecommit : HeightHashPair)
    (completable : ((create total threshold).acceptAll (casts.map snd)).isCompletable = true)
    (found : ((create total threshold).acceptAll (casts.map snd)).tryFindEstimate = some estimate)
    (best : (((create total threshold).acceptAll (casts.map snd)).acceptAll
      (further.map snd)).tryFindBestPrecommit = some bestPrecommit) :
    (((create total threshold).acceptAll (casts.map snd)).acceptAll
      (further.map snd)).isDescendant bestPrecommit estimate = true := by
  have within := fromVoters.withinTotal fits bounded
  rw [map_append] at within consistent startAt
  rw [isDescendant, FinalizationHashTree.isDescendant, decide_eq_true_iff]
  exact bestPrecommit_above_estimate within majority consistent startAt completable found best

/-- Three voters vote for a chain of three blocks, two of them commit to its second and first. -/
def exampleCasts : List (ℕ × Vote) :=
  [(0, .prevote ⟨4, [10, 20, 30], 1, by decide⟩), (1, .prevote ⟨4, [10, 20, 30], 1, by decide⟩),
    (2, .prevote ⟨4, [10, 20, 30], 1, by decide⟩), (0, .precommit ⟨5, 20, 1⟩),
    (1, .precommit ⟨4, 10, 1⟩)]

def exampleFurther : List (ℕ × Vote) := [(2, .precommit ⟨4, 10, 1⟩)]

def exampleChainParent (block : HeightHashPair) : Option HeightHashPair :=
  if block = ⟨5, 20⟩ then some ⟨4, 10⟩ else if block = ⟨6, 30⟩ then some ⟨5, 20⟩ else none

theorem completableRound_safe_chain :
    ((create 3 2).acceptAll (exampleCasts.map snd)).tryFindEstimate = some ⟨5, 20⟩ ∧
      (((create 3 2).acceptAll (exampleCasts.map snd)).acceptAll
        (exampleFurther.map snd)).tryFindBestPrecommit = some ⟨4, 10⟩ ∧
      (((create 3 2).acceptAll (exampleCasts.map snd)).acceptAll
        (exampleFurther.map snd)).isDescendant ⟨4, 10⟩ ⟨5, 20⟩ = true := by
  have chains : branches ((exampleCasts ++ exampleFurther).map snd) =
      replicate 3 [⟨4, 10⟩, ⟨5, 20⟩, ⟨6, 30⟩] := by decide
  have found : ((create 3 2).acceptAll (exampleCasts.map snd)).tryFindEstimate =
      some ⟨5, 20⟩ := by decide +kernel
  have best : (((create 3 2).acceptAll (exampleCasts.map snd)).acceptAll
      (exampleFurther.map snd)).tryFindBestPrecommit = some ⟨4, 10⟩ := by decide +kernel
  refine ⟨found, best, completableRound_safe (fun _ => 1) {0, 1, 2} exampleCasts exampleFurther
    exampleChainParent ⟨4, 10⟩ 3 2 (by decide) ⟨?_, ?_, ?_, ?_⟩ (by decide) (by decide) ?_ ?_ _ _
    (by decide +kernel) found best⟩
  · decide
  · decide
  · decide
  · decide
  · unfold ConsistentWith
    rw [chains]
    decide
  · unfold StartAt
    rw [chains]
    simp

end Voters

end BitxorCore.Finalization
