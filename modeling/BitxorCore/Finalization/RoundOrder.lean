/- GID: Finalization/RoundOrder
   anchors: [extensions/finalization/src/chain/RoundContext.cpp]
   digest: Votes count the same in every order iff no chain starts inside another one. -/

import BitxorCore.Finalization.RoundTally

set_option autoImplicit false
set_option relaxedAutoImplicit false

namespace BitxorCore.Finalization
open Library Library.FiniteMap Library.Tally Library.ParentForest Model RoundContext List Forest

/-- All prevote chains lie in one tree of blocks, in which every block has at most one parent. -/
def ConsistentWith (parent : HeightHashPair → Option HeightHashPair) (votes : List Vote) : Prop :=
  ∀ blocks ∈ branches votes, blocks.IsChain fun above block => parent block = some above

/-- No prevote chain starts at a block that some chain has behind its first block. -/
def NoChainStartsInside (votes : List Vote) : Prop :=
  ∀ blocks ∈ branches votes, ∀ others ∈ branches votes, ∀ start ∈ blocks.head?, start ∉ others.tail

structure SameOutcome (first second : RoundContext) : Prop where
  weights : ∀ key, first.weights key = second.weights key
  isDescendant : ∀ parentKey childKey,
    first.isDescendant parentKey childKey = second.isDescendant parentKey childKey
  bestPrevote : first.tryFindBestPrevote = second.tryFindBestPrevote
  bestPrecommit : first.tryFindBestPrecommit = second.tryFindBestPrecommit
  estimate : first.tryFindEstimate = second.tryFindEstimate
  completable : first.isCompletable = second.isCompletable

variable {parent : HeightHashPair → Option HeightHashPair} {votes order other : List Vote}

variable {blocks : List HeightHashPair}

private theorem mem_branches_perm (perm : order.Perm votes) :
    blocks ∈ branches order ↔ blocks ∈ branches votes :=
  (perm.filterMap _).mem_iff

/-- The parents in the tree: the first block of a chain has none. -/
def expectedParent (parent : HeightHashPair → Option HeightHashPair) (votes : List Vote)
    (key : HeightHashPair) : Option HeightHashPair :=
  if (branches votes).any fun blocks => blocks.head? == some key then none else parent key

theorem follows_expectedParent (consistent : ConsistentWith parent votes)
    (starts : NoChainStartsInside votes) (mem : blocks ∈ branches votes) :
    Forest.Follows (expectedParent parent votes) none blocks := by
  have linked := consistent blocks mem
  cases blocks with
  | nil => trivial
  | cons start rest =>
    refine ⟨if_pos (any_eq_true.mpr ⟨_, mem, by simp⟩), ?_⟩
    -- the blocks behind the first one keep the parents of the block tree
    have tail : ∀ block ∈ rest, expectedParent parent votes block = parent block := by
      intro block behind
      refine if_neg fun heads => ?_
      obtain ⟨blocks, chain, head⟩ := any_eq_true.mp heads
      exact starts blocks chain (start :: rest) mem block (by simpa using head) behind
    clear mem
    induction rest generalizing start with
    | nil => trivial
    | cons next rest ih =>
      obtain ⟨step, linked⟩ := isChain_cons_cons.mp linked
      refine ⟨(tail next mem_cons_self).trans step, ih next linked fun block behind => ?_⟩
      exact tail block (mem_cons_of_mem next behind)

variable {chains : List (List HeightHashPair)} {key : HeightHashPair} {tree : FinalizationHashTree}

private theorem mem_foldl_addBranch :
    key ∈ chains.foldl addBranch tree ↔ key ∈ tree ∨ ∃ blocks ∈ chains, key ∈ blocks := by
  induction chains generalizing tree with
  | nil => simp
  | cons blocks rest ih =>
    rw [foldl_cons, ih, mem_addBranch]
    simp [or_assoc]

theorem path_foldl_addBranch
    (inside : key ∈ tree) : (chains.foldl addBranch tree).path key = tree.path key := by
  induction chains generalizing tree with
  | nil => rfl
  | cons blocks rest ih =>
    rw [foldl_cons, ih (mem_addBranch.mpr (.inl inside)), path_addBranch inside]

variable {expected : HeightHashPair → Option HeightHashPair}

theorem obeys_foldl_addBranch (obeys : Forest.Obeys tree expected)
    (follows : ∀ blocks ∈ chains, Forest.Follows expected none blocks) :
    Forest.Obeys (chains.foldl addBranch tree) expected := by
  induction chains generalizing tree with
  | nil => exact obeys
  | cons blocks rest ih =>
    refine ih (obeys.addBranch (follows blocks mem_cons_self)) ?_
    exact fun blocks mem => follows blocks (mem_cons_of_mem _ mem)

variable (total threshold : ℕ)

theorem mem_tree_iff : key ∈ ((create total threshold).acceptAll votes).tree ↔
      ∃ blocks ∈ branches votes, key ∈ blocks := by
  rw [acceptAll_tree, mem_foldl_addBranch]
  exact ⟨fun either => either.resolve_left not_mem_empty, .inr⟩

private theorem obeys_acceptAll
    (follows : ∀ blocks ∈ branches votes, Forest.Follows expected none blocks)
    (perm : order.Perm votes) :
    Forest.Obeys ((create total threshold).acceptAll order).tree expected := by
  rw [acceptAll_tree]
  exact obeys_foldl_addBranch obeys_empty fun blocks mem =>
    follows blocks ((mem_branches_perm perm).mp mem)

private theorem sameOutcome_of_paths {first second : RoundContext} (firstSound : Sound order first)
    (secondSound : Sound other second) (perm : order.Perm other)
    (totalWeight : first.totalWeight = second.totalWeight)
    (thresholds : first.threshold = second.threshold)
    (mems : ∀ key, key ∈ first.tree ↔ key ∈ second.tree)
    (paths : ∀ key, first.tree.path key = second.tree.path key) :
    SameOutcome first second := by
  have knowns (key : HeightHashPair) : first.Known key ↔ second.Known key := by
    rw [firstSound.known_iff, mems, ← secondSound.known_iff]
  have weights (key : HeightHashPair) : first.weights key = second.weights key := by
    have prevotes : (first.weights key).prevote = (second.weights key).prevote := by
      rw [firstSound.counted.prevote, secondSound.counted.prevote, prevoteWeight, tally_perm perm]
      rfl
    have precommits : (first.weights key).precommit = (second.weights key).precommit := by
      rw [firstSound.counted.precommit, secondSound.counted.precommit, precommitWeight,
        tally_perm perm]
      refine congrArg (· % 2 ^ 64) (precommitWeight_congr fun block => ?_)
      rw [knowns, paths]
    exact Weights.ext prevotes precommits
  have cumulative : first.cumulativePrecommitWeight = second.cumulativePrecommitWeight := by
    rw [firstSound.counted.cumulative, secondSound.counted.cumulative, precommitWeight,
      tally_perm perm]
    exact congrArg (· % 2 ^ 64) (precommitWeight_congr knowns)
  have candidates : first.candidates = second.candidates := by
    refine OrderedMap.ext_lookup fun key => ?_
    by_cases known : first.Known key
    · rw [lookup_of_known known, lookup_of_known ((knowns key).mp known), weights]
    · rw [Option.not_isSome_iff_eq_none.mp known,
        Option.not_isSome_iff_eq_none.mp ((knowns key).not.mp known)]
  -- every query reads these fields and paths of the tree
  have descendants : FinalizationHashTree.isDescendant first.tree =
      FinalizationHashTree.isDescendant second.tree := by
    funext parentKey childKey
    rw [FinalizationHashTree.isDescendant, FinalizationHashTree.findAncestors, paths]
    rfl
  have canReach : first.canReachPrecommitThreshold = second.canReachPrecommitThreshold := by
    funext weights
    rw [canReachPrecommitThreshold, canReachPrecommitThreshold, thresholds, totalWeight, cumulative]
  have bestPrevote : first.tryFindBestPrevote = second.tryFindBestPrevote := by
      simp [tryFindBestPrevote, tryFindLastMatch, candidates, thresholds]
  have estimateFrom : first.tryFindEstimateFrom = second.tryFindEstimateFrom := by
    funext bestPrevote
    rw [tryFindEstimateFrom, tryFindEstimateFrom, tryFindLastMatch, tryFindLastMatch, candidates,
      descendants, canReach]
  refine ⟨weights, fun parentKey childKey => ?_, bestPrevote, ?_, ?_, ?_⟩
  · rw [isDescendant, isDescendant, descendants]
  · simp [tryFindBestPrecommit, tryFindLastMatch, candidates, thresholds]
  · rw [tryFindEstimate, tryFindEstimate, bestPrevote, estimateFrom]
  · simp only [isCompletable, bestPrevote, estimateFrom, canReach, noDescendantCanReach, candidates,
      descendants]

theorem sameOutcome_of_follows
    (follows : ∀ blocks ∈ branches votes, Forest.Follows expected none blocks)
    (perm : order.Perm votes) (otherPerm : other.Perm votes) :
    SameOutcome ((create total threshold).acceptAll order)
      ((create total threshold).acceptAll other) := by
  have mems (key : HeightHashPair) : key ∈ ((create total threshold).acceptAll order).tree ↔
        key ∈ ((create total threshold).acceptAll other).tree := by
    simp only [mem_tree_iff, mem_branches_perm perm, mem_branches_perm otherPerm]
  obtain ⟨totalWeight, limit⟩ := acceptAll_limits (create total threshold) order
  obtain ⟨totalWeight', limit'⟩ := acceptAll_limits (create total threshold) other
  refine sameOutcome_of_paths (acceptAll_sound _ _ order) (acceptAll_sound _ _ other)
    (perm.trans otherPerm.symm) (totalWeight.trans totalWeight'.symm) (limit.trans limit'.symm)
    mems ?_
  exact (obeys_acceptAll total threshold follows perm).path_eq
    (obeys_acceptAll total threshold follows otherPerm) mems

private theorem path_acceptAll_cons (prevote : Prevote) (rest : List Vote)
    (mem : key ∈ prevote.blocks) :
    ((create total threshold).acceptAll (.prevote prevote :: rest)).tree.path key =
      (addBranch empty prevote.blocks).path key := by
  rw [acceptAll_tree]
  exact path_foldl_addBranch (mem_addBranch.mpr (.inr mem))

private theorem not_sameOutcome {first second : Prevote} {start above : HeightHashPair}
    {tail before after : List HeightHashPair} (starts : first.blocks = start :: tail)
    (inside : second.blocks = before ++ above :: start :: after) (rest rest' : List Vote) :
    ¬SameOutcome ((create total threshold).acceptAll (.prevote first :: rest))
      ((create total threshold).acceptAll (.prevote second :: rest')) := by
  intro same
  have differ : above ≠ start := by
    rintro rfl
    have distinct := second.nodup_blocks
    simp [inside, nodup_append] at distinct
  have descends := same.isDescendant above start
  rw [isDescendant, isDescendant, FinalizationHashTree.isDescendant,
    FinalizationHashTree.isDescendant, decide_eq_decide, FinalizationHashTree.findAncestors,
    FinalizationHashTree.findAncestors,
    path_acceptAll_cons total threshold first rest (by simp [starts]),
    path_acceptAll_cons total threshold second rest' (by simp [inside])] at descends
  have alone : above ∉ (addBranch empty first.blocks).path start := by
    intro mem
    rw [starts] at mem
    have located : above = start ∨ above ∈ empty ∨ above ∈ [] := mem_path_addBranch mem
    simp [differ, not_mem_empty] at located
  have below : above ∈ (addBranch empty second.blocks).path start := by
    have distinct := second.nodup_blocks
    rw [inside]
    refine prev_mem_path_addBranch not_mem_empty fun early => ?_
    have joined : before ++ above :: start :: after = (before ++ [above]) ++ start :: after := by
      simp
    rw [inside, joined, nodup_append] at distinct
    exact distinct.2.2 start early start mem_cons_self rfl
  exact alone (descends.mpr below)

private theorem exists_not_sameOutcome (inside : ¬NoChainStartsInside votes) :
    ∃ order other : List Vote, order.Perm votes ∧ other.Perm votes ∧
      ¬SameOutcome ((create total threshold).acceptAll order)
        ((create total threshold).acceptAll other) := by
  unfold NoChainStartsInside at inside
  push Not at inside
  obtain ⟨blocks, mem, others, otherMem, start, head, behind⟩ := inside
  -- the two chains, each moved to the front
  have front {blocks : List HeightHashPair} (mem : blocks ∈ branches votes) :
      ∃ prevote rest, prevote.blocks = blocks ∧ (Vote.prevote prevote :: rest).Perm votes := by
    obtain ⟨vote, mem, eq⟩ := mem_filterMap.mp mem
    cases vote with
    | precommit _ => exact absurd eq nofun
    | prevote prevote =>
      obtain ⟨before, after, rfl⟩ := append_of_mem mem
      exact ⟨prevote, before ++ after, Option.some.inj eq, perm_middle.symm⟩
  obtain ⟨first, rest, rfl, perm⟩ := front mem
  obtain ⟨second, rest', rfl, perm'⟩ := front otherMem
  obtain ⟨tail, starts⟩ : ∃ tail, first.blocks = start :: tail := by
    cases blocks : first.blocks with
    | nil => simp [blocks] at head
    | cons top tail => exact ⟨tail, by simpa [blocks] using head⟩
  obtain ⟨before, above, after, split⟩ : ∃ before above after,
      second.blocks = before ++ above :: start :: after := by
    cases blocks : second.blocks with
    | nil => simp [blocks] at behind
    | cons top tail =>
      rw [blocks, tail_cons] at behind
      obtain ⟨before, after, rfl⟩ := append_of_mem behind
      obtain ⟨init, last, eq⟩ : ∃ init last, top :: before = init ++ [last] :=
        ⟨(top :: before).dropLast, (top :: before).getLast (by simp),
          (dropLast_append_getLast (by simp)).symm⟩
      refine ⟨init, last, after, ?_⟩
      rw [← cons_append, eq, append_assoc]
      rfl
  exact ⟨_, _, perm, perm', not_sameOutcome total threshold starts split rest rest'⟩

/-- Vote counting is independent of the order of the votes exactly when no prevote chain starts
inside another one. -/
theorem voteCounting_orderIndependent_iff (votes : List Vote)
    (parent : HeightHashPair → Option HeightHashPair) (consistent : ConsistentWith parent votes) :
    (∀ order other : List Vote, order.Perm votes → other.Perm votes →
      SameOutcome ((create total threshold).acceptAll order)
        ((create total threshold).acceptAll other)) ↔ NoChainStartsInside votes := by
  constructor
  · intro same
    by_contra inside
    obtain ⟨order, other, perm, otherPerm, differ⟩ := exists_not_sameOutcome total threshold inside
    exact differ (same order other perm otherPerm)
  · intro starts order other perm otherPerm
    exact sameOutcome_of_follows total threshold
      (fun blocks => follows_expectedParent consistent starts) perm otherPerm

/-- Two voters vote for the blocks at heights four and five, one for the second block only; one
precommit is for each block. -/
def exampleVotes : List Vote :=
  [.prevote ⟨5, [20], 1, by decide⟩, .prevote ⟨4, [10, 20], 1, by decide⟩,
    .prevote ⟨4, [10, 20], 1, by decide⟩, .precommit ⟨4, 10, 1⟩, .precommit ⟨5, 20, 1⟩]

def exampleOrder : List Vote :=
  [.prevote ⟨4, [10, 20], 1, by decide⟩, .prevote ⟨5, [20], 1, by decide⟩,
    .prevote ⟨4, [10, 20], 1, by decide⟩, .precommit ⟨4, 10, 1⟩, .precommit ⟨5, 20, 1⟩]

def exampleParent (block : HeightHashPair) : Option HeightHashPair :=
  if block = ⟨5, 20⟩ then some ⟨4, 10⟩ else none

/-- With the short chain first the precommit for its block does not count for the block above. -/
theorem voteCounting_dependsOnOrder :
    ConsistentWith exampleParent exampleVotes ∧ exampleOrder.Perm exampleVotes ∧
      ((create 3 2).acceptAll exampleVotes).tryFindBestPrecommit = none ∧
      ((create 3 2).acceptAll exampleOrder).tryFindBestPrecommit = some ⟨4, 10⟩ := by
  refine ⟨?_, List.Perm.swap _ _ _, by decide +kernel, by decide +kernel⟩
  intro blocks mem
  simp [branches, exampleVotes, Prevote.blocks, blocksFrom] at mem
  obtain rfl | rfl := mem <;> decide

def exampleForks : List Vote :=
  [.prevote ⟨5, [20, 30], 1, by decide⟩, .precommit ⟨6, 31, 1⟩,
    .prevote ⟨5, [20, 31], 1, by decide⟩]

theorem voteCounting_orderIndependent_forks : NoChainStartsInside exampleForks ∧
      SameOutcome ((create 2 1).acceptAll exampleForks)
        ((create 2 1).acceptAll exampleForks.reverse) := by
  have forks : branches exampleForks = [[⟨5, 20⟩, ⟨6, 30⟩], [⟨5, 20⟩, ⟨6, 31⟩]] := by
    simp [branches, exampleForks, Prevote.blocks, blocksFrom]
  have starts : NoChainStartsInside exampleForks := by
    unfold NoChainStartsInside
    rw [forks]
    simp
  have consistent : ConsistentWith (fun _ => some ⟨5, 20⟩) exampleForks := by
    unfold ConsistentWith
    rw [forks]
    simp
  refine ⟨starts, ?_⟩
  exact (voteCounting_orderIndependent_iff 2 1 exampleForks _ consistent).mpr starts _ _
    (List.Perm.refl _) (reverse_perm _)

end BitxorCore.Finalization
