/- GID: Chain/CompareChainsFinality
   anchors: [src/bitxorcore/chain/CompareChains.cpp]
   digest: When the common block of a comparison cannot be below the finalized height. -/

import BitxorCore.Chain.CompareChainsTermination

set_option autoImplicit false
set_option relaxedAutoImplicit false

namespace BitxorCore.Chain
open CompareChainsContext List Comparison

variable {chain : LocalChain} {remote : RemoteChain} {opts : CompareChainsOptions}
  {context : CompareChainsContext} {requests : ℕ}

/-- The remote answered a request of the comparison with a hash for a height. -/
def Reported (chain : LocalChain) (remote : RemoteChain) (opts : CompareChainsOptions)
    (height : ℕ) (hash : Hash256) : Prop :=
  ∃ steps context requests, compareChains chain remote opts steps = .pending context requests ∧
    context.stage.ComparesHashes ∧ context.startingHashesHeight ≤ height ∧
    (remote.hashes requests)[height - context.startingHashesHeight]? = some hash

/-- A common block is at or above the finalized height, and the remote reported its hash. -/
def Sound (chain : LocalChain) (remote : RemoteChain) (opts : CompareChainsOptions)
    (commonBlockHeight : ℕ) : Prop :=
  opts.finalizedHeight ≤ commonBlockHeight ∧
    ∃ hash, chain.hashes[commonBlockHeight - 1]? = some hash ∧
      Reported chain remote opts commonBlockHeight hash

private theorem getElem?_of_lt_findFirstDifferenceIndex {lhs rhs : List Hash256} {i : ℕ}
    (before : i < findFirstDifferenceIndex lhs rhs) :
    ∃ hash, lhs[i]? = some hash ∧ rhs[i]? = some hash := by
  induction lhs, rhs using findFirstDifferenceIndex.induct generalizing i with
  | case1 lhs lhsRest rhs rhsRest differ =>
    rw [findFirstDifferenceIndex, if_pos differ] at before
    omega
  | case2 lhs lhsRest rhs rhsRest same ih =>
    rw [findFirstDifferenceIndex, if_neg same] at before
    cases i with
    | zero => exact ⟨lhs, rfl, congrArg some (not_not.mp same).symm⟩
    | succ i => exact ih (by omega)
  | case3 lhs rhs empty =>
    rw [findFirstDifferenceIndex.eq_def] at before
    split at before
    · next equal => exact absurd rfl (empty _ _ _ _ rfl)
    · omega

variable {after : CompareChainsContext}

private theorem CompareChainsContext.compareHashes_notSynced {ours theirs : List Hash256}
    (ended : context.compareHashes opts ours theirs = (some .remoteIsNotSynced, after)) :
    let firstDifferenceIndex := findFirstDifferenceIndex ours theirs
    0 < firstDifferenceIndex ∧ firstDifferenceIndex < theirs.length ∧
      theirs.length ≤ opts.hashesPerBatch ∧
      after.commonBlockHeight = context.startingHashesHeight + (firstDifferenceIndex - 1) := by
  have bounded := findFirstDifferenceIndex_le ours theirs
  unfold compareHashes tryContinue at ended
  dsimp only at ended
  split_ifs at ended <;> simp only [Prod.mk.injEq, Option.some.injEq, reduceCtorEq, false_and,
    true_and] at ended
  subst ended
  refine ⟨by omega, by omega, by omega, rfl⟩

private theorem common_reported {ours : List Hash256} {steps : ℕ}
    (running : compareChains chain remote opts steps = .pending context requests)
    (hashing : context.stage.ComparesHashes) (pos : 0 < context.startingHashesHeight)
    (loaded : ours =
      (chain.hashes.drop (context.startingHashesHeight - 1)).take opts.hashesPerBatch)
    (ended : context.compareHashes opts ours (remote.hashes requests) =
      (some .remoteIsNotSynced, after)) :
    context.startingHashesHeight ≤ after.commonBlockHeight ∧
      ∃ hash, chain.hashes[after.commonBlockHeight - 1]? = some hash ∧
        Reported chain remote opts after.commonBlockHeight hash := by
  subst loaded
  obtain ⟨found, -, -, common⟩ := compareHashes_notSynced ended
  obtain ⟨hash, stored, reported⟩ := getElem?_of_lt_findFirstDifferenceIndex
    (Nat.sub_one_lt_of_lt found)
  refine ⟨by omega, hash, ?_, steps, context, requests, running, hashing, by omega, ?_⟩
  · rw [getElem?_take] at stored
    split_ifs at stored
    rw [getElem?_drop] at stored
    rw [← stored, common]
    congr 1
    omega
  · rw [← reported, common]
    congr 1
    omega

/-- A search that stays at or above the finalized height, or is about to fail. Batches of one hash
never end with a common block. -/
structure Above (chain : LocalChain) (opts : CompareChainsOptions)
    (context : CompareChainsContext) : Prop where
  hashing : context.stage.ComparesHashes
  localHeight : context.localHeight = chain.chainHeight
  bounds : 2 ≤ opts.hashesPerBatch → opts.finalizedHeight ≤ context.lowerBoundHeight ∧
      opts.finalizedHeight ≤ context.upperBoundHeight ∧
      (opts.finalizedHeight ≤ context.startingHashesHeight ∨ context.startingHashesHeight = 0)

inductive Safe (chain : LocalChain) (remote : RemoteChain) (opts : CompareChainsOptions) :
    Comparison → Prop
  | opening : Safe chain remote opts (.pending .create 0)
  | searching {context : CompareChainsContext} {requests : ℕ} (above : Above chain opts context) :
    Safe chain remote opts (.pending context requests)
  | deciding {context : CompareChainsContext} {requests : ℕ} (stage : context.stage = .scoreLocal) :
    Safe chain remote opts (.pending context requests)
  | completed {result : CompareChainsResult} {requests : ℕ}
    (sound : result.code = .remoteIsNotSynced → Sound chain remote opts result.commonBlockHeight) :
    Safe chain remote opts (.completed result requests)
  | failed {requests : ℕ} : Safe chain remote opts (.failed requests)

def NeverBelow (chain : LocalChain) (opts : CompareChainsOptions) : Prop :=
  opts.finalizedHeight < chain.chainHeight ∨ opts.finalizedHeight ≤ 1 ∨ opts.hashesPerBatch ≤ 1

section
variable (inside : opts.finalizedHeight ≤ chain.chainHeight) (never : NeverBelow chain opts)
include inside never

private theorem Above.step (above : Above chain opts context) {steps : ℕ}
    (running : compareChains chain remote opts steps = .pending context requests) :
    Safe chain remote opts
      (startNextCompare chain remote opts (.pending context requests)) := by
  cases loaded : chain.hashesFrom context.startingHashesHeight opts.hashesPerBatch with
  | none =>
    rw [startNextCompare_unavailable above.hashing loaded]
    exact .failed
  | some found =>
    obtain ⟨pos, below, batch⟩ := LocalChain.inside_of_hashesFrom loaded
    obtain ⟨ours, taken, length, step⟩ := startNextCompare_hashes chain remote context
      requests above.hashing pos below batch
    have ⟨hashing, localHeight, bounds⟩ := above
    rw [step]
    obtain ⟨code, after, eq⟩ | eq | ⟨-, moved, eq⟩ | ⟨moved, eq⟩ | ⟨-, reached, -, moved, eq⟩ :=
      context.compareHashes_cases opts ours (remote.hashes requests)
    · rw [eq]
      refine .completed fun notSynced => ?_
      rw [code_result] at notSynced
      subst notSynced
      obtain ⟨found, several, within, -⟩ := compareHashes_notSynced eq
      obtain ⟨after_le, reported⟩ := common_reported running hashing pos taken eq
      have final := bounds (by omega)
      exact ⟨le_trans (by omega) after_le, reported⟩
    · rw [eq]
      exact .deciding rfl
    · rw [eq]
      refine .searching ⟨.inr rfl, localHeight, fun several => ?_⟩
      have := bounds several
      dsimp only
      omega
    · rw [eq]
      refine .searching ⟨.inr rfl, localHeight, fun several => ?_⟩
      have := bounds several
      dsimp only
      omega
    · rw [eq]
      refine .searching ⟨.inr rfl, localHeight, fun several => ?_⟩
      have := bounds several
      dsimp only
      unfold NeverBelow at never
      omega

private theorem Safe.step {steps : ℕ}
    (safe : Safe chain remote opts (compareChains chain remote opts steps)) :
    Safe chain remote opts (compareChains chain remote opts (steps + 1)) := by
  rw [compareChains, Function.iterate_succ_apply', ← compareChains]
  cases state : compareChains chain remote opts steps with
  | failed => exact .failed
  | completed result requests =>
    rw [state] at safe
    exact safe
  | pending context requests =>
    rw [state] at safe
    cases safe with
    | opening =>
      obtain ⟨-, result, decided, eq⟩ | ⟨-, -, eq⟩ := startNextCompare_create chain remote opts
      · rw [eq]
        exact .completed fun notSynced => absurd notSynced decided
      · rw [eq]
        exact .searching ⟨.inl rfl, rfl, fun _ => ⟨le_rfl, inside, .inl le_rfl⟩⟩
    | searching above => exact above.step inside never state
    | deciding stage =>
      simp only [startNextCompare, stage, compareLocalScore]
      split_ifs <;> exact .completed fun notSynced => absurd notSynced (by simp)

variable (remote) in
private theorem compareChains_safe (steps : ℕ) :
    Safe chain remote opts (compareChains chain remote opts steps) := by
  induction steps with
  | zero => exact .opening
  | succ steps ih => exact ih.step inside never

end

/-- The remote agrees with the last block, and then only with the block before it. -/
def retraction (chain : LocalChain) (prev last : Hash256) : RemoteChain where
  chainStatistics := ⟨chain.score + 1, chain.chainHeight + 1⟩
  hashes request := if request = 0 then [last] else [prev, otherHash last]

section Retraction

variable {rest : List Hash256} {prev last : Hash256}

/-- The context after the last block was found to be common: the start is below the bounds. -/
def retracted (chain : LocalChain) (opts : CompareChainsOptions) : CompareChainsContext :=
  ⟨.hashesNext, opts.finalizedHeight, chain.chainHeight, opts.finalizedHeight - 1,
    chain.score, chain.chainHeight, chain.chainHeight + 1, 0⟩

private theorem exists_eq_append_pair (two : 2 ≤ chain.chainHeight) :
    ∃ rest prev last, chain.hashes = rest ++ [prev, last] := by
  rw [LocalChain.chainHeight, ← length_reverse] at two
  obtain ⟨last, tail, reversed⟩ := exists_cons_of_length_pos (Nat.zero_lt_of_lt two)
  rw [reversed, length_cons] at two
  obtain ⟨prev, rest, rfl⟩ := exists_cons_of_length_pos (Nat.lt_of_succ_lt_succ two)
  refine ⟨rest.reverse, prev, last, ?_⟩
  rw [← reverse_reverse chain.hashes, reversed]
  simp

section
variable (hashes : chain.hashes = rest ++ [prev, last])
include hashes

private theorem chainHeight_eq : chain.chainHeight = rest.length + 2 := by
  rw [LocalChain.chainHeight, hashes, length_append]
  rfl

section
variable (final : opts.finalizedHeight = chain.chainHeight)
include final

private theorem retraction_opened (batch : 0 < opts.hashesPerBatch) :
    startNextCompare chain (retraction chain prev last) opts
        (.pending (.opened chain (retraction chain prev last).chainStatistics opts) 0) =
      .pending (retracted chain opts) 1 := by
  have height := chainHeight_eq hashes
  have available : (chain.hashes.drop (opts.finalizedHeight - 1)).take opts.hashesPerBatch =
      [last] := by
    have index : opts.finalizedHeight - 1 = rest.length + 1 := by omega
    rw [hashes, index, drop_append, drop_of_length_le (Nat.le_succ _),
      Nat.add_sub_cancel_left, nil_append]
    exact take_of_length_le batch
  have agree : findFirstDifferenceIndex [last] [last] = 1 := by simp [findFirstDifferenceIndex]
  have moved : opts.finalizedHeight ≠ opts.finalizedHeight - 1 := by omega
  let context := opened chain (retraction chain prev last).chainStatistics
    opts
  have jump : context.compareHashes opts [last] [last] = (none, retracted chain opts) :=
    compareHashes_jump ⟨Nat.one_pos, batch⟩ agree final.ge
      (final.trans_lt (Nat.lt_succ_self _)) moved
  obtain ⟨_, rfl, -, step⟩ := startNextCompare_hashes chain (retraction chain prev last)
    context 0 (.inl rfl) (show 0 < opts.finalizedHeight by omega) final.le batch
  have answer : (retraction chain prev last).hashes 0 = [last] := rfl
  rw [step, answer]
  change dispatch (context.compareHashes opts ((chain.hashes.drop
    (opts.finalizedHeight - 1)).take opts.hashesPerBatch) [last]) 1 = _
  rw [available, jump]
  rfl

private theorem retraction_retracted (batch : 2 ≤ opts.hashesPerBatch) :
    startNextCompare chain (retraction chain prev last) opts
        (.pending (retracted chain opts) 1) =
      .completed ⟨.remoteIsNotSynced, opts.finalizedHeight - 1, 1⟩ 2 := by
  have height := chainHeight_eq hashes
  have available : (chain.hashes.drop (opts.finalizedHeight - 1 - 1)).take
      opts.hashesPerBatch = [prev, last] := by
    have index : opts.finalizedHeight - 1 - 1 = rest.length := by omega
    rw [hashes, index, drop_left]
    exact take_of_length_le batch
  have disagree : findFirstDifferenceIndex [prev, last] [prev, otherHash last] = 1 := by
    simp [findFirstDifferenceIndex, otherHash_ne]
  have ends : (retracted chain opts).compareHashes opts [prev, last]
      [prev, otherHash last] = _ :=
    compareHashes_common ⟨Nat.two_pos, batch⟩ (disagree ▸ Nat.one_pos)
      (disagree ▸ Nat.one_lt_two.ne)
  obtain ⟨_, rfl, -, step⟩ := startNextCompare_hashes chain (retraction chain prev last)
    (retracted chain opts) 1 (.inr rfl) (show 0 < opts.finalizedHeight - 1 by omega)
    (show opts.finalizedHeight - 1 ≤ chain.chainHeight by omega) (Nat.zero_lt_of_lt batch)
  have answer : (retraction chain prev last).hashes 1 = [prev, otherHash last] := rfl
  rw [step, answer]
  change dispatch ((retracted chain opts).compareHashes opts ((chain.hashes.drop
    (opts.finalizedHeight - 1 - 1)).take opts.hashesPerBatch) _) 2 = _
  rw [available, ends, disagree]
  simp only [dispatch, result, localHeightDerivedFromHashes, retracted, if_true, length_cons,
    length_nil]
  congr 2
  omega

private theorem retraction_common (batch : 2 ≤ opts.hashesPerBatch) :
    compareChains chain (retraction chain prev last) opts 3 =
      .completed ⟨.remoteIsNotSynced, opts.finalizedHeight - 1, 1⟩ 2 := by
  obtain ⟨decided, -⟩ | ⟨-, -, first⟩ :=
    startNextCompare_create chain (retraction chain prev last) opts
  · exact absurd ⟨final ▸ Nat.lt_succ_self _, Nat.lt_succ_self _⟩ decided
  rw [compareChains, Function.iterate_succ_apply, Function.iterate_succ_apply,
    Function.iterate_one, first, retraction_opened hashes final (by omega),
    retraction_retracted hashes final batch]

end

end

end Retraction

/-- Whatever the remote does, a common block is final and reported by the remote, unless the local
chain is final up to its end and batches can show a difference there. -/
theorem compareChains_sound_iff (inside : opts.finalizedHeight ≤ chain.chainHeight) :
    (∀ (remote : RemoteChain) (steps : ℕ) (result : CompareChainsResult) (requests : ℕ),
      compareChains chain remote opts steps = .completed result requests →
      result.code = .remoteIsNotSynced → Sound chain remote opts result.commonBlockHeight) ↔
      ¬(opts.finalizedHeight = chain.chainHeight ∧ 2 ≤ opts.finalizedHeight ∧
        2 ≤ opts.hashesPerBatch) := by
  constructor
  · rintro sound ⟨final, two, batch⟩
    obtain ⟨rest, prev, last, hashes⟩ := exists_eq_append_pair (final ▸ two)
    have common := sound _ 3 _ 2 (retraction_common hashes final batch) rfl
    have := common.1
    dsimp only at this
    omega
  · intro never remote steps result requests completed
    have safe := compareChains_safe remote inside
      (by unfold NeverBelow; omega : NeverBelow chain opts) steps
    rw [completed] at safe
    cases safe with
    | completed sound => exact sound

theorem compareChains_sound_three :
    let chain : LocalChain := ⟨[10, 20, 30], 5⟩
    let remote : RemoteChain := ⟨⟨6, 3⟩, fun _ => [10, 99]⟩
    let opts : CompareChainsOptions := ⟨2, 1⟩
    compareChains chain remote opts 2 = .completed ⟨.remoteIsNotSynced, 1, 2⟩ 1 ∧
      Sound chain remote opts 1 := by
  intro chain remote opts
  have completed : compareChains chain remote opts 2 =
      .completed ⟨.remoteIsNotSynced, 1, 2⟩ 1 := rfl
  have inside : opts.finalizedHeight ≤ chain.chainHeight := by decide
  exact ⟨completed, (compareChains_sound_iff inside).mpr (by decide) remote 2 _ 1 completed rfl⟩

/-- Both blocks of the local chain are final; the remote leads the comparison to the first. -/
theorem compareChains_not_sound_two :
    let chain : LocalChain := ⟨[10, 20], 5⟩
    let remote : RemoteChain := ⟨⟨6, 3⟩, fun request => if request = 0 then [20] else [10, 99]⟩
    let opts : CompareChainsOptions := ⟨2, 2⟩
    opts.finalizedHeight ≤ chain.chainHeight ∧
      compareChains chain remote opts 3 = .completed ⟨.remoteIsNotSynced, 1, 1⟩ 2 ∧
      ¬Sound chain remote opts 1 := by
  refine ⟨by decide, rfl, fun sound => ?_⟩
  exact absurd sound.1 (by decide)

end BitxorCore.Chain
