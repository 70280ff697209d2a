/- GID: Chain/CompareChainsForkPoint
   anchors: [src/bitxorcore/chain/CompareChains.cpp]
   digest: When a comparison with an honest remote finds the last block common to both chains. -/

import BitxorCore.Chain.CompareChainsTermination
import Mathlib.Tactic.IntervalCases

set_option autoImplicit false
set_option relaxedAutoImplicit false

namespace BitxorCore.Chain
open Library.Halting Comparison CompareChainsContext

variable {chain : LocalChain} {blocks : List Hash256} {remote : RemoteChain}
  {options : CompareChainsOptions} {ctx : CompareChainsContext} {requests commonHeight : ℕ}

/-- Two chains have the same blocks up to a height and different ones above it, as each block names
the one before. -/
structure Forked (lhs rhs : List Hash256) (commonHeight : ℕ) : Prop where
  same : ∀ i < commonHeight, ∃ hash, lhs[i]? = some hash ∧ rhs[i]? = some hash
  differ : ∀ i ≥ commonHeight, ∀ a b, lhs[i]? = some a → rhs[i]? = some b → a ≠ b

variable {lhs rhs : List Hash256}

private theorem forked_of_getElem?
    (same : ∀ i < commonHeight, lhs[i]?.isSome ∧ lhs[i]? = rhs[i]?)
    (differ : ∀ i < lhs.length, commonHeight ≤ i → lhs[i]? ≠ rhs[i]?) :
    Forked lhs rhs commonHeight := by
  refine ⟨fun i less => ?_, fun i above a b left right equal => ?_⟩
  · grind
  · subst equal
    exact differ i (List.getElem?_eq_some_iff.mp left).1 above (left.trans right.symm)

private theorem Forked.le_length (forked : Forked lhs rhs commonHeight) :
    commonHeight ≤ lhs.length ∧ commonHeight ≤ rhs.length := by
  cases commonHeight with
  | zero => exact ⟨Nat.zero_le _, Nat.zero_le _⟩
  | succ height =>
    obtain ⟨hash, left, right⟩ := forked.same height (Nat.lt_succ_self _)
    exact ⟨(List.getElem?_eq_some_iff.mp left).1, (List.getElem?_eq_some_iff.mp right).1⟩

private theorem findFirstDifferenceIndex_eq {n : ℕ}
    (same : ∀ i < n, ∃ hash, lhs[i]? = some hash ∧ rhs[i]? = some hash)
    (differ : ∀ a b, lhs[n]? = some a → rhs[n]? = some b → a ≠ b) :
    findFirstDifferenceIndex lhs rhs = n := by
  induction n generalizing lhs rhs with
  | zero =>
    cases lhs with
    | nil => rfl
    | cons a lhs =>
      cases rhs with
      | nil => rfl
      | cons b rhs => exact if_pos (differ a b rfl rfl)
  | succ n ih =>
    obtain ⟨hash, left, right⟩ := same 0 (Nat.zero_lt_succ n)
    cases lhs with
    | nil => exact absurd left.symm (Option.some_ne_none _)
    | cons a lhs =>
      cases rhs with
      | nil => exact absurd right.symm (Option.some_ne_none _)
      | cons b rhs =>
        have equal : a = b := Option.some.inj (left.trans right.symm)
        rw [findFirstDifferenceIndex, if_neg (not_not.mpr equal),
          ih (fun i less => same (i + 1) (Nat.succ_lt_succ less)) differ]

private theorem Forked.findFirstDifferenceIndex_batch
    (forked : Forked lhs rhs commonHeight) {start : ℕ} (positive : 0 < start) (batch : ℕ) :
    findFirstDifferenceIndex ((lhs.drop (start - 1)).take batch)
      ((rhs.drop (start - 1)).take batch) = min batch (commonHeight + 1 - start) := by
  refine findFirstDifferenceIndex_eq (fun i less => ?_) (fun a b left right => ?_)
  · rw [List.getElem?_take_of_lt (by omega), List.getElem?_take_of_lt (by omega),
      List.getElem?_drop, List.getElem?_drop]
    exact forked.same _ (by omega)
  · rw [List.getElem?_take] at left right
    split_ifs at left with within
    rw [if_pos within] at right
    rw [List.getElem?_drop] at left right
    exact forked.differ _ (by omega) a b left right

/-- The remote answers each request of the comparison with a full batch, up to its height. -/
structure Honest (chain : LocalChain) (blocks : List Hash256) (remote : RemoteChain)
    (options : CompareChainsOptions) : Prop where
  height : remote.chainStatistics.height = blocks.length
  answers : ∀ steps ctx requests, compareChains chain remote options steps = .pending ctx requests →
    ctx.stage.ComparesHashes → remote.hashes requests =
      (blocks.drop (ctx.startingHashesHeight - 1)).take options.hashesPerBatch

def ascent (finalizedHeight localHeight : ℕ) : ℕ → ℕ
  | 0 => finalizedHeight
  | k + 1 => (ascent finalizedHeight localHeight k + localHeight) / 2

section Steps

/-- The comparison finds the common block and the depth of the fork. -/
abbrev Finds (chain : LocalChain) (remote : RemoteChain) (options : CompareChainsOptions)
    (commonHeight : ℕ) (state : Comparison) : Prop :=
  Halts (startNextCompare chain remote options)
    (fun state => ∃ requests, state = .completed ⟨.remoteIsNotSynced, commonHeight,
      chain.chainHeight - commonHeight⟩ requests) state

private theorem running_next {state after : Comparison}
    (running : ∃ steps, compareChains chain remote options steps = state)
    (step : startNextCompare chain remote options state = after) :
    ∃ steps, compareChains chain remote options steps = after := by
  obtain ⟨steps, rfl⟩ := running
  exact ⟨steps + 1, (Function.iterate_succ_apply' _ _ _).trans step⟩

structure Asking (chain : LocalChain) (blocks : List Hash256) (remote : RemoteChain)
    (options : CompareChainsOptions) (ctx : CompareChainsContext) (requests : ℕ) : Prop where
  running : ∃ steps, compareChains chain remote options steps = .pending ctx requests
  hashing : ctx.stage.ComparesHashes
  localHeight : ctx.localHeight = chain.chainHeight
  remoteHeight : ctx.remoteHeight = blocks.length
  positive : 0 < ctx.startingHashesHeight
  inside : ctx.startingHashesHeight ≤ chain.chainHeight

private theorem Asking.step (asking : Asking chain blocks remote options ctx requests)
    (forked : Forked chain.hashes blocks commonHeight)
    (honest : Honest chain blocks remote options) (batch : 0 < options.hashesPerBatch) :
    ∃ ours theirs, findFirstDifferenceIndex ours theirs =
        min options.hashesPerBatch (commonHeight + 1 - ctx.startingHashesHeight) ∧
      ours.length = min options.hashesPerBatch (chain.chainHeight + 1 - ctx.startingHashesHeight) ∧
      theirs.length = min options.hashesPerBatch (blocks.length + 1 - ctx.startingHashesHeight) ∧
      startNextCompare chain remote options (.pending ctx requests) =
        .dispatch (ctx.compareHashes options ours theirs) (requests + 1) := by
  obtain ⟨⟨steps, running⟩, hashing, -, -, positive, inside⟩ := asking
  obtain ⟨ours, rfl, length, step⟩ :=
    startNextCompare_hashes chain remote ctx requests hashing positive inside batch
  refine ⟨_, _, ?_, ?_, ?_, step⟩
  · rw [honest.answers steps ctx requests running hashing]
    exact forked.findFirstDifferenceIndex_batch positive _
  · rw [length]
    omega
  · rw [honest.answers steps ctx requests running hashing, List.length_take, List.length_drop]
    omega

variable (asking : Asking chain blocks remote options ctx requests)
  (forked : Forked chain.hashes blocks commonHeight) (honest : Honest chain blocks remote options)
  (batch : 3 ≤ options.hashesPerBatch) (longer : commonHeight < blocks.length)

include asking forked honest batch

private theorem Asking.beyond (above : blocks.length < ctx.startingHashesHeight) :
    ∃ result, result.code = .remoteReturnedTooManyHashes ∧
      startNextCompare chain remote options (.pending ctx requests) =
        .completed result (requests + 1) := by
  obtain ⟨ours, theirs, -, -, length, step⟩ := asking.step forked honest (by omega)
  have empty : options.hashesPerBatch < theirs.length ∨ theirs.length = 0 := by omega
  rw [step, compareHashes, if_pos empty]
  exact ⟨_, by simp, rfl⟩

private theorem Asking.back (fork : commonHeight < ctx.startingHashesHeight)
    (available : ctx.startingHashesHeight ≤ blocks.length) (next : ctx.stage = .hashesNext)
    (lower : ctx.lowerBoundHeight < ctx.startingHashesHeight) :
    startNextCompare chain remote options (.pending ctx requests) = .pending { ctx with
        upperBoundHeight := ctx.startingHashesHeight
        startingHashesHeight := (ctx.lowerBoundHeight + ctx.startingHashesHeight) / 2
        stage := .hashesNext } (requests + 1) := by
  obtain ⟨ours, theirs, index, -, length, step⟩ := asking.step forked honest (by omega)
  rw [step, compareHashes_back (by omega) next (by omega) (by omega)]
  rfl

include longer

private theorem Asking.finds (below : ctx.startingHashesHeight ≤ commonHeight)
    (past : commonHeight + 1 < ctx.startingHashesHeight + options.hashesPerBatch) :
    startNextCompare chain remote options (.pending ctx requests) =
      .completed ⟨.remoteIsNotSynced, commonHeight, chain.chainHeight - commonHeight⟩
        (requests + 1) := by
  obtain ⟨ours, theirs, index, available, length, step⟩ := asking.step forked honest (by omega)
  rw [Nat.min_eq_right (by omega)] at index
  have inside := asking.inside
  have derived : ctx.localHeightDerivedFromHashes ours theirs ≤ chain.chainHeight := by
    rw [localHeightDerivedFromHashes]
    omega
  have common : ctx.startingHashesHeight + (commonHeight + 1 - ctx.startingHashesHeight - 1) =
      commonHeight := by omega
  rw [step, compareHashes_common (by omega) (by omega) (by omega), index,
    common, asking.localHeight, max_eq_left derived]
  rfl

private theorem Asking.forward
    (below : ctx.startingHashesHeight + options.hashesPerBatch ≤ commonHeight + 1)
    (stops : ctx.startingHashesHeight + options.hashesPerBatch ≤ chain.chainHeight)
    (upper : ctx.startingHashesHeight + 1 < ctx.upperBoundHeight) :
    startNextCompare chain remote options (.pending ctx requests) = .pending { ctx with
        lowerBoundHeight := ctx.startingHashesHeight
        startingHashesHeight := (ctx.startingHashesHeight + ctx.upperBoundHeight) / 2
        stage := .hashesNext } (requests + 1) := by
  obtain ⟨ours, theirs, index, available, length, step⟩ := asking.step forked honest (by omega)
  have localHeight := asking.localHeight
  rw [step, compareHashes_forward (by omega) (by omega)
    (by rw [localHeightDerivedFromHashes]; omega) (by omega)]
  rfl

private theorem Asking.jump
    (whole : ctx.startingHashesHeight + options.hashesPerBatch = chain.chainHeight + 1)
    (extended : commonHeight = chain.chainHeight) :
    startNextCompare chain remote options (.pending ctx requests) = .pending { ctx with
        startingHashesHeight := chain.chainHeight - 1
        stage := .hashesNext } (requests + 1) := by
  obtain ⟨ours, theirs, index, available, length, step⟩ := asking.step forked honest (by omega)
  have localHeight := asking.localHeight
  have remoteHeight := asking.remoteHeight
  have derived : ctx.localHeightDerivedFromHashes ours theirs = chain.chainHeight := by
    rw [localHeightDerivedFromHashes]
    omega
  rw [step, compareHashes_jump (by omega) (by omega) (by omega) (by omega)
    (by omega), derived]
  rfl

private theorem Asking.below (below : ctx.startingHashesHeight ≤ commonHeight)
    (upper : ctx.startingHashesHeight + options.hashesPerBatch ≤ commonHeight + 1 →
      ctx.startingHashesHeight + options.hashesPerBatch ≤ chain.chainHeight →
      ctx.startingHashesHeight + 1 < ctx.upperBoundHeight) :
    Finds chain remote options commonHeight
      (startNextCompare chain remote options (.pending ctx requests)) ∨
    ctx.startingHashesHeight + options.hashesPerBatch ≤ commonHeight + 1 ∧
      ctx.startingHashesHeight + options.hashesPerBatch ≤ chain.chainHeight ∧
      startNextCompare chain remote options (.pending ctx requests) = .pending { ctx with
          lowerBoundHeight := ctx.startingHashesHeight
          startingHashesHeight := (ctx.startingHashesHeight + ctx.upperBoundHeight) / 2
          stage := .hashesNext } (requests + 1) := by
  by_cases past : commonHeight + 1 < ctx.startingHashesHeight + options.hashesPerBatch
  · rw [asking.finds forked honest batch longer below past]
    exact .inl (.here ⟨_, rfl⟩)
  by_cases stops : ctx.startingHashesHeight + options.hashesPerBatch ≤ chain.chainHeight
  · exact .inr ⟨by omega, stops,
      asking.forward forked honest batch longer (by omega) stops (upper (by omega) stops)⟩
  · have common_le : commonHeight ≤ chain.chainHeight := forked.le_length.1
    have step := asking.jump forked honest batch longer (by omega) (by omega)
    have last : Asking chain blocks remote options { ctx with
        startingHashesHeight := chain.chainHeight - 1
        stage := .hashesNext } (requests + 1) :=
      ⟨running_next asking.running step, .inr rfl, asking.localHeight, asking.remoteHeight,
        by dsimp only; omega, Nat.sub_le _ _⟩
    rw [step]
    refine .inl (.later (.here ⟨_, last.finds forked honest batch longer ?_ ?_⟩)) <;>
      dsimp only <;> omega

end Steps

/-- A search whose upper bound is the local height or a height above the fork. -/
structure Narrowing (chain : LocalChain) (blocks : List Hash256) (remote : RemoteChain)
    (options : CompareChainsOptions) (commonHeight : ℕ) (ctx : CompareChainsContext)
    (requests : ℕ) : Prop where
  running : ∃ steps, compareChains chain remote options steps = .pending ctx requests
  stage : ctx.stage = .hashesNext
  localHeight : ctx.localHeight = chain.chainHeight
  remoteHeight : ctx.remoteHeight = blocks.length
  final_le : options.finalizedHeight ≤ ctx.lowerBoundHeight
  lower_le : ctx.lowerBoundHeight ≤ commonHeight
  lower_lt : ctx.lowerBoundHeight < ctx.upperBoundHeight
  upper_le : ctx.upperBoundHeight ≤ chain.chainHeight
  middle : ctx.startingHashesHeight = (ctx.lowerBoundHeight + ctx.upperBoundHeight) / 2
  upper : (ctx.upperBoundHeight = chain.chainHeight ∧
      ∃ k, ctx.lowerBoundHeight = ascent options.finalizedHeight chain.chainHeight k ∧
        ctx.lowerBoundHeight + options.hashesPerBatch ≤ commonHeight + 1) ∨
    (commonHeight < ctx.upperBoundHeight ∧ ctx.upperBoundHeight ≤ blocks.length)

/-- While only full batches agree, the next start height is inside the remote chain. -/
def Reachable (chain : LocalChain) (blocks : List Hash256) (options : CompareChainsOptions)
    (commonHeight : ℕ) : Prop :=
  ∀ k, ascent options.finalizedHeight chain.chainHeight k + options.hashesPerBatch ≤
      commonHeight + 1 →
    ascent options.finalizedHeight chain.chainHeight (k + 1) ≤ blocks.length

section Search

variable (forked : Forked chain.hashes blocks commonHeight)
  (honest : Honest chain blocks remote options) (batch : 3 ≤ options.hashesPerBatch)
  (longer : commonHeight < blocks.length) (final : 0 < options.finalizedHeight)
  (reachable : Reachable chain blocks options commonHeight)

include forked honest batch longer final reachable

section
variable (narrowing : Narrowing chain blocks remote options commonHeight ctx requests)
include narrowing

private theorem Narrowing.step : Finds chain remote options commonHeight
      (startNextCompare chain remote options (.pending ctx requests)) ∨
    ∃ after, startNextCompare chain remote options (.pending ctx requests) =
        .pending after (requests + 1) ∧
      Narrowing chain blocks remote options commonHeight after (requests + 1) ∧
      after.upperBoundHeight - after.lowerBoundHeight <
        ctx.upperBoundHeight - ctx.lowerBoundHeight := by
  obtain ⟨running, stage, localHeight, remoteHeight, final_le, lower_le, lower_lt, upper_le, middle,
    upper⟩ := narrowing
  have asking : Asking chain blocks remote options ctx requests :=
    ⟨running, .inr stage, localHeight, remoteHeight, by omega, by omega⟩
  have available : ctx.startingHashesHeight ≤ blocks.length := by
    obtain ⟨whole, k, lower, few⟩ | ⟨-, available⟩ := upper
    · have next := reachable k (lower ▸ few)
      rw [ascent, ← lower, ← whole, ← middle] at next
      exact next
    · omega
  by_cases below : ctx.startingHashesHeight ≤ commonHeight
  · obtain found | ⟨few, stops, step⟩ := asking.below forked honest batch longer below
      (fun few stops => by omega)
    · exact .inl found
    · refine .inr ⟨_, step, ⟨running_next running step, rfl, localHeight, remoteHeight, ?_, below,
        ?_, upper_le, rfl, ?_⟩, ?_⟩ <;> dsimp only
      · omega
      · omega
      · obtain ⟨whole, k, lower, -⟩ | above := upper
        · refine .inl ⟨whole, k + 1, ?_, few⟩
          rw [ascent, ← lower, ← whole, middle]
        · exact .inr above
      · omega
  · have step := asking.back forked honest batch (by omega) available stage (by omega)
    refine .inr ⟨_, step, ⟨running_next running step, rfl, localHeight, remoteHeight, final_le,
      lower_le, ?_, asking.inside, rfl, .inr ⟨by dsimp only; omega, available⟩⟩, ?_⟩ <;>
      dsimp only <;> omega

private theorem Narrowing.finds :
    Finds chain remote options commonHeight (.pending ctx requests) := by
  refine halts_of_rank
    (fun state => ∃ ctx requests, state = .pending ctx requests ∧
      Narrowing chain blocks remote options commonHeight ctx requests)
    window ?_ ⟨ctx, requests, rfl, narrowing⟩
  rintro _ ⟨ctx, requests, rfl, narrowing⟩
  obtain found | ⟨after, step, next, less⟩ :=
    narrowing.step forked honest batch longer final reachable
  · exact .inl found
  · rw [step]
    exact .inr ⟨⟨after, _, rfl, next⟩, less⟩

end

omit batch longer reachable in
private theorem asking_opened (final_le : options.finalizedHeight ≤ commonHeight)
    (longer : commonHeight < blocks.length) (higher : chain.score < remote.chainStatistics.score) :
    compareChains chain remote options 1 =
        .pending (.opened chain remote.chainStatistics options) 0 ∧
      Asking chain blocks remote options (.opened chain remote.chainStatistics options) 0 := by
  have height := honest.height
  have opened : compareChains chain remote options 1 =
      .pending (.opened chain remote.chainStatistics options) 0 := by
    obtain ⟨decided, -⟩ | ⟨-, -, opened⟩ := startNextCompare_create chain remote options
    · exact absurd ⟨by omega, higher⟩ decided
    · exact opened
  exact ⟨opened, ⟨1, opened⟩, .inl rfl, rfl, height, final, final_le.trans forked.le_length.1⟩

private theorem compareChains_finds (final_le : options.finalizedHeight ≤ commonHeight)
    (higher : chain.score < remote.chainStatistics.score) :
    Finds chain remote options commonHeight (.pending .create 0) := by
  obtain ⟨opened, asking⟩ := asking_opened forked honest final final_le longer higher
  have start : Finds chain remote options commonHeight
      (.pending (.opened chain remote.chainStatistics options) 0) := by
    refine .later ?_
    obtain found | ⟨few, stops, step⟩ := asking.below forked honest batch longer final_le
      (fun few stops => by simp only [CompareChainsContext.opened] at few stops ⊢; omega)
    · exact found
    · rw [step]
      simp only [CompareChainsContext.opened] at few stops
      refine Narrowing.finds forked honest batch longer final reachable
        ⟨running_next ⟨1, opened⟩ step, rfl, rfl, honest.height, le_rfl, final_le, ?_, le_rfl, rfl,
          .inl ⟨rfl, 0, rfl, few⟩⟩
      simp only [CompareChainsContext.opened]
      omega
  rw [← opened] at start
  exact start.later

end Search

private theorem ascent_mono {finalizedHeight localHeight : ℕ}
    (inside : finalizedHeight ≤ localHeight) : Monotone (ascent finalizedHeight localHeight) ∧
      ∀ k, ascent finalizedHeight localHeight k ≤ localHeight := by
  have le (k : ℕ) : ascent finalizedHeight localHeight k ≤ localHeight := by
    induction k with
    | zero => exact inside
    | succ k ih =>
      rw [ascent]
      omega
  refine ⟨monotone_nat_of_le_succ fun k => ?_, le⟩
  have := le k
  rw [ascent]
  omega

section Leaving

variable (forked : Forked chain.hashes blocks commonHeight)
  (honest : Honest chain blocks remote options) (batch : 3 ≤ options.hashesPerBatch)
  (longer : commonHeight < blocks.length) (final : 0 < options.finalizedHeight)
  (final_le : options.finalizedHeight ≤ commonHeight)
  (higher : chain.score < remote.chainStatistics.score)

include forked honest batch longer final final_le higher

private theorem exists_asking_ascent {k : ℕ} (shorter : blocks.length < chain.chainHeight)
    (few : ∀ j < k, ascent options.finalizedHeight chain.chainHeight j +
      options.hashesPerBatch ≤ commonHeight + 1) :
    ∃ ctx requests, Asking chain blocks remote options ctx requests ∧
      ctx.upperBoundHeight = chain.chainHeight ∧
      ctx.startingHashesHeight = ascent options.finalizedHeight chain.chainHeight k := by
  induction k with
  | zero =>
    obtain ⟨-, asking⟩ := asking_opened forked honest final final_le longer higher
    exact ⟨_, _, asking, rfl, rfl⟩
  | succ k ih =>
    obtain ⟨ctx, requests, asking, upper, start⟩ := ih fun j less => few j (Nat.lt_succ_of_lt less)
    have below := few k (Nat.lt_succ_self k)
    rw [← start] at below
    have step := asking.forward forked honest batch longer below (by omega) (by omega)
    have positive := asking.positive
    have inside := asking.inside
    refine ⟨_, _, ⟨running_next asking.running step, .inr rfl, asking.localHeight,
      asking.remoteHeight, ?_, ?_⟩, upper, ?_⟩ <;> dsimp only
    · omega
    · omega
    · rw [ascent, start, upper]

private theorem compareChains_leaves (leaves : ¬Reachable chain blocks options commonHeight) :
    ∃ steps result requests, compareChains chain remote options steps = .completed result requests ∧
      result.code = .remoteReturnedTooManyHashes := by
  have common_le : commonHeight ≤ chain.chainHeight := forked.le_length.1
  obtain ⟨mono, inside⟩ := ascent_mono (final_le.trans common_le)
  simp only [Reachable, not_forall, not_le] at leaves
  obtain ⟨k, few, beyond⟩ := leaves
  obtain ⟨ctx, requests, asking, -, start⟩ := exists_asking_ascent forked honest batch longer
    final final_le higher (k := k + 1) (beyond.trans_le (inside _)) fun j less =>
      (Nat.add_le_add_right (mono (Nat.lt_succ_iff.mp less)) _).trans few
  obtain ⟨result, code, step⟩ := asking.beyond forked honest batch (by rw [start]; exact beyond)
  obtain ⟨steps, completed⟩ := running_next asking.running step
  exact ⟨steps, result, _, completed, code⟩

end Leaving

variable {result : CompareChainsResult}

private theorem compareChains_completed_add {steps : ℕ}
    (completed : compareChains chain remote options steps = .completed result requests)
    (more : ℕ) : compareChains chain remote options (more + steps) = .completed result requests := by
  rw [compareChains, Function.iterate_add_apply, ← compareChains, completed]
  exact Function.iterate_fixed rfl more

private theorem compareChains_completed_unique {steps steps' requests' : ℕ}
    {result' : CompareChainsResult}
    (completed : compareChains chain remote options steps = .completed result requests)
    (completed' : compareChains chain remote options steps' = .completed result' requests') :
    result = result' := by
  have left := compareChains_completed_add completed steps'
  rw [Nat.add_comm, compareChains_completed_add completed' steps] at left
  cases left
  rfl

/-- Against an honest remote with a better chain that forks off at or above the finalized height,
the comparison finds the last common block and the depth of the fork, exactly when the search, which
is bounded by the height of the local chain, never asks for blocks above the remote one. -/
theorem compareChains_forkPoint_iff (forked : Forked chain.hashes blocks commonHeight)
    (honest : Honest chain blocks remote options) (batch : 3 ≤ options.hashesPerBatch)
    (longer : commonHeight < blocks.length) (final : 0 < options.finalizedHeight)
    (final_le : options.finalizedHeight ≤ commonHeight)
    (higher : chain.score < remote.chainStatistics.score) :
    (∃ steps requests, compareChains chain remote options steps =
      .completed ⟨.remoteIsNotSynced, commonHeight, chain.chainHeight - commonHeight⟩ requests) ↔
      Reachable chain blocks options commonHeight := by
  constructor
  · rintro ⟨steps, requests, found⟩
    by_contra leaves
    obtain ⟨steps', result, requests', ended, code⟩ := compareChains_leaves forked honest batch
      longer final final_le higher leaves
    rw [← compareChains_completed_unique found ended] at code
    exact ChainComparisonCode.noConfusion code
  · intro reachable
    exact compareChains_finds forked honest batch longer final reachable final_le higher

private theorem honest_of_completed {last : ℕ}
    (height : remote.chainStatistics.height = blocks.length)
    (completed : compareChains chain remote options last = .completed result requests)
    (answers : ∀ steps < last, ∀ ctx requests,
      compareChains chain remote options steps = .pending ctx requests →
      ctx.stage.ComparesHashes → remote.hashes requests =
        (blocks.drop (ctx.startingHashesHeight - 1)).take options.hashesPerBatch) :
    Honest chain blocks remote options := by
  refine ⟨height, fun steps ctx requests running hashing => ?_⟩
  by_cases earlier : steps < last
  · exact answers steps earlier ctx requests running hashing
  · rw [← Nat.sub_add_cancel (not_lt.mp earlier), compareChains_completed_add completed] at running
    exact Comparison.noConfusion running

theorem compareChains_forkPoint_two :
    let chain : LocalChain := ⟨[1, 2, 13, 14], 5⟩
    let remote : RemoteChain := ⟨⟨6, 3⟩, fun _ => [1, 2, 23]⟩
    ∃ steps requests, compareChains chain remote ⟨3, 1⟩ steps =
      .completed ⟨.remoteIsNotSynced, 2, 2⟩ requests := by
  intro chain remote
  have forked : Forked chain.hashes [1, 2, 23] 2 := forked_of_getElem? (by decide) (by decide)
  have completed : compareChains chain remote ⟨3, 1⟩ 2 = .completed ⟨.remoteIsNotSynced, 2, 2⟩ 1 :=
    rfl
  have honest : Honest chain [1, 2, 23] remote ⟨3, 1⟩ := by
    refine honest_of_completed rfl completed fun steps earlier ctx requests running hashing => ?_
    interval_cases steps <;> cases running
    · exact absurd hashing (by simp [Stage.ComparesHashes, create])
    · rfl
  refine (compareChains_forkPoint_iff forked honest (by decide) (by decide) (by decide) (by decide)
    (by decide)).mpr fun k few => ?_
  have : 1 ≤ ascent 1 4 k := (ascent_mono (by decide)).1 (Nat.zero_le k)
  have : ascent 1 4 k + 3 ≤ 2 + 1 := few
  omega

def longChain : LocalChain := ⟨[1, 2, 3, 14, 15, 16, 17, 18, 19], 5⟩

/-- A remote with a better chain of four blocks, and its answers from the first and the fifth on. -/
def shortRemote : RemoteChain := ⟨⟨6, 4⟩, fun request => if request = 0 then [1, 2, 3] else []⟩

/-- Three blocks are common; after the first batch the comparison asks for the blocks from the fifth
on, which the remote does not have. -/
theorem compareChains_misses_forkPoint :
    Forked longChain.hashes [1, 2, 3, 24] 3 ∧ Honest longChain [1, 2, 3, 24] shortRemote ⟨3, 1⟩ ∧
      compareChains longChain shortRemote ⟨3, 1⟩ 3 =
        .completed ⟨.remoteReturnedTooManyHashes, 2 ^ 64 - 1, 0⟩ 2 ∧
      ¬∃ steps requests, compareChains longChain shortRemote ⟨3, 1⟩ steps =
        .completed ⟨.remoteIsNotSynced, 3, 6⟩ requests := by
  have completed : compareChains longChain shortRemote ⟨3, 1⟩ 3 =
      .completed ⟨.remoteReturnedTooManyHashes, 2 ^ 64 - 1, 0⟩ 2 := rfl
  refine ⟨forked_of_getElem? (by decide) (by decide), ?_, completed, ?_⟩
  · refine honest_of_completed rfl completed fun steps earlier ctx requests running hashing => ?_
    interval_cases steps <;> cases running
    · exact absurd hashing (by simp [Stage.ComparesHashes, create])
    · rfl
    · rfl
  · rintro ⟨steps, requests, found⟩
    exact absurd (compareChains_completed_unique completed found) (by decide)

end BitxorCore.Chain
