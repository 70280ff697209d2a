/- GID: Chain/CompareChainsTermination
   anchors: [src/bitxorcore/chain/CompareChains.cpp]
   digest: A comparison ends against every remote exactly when no answer can lead it back up. -/

import BitxorCore.Chain.CompareChains

set_option autoImplicit false
set_option relaxedAutoImplicit false

namespace BitxorCore.Chain
open Library.Halting List Comparison CompareChainsContext

variable {chain : LocalChain} {remote : RemoteChain} {options : CompareChainsOptions}
  {context : CompareChainsContext} {requests : ℕ}

/-- The remote answers every request with at least one and at most `HashesPerBatch` hashes. -/
def RemoteChain.AnswersInBatches (remote : RemoteChain) (options : CompareChainsOptions) : Prop :=
  ∀ request, 0 < (remote.hashes request).length ∧
    (remote.hashes request).length ≤ options.hashesPerBatch

def Completes (chain : LocalChain) (remote : RemoteChain) (options : CompareChainsOptions) : Prop :=
  ∃ steps, (compareChains chain remote options steps).isCompleted = true

abbrev Ends (chain : LocalChain) (remote : RemoteChain) (options : CompareChainsOptions)
    (state : Comparison) : Prop :=
  Halts (startNextCompare chain remote options) (fun state => state.isCompleted = true)
    state

variable (chain remote options) in
private theorem ends_step (context : CompareChainsContext) (requests : ℕ) :
    Ends chain remote options
        (startNextCompare chain remote options (.pending context requests)) ↔
      Ends chain remote options (.pending context requests) := by
  refine halts_step_iff ?_
  exact Bool.false_ne_true

/-- The context in which the first batch of hashes is compared. -/
def CompareChainsContext.opened (chain : LocalChain) (statistics : ChainStatistics)
    (options : CompareChainsOptions) : CompareChainsContext :=
  ⟨.hashesFirst, options.finalizedHeight, chain.chainHeight, options.finalizedHeight, chain.score,
    chain.chainHeight, statistics.height, 0⟩

variable (chain remote options) in
theorem startNextCompare_create : (¬(options.finalizedHeight < remote.chainStatistics.height ∧
        chain.score < remote.chainStatistics.score) ∧
      ∃ result, result.code ≠ .remoteIsNotSynced ∧
        startNextCompare chain remote options (.pending .create 0) = .completed result 0) ∨
    (options.finalizedHeight < remote.chainStatistics.height ∧
      chain.score < remote.chainStatistics.score ∧
      startNextCompare chain remote options (.pending .create 0) =
        .pending (.opened chain remote.chainStatistics options) 0) := by
  simp only [startNextCompare, create, compareChainStatistics]
  by_cases behind : remote.chainStatistics.height ≤ options.finalizedHeight
  · rw [if_pos behind]
    exact .inl ⟨by omega, _, by simp, rfl⟩
  · rw [if_neg behind]
    by_cases higher : chain.chainStatistics.score < remote.chainStatistics.score
    · rw [if_pos higher]
      exact .inr ⟨by omega, higher, rfl⟩
    · rw [if_neg higher]
      refine .inl ⟨fun both => higher both.2, ?_⟩
      split_ifs <;> exact ⟨_, by simp, rfl⟩

private theorem completes_iff_ends_opened
    (further : options.finalizedHeight < remote.chainStatistics.height)
    (higher : chain.score < remote.chainStatistics.score) :
    Completes chain remote options ↔
      Ends chain remote options (.pending (.opened chain remote.chainStatistics options) 0) := by
  obtain ⟨decided, -⟩ | ⟨-, -, opened⟩ := startNextCompare_create chain remote options
  · exact absurd ⟨further, higher⟩ decided
  · rw [← opened]
    exact (ends_step chain remote options _ _).symm

private theorem startNextCompare_scoreLocal (local_ : context.stage = .scoreLocal) :
    Ends chain remote options (.pending context requests) := by
  refine .later (.here ?_)
  simp only [startNextCompare, local_, compareLocalScore]
  split_ifs <;> rfl

def Stage.ComparesHashes (stage : Stage) : Prop := stage = .hashesFirst ∨ stage = .hashesNext

variable (chain remote context requests) in
theorem startNextCompare_hashes (hashing : context.stage.ComparesHashes)
    (positive : 0 < context.startingHashesHeight)
    (inside : context.startingHashesHeight ≤ chain.chainHeight)
    (batch : 0 < options.hashesPerBatch) :
    ∃ ours, ours =
        (chain.hashes.drop (context.startingHashesHeight - 1)).take options.hashesPerBatch ∧
      ours.length =
        min options.hashesPerBatch (chain.chainHeight - context.startingHashesHeight + 1) ∧
      startNextCompare chain remote options (.pending context requests) =
        .dispatch (context.compareHashes options ours (remote.hashes requests)) (requests + 1) := by
  obtain ⟨ours, loaded, eq, length⟩ := chain.hashesFrom_eq_some positive inside batch
  refine ⟨ours, eq, length, ?_⟩
  obtain first | next := hashing
  · simp only [startNextCompare, first, loaded]
  · simp only [startNextCompare, next, loaded]

theorem startNextCompare_unavailable (hashing : context.stage.ComparesHashes)
    (unavailable : chain.hashesFrom context.startingHashesHeight options.hashesPerBatch = none) :
    startNextCompare chain remote options (.pending context requests) = .failed (requests + 1) := by
  obtain first | next := hashing
  · simp only [startNextCompare, first, unavailable]
  · simp only [startNextCompare, next, unavailable]

private theorem not_ends_failed (count : ℕ) : ¬Ends chain remote options (.failed count) := by
  refine not_halts_of_trap (fun state => state = .failed count) ?_ rfl
  rintro _ rfl
  exact ⟨Bool.false_ne_true, rfl⟩

/-- No answer makes the comparison start one below the local height from further down. -/
def NoReturn (chain : LocalChain) (options : CompareChainsOptions) (remoteHeight : ℕ) : Prop :=
  remoteHeight ≤ chain.chainHeight ∨ options.hashesPerBatch ≤ 2 ∨
    chain.chainHeight ≤ options.finalizedHeight + 1

structure Bisecting (chain : LocalChain) (options : CompareChainsOptions) (remoteHeight : ℕ)
    (context : CompareChainsContext) : Prop where
  stage : context.stage = .hashesNext
  localHeight : context.localHeight = chain.chainHeight
  remoteHeight : context.remoteHeight = remoteHeight
  final_le : options.finalizedHeight ≤ context.lowerBoundHeight
  lower_lt : context.lowerBoundHeight < context.upperBoundHeight
  upper_le : context.upperBoundHeight ≤ chain.chainHeight
  middle : context.startingHashesHeight = (context.lowerBoundHeight + context.upperBoundHeight) / 2

variable (chain) in
private theorem derived_le {ours : List Hash256} (theirs : List Hash256)
    (inside : context.startingHashesHeight ≤ chain.chainHeight) (length : ours.length =
      min options.hashesPerBatch (chain.chainHeight - context.startingHashesHeight + 1)) :
    context.localHeightDerivedFromHashes ours theirs ≤ chain.chainHeight ∧
      context.localHeightDerivedFromHashes ours theirs ≤
        context.startingHashesHeight + (options.hashesPerBatch - 1) := by
  rw [localHeightDerivedFromHashes]
  omega

def Comparison.window : Comparison → ℕ
  | .pending context _ => context.upperBoundHeight - context.lowerBoundHeight
  | _ => 0

private theorem Bisecting.ends {remoteHeight : ℕ} (final : 0 < options.finalizedHeight)
    (batch : 0 < options.hashesPerBatch) (noReturn : NoReturn chain options remoteHeight)
    (bisecting : Bisecting chain options remoteHeight context) :
    Ends chain remote options (.pending context requests) := by
  refine halts_of_rank
    (fun state => ∃ context requests, state = .pending context requests ∧
      Bisecting chain options remoteHeight context)
    window ?_ ⟨context, requests, rfl, bisecting⟩
  rintro _ ⟨context, requests, rfl, stage, localHeight, remoteHeight, final_le, lower_lt, upper_le,
    middle⟩
  obtain ⟨ours, -, length, step⟩ := startNextCompare_hashes chain remote context
    requests (.inr stage) (by omega) (by omega) batch
  have derived := derived_le chain (remote.hashes requests) (by omega) length
  rw [step]
  obtain ⟨code, after, eq⟩ | eq | ⟨-, moved, eq⟩ | ⟨moved, eq⟩ | ⟨-, reached, above, moved, -⟩ :=
    context.compareHashes_cases options ours (remote.hashes requests)
  · rw [eq]
    exact .inl (.here rfl)
  · rw [eq]
    exact .inl (startNextCompare_scoreLocal rfl)
  · rw [eq]
    refine .inr ⟨⟨_, _, rfl, rfl, localHeight, remoteHeight, final_le, ?_, ?_, rfl⟩, ?_⟩ <;>
      simp only [dispatch, window] <;> omega
  · rw [eq]
    refine .inr ⟨⟨_, _, rfl, rfl, localHeight, remoteHeight, ?_, ?_, upper_le, rfl⟩, ?_⟩ <;>
      simp only [dispatch, window] <;> omega
  · -- the derived height is the local height, so the start height did not move
    exfalso
    unfold NoReturn at noReturn
    omega

private theorem atEnd_ends (stage : context.stage = .hashesNext)
    (localHeight : context.localHeight = chain.chainHeight)
    (lower : context.lowerBoundHeight = chain.chainHeight)
    (upper : context.upperBoundHeight = chain.chainHeight)
    (start : context.startingHashesHeight = chain.chainHeight - 1)
    (two : 2 ≤ chain.chainHeight) (batch : 0 < options.hashesPerBatch) :
    Ends chain remote options (.pending context requests) := by
  obtain ⟨ours, -, length, step⟩ := startNextCompare_hashes chain remote context
    requests (.inr stage) (by omega) (by omega) batch
  have derived := derived_le chain (remote.hashes requests) (by omega) length
  refine .later ?_
  rw [step]
  obtain ⟨code, after, eq⟩ | eq | ⟨-, moved, -⟩ | ⟨moved, -⟩ | ⟨-, reached, -, moved, -⟩ :=
    context.compareHashes_cases options ours (remote.hashes requests)
  · rw [eq]
    exact .here rfl
  · rw [eq]
    exact startNextCompare_scoreLocal rfl
  · omega
  · omega
  · omega

private theorem opened_ends (final : 0 < options.finalizedHeight)
    (inside : options.finalizedHeight ≤ chain.chainHeight) (batch : 0 < options.hashesPerBatch)
    (noReturn : NoReturn chain options remote.chainStatistics.height)
    (two : 2 ≤ chain.chainHeight ∨ remote.chainStatistics.height ≤ chain.chainHeight) :
    Ends chain remote options (.pending (.opened chain remote.chainStatistics options) 0) := by
  obtain ⟨ours, -, length, step⟩ := startNextCompare_hashes chain remote
    (.opened chain remote.chainStatistics options) 0 (.inl rfl) final inside batch
  have derived := derived_le chain (remote.hashes 0) inside length
  refine .later ?_
  rw [step]
  obtain ⟨code, after, eq⟩ | eq | ⟨first, -⟩ | ⟨moved, eq⟩ | ⟨-, reached, above, moved, eq⟩ :=
    (opened chain remote.chainStatistics options).compareHashes_cases options
      ours (remote.hashes 0)
  · rw [eq]
    exact .here rfl
  · rw [eq]
    exact startNextCompare_scoreLocal rfl
  · exact absurd rfl first
  · rw [eq]
    refine Bisecting.ends final batch noReturn ⟨rfl, rfl, rfl, le_rfl, ?_, le_rfl, rfl⟩
    simp only [opened] at moved ⊢
    omega
  · rw [eq]
    simp only [opened] at derived reached above moved
    unfold NoReturn at noReturn
    refine atEnd_ends rfl rfl ?_ rfl ?_ (by omega) batch <;>
      simp only [opened] <;> omega

def otherHash (hash : Hash256) : Hash256 := if hash = 0 then 1 else 0

theorem otherHash_ne (hash : Hash256) : hash ≠ otherHash hash := by
  rw [otherHash]
  split_ifs with zero
  · rw [zero]
    decide
  · exact zero

/-- What a remote answers to keep the comparison going: a wrong hash one below the local height,
all hashes up to the local height where one batch holds them, one hash elsewhere. -/
def lure (chain : LocalChain) (options : CompareChainsOptions) (context : CompareChainsContext) :
    List Hash256 :=
  let available := chain.hashes.drop (context.startingHashesHeight - 1)
  if context.startingHashesHeight + 1 = chain.chainHeight then (available.take 1).map otherHash
  else if available.length ≤ options.hashesPerBatch then available
  else available.take 1

def lured (chain : LocalChain) (statistics : ChainStatistics) (options : CompareChainsOptions) :
    ℕ → CompareChainsContext
  | 0 => .opened chain statistics options
  | n + 1 =>
    let context := lured chain statistics options n
    (context.compareHashes options
      ((chain.hashes.drop (context.startingHashesHeight - 1)).take options.hashesPerBatch)
      (lure chain options context)).2

/-- The start stays below the local height, far enough from the upper bound to move again. -/
structure Luring (chain : LocalChain) (options : CompareChainsOptions) (remoteHeight : ℕ)
    (context : CompareChainsContext) : Prop where
  stage : context.stage.ComparesHashes
  localHeight : context.localHeight = chain.chainHeight
  remoteHeight : context.remoteHeight = remoteHeight
  final_le : options.finalizedHeight ≤ context.lowerBoundHeight
  lower_le : context.lowerBoundHeight + 2 ≤ chain.chainHeight
  upper : context.upperBoundHeight = chain.chainHeight ∨
    context.upperBoundHeight + 1 = chain.chainHeight
  start : context.stage = .hashesNext ∧ context.startingHashesHeight + 1 = chain.chainHeight ∨
    context.lowerBoundHeight ≤ context.startingHashesHeight ∧
      context.startingHashesHeight + 2 ≤ chain.chainHeight

private theorem available_cons {start : ℕ} (positive : 0 < start)
    (inside : start ≤ chain.chainHeight) :
    ∃ hash rest, chain.hashes.drop (start - 1) = hash :: rest ∧
      rest.length + start = chain.chainHeight := by
  have length := chain.hashes.length_drop (i := start - 1)
  rw [LocalChain.chainHeight] at inside ⊢
  cases available : chain.hashes.drop (start - 1) with
  | nil =>
    rw [available, length_nil] at length
    omega
  | cons hash rest =>
    rw [available, length_cons] at length
    exact ⟨hash, rest, rfl, by omega⟩

private theorem Luring.step {remoteHeight : ℕ} (final : 0 < options.finalizedHeight)
    (batch : 3 ≤ options.hashesPerBatch) (higher : chain.chainHeight < remoteHeight)
    (luring : Luring chain options remoteHeight context) :
    ∃ after, Luring chain options remoteHeight after ∧ context.compareHashes options
        ((chain.hashes.drop (context.startingHashesHeight - 1)).take options.hashesPerBatch)
        (lure chain options context) = (none, after) := by
  obtain ⟨stage, localHeight, remoteHeight_eq, final_le, lower_le, upper, start⟩ := luring
  obtain ⟨hash, rest, available, length⟩ : ∃ hash rest,
      chain.hashes.drop (context.startingHashesHeight - 1) = hash :: rest ∧
        rest.length + context.startingHashesHeight = chain.chainHeight :=
    available_cons (by omega) (by omega)
  obtain ⟨size, size_eq⟩ : ∃ size, options.hashesPerBatch = size + 1 :=
    ⟨options.hashesPerBatch - 1, by omega⟩
  rw [available]
  obtain ⟨next, atEnd⟩ | ⟨lower, below⟩ := start
  · have answer : lure chain options context = [otherHash hash] := by
      simp [lure, atEnd, available]
    have differ : findFirstDifferenceIndex ((hash :: rest).take options.hashesPerBatch)
        [otherHash hash] = 0 := by
      rw [size_eq, take_succ_cons, findFirstDifferenceIndex, if_pos (otherHash_ne hash)]
    rw [answer]
    refine ⟨_, ?_, compareHashes_back ⟨Nat.one_pos, ?_⟩ next differ ?_⟩
    · refine ⟨.inr rfl, localHeight, remoteHeight_eq, final_le, lower_le, .inr atEnd, .inr ?_⟩
      dsimp only
      omega
    · rw [length_singleton]
      omega
    · omega
  by_cases fits : (hash :: rest).length ≤ options.hashesPerBatch
  · have answer : lure chain options context = hash :: rest := by
      rw [lure, if_neg (by omega), available, if_pos fits]
    have equal : findFirstDifferenceIndex (hash :: rest) (hash :: rest) =
        (hash :: rest).length := by
      simpa using findFirstDifferenceIndex_append (hash :: rest) []
    have derived : context.localHeightDerivedFromHashes (hash :: rest) (hash :: rest) =
        chain.chainHeight := by
      rw [localHeightDerivedFromHashes, min_self, length_cons]
      omega
    rw [answer, take_of_length_le fits]
    refine ⟨_, ?_, compareHashes_jump ⟨Nat.succ_pos _, fits⟩ equal ?_ ?_ ?_⟩
    · refine ⟨.inr rfl, localHeight, remoteHeight_eq, final_le, lower_le, upper, .inl ⟨rfl, ?_⟩⟩
      dsimp only
      omega
    all_goals omega
  · have answer : lure chain options context = [hash] := by
      rw [lure, if_neg (by omega), available, if_neg fits]
      rfl
    have equal : findFirstDifferenceIndex ((hash :: rest).take options.hashesPerBatch) [hash] =
        [hash].length := by
      rw [size_eq, take_succ_cons]
      exact findFirstDifferenceIndex_append [hash] _
    have derived : context.localHeightDerivedFromHashes
        ((hash :: rest).take options.hashesPerBatch) [hash] = context.startingHashesHeight := by
      rw [localHeightDerivedFromHashes, length_singleton]
      omega
    rw [length_cons] at fits
    rw [answer]
    refine ⟨_, ?_, compareHashes_forward ⟨Nat.one_pos, ?_⟩ equal ?_ ?_⟩
    · refine ⟨.inr rfl, localHeight, remoteHeight_eq, ?_, ?_, upper, .inr ?_⟩ <;>
        dsimp only <;> omega
    · rw [length_singleton]
      omega
    all_goals omega

section Lured

variable {statistics : ChainStatistics} (final : 0 < options.finalizedHeight)
  (two : options.finalizedHeight + 2 ≤ chain.chainHeight) (batch : 3 ≤ options.hashesPerBatch)
  (longer : chain.chainHeight < statistics.height)

include final two batch longer

private theorem lured_luring (n : ℕ) :
    Luring chain options statistics.height (lured chain statistics options n) := by
  induction n with
  | zero => exact ⟨.inl rfl, rfl, rfl, le_rfl, two, .inl rfl, .inr ⟨le_rfl, two⟩⟩
  | succ n ih =>
    obtain ⟨after, luring, eq⟩ := ih.step final batch longer
    rw [lured]
    simp only [eq]
    exact luring

private theorem lure_inBatches : RemoteChain.AnswersInBatches
      ⟨statistics, fun n => lure chain options (lured chain statistics options n)⟩ options := by
  intro n
  obtain ⟨-, -, -, final_le, lower_le, -, start⟩ := lured_luring final two batch longer n
  obtain ⟨hash, rest, available, -⟩ : ∃ hash rest,
      chain.hashes.drop ((lured chain statistics options n).startingHashesHeight - 1) =
        hash :: rest ∧
      rest.length + (lured chain statistics options n).startingHashesHeight = chain.chainHeight :=
    available_cons (by omega) (by omega)
  dsimp only [lure]
  rw [available]
  split_ifs with _ fits
  · simp only [take_succ_cons, map_cons, length_cons, take_zero, map_nil, length_nil]
    omega
  · exact ⟨Nat.succ_pos _, fits⟩
  · simp only [take_succ_cons, length_cons, take_zero, length_nil]
    omega

private theorem lure_not_completes (higher : chain.score < statistics.score) :
    ¬Completes chain ⟨statistics, fun n => lure chain options (lured chain statistics options n)⟩
      options := by
  rw [completes_iff_ends_opened (by dsimp only; omega) higher]
  refine not_halts_of_trap
    (fun state => ∃ n, state = .pending (lured chain statistics options n) n) ?_ ⟨0, rfl⟩
  rintro _ ⟨n, rfl⟩
  have luring := lured_luring final two batch longer n
  obtain ⟨after, -, eq⟩ := luring.step final batch longer
  obtain ⟨stage, -, -, final_le, lower_le, -, start⟩ := luring
  have inside : 0 < (lured chain statistics options n).startingHashesHeight ∧
      (lured chain statistics options n).startingHashesHeight ≤ chain.chainHeight := by omega
  have some_ : 0 < options.hashesPerBatch := by omega
  obtain ⟨ours, rfl, -, step⟩ := startNextCompare_hashes chain
    ⟨statistics, fun n => lure chain options (lured chain statistics options n)⟩
    (lured chain statistics options n) n stage inside.1 inside.2 some_
  refine ⟨Bool.false_ne_true, n + 1, ?_⟩
  rw [step, lured]
  simp only [eq, dispatch]

end Lured

/-- Nothing is asked, or the search is bounded: the finalized block is on the local chain, and
either the remote chain is not longer or the start height can not be led back up. -/
def Bounded (chain : LocalChain) (options : CompareChainsOptions) (statistics : ChainStatistics) :
    Prop :=
  options.hashesPerBatch = 0 ∨
  statistics.height ≤ options.finalizedHeight ∨ statistics.score ≤ chain.score ∨
  0 < options.finalizedHeight ∧ options.finalizedHeight ≤ chain.chainHeight ∧
    (statistics.height ≤ chain.chainHeight ∨ 2 ≤ chain.chainHeight ∧
        (options.hashesPerBatch ≤ 2 ∨ chain.chainHeight ≤ options.finalizedHeight + 1))

private theorem Bounded.completes (bounded : Bounded chain options remote.chainStatistics)
    (batches : remote.AnswersInBatches options) : Completes chain remote options := by
  have batch := batches 0
  by_cases asked : options.finalizedHeight < remote.chainStatistics.height ∧
      chain.score < remote.chainStatistics.score
  · rw [completes_iff_ends_opened asked.1 asked.2]
    unfold Bounded at bounded
    exact opened_ends (by omega) (by omega) (by omega) (by unfold NoReturn; omega) (by omega)
  · obtain ⟨-, result, -, decided⟩ | ⟨further, higher, -⟩ :=
      startNextCompare_create chain remote options
    · refine ⟨1, ?_⟩
      rw [compareChains, Function.iterate_one, decided]
      rfl
    · exact absurd ⟨further, higher⟩ asked

variable (remote) in
private theorem outside_not_completes
    (further : options.finalizedHeight < remote.chainStatistics.height)
    (higher : chain.score < remote.chainStatistics.score)
    (outside : options.finalizedHeight = 0 ∨ chain.chainHeight < options.finalizedHeight) :
    ¬Completes chain remote options := by
  rw [completes_iff_ends_opened further higher, ← ends_step,
    startNextCompare_unavailable (.inl rfl) (chain.hashesFrom_eq_none outside)]
  exact not_ends_failed _

variable (remote) in
/-- On a chain of one block the single right hash makes the comparison start at height zero. -/
private theorem oneBlock_not_completes {hash : Hash256} (oneBlock : chain.hashes = [hash])
    (final : options.finalizedHeight = 1) (batch : 0 < options.hashesPerBatch)
    (further : 1 < remote.chainStatistics.height)
    (higher : chain.score < remote.chainStatistics.score)
    (answer : remote.hashes 0 = [hash]) : ¬Completes chain remote options := by
  have height : chain.chainHeight = 1 := by rw [LocalChain.chainHeight, oneBlock]; rfl
  have equal : findFirstDifferenceIndex [hash] [hash] = [hash].length :=
    findFirstDifferenceIndex_append [hash] []
  have final_pos : 0 < options.finalizedHeight := by omega
  have inside : options.finalizedHeight ≤ chain.chainHeight := by omega
  obtain ⟨ours, eq, -, step⟩ := startNextCompare_hashes chain remote
    (.opened chain remote.chainStatistics options) 0 (.inl rfl) final_pos inside batch
  have available : ours = [hash] := by
    rw [eq, oneBlock, opened, final]
    exact take_of_length_le batch
  -- the derived height is the local height one
  have jump : (opened chain remote.chainStatistics options).compareHashes
      options [hash] [hash] = (none, { opened chain remote.chainStatistics options with
          startingHashesHeight := options.finalizedHeight - 1
          stage := .hashesNext }) := by
    refine compareHashes_jump ⟨Nat.one_pos, batch⟩ equal ?_ ?_ ?_ <;>
      simp only [localHeightDerivedFromHashes, opened,
        length_singleton, min_self, Nat.sub_self, Nat.add_zero] <;> omega
  rw [completes_iff_ends_opened (by omega) higher, ← ends_step, step, answer, available, jump,
    dispatch, ← ends_step,
    startNextCompare_unavailable (.inr rfl) (chain.hashesFrom_eq_none (.inl ?_))]
  · exact not_ends_failed _
  · dsimp only
    omega

/-- Chain comparison ends with a code against every remote that answers in batches exactly when
the search is bounded. -/
theorem compareChains_completes_iff (chain : LocalChain) (options : CompareChainsOptions)
    (statistics : ChainStatistics) : (∀ remote : RemoteChain, remote.chainStatistics = statistics →
      remote.AnswersInBatches options → Completes chain remote options) ↔
    Bounded chain options statistics := by
  constructor
  · intro completes
    by_contra unbounded
    unfold Bounded at unbounded
    have asked : 0 < options.hashesPerBatch ∧ options.finalizedHeight < statistics.height ∧
        chain.score < statistics.score := by omega
    obtain ⟨batch, further, higher⟩ := asked
    by_cases outside : options.finalizedHeight = 0 ∨ chain.chainHeight < options.finalizedHeight
    · exact outside_not_completes ⟨statistics, fun _ => [0]⟩ further higher outside
        (completes _ rfl fun _ => ⟨Nat.one_pos, batch⟩)
    by_cases one : chain.chainHeight = 1
    · obtain ⟨hash, oneBlock⟩ := length_eq_one_iff.mp one
      exact oneBlock_not_completes ⟨statistics, fun _ => [hash]⟩ oneBlock (by omega)
        batch (by dsimp only; omega) higher rfl (completes _ rfl fun _ => ⟨Nat.one_pos, batch⟩)
    · have final : 0 < options.finalizedHeight := by omega
      have two : options.finalizedHeight + 2 ≤ chain.chainHeight := by omega
      have three : 3 ≤ options.hashesPerBatch := by omega
      have longer : chain.chainHeight < statistics.height := by omega
      exact lure_not_completes final two three longer higher
        (completes _ rfl (lure_inBatches final two three longer))
  · rintro bounded remote rfl batches
    exact bounded.completes batches

def exampleChain : LocalChain := ⟨[10, 20, 30], 5⟩

/-- Every second answer differs at once, the others repeat the local chain. -/
def exampleRemote : RemoteChain := ⟨⟨6, 4⟩, fun n => if n % 2 = 0 then [10, 20, 30] else [99]⟩

/-- Only the first block is final and the remote claims one block more: the start height goes back
and forth between one and two. -/
theorem compareChains_backAndForth :
    exampleRemote.AnswersInBatches ⟨3, 1⟩ ∧ ¬Completes exampleChain exampleRemote ⟨3, 1⟩ := by
  constructor
  · intro n
    dsimp only [exampleRemote]
    split_ifs <;> decide
  rw [completes_iff_ends_opened (by decide) (by decide)]
  refine not_halts_of_trap (fun state => ∃ stage upper n,
      n % 2 = 0 ∧ stage.ComparesHashes ∧ state = .pending ⟨stage, 1, upper, 1, 5, 3, 4, 0⟩ n ∨
      n % 2 = 1 ∧ state = .pending ⟨.hashesNext, 1, upper, 2, 5, 3, 4, 0⟩ n) ?_
    ⟨.hashesFirst, 3, 0, .inl ⟨rfl, .inl rfl, rfl⟩⟩
  rintro _ ⟨stage, upper, n, ⟨even, hashing, rfl⟩ | ⟨odd, rfl⟩⟩
  · refine ⟨Bool.false_ne_true, .hashesNext, upper, n + 1, .inr ⟨by omega, ?_⟩⟩
    obtain rfl | rfl := hashing <;>
      · simp only [startNextCompare, exampleRemote, if_pos even]
        rfl
  · refine ⟨Bool.false_ne_true, .hashesNext, 2, n + 1, .inl ⟨by omega, .inr rfl, ?_⟩⟩
    have loaded : exampleChain.hashesFrom 2 3 = some [20, 30] := rfl
    simp only [startNextCompare, exampleRemote, odd, one_ne_zero, if_false, loaded]
    rw [compareHashes_back (by decide) rfl (by decide) (by simp)]
    simp [dispatch]

end BitxorCore.Chain
