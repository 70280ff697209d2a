/- GID: Finalization/WeightedThreshold
   anchors: [extensions/finalization, src/bitxorcore/state]
   digest: When the threshold of a round is the exact quorum and two quorums share a third. -/

import BitxorCore.Finalization.FinalizationProof
import BitxorCore.State.HeightIndexedHistoryMap

set_option autoImplicit false
set_option relaxedAutoImplicit false

namespace BitxorCore.Finalization
open Library Library.FiniteMap Library.Bookkeeping Library.Emplacement State List Emplacement

/-- What the finalization extension reads from the history of a high value account. -/
structure AccountHistory where
  balance : HeightIndexedHistoryMap ℕ
  votingPublicKeys : HeightIndexedHistoryMap (List PinnedVotingKey)

/-- The account histories by address, in the order of an iteration. -/
abbrev AccountHistories := List (ℕ × AccountHistory)

def votingAccount (height : ℕ) (entry : ℕ × AccountHistory) : VotingAccount :=
  ⟨entry.1, entry.2.balance.get height, entry.2.votingPublicKeys.get height⟩

namespace FinalizationContext

variable (epoch height : ℕ) (cfg : FinalizationConfiguration) (histories : AccountHistories)

/-- The accounts and the weight that the constructor of a context collects. -/
def collect : Map VotingKey ℕ × ℕ :=
  addAccounts epoch cfg (histories.map (votingAccount height))

/-- What `lookup` answers after the accounts are collected. -/
def weightOf (collected : Map VotingKey ℕ × ℕ) (votingPublicKey : VotingKey) : ℕ :=
  share id collected.1 votingPublicKey

/-- The eligible accounts: the voting key and the balance of each. -/
def eligible (epoch : ℕ) (cfg : FinalizationConfiguration) (accounts : List VotingAccount) :
    List (VotingKey × ℕ) :=
  accounts.filterMap fun account =>
    (eligibleKey? epoch cfg account).map fun key => (key, account.balance)

def voters : List (VotingKey × ℕ) :=
  eligible epoch cfg (histories.map (votingAccount height))

/-- Nodes that iterate in different orders find the same weights, and their total is the sum over
the voting keys. -/
def Deterministic : Prop :=
  let collected := collect epoch height cfg histories
  (∀ other : AccountHistories, other.Perm histories → ∀ votingPublicKey,
    weightOf (collect epoch height cfg other) votingPublicKey =
      weightOf collected votingPublicKey) ∧
    collected.2 = ∑ votingPublicKey ∈ ((voters epoch height cfg histories).map
      Prod.fst).toFinset, weightOf collected votingPublicKey

variable {epoch height : ℕ} {cfg : FinalizationConfiguration} {histories : AccountHistories}

private theorem foldl_addAccount_eq (accounts : List VotingAccount) (state : Map VotingKey ℕ × ℕ)
    (fits : state.2 < 2 ^ 64) :
    accounts.foldl (addAccount epoch cfg) state =
      ((eligible epoch cfg accounts).foldl (fun m entry => emplace m entry.1 entry.2) state.1,
        (state.2 + sum id (eligible epoch cfg accounts)) % 2 ^ 64) := by
  induction accounts generalizing state with
  | nil => exact Prod.ext rfl (Nat.mod_eq_of_lt fits).symm
  | cons account rest ih =>
    rw [foldl_cons]
    cases found : eligibleKey? epoch cfg account with
    | none =>
      have same : addAccount epoch cfg state account = state := by rw [addAccount, found]
      have skipped : eligible epoch cfg (account :: rest) = eligible epoch cfg rest :=
        filterMap_cons_none (by rw [found]; rfl)
      rw [same, ih state fits, skipped]
    | some key =>
      have next : addAccount epoch cfg state account =
          (emplace state.1 key account.balance, (state.2 + account.balance) % 2 ^ 64) := by
        rw [addAccount, found]
        rfl
      have counted : eligible epoch cfg (account :: rest) =
          (key, account.balance) :: eligible epoch cfg rest :=
        filterMap_cons_some (by rw [found]; rfl)
      have more : sum id ((key, account.balance) :: eligible epoch cfg rest) =
          account.balance + sum id (eligible epoch cfg rest) := sum_cons
      rw [next, ih _ (Nat.mod_lt _ (by decide)), counted, more, Nat.mod_add_mod, Nat.add_assoc]
      rfl

private theorem addAccounts_eq (epoch : ℕ) (cfg : FinalizationConfiguration)
    (accounts : List VotingAccount) :
    addAccounts epoch cfg accounts = (emplaceAll (eligible epoch cfg accounts),
        sum id (eligible epoch cfg accounts) % 2 ^ 64) := by
  refine (foldl_addAccount_eq accounts (∅, 0) (by decide)).trans ?_
  rw [Nat.zero_add]
  rfl

private theorem collect_eq :
    collect epoch height cfg histories = (emplaceAll (voters epoch height cfg histories),
        sum id (voters epoch height cfg histories) % 2 ^ 64) :=
  addAccounts_eq epoch cfg _

private theorem weightOf_collect (votingPublicKey : VotingKey) :
    weightOf (collect epoch height cfg histories) votingPublicKey =
      ((voters epoch height cfg histories).lookup votingPublicKey).getD 0 := by
  rw [weightOf, collect_eq, share, lookup_emplaceAll]
  cases (voters epoch height cfg histories).lookup votingPublicKey <;> rfl

private theorem voters_pos : ∀ voter ∈ voters epoch height cfg histories, 0 < id voter.2 := by
  intro voter mem
  obtain ⟨account, -, found⟩ := mem_filterMap.mp mem
  obtain ⟨key, registered, rfl⟩ := Option.map_eq_some_iff.mp found
  unfold eligibleKey? at registered
  dsimp only at registered
  split_ifs at registered with empty
  exact Nat.pos_of_ne_zero empty

private theorem exists_perm_voters {voter : VotingKey × ℕ}
    (mem : voter ∈ voters epoch height cfg histories) :
    ∃ other : AccountHistories, other.Perm histories ∧
      ∃ rest, voters epoch height cfg other = voter :: rest := by
  rw [voters, eligible, filterMap_map] at mem
  obtain ⟨entry, present, registered⟩ := mem_filterMap.mp mem
  obtain ⟨before, after, rfl⟩ := append_of_mem present
  refine ⟨entry :: (before ++ after), perm_middle.symm,
    voters epoch height cfg (before ++ after), ?_⟩
  rw [voters, voters, eligible, eligible, filterMap_map, filterMap_map,
    filterMap_cons_some registered]

private theorem weightOf_perm_iff :
    (∀ other : AccountHistories, other.Perm histories → ∀ votingPublicKey,
      weightOf (collect epoch height cfg other) votingPublicKey =
        weightOf (collect epoch height cfg histories) votingPublicKey) ↔
      Agree (voters epoch height cfg histories) := by
  simp only [weightOf_collect]
  constructor
  · refine fun same => agree_of_lookup fun voter mem => ?_
    obtain ⟨other, perm, rest, first⟩ := exists_perm_voters mem
    have weight := same other perm voter.1
    rw [first, lookup_cons, beq_self_eq_true] at weight
    have positive := voters_pos voter mem
    cases found : (voters epoch height cfg histories).lookup voter.1 with
    | none =>
      rw [found] at weight
      exact absurd weight positive.ne'
    | some balance =>
      rw [found] at weight
      exact congrArg some weight.symm
  · intro agree other perm votingPublicKey
    have reordered : (voters epoch height cfg other).Perm (voters epoch height cfg histories) :=
      (perm.map _).filterMap _
    rw [agree.lookup_perm reordered]

private theorem isEligibleVoter_iff {ctx : FinalizationContext}
    (collected : ctx.accounts = (collect epoch height cfg histories).1)
    (votingPublicKey : VotingKey) : ctx.isEligibleVoter votingPublicKey ↔
      votingPublicKey ∈ (voters epoch height cfg histories).map Prod.fst := by
  have answer : ctx.lookup votingPublicKey =
      ((voters epoch height cfg histories).lookup votingPublicKey).getD 0 := by
    rw [← weightOf_collect, weightOf, ← collected]
    rfl
  rw [isEligibleVoter, bne_iff_ne, answer, mem_map]
  cases found : (voters epoch height cfg histories).lookup votingPublicKey with
  | none =>
    have fresh := List.lookup_eq_none_iff.mp found
    simp only [Option.getD_none, ne_eq, not_true_eq_false, false_iff]
    rintro ⟨voter, mem, rfl⟩
    simpa using fresh voter mem
  | some balance =>
    have mem := mem_of_lookup found
    exact iff_of_true (voters_pos _ mem).ne' ⟨_, mem, rfl⟩

/-- The context is determined by the histories when accounts with one voting key have one balance
and the balances that are counted again do not show in the total. The balances are parts of one
supply of 64 bits, so there are none: no two eligible accounts may share a voting key. Who is
eligible is determined in any case. -/
theorem deterministic_iff (epoch height : ℕ) (cfg : FinalizationConfiguration)
    (histories : AccountHistories) :
    let voters := voters epoch height cfg histories
    (Deterministic epoch height cfg histories ↔ Agree voters ∧
      (voters.map Prod.snd).sum % 2 ^ 64 = (voters.dedup.map Prod.snd).sum) ∧
    ((voters.map Prod.snd).sum < 2 ^ 64 →
      (Deterministic epoch height cfg histories ↔ (voters.map Prod.fst).Nodup)) ∧
    ∀ (other : AccountHistories) (ctx ctx' : FinalizationContext), other.Perm histories →
      ctx.accounts = (collect epoch height cfg histories).1 →
      ctx'.accounts = (collect epoch height cfg other).1 → ∀ votingPublicKey,
        ctx'.isEligibleVoter votingPublicKey = ctx.isEligibleVoter votingPublicKey := by
  intro voters
  have general : Deterministic epoch height cfg histories ↔ Agree voters ∧
      sum id voters % 2 ^ 64 = total id (emplaceAll voters) := by
    rw [Deterministic, weightOf_perm_iff, total_emplaceAll, collect_eq]
    rfl
  refine ⟨general.trans (and_congr_right fun agree => ?_), fun supply => general.trans ?_,
    fun other ctx ctx' perm collected collected' votingPublicKey => ?_⟩
  · rw [agree.total_emplaceAll id]
    rfl
  · have exact : sum id voters % 2 ^ 64 = sum id voters := Nat.mod_eq_of_lt supply
    rw [exact, eq_comm, total_emplaceAll_eq_sum_iff id voters_pos]
    refine and_iff_right_of_imp fun distinct voter mem other member' same => ?_
    rw [inj_on_of_nodup_map distinct mem member' same]
  · rw [Bool.eq_iff_iff, isEligibleVoter_iff collected, isEligibleVoter_iff collected']
    exact (((perm.map _).filterMap _).map _).mem_iff

/-- Two accounts registered one voting key with balances three and five: the weight of the key
depends on the order, and the total weight is eight. -/
theorem not_deterministic_shared :
    let cfg : FinalizationConfiguration := ⟨3, 2, 1, 3, 2, 4, 1, 0, []⟩
    let history (balance : ℕ) : AccountHistory :=
      ⟨HeightIndexedHistoryMap.empty.add 1 balance, HeightIndexedHistoryMap.empty.add 1 [⟨7, 1, 9⟩]⟩
    ¬Deterministic 2 1 cfg [(1, history 3), (2, history 5)] ∧
      weightOf (collect 2 1 cfg [(1, history 3), (2, history 5)]) 7 = 3 ∧
      weightOf (collect 2 1 cfg [(2, history 5), (1, history 3)]) 7 = 5 ∧
      (collect 2 1 cfg [(1, history 3), (2, history 5)]).2 = 8 := by
  intro cfg history
  refine ⟨fun deterministic => ?_, by decide, by decide, by decide⟩
  have swapped := deterministic.1 [(2, history 5), (1, history 3)] (List.Perm.swap _ _ _) 7
  revert swapped
  decide

def weightOfAll (ctx : FinalizationContext) (voters : Finset VotingKey) : ℕ :=
  ∑ votingPublicKey ∈ voters, ctx.lookup votingPublicKey

def Reaches (ctx : FinalizationContext) (voters : Finset VotingKey) : Prop :=
  calculateWeightedThreshold ctx ≤ ctx.weightOfAll voters

/-- Two sets of voters that reach the threshold share more than a third of the weight. -/
def QuorumsOverlap (ctx : FinalizationContext) : Prop :=
  ∀ first second : Finset VotingKey, ctx.Reaches first → ctx.Reaches second →
    ctx.weight < 3 * ctx.weightOfAll (first ∩ second)

variable {ctx : FinalizationContext}

private theorem weightOfAll_le (ctx : FinalizationContext) (voters : Finset VotingKey) :
    ctx.weightOfAll voters ≤ ctx.weight := by
  have covered : ctx.accounts.keys ⊆ ctx.accounts.keys ∪ voters := Finset.subset_union_left
  have part : ctx.weightOfAll voters ≤ total id ctx.accounts := by
    rw [total_eq_sum id _ covered]
    exact Finset.sum_le_sum_of_subset Finset.subset_union_right
  exact part.trans ctx.accounts_le

private theorem weightOfAll_inter (ctx : FinalizationContext) (first second : Finset VotingKey) :
    ctx.weightOfAll first + ctx.weightOfAll second ≤
      ctx.weight + ctx.weightOfAll (first ∩ second) := by
  have counted : ctx.weightOfAll (first ∪ second) + ctx.weightOfAll (first ∩ second) = _ :=
    Finset.sum_union_inter
  have bounded := weightOfAll_le ctx (first ∪ second)
  unfold weightOfAll at *
  omega

private theorem quorumsOverlap_of_lt (large : 2 * ctx.weight < 3 * calculateWeightedThreshold ctx) :
    ctx.QuorumsOverlap := by
  intro first second reached reached'
  have shared := weightOfAll_inter ctx first second
  unfold Reaches at reached reached'
  omega

/-- An account outside the excluded ones with a voting key for the second epoch. -/
def voter (cfg : FinalizationConfiguration) (index balance : ℕ) : VotingAccount :=
  ⟨cfg.treasuryReissuanceEpochIneligibleVoterAddresses.sum + 1 + index, balance,
    [⟨.ofNat 256 (index + 1), 2, 2⟩]⟩

private theorem eligibleKey?_voter {cfg : FinalizationConfiguration} {index balance : ℕ}
    (small : index < 3) :
    eligibleKey? 2 cfg (voter cfg index balance) =
      if balance = 0 then none else some (.ofNat 256 (index + 1)) := by
  have included : cfg.treasuryReissuanceEpochIneligibleVoterAddresses.contains
      (voter cfg index balance).address = false := by
    rw [← Bool.not_eq_true, List.contains_iff_mem]
    intro mem
    have := List.le_sum_of_mem mem
    simp only [voter] at this
    omega
  have pinned : findVotingPublicKeyForEpoch (voter cfg index balance).votingPublicKeys 2 =
      .ofNat 256 (index + 1) := rfl
  have registered : BitVec.ofNat 256 (index + 1) ≠ 0 := by
    rw [Ne, ← BitVec.toNat_inj, BitVec.toNat_ofNat]
    simp only [BitVec.ofNat_eq_ofNat, BitVec.toNat_ofNat]
    omega
  unfold eligibleKey?
  dsimp only
  rw [included, pinned, if_neg registered, Bool.and_false, if_neg Bool.false_ne_true]
  rfl

variable (cfg)

private theorem exists_context (x y z : ℕ)
    (supply : x + y + z < 2 ^ 64) (memory : 3 * cfg.maxHashesPerPoint < 2 ^ 64) :
    ∃ ctx : FinalizationContext, ctx.config = cfg ∧ ctx.weight = x + y + z ∧
      ctx.lookup 1 = x ∧ ctx.lookup 2 = y ∧ ctx.lookup 3 = z := by
  let accounts := [voter cfg 0 x, voter cfg 1 y, voter cfg 2 z]
  have balances : (accounts.map VotingAccount.balance).sum = x + y + z := by
    simp [accounts, voter, Nat.add_assoc]
  have entries : eligible 2 cfg accounts =
      (if x = 0 then [] else [(1, x)]) ++ (if y = 0 then [] else [(2, y)]) ++
        if z = 0 then [] else [(3, z)] := by
    simp only [eligible, accounts, List.filterMap_cons, List.filterMap_nil,
      eligibleKey?_voter (show 0 < 3 by decide), eligibleKey?_voter (show 1 < 3 by decide),
      eligibleKey?_voter (show 2 < 3 by decide)]
    split_ifs <;> rfl
  refine ⟨create 2 1 cfg accounts (balances ▸ supply) memory, rfl, ?_, ?_, ?_, ?_⟩
  · change (addAccounts 2 cfg accounts).2 = _
    rw [addAccounts_eq, entries]
    refine (congrArg (· % 2 ^ 64) ?_).trans (Nat.mod_eq_of_lt supply)
    split_ifs <;> simp_all [Emplacement.sum, Nat.add_assoc]
  all_goals
    change share id (addAccounts 2 cfg accounts).1 _ = _
    rw [addAccounts_eq, share, lookup_emplaceAll, entries]
    split_ifs <;> simp_all [List.lookup_cons]

private theorem exists_not_quorumsOverlap {weight threshold : ℕ}
    (supply : weight < 2 ^ 64) (memory : 3 * cfg.maxHashesPerPoint < 2 ^ 64)
    (small : 3 * threshold ≤ 2 * weight) :
    ∃ ctx : FinalizationContext, ctx.config = cfg ∧ ctx.weight = weight ∧
      ∃ first second : Finset VotingKey, threshold ≤ ctx.weightOfAll first ∧
        threshold ≤ ctx.weightOfAll second ∧
        3 * ctx.weightOfAll (first ∩ second) ≤ weight := by
  -- the shared voter has what two quorums need beyond the whole weight
  obtain ⟨ctx, configured, weight_eq, shared, one, other⟩ :=
    exists_context cfg (2 * threshold - weight) (min threshold (weight - threshold))
      (weight - threshold) (by omega) memory
  have pair : ctx.weightOfAll {1, 2} = ctx.lookup 1 + ctx.lookup 2 := Finset.sum_pair (by decide)
  have pair' : ctx.weightOfAll {1, 3} = ctx.lookup 1 + ctx.lookup 3 := Finset.sum_pair (by decide)
  have common : ({1, 2} ∩ {1, 3} : Finset VotingKey) = {1} := by decide
  have single : ctx.weightOfAll {1} = ctx.lookup 1 := Finset.sum_singleton _ _
  refine ⟨ctx, configured, by omega, {1, 2}, {1, 3}, by omega, by omega, ?_⟩
  rw [common, single]
  omega

end FinalizationContext

open FinalizationContext

private theorem mod_div_eq_div_iff {product size : ℕ} (pos : 0 < size) (fits : size ≤ 2 ^ 64) :
    product % 2 ^ 64 / size = product / size ↔ product < 2 ^ 64 := by
  constructor
  · intro same
    by_contra wrapped
    have less : product % 2 ^ 64 + size ≤ product := by omega
    have smaller : product % 2 ^ 64 / size < product / size := by
      rw [Nat.lt_iff_add_one_le, ← Nat.add_div_right _ pos]
      exact Nat.div_le_div_right less
    omega
  · intro exact
    rw [Nat.mod_eq_of_lt exact]

/-- For the contexts of one configuration and total weight, the threshold is the exact quotient and
two quorums overlap in more than a third of the weight when the product does not wrap around and
rounding down leaves more than two thirds of the weight. -/
theorem calculateWeightedThreshold_exact_iff {cfg : FinalizationConfiguration} {weight : ℕ}
    (size_pos : 0 < cfg.size) (size_lt : cfg.size < 2 ^ 64)
    (weight_lt : weight < 2 ^ 64) (hashes : cfg.maxHashesPerPoint < 2 ^ 32) :
    (∀ ctx : FinalizationContext, ctx.config = cfg → ctx.weight = weight →
      calculateWeightedThreshold ctx = weight * cfg.threshold / cfg.size ∧
        (2 * cfg.size < 3 * cfg.threshold → ctx.QuorumsOverlap)) ↔
      weight * cfg.threshold < 2 ^ 64 ∧ (2 * cfg.size < 3 * cfg.threshold →
        2 * weight < 3 * (weight * cfg.threshold / cfg.size)) := by
  have threshold_eq (ctx : FinalizationContext) (configured : ctx.config = cfg)
      (total : ctx.weight = weight) : calculateWeightedThreshold ctx =
        weight * cfg.threshold % 2 ^ 64 / cfg.size := by
    rw [calculateWeightedThreshold, configured, total]
  constructor
  · intro exact
    constructor
    · obtain ⟨ctx, configured, total, -⟩ := exists_context cfg weight 0 0 weight_lt (by omega)
      rw [← mod_div_eq_div_iff size_pos size_lt.le, ← threshold_eq ctx configured total]
      exact (exact ctx configured total).1
    · intro majority
      by_contra small
      obtain ⟨ctx, configured, total, first, second, reached, reached', little⟩ :=
        exists_not_quorumsOverlap cfg weight_lt (by omega) (not_lt.mp small)
      obtain ⟨value, overlap⟩ := exact ctx configured total
      have more := overlap majority first second (value.trans_le reached) (value.trans_le reached')
      omega
  · rintro ⟨fits, large⟩ ctx configured total
    have value := threshold_eq ctx configured total
    rw [Nat.mod_eq_of_lt fits] at value
    refine ⟨value, fun majority => quorumsOverlap_of_lt ?_⟩
    rw [value, total]
    exact large majority

theorem calculateWeightedThreshold_exact_hundred :
    let cfg : FinalizationConfiguration := ⟨10, 7, 1, 3, 2, 4, 1, 0, []⟩
    ∃ ctx : FinalizationContext, ctx.config = cfg ∧ ctx.weight = 100 ∧
      calculateWeightedThreshold ctx = 70 ∧ ctx.QuorumsOverlap := by
  intro cfg
  have exact := (@calculateWeightedThreshold_exact_iff cfg 100 (by decide) (by decide) (by decide)
    (by decide)).mpr (by decide)
  obtain ⟨ctx, configured, total, -⟩ := exists_context cfg 50 25 25 (by decide) (by decide)
  obtain ⟨value, overlap⟩ := exact ctx configured total
  exact ⟨ctx, configured, total, value.trans (by decide), overlap (by decide)⟩

/-- The shipped size and threshold, and two voters that hold the shipped maximum supply together:
the threshold is about a fiftieth of what it should be, so that each of them reaches it alone. -/
theorem calculateWeightedThreshold_wraps : ∃ ctx : FinalizationContext, ctx.config.size = 10000 ∧
      ctx.config.threshold = 6700 ∧ ctx.weight = 9 * 10 ^ 16 ∧
      calculateWeightedThreshold ctx = 1270418964129434 ∧
      9 * 10 ^ 16 * 6700 / 10000 = 60300000000000000 ∧
      ctx.Reaches {2} ∧ ctx.Reaches {3} ∧ ¬ctx.QuorumsOverlap := by
  obtain ⟨ctx, configured, total, -, second, third⟩ := exists_context
    ⟨10000, 6700, 1, 3, 2, 4, 1, 0, []⟩ 0 (45 * 10 ^ 15) (45 * 10 ^ 15) (by decide) (by decide)
  have value : calculateWeightedThreshold ctx = 1270418964129434 := by
    rw [calculateWeightedThreshold, configured, total]
    rfl
  have reaches (votingPublicKey : VotingKey)
      (half : ctx.lookup votingPublicKey = 45 * 10 ^ 15) :
      ctx.Reaches {votingPublicKey} := by
    rw [Reaches, value, weightOfAll, Finset.sum_singleton, half]
    decide
  refine ⟨ctx, by rw [configured], by rw [configured], total, value, by decide,
    reaches 2 second, reaches 3 third, fun overlap => ?_⟩
  have shared := overlap {2} {3} (reaches 2 second) (reaches 3 third)
  have nobody : ctx.weightOfAll ({2} ∩ {3}) = 0 := Finset.sum_empty
  omega

/-- A voter prevotes for one chain to one node and for another chain to the other. -/
def PrevotesTwice (crypto : MessageCrypto) (ctx : FinalizationContext)
    (messages messages' : List FinalizationMessage) (voter : VotingKey) : Prop :=
  ∃ message ∈ messages, ∃ message' ∈ messages', Admissible crypto ctx message ∧
    Admissible crypto ctx message' ∧ message.key = (voter, true) ∧ message'.key = (voter, true) ∧
    ctx.voteOf message ≠ ctx.voteOf message'

section Agreement
open RoundMessageAggregator (create)

variable {crypto : MessageCrypto} {ctx : FinalizationContext} {agg : RoundMessageAggregator}
  {accepted : List FinalizationMessage}

/-- A finalized block is on the chains that a quorum has prevoted for. -/
private theorem Holds.exists_quorum (holds : Holds crypto ctx accepted agg)
    {best : Model.HeightHashPair} (found : agg.roundContext.tryFindBestPrecommit = some best) :
    ∃ voters, ctx.Reaches voters ∧ ∀ voter ∈ voters, ∃ message ∈ accepted,
      message.key = (voter, true) ∧ (ctx.voteOf message).Prevotes best := by
  classical
  obtain ⟨registered, ownWeight, prevoteOnce, -⟩ := holds.fromVoters
  have isPrevote : ∀ vote : Vote, vote.Prevotes best → vote.IsPrevote
    | .prevote _, _ => trivial
  refine ⟨{voter ∈ ctx.accounts.keys | ∃ message ∈ accepted, message.key = (voter, true) ∧
    (ctx.voteOf message).Prevotes best}, ?_, fun voter mem => (Finset.mem_filter.mp mem).2⟩
  have reached := (lastMatch_spec found).2.1
  rw [Bool.and_eq_true, decide_eq_true_eq, prevote_eq holds.withinTotal holds.sound,
    prevoteWeight, votesOf_eq, holds.counted, (RoundContext.acceptAll_limits _ _).2] at reached
  refine reached.1.trans (tally_le_sum (fun cast mem prevotes => ?_) ownWeight
    (prevoteOnce.sublist ?_))
  · obtain ⟨message, inside, rfl⟩ := mem_map.mp mem
    have stage := (isPrevote_vote message _).mp (isPrevote _ prevotes)
    exact Finset.mem_filter.mpr ⟨registered _ mem, message, inside, Prod.ext rfl stage, prevotes⟩
  · refine (monotone_filter_right _ fun cast prevotes => ?_).map _
    exact decide_eq_true (isPrevote cast.2 (of_decide_eq_true prevotes))

/-- Whatever reaches two nodes in one round, the blocks they finalize lie on one chain that some
voter has prevoted for, if quorums overlap in more than a third of the weight and the voters with
two different prevotes have at most a third of it. -/
theorem finalizedBlocks_agree (crypto : MessageCrypto) (ctx : FinalizationContext)
    (messages messages' : List FinalizationMessage) (overlap : ctx.QuorumsOverlap)
    (honest : ∀ voters : Finset VotingKey,
      (∀ voter ∈ voters, PrevotesTwice crypto ctx messages messages' voter) →
        3 * ctx.weightOfAll voters ≤ ctx.weight)
    {best best' : Model.HeightHashPair}
    (found : ((create ctx).offerAll crypto messages).roundContext.tryFindBestPrecommit = some best)
    (found' : ((create ctx).offerAll crypto messages').roundContext.tryFindBestPrecommit =
      some best') :
    (∃ message ∈ messages, (ctx.voteOf message).Prevotes best ∧
      (ctx.voteOf message).Prevotes best') ∧ (best.height = best'.height → best = best') := by
  obtain ⟨accepted, sublist, holds⟩ := (create_holds crypto ctx).offerAll messages
  obtain ⟨accepted', sublist', holds'⟩ := (create_holds crypto ctx).offerAll messages'
  obtain ⟨voters, reaches, voted⟩ := holds.exists_quorum found
  obtain ⟨voters', reaches', voted'⟩ := holds'.exists_quorum found'
  have common : ∃ voter ∈ voters ∩ voters', ¬PrevotesTwice crypto ctx messages messages' voter := by
    by_contra! twice
    exact absurd (honest _ twice) (Nat.not_le.mpr (overlap voters voters' reaches reaches'))
  obtain ⟨voter, both, once⟩ := common
  obtain ⟨inside, inside'⟩ := Finset.mem_inter.mp both
  obtain ⟨message, mem, key, prevotes⟩ := voted voter inside
  obtain ⟨message', mem', key', prevotes'⟩ := voted' voter inside'
  have same : ctx.voteOf message = ctx.voteOf message' := by
    by_contra differ
    exact once ⟨message, sublist.subset mem, message', sublist'.subset mem',
      holds.admissible message mem, holds'.admissible message' mem', key, key', differ⟩
  rw [← same] at prevotes'
  refine ⟨⟨message, sublist.subset mem, prevotes, prevotes'⟩, fun heights => ?_⟩
  cases vote : ctx.voteOf message with
  | precommit _ =>
    rw [vote] at prevotes
    exact prevotes.elim
  | prevote prevote =>
    rw [vote] at prevotes prevotes'
    exact inj_on_of_nodup_map (pairwise_map.mpr
      (blocksFrom_pairwise prevote.height prevote.count_le)) prevotes prevotes' heights

/-- Voters 7, 8 and 9 have weights 40, 35 and 25, and a quorum has 70. -/
def threeVoters : FinalizationContext :=
  FinalizationContext.create 2 1 ⟨10, 7, 15, 5, 4, 10, 600, 9, []⟩
    [⟨1, 40, [⟨7, 1, 9⟩]⟩, ⟨2, 35, [⟨8, 1, 9⟩]⟩, ⟨3, 25, [⟨9, 1, 9⟩]⟩] (by decide)
    (by change 3 * 5 < 2 ^ 64; decide)

def voterMessage (votingKey : VotingKey) (stage : FinalizationStage) (hash : Hash256) :
    FinalizationMessage :=
  ⟨0, ⟨⟨votingKey, 0⟩, ⟨0, 0⟩⟩, 1, StepIdentifier.create 2 1 stage, 1, [hash], by simp⟩

/-- Voter 9 prevotes for different blocks to the two nodes. -/
theorem finalizedBlocks_agree_reordered :
    let round messages := ((create threeVoters).offerAll exampleCrypto messages).roundContext
    let messages := [voterMessage 7 .prevote 10, voterMessage 8 .prevote 10,
      voterMessage 9 .prevote 10, voterMessage 7 .precommit 10, voterMessage 8 .precommit 10]
    let messages' := [voterMessage 9 .prevote 11, voterMessage 8 .precommit 10,
      voterMessage 8 .prevote 10, voterMessage 7 .precommit 10, voterMessage 7 .prevote 10]
    ∃ best best', (round messages).tryFindBestPrecommit = some best ∧
      (round messages').tryFindBestPrecommit = some best' ∧ best = best' := by
  intro round messages messages'
  have found : (round messages).tryFindBestPrecommit = some ⟨1, 10⟩ := by decide +kernel
  have found' : (round messages').tryFindBestPrecommit = some ⟨1, 10⟩ := by decide +kernel
  refine ⟨_, _, found, found', (finalizedBlocks_agree exampleCrypto threeVoters messages messages'
    (quorumsOverlap_of_lt (by decide +kernel)) (fun voters twice => ?_) found found').2 rfl⟩
  have once : ∀ message ∈ messages, ∀ message' ∈ messages', message.key = message'.key →
      message.key.2 = true → message.key.1 ≠ 9 → message = message' := by decide +kernel
  have only : voters ⊆ {9} := by
    intro voter mem
    obtain ⟨message, inside, message', inside', -, -, key, key', differ⟩ := twice voter mem
    by_contra other
    have same := once message inside message' inside' (key.trans key'.symm)
      (congrArg Prod.snd key) (by simpa [key] using other)
    exact differ (congrArg _ same)
  have least := Finset.sum_le_sum_of_subset (f := threeVoters.lookup) only
  rw [Finset.sum_singleton] at least
  have weights : 3 * threeVoters.lookup 9 ≤ threeVoters.weight := by decide +kernel
  exact (Nat.mul_le_mul_left 3 least).trans weights

end Agreement

end BitxorCore.Finalization
