/- GID: Harvesting/HarvestFee
   anchors: [plugins/coresystem/src/observers/HarvestFeeObserver.cpp, src/bitxorcore/model]
   digest: Fees are split exactly and taken back exactly. -/

import BitxorCore.Chain.BlockExecutor

set_option autoImplicit false
set_option relaxedAutoImplicit false

namespace BitxorCore.Harvesting
open Cache AccountStateCacheDelta Chain State AccountBalances

structure HarvestFeeConfiguration where
  currencyTokenId : TokenId
  harvestBeneficiaryPercentage : ℕ
  harvestNetworkPercentage : ℕ
  harvestControlStakePercentage : ℕ
  harvestNetworkFeeSinkAddress : Address
  harvestNetworkFeeSinkAddressPOS : Address
  harvestControlStakeFeeSinkAddress : Address
  harvestControlStakeFeeSinkAddressPOS : Address
  treasuryReissuance : ℕ
  inflation : ℕ → ℕ
  percentages_le : harvestBeneficiaryPercentage + harvestNetworkPercentage +
    harvestControlStakePercentage ≤ 100

structure BlockNotification where
  harvester : Address
  beneficiary : Address
  totalFee : ℕ

/-- A `HeightDependentAddress` with one address in force below an end height; zero is none. -/
def heightDependentAddress (defaultAddress address : Address) (endHeight height : ℕ) : Address :=
  if endHeight ≠ 0 ∧ 1 ≤ height ∧ height < endHeight then address else defaultAddress

def subtract (lhs rhs : ℕ) : ℕ := store64 (lhs + 2 ^ 64 - rhs)

namespace HarvestFeeConfiguration
variable (cfg : HarvestFeeConfiguration) (height : ℕ) (notice : BlockNotification)

def networkSink : Address :=
  heightDependentAddress cfg.harvestNetworkFeeSinkAddress cfg.harvestNetworkFeeSinkAddressPOS
    cfg.treasuryReissuance height

def controlStakeSink : Address :=
  heightDependentAddress cfg.harvestControlStakeFeeSinkAddress
    cfg.harvestControlStakeFeeSinkAddressPOS cfg.treasuryReissuance height

def reward : ℕ := notice.totalFee + cfg.inflation height

def totalAmount : ℕ := store64 (cfg.reward height notice)

def share (percentage : ℕ) : ℕ := store64 (cfg.totalAmount height notice * percentage) / 100

def networkAmount : ℕ := cfg.share height notice cfg.harvestNetworkPercentage

def controlStakeAmount : ℕ := cfg.share height notice cfg.harvestControlStakePercentage

def beneficiaryAmount : ℕ :=
  if 0 < cfg.harvestBeneficiaryPercentage ∧ notice.harvester ≠ notice.beneficiary then
    cfg.share height notice cfg.harvestBeneficiaryPercentage
  else 0

def harvesterAmount : ℕ :=
  subtract (subtract (subtract (cfg.totalAmount height notice) (cfg.networkAmount height notice))
    (cfg.controlStakeAmount height notice)) (cfg.beneficiaryAmount height notice)

/-- The amounts that are applied, in this order; only the harvester's may be zero. -/
def shares : List (Address × ℕ) :=
  (notice.harvester, cfg.harvesterAmount height notice) ::
    [(cfg.networkSink height, cfg.networkAmount height notice),
      (cfg.controlStakeSink height, cfg.controlStakeAmount height notice),
      (notice.beneficiary, cfg.beneficiaryAmount height notice)].filter (·.2 ≠ 0)

end HarvestFeeConfiguration

def applyFee (mode : NotifyMode) (tokenId : TokenId) (amount : ℕ) (accountState : AccountState) :
    Option AccountState :=
  match mode with
  | .rollback => (debit accountState.balances tokenId amount).map
      fun balances => { accountState with balances }
  | .commit => some { accountState with
      balances := credit store64 accountState.balances tokenId amount }

def applyAll (mode : NotifyMode) (tokenId : TokenId) :
    List (Address × ℕ) → AccountStateCacheDelta → Option AccountStateCacheDelta
  | [], cache => some cache
  | share :: rest, cache =>
    (cache.processForwardedAccountState share.1 (applyFee mode tokenId share.2)).bind
      (applyAll mode tokenId rest)

def harvestFeeObserver (cfg : HarvestFeeConfiguration) (mode : NotifyMode) (height : ℕ)
    (notice : BlockNotification) : AccountStateCacheDelta → Option AccountStateCacheDelta :=
  applyAll mode cfg.currencyTokenId (cfg.shares height notice)

def balance (cache : AccountStateCacheDelta) (address : Address) (tokenId : TokenId) : ℕ :=
  (cache.find address).elim 0 (·.balances.get tokenId)

def posted (forwarded : Address → Option Address) (shares : List (Address × ℕ))
    (address : Address) : ℕ :=
  ((shares.filter fun share => forwarded share.1 = some address).map (·.2)).sum

def Moved (mode : NotifyMode) (amount before after : ℕ) : Prop :=
  match mode with
  | .commit => after = before + amount
  | .rollback => before = after + amount

def Movable (mode : NotifyMode) (amount before : ℕ) : Prop :=
  match mode with
  | .commit => before + amount < 2 ^ 64
  | .rollback => amount ≤ before

variable {mode : NotifyMode} {tokenId : TokenId} {cache after : AccountStateCacheDelta}
  {shares : List (Address × ℕ)} {share : Address × ℕ} {target : Address}

private theorem applyFee_keepsLinks (mode : NotifyMode) (tokenId : TokenId) (amount : ℕ) :
    KeepsLinks (applyFee mode tokenId amount) := by
  intro before after done
  cases mode
  · cases done
    exact ⟨rfl, rfl, rfl⟩
  · obtain ⟨balances, -, rfl⟩ := Option.map_eq_some_iff.mp done
    exact ⟨rfl, rfl, rfl⟩

private theorem applyFee_moved {amount : ℕ} {accountState : AccountState}
    (movable : Movable mode amount (accountState.balances.get tokenId)) :
    ∃ changed, applyFee mode tokenId amount accountState = some changed ∧ ∀ other,
      Moved mode (if other = tokenId then amount else 0) (accountState.balances.get other)
        (changed.balances.get other) := by
  cases mode with
  | commit => exact ⟨_, rfl, get_credit (store64_of_lt movable)⟩
  | rollback =>
    obtain ⟨balances, done⟩ : ∃ balances, debit accountState.balances tokenId amount =
        some balances := by
      have enough : amount ≤ (accountState.balances.lookup tokenId).getD 0 := movable
      refine Option.isSome_iff_exists.mp ?_
      unfold debit
      cases found : accountState.balances.lookup tokenId <;> grind
    obtain ⟨enough, moved⟩ := get_debit done
    refine ⟨{ accountState with balances }, congrArg (Option.map _) done, fun other => ?_⟩
    show accountState.balances.get other = balances.get other + _
    rw [moved other]
    split_ifs with same
    · subst same
      omega
    · omega

private theorem find_of_forwarded {address : Address}
    (known : cache.forwardedAddress address = some target) :
    ∃ accountState, cache.find target = some accountState := by
  simp only [forwardedAddress, Option.bind_eq_bind, Option.bind_eq_some_iff] at known
  obtain ⟨accountState, found, forwarded⟩ := known
  split_ifs at forwarded with isMain
  · cases forwarded
    exact ⟨_, found⟩
  · obtain ⟨linked, -, rest⟩ := Option.bind_eq_some_iff.mp forwarded
    obtain ⟨linkedState, there, last⟩ := Option.bind_eq_some_iff.mp rest
    split_ifs at last
    cases last
    exact ⟨_, there⟩

private theorem forwarded_of_processed {address : Address} {amount : ℕ}
    (done : cache.processForwardedAccountState address (applyFee mode tokenId amount) = some after) :
    (cache.forwardedAddress address).isSome ∧ after.forwardedAddress = cache.forwardedAddress := by
  obtain ⟨target, forwarded, modified⟩ := Option.bind_eq_some_iff.mp done
  exact ⟨by rw [forwarded]; rfl,
    funext (forwardedAddress_modify (applyFee_keepsLinks mode tokenId amount) modified)⟩

private theorem share_moved (known : cache.forwardedAddress share.1 = some target)
    (movable : Movable mode share.2 (balance cache target tokenId)) :
    ∃ after, cache.processForwardedAccountState share.1 (applyFee mode tokenId share.2) =
        some after ∧
      ∀ address other, Moved mode (if target = address ∧ other = tokenId then share.2 else 0)
        (balance cache address other) (balance after address other) := by
  obtain ⟨accountState, found⟩ := find_of_forwarded known
  rw [balance, found] at movable
  obtain ⟨changed, applied, moved⟩ := applyFee_moved movable
  refine ⟨{ cache with stateByAddress := cache.stateByAddress.insert target changed },
    by simp [processForwardedAccountState, known, AccountStateCacheDelta.modify, found, applied],
    fun address other => ?_⟩
  unfold find at found
  unfold balance find
  rw [Library.FiniteMap.lookup_insert_apply]
  by_cases here : target = address
  · subst here
    simpa [found] using moved other
  · simp only [here, Ne.symm here, false_and, if_false]
    cases mode <;> rfl

private theorem forwarded_of_applyAll (done : applyAll mode tokenId shares cache = some after) :
    (∀ share ∈ shares, (cache.forwardedAddress share.1).isSome) ∧
      after.forwardedAddress = cache.forwardedAddress := by
  induction shares generalizing cache with
  | nil =>
    cases done
    simp
  | cons share rest ih =>
    obtain ⟨next, processed, doneRest⟩ := Option.bind_eq_some_iff.mp done
    obtain ⟨known, links⟩ := forwarded_of_processed processed
    rw [← links]
    obtain ⟨knownRest, linksRest⟩ := ih doneRest
    exact ⟨List.forall_mem_cons.mpr ⟨links ▸ known, knownRest⟩, linksRest⟩

private theorem applyAll_moved (known : ∀ share ∈ shares, (cache.forwardedAddress share.1).isSome)
    (movable : ∀ address,
      Movable mode (posted cache.forwardedAddress shares address) (balance cache address tokenId)) :
    ∃ after, applyAll mode tokenId shares cache = some after ∧ ∀ address other, Moved mode
      (if other = tokenId then posted cache.forwardedAddress shares address else 0)
      (balance cache address other) (balance after address other) := by
  induction shares generalizing cache with
  | nil => exact ⟨cache, rfl, by cases mode <;> simp [Moved, posted]⟩
  | cons share rest ih =>
    obtain ⟨target, forwarded⟩ := Option.isSome_iff_exists.mp (known share List.mem_cons_self)
    have total : ∀ address, posted cache.forwardedAddress (share :: rest) address =
        (if target = address then share.2 else 0) + posted cache.forwardedAddress rest address := by
      intro address
      unfold posted
      by_cases here : target = address <;> simp [forwarded, here]
    have first : Movable mode share.2 (balance cache target tokenId) := by
      have here := movable target
      rw [total, if_pos rfl] at here
      cases mode <;> simp only [Movable] at here ⊢ <;> omega
    obtain ⟨next, done, moved⟩ := share_moved forwarded first
    obtain ⟨-, links⟩ := forwarded_of_processed done
    have remaining : ∀ address, Movable mode (posted next.forwardedAddress rest address)
        (balance next address tokenId) := by
      intro address
      have before := movable address
      have change := moved address tokenId
      rw [total] at before
      simp only [and_true] at change
      rw [links]
      cases mode <;> simp only [Movable, Moved] at * <;> omega
    obtain ⟨after, doneRest, movedRest⟩ :=
      ih (fun share mem => links ▸ known share (List.mem_cons_of_mem _ mem)) remaining
    refine ⟨after, by rw [applyAll, done]; exact doneRest, fun address other => ?_⟩
    have change := moved address other
    have changeRest := movedRest address other
    rw [links] at changeRest
    rw [total]
    cases mode <;> simp only [Moved] at * <;> split_ifs at * <;> grind

theorem isSome_applyAll : (applyAll .commit tokenId shares cache).isSome ↔
    ∀ share ∈ shares, (cache.forwardedAddress share.1).isSome := by
  refine ⟨fun done => (forwarded_of_applyAll (Option.get_mem done)).1, fun known => ?_⟩
  induction shares generalizing cache with
  | nil => rfl
  | cons share rest ih =>
    obtain ⟨target, forwarded⟩ := Option.isSome_iff_exists.mp (known share List.mem_cons_self)
    obtain ⟨accountState, found⟩ := find_of_forwarded forwarded
    obtain ⟨next, done⟩ : ∃ next, cache.processForwardedAccountState share.1
        (applyFee .commit tokenId share.2) = some next := by
      simp [processForwardedAccountState, forwarded, AccountStateCacheDelta.modify, found, applyFee]
    obtain ⟨-, links⟩ := forwarded_of_processed done
    rw [applyAll, done]
    exact ih fun other mem => links ▸ known other (List.mem_cons_of_mem _ mem)

theorem applyAll_rollback
    (fits : ∀ address, balance cache address tokenId + (shares.map (·.2)).sum < 2 ^ 64)
    (done : applyAll .commit tokenId shares cache = some after) :
    (∀ address other, balance after address other = balance cache address other +
      if other = tokenId then posted cache.forwardedAddress shares address else 0) ∧
    ∃ restored, applyAll .rollback tokenId shares after = some restored ∧
      ∀ address other, balance restored address other = balance cache address other := by
  obtain ⟨known, links⟩ := forwarded_of_applyAll done
  have small : ∀ address, posted cache.forwardedAddress shares address ≤ (shares.map (·.2)).sum :=
    fun address => (List.filter_sublist.map _).sum_le_sum (by simp)
  obtain ⟨_, same, moved⟩ := @applyAll_moved .commit tokenId cache shares known
    fun address => (Nat.add_le_add_left (small address) _).trans_lt (fits address)
  cases done.symm.trans same
  obtain ⟨restored, undone, back⟩ := @applyAll_moved .rollback tokenId after shares
    (links ▸ known) fun address => by
      have change := moved address tokenId
      simp only [Moved, if_true] at change
      simp only [Movable, links]
      omega
  refine ⟨moved, restored, undone, fun address other => ?_⟩
  have there := moved address other
  have here := back address other
  simp only [Moved, links] at there here
  omega

namespace HarvestFeeConfiguration
variable (cfg : HarvestFeeConfiguration) {height : ℕ} {notice : BlockNotification}

private theorem share_eq (hundred : cfg.reward height notice * 100 < 2 ^ 64) {percentage : ℕ}
    (atMost : percentage ≤ 100) :
    cfg.share height notice percentage = cfg.reward height notice * percentage / 100 := by
  have less := Nat.mul_le_mul_left (cfg.reward height notice) atMost
  have small : store64 (cfg.reward height notice) = cfg.reward height notice :=
    store64_of_lt (by omega)
  rw [share, totalAmount, small, store64_of_lt (less.trans_lt hundred)]

private theorem subtract_three {total first second third : ℕ} (le : first + second + third ≤ total)
    (lt : total < 2 ^ 64) :
    subtract (subtract (subtract total first) second) third + first + second + third = total := by
  have exact {lhs rhs : ℕ} (le : rhs ≤ lhs) (lt : lhs < 2 ^ 64) : subtract lhs rhs = lhs - rhs := by
    unfold subtract store64
    omega
  rw [@exact total first (by omega) lt, @exact (total - first) second (by omega) (by omega),
    exact (by omega) (by omega)]
  omega

private theorem harvesterAmount_add (hundred : cfg.reward height notice * 100 < 2 ^ 64) :
    cfg.harvesterAmount height notice + cfg.networkAmount height notice +
      cfg.controlStakeAmount height notice + cfg.beneficiaryAmount height notice =
      cfg.reward height notice := by
  have percentages := cfg.percentages_le
  have parts := Nat.mul_le_mul_left (cfg.reward height notice) percentages
  simp only [Nat.mul_add] at parts
  have most : cfg.beneficiaryAmount height notice ≤
      cfg.reward height notice * cfg.harvestBeneficiaryPercentage / 100 := by
    unfold beneficiaryAmount
    split
    · exact (cfg.share_eq hundred (by omega)).le
    · exact Nat.zero_le _
  unfold harvesterAmount networkAmount controlStakeAmount totalAmount
  rw [cfg.share_eq hundred (by omega), cfg.share_eq hundred (by omega), store64_of_lt (by omega)]
  exact subtract_three (by omega) (by omega)

private theorem shares_sum (hundred : cfg.reward height notice * 100 < 2 ^ 64) :
    ((cfg.shares height notice).map (·.2)).sum = cfg.reward height notice := by
  have nonzero : ∀ l : List (Address × ℕ), ((l.filter (·.2 ≠ 0)).map (·.2)).sum =
      (l.map (·.2)).sum := by
    intro l
    induction l with
    | nil => rfl
    | cons share rest ih => by_cases zero : share.2 = 0 <;> simp_all
  have total := cfg.harvesterAmount_add hundred
  rw [shares, List.map_cons, List.sum_cons, nonzero]
  simp only [List.map_cons, List.map_nil, List.sum_cons, List.sum_nil]
  omega

/-- The reward is split exactly, and a block that is undone takes back what it has credited. -/
theorem harvestFee_exact (hundred : cfg.reward height notice * 100 < 2 ^ 64) :
    ((cfg.shares height notice).map (·.2)).sum = cfg.reward height notice ∧
    cfg.harvesterAmount height notice + cfg.networkAmount height notice +
      cfg.controlStakeAmount height notice + cfg.beneficiaryAmount height notice =
      cfg.reward height notice ∧
    (∀ percentage ≤ 100, cfg.share height notice percentage =
      cfg.reward height notice * percentage / 100) ∧
    ∀ cache after, harvestFeeObserver cfg .commit height notice cache = some after →
      (∀ address, balance cache address cfg.currencyTokenId + cfg.reward height notice < 2 ^ 64) →
      (∀ address tokenId, balance after address tokenId = balance cache address tokenId +
        if tokenId = cfg.currencyTokenId then
          posted cache.forwardedAddress (cfg.shares height notice) address else 0) ∧
      ∃ restored, harvestFeeObserver cfg .rollback height notice after = some restored ∧
        ∀ address tokenId, balance restored address tokenId = balance cache address tokenId := by
  have total := cfg.shares_sum hundred
  exact ⟨total, cfg.harvesterAmount_add hundred, fun _ => cfg.share_eq hundred,
    fun cache after done fits => applyAll_rollback (total ▸ fits) done⟩

/-- A tenth of each reward is due to the given control stake sink. -/
def tithe (sink : Address) : HarvestFeeConfiguration :=
  ⟨0, 0, 0, 10, 0, 0, sink, sink, 0, fun _ => 0, by decide⟩

theorem harvestFee_exact_tithe : ∃ after restored,
    harvestFeeObserver (tithe 1) .commit 2 ⟨1, 1, 1000⟩ (empty.addAccount 1 1) = some after ∧
    harvestFeeObserver (tithe 1) .rollback 2 ⟨1, 1, 1000⟩ after = some restored ∧
    balance after 1 0 = 1000 ∧ balance restored 1 0 = 0 := by
  obtain ⟨after, done⟩ := Option.isSome_iff_exists.mp (show (harvestFeeObserver (tithe 1) .commit 2
    ⟨1, 1, 1000⟩ (empty.addAccount 1 1)).isSome by decide +kernel)
  obtain ⟨moved, restored, undone, back⟩ :=
    ((tithe 1).harvestFee_exact (by decide)).2.2.2 _ after done fun address => by
      rw [show balance (empty.addAccount 1 1) address (tithe 1).currencyTokenId = 0 by
        by_cases here : address = 1#192 <;>
          simp [balance, find, addAccount, empty, Library.FiniteMap.lookup_insert_apply, here]
        rfl]
      decide
  refine ⟨after, restored, done, undone, ?_, ?_⟩
  · rw [moved]
    decide +kernel
  · rw [back]
    decide +kernel

end HarvestFeeConfiguration
end BitxorCore.Harvesting
