/- GID: Harvesting/FeeAccounts
   anchors: [plugins/coresystem/src/observers, src/bitxorcore/model]
   digest: In a chain the fees can be applied exactly if its notifications announce the sinks. -/

import BitxorCore.Harvesting.HarvestFee

set_option autoImplicit false
set_option relaxedAutoImplicit false

namespace BitxorCore.Harvesting
open Cache AccountStateCacheDelta Chain State Library.FiniteMap

/-- What holds of the account cache all along a chain: a key is stored with its own address, the
keys of linked accounts are known, and every account is forwarded to the one that acts for it. -/
structure WellLinked (toAddress : Key → Address) (cache : AccountStateCacheDelta) : Prop where
  keyed : ∀ key address, cache.keyToAddress.lookup key = some address → address = toAddress key
  linkedKeys : ∀ address accountState, cache.find address = some accountState →
    accountState.accountType = .main ∨ accountState.accountType = .remote →
    accountState.publicKeyHeight ≠ 0
  forwarded : ∀ address, (cache.find address).isSome → (cache.forwardedAddress address).isSome

/-- What the observers of all other notifications of an accepted transaction do: they change
accounts in place, and leave linked accounts linked. -/
structure AccountChange (toAddress : Key → Address) where
  observe : AccountStateCacheDelta → AccountStateCacheDelta
  wellLinked : ∀ cache, WellLinked toAddress cache → WellLinked toAddress (observe cache)
  isSome_find : ∀ cache address, ((observe cache).find address).isSome = (cache.find address).isSome

inductive AccountNotification (toAddress : Key → Address)
  | accountAddress (address : Address)
  | accountPublicKey (publicKey : Key)
  | other (change : AccountChange toAddress)

structure Transaction (toAddress : Key → Address) where
  signerPublicKey : Key
  notifications : List (AccountNotification toAddress)

structure Block (toAddress : Key → Address) where
  signerPublicKey : Key
  beneficiaryAddress : Address
  totalFee : ℕ
  transactions : List (Transaction toAddress)

variable {toAddress : Key → Address}

def accountAddressObserver (mode : NotifyMode) (height : ℕ) (address : Address)
    (cache : AccountStateCacheDelta) : AccountStateCacheDelta :=
  match mode with
  | .commit => cache.addAccount address height
  | .rollback => cache.queueRemove address height

def accountPublicKeyObserver (toAddress : Key → Address) (mode : NotifyMode) (height : ℕ)
    (publicKey : Key) (cache : AccountStateCacheDelta) : AccountStateCacheDelta :=
  match mode with
  | .commit => addAccountByKey toAddress cache publicKey height
  | .rollback => cache.queueRemoveByKey publicKey height

namespace AccountNotification

def execute (height : ℕ) (cache : AccountStateCacheDelta) :
    AccountNotification toAddress → AccountStateCacheDelta
  | accountAddress address => accountAddressObserver .commit height address cache
  | accountPublicKey publicKey => accountPublicKeyObserver toAddress .commit height publicKey cache
  | other change => change.observe cache

/-- The account a notification announces. -/
def announced : AccountNotification toAddress → Option Address
  | accountAddress address => some address
  | accountPublicKey publicKey => some (toAddress publicKey)
  | other _ => none

end AccountNotification

namespace HarvestFeeConfiguration
variable (cfg : HarvestFeeConfiguration) (height : ℕ)

/-- `ExtractGenesisNotificationPublisherOptions`. -/
def specialAccountAddresses : List Address :=
  if 0 < cfg.harvestNetworkPercentage then [cfg.networkSink 1] else []

/-- The genesis publisher announces the special accounts before each entity. -/
def publishSpecial : List (AccountNotification toAddress) :=
  if height = 1 then cfg.specialAccountAddresses.map .accountAddress else []

end HarvestFeeConfiguration

namespace Block
variable (cfg : HarvestFeeConfiguration) (height : ℕ) (block : Block toAddress)

def notice : BlockNotification :=
  ⟨toAddress block.signerPublicKey, block.beneficiaryAddress, block.totalFee⟩

def publishTransactions : List (AccountNotification toAddress) :=
  block.transactions.flatMap fun transaction => cfg.publishSpecial height ++
    .accountPublicKey transaction.signerPublicKey :: transaction.notifications

/-- The notifications of the block itself up to the one for which fees are applied. -/
def publishBlock : List (AccountNotification toAddress) :=
  cfg.publishSpecial height ++ .accountPublicKey block.signerPublicKey ::
    if toAddress block.signerPublicKey ≠ block.beneficiaryAddress then
      [.accountAddress block.beneficiaryAddress] else []

def publish : List (AccountNotification toAddress) :=
  block.publishTransactions cfg height ++ block.publishBlock cfg height

/-- The accounts when the fees of the block are applied. -/
def ready (cache : AccountStateCacheDelta) : AccountStateCacheDelta :=
  (block.publish cfg height).foldl (AccountNotification.execute height) cache

def execute (cache : AccountStateCacheDelta) : Option AccountStateCacheDelta :=
  harvestFeeObserver cfg .commit height block.notice (block.ready cfg height cache)

end Block

section Accounts

variable {cache next after : AccountStateCacheDelta} {height : ℕ} {address : Address}

/-- What an account keeps that is linked to another one. -/
structure SameLinks (before after : AccountState) : Prop where
  accountType : after.accountType = before.accountType
  linkedPublicKey : after.linkedPublicKey = before.linkedPublicKey
  publicKey : before.publicKeyHeight ≠ 0 →
    after.publicKey = before.publicKey ∧ after.publicKeyHeight = before.publicKeyHeight

/-- Accounts and keys are added, and the accounts there are stay linked. -/
structure Extends (toAddress : Key → Address) (cache after : AccountStateCacheDelta) : Prop where
  stored : ∀ key address, cache.keyToAddress.lookup key = some address →
    after.keyToAddress.lookup key = some address
  keyed : ∀ key address, after.keyToAddress.lookup key = some address →
    cache.keyToAddress.lookup key = some address ∨ address = toAddress key
  kept : ∀ address before, cache.find address = some before →
    ∃ accountState, after.find address = some accountState ∧ SameLinks before accountState
  added : ∀ address accountState, cache.find address = none →
    after.find address = some accountState → accountState.accountType = .unlinked

private theorem Extends.refl (cache : AccountStateCacheDelta) : Extends toAddress cache cache where
  stored _ _ found := found
  keyed _ _ found := .inl found
  kept _ before found := ⟨before, found, rfl, rfl, fun _ => ⟨rfl, rfl⟩⟩
  added _ _ absent found := by simp [absent] at found

private theorem Extends.trans (first : Extends toAddress cache next)
    (second : Extends toAddress next after) : Extends toAddress cache after where
  stored key address found := second.stored key address (first.stored key address found)
  keyed key address found := (second.keyed key address found).elim (first.keyed key address) .inr
  kept address before found := by
    obtain ⟨middle, foundNext, same⟩ := first.kept address before found
    obtain ⟨accountState, foundAfter, same'⟩ := second.kept address middle foundNext
    refine ⟨accountState, foundAfter, same'.accountType.trans same.accountType,
      same'.linkedPublicKey.trans same.linkedPublicKey, fun known => ?_⟩
    obtain ⟨key, keyHeight⟩ := same.publicKey known
    obtain ⟨key', keyHeight'⟩ := same'.publicKey (keyHeight ▸ known)
    exact ⟨key'.trans key, keyHeight'.trans keyHeight⟩
  added address accountState absent found := by
    cases between : next.find address with
    | none => exact second.added address accountState between found
    | some middle =>
      obtain ⟨_, found', same⟩ := second.kept address middle between
      obtain rfl := Option.some.inj (found.symm.trans found')
      exact same.accountType.trans (first.added address middle absent between)

section
variable (wellLinked : WellLinked toAddress cache) (grown : Extends toAddress cache after)
include wellLinked grown

private theorem forwardedAddress_of_extends {target : Address}
    (known : cache.forwardedAddress address = some target) :
    after.forwardedAddress address = some target := by
  simp only [forwardedAddress, Option.bind_eq_bind, Option.bind_eq_some_iff] at known ⊢
  obtain ⟨remote, found, rest⟩ := known
  obtain ⟨remote', found', same⟩ := grown.kept address remote found
  refine ⟨remote', found', ?_⟩
  rw [same.accountType, same.linkedPublicKey]
  split_ifs at rest ⊢ with isMain
  · exact rest
  · obtain ⟨linked, stored, there⟩ := Option.bind_eq_some_iff.mp rest
    obtain ⟨main, foundMain, checked⟩ := Option.bind_eq_some_iff.mp there
    obtain ⟨main', foundMain', sameMain⟩ := grown.kept linked main foundMain
    split_ifs at checked with valid
    obtain rfl := Option.some.inj checked
    have stored' : after.findAddress remote.linkedPublicKey = some linked := by
      rw [findAddress, Option.filter_eq_some_iff] at stored ⊢
      exact ⟨grown.stored _ _ stored.1, by rw [foundMain']; rfl⟩
    have valid' : requireLinkedRemoteAndMainAccounts remote' main' = true := by
      simp only [requireLinkedRemoteAndMainAccounts, areLinked, Bool.and_eq_true, beq_iff_eq]
        at valid ⊢
      rw [same.accountType, same.linkedPublicKey, sameMain.accountType, sameMain.linkedPublicKey,
        (same.publicKey (wellLinked.linkedKeys _ _ found (.inr valid.1.1))).1,
        (sameMain.publicKey (wellLinked.linkedKeys _ _ foundMain (.inl valid.1.2))).1]
      exact valid
    simp [stored', foundMain', valid']

private theorem WellLinked.extends : WellLinked toAddress after where
  keyed key address found :=
    (grown.keyed key address found).elim (wellLinked.keyed key address) id
  linkedKeys address accountState found type := by
    cases before : cache.find address with
    | none => simp [grown.added address accountState before found] at type
    | some earlier =>
      obtain ⟨_, found', same⟩ := grown.kept address earlier before
      obtain rfl := Option.some.inj (found.symm.trans found')
      have known := wellLinked.linkedKeys address earlier before (same.accountType ▸ type)
      rw [(same.publicKey known).2]
      exact known
  forwarded address known := by
    obtain ⟨accountState, found⟩ := Option.isSome_iff_exists.mp known
    cases before : cache.find address with
    | none => simp [forwardedAddress, found, grown.added address accountState before found]
    | some earlier =>
      obtain ⟨target, forwarded⟩ := Option.isSome_iff_exists.mp
        (wellLinked.forwarded address (by rw [before]; rfl))
      rw [forwardedAddress_of_extends wellLinked grown forwarded]
      rfl

end

private theorem isSome_find_addAccount (cache : AccountStateCacheDelta) (added : Address) :
    ((cache.addAccount added height).find address).isSome ↔
      address = added ∨ (cache.find address).isSome := by
  unfold addAccount find
  split_ifs with known
  · grind
  · rw [lookup_insert_apply]
    split_ifs <;> simp_all

private theorem extends_addAccount (cache : AccountStateCacheDelta) (address : Address) :
    Extends toAddress cache (cache.addAccount address height) := by
  unfold addAccount
  split_ifs with known
  · exact .refl cache
  · refine ⟨fun _ _ => id, fun _ _ => .inl, fun other before found => ?_,
      fun other accountState absent found => ?_⟩
    · have apart : other ≠ address := by
        rintro rfl
        simp [found] at known
      refine ⟨before, ?_, rfl, rfl, fun _ => ⟨rfl, rfl⟩⟩
      rw [find, lookup_insert_apply, if_neg apart]
      exact found
    · rw [find, lookup_insert_apply] at found
      split_ifs at found
      · cases found
        rfl
      · rw [find, found] at absent
        cases absent

variable {change : AccountState → Option AccountState} (done : cache.modify address change = some after)

include done

private theorem isSome_find_modify (other : Address) :
    (after.find other).isSome = (cache.find other).isSome := by
  obtain ⟨before, changed, found, -, rfl⟩ := modify_eq_some done
  unfold find at found ⊢
  rw [lookup_insert_apply]
  split_ifs with here
  · rw [here, found]
    rfl
  · rfl

private theorem extends_modify
    (keeps : ∀ before after, change before = some after → SameLinks before after) :
    Extends toAddress cache after := by
  obtain ⟨before, changed, found, applied, rfl⟩ := modify_eq_some done
  have same := keeps before changed applied
  refine ⟨fun _ _ => id, fun _ _ => .inl, fun other earlier there => ?_,
    fun other accountState absent there => ?_⟩
  · unfold find at there found ⊢
    rw [lookup_insert_apply]
    split_ifs with here
    · subst here
      obtain rfl := Option.some.inj (found.symm.trans there)
      exact ⟨changed, rfl, same⟩
    · exact ⟨earlier, there, rfl, rfl, fun _ => ⟨rfl, rfl⟩⟩
  · have known : (cache.find other).isSome = true := by
      rw [← isSome_find_modify done other, there]
      rfl
    simp [absent] at known

end Accounts

section Notifications

variable {cache after : AccountStateCacheDelta} {height : ℕ}

private theorem addAccountByKey_spec (wellLinked : WellLinked toAddress cache) (publicKey : Key) :
    Extends toAddress cache (addAccountByKey toAddress cache publicKey height) ∧
      ∀ address, ((addAccountByKey toAddress cache publicKey height).find address).isSome ↔
        address = toAddress publicKey ∨ (cache.find address).isSome := by
  have target : (cache.keyToAddress.lookup publicKey).getD (toAddress publicKey) =
      toAddress publicKey := by
    cases stored : cache.keyToAddress.lookup publicKey with
    | none => rfl
    | some address => exact wellLinked.keyed publicKey address stored
  unfold addAccountByKey
  rw [target]
  extract_lets own keyed added setKey
  have first : Extends toAddress cache keyed := by
    have same := @Extends.refl toAddress cache
    refine { same with stored := fun key address found => ?_, keyed := ?_ }
    · simp [keyed, lookup_insertNew, found]
    · intro key address found
      simp only [keyed, lookup_insertNew, Option.or_eq_some_iff] at found
      rcases found with before | ⟨-, here⟩
      · exact .inl before
      · split_ifs at here with same
        subst same
        exact .inr (Option.some.inj here).symm
  have grown : Extends toAddress cache added := first.trans (extends_addAccount keyed _)
  have known : ∀ address, (added.find address).isSome ↔
      address = toAddress publicKey ∨ (cache.find address).isSome :=
    fun address => isSome_find_addAccount keyed _
  cases done : added.modify own setKey with
  | none => exact ⟨grown, known⟩
  | some after =>
    refine ⟨grown.trans (extends_modify done fun before changed set => ?_), fun address => ?_⟩
    · simp only [setKey] at set
      split_ifs at set with seen
      · obtain rfl := Option.some.inj set
        exact ⟨rfl, rfl, fun _ => ⟨rfl, rfl⟩⟩
      · obtain rfl := Option.some.inj set
        exact ⟨rfl, rfl, fun known => absurd known seen⟩
    · rw [Option.getD_some, isSome_find_modify done, known]

/-- The accounts of the cache are those announced so far. -/
def Announced (cache : AccountStateCacheDelta) (known : List Address) : Prop :=
  ∀ address, (cache.find address).isSome ↔ address ∈ known

/-- One notification adds the account it announces. -/
private theorem execute_announced (wellLinked : WellLinked toAddress cache) {known : List Address}
    (announced : Announced cache known) (notice : AccountNotification toAddress) :
    WellLinked toAddress (notice.execute height cache) ∧
      Announced (notice.execute height cache) (known ++ notice.announced.toList) := by
  cases notice with
  | accountAddress address =>
    refine ⟨wellLinked.extends (extends_addAccount cache address), fun other => ?_⟩
    rw [AccountNotification.execute, accountAddressObserver, isSome_find_addAccount,
      announced other]
    simp [AccountNotification.announced, or_comm]
  | accountPublicKey publicKey =>
    refine ⟨wellLinked.extends (addAccountByKey_spec wellLinked publicKey).1,
      fun other => ?_⟩
    rw [AccountNotification.execute, accountPublicKeyObserver,
      (addAccountByKey_spec wellLinked publicKey).2 other, announced other]
    simp [AccountNotification.announced, or_comm]
  | other change =>
    refine ⟨change.wellLinked cache wellLinked, fun other => ?_⟩
    rw [AccountNotification.execute, change.isSome_find, announced other]
    simp [AccountNotification.announced]

private theorem foldl_announced (wellLinked : WellLinked toAddress cache) {known : List Address}
    (announced : Announced cache known) (notices : List (AccountNotification toAddress)) :
    WellLinked toAddress (notices.foldl (AccountNotification.execute height) cache) ∧
      Announced (notices.foldl (AccountNotification.execute height) cache)
        (known ++ notices.filterMap AccountNotification.announced) := by
  induction notices generalizing cache known with
  | nil => exact ⟨wellLinked, by simpa using announced⟩
  | cons notice rest ih =>
    obtain ⟨linked, here⟩ := execute_announced wellLinked announced notice
    obtain ⟨linkedRest, all⟩ := ih linked here
    refine ⟨linkedRest, fun address => (all address).trans ?_⟩
    cases own : notice.announced <;> simp [own]

private theorem sameLinks_applyFee (mode : NotifyMode) (tokenId : TokenId) (amount : ℕ)
    (before after : AccountState) (done : applyFee mode tokenId amount before = some after) :
    SameLinks before after := by
  cases mode with
  | commit =>
    cases done
    exact ⟨rfl, rfl, fun _ => ⟨rfl, rfl⟩⟩
  | rollback =>
    obtain ⟨balances, -, rfl⟩ := Option.map_eq_some_iff.mp done
    exact ⟨rfl, rfl, fun _ => ⟨rfl, rfl⟩⟩

private theorem applyAll_announced {mode : NotifyMode} {tokenId : TokenId}
    {shares : List (Address × ℕ)} {known : List Address} (wellLinked : WellLinked toAddress cache)
    (announced : Announced cache known) (done : applyAll mode tokenId shares cache = some after) :
    WellLinked toAddress after ∧ Announced after known := by
  induction shares generalizing cache with
  | nil =>
    cases done
    exact ⟨wellLinked, announced⟩
  | cons share rest ih =>
    obtain ⟨next, processed, doneRest⟩ := Option.bind_eq_some_iff.mp done
    obtain ⟨target, -, modified⟩ := Option.bind_eq_some_iff.mp processed
    refine ih (wellLinked.extends (extends_modify modified (sameLinks_applyFee _ _ _)))
      (fun address => ?_) doneRest
    rw [isSome_find_modify modified, announced address]

end Notifications

namespace HarvestFeeConfiguration
variable (cfg : HarvestFeeConfiguration)

/-- Every fee observer of the chain applies its fees, and undoes them again as long as no balance
exceeds 64 bits. -/
def NeverThrows : ℕ → List (Block toAddress) → AccountStateCacheDelta → Prop
  | _, [], _ => True
  | height, block :: rest, cache =>
    ∃ after, block.execute cfg height cache = some after ∧
      ((∀ address, balance (block.ready cfg height cache) address cfg.currencyTokenId +
          ((cfg.shares height block.notice).map (·.2)).sum < 2 ^ 64) →
        (harvestFeeObserver cfg .rollback height block.notice after).isSome) ∧
      NeverThrows (height + 1) rest after

/-- Each sink that is due an amount is announced by its block or an earlier one, where `known` are
the accounts announced before. -/
def SinksAnnounced : ℕ → List (Block toAddress) → List Address → Prop
  | _, [], _ => True
  | height, block :: rest, known =>
    let announced := known ++ (block.publish cfg height).filterMap AccountNotification.announced
    (cfg.networkAmount height block.notice ≠ 0 → cfg.networkSink height ∈ announced) ∧
      (cfg.controlStakeAmount height block.notice ≠ 0 →
        cfg.controlStakeSink height ∈ announced) ∧
      SinksAnnounced (height + 1) rest announced

instance decidableSinksAnnounced : ∀ height (blocks : List (Block toAddress)) known,
    Decidable (cfg.SinksAnnounced height blocks known)
  | _, [], _ => .isTrue trivial
  | height, _ :: rest, _ =>
    have := decidableSinksAnnounced (height + 1) rest
    inferInstanceAs (Decidable (_ ∧ _ ∧ _))

/-- Genesis announces all sinks that are ever due an amount. -/
def SinksSpecial : Prop :=
  (cfg.harvestNetworkPercentage = 0 ∨ cfg.treasuryReissuance ≤ 1 ∨
    cfg.harvestNetworkFeeSinkAddressPOS = cfg.harvestNetworkFeeSinkAddress) ∧
  (cfg.harvestControlStakePercentage = 0 ∨ 0 < cfg.harvestNetworkPercentage ∧
    ∀ height, 1 ≤ height → cfg.controlStakeSink height = cfg.networkSink 1)

variable {cfg} {height : ℕ} {cache : AccountStateCacheDelta} {known : List Address}
  {block : Block toAddress}

/-- The block announces its harvester and its beneficiary itself. -/
private theorem announced_publish :
    block.notice.harvester ∈ (block.publish cfg height).filterMap AccountNotification.announced ∧
      (cfg.beneficiaryAmount height block.notice ≠ 0 → block.notice.beneficiary ∈
        (block.publish cfg height).filterMap AccountNotification.announced) := by
  constructor
  · refine List.mem_filterMap.mpr ⟨.accountPublicKey block.signerPublicKey, ?_, rfl⟩
    simp [Block.publish, Block.publishBlock]
  · intro due
    refine List.mem_filterMap.mpr ⟨.accountAddress block.beneficiaryAddress, ?_, rfl⟩
    unfold beneficiaryAmount at due
    split_ifs at due with shared
    · have apart : toAddress block.signerPublicKey ≠ block.beneficiaryAddress := shared.2
      simp [Block.publish, Block.publishBlock, apart]
    · exact absurd rfl due

private theorem isSome_harvestFeeObserver (wellLinked : WellLinked toAddress cache)
    (announced : Announced cache known) {notice : BlockNotification}
    (harvester : notice.harvester ∈ known)
    (beneficiary : cfg.beneficiaryAmount height notice ≠ 0 → notice.beneficiary ∈ known) :
    (harvestFeeObserver cfg .commit height notice cache).isSome ↔
      (cfg.networkAmount height notice ≠ 0 → cfg.networkSink height ∈ known) ∧
        (cfg.controlStakeAmount height notice ≠ 0 → cfg.controlStakeSink height ∈ known) := by
  have forwards : ∀ address, (cache.forwardedAddress address).isSome ↔ address ∈ known := by
    intro address
    rw [← announced address]
    refine ⟨fun forwarded => ?_, wellLinked.forwarded address⟩
    cases absent : cache.find address with
    | none => simp [forwardedAddress, absent] at forwarded
    | some accountState => rfl
  unfold harvestFeeObserver
  rw [isSome_applyAll]
  simp only [forwards, shares, List.forall_mem_cons, List.mem_filter, decide_eq_true_eq]
  simp [harvester]
  tauto

/-- The chain goes through exactly if every sink due an amount has been announced. -/
private theorem neverThrows_iff (blocks : List (Block toAddress))
    (wellLinked : WellLinked toAddress cache) (announced : Announced cache known) :
    cfg.NeverThrows height blocks cache ↔ cfg.SinksAnnounced height blocks known := by
  induction blocks generalizing height cache known with
  | nil => exact Iff.rfl
  | cons block rest ih =>
    obtain ⟨linked, all⟩ := @foldl_announced _ _ height wellLinked _ announced
      (block.publish cfg height)
    obtain ⟨harvester, beneficiary⟩ := @announced_publish _ cfg height block
    have applied := @isSome_harvestFeeObserver _ cfg height _ _ linked all block.notice
      (List.mem_append_right _ harvester) fun due => List.mem_append_right _ (beneficiary due)
    constructor
    · rintro ⟨after, done, -, later⟩
      obtain ⟨network, controlStake⟩ := applied.mp (by rw [Option.isSome_iff_exists]; exact ⟨_, done⟩)
      obtain ⟨linkedAfter, same⟩ := applyAll_announced linked all done
      exact ⟨network, controlStake, (ih linkedAfter same).mp later⟩
    · rintro ⟨network, controlStake, later⟩
      obtain ⟨after, done⟩ := Option.isSome_iff_exists.mp (applied.mpr ⟨network, controlStake⟩)
      obtain ⟨linkedAfter, same⟩ := applyAll_announced linked all done
      refine ⟨after, done, fun fits => ?_, (ih linkedAfter same).mpr later⟩
      obtain ⟨-, restored, undone, -⟩ := applyAll_rollback fits done
      rw [harvestFeeObserver, undone]
      rfl

private theorem wellLinked_empty : WellLinked toAddress empty where
  keyed key address found := by simp [empty] at found
  linkedKeys address accountState found := by simp [find, empty] at found
  forwarded address known := by simp [find, empty] at known

private theorem announced_special {known : List Address}
    (special : height = 1 ∨ ∀ address ∈ cfg.specialAccountAddresses, address ∈ known) :
    ∀ address ∈ cfg.specialAccountAddresses,
      address ∈ known ++ (block.publish cfg height).filterMap AccountNotification.announced := by
  intro address mem
  rcases special with genesis | before
  · refine List.mem_append_right _ (List.mem_filterMap.mpr ⟨.accountAddress address, ?_, rfl⟩)
    simp [Block.publish, Block.publishBlock, publishSpecial, genesis, mem]
  · exact List.mem_append_left _ (before address mem)

private theorem sinksAnnounced_of_special (sinks : cfg.SinksSpecial)
    (blocks : List (Block toAddress)) (positive : 1 ≤ height)
    (special : height = 1 ∨ ∀ address ∈ cfg.specialAccountAddresses, address ∈ known) :
    cfg.SinksAnnounced height blocks known := by
  induction blocks generalizing height known with
  | nil => trivial
  | cons block rest ih =>
    have here := @announced_special _ cfg height block known special
    have noShare : cfg.share height block.notice 0 = 0 := by simp [share, store64]
    refine ⟨fun due => ?_, fun due => ?_, ih (by omega) (.inr here)⟩
    · have positive : 0 < cfg.harvestNetworkPercentage := by
        rw [Nat.pos_iff_ne_zero]
        intro none
        rw [networkAmount, none] at due
        exact due noShare
      have same : cfg.networkSink height = cfg.networkSink 1 := by
        unfold networkSink heightDependentAddress
        rcases sinks.1 with none | early | same
        · omega
        · rw [if_neg (by omega), if_neg (by omega)]
        · simp [same]
      refine here _ ?_
      simp [specialAccountAddresses, positive, same]
    · rcases sinks.2 with none | ⟨positive, same⟩
      · rw [controlStakeAmount, none] at due
        exact absurd noShare due
      · refine here _ ?_
        simp [specialAccountAddresses, positive, same height (by assumption)]

/-- Along a chain that starts at genesis, no fee observer throws exactly if every sink is announced
before it is due an amount. Genesis does so for all chains if the sinks are those it announces. -/
theorem harvestFee_neverThrows_iff (cfg : HarvestFeeConfiguration)
    (blocks : List (Block toAddress)) :
    (cfg.NeverThrows 1 blocks empty ↔ cfg.SinksAnnounced 1 blocks []) ∧
      (cfg.SinksSpecial → cfg.NeverThrows 1 blocks empty) := by
  have exactly : cfg.NeverThrows 1 blocks empty ↔ cfg.SinksAnnounced 1 blocks [] :=
    neverThrows_iff blocks wellLinked_empty fun address => by simp [find, empty]
  exact ⟨exactly, fun special => exactly.mpr
    (sinksAnnounced_of_special special blocks le_rfl (.inl rfl))⟩

/-- The address of a key is its lower part. -/
def lowerPart (publicKey : Key) : Address := publicKey.setWidth 192

/-- A block of signer 1 in which `announced` is sent something. -/
def exampleBlock (totalFee : ℕ) (announced : List Address) : Block lowerPart :=
  ⟨1, 1, totalFee, announced.map fun address => ⟨1, [.accountAddress address]⟩⟩

theorem harvestFee_neverThrows_iff_tithe :
    (tithe 2).NeverThrows 1 [exampleBlock 0 [2], exampleBlock 1000 []] empty ∧
      ¬ (tithe 2).NeverThrows 1 [exampleBlock 0 [], exampleBlock 1000 [3]] empty := by
  rw [((tithe 2).harvestFee_neverThrows_iff _).1, ((tithe 2).harvestFee_neverThrows_iff _).1]
  decide

/-- A tenth of each reward is due to network sink 3, and to network sink 2 from the fork on. -/
def forked : HarvestFeeConfiguration :=
  ⟨0, 0, 10, 0, 2, 3, 0, 0, 2, fun _ => 0, by decide⟩

/-- Whether a block with a fee is executed after genesis. -/
def appliesFirstFee (cfg : HarvestFeeConfiguration) : Option Bool :=
  ((exampleBlock 0 []).execute cfg 1 empty).map fun cache =>
    ((exampleBlock 1000 []).execute cfg 2 cache).isSome

/-- No one creates the account of the control stake sink, nor that of the network sink in force
from the fork on. -/
theorem harvestFee_sink_unknown :
    appliesFirstFee (tithe 2) = some false ∧ appliesFirstFee forked = some false := by
  decide +kernel

end HarvestFeeConfiguration

end BitxorCore.Harvesting
