/- GID: Multisig/MultisigGraph
   anchors: [plugins/txes/multisig]
   digest: Accepted modifications keep the multisig graph shallow, two-sided and within limits. -/

import BitxorCore.Multisig.MultisigChanges

set_option autoImplicit false
set_option relaxedAutoImplicit false

namespace BitxorCore.Multisig
open Chain Library Library.FiniteMap Library.PartialAction State MultisigEntry Finset Option List

/-- The entry of `address` names `linkedAddress` among the addresses looked at. -/
def Links (getAddresses : MultisigEntry → Finset Address) (cache : MultisigCache)
    (address linkedAddress : Address) : Prop :=
  ∃ entry, cache.lookup address = some entry ∧ linkedAddress ∈ getAddresses entry

/-- The edges of the multisig graph, from a multisig account to its cosignatories. -/
def HasCosignatory : MultisigCache → Address → Address → Prop := Links (·.cosignatoryAddresses)

def Cosigns : MultisigCache → Address → Address → Prop := Links (·.multisigAddresses)

theorem hasCosignatory_iff {cache : MultisigCache} {multisig cosignatory : Address} :
    HasCosignatory cache multisig cosignatory ↔
      cosignatory ∈ (entryAt cache multisig).cosignatoryAddresses := by
  cases found : cache.lookup multisig <;>
    simp [HasCosignatory, Links, entryAt, found, MultisigEntry.empty]

theorem cosigns_iff {cache : MultisigCache} {cosignatory multisig : Address} :
    Cosigns cache cosignatory multisig ↔
      multisig ∈ (entryAt cache cosignatory).multisigAddresses := by
  cases found : cache.lookup cosignatory <;>
    simp [Cosigns, Links, entryAt, found, MultisigEntry.empty]

section Search
variable {getAddresses : MultisigEntry → Finset Address} {cache : MultisigCache} {address : Address}

private theorem findAll_spec {fuel : Nat} {numLevels : Nat} {addresses : Finset Address}
    (searched : findAll getAddresses cache fuel address = some (numLevels, addresses))
    {n : Nat} {last : Address} (walk : Walk (Links getAddresses cache) n address last) :
    n ≤ numLevels ∧ (0 < n → last ∈ addresses) := by
  induction fuel generalizing address numLevels addresses n with
  | zero => simp [findAll] at searched
  | succ fuel ih =>
    cases walk with
    | nil => simp
    | @cons k _ next _ first rest =>
      obtain ⟨entry, found, mem⟩ := first
      simp only [findAll, found] at searched
      obtain ⟨⟨levels, reached⟩, foundNext, below, within⟩ := PartialFold.exists_of_fold
        (r := fun part whole : Nat × Finset Address => part.1 ≤ whole.1 ∧ part.2 ⊆ whole.2)
        (fun _ _ => ⟨le_max_left _ _, subset_union_left⟩)
        (fun _ _ _ part => ⟨part.1.trans (le_max_right _ _), part.2.trans subset_union_right⟩)
        searched next mem
      obtain ⟨⟨deeper, further⟩, searchedNext, rfl, rfl⟩ :
          ∃ more : Nat × Finset Address, findAll getAddresses cache fuel next =
            some more ∧ more.1 + 1 = levels ∧ insert next more.2 = reached := by
        obtain ⟨more, searchedNext, same⟩ := map_eq_some_iff.mp foundNext
        exact ⟨more, searchedNext, (Prod.mk.inj same).1, (Prod.mk.inj same).2⟩
      obtain ⟨shorter, ends⟩ := ih searchedNext rest
      refine ⟨by omega, fun _ => within ?_⟩
      -- the walk ends at the linked address itself or further on
      cases rest with
      | nil => exact mem_insert_self _ _
      | cons _ _ => exact mem_insert_of_mem (ends (Nat.succ_pos _))

private theorem findAll_isSome {fuel : Nat}
    (shallow : ∀ n last, Walk (Links getAddresses cache) n address last → n < fuel) :
    (findAll getAddresses cache fuel address).isSome := by
  induction fuel generalizing address with
  | zero => exact absurd (shallow 0 address (.nil address)) (Nat.lt_irrefl 0)
  | succ fuel ih =>
    unfold findAll
    cases found : cache.lookup address with
    | none => rfl
    | some entry =>
      refine PartialFold.isSome_fold fun next mem => ?_
      rw [isSome_map]
      exact ih fun n last walk =>
        Nat.lt_of_succ_lt_succ (shallow (n + 1) last (.cons ⟨entry, found, mem⟩ walk))

private theorem findAll_attained {fuel : Nat} {numLevels : Nat} {addresses : Finset Address}
    (searched : findAll getAddresses cache fuel address = some (numLevels, addresses)) :
    (∃ last, Walk (Links getAddresses cache) numLevels address last) ∧
      ∀ last ∈ addresses, ∃ n, Walk (Links getAddresses cache) n address last := by
  induction fuel generalizing address numLevels addresses with
  | zero => simp [findAll] at searched
  | succ fuel ih =>
    unfold findAll at searched
    cases found : cache.lookup address with
    | none =>
      rw [found] at searched
      cases searched
      exact ⟨⟨address, .nil address⟩, by simp⟩
    | some entry =>
      rw [found] at searched
      -- what is merged is attained if both parts are
      refine PartialFold.rel_fold (r := fun part _ : Nat × Finset Address =>
        (∃ last, Walk (Links getAddresses cache) part.1 address last) ∧
          ∀ last ∈ part.2, ∃ n, Walk (Links getAddresses cache) n address last)
        ⟨⟨address, .nil address⟩, by simp⟩ ?_ ?_ searched searched
      · rintro part other - - ⟨longest, ends⟩ ⟨otherLongest, otherEnds⟩
        constructor
        · rcases max_choice part.1 other.1 with same | same
          · rwa [same]
          · rwa [same]
        · intro last mem
          exact (mem_union.mp mem).elim (ends last) (otherEnds last)
      · intro next mem part _ foundNext _
        obtain ⟨more, searchedNext, rfl⟩ := map_eq_some_iff.mp foundNext
        obtain ⟨⟨last, longest⟩, ends⟩ := ih searchedNext
        have first : Links getAddresses cache address next := ⟨entry, found, mem⟩
        refine ⟨⟨last, .cons first longest⟩, fun last mem => ?_⟩
        rcases mem_insert.mp mem with rfl | later
        · exact ⟨1, .single first⟩
        · obtain ⟨n, walk⟩ := ends last later
          exact ⟨n + 1, .cons first walk⟩

end Search

section Invariant
variable (cfg : MultisigConfiguration) (cache : MultisigCache)

/-- Minima of an account with cosignatories are reachable, those of any other account are zero. -/
def MinimaFit (entry : MultisigEntry) : Prop :=
  let numCosignatories := entry.cosignatoryAddresses.card
  if entry.cosignatoryAddresses = ∅ then entry.minApproval = 0 ∧ entry.minRemoval = 0
  else (1 ≤ entry.minApproval.toNat ∧ entry.minApproval.toNat ≤ numCosignatories) ∧
    1 ≤ entry.minRemoval.toNat ∧ entry.minRemoval.toNat ≤ numCosignatories

/-- All of a well formed graph that does not depend on minima, but the limit on cosigned
accounts. -/
structure GraphLinked : Prop where
  linked : ∀ multisig cosignatory, HasCosignatory cache multisig cosignatory ↔
    Cosigns cache cosignatory multisig
  depth : WalksWithin (HasCosignatory cache) cfg.maxMultisigDepth.toNat
  cosignatories : ∀ address entry, cache.lookup address = some entry →
    entry.cosignatoryAddresses.card ≤ cfg.maxCosignatoriesPerAccount.toNat
  solid : ∀ address entry, cache.lookup address = some entry → ¬ entry.IsHollow

structure GraphSound : Prop extends GraphLinked cfg cache where
  minima : ∀ address entry, cache.lookup address = some entry → MinimaFit entry

def CosignedWithin : Prop :=
  ∀ address entry, cache.lookup address = some entry →
    entry.multisigAddresses.card ≤ cfg.maxCosignedAccountsPerAccount.toNat

structure GraphWellFormed : Prop extends GraphSound cfg cache where
  acyclic : ∀ address, ¬ Relation.TransGen (HasCosignatory cache) address address
  cosigned : CosignedWithin cfg cache

end Invariant

section Steps
variable {U : Type} [DecidableEq U] {cfg : MultisigConfiguration}
  {cache changed next : MultisigCache}

namespace GraphSound

private theorem empty : GraphSound cfg ∅ where
  linked multisig cosignatory := by simp [HasCosignatory, Cosigns, Links]
  depth n u v walk := by
    cases walk with
    | nil => exact Nat.zero_le _
    | cons first _ => simp [HasCosignatory, Links] at first
  cosignatories address entry found := by simp at found
  minima address entry found := by simp at found
  solid address entry found := by simp at found

section
variable (sound : GraphSound cfg cache)
include sound

private theorem wellFormed (cosigned : CosignedWithin cfg cache) : GraphWellFormed cfg cache :=
  ⟨sound, sound.depth.acyclic, cosigned⟩

private theorem cosigns_eq_swap : Cosigns cache = Function.swap (HasCosignatory cache) := by
  funext cosignatory multisig
  exact propext (sound.linked multisig cosignatory).symm

private theorem not_hasCosignatory_self (address : Address) :
    ¬ HasCosignatory cache address address :=
  fun link => sound.depth.acyclic address (.single link)

private theorem loopAndLevel_isSome (top bottom : Address) :
    (multisigLoopAndLevelValidator cfg cache top bottom).isSome := by
  have above : (findAncestors cache (cfg.maxMultisigDepth.toNat + 1) top).isSome := by
    refine findAll_isSome fun n last walk => Nat.lt_succ_of_le ?_
    have upward : Walk (Function.swap (HasCosignatory cache)) n top last := by
      rw [← sound.cosigns_eq_swap]
      exact walk
    exact sound.depth n last top upward.reverse
  have below : (findDescendants cache (cfg.maxMultisigDepth.toNat + 1) bottom).isSome :=
    findAll_isSome fun n last walk => Nat.lt_succ_of_le (sound.depth n bottom last walk)
  obtain ⟨ancestors, foundAbove⟩ := isSome_iff_exists.mp above
  obtain ⟨descendants, foundBelow⟩ := isSome_iff_exists.mp below
  simp only [multisigLoopAndLevelValidator, foundAbove, foundBelow, bind_eq_bind, bind_some]
  split
  · rfl
  · split <;> rfl

private theorem loopAndLevel_room {top bottom : Address}
    (passed : multisigLoopAndLevelValidator cfg cache top bottom = some .success) :
    (∀ k, ¬ Walk (HasCosignatory cache) k bottom top) ∧
      ∀ i j u v, Walk (HasCosignatory cache) i u top → Walk (HasCosignatory cache) j bottom v →
          i + j + 1 ≤ cfg.maxMultisigDepth.toNat := by
  obtain ⟨⟨numTopLevels, ancestors⟩, foundAbove, passed⟩ := bind_eq_some_iff.mp passed
  obtain ⟨⟨numBottomLevels, descendants⟩, foundBelow, passed⟩ := bind_eq_some_iff.mp passed
  dsimp only at passed
  split at passed
  · simp at passed
  · split at passed
    · simp at passed
    · rename_i separate
      rw [ne_eq, not_not, ← disjoint_iff_inter_eq_empty] at separate
      constructor
      · intro k walk
        have isBelow : top ∈ insert bottom descendants := by
          rcases Nat.eq_zero_or_pos k with rfl | pos
          · cases walk
            exact mem_insert_self _ _
          · exact mem_insert_of_mem ((findAll_spec foundBelow walk).2 pos)
        exact disjoint_left.mp separate (mem_insert_self _ _) isBelow
      · intro i j u v upper lower
        have upward : Walk (Cosigns cache) i top u := by
          rw [sound.cosigns_eq_swap]
          exact upper.reverse
        have := (findAll_spec foundAbove upward).1
        have := (findAll_spec foundBelow lower).1
        omega

end

end GraphSound

/-- What a valid change of cosignatories says about a sound cache. -/
structure MembershipFacts (cache : MultisigCache)
    (notice : MultisigCosignatoriesNotification) : Prop where
  othersAdded : notice.multisig ∉ notice.addressAdditions
  fresh : ∀ address ∈ notice.addressAdditions, ¬ HasCosignatory cache notice.multisig address
  deleted : ∀ address ∈ notice.addressDeletions, HasCosignatory cache notice.multisig address
  single : notice.addressDeletions.length ≤ 1

section Membership
variable {notice : MultisigCosignatoriesNotification}

theorem GraphSound.membershipFacts (sound : GraphSound cfg cache)
    (valid : MembershipValid cfg cache notice) :
    MembershipFacts cache notice := by
  have known := valid.known
  unfold multisigInvalidCosignatoriesValidator at known
  refine ⟨fun mem => ?_, fun address mem => ?_, fun address mem => ?_, valid.deletions_length⟩
  · exact (sound.loopAndLevel_room (valid.levels _ mem)).1 0 (.nil _)
  · rintro ⟨entry, found, cosigns⟩
    rw [found] at known
    dsimp only at known
    rw [if_pos ⟨address, mem, cosigns⟩] at known
    cases known
  · cases found : cache.lookup notice.multisig with
    | none =>
      rw [found] at known
      rw [if_neg (Nat.ne_of_gt (length_pos_of_mem mem))] at known
      cases known
    | some entry =>
      rw [found] at known
      dsimp only at known
      by_contra missing
      have unlinked : ∃ address ∈ notice.addressDeletions, address ∉ entry.cosignatoryAddresses :=
        ⟨address, mem, fun cosigns => missing ⟨entry, found, cosigns⟩⟩
      rw [if_pos unlinked] at known
      split at known <;> cases known

namespace MembershipFacts

variable (facts : MembershipFacts cache notice)
include facts

theorem apart : ∀ address ∈ notice.addressDeletions, address ∉ notice.addressAdditions :=
  fun address mem added => facts.fresh address added (facts.deleted address mem)

theorem othersDeleted (sound : GraphSound cfg cache) : notice.multisig ∉ notice.addressDeletions :=
  fun mem => sound.not_hasCosignatory_self _ (facts.deleted _ mem)

private theorem removable_deletions (sound : GraphSound cfg cache) :
    Removable cache notice.multisig notice.addressDeletions := by
  intro address mem
  obtain ⟨entry, found, _⟩ := (sound.linked _ _).mp (facts.deleted address mem)
  exact ⟨entry, found, .inr (List.count_le_length.trans facts.single)⟩

end MembershipFacts

def newCosignatories (cache : MultisigCache)
    (notice : MultisigCosignatoriesNotification) : Finset Address :=
  ((entryAt cache notice.multisig).cosignatoryAddresses ∪ notice.addressAdditions.toFinset) \
    notice.addressDeletions.toFinset

def changedEntry (cache : MultisigCache) (notice : MultisigCosignatoriesNotification)
    (address : Address) : MultisigEntry :=
  let entry := entryAt cache address
  if address = notice.multisig then entry.withCosignatories (newCosignatories cache notice)
  else if address ∈ notice.addressDeletions.toFinset then entry.withoutMultisig notice.multisig
  else if address ∈ notice.addressAdditions.toFinset then entry.withMultisig notice.multisig
  else entry

theorem changedEntry_eq {address : Address} : changedEntry cache notice address =
    if address = notice.multisig then
      (entryAt cache address).withCosignatories (newCosignatories cache notice)
    else if address ∈ notice.addressDeletions then
      (entryAt cache address).withoutMultisig notice.multisig
    else if address ∈ notice.addressAdditions then
      (entryAt cache address).withMultisig notice.multisig
    else entryAt cache address := by
  simp only [changedEntry, List.mem_toFinset]

def MembershipChanged (cache : MultisigCache) (notice : MultisigCosignatoriesNotification)
    (changed : MultisigCache) : Prop :=
  ∀ address, changed.lookup address = (changedEntry cache notice address).kept

theorem empty_isHollow : empty.IsHollow := ⟨rfl, rfl⟩

section
variable (sound : GraphSound cfg cache)
include sound

theorem GraphSound.kept_entryAt (address : Address) :
    (entryAt cache address).kept = cache.lookup address := by
  unfold entryAt
  cases found : cache.lookup address with
  | none => exact kept_eq_none.mpr empty_isHollow
  | some entry => exact kept_of_not_hollow (sound.solid address entry found)

private theorem GraphSound.card_entryAt_le (address : Address) :
    (entryAt cache address).cosignatoryAddresses.card ≤ cfg.maxCosignatoriesPerAccount.toNat := by
  unfold entryAt
  cases found : cache.lookup address with
  | none => exact Nat.zero_le _
  | some entry => exact sound.cosignatories address entry found

theorem GraphSound.minimaFit_entryAt (address : Address) : MinimaFit (entryAt cache address) := by
  unfold entryAt
  cases found : cache.lookup address with
  | none => exact ⟨rfl, rfl⟩
  | some entry => exact sound.minima address entry found

theorem GraphSound.membershipChanged (facts : MembershipFacts cache notice)
    (done : multisigCosignatoriesObserver notice .commit cache = some changed) :
    MembershipChanged cache notice changed := by
  obtain ⟨same, sameDone, lookups⟩ := multisigCosignatoriesObserver_spec facts.othersAdded
    (facts.othersDeleted sound) facts.apart .commit nofun fun _ => facts.removable_deletions sound
  cases done.symm.trans sameDone
  intro address
  rw [lookups, changedEntry_eq, ← sound.kept_entryAt address]
  by_cases isMultisig : address = notice.multisig
  · rw [if_pos isMultisig, if_pos isMultisig, isMultisig]
    rfl
  · rw [if_neg isMultisig, if_neg isMultisig]
    split
    · rfl
    · split <;> rfl

end

variable {address : Address}

theorem mem_newCosignatories : address ∈ newCosignatories cache notice ↔
      (HasCosignatory cache notice.multisig address ∨
        address ∈ notice.addressAdditions) ∧ address ∉ notice.addressDeletions := by
  simp [newCosignatories, hasCosignatory_iff]

theorem changedEntry_other (other : address ≠ notice.multisig) :
    (changedEntry cache notice address).cosignatoryAddresses =
        (entryAt cache address).cosignatoryAddresses ∧
      (changedEntry cache notice address).minApproval = (entryAt cache address).minApproval ∧
      (changedEntry cache notice address).minRemoval = (entryAt cache address).minRemoval := by
  rw [changedEntry_eq, if_neg other]
  split
  · exact ⟨rfl, rfl, rfl⟩
  · split <;> exact ⟨rfl, rfl, rfl⟩

theorem GraphSound.minimaFit_changedEntry (sound : GraphSound cfg cache)
    (other : address ≠ notice.multisig) : MinimaFit (changedEntry cache notice address) := by
  obtain ⟨cosignatories, minApproval, minRemoval⟩ := changedEntry_other other
  rw [MinimaFit, cosignatories, minApproval, minRemoval]
  exact sound.minimaFit_entryAt address

section
variable (lookups : MembershipChanged cache notice changed)
include lookups

private theorem MembershipChanged.addresses (address : Address) :
    (entryAt changed address).cosignatoryAddresses =
        (changedEntry cache notice address).cosignatoryAddresses ∧
      (entryAt changed address).multisigAddresses =
        (changedEntry cache notice address).multisigAddresses := by
  rw [entryAt, lookups]
  by_cases hollow : (changedEntry cache notice address).IsHollow
  · rw [kept_eq_none.mpr hollow, hollow.1, hollow.2]
    exact ⟨rfl, rfl⟩
  · rw [kept_of_not_hollow hollow]
    exact ⟨rfl, rfl⟩

/-- No account cosigns more than configured after a valid change: one that had no entry is not
checked, so that the limit has to allow for its first account. -/
private theorem MembershipChanged.cosignedWithin (valid : MembershipValid cfg cache notice)
    (pos : cfg.maxCosignedAccountsPerAccount ≠ 0 ∨ notice.addressAdditions = [])
    (within : CosignedWithin cfg cache) : CosignedWithin cfg changed := by
  intro address entry found
  rw [lookups] at found
  obtain ⟨_, rfl⟩ := kept_eq_some.mp found
  have few : (entryAt cache address).multisigAddresses.card ≤
      cfg.maxCosignedAccountsPerAccount.toNat := by
    unfold entryAt
    cases found : cache.lookup address with
    | none => exact Nat.zero_le _
    | some entry => exact within address entry found
  rw [changedEntry_eq]
  split
  · exact few
  · split
    · exact card_erase_le.trans few
    · split
      · rename_i added
        refine (card_insert_le _ _).trans ?_
        have checked := valid.cosigned address added
        unfold multisigMaxCosignedAccountsValidator at checked
        unfold entryAt
        cases foundOld : cache.lookup address with
        | none =>
          have nonzero := pos.resolve_right (ne_nil_of_mem added)
          exact Nat.pos_of_ne_zero fun zero => nonzero (BitVec.toNat_eq.mpr zero)
        | some old =>
          rw [foundOld] at checked
          dsimp only at checked
          split at checked
          · cases checked
          · exact Nat.lt_of_not_le ‹_›
      · exact few

end

structure MembershipSound (cfg : MultisigConfiguration) (cache : MultisigCache)
    (multisig : Address) : Prop extends GraphLinked cfg cache where
  minima : ∀ address entry, cache.lookup address = some entry → address ≠ multisig → MinimaFit entry

private theorem GraphSound.membershipSound (sound : GraphSound cfg cache)
    (multisig : Address) : MembershipSound cfg cache multisig :=
  ⟨sound.toGraphLinked, fun address entry found _ => sound.minima address entry found⟩

private theorem multisigMaxCosignatories_le {multisig : Address} {additions deletions : Nat}
    (passed : multisigMaxCosignatoriesValidator cfg cache multisig additions deletions = .success) :
    ((entryAt cache multisig).cosignatoryAddresses.card + 2 ^ 64 + additions - deletions) % 2 ^ 64 ≤
      cfg.maxCosignatoriesPerAccount.toNat := by
  unfold multisigMaxCosignatoriesValidator at passed
  unfold entryAt
  cases found : cache.lookup multisig
  all_goals
    simp only [found] at passed
    split at passed
    · cases passed
    · exact Nat.not_lt.mp ‹_›

section
variable (sound : GraphSound cfg cache) (valid : MembershipValid cfg cache notice)
include sound valid

private theorem card_newCosignatories_le : (newCosignatories cache notice).card ≤
      cfg.maxCosignatoriesPerAccount.toNat := by
  have facts := sound.membershipFacts valid
  have total := multisigMaxCosignatories_le valid.total
  -- deletions are distinct current cosignatories, so that the count cannot underflow
  have deletionsCard : notice.addressDeletions.toFinset.card = notice.addressDeletions.length :=
    toFinset_card_of_nodup (nodup_iff_count_le_one.mpr
      fun _ => count_le_length.trans facts.single)
  have additionsCard := toFinset_card_le notice.addressAdditions
  have deletionsWithin : notice.addressDeletions.toFinset ⊆
      (entryAt cache notice.multisig).cosignatoryAddresses := by
    exact fun address mem => hasCosignatory_iff.mp (facts.deleted address (mem_toFinset.mp mem))
  have deletionsFew := card_le_card deletionsWithin
  have unionCard := card_union_le
    (entryAt cache notice.multisig).cosignatoryAddresses
    notice.addressAdditions.toFinset
  have deletionsInUnion : notice.addressDeletions.toFinset ⊆
      (entryAt cache notice.multisig).cosignatoryAddresses ∪
        notice.addressAdditions.toFinset :=
    deletionsWithin.trans subset_union_left
  have few := sound.card_entryAt_le notice.multisig
  have maximum := cfg.maxCosignatoriesPerAccount.isLt
  have additionsFew := valid.additions_length
  rw [newCosignatories, card_sdiff_of_subset deletionsInUnion]
  omega

private theorem GraphSound.membershipSound_changed
    (lookups : MembershipChanged cache notice changed) :
    MembershipSound cfg changed notice.multisig := by
  have facts := sound.membershipFacts valid
  refine ⟨⟨?_, ?_, ?_, ?_⟩, ?_⟩
  · intro multisig cosignatory
    have linked := sound.linked multisig cosignatory
    have notSelf := sound.not_hasCosignatory_self notice.multisig
    rw [hasCosignatory_iff] at notSelf
    rw [hasCosignatory_iff, cosigns_iff] at linked ⊢
    rw [(lookups.addresses multisig).1, (lookups.addresses cosignatory).2]
    have apart := facts.apart cosignatory
    have othersAdded := facts.othersAdded
    by_cases isMultisig : multisig = notice.multisig
    · subst isMultisig
      rw [changedEntry_eq, if_pos rfl, changedEntry_eq]
      by_cases self : cosignatory = notice.multisig
      · subst self
        simp_all [withCosignatories, newCosignatories]
      · by_cases isDeleted : cosignatory ∈ notice.addressDeletions
        · simp [self, isDeleted, withCosignatories, newCosignatories, withoutMultisig]
        · by_cases isAdded : cosignatory ∈ notice.addressAdditions
          · simp [self, isDeleted, isAdded, withCosignatories, newCosignatories, withMultisig]
          · simp [self, isDeleted, isAdded, withCosignatories, newCosignatories, linked]
    · rw [(changedEntry_other isMultisig).1, linked, changedEntry_eq]
      split
      · rfl
      · split
        · simp [withoutMultisig, isMultisig]
        · split
          · simp [withMultisig, isMultisig]
          · rfl
  · refine sound.depth.add notice.multisig (· ∈ notice.addressAdditions) ?_ ?_ ?_
    · intro multisig cosignatory link
      rw [hasCosignatory_iff, (lookups.addresses multisig).1] at link
      by_cases isMultisig : multisig = notice.multisig
      · rw [changedEntry_eq, if_pos isMultisig] at link
        have mem := (mem_newCosignatories.mp link).1
        rw [isMultisig]
        exact mem.imp_right fun added => ⟨rfl, added⟩
      · rw [(changedEntry_other isMultisig).1, ← hasCosignatory_iff] at link
        exact .inl link
    · exact fun target mem => (sound.loopAndLevel_room (valid.levels target mem)).1
    · exact fun target mem => (sound.loopAndLevel_room (valid.levels target mem)).2
  · intro address entry found
    rw [lookups] at found
    obtain ⟨_, rfl⟩ := kept_eq_some.mp found
    by_cases isMultisig : address = notice.multisig
    · rw [changedEntry_eq, if_pos isMultisig]
      exact card_newCosignatories_le sound valid
    · rw [(changedEntry_other isMultisig).1]
      exact sound.card_entryAt_le address
  · intro address entry found
    rw [lookups] at found
    obtain ⟨solid, rfl⟩ := kept_eq_some.mp found
    exact solid
  · intro address entry found other
    rw [lookups] at found
    obtain ⟨_, rfl⟩ := kept_eq_some.mp found
    exact sound.minimaFit_changedEntry other

end

end Membership

section Settings
variable {settings : MultisigSettingsNotification}

private theorem links_of_shifted {getAddresses : MultisigEntry → Finset Address}
    (keeps : ∀ entry : MultisigEntry, getAddresses (entry.shifted 1 settings) = getAddresses entry)
    (lookups : ∀ address, next.lookup address = if address = settings.multisig then
        (changed.lookup settings.multisig).map (·.shifted 1 settings)
      else changed.lookup address) :
    Links getAddresses next = Links getAddresses changed := by
  funext address linkedAddress
  unfold Links
  rw [lookups]
  by_cases here : address = settings.multisig
  · rw [if_pos here, here]
    cases changed.lookup settings.multisig <;> simp [keeps]
  · rw [if_neg here]

private theorem toNat_addDelta {value : BitVec 32} {delta : Int}
    (low : 0 ≤ (value.toNat : Int) + delta) (high : (value.toNat : Int) + delta < 2 ^ 32) :
    ((addDelta value 1 delta).toNat : Int) = value.toNat + delta := by
  have bound := value.isLt
  rw [addDelta, BitVec.toNat_ofInt, BitVec.toInt_eq_toNat_cond]
  split <;> omega

section
variable (done : multisigSettingsObserver settings .commit changed = some next)
include done

private theorem entry_of_settings {address : Address}
    {entry : MultisigEntry} (found : next.lookup address = some entry) :
    address ≠ settings.multisig ∧ changed.lookup address = some entry ∨
      ∃ old, changed.lookup settings.multisig = some old ∧ entry = old.shifted 1 settings := by
  obtain ⟨same, sameDone, lookups⟩ := multisigSettingsObserver_commit changed settings
  cases done.symm.trans sameDone
  rw [lookups] at found
  split at found
  · obtain ⟨old, foundOld, rfl⟩ := map_eq_some_iff.mp found
    exact .inr ⟨old, foundOld, rfl⟩
  · exact .inl ⟨‹_›, found⟩

private theorem MembershipSound.graphSound (sound : MembershipSound cfg changed settings.multisig)
    (valid : multisigInvalidSettingsValidator changed settings = .success) :
    GraphSound cfg next := by
  obtain ⟨same, sameDone, lookups⟩ := multisigSettingsObserver_commit changed settings
  cases done.symm.trans sameDone
  have hasCosignatory : HasCosignatory next = HasCosignatory changed :=
    links_of_shifted (fun _ => rfl) lookups
  have cosigns : Cosigns next = Cosigns changed := links_of_shifted (fun _ => rfl) lookups
  refine ⟨⟨?_, ?_, ?_, ?_⟩, ?_⟩
  · rw [hasCosignatory, cosigns]
    exact sound.linked
  · rw [hasCosignatory]
    exact sound.depth
  · intro address entry found
    rcases entry_of_settings done found with ⟨_, foundOld⟩ | ⟨old, foundOld, rfl⟩
    · exact sound.cosignatories address entry foundOld
    · exact sound.cosignatories _ old foundOld
  · intro address entry found
    rcases entry_of_settings done found with ⟨_, foundOld⟩ | ⟨old, foundOld, rfl⟩
    · exact sound.solid address entry foundOld
    · exact sound.solid _ old foundOld
  · intro address entry found
    rcases entry_of_settings done found with ⟨other, foundOld⟩ | ⟨old, foundOld, rfl⟩
    · exact sound.minima address entry foundOld other
    · unfold multisigInvalidSettingsValidator at valid
      rw [foundOld] at valid
      dsimp only at valid
      have few := sound.cosignatories _ old foundOld
      have maximum := cfg.maxCosignatoriesPerAccount.isLt
      split at valid
      · cases valid
      · split at valid
        · cases valid
        · have approval : (((old.shifted 1 settings).minApproval.toNat : Nat) : Int) =
              old.minApproval.toNat + settings.minApprovalDelta :=
            toNat_addDelta (by omega) (by omega)
          have removal : (((old.shifted 1 settings).minRemoval.toNat : Nat) : Int) =
              old.minRemoval.toNat + settings.minRemovalDelta :=
            toNat_addDelta (by omega) (by omega)
          have nonempty : (old.shifted 1 settings).cosignatoryAddresses ≠ ∅ := by
            intro isEmpty
            have : old.cosignatoryAddresses.card = 0 := card_eq_zero.mpr isEmpty
            omega
          have kept : (old.shifted 1 settings).cosignatoryAddresses = old.cosignatoryAddresses :=
            rfl
          rw [MinimaFit, if_neg nonempty, kept]
          omega

private theorem cosignedWithin_settings (within : CosignedWithin cfg changed) :
    CosignedWithin cfg next := by
  intro address entry found
  rcases entry_of_settings done found with ⟨_, foundOld⟩ | ⟨old, foundOld, rfl⟩
  · exact within address entry foundOld
  · exact within _ old foundOld

end

end Settings

variable {resolve : U → Address} {change : SignedModification U}

private theorem GraphSound.accept (sound : GraphSound cfg cache)
    (accepted : change.accept cfg resolve cache = some next) :
    GraphSound cfg next := by
  obtain ⟨changed, membership, settingsValid, settingsDone⟩ :=
    SignedModification.accept_cases accepted
  have membershipSound : MembershipSound cfg changed change.signerAddress := by
    rcases membership with ⟨_, rfl⟩ | ⟨_, valid, done⟩
    · exact sound.membershipSound _
    · exact sound.membershipSound_changed valid
        (sound.membershipChanged (sound.membershipFacts valid) done)
  exact MembershipSound.graphSound settingsDone membershipSound settingsValid

variable {steps : List (ModificationStep U)} {states : List MultisigCache}

private theorem acceptAll_cons {step : ModificationStep U} {rest : List (ModificationStep U)}
    (accepted : acceptAll cfg (step :: rest) cache = some states) :
    ∃ next later, step.modification.accept cfg step.resolve cache = some next ∧
      acceptAll cfg rest next = some later ∧ next :: later = states := by
  obtain ⟨next, first, accepted⟩ := bind_eq_some_iff.mp accepted
  obtain ⟨later, rest, accepted⟩ := bind_eq_some_iff.mp accepted
  exact ⟨next, later, first, rest, some.inj accepted⟩

private theorem graphSound_along
    (sound : GraphSound cfg cache) (accepted : acceptAll cfg steps cache = some states) :
    ∀ state ∈ states, GraphSound cfg state := by
  induction steps generalizing cache states with
  | nil =>
    cases accepted
    simp
  | cons step rest ih =>
    obtain ⟨next, later, first, rest, rfl⟩ := acceptAll_cons accepted
    exact forall_mem_cons.mpr ⟨sound.accept first, ih (sound.accept first) rest⟩

theorem GraphSound.reached (accepted : acceptAll cfg steps ∅ = some states)
    (reached : cache ∈ ∅ :: states) : GraphSound cfg cache := by
  rcases mem_cons.mp reached with rfl | inStates
  · exact .empty
  · exact graphSound_along .empty accepted _ inStates

def HasLink (cache : MultisigCache) (top bottom u v : Address) : Prop :=
  HasCosignatory cache u v ∨ u = top ∧ v = bottom

/-- After any accepted modifications the check of a new link returns, and it succeeds exactly if the
graph with the link has neither a cycle nor too many levels. -/
theorem multisigLoopAndLevelValidator_exact (accepted : acceptAll cfg steps ∅ = some states)
    (reached : cache ∈ ∅ :: states) (top bottom : Address) :
    ∃ result, multisigLoopAndLevelValidator cfg cache top bottom = some result ∧
      (result = .success ↔
        WalksWithin (HasLink cache top bottom) cfg.maxMultisigDepth.toNat) := by
  have sound : GraphSound cfg cache := .reached accepted reached
  obtain ⟨result, returned⟩ := isSome_iff_exists.mp (sound.loopAndLevel_isSome top bottom)
  refine ⟨result, returned, ?_, fun within => ?_⟩
  · rintro rfl
    obtain ⟨noReturn, room⟩ := sound.loopAndLevel_room returned
    refine sound.depth.add top (· = bottom) (fun _ _ link => link) ?_ ?_
    · rintro _ rfl
      exact noReturn
    · rintro _ rfl
      exact room
  · obtain ⟨⟨numTopLevels, ancestors⟩, foundAbove, returned⟩ := bind_eq_some_iff.mp returned
    obtain ⟨⟨numBottomLevels, descendants⟩, foundBelow, returned⟩ := bind_eq_some_iff.mp returned
    have above : ∀ {n last}, Walk (Cosigns cache) n top last →
        Walk (HasLink cache top bottom) n last top := by
      intro n last walk
      rw [sound.cosigns_eq_swap] at walk
      exact walk.reverse.mono fun _ _ => .inl
    have below : ∀ {n last}, Walk (HasCosignatory cache) n bottom last →
        Walk (HasLink cache top bottom) (n + 1) top last :=
      fun walk => .cons (.inr ⟨rfl, rfl⟩) (walk.mono fun _ _ => .inl)
    obtain ⟨⟨first, longestAbove⟩, ancestor⟩ := findAll_attained foundAbove
    obtain ⟨⟨last, longestBelow⟩, descendant⟩ := findAll_attained foundBelow
    have levels := within _ _ _ ((above longestAbove).append (below longestBelow))
    have separate : insert top ancestors ∩ insert bottom descendants = ∅ := by
      refine eq_empty_of_forall_notMem fun address mem => ?_
      obtain ⟨isAbove, isBelow⟩ := mem_inter.mp mem
      obtain ⟨n, upward⟩ : ∃ n, Walk (Cosigns cache) n top address :=
        (mem_insert.mp isAbove).elim (fun same => ⟨0, same ▸ .nil _⟩) (ancestor address)
      obtain ⟨m, downward⟩ : ∃ m, Walk (HasCosignatory cache) m bottom address :=
        (mem_insert.mp isBelow).elim (fun same => ⟨0, same ▸ .nil _⟩) (descendant address)
      exact within.not_closed (n := n + m) ((above upward).append (below downward))
    dsimp only at returned
    rw [if_neg (by omega), if_neg (not_not.mpr separate)] at returned
    exact (some.inj returned).symm

section
variable (sound : GraphSound cfg cache)
include sound

private theorem CosignedWithin.accept (within : CosignedWithin cfg cache)
    (pos : cfg.maxCosignedAccountsPerAccount ≠ 0 ∨ change.addressAdditions = [])
    (accepted : change.accept cfg resolve cache = some next) :
    CosignedWithin cfg next := by
  obtain ⟨changed, membership, _, settingsDone⟩ := SignedModification.accept_cases accepted
  refine cosignedWithin_settings settingsDone ?_
  rcases membership with ⟨_, rfl⟩ | ⟨_, valid, done⟩
  · exact within
  · refine (sound.membershipChanged (sound.membershipFacts valid) done).cosignedWithin valid ?_
      within
    exact pos.imp_right fun none => by simp [SignedModification.membership, none]

private theorem GraphSound.accept_cosigns
    (accepted : change.accept cfg resolve cache = some next) {cosignatory : U}
    (added : cosignatory ∈ change.addressAdditions) :
    Cosigns next (resolve cosignatory) change.signerAddress := by
  obtain ⟨changed, membership, _, settingsDone⟩ := SignedModification.accept_cases accepted
  obtain ⟨same, sameDone, settingsLookups⟩ :=
    multisigSettingsObserver_commit changed change.settings
  cases settingsDone.symm.trans sameDone
  rw [Cosigns, links_of_shifted (fun _ => rfl) settingsLookups]
  rcases membership with ⟨settingsOnly, _⟩ | ⟨_, valid, done⟩
  · simp [settingsOnly.1] at added
  · have facts := sound.membershipFacts valid
    have mem : resolve cosignatory ∈ (change.membership resolve).addressAdditions :=
      mem_map_of_mem added
    refine cosigns_iff.mpr ?_
    rw [((sound.membershipChanged facts done).addresses _).2, changedEntry_eq,
      if_neg (ne_of_mem_of_not_mem mem facts.othersAdded),
      if_neg fun deleted => facts.apart _ deleted mem, if_pos mem]
    exact mem_insert_self _ _

private theorem wellFormed_along (within : CosignedWithin cfg cache)
    (pos : cfg.maxCosignedAccountsPerAccount ≠ 0 ∨
      ∀ step ∈ steps, step.modification.addressAdditions = [])
    (accepted : acceptAll cfg steps cache = some states) :
    ∀ state ∈ states, GraphWellFormed cfg state := by
  induction steps generalizing cache states with
  | nil =>
    cases accepted
    simp
  | cons step rest ih =>
    obtain ⟨next, later, first, rest, rfl⟩ := acceptAll_cons accepted
    have soundNext := sound.accept first
    have withinNext := within.accept sound
      (pos.imp_right fun none => none step mem_cons_self) first
    exact forall_mem_cons.mpr ⟨soundNext.wellFormed withinNext, ih soundNext withinNext
      (pos.imp_right fun none other mem => none other (mem_cons_of_mem _ mem))
      rest⟩

private theorem additions_eq_nil_along (zero : cfg.maxCosignedAccountsPerAccount = 0)
    (accepted : acceptAll cfg steps cache = some states)
    (wellFormed : ∀ state ∈ states, GraphWellFormed cfg state) :
    ∀ step ∈ steps, step.modification.addressAdditions = [] := by
  induction steps generalizing cache states with
  | nil => simp
  | cons step rest ih =>
    obtain ⟨next, later, first, rest, rfl⟩ := acceptAll_cons accepted
    obtain ⟨nextWellFormed, laterWellFormed⟩ := forall_mem_cons.mp wellFormed
    refine forall_mem_cons.mpr ⟨?_, ih (sound.accept first) rest laterWellFormed⟩
    refine eq_nil_iff_forall_not_mem.mpr fun cosignatory added => ?_
    obtain ⟨entry, found, cosigns⟩ := sound.accept_cosigns first added
    have few : entry.multisigAddresses.card ≤ 0 := by
      simpa [zero] using nextWellFormed.cosigned _ entry found
    exact absurd (card_pos.mpr ⟨_, cosigns⟩) (Nat.not_lt.mpr few)

end

/-- From an empty cache the graph is well formed after every accepted modification, exactly when
the limit on cosigned accounts is not zero or no modification of the run adds a cosignatory. -/
theorem multisigGraph_wellFormed_iff {steps : List (ModificationStep U)}
    {states : List MultisigCache} (accepted : acceptAll cfg steps ∅ = some states) :
    (∀ state ∈ states, GraphWellFormed cfg state) ↔ cfg.maxCosignedAccountsPerAccount ≠ 0 ∨
        ∀ step ∈ steps, step.modification.addressAdditions = [] := by
  constructor
  · intro wellFormed
    by_cases zero : cfg.maxCosignedAccountsPerAccount = 0
    · exact .inr (additions_eq_nil_along .empty zero accepted wellFormed)
    · exact .inl zero
  · intro pos
    exact wellFormed_along .empty (fun _ _ found => by simp at found) pos accepted

end Steps

section Example

/-- One level, two cosignatories, and a limit on cosigned accounts that is left open. -/
def smallConfiguration (maxCosignedAccountsPerAccount : BitVec 32) : MultisigConfiguration :=
  ⟨1, 2, maxCosignedAccountsPerAccount⟩

/-- Account 1 becomes a multisig account with account 2 as its cosignatory. -/
def firstConversion : ModificationStep Address where
  modification := ⟨1, 1, 1, [2], [], by decide, by decide⟩
  resolve := id

def firstConversionCache : MultisigCache :=
  ((∅ : MultisigCache).insert 2 ⟨∅, 0, 0, {1}⟩).insert 1 ⟨{2}, 1, 1, ∅⟩

private theorem firstConversion_accepted :
    acceptAll (smallConfiguration 0) [firstConversion] ∅ = some [firstConversionCache] ∧
      acceptAll (smallConfiguration 1) [firstConversion] ∅ = some [firstConversionCache] := by
  decide +kernel

theorem multisigGraph_wellFormed_iff_firstConversion :
    acceptAll (smallConfiguration 1) [firstConversion] ∅ = some [firstConversionCache] ∧
      ((∀ state ∈ [firstConversionCache], GraphWellFormed (smallConfiguration 1) state) ↔
        (smallConfiguration 1).maxCosignedAccountsPerAccount ≠ 0 ∨
          ∀ step ∈ [firstConversion], step.modification.addressAdditions = []) :=
  ⟨firstConversion_accepted.2, multisigGraph_wellFormed_iff firstConversion_accepted.2⟩

theorem multisigLoopAndLevelValidator_exact_back :
    acceptAll (smallConfiguration 1) [firstConversion] ∅ = some [firstConversionCache] ∧
      ∃ result,
        multisigLoopAndLevelValidator (smallConfiguration 1) firstConversionCache 2 1 = some result ∧
        (result = .success ↔ WalksWithin (HasLink firstConversionCache 2 1) 1) :=
  ⟨firstConversion_accepted.2, multisigLoopAndLevelValidator_exact firstConversion_accepted.2
    (List.mem_cons_of_mem _ (List.mem_singleton_self _)) 2 1⟩

/-- Where no account may cosign any other, a new account is accepted as a cosignatory. -/
theorem unknown_cosignatory_exceeds_zero_limit :
    ∃ states, acceptAll (smallConfiguration 0) [firstConversion] ∅ = some states ∧
      ∃ state ∈ states, ¬ GraphWellFormed (smallConfiguration 0) state := by
  refine ⟨_, firstConversion_accepted.1, firstConversionCache, List.mem_singleton_self _, ?_⟩
  intro wellFormed
  have found : firstConversionCache.lookup 2 = some ⟨∅, 0, 0, {1}⟩ := by decide +kernel
  exact absurd (wellFormed.cosigned 2 _ found) (by decide)

end Example

end BitxorCore.Multisig
