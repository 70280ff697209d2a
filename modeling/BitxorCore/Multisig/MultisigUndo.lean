/- GID: Multisig/MultisigUndo
   anchors: [plugins/txes/multisig]
   digest: Which accepted modifications are undone exactly by their notifications in reverse. -/

import BitxorCore.Multisig.MultisigGraph

set_option autoImplicit false
set_option relaxedAutoImplicit false

namespace BitxorCore.Multisig
open Chain Library Library.FiniteMap Library.PartialAction State MultisigEntry List

section Entries

private theorem addDelta_eq (value : BitVec 32) (direction delta : Int) :
    addDelta value direction delta = value + BitVec.ofInt 32 (direction * delta) := by
  rw [addDelta, BitVec.ofInt_add, BitVec.ofInt_toInt]

private theorem addDelta_back (value : BitVec 32) (delta : Int) :
    addDelta (addDelta value 1 delta) (-1) delta = value := by
  rw [addDelta_eq, addDelta_eq, BitVec.add_assoc, ← BitVec.ofInt_add, ← Int.add_mul]
  simp

private theorem shifted_back (entry : MultisigEntry) (settings : MultisigSettingsNotification) :
    (entry.shifted 1 settings).shifted (-1) settings = entry := by
  simp [shifted, addDelta_back]

variable {entry : MultisigEntry} {multisig : Address}

private theorem withoutMultisig_withMultisig (absent : multisig ∉ entry.multisigAddresses) :
    (entry.withMultisig multisig).withoutMultisig multisig = entry := by
  simp [withMultisig, withoutMultisig, Finset.erase_insert absent]

private theorem withMultisig_withoutMultisig (present : multisig ∈ entry.multisigAddresses) :
    (entry.withoutMultisig multisig).withMultisig multisig = entry := by
  simp [withMultisig, withoutMultisig, Finset.insert_erase present]

private theorem eq_empty_of_hollow (hollow : entry.IsHollow)
    (minima : MinimaFit entry) : entry = .empty := by
  obtain ⟨cosignatories, multisigs⟩ := hollow
  rw [MinimaFit, if_pos cosignatories] at minima
  cases entry
  simp_all [empty]

private theorem kept_getD (minima : MinimaFit entry) : entry.kept.getD .empty = entry := by
  by_cases hollow : entry.IsHollow
  · rw [kept_eq_none.mpr hollow, Option.getD_none, eq_empty_of_hollow hollow minima]
  · rw [kept_of_not_hollow hollow, Option.getD_some]

end Entries

section Undo
variable {U : Type} [DecidableEq U] {cfg : MultisigConfiguration} {resolve : U → Address}
  {cache changed next : MultisigCache} {modification : SignedModification U}
  {notice : MultisigCosignatoriesNotification}

omit [DecidableEq U] in
private theorem run_newCosignatories_rollback (multisig : Address) (cosignatories : List U)
    (cache : MultisigCache) :
    run ((cosignatories.map (ModificationNotification.newCosignatory multisig)).map
      (observeNotification resolve .rollback)) cache = some cache := by
  induction cosignatories with
  | nil => rfl
  | cons cosignatory rest ih => exact ih

omit [DecidableEq U] in
private theorem undo_eq (cache : MultisigCache) : modification.undo resolve cache =
      (multisigSettingsObserver modification.settings .rollback cache).bind fun restored =>
        if modification.IsSettingsOnly then some restored
        else multisigCosignatoriesObserver (modification.membership resolve) .rollback restored := by
  unfold SignedModification.undo
  by_cases settingsOnly : modification.IsSettingsOnly
  · rw [SignedModification.publish_of_settingsOnly settingsOnly]
    simp only [settingsOnly, ↓reduceIte]
    rfl
  · rw [SignedModification.publish_of_membership settingsOnly]
    simp only [settingsOnly, ↓reduceIte, reverse_append, reverse_cons, reverse_nil,
      nil_append, cons_append, map_cons, run_cons, ← map_reverse]
    refine congrArg (Option.bind _) (funext fun restored => ?_)
    change (multisigCosignatoriesObserver (modification.membership resolve) .rollback
      restored).bind (run _) = _
    cases multisigCosignatoriesObserver (modification.membership resolve) .rollback restored with
    | none => rfl
    | some last => exact run_newCosignatories_rollback _ _ last

section Settings
variable {settings : MultisigSettingsNotification}

section
variable (sound : GraphSound cfg cache) (facts : MembershipFacts cache notice)
  (named : notice.addressAdditions ≠ [] ∨ notice.addressDeletions ≠ [])
  (valid : multisigInvalidSettingsValidator changed settings = .success)
include sound facts named valid

private theorem shifted_empty_of_removed (missing : changed.lookup settings.multisig = none)
    (hollow : (changedEntry cache notice notice.multisig).IsHollow) :
    empty.shifted (-1) settings = changedEntry cache notice notice.multisig := by
  rw [changedEntry_eq, if_pos rfl] at hollow ⊢
  obtain ⟨noCosignatories, noMultisigs⟩ := hollow
  change newCosignatories cache notice = ∅ at noCosignatories
  have gone : ∀ address, HasCosignatory cache notice.multisig address ∨
      address ∈ notice.addressAdditions → address ∈ notice.addressDeletions := by
    intro address link
    by_contra kept
    have mem := mem_newCosignatories.mpr ⟨link, kept⟩
    rw [noCosignatories] at mem
    exact Finset.notMem_empty _ mem
  have noAdditions : notice.addressAdditions = [] :=
    eq_nil_iff_forall_not_mem.mpr fun address added =>
      facts.apart address (gone address (.inr added)) added
  obtain ⟨deleted, isDeleted⟩ :=
    exists_mem_of_ne_nil _ (named.resolve_left fun additions => additions noAdditions)
  obtain ⟨entry, found, cosigns⟩ := facts.deleted deleted isDeleted
  have single : entry.cosignatoryAddresses.card ≤ 1 := by
    have within : entry.cosignatoryAddresses ⊆ notice.addressDeletions.toFinset :=
      fun address mem => mem_toFinset.mpr (gone address (.inl ⟨entry, found, mem⟩))
    exact (Finset.card_le_card within).trans ((toFinset_card_le _).trans facts.single)
  have minima := sound.minima _ entry found
  rw [MinimaFit, if_neg (Finset.ne_empty_of_mem cosigns)] at minima
  have minApproval : entry.minApproval = 1 := BitVec.eq_of_toNat_eq (by
    change _ = 1
    omega)
  have minRemoval : entry.minRemoval = 1 := BitVec.eq_of_toNat_eq (by
    change _ = 1
    omega)
  rw [multisigInvalidSettingsValidator, missing] at valid
  dsimp only at valid
  split at valid
  · cases valid
  · rename_i deltas
    rw [not_or, not_not, not_not] at deltas
    rw [entryAt, found, Option.getD_some] at noMultisigs ⊢
    change entry.multisigAddresses = ∅ at noMultisigs
    simp only [shifted, empty, withCosignatories, deltas.1, deltas.2, minApproval,
      minRemoval, noCosignatories, noMultisigs]
    decide

/-- Rolling back the settings gives the account the entry it had between both changes, also where
the change of cosignatories had removed it. -/
private theorem settings_rolled_back
    (lookups : MembershipChanged cache notice changed) (same : settings.multisig = notice.multisig)
    (done : multisigSettingsObserver settings .commit changed = some next) :
    ∃ restored, multisigSettingsObserver settings .rollback next = some restored ∧
      restored.lookup notice.multisig = some (changedEntry cache notice notice.multisig) ∧
      ∀ address, address ≠ notice.multisig → restored.lookup address = changed.lookup address := by
  obtain ⟨_, committedDone, committed⟩ := multisigSettingsObserver_commit changed settings
  cases done.symm.trans committedDone
  obtain ⟨restored, restoredDone, rolledBack⟩ := multisigSettingsObserver_rollback next settings
  rw [same] at committed rolledBack
  refine ⟨restored, restoredDone, ?_, fun address other => ?_⟩
  · have between := lookups notice.multisig
    rw [rolledBack, if_pos rfl, entryAt, committed, if_pos rfl, between]
    by_cases hollow : (changedEntry cache notice notice.multisig).IsHollow
    · rw [kept_eq_none.mpr hollow] at between ⊢
      exact congrArg some (shifted_empty_of_removed sound facts named valid
        ((congrArg changed.lookup same).trans between) hollow)
    · rw [kept_of_not_hollow hollow]
      exact congrArg some (shifted_back _ _)
  · rw [rolledBack, if_neg other, committed, if_neg other]

end

end Settings

section Membership
variable {restored : MultisigCache} {address : Address}

variable (facts : MembershipFacts cache notice)
include facts

private theorem absent_of_added (sound : GraphSound cfg cache)
    (added : address ∈ notice.addressAdditions) :
    notice.multisig ∉ (entryAt cache address).multisigAddresses :=
  fun mem => facts.fresh address added ((sound.linked _ _).mpr (cosigns_iff.mpr mem))

private theorem cosignatories_back : newCosignatories cache notice \
      notice.addressAdditions.toFinset ∪ notice.addressDeletions.toFinset =
    (entryAt cache notice.multisig).cosignatoryAddresses := by
  ext address
  have fresh := facts.fresh address
  have deleted := facts.deleted address
  rw [Finset.mem_union, Finset.mem_sdiff, mem_newCosignatories, mem_toFinset, mem_toFinset,
    ← hasCosignatory_iff]
  tauto

variable (lookups : MembershipChanged cache notice changed)
  (others : ∀ address, address ≠ notice.multisig → restored.lookup address = changed.lookup address)
include lookups others

private theorem lookup_added (added : address ∈ notice.addressAdditions) : restored.lookup address =
      some ((entryAt cache address).withMultisig notice.multisig) := by
  have other : address ≠ notice.multisig := ne_of_mem_of_not_mem added facts.othersAdded
  rw [others address other, lookups, changedEntry_eq, if_neg other,
    if_neg fun deleted => facts.apart address deleted added, if_pos added]
  exact kept_of_not_hollow (not_hollow_of_multisig (Finset.mem_insert_self _ _))

section
variable (sound : GraphSound cfg cache)
  (once : ∀ address, cache.lookup address = none → notice.addressAdditions.count address ≤ 1)
include sound once

private theorem removable_additions :
    Removable restored notice.multisig notice.addressAdditions := by
  intro address added
  refine ⟨_, lookup_added facts lookups others added, ?_⟩
  rw [withoutMultisig_withMultisig (absent_of_added facts sound added), entryAt]
  cases found : cache.lookup address with
  | none => exact .inr (once address found)
  | some entry => exact .inl (sound.solid address entry found)

private theorem membership_rolled_back
    (atMultisig : restored.lookup notice.multisig = some (changedEntry cache notice notice.multisig)) :
    multisigCosignatoriesObserver notice .rollback restored = some cache := by
  obtain ⟨last, done, rolledBack⟩ := multisigCosignatoriesObserver_spec facts.othersAdded
    (facts.othersDeleted sound) facts.apart .rollback
    (fun _ => removable_additions facts lookups others sound once) nofun
  rw [done, Option.some_inj]
  refine Finmap.ext_lookup fun address => ?_
  rw [rolledBack, ← sound.kept_entryAt address]
  by_cases isMultisig : address = notice.multisig
  · rw [if_pos isMultisig, isMultisig, entryAt, atMultisig, changedEntry_eq, if_pos rfl]
    exact congrArg (fun cosignatories => (withCosignatories _ cosignatories).kept)
      (cosignatories_back facts)
  · have between : entryAt restored address = changedEntry cache notice address := by
      rw [entryAt, others address isMultisig, lookups,
        kept_getD (sound.minimaFit_changedEntry isMultisig)]
    rw [others address isMultisig, lookups, between, changedEntry_eq, if_neg isMultisig,
      if_neg isMultisig]
    by_cases isDeleted : address ∈ notice.addressDeletions
    · have cosigns := cosigns_iff.mp ((sound.linked _ _).mp (facts.deleted address isDeleted))
      rw [if_pos isDeleted, if_pos isDeleted]
      exact congrArg kept (withMultisig_withoutMultisig cosigns)
    · rw [if_neg isDeleted, if_neg isDeleted]
      by_cases isAdded : address ∈ notice.addressAdditions
      · rw [if_pos isAdded, if_pos isAdded]
        exact congrArg kept (withoutMultisig_withMultisig (absent_of_added facts sound isAdded))
      · rw [if_neg isAdded, if_neg isAdded]

end

private theorem membership_rollback_throws (missing : cache.lookup address = none)
    (repeated : 1 < notice.addressAdditions.count address) :
    multisigCosignatoriesObserver notice .rollback restored = none := by
  have added : address ∈ notice.addressAdditions := count_pos_iff.mp (by omega)
  have linked := lookup_added facts lookups others added
  rw [entryAt, missing, Option.getD_none] at linked
  refine multisigCosignatoriesObserver_rollback_repeated facts.othersAdded linked ?_ repeated
  rw [withoutMultisig_withMultisig (Finset.notMem_empty _)]
  exact empty_isHollow

end Membership

omit [DecidableEq U] in
private theorem named_of_membership (changes : ¬ modification.IsSettingsOnly) :
    (modification.membership resolve).addressAdditions ≠ [] ∨
      (modification.membership resolve).addressDeletions ≠ [] := by
  simpa [SignedModification.membership, SignedModification.IsSettingsOnly, imp_iff_not_or]
    using changes

omit [DecidableEq U] in
private theorem undo_settingsOnly_iff (settingsOnly : modification.IsSettingsOnly)
    (done : multisigSettingsObserver modification.settings .commit cache = some next) :
    modification.undo resolve next = some cache ↔
      cache.lookup modification.signerAddress ≠ none := by
  obtain ⟨_, committedDone, committed⟩ :=
    multisigSettingsObserver_commit cache modification.settings
  cases done.symm.trans committedDone
  obtain ⟨restored, restoredDone, rolledBack⟩ :=
    multisigSettingsObserver_rollback next modification.settings
  rw [undo_eq, restoredDone, Option.bind_some, if_pos settingsOnly, Option.some_inj]
  constructor
  · rintro rfl missing
    have present := rolledBack modification.settings.multisig
    rw [if_pos rfl] at present
    cases missing.symm.trans present
  · intro present
    obtain ⟨entry, found⟩ := Option.ne_none_iff_exists'.mp present
    change cache.lookup modification.settings.multisig = some entry at found
    refine Finmap.ext_lookup fun address => ?_
    rw [rolledBack]
    by_cases here : address = modification.settings.multisig
    · rw [if_pos here, entryAt, committed, if_pos rfl, here, found]
      exact congrArg some (shifted_back _ _)
    · rw [if_neg here, committed, if_neg here]

omit [DecidableEq U] in
private theorem undo_membership_iff (sound : GraphSound cfg cache)
    (changes : ¬ modification.IsSettingsOnly)
    (valid : MembershipValid cfg cache (modification.membership resolve))
    (membershipDone : multisigCosignatoriesObserver (modification.membership resolve) .commit
      cache = some changed)
    (settingsValid : multisigInvalidSettingsValidator changed modification.settings = .success)
    (settingsDone : multisigSettingsObserver modification.settings .commit changed = some next) :
    modification.undo resolve next = some cache ↔ ∀ address, cache.lookup address = none →
        (modification.addressAdditions.map resolve).count address ≤ 1 := by
  have facts := sound.membershipFacts valid
  have lookups := sound.membershipChanged facts membershipDone
  obtain ⟨restored, restoredDone, atMultisig, others⟩ := settings_rolled_back sound facts
    (named_of_membership changes) settingsValid lookups rfl settingsDone
  rw [undo_eq, restoredDone, Option.bind_some, if_neg changes]
  constructor
  · intro undone address missing
    by_contra repeated
    rw [membership_rollback_throws facts lookups others missing (Nat.not_le.mp repeated)] at undone
    cases undone
  · exact fun once => membership_rolled_back facts lookups others sound once atMultisig

/-- A modification accepted in a cache that accepted modifications lead to is undone exactly, if
and only if no account without an entry is named twice in its additions and it is not a settings
change of an account without an entry. -/
theorem multisig_modification_undone_iff {steps : List (ModificationStep U)}
    {states : List MultisigCache} (run : acceptAll cfg steps ∅ = some states)
    (reached : cache ∈ ∅ :: states) (accepted : modification.accept cfg resolve cache = some next) :
    modification.undo resolve next = some cache ↔ (∀ address, cache.lookup address = none →
        (modification.addressAdditions.map resolve).count address ≤ 1) ∧
      ¬ (modification.IsSettingsOnly ∧ cache.lookup modification.signerAddress = none) := by
  have sound : GraphSound cfg cache := .reached run reached
  obtain ⟨changed, membership, settingsValid, settingsDone⟩ :=
    SignedModification.accept_cases accepted
  rcases membership with ⟨settingsOnly, rfl⟩ | ⟨changes, valid, membershipDone⟩
  · rw [undo_settingsOnly_iff settingsOnly settingsDone]
    simp [settingsOnly, settingsOnly.1]
  · rw [undo_membership_iff sound changes valid membershipDone settingsValid settingsDone]
    simp [changes]

end Undo

section Example

/-- Account 1 adds account 2, once under each of two names that stand for it. -/
def repeatedAddition : SignedModification Bool := ⟨1, 1, 1, [true, false], [], by decide, by decide⟩

def singleAddition : SignedModification Bool := ⟨1, 1, 1, [true], [], by decide, by decide⟩

private theorem additions_accepted :
    repeatedAddition.accept (smallConfiguration 1) (fun _ => 2) ∅ = some firstConversionCache ∧
      singleAddition.accept (smallConfiguration 1) (fun _ => 2) ∅ = some firstConversionCache := by
  decide +kernel

theorem multisig_modification_undone_iff_singleAddition :
    singleAddition.accept (smallConfiguration 1) (fun _ => 2) ∅ = some firstConversionCache ∧
      (singleAddition.undo (fun _ => 2) firstConversionCache = some ∅ ↔
        (∀ address, (∅ : MultisigCache).lookup address = none →
          (singleAddition.addressAdditions.map fun _ => (2 : Address)).count address ≤ 1) ∧
        ¬ (singleAddition.IsSettingsOnly ∧
          (∅ : MultisigCache).lookup singleAddition.signerAddress = none)) :=
  have run : acceptAll (smallConfiguration 1) ([] : List (ModificationStep Bool)) ∅ = some [] := rfl
  ⟨additions_accepted.2, multisig_modification_undone_iff run mem_cons_self additions_accepted.2⟩

/-- The new cosignatory's entry goes with the first removal, so that the second one throws. -/
theorem repeated_alias_undo_throws :
    acceptAll (smallConfiguration 1) ([] : List (ModificationStep Bool)) ∅ = some [] ∧
      repeatedAddition.accept (smallConfiguration 1) (fun _ => 2) ∅ = some firstConversionCache ∧
      repeatedAddition.undo (fun _ => 2) firstConversionCache = none := by
  decide +kernel

end Example

end BitxorCore.Multisig
