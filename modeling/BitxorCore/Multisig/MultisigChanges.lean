/- GID: Multisig/MultisigChanges
   anchors: [plugins/txes/multisig]
   digest: What an accepted modification does to the entry of every address. -/

import BitxorCore.Multisig.MultisigValidators

set_option autoImplicit false
set_option relaxedAutoImplicit false

namespace BitxorCore.Multisig
open Chain Library Library.FiniteMap Library.PartialAction State List Option

namespace MultisigEntry

variable (entry : MultisigEntry)

def IsHollow : Prop :=
  entry.cosignatoryAddresses = ∅ ∧ entry.multisigAddresses = ∅

instance (entry : MultisigEntry) : Decidable entry.IsHollow := inferInstanceAs (Decidable (_ ∧ _))

def kept : Option MultisigEntry :=
  if entry.IsHollow then none else some entry

def withMultisig (multisig : Address) : MultisigEntry :=
  { entry with multisigAddresses := insert multisig entry.multisigAddresses }

def withoutMultisig (multisig : Address) : MultisigEntry :=
  { entry with multisigAddresses := entry.multisigAddresses.erase multisig }

def withCosignatories (cosignatories : Finset Address) : MultisigEntry :=
  { entry with cosignatoryAddresses := cosignatories }

/-- The entry of a cosignatory after a multisig account is entered there or taken out. -/
def relinked (multisig : Address) : Bool → MultisigEntry
  | true => entry.withMultisig multisig
  | false => entry.withoutMultisig multisig

private theorem relinked_relinked (multisig : Address) (shouldAdd : Bool) :
    (entry.relinked multisig shouldAdd).relinked multisig shouldAdd =
      entry.relinked multisig shouldAdd := by
  cases shouldAdd <;> simp [relinked, withMultisig, withoutMultisig]

variable {entry : MultisigEntry}

theorem not_hollow_of_multisig {multisig : Address} (mem : multisig ∈ entry.multisigAddresses) :
    ¬ entry.IsHollow :=
  fun hollow => Finset.notMem_empty multisig (hollow.2 ▸ mem)

theorem kept_of_not_hollow (solid : ¬ entry.IsHollow) : entry.kept = some entry := if_neg solid

theorem kept_eq_none : entry.kept = none ↔ entry.IsHollow := by
  simp [kept]

theorem kept_eq_some {other : MultisigEntry} :
    entry.kept = some other ↔ ¬ entry.IsHollow ∧ entry = other := by
  simp [kept]

end MultisigEntry

open MultisigEntry

def entryAt (cache : MultisigCache) (address : Address) : MultisigEntry :=
  (cache.lookup address).getD .empty

section Lookups
variable {cache : MultisigCache} {multisig cosignatory : Address}
  {multisigEntry cosignatoryEntry : MultisigEntry}

private theorem lookup_getMultisigEntry (cache : MultisigCache) (address other : Address) :
    (getMultisigEntry cache address).lookup other =
      if other = address then some (entryAt cache address) else cache.lookup other := by
  rw [getMultisigEntry, lookup_insertNew, entryAt]
  by_cases here : other = address
  · subst here
    cases cache.lookup other <;> simp
  · simp [here]

private theorem lookup_removeIfEmpty (cache : MultisigCache) (address other : Address) :
    (removeIfEmpty cache address).lookup other =
      if other = address then (cache.lookup address).bind kept
      else cache.lookup other := by
  unfold removeIfEmpty
  cases found : cache.lookup address with
  | none =>
    by_cases here : other = address
    · rw [if_pos here, here]
      exact found
    · rw [if_neg here]
  | some entry =>
    by_cases hollow : entry.IsHollow
    · rw [bind_some, kept_eq_none.mpr hollow]
      exact (congrArg (Finmap.lookup other) (if_pos hollow)).trans (lookup_erase_apply ..)
    · rw [bind_some, kept_of_not_hollow hollow]
      refine (congrArg (Finmap.lookup other) (if_neg hollow)).trans ?_
      by_cases here : other = address
      · rw [if_pos here, here, found]
      · rw [if_neg here]

private theorem lookup_removeIfEmpty_of_found (found : cache.lookup multisig = some multisigEntry)
    (address : Address) : (removeIfEmpty cache multisig).lookup address =
      if address = multisig then multisigEntry.kept else cache.lookup address := by
  rw [lookup_removeIfEmpty, found, bind_some]

private theorem modifyEntry_of_found (found : cache.lookup multisig = some multisigEntry)
    (change : MultisigEntry → MultisigEntry) :
    modifyEntry cache multisig change = some (cache.insert multisig (change multisigEntry)) := by
  rw [modifyEntry, found, map_some]

private theorem modifyEntry_getMultisigEntry (cache : MultisigCache) (address : Address)
    (change : MultisigEntry → MultisigEntry) :
    ∃ next, modifyEntry (getMultisigEntry cache address) address change = some next ∧
      ∀ other, next.lookup other = if other = address then
          some (change (entryAt cache address))
        else cache.lookup other := by
  have entered := lookup_getMultisigEntry cache address
  refine ⟨_, modifyEntry_of_found ((entered address).trans (if_pos rfl)) change, fun other => ?_⟩
  rw [lookup_insert_apply, entered]
  by_cases here : other = address
  · rw [if_pos here, if_pos here]
  · rw [if_neg here, if_neg here, if_neg here]

section
variable (found : cache.lookup multisig = some multisigEntry)
include found

private theorem addCosignatory_spec (distinct : cosignatory ≠ multisig) :
    ∃ next, addCosignatory multisig cosignatory cache = some next ∧ ∀ address, next.lookup address =
        if address = multisig then
          some (multisigEntry.withCosignatories
            (insert cosignatory multisigEntry.cosignatoryAddresses))
        else if address = cosignatory then
          ((entryAt cache cosignatory).relinked multisig true).kept
        else cache.lookup address := by
  obtain ⟨linked, linkedDone, linkedLookup⟩ :=
    modifyEntry_getMultisigEntry cache cosignatory (·.withMultisig multisig)
  have still : linked.lookup multisig = some multisigEntry := by
    rw [linkedLookup, if_neg distinct.symm, found]
  refine ⟨linked.insert multisig (multisigEntry.withCosignatories
    (insert cosignatory multisigEntry.cosignatoryAddresses)), ?_, fun address => ?_⟩
  · change (modifyEntry _ _ (·.withMultisig multisig)).bind _ = _
    rw [linkedDone]
    exact modifyEntry_of_found still _
  · rw [lookup_insert_apply, linkedLookup, relinked,
      kept_of_not_hollow (not_hollow_of_multisig (Finset.mem_insert_self _ _))]

private theorem removeCosignatory_eq : removeCosignatory multisig cosignatory cache =
      (modifyEntry (cache.insert multisig (multisigEntry.withCosignatories
        (multisigEntry.cosignatoryAddresses.erase cosignatory))) cosignatory
          (·.withoutMultisig multisig)).map (removeIfEmpty · cosignatory) := by
  rw [removeCosignatory, modifyEntry_of_found found, map_eq_bind]
  rfl

private theorem removeCosignatory_spec (linked : cache.lookup cosignatory = some cosignatoryEntry)
    (distinct : cosignatory ≠ multisig) :
    ∃ next, removeCosignatory multisig cosignatory cache = some next ∧
      ∀ address, next.lookup address = if address = multisig then
          some (multisigEntry.withCosignatories
            (multisigEntry.cosignatoryAddresses.erase cosignatory))
        else if address = cosignatory then
          ((entryAt cache cosignatory).relinked multisig false).kept
        else cache.lookup address := by
  have still : (cache.insert multisig (multisigEntry.withCosignatories
      (multisigEntry.cosignatoryAddresses.erase cosignatory))).lookup cosignatory =
        some cosignatoryEntry := by simp_all
  have done : removeCosignatory multisig cosignatory cache = some (removeIfEmpty
      ((cache.insert multisig (multisigEntry.withCosignatories
        (multisigEntry.cosignatoryAddresses.erase cosignatory))).insert cosignatory
          (cosignatoryEntry.withoutMultisig multisig)) cosignatory) := by
    rw [removeCosignatory_eq found, modifyEntry_of_found still, map_some]
  refine ⟨_, done, fun address => ?_⟩
  · rw [lookup_removeIfEmpty]
    by_cases isCosignatory : address = cosignatory
    · simp_all [entryAt, relinked]
    · simp [isCosignatory, lookup_insert_apply]

end

private theorem removeCosignatory_found {next : MultisigCache}
    (done : removeCosignatory multisig cosignatory cache = some next)
    (distinct : cosignatory ≠ multisig) :
    ∃ multisigEntry cosignatoryEntry, cache.lookup multisig = some multisigEntry ∧
      cache.lookup cosignatory = some cosignatoryEntry := by
  cases found : cache.lookup multisig with
  | none =>
    rw [removeCosignatory, modifyEntry, found] at done
    cases done
  | some multisigEntry =>
    rw [removeCosignatory_eq found] at done
    obtain ⟨changed, modified, _⟩ := map_eq_some_iff.mp done
    rw [modifyEntry, lookup_insert_apply, if_neg distinct] at modified
    obtain ⟨cosignatoryEntry, linked, _⟩ := map_eq_some_iff.mp modified
    exact ⟨_, _, rfl, linked⟩

end Lookups

section Lists
variable {multisig : Address} {addresses : List Address}

private theorem addAll_cons (multisig cosignatory : Address) (rest : List Address)
    (shouldAdd : Bool) (cache : MultisigCache) :
    addAll multisig (cosignatory :: rest) shouldAdd cache =
      (if shouldAdd then addCosignatory multisig cosignatory cache
        else removeCosignatory multisig cosignatory cache).bind
          (addAll multisig rest shouldAdd) := rfl

variable {cache : MultisigCache} {multisigEntry : MultisigEntry}

def changedBy (addresses : List Address) (cosignatories : Finset Address) : Bool → Finset Address
  | true => cosignatories ∪ addresses.toFinset
  | false => cosignatories \ addresses.toFinset

private theorem changedBy_cons (cosignatory : Address) (rest : List Address)
    (cosignatories : Finset Address) (shouldAdd : Bool) :
    changedBy rest (changedBy [cosignatory] cosignatories shouldAdd) shouldAdd =
      changedBy (cosignatory :: rest) cosignatories shouldAdd := by
  cases shouldAdd <;> ext address <;> simp only [changedBy, toFinset_cons, toFinset_nil] <;> grind

/-- A cosignatory in the list can be removed as often as it stands there. -/
def Removable (cache : MultisigCache) (multisig : Address) (addresses : List Address) : Prop :=
  ∀ cosignatory ∈ addresses, ∃ entry, cache.lookup cosignatory = some entry ∧
    (¬ (entry.withoutMultisig multisig).IsHollow ∨ addresses.count cosignatory ≤ 1)

variable {cosignatory : Address}

private theorem changeCosignatory_spec (shouldAdd : Bool)
    (found : cache.lookup multisig = some multisigEntry) (distinct : cosignatory ≠ multisig)
    (linked : shouldAdd = false → ∃ entry, cache.lookup cosignatory = some entry) :
    ∃ next, (if shouldAdd then addCosignatory multisig cosignatory cache
        else removeCosignatory multisig cosignatory cache) = some next ∧
      ∀ address, next.lookup address = if address = multisig then
          some (multisigEntry.withCosignatories
            (changedBy [cosignatory] multisigEntry.cosignatoryAddresses shouldAdd))
        else if address = cosignatory then
          ((entryAt cache cosignatory).relinked multisig shouldAdd).kept
        else cache.lookup address := by
  cases shouldAdd with
  | true =>
    rw [changedBy, toFinset_cons, toFinset_nil, insert_empty_eq, Finset.union_singleton]
    exact addCosignatory_spec found distinct
  | false =>
    obtain ⟨entry, linked⟩ := linked rfl
    rw [changedBy, toFinset_cons, toFinset_nil, insert_empty_eq, Finset.sdiff_singleton_eq_erase]
    exact removeCosignatory_spec found linked distinct

/-- An address that is changed again still has its entry. -/
private theorem not_hollow_of_repeated {shouldAdd : Bool}
    (removable : shouldAdd = false → Removable cache multisig (cosignatory :: addresses))
    (repeated : cosignatory ∈ addresses) :
    ¬ ((entryAt cache cosignatory).relinked multisig shouldAdd).IsHollow := by
  cases shouldAdd with
  | true => exact not_hollow_of_multisig (Finset.mem_insert_self _ _)
  | false =>
    obtain ⟨entry, found, again⟩ := removable rfl cosignatory mem_cons_self
    have atLeastTwo : 1 < (cosignatory :: addresses).count cosignatory := by
      rw [count_cons_self]
      exact Nat.succ_lt_succ (count_pos_iff.mpr repeated)
    rw [entryAt, found]
    exact again.resolve_right (Nat.not_le.mpr atLeastTwo)

private theorem addAll_spec (shouldAdd : Bool) (found : cache.lookup multisig = some multisigEntry)
    (others : multisig ∉ addresses)
    (removable : shouldAdd = false → Removable cache multisig addresses) :
    ∃ next, addAll multisig addresses shouldAdd cache = some next ∧
      ∀ address, next.lookup address = if address = multisig then
          some (multisigEntry.withCosignatories
            (changedBy addresses multisigEntry.cosignatoryAddresses shouldAdd))
        else if address ∈ addresses then ((entryAt cache address).relinked multisig shouldAdd).kept
        else cache.lookup address := by
  induction addresses generalizing cache multisigEntry with
  | nil =>
    refine ⟨cache, rfl, fun address => ?_⟩
    by_cases isMultisig : address = multisig
    · rw [if_pos isMultisig, isMultisig, found]
      cases shouldAdd <;> simp [withCosignatories, changedBy]
    · simp [isMultisig]
  | cons cosignatory rest ih =>
    obtain ⟨notFirst, notRest⟩ := ne_and_not_mem_of_not_mem_cons others
    obtain ⟨first, firstDone, firstLookup⟩ := changeCosignatory_spec shouldAdd found notFirst.symm
      fun removes => (removable removes cosignatory mem_cons_self).imp fun _ => And.left
    have again (repeated : cosignatory ∈ rest) : first.lookup cosignatory =
        some ((entryAt cache cosignatory).relinked multisig shouldAdd) := by
      rw [firstLookup, if_neg notFirst.symm, if_pos rfl,
        kept_of_not_hollow (not_hollow_of_repeated removable repeated)]
    have removableRest (removes : shouldAdd = false) : Removable first multisig rest := by
      intro other mem
      by_cases isFirst : other = cosignatory
      · subst isFirst removes
        have solid := not_hollow_of_repeated removable mem
        rw [← relinked_relinked] at solid
        exact ⟨_, again mem, .inl solid⟩
      · obtain ⟨entry, foundOther, often⟩ := removable removes other (mem_cons_of_mem _ mem)
        rw [count_cons_of_ne (Ne.symm isFirst)] at often
        refine ⟨entry, ?_, often⟩
        rw [firstLookup, if_neg (ne_of_mem_of_not_mem mem notRest), if_neg isFirst, foundOther]
    obtain ⟨next, restDone, restLookup⟩ :=
      ih ((firstLookup multisig).trans (if_pos rfl)) notRest removableRest
    refine ⟨next, ?_, fun address => ?_⟩
    · rw [addAll_cons, firstDone]
      exact restDone
    · rw [restLookup]
      by_cases isMultisig : address = multisig
      · rw [if_pos isMultisig, if_pos isMultisig, ← changedBy_cons cosignatory rest]
        rfl
      · rw [if_neg isMultisig, if_neg isMultisig]
        by_cases isFirst : address = cosignatory
        · subst isFirst
          rw [if_pos mem_cons_self]
          by_cases repeated : address ∈ rest
          · rw [if_pos repeated, entryAt, again repeated, getD_some, relinked_relinked]
          · rw [if_neg repeated, firstLookup, if_neg isMultisig, if_pos rfl]
        · have kept : first.lookup address = cache.lookup address := by
            rw [firstLookup, if_neg isMultisig, if_neg isFirst]
          simp [isFirst, entryAt, kept]

private theorem removable_of_addAll {next : MultisigCache} (others : multisig ∉ addresses)
    (done : addAll multisig addresses false cache = some next) :
    Removable cache multisig addresses := by
  induction addresses generalizing cache with
  | nil => exact fun _ mem => absurd mem not_mem_nil
  | cons first rest ih =>
    obtain ⟨notFirst, notRest⟩ := ne_and_not_mem_of_not_mem_cons others
    rw [addAll_cons, if_neg Bool.false_ne_true] at done
    obtain ⟨middle, removed, later⟩ := bind_eq_some_iff.mp done
    obtain ⟨multisigEntry, entry, found, linked⟩ := removeCosignatory_found removed notFirst.symm
    obtain ⟨same, sameDone, lookups⟩ := removeCosignatory_spec found linked notFirst.symm
    cases removed.symm.trans sameDone
    have removable := ih notRest later
    intro cosignatory mem
    by_cases isFirst : cosignatory = first
    · subst isFirst
      refine ⟨entry, linked, ?_⟩
      by_cases repeated : cosignatory ∈ rest
      · -- the entry that the second removal finds is what the first one kept
        obtain ⟨left, foundLeft, _⟩ := removable cosignatory repeated
        rw [lookups, if_neg notFirst.symm, if_pos rfl, entryAt, linked] at foundLeft
        exact .inl (kept_eq_some.mp foundLeft).1
      · rw [count_cons_self, count_eq_zero.mpr repeated]
        exact .inr le_rfl
    · have inRest : cosignatory ∈ rest := (mem_cons.mp mem).resolve_left isFirst
      obtain ⟨left, foundLeft, again⟩ := removable cosignatory inRest
      rw [lookups, if_neg (ne_of_mem_of_not_mem inRest notRest), if_neg isFirst] at foundLeft
      rw [count_cons_of_ne (Ne.symm isFirst)]
      exact ⟨left, foundLeft, again⟩

end Lists

section Observers
variable {cache : MultisigCache} {notice : MultisigCosignatoriesNotification}

section Cosignatories
variable (othersAdded : notice.multisig ∉ notice.addressAdditions)
include othersAdded

theorem multisigCosignatoriesObserver_rollback_repeated {address : Address} {entry : MultisigEntry}
    (linked : cache.lookup address = some entry)
    (hollow : (entry.withoutMultisig notice.multisig).IsHollow)
    (repeated : 1 < notice.addressAdditions.count address) :
    multisigCosignatoriesObserver notice .rollback cache = none := by
  have mem : address ∈ notice.addressAdditions := count_pos_iff.mp (by omega)
  have entered : (getMultisigEntry cache notice.multisig).lookup address = some entry := by
    rw [lookup_getMultisigEntry, if_neg (ne_of_mem_of_not_mem mem othersAdded), linked]
  have throws : addAll notice.multisig notice.addressAdditions false
      (getMultisigEntry cache notice.multisig) = none := by
    refine eq_none_iff_forall_ne_some.mpr fun next done => ?_
    obtain ⟨found, same, again⟩ := removable_of_addAll othersAdded done address mem
    cases entered.symm.trans same
    exact again.elim (absurd hollow) (Nat.not_le.mpr repeated)
  change (addAll _ _ false _).bind _ = _
  rw [throws]
  rfl

variable (othersDeleted : notice.multisig ∉ notice.addressDeletions)
  (apart : ∀ address ∈ notice.addressDeletions, address ∉ notice.addressAdditions)
include othersDeleted apart

theorem multisigCosignatoriesObserver_spec (mode : NotifyMode)
    (additions : (mode == .commit) = false → Removable cache notice.multisig notice.addressAdditions)
    (deletions : (!(mode == .commit)) = false →
      Removable cache notice.multisig notice.addressDeletions) :
    ∃ next, multisigCosignatoriesObserver notice mode cache = some next ∧
      ∀ address, next.lookup address = if address = notice.multisig then
          ((entryAt cache address).withCosignatories (changedBy notice.addressDeletions (changedBy
            notice.addressAdditions (entryAt cache address).cosignatoryAddresses (mode == .commit))
              (!(mode == .commit)))).kept
        else if address ∈ notice.addressDeletions then
          ((entryAt cache address).relinked notice.multisig (!(mode == .commit))).kept
        else if address ∈ notice.addressAdditions then
          ((entryAt cache address).relinked notice.multisig (mode == .commit)).kept
        else cache.lookup address := by
  have entered := lookup_getMultisigEntry cache notice.multisig
  have others {addresses : List Address} {address : Address} (mem : address ∈ addresses)
      (notMultisig : notice.multisig ∉ addresses) :
      (getMultisigEntry cache notice.multisig).lookup address = cache.lookup address := by
    rw [entered, if_neg (ne_of_mem_of_not_mem mem notMultisig)]
  obtain ⟨added, addedDone, addedLookup⟩ := addAll_spec (mode == .commit)
    ((entered notice.multisig).trans (if_pos rfl)) othersAdded fun removes address mem => by
      rw [others mem othersAdded]
      exact additions removes address mem
  obtain ⟨deleted, deletedDone, deletedLookup⟩ := addAll_spec (!(mode == .commit))
    ((addedLookup notice.multisig).trans (if_pos rfl)) othersDeleted fun removes address mem => by
      rw [addedLookup, if_neg (ne_of_mem_of_not_mem mem othersDeleted),
        if_neg (apart address mem), others mem othersDeleted]
      exact deletions removes address mem
  refine ⟨removeIfEmpty deleted notice.multisig, ?_, fun address => ?_⟩
  · simp only [multisigCosignatoriesObserver, addedDone, deletedDone, bind_eq_bind, bind_some,
      Option.pure_def]
  · rw [lookup_removeIfEmpty_of_found ((deletedLookup _).trans (if_pos rfl)), deletedLookup,
      addedLookup, entered]
    by_cases isMultisig : address = notice.multisig
    · rw [if_pos isMultisig, if_pos isMultisig, isMultisig]
      rfl
    · have untouched : entryAt (getMultisigEntry cache notice.multisig) address =
          entryAt cache address := by
        rw [entryAt, entered, if_neg isMultisig, entryAt]
      simp only [if_neg isMultisig, untouched]
      by_cases isDeleted : address ∈ notice.addressDeletions
      · rw [if_pos isDeleted, if_pos isDeleted, entryAt, addedLookup, if_neg isMultisig,
          if_neg (apart address isDeleted), ← entryAt, untouched]
      · rw [if_neg isDeleted, if_neg isDeleted]

end Cosignatories

def MultisigEntry.shifted (entry : MultisigEntry) (direction : Int)
    (notice : MultisigSettingsNotification) : MultisigEntry :=
  { entry with
    minApproval := addDelta entry.minApproval direction notice.minApprovalDelta
    minRemoval := addDelta entry.minRemoval direction notice.minRemovalDelta }

theorem multisigSettingsObserver_commit (cache : MultisigCache)
    (settings : MultisigSettingsNotification) :
    ∃ next, multisigSettingsObserver settings .commit cache = some next ∧
      ∀ address, next.lookup address = if address = settings.multisig then
          (cache.lookup settings.multisig).map (·.shifted 1 settings)
        else cache.lookup address := by
  cases found : cache.lookup settings.multisig with
  | none =>
    refine ⟨cache, by simp [multisigSettingsObserver, found], fun address => ?_⟩
    by_cases here : address = settings.multisig
    · rw [if_pos here, here, found, map_none]
    · rw [if_neg here]
  | some entry =>
    obtain ⟨next, done, lookups⟩ :=
      modifyEntry_getMultisigEntry cache settings.multisig (·.shifted 1 settings)
    refine ⟨next, ?_, fun address => ?_⟩
    · simp only [multisigSettingsObserver, found, isNone_some, Bool.false_eq_true,
        false_and, ↓reduceIte]
      exact done
    · rw [lookups, entryAt, found, getD_some, map_some]

theorem multisigSettingsObserver_rollback (cache : MultisigCache)
    (settings : MultisigSettingsNotification) :
    ∃ next, multisigSettingsObserver settings .rollback cache = some next ∧
      ∀ address, next.lookup address = if address = settings.multisig then
          some ((entryAt cache settings.multisig).shifted (-1) settings)
        else cache.lookup address := by
  obtain ⟨next, done, lookups⟩ :=
    modifyEntry_getMultisigEntry cache settings.multisig (·.shifted (-1) settings)
  refine ⟨next, ?_, lookups⟩
  simp only [multisigSettingsObserver, reduceCtorEq, and_false, ↓reduceIte]
  exact done

end Observers

section Acceptance
variable {U : Type} [DecidableEq U] {cfg : MultisigConfiguration} {resolve : U → Address}
  {cache next : MultisigCache}

/-- What the validators check of a change of cosignatories, aliases being resolved. -/
structure MembershipValid (cfg : MultisigConfiguration) (cache : MultisigCache)
    (notice : MultisigCosignatoriesNotification) : Prop where
  additions_length : notice.addressAdditions.length < 2 ^ 8
  deletions_length : notice.addressDeletions.length ≤ 1
  cosigned : ∀ address ∈ notice.addressAdditions,
    multisigMaxCosignedAccountsValidator cfg cache address = .success
  levels : ∀ address ∈ notice.addressAdditions,
    multisigLoopAndLevelValidator cfg cache notice.multisig address = some .success
  total : multisigMaxCosignatoriesValidator cfg cache notice.multisig
    notice.addressAdditions.length notice.addressDeletions.length = .success
  known : multisigInvalidCosignatoriesValidator cache notice = .success

private theorem firstFailure_eq_success {results : List MultisigValidationResult} :
    firstFailure results = .success ↔ ∀ result ∈ results, result = .success := by
  induction results with
  | nil => simp [firstFailure]
  | cons result rest ih =>
    by_cases passed : result = .success
    · simp [firstFailure, passed, ih]
    · simp [firstFailure, passed]

private theorem processNotification_eq_some {notice : ModificationNotification U} :
    processNotification cfg resolve notice cache = some next ↔
      validateNotification cfg resolve cache notice = some .success ∧
        observeNotification resolve .commit notice cache = some next := by
  unfold processNotification
  split
  · simp [*]
  · simp [*]

private theorem validateNotification_newCosignatory {multisig : Address} {cosignatory : U}
    (valid : validateNotification cfg resolve cache
      (.newCosignatory multisig cosignatory) = some .success) :
    multisigMaxCosignedAccountsValidator cfg cache (resolve cosignatory) = .success ∧
      multisigLoopAndLevelValidator cfg cache multisig (resolve cosignatory) = some .success := by
  obtain ⟨loopAndLevel, searched, passed⟩ := bind_eq_some_iff.mp valid
  have each := firstFailure_eq_success.mp (some.inj passed)
  rw [searched, each loopAndLevel (by simp)]
  exact ⟨each _ (by simp), rfl⟩

private theorem run_newCosignatories {multisig : Address} {cosignatories : List U}
    (done : run ((cosignatories.map (ModificationNotification.newCosignatory multisig)).map
      (processNotification cfg resolve)) cache = some next) :
    next = cache ∧ ∀ cosignatory ∈ cosignatories,
      multisigMaxCosignedAccountsValidator cfg cache (resolve cosignatory) = .success ∧
      multisigLoopAndLevelValidator cfg cache multisig (resolve cosignatory) = some .success := by
  induction cosignatories with
  | nil =>
    cases done
    simp
  | cons cosignatory rest ih =>
    obtain ⟨same, first, later⟩ := run_cons_eq_some.mp done
    obtain ⟨valid, unchanged⟩ := processNotification_eq_some.mp first
    cases unchanged
    obtain ⟨ends, others⟩ := ih later
    exact ⟨ends, forall_mem_cons.mpr ⟨validateNotification_newCosignatory valid, others⟩⟩

namespace SignedModification

variable (modification : SignedModification U)

def membership (resolve : U → Address) : MultisigCosignatoriesNotification :=
  ⟨modification.signerAddress, modification.addressAdditions.map resolve,
    modification.addressDeletions.map resolve⟩

def settings : MultisigSettingsNotification :=
  ⟨modification.signerAddress, modification.minRemovalDelta, modification.minApprovalDelta⟩

def IsSettingsOnly : Prop :=
  modification.addressAdditions = [] ∧ modification.addressDeletions = []

instance (modification : SignedModification U) : Decidable modification.IsSettingsOnly :=
  inferInstanceAs (Decidable (_ ∧ _))

variable {modification : SignedModification U}

omit [DecidableEq U] in
theorem publish_of_settingsOnly (settingsOnly : modification.IsSettingsOnly) :
    modification.publish = [.settings modification.settings] := by
  simp [publish, settings, settingsOnly.1, settingsOnly.2]

omit [DecidableEq U] in
theorem publish_of_membership (changes : ¬ modification.IsSettingsOnly) :
    modification.publish =
      modification.addressAdditions.map (.newCosignatory modification.signerAddress) ++
        [.cosignatories modification.signerAddress modification.addressAdditions
          modification.addressDeletions, .settings modification.settings] := by
  simp only [IsSettingsOnly] at changes
  simp [publish, settings, changes]

theorem accept_cases (accepted : modification.accept cfg resolve cache = some next) :
    ∃ changed, (modification.IsSettingsOnly ∧ changed = cache ∨ ¬ modification.IsSettingsOnly ∧
          MembershipValid cfg cache (modification.membership resolve) ∧
          multisigCosignatoriesObserver (modification.membership resolve) .commit cache =
            some changed) ∧
      multisigInvalidSettingsValidator changed modification.settings = .success ∧
      multisigSettingsObserver modification.settings .commit changed = some next := by
  unfold accept at accepted
  by_cases settingsOnly : modification.IsSettingsOnly
  · rw [publish_of_settingsOnly settingsOnly, map_singleton, run_singleton] at accepted
    obtain ⟨valid, done⟩ := processNotification_eq_some.mp accepted
    exact ⟨cache, .inl ⟨settingsOnly, rfl⟩, some.inj valid, done⟩
  · rw [publish_of_membership settingsOnly, map_append] at accepted
    obtain ⟨same, searched, rest⟩ := run_append_eq_some.mp accepted
    obtain ⟨rfl, each⟩ := run_newCosignatories searched
    obtain ⟨changed, membership, last⟩ := run_cons_eq_some.mp rest
    obtain ⟨membershipValid, membershipDone⟩ := processNotification_eq_some.mp membership
    rw [map_singleton, run_singleton] at last
    obtain ⟨settingsValid, done⟩ := processNotification_eq_some.mp last
    have checks := firstFailure_eq_success.mp (some.inj membershipValid)
    have written := checks _ mem_cons_self
    refine ⟨changed, .inr ⟨settingsOnly, ?_, membershipDone⟩, some.inj settingsValid, done⟩
    constructor
    · simpa [SignedModification.membership] using modification.additions_length
    · unfold multisigCosignatoriesValidator at written
      by_contra many
      rw [if_pos (by simpa [SignedModification.membership] using many)] at written
      cases written
    · simpa [SignedModification.membership] using fun address mem => (each address mem).1
    · simpa [SignedModification.membership] using fun address mem => (each address mem).2
    · simpa [SignedModification.membership] using checks _ (by simp)
    · exact checks _ (by simp [SignedModification.membership])

end SignedModification

end Acceptance

end BitxorCore.Multisig
