/- GID: PartialTransaction/PtCompletion
   anchors: [extensions/partialtransaction/src/chain/PtUpdater.cpp]
   digest: Whatever the order of its asynchronous steps, an aggregate is completed at most once for
     each insertion, and exactly when the eligible cosignatures suffice. -/

import BitxorCore.PartialTransaction.PtUpdater
import Mathlib.Data.Finset.Image

set_option autoImplicit false
set_option relaxedAutoImplicit false

namespace BitxorCore.PartialTransactions
open Library KeyedList MemoryPtCache List

def signersOf (cosignatures : List Cosignature) : Finset Key :=
  (cosignatures.map Cosignature.signerPublicKey).toFinset

private theorem mem_signersOf {cosignatures : List Cosignature} {signer : Key} :
    signer ∈ signersOf cosignatures ↔ ∃ held ∈ cosignatures, held.signerPublicKey = signer := by
  rw [signersOf, mem_toFinset, mem_map]

/-- A validator that looks at the set of signers. A set is ineligible exactly if a member alone is,
more signers suffice if fewer do, and failures do not depend on signers. -/
structure JointValidator where
  validate : Finset Key → CosignatoriesValidationResult
  ineligible_iff : ∀ signers, validate signers = .ineligible ↔
    ∃ signer ∈ signers, validate {signer} = .ineligible
  success_mono : ∀ fewer more, fewer ⊆ more → validate fewer = .success →
    validate more ≠ .ineligible → validate more = .success
  failure_const : ∀ signers others, validate signers = .failure → validate others = .failure

namespace JointValidator

variable (validator : JointValidator)

def toValidator : CosignatoriesValidator := fun _ cosignatures =>
  validator.validate (signersOf cosignatures)

def Eligible (cosig : Cosignature) : Prop :=
  validator.validate {cosig.signerPublicKey} ≠ .ineligible

instance : DecidablePred validator.Eligible := fun _ => instDecidableNot

variable {validator} {cosig : Cosignature} {cosignatures : List Cosignature}

private theorem validate_ne_ineligible_iff :
    validator.validate (signersOf cosignatures) ≠ .ineligible ↔
    ∀ held ∈ cosignatures, validator.Eligible held := by
  rw [Ne, validator.ineligible_iff]
  constructor
  · intro none held mem ineligible
    exact none ⟨_, mem_signersOf.mpr ⟨held, mem, rfl⟩, ineligible⟩
  · rintro all ⟨signer, inside, ineligible⟩
    obtain ⟨held, mem, rfl⟩ := mem_signersOf.mp inside
    exact all held mem ineligible

def Broken (validator : JointValidator) : Prop := ∀ signers, validator.validate signers = .failure

/-- All that may follow the check of a new cosignature while those in the cache are eligible: they
are never found stale. -/
private theorem afterEligibility_cases {cache : MemoryPtCache} {hash : Hash256}
    (eligible : ∀ data, cache.find hash = some data →
      ∀ held ∈ data.cosignatures, validator.Eligible held) (cosig : Cosignature) :
    PtUpdater.afterEligibility cosig
        (checkEligibility validator.toValidator cache hash cosig) = [] ∧
        (∀ data, cache.find hash = some data → validator.Eligible cosig →
          cosig.signerPublicKey ∈ signersOf data.cosignatures) ∨
      PtUpdater.afterEligibility cosig
        (checkEligibility validator.toValidator cache hash cosig) =
          [.verifying cosig] ∧ validator.Eligible cosig ∧
          (cache.find hash).isSome ∨
      PtUpdater.afterEligibility cosig
        (checkEligibility validator.toValidator cache hash cosig) = [.purging] ∧
          validator.Broken := by
  rw [checkEligibility]
  cases found : cache.find hash with
  | none => exact .inl ⟨rfl, fun _ held => (Option.some_ne_none _ held.symm).elim⟩
  | some data =>
    dsimp only
    by_cases known : data.hasCosignatory cosig.signerPublicKey
    · rw [if_pos known]
      refine .inl ⟨rfl, fun other same _ => ?_⟩
      cases same
      exact mem_signersOf.mpr (PtData.hasCosignatory_iff.mp known)
    rw [if_neg known]
    have all : validator.toValidator data.transactionInfo (data.cosignatures ++
        [⟨0, cosig.signerPublicKey, cosig.signature⟩]) ≠ .ineligible ↔
          validator.Eligible cosig := by
      refine validate_ne_ineligible_iff.trans ⟨fun every => ?_, fun alone held mem => ?_⟩
      · exact every ⟨0, cosig.signerPublicKey, cosig.signature⟩
          (mem_append_right _ (mem_singleton_self _))
      · rcases mem_append.mp mem with old | last
        · exact eligible data found held old
        · rw [mem_singleton.mp last]
          exact alone
    by_cases alone : validator.Eligible cosig
    · have accepted := all.mpr alone
      rw [if_pos accepted]
      cases result : validator.toValidator data.transactionInfo (data.cosignatures ++
          [⟨0, cosig.signerPublicKey, cosig.signature⟩]) with
      | failure =>
        exact .inr (.inr ⟨rfl, fun signers => validator.failure_const _ signers result⟩)
      | ineligible => exact absurd result accepted
      | missing => exact .inr (.inl ⟨rfl, alone, rfl⟩)
      | success => exact .inr (.inl ⟨rfl, alone, rfl⟩)
    · have single : validator.toValidator data.transactionInfo [cosig] = .ineligible :=
        not_not.mp alone
      rw [if_neg (all.not.mpr alone), if_pos single]
      exact .inl ⟨rfl, fun _ _ eligibleAlone => absurd eligibleAlone alone⟩

end JointValidator

/-- An update that will look whether the aggregate is complete. -/
def PtTask.Watches : PtTask → Prop
  | .checking | .completing _ => True
  | _ => False

def PtTask.Carries (cosig : Cosignature) : PtTask → Prop
  | .verifying other | .adding other => other = cosig
  | _ => False

namespace PtUpdater

variable (updater : PtUpdater) (validator : JointValidator)

def Counts (cosig : Cosignature) : Prop := validator.Eligible cosig ∧ updater.verify cosig

instance : DecidablePred (updater.Counts validator) := fun _ => instDecidableAnd

/-- Cosignatures of different signers that count and are sufficient. -/
structure Completable (cosignatures : List Cosignature) : Prop where
  count : ∀ cosig ∈ cosignatures, updater.Counts validator cosig
  signers : (cosignatures.map Cosignature.signerPublicKey).Nodup
  sufficient : validator.validate (signersOf cosignatures) = .success

/-- While the aggregate has been inserted once, a cosignature at hand was received since. -/
def Known (sys : PtSystem) (cosig : Cosignature) : Prop := sys.insertions ≤ 1 → cosig ∈ sys.received

def TaskSound (sys : PtSystem) : PtTask → Prop
  | .verifying cosig =>
    validator.Eligible cosig ∧ 0 < sys.insertions ∧ Known sys cosig
  | .adding cosig =>
    updater.Counts validator cosig ∧ 0 < sys.insertions ∧ Known sys cosig
  | .completing cosignatures =>
    updater.Completable validator cosignatures ∧ 0 < sys.insertions ∧
      ∀ cosig ∈ cosignatures, Known sys cosig
  | .refreshing _ _ => False
  | .purging => validator.Broken
  | _ => True

def entry (sys : PtSystem) : Option PtData := sys.cache.find updater.aggregate.entityHash

structure Invariant (sys : PtSystem) : Prop where
  kept : sys.cache.Kept updater.sha3
  held : ∀ data, updater.entry sys = some data → ∀ cosig ∈ data.cosignatures,
    updater.Counts validator cosig ∧ Known sys cosig
  tasks : ∀ task ∈ sys.tasks, updater.TaskSound validator sys task
  completed : ∀ cosignatures ∈ sys.completed, updater.Completable validator cosignatures ∧
    ∀ cosig ∈ cosignatures, Known sys cosig
  atMost : sys.completed.length + (updater.entry sys).toList.length ≤ sys.insertions
  atLeast : validator.Broken ∨
    sys.insertions ≤ sys.completed.length + (updater.entry sys).toList.length
  /-- An aggregate that is complete is looked at. -/
  watched : ∀ data, updater.entry sys = some data →
    validator.validate (signersOf data.cosignatures) = .success →
    (sys.insertedAlone ∨ data.cosignatures ≠ []) → ∃ task ∈ sys.tasks, task.Watches
  /-- A cosignature that was received and counts is in the cache or on its way to it. -/
  processed : ∀ data, updater.entry sys = some data → ∀ cosig ∈ sys.received,
    updater.Counts validator cosig → cosig.signerPublicKey ∈ signersOf data.cosignatures ∨
        (∃ task ∈ sys.tasks, task.Carries cosig) ∨ validator.Broken

variable {updater validator} {sys : PtSystem} {task : PtTask} {others : List PtTask}

private theorem invariant_of_initial (initial : updater.Initial sys) :
    updater.Invariant validator sys := by
  have absent : updater.entry sys = none := initial.absent
  refine ⟨initial.kept, ?_, ?_, ?_, ?_, ?_, ?_, ?_⟩
  · simp [absent]
  · simp [initial.idle]
  · simp [initial.none]
  · simp [absent, initial.none]
  · exact .inr (by simp [initial.never])
  · simp [absent]
  · simp [absent]

private theorem Invariant.widen (invariant : updater.Invariant validator sys)
    (subset : sys.tasks ⊆ others) (sound : ∀ task ∈ others, updater.TaskSound validator sys task) :
    updater.Invariant validator { sys with tasks := others } := { invariant with
  tasks := sound
  watched data found complete reason := by
    obtain ⟨task, mem, watches⟩ := invariant.watched data found complete reason
    exact ⟨task, subset mem, watches⟩
  processed data found cosig received counts :=
    (invariant.processed data found cosig received counts).imp_right
      (.imp_left fun ⟨task, mem, carries⟩ => ⟨task, subset mem, carries⟩) }

section
variable (invariant : updater.Invariant validator { sys with tasks := task :: others })
include invariant

private theorem Invariant.replace (extra : List PtTask)
    (sound : ∀ next ∈ extra, updater.TaskSound validator sys next)
    (watches : ∀ data, updater.entry sys = some data →
      validator.validate (signersOf data.cosignatures) = .success → task.Watches →
      ∃ next ∈ extra, next.Watches)
    (carries : ∀ data, updater.entry sys = some data → ∀ cosig, task.Carries cosig →
      updater.Counts validator cosig →
      cosig.signerPublicKey ∈ signersOf data.cosignatures ∨ ∃ next ∈ extra, next.Carries cosig) :
    updater.Invariant validator { sys with tasks := extra ++ others } := { invariant with
  tasks next mem := (mem_append.mp mem).elim (sound next)
    fun old => invariant.tasks next (mem_cons_of_mem _ old)
  watched data found complete reason := by
    obtain ⟨watching, mem, watchesNow⟩ := invariant.watched data found complete reason
    rcases mem_cons.mp mem with rfl | old
    · obtain ⟨next, inside, watchesNext⟩ := watches data found complete watchesNow
      exact ⟨next, mem_append_left _ inside, watchesNext⟩
    · exact ⟨watching, mem_append_right _ old, watchesNow⟩
  processed data found cosig received counts := by
    rcases invariant.processed data found cosig received counts with inside |
      ⟨carrying, mem, carriesNow⟩ | broken
    · exact .inl inside
    · rcases mem_cons.mp mem with rfl | old
      · rcases carries data found cosig carriesNow counts with inside |
          ⟨next, inside, carriesNext⟩
        · exact .inl inside
        · exact .inr (.inl ⟨next, mem_append_left _ inside, carriesNext⟩)
      · exact .inr (.inl ⟨carrying, mem_append_right _ old, carriesNow⟩)
    · exact .inr (.inr broken) }

private theorem Invariant.dropped
    (quiet : ∀ data, updater.entry sys = some data → ¬task.Watches ∧ ∀ cosig, ¬task.Carries cosig) :
    updater.Invariant validator { sys with tasks := others } :=
  invariant.replace [] (by simp) (fun data found _ watches => absurd watches (quiet data found).1)
    fun data found cosig carries _ => absurd carries ((quiet data found).2 cosig)

end

variable (updater validator sys others) in
def Keeps (task : PtTask) : Prop :=
  updater.Invariant validator { sys with tasks := task :: others } →
    updater.Invariant validator (updater.runTask { sys with tasks := others } task)

private theorem Invariant.count (invariant : updater.Invariant validator sys)
    {found : Option PtData} (here : updater.entry sys = found) :
    sys.completed.length + found.toList.length ≤ sys.insertions ∧
      (validator.Broken ∨ sys.insertions ≤ sys.completed.length + found.toList.length) :=
  here ▸ ⟨invariant.atMost, invariant.atLeast⟩

variable {data : PtData}

private theorem Invariant.insertions_pos (invariant : updater.Invariant validator sys)
    (found : updater.entry sys = some data) : 0 < sys.insertions :=
  Nat.lt_of_lt_of_le (Nat.succ_pos _)
    (Nat.le_trans (Nat.le_add_left _ _) (invariant.count found).1)

variable {cosignatures : List Cosignature}

private theorem keeps_arrived : updater.Keeps validator sys others (.arrived cosignatures) := by
  intro invariant
  refine invariant.replace _ (fun next mem => ?_) (fun _ _ _ watches => watches.elim)
    fun _ _ _ carries => carries.elim
  split at mem
  · obtain ⟨cosig, _, rfl⟩ := mem_map.mp mem
    trivial
  · rw [mem_singleton.mp mem]
    trivial

private theorem keeps_inserting : updater.Keeps validator sys others (.inserting cosignatures) := by
  intro invariant
  have dropped := invariant.dropped fun _ _ => ⟨id, fun _ => id⟩
  rw [runTask]
  split
  · by_cases refused : updater.maxCacheSize - sys.cache.cacheSize <
        updater.aggregate.size.setWidth 64 ∨ (sys.cache.find updater.aggregate.entityHash).isSome
    · rw [add_eq, if_pos refused]
      exact dropped
    · rw [add_eq, if_neg refused]
      have absent : updater.entry sys = none :=
        Option.not_isSome_iff_eq_none.mp (not_or.mp refused).2
      obtain ⟨atMost, atLeast⟩ := invariant.count absent
      have present : (sys.cache.added updater.aggregate).find updater.aggregate.entityHash =
          some (PtData.create updater.aggregate) := by
        rw [find_added, if_pos rfl]
      -- before the first insertion nothing is at hand
      have early : ∀ {cosig : Cosignature}, 0 < sys.insertions →
          sys.insertions + 1 ≤ 1 → cosig ∈ ([] : List Cosignature) :=
        fun later first => absurd first (by omega)
      refine ⟨invariant.kept.added absent, ?_, ?_, ?_, ?_, ?_, ?_, ?_⟩
      · intro data found cosig mem
        cases present.symm.trans found
        cases mem
      · intro task mem
        rcases mem_append.mp mem with new | old
        · split at new
          · rw [mem_singleton.mp new]
            trivial
          · obtain ⟨cosig, _, rfl⟩ := mem_map.mp new
            trivial
        · have sound := invariant.tasks task (mem_cons_of_mem _ old)
          cases task with
          | verifying cosig => exact ⟨sound.1, Nat.succ_pos _, early sound.2.1⟩
          | adding cosig => exact ⟨sound.1, Nat.succ_pos _, early sound.2.1⟩
          | completing cosignatures =>
            exact ⟨sound.1, Nat.succ_pos _, fun cosig _ => early sound.2.1⟩
          | _ => exact sound
      · intro done mem
        refine ⟨(invariant.completed done mem).1, fun cosig _ => early ?_⟩
        exact Nat.lt_of_lt_of_le (length_pos_of_mem mem)
          (Nat.le_trans (Nat.le_add_right _ _) atMost)
      · grind
      · refine atLeast.imp_right fun exactly => ?_
        change _ ≤ sys.completed.length + (find _ _).toList.length
        rw [present]
        exact Nat.succ_le_succ exactly
      · intro data found _ reason
        cases present.symm.trans found
        rcases reason with alone | some
        · refine ⟨.checking, mem_append_left _ ?_, trivial⟩
          rw [if_pos alone]
          exact mem_singleton_self _
        · exact absurd rfl some
      · intro data _ cosig mem
        cases mem
  · exact dropped

private theorem TaskSound.receive (sound : updater.TaskSound validator sys task)
    (cosig : Cosignature) :
    updater.TaskSound validator { sys with received := cosig :: sys.received } task := by
  cases task with
  | verifying other => exact ⟨sound.1, sound.2.1, fun first => .tail _ (sound.2.2 first)⟩
  | adding other => exact ⟨sound.1, sound.2.1, fun first => .tail _ (sound.2.2 first)⟩
  | completing others =>
    exact ⟨sound.1, sound.2.1, fun other mem first => .tail _ (sound.2.2 other mem first)⟩
  | _ => exact sound

variable {cosig : Cosignature}

private theorem keeps_started (joint : updater.validateCosignatories = validator.toValidator) :
    updater.Keeps validator sys others (.started cosig) := by
  intro invariant
  have dropped := invariant.dropped fun _ _ => ⟨id, fun _ => id⟩
  have cases := JointValidator.afterEligibility_cases
    (fun data found held mem => (invariant.held data found held mem).1.1) cosig
  rw [runTask, joint]
  generalize afterEligibility cosig _ = extra at cases
  refine ⟨dropped.kept, ?_, ?_, ?_, dropped.atMost, dropped.atLeast, ?_, ?_⟩
  · intro data found held mem
    obtain ⟨counts, known⟩ := dropped.held data found held mem
    exact ⟨counts, fun first => .tail _ (known first)⟩
  · intro task mem
    rcases mem_append.mp mem with new | old
    · rcases cases with ⟨rfl, _⟩ | ⟨rfl, eligible, present⟩ | ⟨rfl, broken⟩
      · cases new
      · rw [mem_singleton.mp new]
        obtain ⟨data, found⟩ := Option.isSome_iff_exists.mp present
        exact ⟨eligible, dropped.insertions_pos found, fun _ => mem_cons_self⟩
      · rw [mem_singleton.mp new]
        exact broken
    · exact (dropped.tasks task old).receive cosig
  · intro done mem
    obtain ⟨completable, known⟩ := dropped.completed done mem
    exact ⟨completable, fun held inside first => .tail _ (known held inside first)⟩
  · intro data found complete reason
    obtain ⟨task, mem, watches⟩ := dropped.watched data found complete reason
    exact ⟨task, mem_append_right _ mem, watches⟩
  · intro data found other received counts
    rcases mem_cons.mp received with rfl | earlier
    · rcases cases with ⟨rfl, redundant⟩ | ⟨rfl, _, _⟩ | ⟨rfl, broken⟩
      · exact .inl (redundant data found counts.1)
      · exact .inr (.inl ⟨_, mem_cons_self, rfl⟩)
      · exact .inr (.inr broken)
    · rcases dropped.processed data found other earlier counts with inside |
        ⟨task, mem, carries⟩ | broken
      · exact .inl inside
      · exact .inr (.inl ⟨task, mem_append_right _ mem, carries⟩)
      · exact .inr (.inr broken)

private theorem Invariant.erased {completed : List (List Cosignature)}
    (invariant : updater.Invariant validator { sys with tasks := task :: others })
    (found : updater.entry sys = some data)
    (sound : ∀ done ∈ completed, updater.Completable validator done ∧
      ∀ cosig ∈ done, Known sys cosig)
    (atMost : completed.length ≤ sys.completed.length + 1)
    (atLeast : validator.Broken ∨ sys.completed.length + 1 ≤ completed.length) :
    updater.Invariant validator
      { sys with cache := sys.cache.erase data, tasks := others, completed } := by
  have absent : (sys.cache.erase data).find updater.aggregate.entityHash = none := by
    rw [find_erase, if_pos (key_of_find found).symm]
  obtain ⟨most, least⟩ := invariant.count found
  refine ⟨invariant.kept.erase (mem_of_find found), ?held, ?_, sound, ?_, ?_, ?watched, ?processed⟩
  case held | watched | processed =>
    intro other held
    exact (Option.some_ne_none _ (held.symm.trans absent)).elim
  · exact fun next mem => invariant.tasks next (mem_cons_of_mem _ mem)
  · change completed.length + (find _ _).toList.length ≤ sys.insertions
    rw [absent]
    exact Nat.le_trans atMost most
  · change validator.Broken ∨ sys.insertions ≤ completed.length + (find _ _).toList.length
    rw [absent]
    rcases least, atLeast with ⟨broken | enough, broken | more⟩
    · exact .inl broken
    · exact .inl broken
    · exact .inl broken
    · exact .inr (Nat.le_trans enough more)

private theorem keeps_purging : updater.Keeps validator sys others .purging := by
  intro invariant
  have broken : validator.Broken := invariant.tasks _ mem_cons_self
  rw [runTask, remove]
  cases found : updater.entry sys with
  | none =>
    rw [show sys.cache.find updater.aggregate.entityHash = none from found]
    exact invariant.dropped fun _ _ => ⟨id, fun _ => id⟩
  | some data =>
    rw [show sys.cache.find updater.aggregate.entityHash = some data from found]
    exact invariant.erased found invariant.completed (Nat.le_succ _) (.inl broken)

private theorem keeps_verifying : updater.Keeps validator sys others (.verifying cosig) := by
  intro invariant
  obtain ⟨eligible, later, known⟩ := invariant.tasks _ mem_cons_self
  refine invariant.replace _ (fun next mem => ?_) (fun _ _ _ watches => watches.elim) ?_
  · split at mem
    · next verified =>
      rw [mem_singleton.mp mem]
      exact ⟨⟨eligible, verified⟩, later, known⟩
    · cases mem
  · rintro data found other rfl counts
    refine .inr ⟨.adding cosig, ?_, rfl⟩
    rw [if_pos counts.2]
    exact mem_singleton_self _

private theorem keeps_adding : updater.Keeps validator sys others (.adding cosig) := by
  intro invariant
  obtain ⟨counts, later, known⟩ := invariant.tasks _ mem_cons_self
  rw [runTask]
  rcases addCosignature_cases updater.sha3 sys.cache updater.aggregate.entityHash cosig with
    ⟨refused, present⟩ | ⟨data, cosigned, found, done, accepted⟩
  · rw [refused]
    refine invariant.replace [] (by simp) (fun _ _ _ watches => watches.elim) ?_
    rintro data found other rfl _
    exact .inl (mem_signersOf.mpr (PtData.hasCosignatory_iff.mp (present data found)))
  · rw [accepted]
    have now : (sys.cache.cosign updater.aggregate.entityHash cosigned).find
        updater.aggregate.entityHash = some cosigned := by
      rw [find_cosign found done, if_pos rfl]
    have mems : ∀ held, held ∈ cosigned.cosignatures ↔ held = cosig ∨ held ∈ data.cosignatures := by
      obtain ⟨_, rfl⟩ := PtData.add_eq_some_iff.mp done
      exact fun held => (insertCosignature_perm _ _).mem_iff.trans mem_cons
    obtain ⟨most, least⟩ := invariant.count found
    refine ⟨invariant.kept.cosign found done, ?_, ?_, invariant.completed, ?_, ?_, ?_, ?_⟩
    · intro other held cosigning mem
      cases now.symm.trans held
      rcases (mems cosigning).mp mem with rfl | old
      · exact ⟨counts, known⟩
      · exact invariant.held data found cosigning old
    · intro task mem
      rcases mem_cons.mp mem with rfl | old
      · trivial
      · exact invariant.tasks task (mem_cons_of_mem _ old)
    · change sys.completed.length + (find _ _).toList.length ≤ sys.insertions
      rw [now]
      exact most
    · change validator.Broken ∨ sys.insertions ≤ sys.completed.length + (find _ _).toList.length
      rw [now]
      exact least
    · exact fun _ _ _ _ => ⟨.checking, mem_cons_self, trivial⟩
    · intro other held cosigning received countsToo
      cases now.symm.trans held
      rcases invariant.processed data found cosigning received countsToo with inside |
        ⟨task, mem, carries⟩ | broken
      · obtain ⟨signed, old, same⟩ := mem_signersOf.mp inside
        exact .inl (mem_signersOf.mpr ⟨signed, (mems signed).mpr (.inr old), same⟩)
      · rcases mem_cons.mp mem with rfl | old
        · obtain rfl : cosig = cosigning := carries
          exact .inl (mem_signersOf.mpr ⟨cosig, (mems _).mpr (.inl rfl), rfl⟩)
        · exact .inr (.inl ⟨task, mem_cons_of_mem _ old, carries⟩)
      · exact .inr (.inr broken)

private theorem Invariant.completable (invariant : updater.Invariant validator sys)
    (found : updater.entry sys = some data)
    (complete : validator.validate (signersOf data.cosignatures) = .success) :
    updater.Completable validator data.cosignatures where
  count held mem := (invariant.held data found held mem).1
  signers := pairwise_map.mpr ((invariant.kept.cosigned data (mem_of_find found)).ascend.imp
    fun smaller same => Nat.ne_of_lt smaller (congrArg BitVec.toNat same))
  sufficient := complete

private theorem keeps_checking (joint : updater.validateCosignatories = validator.toValidator) :
    updater.Keeps validator sys others .checking := by
  intro invariant
  rw [runTask, joint]
  cases found : sys.cache.find updater.aggregate.entityHash with
  | none =>
    exact invariant.dropped fun _ held => (Option.some_ne_none _ (held.symm.trans found)).elim
  | some data =>
    dsimp only
    split
    · next complete =>
      have completable := invariant.completable found complete
      refine invariant.replace [.completing data.cosignatures] (fun next mem => ?_)
        (fun _ _ _ _ => ⟨_, mem_cons_self, trivial⟩) fun _ _ _ carries => carries.elim
      rw [mem_singleton.mp mem]
      exact ⟨completable, invariant.insertions_pos found,
        fun held inside => (invariant.held data found held inside).2⟩
    · next missing =>
      refine invariant.replace [] (by simp) (fun other held complete => ?_)
        fun _ _ _ carries => carries.elim
      cases found.symm.trans held
      exact absurd complete missing

private theorem keeps_completing :
    updater.Keeps validator sys others (.completing cosignatures) := by
  intro invariant
  obtain ⟨completable, _, known⟩ := invariant.tasks _ mem_cons_self
  rw [runTask, remove]
  cases found : sys.cache.find updater.aggregate.entityHash with
  | none =>
    exact invariant.dropped fun _ held => (Option.some_ne_none _ (held.symm.trans found)).elim
  | some data =>
    refine invariant.erased found (fun done mem => ?_) le_rfl (.inr le_rfl)
    rcases mem_cons.mp mem with rfl | old
    · exact ⟨completable, known⟩
    · exact invariant.completed done old

private theorem keeps (joint : updater.validateCosignatories = validator.toValidator)
    (task : PtTask) : updater.Keeps validator sys others task := by
  cases task with
  | arrived cosignatures => exact keeps_arrived
  | inserting cosignatures => exact keeps_inserting
  | started cosig => exact keeps_started joint
  | refreshing stale eligible => exact fun invariant => (invariant.tasks _ mem_cons_self).elim
  | purging => exact keeps_purging
  | verifying cosig => exact keeps_verifying
  | adding cosig => exact keeps_adding
  | checking => exact keeps_checking joint
  | completing cosignatures => exact keeps_completing

private theorem Invariant.arrive (invariant : updater.Invariant validator sys)
    (sound : updater.TaskSound validator sys task) :
    updater.Invariant validator { sys with tasks := task :: sys.tasks } :=
  invariant.widen (subset_cons_self _ _) (forall_mem_cons.mpr ⟨sound, invariant.tasks⟩)

private theorem Invariant.step {next : PtSystem}
    (joint : updater.validateCosignatories = validator.toValidator)
    (invariant : updater.Invariant validator sys) (step : updater.Step sys next) :
    updater.Invariant validator next := by
  cases step with
  | arrive cosignatures => exact invariant.arrive trivial
  | cosign cosig => exact invariant.arrive trivial
  | take task others perm =>
    exact keeps joint task (invariant.widen perm.subset fun other mem =>
      invariant.tasks other (perm.mem_iff.mpr mem))
  | elsewhere cache kept same =>
    refine ⟨kept, ?_, invariant.tasks, invariant.completed, ?_, ?_, ?_, ?_⟩
    · exact fun data found => invariant.held data (same.symm.trans found)
    · exact (congrArg (fun found : Option PtData => _ + found.toList.length ≤ _) same).mpr
        invariant.atMost
    · exact (congrArg (fun found : Option PtData => _ ∨ _ ≤ _ + found.toList.length) same).mpr
        invariant.atLeast
    · exact fun data found => invariant.watched data (same.symm.trans found)
    · exact fun data found => invariant.processed data (same.symm.trans found)

private theorem invariant_of_run {first last : PtSystem}
    (joint : updater.validateCosignatories = validator.toValidator)
    (initial : updater.Initial first) (run : Relation.ReflTransGen updater.Step first last) :
    updater.Invariant validator last := by
  induction run with
  | refl => exact invariant_of_initial initial
  | tail _ step ih => exact ih.step joint step

private theorem signersOf_mono {fewer more : List Cosignature} (subset : fewer ⊆ more) :
    signersOf fewer ⊆ signersOf more := by
  intro signer mem
  obtain ⟨held, inside, same⟩ := mem_signersOf.mp mem
  exact mem_signersOf.mpr ⟨held, subset inside, same⟩

variable (updater validator) in
def counted (sys : PtSystem) : List Cosignature := sys.received.filter (updater.Counts validator)

private theorem mem_counted : cosig ∈ updater.counted validator sys ↔
    cosig ∈ sys.received ∧ updater.Counts validator cosig := by
  rw [counted, mem_filter, decide_eq_true_eq]

section
variable (invariant : updater.Invariant validator sys)
include invariant

private theorem Invariant.sufficient_of_completed
    (once : sys.insertions ≤ 1) {done : List Cosignature} (mem : done ∈ sys.completed) :
    validator.validate (signersOf (updater.counted validator sys)) = .success := by
  obtain ⟨completable, known⟩ := invariant.completed done mem
  have subset : done ⊆ updater.counted validator sys := fun cosig inside =>
    mem_counted.mpr ⟨known cosig inside once, completable.count cosig inside⟩
  exact validator.success_mono _ _ (signersOf_mono subset) completable.sufficient
    (JointValidator.validate_ne_ineligible_iff.mpr fun _ mem => (mem_counted.mp mem).2.1)

private theorem Invariant.signersOf_counted_subset (idle : sys.tasks = [])
    (unbroken : ¬validator.Broken) (found : updater.entry sys = some data) :
    signersOf (updater.counted validator sys) ⊆ signersOf data.cosignatures := by
  intro signer mem
  obtain ⟨cosig, inside, rfl⟩ := mem_signersOf.mp mem
  obtain ⟨received, counts⟩ := mem_counted.mp inside
  rcases invariant.processed data found cosig received counts with here |
    ⟨task, pending, _⟩ | broken
  · exact here
  · rw [idle] at pending
    cases pending
  · exact absurd broken unbroken

private theorem Invariant.completed_of_sufficient (idle : sys.tasks = [])
    (once : 0 < sys.insertions) (looked : sys.insertedAlone ∨ updater.counted validator sys ≠ [])
    (sufficient : validator.validate (signersOf (updater.counted validator sys)) = .success) :
    sys.completed ≠ [] := by
  intro none
  have unbroken : ¬validator.Broken := fun broken =>
    absurd ((broken _).symm.trans sufficient) (by decide)
  cases found : updater.entry sys with
  | none =>
    have present := (invariant.count found).2.resolve_left unbroken
    rw [none] at present
    exact absurd once (Nat.not_lt.mpr present)
  | some data =>
    have subset := invariant.signersOf_counted_subset idle unbroken found
    have complete : validator.validate (signersOf data.cosignatures) = .success :=
      validator.success_mono _ _ subset sufficient
        (JointValidator.validate_ne_ineligible_iff.mpr fun held mem =>
          (invariant.held data found held mem).1.1)
    have reason : sys.insertedAlone ∨ data.cosignatures ≠ [] := by
      refine looked.imp_right fun some empty => ?_
      obtain ⟨cosig, inside⟩ := exists_mem_of_ne_nil _ some
      have signer := subset (mem_signersOf.mpr ⟨cosig, inside, rfl⟩)
      rw [empty] at signer
      exact absurd signer (Finset.notMem_empty _)
    obtain ⟨task, pending, _⟩ := invariant.watched data found complete reason
    rw [idle] at pending
    cases pending

end

/-- However the steps of the updates interleave, an aggregate is completed at most once for each
insertion, with eligible and valid cosignatures of different signers. Once all updates of an
aggregate that was inserted once are done, it is completed exactly if the cosignatures received that
count suffice, provided that it came without cosignatures or some cosignature counts: otherwise
nothing makes the updater look whether it is complete. -/
theorem completed_iff_sufficient {first last : PtSystem}
    (joint : updater.validateCosignatories = validator.toValidator)
    (initial : updater.Initial first) (run : Relation.ReflTransGen updater.Step first last) :
    last.completed.length ≤ last.insertions ∧
      (∀ done ∈ last.completed, updater.Completable validator done) ∧
      (last.insertions = 1 → ∀ done ∈ last.completed, done ⊆ updater.counted validator last) ∧
      (last.tasks = [] → last.insertions = 1 →
        (last.insertedAlone ∨ updater.counted validator last ≠ []) →
        (last.completed ≠ [] ↔
          validator.validate (signersOf (updater.counted validator last)) = .success)) := by
  have invariant := invariant_of_run joint initial run
  refine ⟨Nat.le_of_add_right_le invariant.atMost,
    fun done mem => (invariant.completed done mem).1, ?_, ?_⟩
  · intro once done mem cosig inside
    obtain ⟨completable, known⟩ := invariant.completed done mem
    exact mem_counted.mpr ⟨known cosig inside once.le, completable.count cosig inside⟩
  · intro idle once looked
    constructor
    · intro some
      obtain ⟨done, mem⟩ := exists_mem_of_ne_nil _ some
      exact invariant.sufficient_of_completed once.le mem
    · exact invariant.completed_of_sufficient idle (by omega) looked

def drain (updater : PtUpdater) : ℕ → PtSystem → PtSystem
  | 0, sys => sys
  | rounds + 1, sys =>
    match sys.tasks with
    | [] => sys
    | task :: others => drain updater rounds (updater.runTask { sys with tasks := others } task)

private theorem drain_run (updater : PtUpdater) (rounds : ℕ) (sys : PtSystem) :
    Relation.ReflTransGen updater.Step sys (updater.drain rounds sys) := by
  induction rounds generalizing sys with
  | zero => exact .refl
  | succ rounds ih =>
    rw [drain]
    split
    · exact .refl
    · next task others pending =>
      exact .head (.take sys task others (by rw [pending])) (ih _)

/-- One key is not eligible, and the required ones have to sign. -/
def verdict (barred : Key) (required signers : Finset Key) : CosignatoriesValidationResult :=
  if barred ∈ signers then .ineligible else if required ⊆ signers then .success else .missing

variable (barred : Key) (required signers : Finset Key)

private theorem verdict_eq_ineligible_iff :
    verdict barred required signers = .ineligible ↔ barred ∈ signers := by
  rw [verdict]
  split_ifs <;> simp_all

private theorem verdict_eq_success_iff :
    verdict barred required signers = .success ↔ barred ∉ signers ∧ required ⊆ signers := by
  rw [verdict]
  split_ifs <;> simp_all

private theorem verdict_ne_failure : verdict barred required signers ≠ .failure := by
  rw [verdict]
  split_ifs <;> decide

def requiring (barred : Key) (required : Finset Key) : JointValidator where
  validate := verdict barred required
  ineligible_iff signers := by
    simp only [verdict_eq_ineligible_iff, Finset.mem_singleton, exists_eq_right']
  success_mono fewer more subset success eligible := (verdict_eq_success_iff _ _ _).mpr
      ⟨fun inside => eligible ((verdict_eq_ineligible_iff _ _ _).mpr inside),
        ((verdict_eq_success_iff _ _ _).mp success).2.trans subset⟩
  failure_const signers _ failure := absurd failure (verdict_ne_failure barred required signers)

def updaterOf (validator : JointValidator) : PtUpdater where
  sha3 _ := 0
  maxCacheSize := 1000
  validateCosignatories := validator.toValidator
  aggregate := ⟨1, 100, 50⟩
  isValid := true
  verify _ := true

def nothingYet : PtSystem := ⟨.create, [], 0, false, [], []⟩

private theorem initial_nothingYet (validator : JointValidator) :
    (updaterOf validator).Initial nothingYet :=
  ⟨kept_create _, rfl, rfl, rfl, rfl⟩

/-- An aggregate arrives with a cosignature of each signer, and the updates go on. -/
def afterArrival (validator : JointValidator) (signers : List Key) (rounds : ℕ) : PtSystem :=
  (updaterOf validator).drain rounds
    { nothingYet with tasks := [.arrived (signers.map fun signer => ⟨0, signer, 0⟩)] }

private theorem run_afterArrival (validator : JointValidator) (signers : List Key) (rounds : ℕ) :
    Relation.ReflTransGen (updaterOf validator).Step nothingYet
      (afterArrival validator signers rounds) :=
  .head (.arrive nothingYet (signers.map fun signer => ⟨0, signer, 0⟩)) (drain_run _ _ _)

theorem completed_iff_sufficient_one : (afterArrival (requiring 9 {5}) [9, 5] 8).tasks = [] ∧
      (afterArrival (requiring 9 {5}) [9, 5] 8).completed = [[⟨0, 5, 0⟩]] ∧
      (requiring 9 {5}).validate
        (signersOf ((updaterOf (requiring 9 {5})).counted (requiring 9 {5})
          (afterArrival (requiring 9 {5}) [9, 5] 8))) = .success := by
  have idle : (afterArrival (requiring 9 {5}) [9, 5] 8).tasks = [] := by decide +kernel
  have done : (afterArrival (requiring 9 {5}) [9, 5] 8).completed = [[⟨0, 5, 0⟩]] := by
    decide +kernel
  have joint : (updaterOf (requiring 9 {5})).validateCosignatories =
      (requiring 9 {5}).toValidator := rfl
  refine ⟨idle, done, ?_⟩
  have all := completed_iff_sufficient joint (initial_nothingYet _)
    (run_afterArrival _ [9, 5] 8)
  refine (all.2.2.2 idle (by decide +kernel) (.inr (by decide +kernel))).mp ?_
  rw [done]
  exact cons_ne_nil _ _

/-- An aggregate that requires no cosignature comes with an ineligible one. It stays in the cache
though the eligible cosignatures, none, suffice. -/
theorem not_completed_ineligible_only :
    Relation.ReflTransGen (updaterOf (requiring 9 ∅)).Step nothingYet
        (afterArrival (requiring 9 ∅) [9] 4) ∧
      (updaterOf (requiring 9 ∅)).Initial nothingYet ∧
      (afterArrival (requiring 9 ∅) [9] 4).tasks = [] ∧
      (afterArrival (requiring 9 ∅) [9] 4).insertions = 1 ∧
      (requiring 9 ∅).validate
        (signersOf ((updaterOf (requiring 9 ∅)).counted (requiring 9 ∅)
          (afterArrival (requiring 9 ∅) [9] 4))) = .success ∧
      (afterArrival (requiring 9 ∅) [9] 4).completed = [] :=
  ⟨run_afterArrival _ _ _, initial_nothingYet _, by decide +kernel, by decide +kernel,
    by decide +kernel, by decide +kernel⟩

end PtUpdater

end BitxorCore.PartialTransactions
