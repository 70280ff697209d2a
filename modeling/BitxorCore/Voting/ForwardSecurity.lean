/- GID: Voting/ForwardSecurity
   anchors: [src/bitxorcore/crypto_voting, extensions/finalization]
   digest: Voting keys are forward secure while no request reaches a tree that was left. -/

import Mathlib.Data.List.Forall2
import BitxorCore.Voting.KeyWiping

set_option autoImplicit false
set_option relaxedAutoImplicit false

namespace BitxorCore.Voting
open Crypto BmKeyIdentifier List AggregateBmPrivateKeyTree

variable {S : VotingScheme}

def KeyStorage.IsWiped (storage : KeyStorage S) : Prop :=
  ∀ entry ∈ storage.entries, entry.1 = S.zeroKey

variable (aggregate : AggregateBmPrivateKeyTree S)

/-- The storage of the tree that a request reaches: the first one, from the current one on, that does
not end before the identifier. -/
def AggregateBmPrivateKeyTree.serving (keyId : Nat) : Option (KeyStorage S) :=
  ((aggregate.current.map Prod.snd).toList ++ aggregate.rest).find? fun storage =>
    !lt storage.options.endKeyIdentifier keyId

/-- A request is not accepted by a tree that was wiped as a whole. -/
def ServedByKeys (keyId : Nat) : Prop :=
  ∀ storage, aggregate.serving keyId = some storage →
    (BmPrivateKeyTree.fromStream storage).canSign keyId = true → ¬ storage.IsWiped

def VotingOperation.ServedByKeys : VotingOperation → Prop
  | .canSign keyId => Voting.ServedByKeys aggregate keyId
  | .sign keyId _ => Voting.ServedByKeys aggregate keyId
  | .reload => True

def signedAfter (signed : List Nat) : VotingOperation → Answer S → List Nat
  | .sign keyId _, .signed _ => keyId :: signed
  | _, _ => signed

def Ascending (seeds : List (TreeSeed S)) : Prop :=
  seeds.Pairwise fun seed later => seed.options.endKeyIdentifier < later.options.startKeyIdentifier

/-- The runs on created trees in which every request is served by keys, with what they signed. -/
inductive Reachable (seeds : List (TreeSeed S)) : List Nat → AggregateBmPrivateKeyTree S → Prop
  | created : Reachable seeds [] (.load (seeds.map TreeSeed.create))
  | perform {signed : List Nat} {aggregate : AggregateBmPrivateKeyTree S}
      (op : VotingOperation) (reached : Reachable seeds signed aggregate)
      (served : op.ServedByKeys aggregate) :
      Reachable seeds (signedAfter signed op (aggregate.perform op).2)
        (aggregate.perform op).1

section Invariant

/-- What a storage holds of a tree after some identifiers were signed. -/
structure Kept (signed : List Nat) (seed : TreeSeed S) (last : Nat) (gone : Bool)
    (storage : KeyStorage S) : Prop where
  stored : storage = seed.stored last gone
  admits : seed.Admits last
  passed : ∀ identifier ∈ signed, seed.options.endKeyIdentifier < identifier → gone = true
  used : ∀ identifier ∈ signed, seed.InRange identifier → rank identifier ≤ rank last

def AtRest (signed : List Nat) (seed : TreeSeed S) (storage : KeyStorage S) : Prop :=
  ∃ last gone, Kept signed seed last gone storage

def IsLeft (signed : List Nat) (seed : TreeSeed S) (storage : KeyStorage S) : Prop :=
  ∃ last, Kept signed seed last true storage

/-- The trees before the current one were left, the storages agree with their trees. -/
inductive Sound (seeds : List (TreeSeed S)) (signed : List Nat) : AggregateBmPrivateKeyTree S → Prop
  | exhausted {left : List (KeyStorage S)} (before : List.Forall₂ (IsLeft signed) seeds left) :
      Sound seeds signed ⟨left, none, []⟩
  | current {seedsLeft seedsRest : List (TreeSeed S)} {seed : TreeSeed S}
      {left rest : List (KeyStorage S)} {tree : BmPrivateKeyTree S} {storage : KeyStorage S}
      {last : Nat} {gone : Bool} (split : seeds = seedsLeft ++ seed :: seedsRest)
      (before : List.Forall₂ (IsLeft signed) seedsLeft left)
      (kept : Kept signed seed last gone storage) (memory : Remembers seed last gone tree)
      (after : List.Forall₂ (AtRest signed) seedsRest rest) :
      Sound seeds signed ⟨left, some (tree, storage), rest⟩

variable {seeds : List (TreeSeed S)} {signed : List Nat}
  {aggregate : AggregateBmPrivateKeyTree S}

private theorem Sound.atRest (sound : Sound seeds signed aggregate) :
    List.Forall₂ (AtRest signed) seeds aggregate.storages := by
  have atRest {seeds : List (TreeSeed S)} {left : List (KeyStorage S)}
      (before : List.Forall₂ (IsLeft signed) seeds left) :
      List.Forall₂ (AtRest signed) seeds left :=
    before.imp fun _ _ ⟨last, kept⟩ => ⟨last, true, kept⟩
  cases sound with
  | exhausted before =>
    simpa [storages] using atRest before
  | current split before kept memory after =>
    rw [split]
    simpa [storages] using
      rel_append (atRest before) (.cons ⟨_, _, kept⟩ after)

variable {storages : List (KeyStorage S)}

private theorem Sound.load (atRest : List.Forall₂ (AtRest signed) seeds storages) :
    Sound seeds signed (.load storages) := by
  cases atRest with
  | nil => exact .exhausted .nil
  | cons first rest =>
    obtain ⟨last, gone, kept⟩ := first
    obtain rfl := kept.stored
    exact .current rfl .nil kept (.fromStream _ last gone) rest

variable {storage : KeyStorage S} {seed : TreeSeed S} {gone : Bool} {last : Nat}

private theorem Kept.left
    (kept : Kept signed seed last gone storage) : Kept signed seed last true (seed.stored last true) :=
  ⟨rfl, kept.admits, fun _ _ _ => rfl, kept.used⟩

variable {seedsLeft seedsRest : List (TreeSeed S)}

private theorem Ascending.lt_start {later : TreeSeed S} (ascending : Ascending seeds)
    (split : seeds = seedsLeft ++ seed :: seedsRest) (mem : later ∈ seedsRest) :
    seed.options.endKeyIdentifier < later.options.startKeyIdentifier := by
  subst split
  exact (pairwise_cons.mp (pairwise_append.mp ascending).2.1).1 later mem

private theorem advance_stays {keyId : Nat} {left rest : List (KeyStorage S)}
    {tree : BmPrivateKeyTree S} (memory : Remembers seed last gone tree)
    (open_ : ¬ lt seed.options.endKeyIdentifier keyId = true) :
    advance keyId left tree storage rest = (⟨left, some (tree, storage), rest⟩, none) := by
  rw [advance.eq_def, memory.options, if_neg open_]

private theorem advance_sound (ascending : Ascending seeds) (keyId : Nat)
    {seedsRest : List (TreeSeed S)} {rest : List (KeyStorage S)}
    (after : List.Forall₂ (AtRest signed) seedsRest rest) :
    ∀ {seedsLeft : List (TreeSeed S)} {seed : TreeSeed S} {left : List (KeyStorage S)}
      {tree : BmPrivateKeyTree S} {storage : KeyStorage S} {last : Nat} {gone : Bool},
      seeds = seedsLeft ++ seed :: seedsRest → List.Forall₂ (IsLeft signed) seedsLeft left →
      Kept signed seed last gone storage → Remembers seed last gone tree →
      ∃ next, advance keyId left tree storage rest = (next, none) ∧ Sound seeds signed next ∧
        next.current.map Prod.snd = (storage :: rest).find? fun storage =>
          !lt storage.options.endKeyIdentifier keyId := by
  induction after with
  | nil =>
    intro seedsLeft seed left tree storage last gone split before kept memory
    obtain rfl := kept.stored
    by_cases ended : lt seed.options.endKeyIdentifier keyId = true
    · obtain ⟨tree', wiped⟩ := memory.wipe_end kept.admits
      rw [advance, memory.options, if_pos ended, wiped]
      refine ⟨_, rfl, .exhausted ?_, ?_⟩
      · rw [split]
        exact rel_append before (.cons ⟨last, kept.left⟩ .nil)
      · simp_all
    · exact ⟨_, advance_stays memory ended, .current split before kept memory .nil, by simp [ended]⟩
  | @cons next nextStorage seedsRest rest first others ih =>
    intro seedsLeft seed left tree storage last gone split before kept memory
    obtain rfl := kept.stored
    by_cases ended : lt seed.options.endKeyIdentifier keyId = true
    · obtain ⟨tree', wiped⟩ := memory.wipe_end kept.admits
      obtain ⟨nextLast, nextGone, nextKept⟩ := first
      obtain rfl := nextKept.stored
      have apart : seed.options.endKeyIdentifier < next.options.startKeyIdentifier :=
        ascending.lt_start split mem_cons_self
      have disjoint : ¬ ge seed.options.endKeyIdentifier next.options.startKeyIdentifier = true := by
        rw [ge_iff, rank_of_lt seed.valid, rank_of_lt (Nat.lt_of_le_of_lt next.ordered next.valid)]
        omega
      rw [advance, memory.options, if_pos ended, wiped]
      dsimp only
      rw [BmPrivateKeyTree.fromStream_options, TreeSeed.stored_options, if_neg disjoint,
        find?_cons_of_neg (by simpa using ended)]
      exact ih (by rw [split, append_assoc]; rfl)
        (rel_append before (.cons ⟨last, kept.left⟩ .nil)) nextKept (.fromStream _ _ _)
    · exact ⟨_, advance_stays memory ended, .current split before kept memory (.cons first others),
        by simp [ended]⟩

private theorem Sound.canSign (ascending : Ascending seeds) (sound : Sound seeds signed aggregate)
    (keyId : Nat) :
    ∃ next able, aggregate.canSign keyId = (next, .able able) ∧ Sound seeds signed next ∧
      (able = true → ∃ tree storage, next.current = some (tree, storage) ∧
        tree.canSign keyId = true ∧ aggregate.serving keyId = some storage) := by
  cases sound with
  | exhausted before => exact ⟨_, false, rfl, .exhausted before, nofun⟩
  | current split before kept memory after =>
    obtain ⟨next, advanced, sound, serving⟩ :=
      advance_sound ascending keyId after split before kept memory
    unfold AggregateBmPrivateKeyTree.canSign
    dsimp only
    rw [advanced]
    refine ⟨next, _, rfl, sound, fun able => ?_⟩
    cases found : next.current with
    | none =>
      rw [found] at able
      cases able
    | some current =>
      rw [found] at able serving
      exact ⟨_, _, rfl, able, serving.symm⟩

private theorem TreeSeed.isWiped_stored (seed : TreeSeed S) (last : Nat) :
    (seed.stored last true).IsWiped := by
  intro entry mem
  obtain ⟨i, inside, rfl⟩ := mem_iff_getElem.mp mem
  simp [TreeSeed.stored, changeAt, TreeSeed.isWiped, BmPrivateKeyTree.wipeEntry]

variable {keyId : Nat} {tree : BmPrivateKeyTree S}

private theorem accepted (kept : Kept signed seed last gone storage)
    (memory : Remembers seed last gone tree) (able : tree.canSign keyId = true)
    (serving : aggregate.serving keyId = some storage) (served : ServedByKeys aggregate keyId) :
    gone = false ∧ seed.InRange keyId ∧ rank last ≤ rank keyId ∧
      ∀ earlier ∈ signed, earlier ≤ keyId := by
  obtain rfl := kept.stored
  rw [BmPrivateKeyTree.canSign, memory.lastKey, memory.check_iff] at able
  obtain ⟨later, inside⟩ := able
  have intact : gone = false := by
    refine Bool.eq_false_iff.mpr fun left => ?_
    subst left
    refine served _ serving ?_ (seed.isWiped_stored last)
    rw [BmPrivateKeyTree.canSign, (Remembers.fromStream seed last true).check_iff]
    exact ⟨later, inside⟩
  refine ⟨intact, inside, later, fun earlier mem => ?_⟩
  by_cases within : seed.InRange earlier
  · have used := kept.used earlier mem within
    rw [within.rank_eq] at used
    rw [inside.rank_eq] at later
    omega
  · have notPassed : ¬ seed.options.endKeyIdentifier < earlier := fun passed => by
      rw [kept.passed earlier mem passed] at intact
      cases intact
    have := inside.1
    unfold TreeSeed.InRange at within
    omega

private theorem Kept.signedApart
    (kept : Kept signed seed last gone storage) (outside : ¬ seed.InRange keyId)
    (passed : seed.options.endKeyIdentifier < keyId → gone = true) :
    Kept (keyId :: signed) seed last gone storage where
  stored := kept.stored
  admits := kept.admits
  passed := forall_mem_cons.mpr ⟨passed, kept.passed⟩
  used := forall_mem_cons.mpr ⟨fun inside => absurd inside outside, kept.used⟩

private theorem Sound.afterSigning {left rest : List (KeyStorage S)}
    (ascending : Ascending seeds) (split : seeds = seedsLeft ++ seed :: seedsRest)
    (before : List.Forall₂ (IsLeft signed) seedsLeft left)
    (after : List.Forall₂ (AtRest signed) seedsRest rest) (inside : seed.InRange keyId)
    (memory : Remembers seed keyId false tree) (ordered : ∀ earlier ∈ signed, earlier ≤ keyId) :
    Sound seeds (keyId :: signed)
      ⟨left, some (tree, seed.stored keyId false), rest⟩ := by
  have apart : ∀ earlier ∈ seedsLeft,
      earlier.options.endKeyIdentifier < seed.options.startKeyIdentifier := by
    intro earlier mem
    rw [Ascending, split, pairwise_append] at ascending
    exact ascending.2.2 earlier mem seed mem_cons_self
  obtain ⟨above, below⟩ := inside
  refine .current split ?_ ⟨rfl, .inr ⟨above, below⟩, ?_, ?_⟩ memory ?_
  · refine ((forall₂_and_left _ _).mpr ⟨apart, before⟩).imp ?_
    rintro other storage ⟨ends, last, kept⟩
    exact ⟨last, kept.signedApart (fun within => by have := within.2; omega) fun _ => rfl⟩
  · grind
  · intro identifier mem within
    have : identifier ≤ keyId := (mem_cons.mp mem).elim Nat.le_of_eq (ordered identifier)
    rw [within.rank_eq, TreeSeed.InRange.rank_eq ⟨above, below⟩]
    omega
  · refine ((forall₂_and_left _ _).mpr
      ⟨fun later mem => ascending.lt_start split mem, after⟩).imp ?_
    rintro other storage ⟨starts, last, gone, kept⟩
    have := other.ordered
    exact ⟨last, gone, kept.signedApart (fun within => by have := within.1; omega)
      fun passed => by omega⟩

section
variable (ascending : Ascending seeds) (sound : Sound seeds signed aggregate)
  (served : ServedByKeys aggregate keyId)
include ascending sound served

private theorem Sound.acceptance : ∃ next able, aggregate.canSign keyId = (next, .able able) ∧
      (able = true → (∀ earlier ∈ signed, earlier ≤ keyId) ∧
        ∃ seed ∈ seeds, seed.InRange keyId) := by
  obtain ⟨next, able, done, soundNext, serving⟩ := sound.canSign ascending keyId
  refine ⟨next, able, done, fun accepted => ?_⟩
  obtain ⟨tree, storage, current, accepts, serves⟩ := serving accepted
  cases soundNext with
  | exhausted before => cases current
  | current split before kept memory after =>
    cases current
    obtain ⟨_, inside, _, ordered⟩ := Voting.accepted kept memory accepts serves served
    refine ⟨ordered, _, ?_, inside⟩
    rw [split]
    exact mem_append_right _ mem_cons_self

private theorem Sound.sign (dataBuffer : List Byte) :
    (∃ next, aggregate.sign keyId dataBuffer = (next, .invalidKeyIdentifier) ∧
      Sound seeds signed next) ∨
    ∃ next signature, aggregate.sign keyId dataBuffer = (next, .signed signature) ∧
      Sound seeds (keyId :: signed) next ∧
      (∀ earlier ∈ signed, earlier ≤ keyId) ∧
      ∃ seed ∈ seeds, seed.InRange keyId ∧
        signature.root.parentPublicKey = S.extractPublicKey seed.rootKey ∧
        verifyTreeSignature signature keyId dataBuffer = true := by
  obtain ⟨next, able, done, soundNext, serving⟩ := sound.canSign ascending keyId
  unfold AggregateBmPrivateKeyTree.sign
  rw [done]
  cases able with
  | false => exact .inl ⟨next, rfl, soundNext⟩
  | true =>
    right
    obtain ⟨tree, storage, current, accepts, serves⟩ := serving rfl
    cases soundNext with
    | exhausted before => cases current
    | @current seedsLeft seedsRest seed left rest _ _ last gone split before kept memory after =>
      cases current
      obtain ⟨rfl, inside, later, ordered⟩ := accepted kept memory accepts serves served
      obtain rfl := kept.stored
      obtain ⟨signature, signs, root, verifies⟩ := memory.sign_spec inside later dataBuffer
        (seed.stored last false)
      have mem : seed ∈ seeds := by simp_all
      have start : (tree.setLastKey keyId).options.startKeyIdentifier =
          seed.options.startKeyIdentifier := congrArg _ memory.options
      dsimp only
      rw [signs]
      dsimp only
      rw [start]
      by_cases first : keyId = seed.options.startKeyIdentifier
      · subst first
        obtain ⟨saved, memory'⟩ := memory.signed_start later
        rw [if_neg (not_not.mpr rfl)]
        refine ⟨_, signature, rfl, ?_, ordered, seed, mem, inside, root, verifies⟩
        rw [saved]
        exact .afterSigning ascending split before after inside memory' ordered
      · obtain ⟨tree', wipes, memory'⟩ := memory.signed_later inside first later
        rw [if_pos first, wipes]
        exact ⟨_, signature, rfl, .afterSigning ascending split before after inside memory' ordered,
          ordered, seed, mem, inside, root, verifies⟩

end

private theorem exists_seed (atRest : List.Forall₂ (AtRest signed) seeds storages)
    (mem : storage ∈ storages) : ∃ seed ∈ seeds, AtRest signed seed storage := by
  induction atRest with
  | nil => cases mem
  | @cons seed first seeds rest this _ ih =>
    rcases mem_cons.mp mem with rfl | later
    · exact ⟨seed, mem_cons_self, this⟩
    · simp_all

private theorem Sound.wiped (sound : Sound seeds signed aggregate) (mem : keyId ∈ signed)
    (inside : storage ∈ aggregate.storages) {identifier : Nat}
    (above : storage.options.startKeyIdentifier ≤ identifier)
    (below : identifier ≤ storage.options.endKeyIdentifier) (earlier : identifier < keyId) :
    storage.privateKeyAt identifier = some S.zeroKey := by
  obtain ⟨seed, _, last, gone, kept⟩ := exists_seed sound.atRest inside
  obtain rfl := kept.stored
  have within : seed.InRange identifier := ⟨above, below⟩
  refine TreeSeed.privateKeyAt_stored within ?_
  by_cases passed : seed.options.endKeyIdentifier < keyId
  · exact .inl (kept.passed keyId mem passed)
  · have reached : seed.InRange keyId :=
      ⟨Nat.le_trans above (Nat.le_of_lt earlier), Nat.not_lt.mp passed⟩
    have used := kept.used keyId mem reached
    rw [reached.rank_eq] at used
    rw [within.rank_eq]
    exact .inr (by omega)

private theorem Reachable.sound (ascending : Ascending seeds)
    (reached : Reachable seeds signed aggregate) :
    Sound seeds signed aggregate ∧ signed.Pairwise (· ≥ ·) := by
  induction reached with
  | created =>
    refine ⟨.load ?_, .nil⟩
    refine forall₂_map_right_iff.mpr (forall₂_same.mpr fun seed _ => ?_)
    exact ⟨invalidId, false, TreeSeed.stored_invalid.symm, .inl rfl, nofun, nofun⟩
  | @perform signed aggregate op _ served ih =>
    obtain ⟨sound, ordered⟩ := ih
    cases op with
    | canSign keyId =>
      obtain ⟨next, able, done, soundNext, _⟩ := sound.canSign ascending keyId
      rw [AggregateBmPrivateKeyTree.perform, done]
      exact ⟨soundNext, ordered⟩
    | sign keyId dataBuffer =>
      rw [AggregateBmPrivateKeyTree.perform]
      rcases sound.sign ascending served dataBuffer with
        ⟨next, done, soundNext⟩ | ⟨next, signature, done, soundNext, later, _⟩
      · rw [done]
        exact ⟨soundNext, ordered⟩
      · rw [done]
        exact ⟨soundNext, pairwise_cons.mpr ⟨later, ordered⟩⟩
    | reload => exact ⟨.load sound.atRest, ordered⟩

end Invariant

/-- In every run whose requests are served by keys: the signed identifiers never decrease, the keys
before them are zero in every storage, requests for an earlier identifier or for one of no tree are
refused, and signatures verify under the root key of the tree of their identifier. -/
theorem votingKeys_forwardSecure {seeds : List (TreeSeed S)} (ascending : Ascending seeds)
    {signed : List Nat} {aggregate : AggregateBmPrivateKeyTree S}
    (reached : Reachable seeds signed aggregate) :
    signed.Pairwise (· ≥ ·) ∧ (∀ keyId ∈ signed, ∀ storage ∈ aggregate.storages, ∀ identifier,
      storage.options.startKeyIdentifier ≤ identifier →
      identifier ≤ storage.options.endKeyIdentifier → identifier < keyId →
        storage.privateKeyAt identifier = some S.zeroKey) ∧
    ∀ keyId, ServedByKeys aggregate keyId →
      ((∃ later ∈ signed, keyId < later) ∨ (∀ seed ∈ seeds, ¬ seed.InRange keyId) →
        (aggregate.canSign keyId).2 = .able false ∧
        ∀ dataBuffer, (aggregate.sign keyId dataBuffer).2 = .invalidKeyIdentifier) ∧
      ∀ dataBuffer signature, (aggregate.sign keyId dataBuffer).2 = .signed signature →
        ∃ seed ∈ seeds, seed.InRange keyId ∧
          signature.root.parentPublicKey = S.extractPublicKey seed.rootKey ∧
          verifyTreeSignature signature keyId dataBuffer = true := by
  obtain ⟨sound, ordered⟩ := reached.sound ascending
  refine ⟨ordered, fun keyId mem storage inside identifier above below earlier =>
    sound.wiped mem inside above below earlier, fun keyId served => ⟨?_, ?_⟩⟩
  · intro refused
    obtain ⟨next, able, done, accepted⟩ := sound.acceptance ascending served
    have unable : able = false := by
      refine Bool.eq_false_iff.mpr fun able => ?_
      obtain ⟨later, seed, mem, inside⟩ := accepted able
      rcases refused with ⟨other, signedOther, before⟩ | outside
      · exact absurd (later other signedOther) (Nat.not_le.mpr before)
      · exact outside seed mem inside
    subst unable
    refine ⟨by rw [done], fun dataBuffer => ?_⟩
    rw [AggregateBmPrivateKeyTree.sign, done]
  · intro dataBuffer signature answer
    rcases sound.sign ascending served dataBuffer with
      ⟨next, done, _⟩ | ⟨next, other, done, _, _, valid⟩
    · rw [done] at answer
      cases answer
    · simp_all

section Example

def exampleScheme : VotingScheme where
  PrivateKey := Nat
  PublicKey := Nat
  Signature := Nat × List Byte
  zeroKey := 0
  extractPublicKey := id
  keyBytes key := [BitVec.ofNat 8 key]
  sign key buffer := (key, buffer)
  verify key buffer signature := signature == (key, buffer)
  verify_sign _ _ := beq_self_eq_true _

def exampleSeeds : List (TreeSeed exampleScheme) :=
  [⟨(9 : Nat), ⟨1, 2⟩, [(11 : Nat), (12 : Nat)], by decide, by decide, rfl⟩,
    ⟨(10 : Nat), ⟨3, 4⟩, [(13 : Nat), (14 : Nat)], by decide, by decide, rfl⟩]

def exampleStart : AggregateBmPrivateKeyTree exampleScheme :=
  .load (exampleSeeds.map TreeSeed.create)

/-- The aggregate after the key `3` of the second tree was used. -/
def exampleSigned : AggregateBmPrivateKeyTree exampleScheme := (exampleStart.perform (.sign 3 [])).1

theorem votingKeys_forwardSecure_exampleSigned :
    Ascending exampleSeeds ∧ ServedByKeys exampleStart 3 ∧
      ∀ storage ∈ exampleSigned.storages, ∀ identifier,
        storage.options.startKeyIdentifier ≤ identifier →
        identifier ≤ storage.options.endKeyIdentifier → identifier < 3 →
          storage.privateKeyAt identifier = some exampleScheme.zeroKey := by
  have ascending : Ascending exampleSeeds := by
    simp [Ascending, exampleSeeds]
  have served : ServedByKeys exampleStart 3 := by
    intro storage found _ wiped
    cases found
    have zero : (13 : Nat) = 0 := wiped _ mem_cons_self
    cases zero
  exact ⟨ascending, served,
    (votingKeys_forwardSecure ascending (.perform (.sign 3 []) .created served)).2.1 3
      mem_cons_self⟩

/-- After `3` was signed, a reload starts with the first tree again. Its keys are wiped, but `1` is
signed: the identifiers decrease, and the signature does not verify. -/
theorem votingKeys_reload_signs_with_wiped_key :
    ∃ first second, (exampleStart.perform (.sign 3 [])).2 = .signed first ∧
      ((exampleSigned.perform .reload).1.perform (.sign 1 [])).2 = .signed second ∧
      verifyTreeSignature first 3 [] = true ∧ verifyTreeSignature second 1 [] = false :=
  ⟨_, _, rfl, rfl, rfl, rfl⟩

end Example

end BitxorCore.Voting
