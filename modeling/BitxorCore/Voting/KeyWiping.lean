/- GID: Voting/KeyWiping
   anchors: [src/bitxorcore/crypto_voting, extensions/finalization]
   digest: What wiping and signing leave in the storage of a created tree. -/

import BitxorCore.Crypto.MerkleHashBuilder
import BitxorCore.Types
import Mathlib.Algebra.Order.Ring.Nat

set_option autoImplicit false
set_option relaxedAutoImplicit false

namespace BitxorCore.Voting
open Crypto

/-- A signature scheme whose own signatures verify. A wiped private key is `zeroKey`. -/
structure VotingScheme where
  PrivateKey : Type
  PublicKey : Type
  Signature : Type
  zeroKey : PrivateKey
  extractPublicKey : PrivateKey → PublicKey
  keyBytes : PublicKey → List Byte
  sign : PrivateKey → List Byte → Signature
  verify : PublicKey → List Byte → Signature → Bool
  verify_sign : ∀ key buffer, verify (extractPublicKey key) buffer (sign key buffer) = true

namespace BmKeyIdentifier

/-- Key identifiers are numbers of 64 bits; the last of them stands for none. -/
def invalidId : Nat := 2 ^ 64 - 1

variable (lhs rhs : Nat)

def lt : Bool :=
  if lhs == rhs || invalidId == rhs then false else invalidId == lhs || decide (lhs < rhs)

def le : Bool := lt lhs rhs || lhs == rhs

def gt : Bool := !le lhs rhs

def ge : Bool := !lt lhs rhs

def rank (ident : Nat) : Nat := if ident = invalidId then 0 else ident + 1

variable {lhs rhs : Nat}

private theorem lt_iff : lt lhs rhs = true ↔ rank lhs < rank rhs := by
  unfold lt rank
  by_cases left : lhs = invalidId
  · by_cases right : rhs = invalidId
    · simp [left, right]
    · simp [left, right, Ne.symm right]
  · by_cases right : rhs = invalidId
    · simp [left, right]
    · by_cases same : lhs = rhs
      · simp [same]
      · simp [left, right, same, Ne.symm left, Ne.symm right]

theorem ge_iff : ge lhs rhs = true ↔ rank rhs ≤ rank lhs := by
  rw [ge, Bool.not_eq_true', Bool.eq_false_iff, ne_eq, lt_iff, Nat.not_lt]

private theorem rank_injective (same : rank lhs = rank rhs) : lhs = rhs := by
  unfold rank at same
  split at same <;> split at same <;> omega

private theorem gt_iff : gt lhs rhs = true ↔ rank rhs < rank lhs := by
  have equal : lhs = rhs ↔ rank lhs = rank rhs := ⟨fun same => same ▸ rfl, rank_injective⟩
  rw [gt, le, Bool.not_eq_true', Bool.or_eq_false_iff, Bool.eq_false_iff, ne_eq, lt_iff,
    beq_eq_false_iff_ne, ne_eq, equal]
  omega

theorem rank_of_lt {ident : Nat} (valid : ident < invalidId) : rank ident = ident + 1 :=
  if_neg (Nat.ne_of_lt valid)

/-- `keyIdentifier.KeyId - 1` in 64 bits. -/
def decrease (ident : Nat) : Nat := (ident + (2 ^ 64 - 1)) % 2 ^ 64

private theorem decrease_eq {ident : Nat} (pos : 0 < ident)
    (valid : ident < invalidId) : decrease ident = ident - 1 := by
  unfold decrease
  unfold invalidId at valid
  omega

end BmKeyIdentifier

open BmKeyIdentifier

structure BmOptions where
  startKeyIdentifier : Nat
  endKeyIdentifier : Nat
  deriving DecidableEq

section Trees

variable (S : VotingScheme)

/-- The content of a storage: options, the two last identifiers, and the level with its keys. The
key with index `i` is that of the identifier `endIdentifier - i`. -/
structure KeyStorage where
  options : BmOptions
  lastKeyIdentifier : Nat
  lastWipeKeyIdentifier : Nat
  parentPublicKey : S.PublicKey
  startIdentifier : Nat
  endIdentifier : Nat
  entries : List (S.PrivateKey × S.Signature)

structure KeyPair where
  privateKey : S.PrivateKey
  publicKey : S.PublicKey

structure SignedPrivateKey where
  keyPair : KeyPair S
  signature : S.Signature

structure Level where
  parentPublicKey : S.PublicKey
  startIdentifier : Nat
  endIdentifier : Nat
  levelSignedPrivateKeys : List (SignedPrivateKey S)

structure BmPrivateKeyTree where
  options : BmOptions
  level : Level S
  lastKeyIdentifier : Nat
  lastWipeKeyIdentifier : Nat

abbrev VotingScheme.TreeSignature := BmTreeSignature S.PublicKey S.Signature

variable {S}

def KeyPair.fromPrivate (privateKey : S.PrivateKey) : KeyPair S :=
  ⟨privateKey, S.extractPublicKey privateKey⟩

def identifierBytes (ident : Nat) : List Byte :=
  (List.range 8).map fun i => BitVec.ofNat 8 (ident / 256 ^ i)

/-- What the parent signs: a public key bound to an identifier. -/
def boundBuffer (publicKey : S.PublicKey) (ident : Nat) : List Byte :=
  S.keyBytes publicKey ++ identifierBytes ident

def verifyTreeSignature (signature : S.TreeSignature) (keyIdentifier : Nat)
    (buffer : List Byte) : Bool :=
  S.verify signature.root.parentPublicKey
      (boundBuffer signature.bottom.parentPublicKey keyIdentifier) signature.root.signature &&
    S.verify signature.bottom.parentPublicKey buffer signature.bottom.signature

/-- `Create`: the storage of a new tree around a root key, with the private keys that were generated
for the identifiers from the end to the start. -/
def KeyStorage.create (rootKey : S.PrivateKey) (privateKeys : List S.PrivateKey)
    (options : BmOptions) : KeyStorage S where
  options := options
  lastKeyIdentifier := invalidId
  lastWipeKeyIdentifier := invalidId
  parentPublicKey := S.extractPublicKey rootKey
  startIdentifier := options.startKeyIdentifier
  endIdentifier := options.endKeyIdentifier
  entries := privateKeys.mapIdx fun i privateKey =>
    (privateKey, S.sign rootKey
      (boundBuffer (S.extractPublicKey privateKey) (options.endKeyIdentifier - i)))

def KeyStorage.privateKeyAt (storage : KeyStorage S) (ident : Nat) : Option S.PrivateKey :=
  (storage.entries[storage.endIdentifier - ident]?).map Prod.fst

def KeyStorage.saveKeyIdentifier (storage : KeyStorage S) (keyIdentifier : Nat) : KeyStorage S :=
  { storage with lastKeyIdentifier := keyIdentifier }

namespace BmPrivateKeyTree

def fromStream (storage : KeyStorage S) : BmPrivateKeyTree S where
  options := storage.options
  level :=
    { parentPublicKey := storage.parentPublicKey
      startIdentifier := storage.startIdentifier
      endIdentifier := storage.endIdentifier
      levelSignedPrivateKeys := storage.entries.map fun entry =>
        ⟨.fromPrivate entry.1, entry.2⟩ }
  lastKeyIdentifier := storage.lastKeyIdentifier
  lastWipeKeyIdentifier := storage.lastWipeKeyIdentifier

variable (tree : BmPrivateKeyTree S)

def check (keyIdentifier referenceKeyIdentifier : Nat) : Bool :=
  if lt keyIdentifier referenceKeyIdentifier then false
  else if lt keyIdentifier tree.options.startKeyIdentifier ||
      gt keyIdentifier tree.options.endKeyIdentifier then false
  else true

def canSign (keyIdentifier : Nat) : Bool :=
  tree.check keyIdentifier tree.lastKeyIdentifier

def setLastKey (keyIdentifier : Nat) : BmPrivateKeyTree S :=
  { tree with lastKeyIdentifier := keyIdentifier }

/-- The last identifier is saved, in memory and in storage; `none` is the exception. -/
def sign (storage : KeyStorage S) (keyIdentifier : Nat)
    (dataBuffer : List Byte) :
    Option (BmPrivateKeyTree S × KeyStorage S × S.TreeSignature) :=
  if !tree.canSign keyIdentifier then none
  else
    (tree.level.levelSignedPrivateKeys[tree.level.endIdentifier - keyIdentifier]?).map fun key =>
      (tree.setLastKey keyIdentifier, storage.saveKeyIdentifier keyIdentifier,
        { root := ⟨tree.level.parentPublicKey, key.signature⟩
          bottom := ⟨key.keyPair.publicKey, S.sign key.keyPair.privateKey dataBuffer⟩ })

def wipeEntry (entry : S.PrivateKey × S.Signature) : S.PrivateKey × S.Signature :=
  (S.zeroKey, entry.2)

def detach (key : SignedPrivateKey S) : SignedPrivateKey S :=
  { key with keyPair := { key.keyPair with privateKey := S.zeroKey } }

/-- The keys up to an identifier are wiped: from storage those with a higher index, then from memory
those from the start on, then the requested one from storage. -/
def wipeLayer (storage : KeyStorage S) (ident : Nat) : BmPrivateKeyTree S × KeyStorage S :=
  let level := tree.level
  let index := level.endIdentifier - ident
  let size := level.levelSignedPrivateKeys.length
  let wiped := (List.range' (index + 1) (size - (index + 1))).foldl
    (fun entries i => entries.modify i wipeEntry) storage.entries
  let keys := (List.range' level.startIdentifier (ident + 1 - level.startIdentifier)).foldl
    (fun keys i => keys.modify (level.endIdentifier - i) detach) level.levelSignedPrivateKeys
  ({ tree with level := { level with levelSignedPrivateKeys := keys } },
    { storage with entries := wiped.modify index wipeEntry })

/-- The keys after the last wiped one up to an identifier are wiped. The last wiped identifier is
kept in memory only; `none` is the exception. -/
def wipe (storage : KeyStorage S) (keyIdentifier : Nat) :
    Option (BmPrivateKeyTree S × KeyStorage S) :=
  if !tree.check keyIdentifier tree.lastWipeKeyIdentifier then none
  else
    let startWipeKeyId :=
      if invalidId = tree.lastWipeKeyIdentifier then tree.options.startKeyIdentifier
      else (tree.lastWipeKeyIdentifier + 1) % 2 ^ 64
    let wiped := (List.range' startWipeKeyId (keyIdentifier + 1 - startWipeKeyId)).foldl
      (fun state keyId => state.1.wipeLayer state.2 keyId) (tree, storage)
    some ({ wiped.1 with lastWipeKeyIdentifier := keyIdentifier }, wiped.2)

end BmPrivateKeyTree

variable (S) in
/-- The storages of all trees: those of the trees that were left, that of the current tree, and
those that the factory did not open yet. -/
structure AggregateBmPrivateKeyTree where
  left : List (KeyStorage S)
  current : Option (BmPrivateKeyTree S × KeyStorage S)
  rest : List (KeyStorage S)

inductive Answer (S : VotingScheme)
  | able (result : Bool)
  | signed (signature : S.TreeSignature)
  | invalidKeyIdentifier
  | overlappingTree
  | loaded

namespace AggregateBmPrivateKeyTree

/-- An aggregate over a new factory, which opens the storages from the first one on. -/
def load : List (KeyStorage S) → AggregateBmPrivateKeyTree S
  | [] => ⟨[], none, []⟩
  | storage :: rest => ⟨[], some (.fromStream storage, storage), rest⟩

variable (aggregate : AggregateBmPrivateKeyTree S)

def storages : List (KeyStorage S) :=
  aggregate.left ++ (aggregate.current.map Prod.snd).toList ++ aggregate.rest

/-- The loop of `canSign`: trees that end before the identifier are wiped and left. The second
component is the exception that ended the loop. -/
def advance (keyIdentifier : Nat) (left : List (KeyStorage S)) (tree : BmPrivateKeyTree S)
    (storage : KeyStorage S) (rest : List (KeyStorage S)) :
    AggregateBmPrivateKeyTree S × Option (Answer S) :=
  if lt tree.options.endKeyIdentifier keyIdentifier then
    match tree.wipe storage tree.options.endKeyIdentifier with
    | none => (⟨left, some (tree, storage), rest⟩, some .invalidKeyIdentifier)
    | some (_, wiped) =>
      match rest with
      | [] => (⟨left ++ [wiped], none, []⟩, none)
      | next :: rest =>
        let new := BmPrivateKeyTree.fromStream next
        if ge tree.options.endKeyIdentifier new.options.startKeyIdentifier then
          (⟨left ++ [wiped], some (new, next), rest⟩, some .overlappingTree)
        else advance keyIdentifier (left ++ [wiped]) new next rest
  else (⟨left, some (tree, storage), rest⟩, none)

def canSign (keyIdentifier : Nat) : AggregateBmPrivateKeyTree S × Answer S :=
  match aggregate.current with
  | none => (aggregate, .able false)
  | some (tree, storage) =>
    match advance keyIdentifier aggregate.left tree storage aggregate.rest with
    | (advanced, some exception) => (advanced, exception)
    | (advanced, none) =>
      (advanced, .able (match advanced.current with
        | none => false
        | some (tree, _) => tree.canSign keyIdentifier))

def sign (keyIdentifier : Nat) (dataBuffer : List Byte) : AggregateBmPrivateKeyTree S × Answer S :=
  match aggregate.canSign keyIdentifier with
  | (advanced, .able true) =>
    match advanced.current with
    | none => (advanced, .invalidKeyIdentifier)
    | some (tree, storage) =>
      match tree.sign storage keyIdentifier dataBuffer with
      | none => (advanced, .invalidKeyIdentifier)
      | some (tree, storage, signature) =>
        -- the keys before the identifier are wiped
        if keyIdentifier ≠ tree.options.startKeyIdentifier then
          match tree.wipe storage (decrease keyIdentifier) with
          | none => ({ advanced with current := some (tree, storage) }, .invalidKeyIdentifier)
          | some wiped => ({ advanced with current := some wiped }, .signed signature)
        else ({ advanced with current := some (tree, storage) }, .signed signature)
  | (advanced, .able false) => (advanced, .invalidKeyIdentifier)
  | (advanced, exception) => (advanced, exception)

end AggregateBmPrivateKeyTree

/-- The calls on an aggregate, and its reload from the storages. -/
inductive VotingOperation
  | canSign (keyIdentifier : Nat)
  | sign (keyIdentifier : Nat) (dataBuffer : List Byte)
  | reload

def AggregateBmPrivateKeyTree.perform (aggregate : AggregateBmPrivateKeyTree S) :
    VotingOperation → AggregateBmPrivateKeyTree S × Answer S
  | .canSign keyIdentifier => aggregate.canSign keyIdentifier
  | .sign keyIdentifier dataBuffer => aggregate.sign keyIdentifier dataBuffer
  | .reload => (load aggregate.storages, .loaded)

end Trees

open BmKeyIdentifier BmPrivateKeyTree List

section Lists

variable {α : Type}

def changeAt (change : α → α) (selected : Nat → Bool) (elements : List α) : List α :=
  elements.mapIdx fun i elem => if selected i then change elem else elem

private theorem getElem?_changeAt (change : α → α) (selected : Nat → Bool) (els : List α) (i : Nat) :
    (changeAt change selected els)[i]? =
      els[i]?.map fun elem => if selected i then change elem else elem :=
  List.getElem?_mapIdx

@[simp]
private theorem length_changeAt (change : α → α) (selected : Nat → Bool) (els : List α) :
    (changeAt change selected els).length = els.length :=
  length_mapIdx

variable {change : α → α}

private theorem changeAt_congr {selected other : Nat → Bool} {elements : List α}
    (same : ∀ i < elements.length, selected i = other i) :
    changeAt change selected elements = changeAt change other elements := by
  refine ext_getElem? fun i => ?_
  rw [getElem?_changeAt, getElem?_changeAt]
  by_cases inside : i < elements.length
  · rw [same i inside]
  · simp_all

private theorem changeAt_changeAt (idempotent : ∀ x, change (change x) = change x)
    (first second : Nat → Bool) (elements : List α) :
    changeAt change second (changeAt change first elements) =
      changeAt change (fun i => first i || second i) elements := by
  refine ext_getElem? fun i => ?_
  simp only [getElem?_changeAt, Option.map_map]
  congr 1
  funext elem
  cases first i <;> cases second i <;> simp [idempotent]

private theorem modify_eq_changeAt (change : α → α) (elements : List α) (index : Nat) :
    elements.modify index change = changeAt change (fun i => i == index) elements := by
  refine ext_getElem? fun i => ?_
  rw [List.getElem?_modify, getElem?_changeAt]
  by_cases here : index = i
  · simp [here]
  · simp [here, Ne.symm here]

private theorem foldl_modify (idempotent : ∀ x, change (change x) = change x)
    (index : Nat → Nat) (steps : List Nat) (elements : List α) :
    steps.foldl (fun elements i => elements.modify (index i) change) elements =
      changeAt change (fun i => steps.any fun step => i == index step) elements := by
  induction steps generalizing elements with
  | nil =>
    refine ext_getElem? fun i => ?_
    simp [getElem?_changeAt]
  | cons step rest ih =>
    rw [foldl_cons, ih, modify_eq_changeAt, changeAt_changeAt idempotent]
    rfl

end Lists

variable {S : VotingScheme}

variable (S) in
/-- What a tree is created from: a range of identifiers and one generated key for each of them. -/
structure TreeSeed where
  rootKey : S.PrivateKey
  options : BmOptions
  privateKeys : List S.PrivateKey
  ordered : options.startKeyIdentifier ≤ options.endKeyIdentifier
  valid : options.endKeyIdentifier < invalidId
  complete : privateKeys.length = options.endKeyIdentifier - options.startKeyIdentifier + 1

namespace TreeSeed

variable (seed : TreeSeed S)

def InRange (identifier : Nat) : Prop :=
  seed.options.startKeyIdentifier ≤ identifier ∧ identifier ≤ seed.options.endKeyIdentifier

instance (identifier : Nat) : Decidable (seed.InRange identifier) :=
  inferInstanceAs (Decidable (_ ∧ _))

def create : KeyStorage S := KeyStorage.create seed.rootKey seed.privateKeys seed.options

variable (last : Nat)

/-- The keys that are wiped: all of a tree that was left, otherwise those before the last one. -/
def isWiped (gone : Bool) (index : Nat) : Bool :=
  gone || lt (seed.options.endKeyIdentifier - index) last

def stored (gone : Bool) : KeyStorage S :=
  { seed.create with
    lastKeyIdentifier := last
    entries := changeAt wipeEntry (seed.isWiped last gone) seed.create.entries }

def Admits : Prop := last = invalidId ∨ seed.InRange last

variable {seed}

private theorem length_entries : seed.create.entries.length =
    seed.options.endKeyIdentifier - seed.options.startKeyIdentifier + 1 := by
  rw [create, KeyStorage.create, length_mapIdx, seed.complete]

theorem InRange.rank_eq {ident : Nat} (inside : seed.InRange ident) : rank ident = ident + 1 :=
  rank_of_lt (Nat.lt_of_le_of_lt inside.2 seed.valid)

@[simp]
theorem stored_options (gone : Bool) :
    (seed.stored last gone).options = seed.options := rfl

theorem stored_invalid : seed.stored invalidId false = seed.create := by
  have none (index : Nat) : seed.isWiped invalidId false index = false := by
    simp [isWiped, lt]
  have same : changeAt wipeEntry (seed.isWiped invalidId false) seed.create.entries =
      seed.create.entries := by
    refine ext_getElem? fun i => ?_
    simp [getElem?_changeAt, none]
  rw [stored, same]
  rfl

theorem privateKeyAt_stored {last ident : Nat} {gone : Bool} (inside : seed.InRange ident)
    (wiped : gone = true ∨ rank ident < rank last) :
    (seed.stored last gone).privateKeyAt ident = some S.zeroKey := by
  obtain ⟨above, below⟩ := inside
  have i : seed.options.endKeyIdentifier - ident < seed.create.entries.length := by
    rw [length_entries]
    omega
  have selected : seed.isWiped last gone (seed.options.endKeyIdentifier - ident) = true := by
    rw [isWiped, Nat.sub_sub_self below, Bool.or_eq_true, lt_iff]
    exact wiped
  change (((changeAt wipeEntry (seed.isWiped last gone) seed.create.entries)[
    seed.options.endKeyIdentifier - ident]?).map Prod.fst) = _
  rw [getElem?_changeAt, selected, List.getElem?_eq_getElem i]
  rfl

end TreeSeed

open TreeSeed (create isWiped stored)

@[simp]
theorem BmPrivateKeyTree.fromStream_options (s : KeyStorage S) :
    (fromStream s).options = s.options := rfl

def BmPrivateKeyTree.withKeys (tree : BmPrivateKeyTree S) (keys : List (SignedPrivateKey S)) :
    BmPrivateKeyTree S :=
  { tree with level := { tree.level with levelSignedPrivateKeys := keys } }

def KeyStorage.withEntries (storage : KeyStorage S) (entries : List (S.PrivateKey × S.Signature)) :
    KeyStorage S :=
  { storage with entries := entries }

/-- A tree and its storage lose the keys at the selected indices. -/
structure Wipes (selected : Nat → Bool) (before after : BmPrivateKeyTree S × KeyStorage S) :
    Prop where
  t : ∃ keys, after.1 = before.1.withKeys keys ∧
    keys.length = before.1.level.levelSignedPrivateKeys.length ∧
    ∀ i, selected i = false → keys[i]? = before.1.level.levelSignedPrivateKeys[i]?
  storage : after.2 = before.2.withEntries (changeAt wipeEntry selected before.2.entries)

private theorem wipeEntry_wipeEntry (entry : S.PrivateKey × S.Signature) :
    wipeEntry (wipeEntry entry) = wipeEntry entry := rfl

private theorem detach_detach (key : SignedPrivateKey S) : detach (detach key) = detach key := rfl

namespace Wipes

variable {first second : Nat → Bool} {before between after : BmPrivateKeyTree S × KeyStorage S}

private theorem refl (state : BmPrivateKeyTree S × KeyStorage S) :
    Wipes (fun _ => false) state state := by
  have same : changeAt wipeEntry (fun _ => false) state.2.entries = state.2.entries := by
    refine ext_getElem? fun i => ?_
    simp [getElem?_changeAt]
  exact ⟨⟨_, rfl, rfl, fun _ _ => rfl⟩, by rw [same]; rfl⟩

private theorem trans (start : Wipes first before between) (rest : Wipes second between after) :
    Wipes (fun i => first i || second i) before after := by
  obtain ⟨⟨keys, t, long, kept⟩, storage⟩ := start
  obtain ⟨⟨keys', tree', long', kept'⟩, storage'⟩ := rest
  rw [t] at tree' long' kept'
  refine ⟨⟨keys', tree', long'.trans long, fun i unselected => ?_⟩, ?_⟩
  · rw [Bool.or_eq_false_iff] at unselected
    exact (kept' i unselected.2).trans (kept i unselected.1)
  · rw [storage', storage, ← changeAt_changeAt wipeEntry_wipeEntry]
    rfl

private theorem congr (wipes : Wipes first before after)
    (same : ∀ i < before.1.level.levelSignedPrivateKeys.length, first i = second i)
    (sizes : before.1.level.levelSignedPrivateKeys.length = before.2.entries.length) :
    Wipes second before after := by
  obtain ⟨⟨keys, t, long, kept⟩, storage⟩ := wipes
  refine ⟨⟨keys, t, long, fun i unselected => ?_⟩, ?_⟩
  · grind
  · rw [storage, changeAt_congr fun i inside => same i (sizes ▸ inside)]

end Wipes

variable {t : BmPrivateKeyTree S}

private theorem wipeLayer_wipes {s : KeyStorage S}
    {ident : Nat} (sizes : t.level.levelSignedPrivateKeys.length = s.entries.length) :
    Wipes (fun i => decide (t.level.endIdentifier - ident ≤ i)) (t, s) (t.wipeLayer s ident) := by
  refine ⟨⟨_, rfl, ?_, fun i unselected => ?_⟩, ?_⟩
  · rw [foldl_modify detach_detach, length_changeAt]
  · have untouched : ((range' t.level.startIdentifier
        (ident + 1 - t.level.startIdentifier)).any
          fun step => i == t.level.endIdentifier - step) = false := by
      simp only [any_eq_false, mem_range'_1, beq_iff_eq]
      simp only [decide_eq_false_iff_not] at unselected
      omega
    rw [foldl_modify detach_detach, getElem?_changeAt, untouched]
    simp
  · unfold wipeLayer
    dsimp only
    rw [foldl_modify wipeEntry_wipeEntry, modify_eq_changeAt, changeAt_changeAt wipeEntry_wipeEntry]
    refine congrArg s.withEntries (changeAt_congr fun i inside => ?_)
    rw [Bool.eq_iff_iff, Bool.or_eq_true, any_eq_true]
    simp only [mem_range'_1, beq_iff_eq, decide_eq_true_eq, sizes]
    constructor
    · rintro (⟨step, within, rfl⟩ | same) <;> omega
    · intro above
      by_cases here : i = t.level.endIdentifier - ident
      · exact .inr here
      · exact .inl ⟨i, by omega, rfl⟩

private theorem foldl_wipeLayer {storage : KeyStorage S}
    (sizes : t.level.levelSignedPrivateKeys.length = storage.entries.length)
    (identifiers : List Nat) :
    Wipes (fun i => identifiers.any fun identifier =>
        decide (t.level.endIdentifier - identifier ≤ i)) (t, storage)
      (identifiers.foldl (fun state keyId => state.1.wipeLayer state.2 keyId) (t, storage)) := by
  induction identifiers generalizing t storage with
  | nil => exact .refl _
  | cons identifier rest ih =>
    have first : Wipes _ _ (t.wipeLayer storage identifier) := wipeLayer_wipes sizes
    rw [foldl_cons]
    generalize t.wipeLayer storage identifier = next at first ⊢
    obtain ⟨⟨keys, tree', long, _⟩, storage'⟩ := id first
    obtain ⟨nextTree, nextStorage⟩ := next
    obtain rfl : nextTree = t.withKeys keys := tree'
    have sizes' : keys.length = nextStorage.entries.length := by
      rw [long, show nextStorage = _ from storage']
      exact sizes.trans (length_changeAt _ _ _).symm
    have after := @ih (t.withKeys keys) nextStorage sizes'
    exact first.trans after

/-- What a tree keeps in memory of a storage: the keys that are not wiped, and a last wiped
identifier before the last one. -/
structure Remembers (seed : TreeSeed S) (last : Nat) (gone : Bool) (tree : BmPrivateKeyTree S) :
    Prop where
  options : tree.options = seed.options
  lastKey : tree.lastKeyIdentifier = last
  parentPublicKey : tree.level.parentPublicKey = S.extractPublicKey seed.rootKey
  endIdentifier : tree.level.endIdentifier = seed.options.endKeyIdentifier
  size : tree.level.levelSignedPrivateKeys.length = seed.privateKeys.length
  keys : ∀ i key, seed.privateKeys[i]? = some key → seed.isWiped last gone i = false →
    tree.level.levelSignedPrivateKeys[i]? = some ⟨.fromPrivate key, S.sign seed.rootKey
        (boundBuffer (S.extractPublicKey key) (seed.options.endKeyIdentifier - i))⟩
  lastWipe : tree.lastWipeKeyIdentifier = invalidId ∨ rank tree.lastWipeKeyIdentifier < rank last

namespace Remembers

variable {seed : TreeSeed S} {last : Nat} {gone : Bool} {t : BmPrivateKeyTree S}

theorem fromStream (seed : TreeSeed S) (last : Nat) (gone : Bool) :
    Remembers seed last gone (.fromStream (seed.stored last gone)) where
  options := rfl
  lastKey := rfl
  parentPublicKey := rfl
  endIdentifier := rfl
  size := by simp [BmPrivateKeyTree.fromStream, stored, create, KeyStorage.create]
  keys := by
    intro i key found unwiped
    simp [BmPrivateKeyTree.fromStream, stored, getElem?_changeAt, unwiped, create,
      KeyStorage.create, found]
  lastWipe := .inl rfl

variable {identifier : Nat}

section
variable (memory : Remembers seed last gone t)
include memory

theorem check_iff {ref : Nat} :
    t.check identifier ref = true ↔ rank ref ≤ rank identifier ∧ seed.InRange identifier := by
  have top := rank_of_lt seed.valid
  have bottom := rank_of_lt (Nat.lt_of_le_of_lt seed.ordered seed.valid)
  have range : seed.InRange identifier ↔ rank seed.options.startKeyIdentifier ≤ rank identifier ∧
        rank identifier ≤ rank seed.options.endKeyIdentifier := by
    rw [top, bottom]
    unfold TreeSeed.InRange rank
    have := seed.valid
    split <;> omega
  have passes : t.check identifier ref = true ↔ ¬ lt identifier ref = true ∧
        ¬ (lt identifier seed.options.startKeyIdentifier = true ∨
          gt identifier seed.options.endKeyIdentifier = true) := by
    unfold check
    rw [memory.options]
    split
    · simp_all
    · split <;> simp_all
  rw [passes, range, lt_iff, lt_iff, gt_iff]
  omega

private theorem sizes :
    t.level.levelSignedPrivateKeys.length = (seed.stored last gone).entries.length := by
  rw [memory.size]
  simp [stored, create, KeyStorage.create]

private theorem wipe_spec {storage : KeyStorage S}
    (sizes : t.level.levelSignedPrivateKeys.length = storage.entries.length)
    (inside : seed.InRange identifier) (after : rank t.lastWipeKeyIdentifier ≤ rank identifier) :
    ∃ tree' storage', t.wipe storage identifier =
        some ({ tree' with lastWipeKeyIdentifier := identifier }, storage') ∧
      Wipes (fun i => decide (rank t.lastWipeKeyIdentifier < rank identifier) &&
        decide (seed.options.endKeyIdentifier - identifier ≤ i)) (t, storage)
        (tree', storage') := by
  have passes := memory.check_iff.mpr ⟨after, inside⟩
  have range := inside.rank_eq
  let startWipeKeyId := if invalidId = t.lastWipeKeyIdentifier then
      t.options.startKeyIdentifier
    else (t.lastWipeKeyIdentifier + 1) % 2 ^ 64
  have started : startWipeKeyId ≤ identifier ↔ rank t.lastWipeKeyIdentifier < rank identifier := by
    unfold startWipeKeyId
    have valid : identifier < 2 ^ 64 - 1 := Nat.lt_of_le_of_lt inside.2 seed.valid
    rw [range] at after ⊢
    unfold rank at after ⊢
    split
    · rename_i never
      rw [if_pos never.symm, memory.options]
      have := inside.1
      omega
    · rename_i valid
      rw [if_neg (Ne.symm valid)] at after ⊢
      omega
  refine ⟨_, _, ?_, (foldl_wipeLayer sizes
    (range' startWipeKeyId (identifier + 1 - startWipeKeyId))).congr (fun i _ => ?_) sizes⟩
  · unfold wipe
    rw [passes]
    rfl
  · rw [Bool.eq_iff_iff, any_eq_true, Bool.and_eq_true, decide_eq_true_iff,
      decide_eq_true_iff, ← started, memory.endIdentifier]
    simp only [mem_range'_1, decide_eq_true_eq]
    constructor
    · rintro ⟨step, within, above⟩
      omega
    · rintro ⟨nonempty, above⟩
      exact ⟨identifier, by omega, above⟩

end

private theorem stored_withEntries {selected : Nat → Bool} {s : KeyStorage S}
    {newLast : Nat} {newGone : Bool}
    (others : s = (seed.stored last gone).saveKeyIdentifier newLast)
    (same : ∀ i < seed.privateKeys.length,
      (seed.isWiped last gone i || selected i) = seed.isWiped newLast newGone i) :
    s.withEntries (changeAt wipeEntry selected s.entries) = seed.stored newLast newGone := by
  subst others
  unfold stored KeyStorage.withEntries KeyStorage.saveKeyIdentifier
  rw [changeAt_changeAt wipeEntry_wipeEntry, changeAt_congr fun i inside => same i ?_]
  simpa [create, KeyStorage.create] using inside

private theorem rank_lastWipe_lt (memory : Remembers seed last gone t)
    (inside : seed.InRange identifier) (later : rank last ≤ rank identifier) :
    rank t.lastWipeKeyIdentifier < rank identifier := by
  have range := inside.rank_eq
  rcases memory.lastWipe with never | earlier
  · rw [never, rank, if_pos rfl]
    omega
  · omega

theorem wipe_end (memory : Remembers seed last gone t) (admits : seed.Admits last) :
    ∃ tree', t.wipe (seed.stored last gone) seed.options.endKeyIdentifier =
      some (tree', seed.stored last true) := by
  have inside : seed.InRange seed.options.endKeyIdentifier := ⟨seed.ordered, Nat.le_refl _⟩
  have later : rank last ≤ rank seed.options.endKeyIdentifier := by
    rcases admits with none | within
    · rw [none, rank, if_pos rfl]
      exact Nat.zero_le _
    · rw [within.rank_eq, inside.rank_eq]
      exact Nat.succ_le_succ within.2
  have before := memory.rank_lastWipe_lt inside later
  obtain ⟨tree', storage', done, wipes⟩ := memory.wipe_spec memory.sizes inside
    (Nat.le_of_lt before)
  have whole : storage' = seed.stored last true := by
    refine wipes.storage.trans (stored_withEntries rfl fun i _ => ?_)
    simp [before, isWiped]
  exact ⟨_, whole ▸ done⟩

theorem sign_spec (memory : Remembers seed last false t)
    (inside : seed.InRange identifier) (later : rank last ≤ rank identifier)
    (dataBuffer : List Byte) (storage : KeyStorage S) :
    ∃ signature, t.sign storage identifier dataBuffer =
        some (t.setLastKey identifier, storage.saveKeyIdentifier identifier, signature) ∧
      signature.root.parentPublicKey = S.extractPublicKey seed.rootKey ∧
      verifyTreeSignature signature identifier dataBuffer = true := by
  have able : t.canSign identifier = true := by
    rw [canSign, memory.lastKey]
    exact memory.check_iff.mpr ⟨later, inside⟩
  have index : seed.options.endKeyIdentifier - identifier < seed.privateKeys.length := by
    have := seed.complete
    have := inside.1
    omega
  have same : seed.options.endKeyIdentifier - (seed.options.endKeyIdentifier - identifier) =
      identifier := Nat.sub_sub_self inside.2
  have unwiped : seed.isWiped last false (seed.options.endKeyIdentifier - identifier) = false := by
    rw [isWiped, same, Bool.false_or, Bool.eq_false_iff, ne_eq, lt_iff]
    omega
  have key := memory.keys _ _ (List.getElem?_eq_getElem index) unwiped
  rw [same] at key
  unfold BmPrivateKeyTree.sign
  rw [able, memory.endIdentifier, key]
  refine ⟨_, rfl, memory.parentPublicKey, ?_⟩
  simp only [verifyTreeSignature, memory.parentPublicKey, KeyPair.fromPrivate, S.verify_sign,
    Bool.and_self]

private theorem rank_index (seed : TreeSeed S) (i : Nat) :
    rank (seed.options.endKeyIdentifier - i) = seed.options.endKeyIdentifier - i + 1 :=
  rank_of_lt (Nat.lt_of_le_of_lt (Nat.sub_le _ _) seed.valid)

section
variable (memory : Remembers seed last false t)
include memory

private theorem signed (inside : seed.InRange identifier) (later : rank last ≤ rank identifier) :
    Remembers seed identifier false (t.setLastKey identifier) where
  options := memory.options
  lastKey := rfl
  parentPublicKey := memory.parentPublicKey
  endIdentifier := memory.endIdentifier
  size := memory.size
  keys := by
    intro i key found unwiped
    refine memory.keys i key found ?_
    rw [isWiped, Bool.false_or, Bool.eq_false_iff, ne_eq, lt_iff] at unwiped ⊢
    omega
  lastWipe := .inr (memory.rank_lastWipe_lt inside later)

theorem signed_start (first : rank last ≤ rank seed.options.startKeyIdentifier) :
    (seed.stored last false).saveKeyIdentifier seed.options.startKeyIdentifier =
        seed.stored seed.options.startKeyIdentifier false ∧
      Remembers seed seed.options.startKeyIdentifier false
        (t.setLastKey seed.options.startKeyIdentifier) := by
  have inside : seed.InRange seed.options.startKeyIdentifier := ⟨Nat.le_refl _, seed.ordered⟩
  refine ⟨?_, memory.signed inside first⟩
  unfold stored KeyStorage.saveKeyIdentifier
  rw [changeAt_congr fun i index => ?_]
  rw [TreeSeed.length_entries] at index
  have position := rank_index seed i
  have := seed.ordered
  rw [isWiped, isWiped, Bool.eq_iff_iff, Bool.false_or, Bool.false_or, lt_iff,
    lt_iff, position]
  rw [inside.rank_eq] at first ⊢
  omega

theorem signed_later (inside : seed.InRange identifier)
    (notFirst : identifier ≠ seed.options.startKeyIdentifier)
    (later : rank last ≤ rank identifier) :
    ∃ tree', (t.setLastKey identifier).wipe
        ((seed.stored last false).saveKeyIdentifier identifier) (decrease identifier) =
          some (tree', seed.stored identifier false) ∧
      Remembers seed identifier false tree' := by
  have after := memory.signed inside later
  have positive : seed.options.startKeyIdentifier < identifier :=
    Nat.lt_of_le_of_ne inside.1 (Ne.symm notFirst)
  have prev : decrease identifier = identifier - 1 :=
    decrease_eq (by omega) (Nat.lt_of_le_of_lt inside.2 seed.valid)
  have insidePrevious : seed.InRange (identifier - 1) := by
    have := inside.2
    exact ⟨by omega, by omega⟩
  have range := inside.rank_eq
  have rangePrevious := insidePrevious.rank_eq
  have wipedBefore := memory.rank_lastWipe_lt inside later
  have ref : rank t.lastWipeKeyIdentifier ≤ rank (identifier - 1) := by omega
  have shrinks : rank (identifier - 1) < rank identifier := by omega
  have sizes : t.level.levelSignedPrivateKeys.length =
      ((seed.stored last false).saveKeyIdentifier identifier).entries.length := memory.sizes
  obtain ⟨tree', storage', done, wipes⟩ := after.wipe_spec sizes insidePrevious ref
  rw [prev]
  have whole : storage' = seed.stored identifier false := by
    refine wipes.storage.trans (stored_withEntries rfl fun i index => ?_)
    have position := rank_index seed i
    rw [seed.complete] at index
    rw [isWiped, isWiped, Bool.eq_iff_iff, Bool.false_or, Bool.false_or,
      Bool.or_eq_true, Bool.and_eq_true, lt_iff, lt_iff, decide_eq_true_iff, decide_eq_true_iff,
      position]
    -- what is not wiped now was wiped with the last identifier
    have caught : rank t.lastWipeKeyIdentifier < rank (identifier - 1) ∨
        rank last = rank identifier := by
      rcases memory.lastWipe with never | earlier
      · rw [never, rank, if_pos rfl]
        omega
      · omega
    change _ ∨ (rank t.lastWipeKeyIdentifier < _ ∧ _) ↔ _
    have := seed.ordered
    rcases caught with now | same
    · simp only [now, true_and]
      omega
    · omega
  refine ⟨_, whole ▸ done, ?_⟩
  obtain ⟨⟨keys, treeEq, long, kept⟩, _⟩ := wipes
  obtain rfl : tree' = _ := treeEq
  refine ⟨after.options, rfl, after.parentPublicKey, after.endIdentifier, long.trans after.size,
    fun i key found unwiped => ?_, .inr shrinks⟩
  have index : i < seed.privateKeys.length := (List.getElem?_eq_some_iff.mp found).1
  have position := rank_index seed i
  rw [seed.complete] at index
  refine (kept i ?_).trans (after.keys i key found unwiped)
  rw [isWiped, Bool.false_or, Bool.eq_false_iff, ne_eq, lt_iff, position] at unwiped
  rw [Bool.and_eq_false_iff]
  right
  rw [decide_eq_false_iff_not]
  have := seed.ordered
  omega

end

end Remembers

end BitxorCore.Voting
