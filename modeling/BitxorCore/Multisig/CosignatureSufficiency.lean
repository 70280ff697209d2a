/- GID: Multisig/CosignatureSufficiency
   anchors: [plugins/txes/multisig]
   digest: Whether cosigners suffice for an aggregate depends on eligible cosigners only, and more
     of them do not harm. -/

import BitxorCore.Multisig.MultisigGraph

set_option autoImplicit false
set_option relaxedAutoImplicit false

namespace BitxorCore.Multisig
open Library Library.FiniteMap Library.PartialFold State Option Finset

inductive OperationType where
  | normal
  | removal
  | max
  deriving DecidableEq

/-- What the validators read of an embedded transaction: its signer, the numbers of additions and
deletions if it modifies a multisig account, and further accounts that have to cosign. -/
structure EmbeddedTransaction (K U : Type) where
  signerPublicKey : K
  modification : Option (BitVec 8 × BitVec 8)
  additionalRequiredCosignatories : List U

def getOperationType {K U : Type} (tx : EmbeddedTransaction K U) : OperationType :=
  match tx.modification with
  | none => .normal
  | some (addressAdditionsCount, addressDeletionsCount) =>
    if addressDeletionsCount ≠ 0 then
      if addressAdditionsCount ≠ 0 then .max else .removal
    else .normal

def getMinRequiredCosignatories (multisigEntry : MultisigEntry) : OperationType → BitVec 32
  | .max =>
    if multisigEntry.minRemoval < multisigEntry.minApproval then multisigEntry.minApproval
    else multisigEntry.minRemoval
  | .removal => multisigEntry.minRemoval
  | .normal => multisigEntry.minApproval

section Checkers
variable (cache : MultisigCache)

/-- An account without cosignatories has to cosign itself, any other one needs enough of its
cosignatories. The source recurses without a bound; here the check fails when it goes deeper than
`fuel`. Approvers are as many as cosignatories at most, of which there are fewer than `2 ^ 32`. -/
def isSatisfied (cosignatories : Finset Address) (operationType : OperationType) :
    ℕ → Address → Option Bool
  | 0, _ => none
  | fuel + 1, address =>
    match cache.lookup address with
    | none => some (decide (address ∈ cosignatories))
    | some multisigEntry =>
      if multisigEntry.cosignatoryAddresses = ∅ then some (decide (address ∈ cosignatories))
      else
        (multisigEntry.cosignatoryAddresses.fold (map₂ fun count more : ℕ => count + more)
          (some 0) fun cosignatoryAddress =>
            (isSatisfied cosignatories operationType fuel cosignatoryAddress).map Bool.toNat).map
          fun numApprovers =>
            decide ((getMinRequiredCosignatories multisigEntry operationType).toNat ≤ numApprovers)

def findEligibleCosignatories : ℕ → Address → Option (Finset Address)
  | 0, _ => none
  | fuel + 1, address =>
    match cache.lookup address with
    | none => some {address}
    | some multisigEntry =>
      if multisigEntry.cosignatoryAddresses = ∅ then some {address}
      else
        multisigEntry.cosignatoryAddresses.fold
          (map₂ fun found others : Finset Address => found ∪ others) (some ∅)
          (findEligibleCosignatories fuel)

variable {K U : Type} (toAddress : K → Address) (resolve : U → Address)

def findRequiredAddresses (tx : EmbeddedTransaction K U) : Finset Address :=
  insert (toAddress tx.signerPublicKey)
    (tx.additionalRequiredCosignatories.map resolve).toFinset

def hasSufficientCosignatories (fuel : ℕ) (cosignatories : Finset Address)
    (tx : EmbeddedTransaction K U) : Option Bool :=
  (findRequiredAddresses toAddress resolve tx).fold (map₂ (· && ·)) (some true)
    (isSatisfied cache cosignatories (getOperationType tx) fuel)

/-- The signers of the aggregate and of its cosignatures suffice for each embedded transaction. -/
def areSufficient [DecidableEq K] (fuel : ℕ) (txs : List (EmbeddedTransaction K U))
    (cosigners : Finset K) : Option Bool :=
  foldList (· && ·) true
    (hasSufficientCosignatories cache toAddress resolve fuel (cosigners.image toAddress))
    txs

def findAllEligible (fuel : ℕ) (txs : List (EmbeddedTransaction K U)) : Option (Finset Address) :=
  foldList (· ∪ ·) ∅
    (fun tx => foldList (· ∪ ·) ∅ (findEligibleCosignatories cache fuel)
      (toAddress tx.signerPublicKey :: tx.additionalRequiredCosignatories.map resolve))
    txs

/-- The cosigners that are marked as eligible for some embedded transaction. -/
def eligibleCosigners [DecidableEq K] (fuel : ℕ) (txs : List (EmbeddedTransaction K U))
    (cosigners : Finset K) : Option (Finset K) :=
  (findAllEligible cache toAddress resolve fuel txs).map fun eligible =>
    cosigners.filter fun cosigner => toAddress cosigner ∈ eligible

end Checkers

/-- No account is, over any number of levels, a cosignatory of itself. -/
def Acyclic (cache : MultisigCache) : Prop :=
  ∀ address, ¬ Relation.TransGen (HasCosignatory cache) address address

def IsMultisig (cache : MultisigCache) (address : Address) : Prop :=
  ∃ cosignatory, HasCosignatory cache address cosignatory

variable {cache : MultisigCache}

private theorem Acyclic.walksWithin (acyclic : Acyclic cache) :
    WalksWithin (HasCosignatory cache) (count cache) := by
  refine walksWithin_of_acyclic acyclic fun address next linked => ?_
  obtain ⟨entry, found, _⟩ := linked
  exact Finmap.mem_keys.mpr (Finmap.mem_of_lookup_eq_some found)

/-- Walks along cosignatories that start at an address are shorter than the fuel. -/
def Shallow (cache : MultisigCache) (fuel : ℕ) (address : Address) : Prop :=
  ∀ n last, Walk (HasCosignatory cache) n address last → n < fuel

variable {fuel : ℕ}

private theorem Shallow.cosignatory {address cosignatory : Address}
    (shallow : Shallow cache (fuel + 1) address)
    (linked : HasCosignatory cache address cosignatory) :
    Shallow cache fuel cosignatory :=
  fun n last walk => Nat.lt_of_succ_lt_succ (shallow (n + 1) last (.cons linked walk))

variable {address : Address}

private theorem Shallow.not_zero : ¬ Shallow cache 0 address :=
  fun shallow => absurd (shallow 0 address (.nil address)) (Nat.lt_irrefl 0)

private theorem Shallow.isSome_isSatisfied
    (shallow : Shallow cache fuel address) (cosignatories : Finset Address)
    (operationType : OperationType) :
    (isSatisfied cache cosignatories operationType fuel address).isSome := by
  induction fuel generalizing address with
  | zero => exact absurd shallow Shallow.not_zero
  | succ fuel ih =>
    rw [isSatisfied]
    cases found : cache.lookup address with
    | none => rfl
    | some entry =>
      dsimp only
      split
      · rfl
      · rw [isSome_map]
        refine isSome_fold fun cosignatory mem => ?_
        rw [isSome_map]
        exact ih (shallow.cosignatory ⟨entry, found, mem⟩)

private theorem Shallow.isSome_findEligibleCosignatories (shallow : Shallow cache fuel address) :
    (findEligibleCosignatories cache fuel address).isSome := by
  induction fuel generalizing address with
  | zero => exact absurd shallow Shallow.not_zero
  | succ fuel ih =>
    rw [findEligibleCosignatories]
    cases found : cache.lookup address with
    | none => rfl
    | some entry =>
      dsimp only
      split
      · rfl
      · exact isSome_fold fun cosignatory mem =>
          ih (shallow.cosignatory ⟨entry, found, mem⟩)

private theorem not_isMultisig_of_lookup_none
    (missing : cache.lookup address = none) : ¬ IsMultisig cache address := by
  rintro ⟨cosignatory, entry, found, _⟩
  rw [missing] at found
  cases found

private theorem not_isMultisig_of_empty {entry : MultisigEntry}
    (found : cache.lookup address = some entry) (empty : entry.cosignatoryAddresses = ∅) :
    ¬ IsMultisig cache address := by
  rintro ⟨cosignatory, other, foundToo, mem⟩
  obtain rfl := some_inj.mp (found.symm.trans foundToo)
  exact notMem_empty cosignatory (empty ▸ mem)

variable {fuel : ℕ} {address : Address} {eligible fewer more : Finset Address}
  {operationType : OperationType}

/-- A recursion over an account and its cosignatories: the account is plain, with nobody but itself
eligible, or all eligible addresses come from cosignatories. -/
private theorem findEligibleCosignatories_cases
    (found : findEligibleCosignatories cache (fuel + 1) address = some eligible) :
    (eligible = {address} ∧ ¬ IsMultisig cache address ∧ ∀ cosignatories operationType,
          isSatisfied cache cosignatories operationType (fuel + 1) address =
            some (decide (address ∈ cosignatories))) ∨
      ∃ entry, cache.lookup address = some entry ∧ entry.cosignatoryAddresses.fold
          (map₂ fun found others : Finset Address => found ∪ others) (some ∅)
          (findEligibleCosignatories cache fuel) = some eligible ∧
        ∀ cosignatories operationType,
          isSatisfied cache cosignatories operationType (fuel + 1) address =
            (entry.cosignatoryAddresses.fold (map₂ fun count more : ℕ => count + more)
              (some 0) fun cosignatory => (isSatisfied cache cosignatories operationType fuel
                cosignatory).map Bool.toNat).map
              fun numApprovers => decide
                ((getMinRequiredCosignatories entry operationType).toNat ≤ numApprovers) := by
  rw [findEligibleCosignatories] at found
  cases known : cache.lookup address with
  | none =>
    rw [known] at found
    refine .inl ⟨(some_inj.mp found).symm, not_isMultisig_of_lookup_none known, ?_⟩
    intro cosignatories operationType
    rw [isSatisfied, known]
  | some entry =>
    rw [known] at found
    dsimp only at found
    by_cases empty : entry.cosignatoryAddresses = ∅
    · rw [if_pos empty] at found
      refine .inl ⟨(some_inj.mp found).symm, not_isMultisig_of_empty known empty, ?_⟩
      intro cosignatories operationType
      rw [isSatisfied, known]
      exact if_pos empty
    · rw [if_neg empty] at found
      refine .inr ⟨entry, rfl, found, ?_⟩
      intro cosignatories operationType
      rw [isSatisfied, known]
      exact if_neg empty

private theorem union_plain (found others _more _rest : Finset Address)
    (first : ∀ mem ∈ found, ¬ IsMultisig cache mem)
    (second : ∀ mem ∈ others, ¬ IsMultisig cache mem) :
    ∀ mem ∈ found ∪ others, ¬ IsMultisig cache mem :=
  fun mem inside => (mem_union.mp inside).elim (first mem) (second mem)

section
variable (found : findEligibleCosignatories cache fuel address = some eligible)
include found

private theorem not_isMultisig_of_mem_eligible : ∀ mem ∈ eligible, ¬ IsMultisig cache mem := by
  induction fuel generalizing address eligible with
  | zero => cases found
  | succ fuel ih =>
    rcases findEligibleCosignatories_cases found with ⟨rfl, plain, _⟩ | ⟨entry, _, folded, _⟩
    · simp_all
    · exact rel_fold (r := fun found _ => ∀ mem ∈ found, ¬ IsMultisig cache mem)
        (fun mem inside => absurd inside (notMem_empty mem)) union_plain
        (fun _ _ _ _ foundIt _ => ih foundIt) folded folded

private theorem isSatisfied_of_eligible {first second : Bool}
    (within : ∀ mem ∈ eligible, mem ∈ fewer → mem ∈ more)
    (satisfied : isSatisfied cache fewer operationType fuel address = some first)
    (satisfiedToo : isSatisfied cache more operationType fuel address = some second) :
    first ≤ second := by
  induction fuel generalizing address eligible first second with
  | zero => cases found
  | succ fuel ih =>
    rcases findEligibleCosignatories_cases found with ⟨rfl, _, plain⟩ |
      ⟨entry, _, folded, recursion⟩
    · rw [plain] at satisfied satisfiedToo
      obtain rfl := some_inj.mp satisfied
      obtain rfl := some_inj.mp satisfiedToo
      intro inFewer
      exact decide_eq_true (within address (mem_singleton_self _)
        (of_decide_eq_true inFewer))
    · rw [recursion] at satisfied satisfiedToo
      obtain ⟨approvers, counted, rfl⟩ := map_eq_some_iff.mp satisfied
      obtain ⟨approversToo, countedToo, rfl⟩ := map_eq_some_iff.mp satisfiedToo
      have eachEligible : ∀ cosignatory ∈ entry.cosignatoryAddresses, ∃ part,
          findEligibleCosignatories cache fuel cosignatory = some part ∧ part ⊆ eligible :=
        exists_of_fold (fun _ _ => subset_union_left)
          (fun _ _ _ below => below.trans subset_union_right) folded
      have atLeast : approvers ≤ approversToo := by
        refine rel_fold (Nat.le_refl 0) (fun _ _ _ _ => Nat.add_le_add) ?_ counted countedToo
        intro cosignatory mem x y foundX foundY
        obtain ⟨one, isOne, rfl⟩ := map_eq_some_iff.mp foundX
        obtain ⟨two, isTwo, rfl⟩ := map_eq_some_iff.mp foundY
        obtain ⟨part, foundPart, below⟩ := eachEligible cosignatory mem
        exact Bool.toNat_le_toNat (ih foundPart
          (fun other inside => within other (below inside)) isOne isTwo)
      intro enough
      exact decide_eq_true (le_trans (of_decide_eq_true enough) atLeast)

end

section Aggregates
variable {K U : Type} {toAddress : K → Address} {resolve : U → Address}
  {txs : List (EmbeddedTransaction K U)}

variable {tx : EmbeddedTransaction K U}

private theorem findEligibleCosignatories_of_findAllEligible
    (found : findAllEligible cache toAddress resolve fuel txs = some eligible) (mem : tx ∈ txs)
    (required : address ∈ findRequiredAddresses toAddress resolve tx) :
    ∃ part, findEligibleCosignatories cache fuel address = some part ∧ part ⊆ eligible := by
  have left : ∀ part others : Finset Address, part ⊆ part ∪ others := fun _ _ => subset_union_left
  have right : ∀ part whole more : Finset Address, part ⊆ whole → part ⊆ more ∪ whole :=
    fun _ _ _ below => below.trans subset_union_right
  obtain ⟨ofTransaction, foundOne, below⟩ := exists_of_foldList left right found tx mem
  obtain ⟨part, foundPart, belowOne⟩ := exists_of_foldList left right foundOne address
    (by rwa [findRequiredAddresses, mem_insert, List.mem_toFinset, ← List.mem_cons] at required)
  exact ⟨part, foundPart, belowOne.trans below⟩

private theorem and_le_and (x y z w : Bool) (first : x ≤ z) (second : y ≤ w) :
    (x && y) ≤ (z && w) :=
  inf_le_inf first second

variable [DecidableEq K] {cosigners others : Finset K}

section
variable (found : findAllEligible cache toAddress resolve fuel txs = some eligible)
include found

private theorem areSufficient_of_eligible
    (within : ∀ mem ∈ eligible, mem ∈ cosigners.image toAddress →
      mem ∈ others.image toAddress) {first second : Bool}
    (sufficient : areSufficient cache toAddress resolve fuel txs cosigners = some first)
    (sufficientToo : areSufficient cache toAddress resolve fuel txs others = some second) :
    first ≤ second := by
  refine rel_foldList le_rfl and_le_and ?_ sufficient sufficientToo
  intro tx mem x y foundX foundY
  refine rel_fold le_rfl and_le_and ?_ foundX foundY
  intro address required isOne isTwo satisfied satisfiedToo
  obtain ⟨part, foundPart, below⟩ := findEligibleCosignatories_of_findAllEligible found mem required
  exact isSatisfied_of_eligible foundPart (fun other inside => within other (below inside))
    satisfied satisfiedToo

private theorem areSufficient_congr
    (same : ∀ mem ∈ eligible, mem ∈ cosigners.image toAddress ↔ mem ∈ others.image toAddress)
    (returns : ∀ cosigners : Finset K,
      (areSufficient cache toAddress resolve fuel txs cosigners).isSome) :
    areSufficient cache toAddress resolve fuel txs cosigners =
      areSufficient cache toAddress resolve fuel txs others := by
  obtain ⟨first, isFirst⟩ := isSome_iff_exists.mp (returns cosigners)
  obtain ⟨second, isSecond⟩ := isSome_iff_exists.mp (returns others)
  have forth := areSufficient_of_eligible found (fun mem inside => (same mem inside).mp)
    isFirst isSecond
  have back := areSufficient_of_eligible found (fun mem inside => (same mem inside).mpr)
    isSecond isFirst
  rw [isFirst, isSecond, le_antisymm forth back]

end

section
variable (acyclic : Acyclic cache) (enough : count cache < fuel)
include acyclic enough

private theorem Acyclic.shallow (address : Address) : Shallow cache fuel address :=
  fun n last walk => Nat.lt_of_le_of_lt (acyclic.walksWithin n address last walk) enough

private theorem Acyclic.isSome_areSufficient (cosigners : Finset K) :
    (areSufficient cache toAddress resolve fuel txs cosigners).isSome :=
  isSome_foldList fun _ _ => isSome_fold fun address _ =>
    (acyclic.shallow enough address).isSome_isSatisfied _ _

omit [DecidableEq K] in
private theorem Acyclic.isSome_findAllEligible :
    (findAllEligible cache toAddress resolve fuel txs).isSome :=
  isSome_foldList fun _ _ => isSome_foldList fun address _ =>
    (acyclic.shallow enough address).isSome_findEligibleCosignatories

end

omit [DecidableEq K] in
private theorem not_isMultisig_of_mem_findAllEligible
    (found : findAllEligible cache toAddress resolve fuel txs = some eligible) :
    ∀ mem ∈ eligible, ¬ IsMultisig cache mem := by
  have none : ∀ mem ∈ (∅ : Finset Address), ¬ IsMultisig cache mem :=
    fun mem inside => absurd inside (notMem_empty mem)
  refine rel_foldList (r := fun found _ => ∀ mem ∈ found, ¬ IsMultisig cache mem)
    none union_plain (fun _ _ _ _ foundOne _ => ?_) found found
  exact rel_foldList (r := fun found _ => ∀ mem ∈ found, ¬ IsMultisig cache mem)
    none union_plain (fun _ _ _ _ foundIt _ => not_isMultisig_of_mem_eligible foundIt) foundOne
    foundOne

/-- In an acyclic cache both recursions return. More cosigners are sufficient if fewer are, the
cosigners reported eligible are as sufficient as all, and so are those without the key of a multisig
account. -/
theorem sufficiency_of_acyclic (cache : MultisigCache) (acyclic : Acyclic cache)
    (toAddress : K → Address) (resolve : U → Address)
    (txs : List (EmbeddedTransaction K U)) (fuel : ℕ) (enough : count cache < fuel) :
    (∀ cosigners : Finset K, ∃ sufficient,
      areSufficient cache toAddress resolve fuel txs cosigners = some sufficient) ∧
    (∀ fewer more : Finset K, fewer ⊆ more →
      areSufficient cache toAddress resolve fuel txs fewer = some true →
      areSufficient cache toAddress resolve fuel txs more = some true) ∧
    (∀ cosigners : Finset K, ∃ eligible,
      eligibleCosigners cache toAddress resolve fuel txs cosigners = some eligible ∧
      areSufficient cache toAddress resolve fuel txs cosigners =
        areSufficient cache toAddress resolve fuel txs eligible) ∧
    ∀ (cosigners : Finset K) (key : K), IsMultisig cache (toAddress key) →
      areSufficient cache toAddress resolve fuel txs (cosigners.erase key) =
        areSufficient cache toAddress resolve fuel txs cosigners := by
  have returns : ∀ cosigners : Finset K,
      (areSufficient cache toAddress resolve fuel txs cosigners).isSome :=
    acyclic.isSome_areSufficient enough
  have some : (findAllEligible cache toAddress resolve fuel txs).isSome :=
    acyclic.isSome_findAllEligible enough
  obtain ⟨eligible, found⟩ := isSome_iff_exists.mp some
  refine ⟨fun cosigners => isSome_iff_exists.mp (returns cosigners), ?_, ?_, ?_⟩
  · intro fewer more subset sufficient
    obtain ⟨result, isResult⟩ := isSome_iff_exists.mp (returns more)
    have atLeast := areSufficient_of_eligible found
      (fun _ _ inside => image_subset_image subset inside) sufficient isResult
    rw [isResult, top_le_iff.mp atLeast]
    rfl
  · intro cosigners
    refine ⟨_, by rw [eligibleCosigners, found]; rfl, areSufficient_congr found ?_ returns⟩
    intro mem inside
    constructor
    · grind
    · exact fun among => image_subset_image (filter_subset _ _) among
  · intro cosigners key multisig
    refine areSufficient_congr found (fun mem inside => ?_) returns
    constructor
    · exact fun among => image_subset_image (erase_subset _ _) among
    · intro among
      obtain ⟨cosigner, isCosigner, rfl⟩ := mem_image.mp among
      have other : cosigner ≠ key := by
        rintro rfl
        exact not_isMultisig_of_mem_findAllEligible found _ inside multisig
      exact mem_image.mpr ⟨cosigner, mem_erase.mpr ⟨other, isCosigner⟩, rfl⟩

end Aggregates

/-- Account 9 with cosignatories 1 and 2, both of which have to approve. -/
def twoOfTwo : MultisigCache := (∅ : MultisigCache).insert 9 ⟨{1, 2}, 2, 1, ∅⟩

private theorem twoOfTwo_edges {address cosignatory : Address}
    (linked : HasCosignatory twoOfTwo address cosignatory) :
    address = 9 ∧ cosignatory ≠ 9 := by
  obtain ⟨entry, found, mem⟩ := linked
  rw [twoOfTwo, lookup_insert_apply] at found
  split at found
  · next here =>
    obtain rfl := some_inj.mp found
    refine ⟨here, ?_⟩
    rintro rfl
    exact absurd mem (by decide)
  · cases found

private theorem acyclic_twoOfTwo : Acyclic twoOfTwo := by
  intro address cycle
  obtain ⟨next, first, _⟩ := Relation.TransGen.head'_iff.mp cycle
  obtain ⟨prev, _, last⟩ := Relation.TransGen.tail'_iff.mp cycle
  exact (twoOfTwo_edges last).2 (twoOfTwo_edges first).1

theorem sufficiency_of_acyclic_twoOfTwo :
    areSufficient twoOfTwo (id : Address → Address) (id : Address → Address) 2
        [⟨9, none, []⟩] {1, 2, 3, 9} = some true ∧
      areSufficient twoOfTwo (id : Address → Address) (id : Address → Address) 2
        [⟨9, none, []⟩] {1, 9} = some false := by
  obtain ⟨_, more, _, without⟩ := sufficiency_of_acyclic twoOfTwo acyclic_twoOfTwo
    (id : Address → Address) (id : Address → Address) [⟨9, none, []⟩] 2 (by decide +kernel)
  constructor
  · exact more {1, 2} _ (by decide) (by decide +kernel)
  · rw [← without {1, 9} 9 ⟨1, _, Finmap.lookup_insert _, by decide⟩]
    decide +kernel

end BitxorCore.Multisig
