/- GID: State/AccountState
   anchors: [src/bitxorcore/state, src/bitxorcore/model]
   digest: Account balances are credited with a stored sum and debited with a check. -/

import BitxorCore.Library.FiniteMap
import BitxorCore.Types
import Mathlib.Data.List.TakeWhile

set_option autoImplicit false
set_option relaxedAutoImplicit false

namespace BitxorCore.State
open Library.FiniteMap

abbrev TokenId := BitVec 64

/-- What a 64-bit unsigned integer keeps of a number stored in it. -/
def store64 (n : Nat) : Nat := n % 2 ^ 64

theorem store64_of_lt {n : Nat} (fits : n < 2 ^ 64) : store64 n = n := Nat.mod_eq_of_lt fits

/-- Balances by token; the entry of a token not held is absent. -/
abbrev AccountBalances := Map TokenId Nat

namespace AccountBalances

variable (balances : AccountBalances)

def get (tokenId : TokenId) : Nat := (balances.lookup tokenId).getD 0

/-- Adds to a balance. The new balance is `store` of the sum, which nothing checks. -/
def credit (store : Nat → Nat) (balances : AccountBalances) (tokenId : TokenId)
    (amount : Nat) : AccountBalances :=
  if amount = 0 then balances
  else match balances.lookup tokenId with
    | none => balances.insert tokenId amount
    | some balance => balances.insert tokenId (store (balance + amount))

/-- Takes from a balance, and fails when the balance is smaller. -/
def debit (tokenId : TokenId) (amount : Nat) : Option AccountBalances :=
  if amount = 0 then some balances
  else match balances.lookup tokenId with
    | none => none
    | some balance =>
      if balance < amount then none
      else if balance - amount = 0 then some (balances.erase tokenId)
      else some (balances.insert tokenId (balance - amount))

variable (balances : AccountBalances) (tokenId other : TokenId)

private theorem get_insert (amount : Nat) :
    get (balances.insert tokenId amount) other =
      if other = tokenId then amount else get balances other := by
  unfold get
  rw [lookup_insert_apply]
  split <;> rfl

private theorem get_erase :
    get (balances.erase tokenId) other = if other = tokenId then 0 else get balances other := by
  unfold get
  rw [lookup_erase_apply]
  split <;> rfl

variable {balances : AccountBalances} {tokenId : TokenId}

private theorem get_eq_of_lookup {balance : Nat}
    (found : balances.lookup tokenId = some balance) : get balances tokenId = balance := by
  rw [get, found, Option.getD_some]

private theorem get_eq_zero_of_lookup
    (absent : balances.lookup tokenId = none) : get balances tokenId = 0 := by
  rw [get, absent, Option.getD_none]

theorem get_credit {store : Nat → Nat}
    {amount : Nat} (exact : store (get balances tokenId + amount) = get balances tokenId + amount)
    (other : TokenId) :
    get (credit store balances tokenId amount) other =
      get balances other + if other = tokenId then amount else 0 := by
  unfold credit
  split
  · simp [*]
  · cases found : balances.lookup tokenId with
    | none =>
      rw [get_insert]
      split
      · simp [*, get_eq_zero_of_lookup found]
      · simp
    | some balance =>
      rw [get_eq_of_lookup found] at exact
      rw [get_insert, exact]
      split
      · simp [*, get_eq_of_lookup found]
      · simp

theorem get_debit {after : AccountBalances} {amount : Nat}
    (done : debit balances tokenId amount = some after) :
    amount ≤ get balances tokenId ∧ ∀ other,
      get after other = get balances other - if other = tokenId then amount else 0 := by
  unfold debit at done
  split at done
  · cases done
    simp [*]
  · cases found : balances.lookup tokenId with
    | none => simp [found] at done
    | some balance =>
      simp only [found] at done
      rw [get_eq_of_lookup found]
      split at done
      · cases done
      · refine ⟨by omega, fun other => ?_⟩
        split at done
        · cases done
          rw [get_erase]
          split
          · simp [*, get_eq_of_lookup found]
          · simp
        · cases done
          rw [get_insert]
          split
          · simp [*, get_eq_of_lookup found]
          · simp

end AccountBalances

inductive AccountType where
  | unlinked
  | main
  | remote
  | remoteUnlinked
  deriving DecidableEq, Repr

/-- State of an account. Its address is the key it is stored under. -/
structure AccountState where
  addressHeight : Nat
  publicKey : Key
  publicKeyHeight : Nat
  accountType : AccountType
  linkedPublicKey : Key
  balances : AccountBalances
  deriving DecidableEq

def AccountState.ofAddressHeight (addressHeight : Nat) : AccountState where
  addressHeight
  publicKey := 0
  publicKeyHeight := 0
  accountType := .unlinked
  linkedPublicKey := 0
  balances := ∅

def areLinked (lhs rhs : AccountState) : Bool :=
  lhs.linkedPublicKey == rhs.publicKey && rhs.linkedPublicKey == lhs.publicKey

/-- Whether the two accounts are a properly linked remote and main account. -/
def requireLinkedRemoteAndMainAccounts (remoteAccountState mainAccountState : AccountState) :
    Bool :=
  remoteAccountState.accountType == .remote && mainAccountState.accountType == .main &&
    areLinked mainAccountState remoteAccountState

open List

abbrev FinalizationEpoch := BitVec 32

structure PinnedVotingKey where
  votingKey : BitVec 256
  startEpoch : FinalizationEpoch
  endEpoch : FinalizationEpoch
  deriving DecidableEq

abbrev PublicKeyAccessor := Option Key

namespace PublicKeyAccessor

variable (accessor : PublicKeyAccessor)

def get : Key := accessor.getD 0

def isSet : Bool := accessor.any (· != 0)

/-- Throws unless the key is unset. -/
def set (key : Key) : Option PublicKeyAccessor :=
  if accessor.isSome then none else some (some key)

end PublicKeyAccessor

abbrev VotingKeysAccessor := List PinnedVotingKey

namespace VotingKeysAccessor

def containsEpoch (key : PinnedVotingKey) (epoch : FinalizationEpoch) : Bool :=
  decide (key.startEpoch ≤ epoch) && decide (epoch ≤ key.endEpoch)

def overlaps (key existingKey : PinnedVotingKey) : Bool :=
  containsEpoch key existingKey.startEpoch || containsEpoch key existingKey.endEpoch ||
    containsEpoch existingKey key.startEpoch

variable (keys : VotingKeysAccessor)

/-- Inserts a key before the first one that starts after its end. Throws if it overlaps another. -/
def add (key : PinnedVotingKey) : Option VotingKeysAccessor :=
  if keys.any (overlaps key) then none
  else
    let isLater := fun existingKey : PinnedVotingKey => decide (key.endEpoch < existingKey.startEpoch)
    some (keys.takeWhile (!isLater ·) ++ key :: keys.dropWhile (!isLater ·))

def remove (key : PinnedVotingKey) : VotingKeysAccessor :=
  keys.erase key

def contains (epoch : FinalizationEpoch) : Option Nat :=
  keys.findIdx? (containsEpoch · epoch)

def upperBound : FinalizationEpoch :=
  (keys.getLast?.map (·.endEpoch)).getD 0

inductive Operation where
  | add (key : PinnedVotingKey)
  | remove (key : PinnedVotingKey)

/-- An operation; one that throws changes nothing. -/
def apply : Operation → VotingKeysAccessor
  | .add key => (keys.add key).getD keys
  | .remove key => keys.remove key

def run (ops : List Operation) : VotingKeysAccessor := ops.foldl apply []

def Operation.Forward : Operation → Prop
  | .add key => key.startEpoch ≤ key.endEpoch
  | .remove _ => True

/-- Keys that do not end before they start, each before the next one. -/
structure Sorted (keys : VotingKeysAccessor) : Prop where
  forward : ∀ key ∈ keys, key.startEpoch ≤ key.endEpoch
  ascends : keys.Pairwise fun former later => former.endEpoch < later.startEpoch

variable {keys next : VotingKeysAccessor} {key : PinnedVotingKey}

private theorem apart_of_not_overlaps {existingKey : PinnedVotingKey} (apart : ¬overlaps key existingKey) :
    existingKey.endEpoch < key.startEpoch ∨ key.endEpoch < existingKey.startEpoch := by
  simp only [overlaps, containsEpoch, Bool.or_eq_true, Bool.and_eq_true, decide_eq_true_iff] at apart
  bv_omega

private theorem add_eq_some (done : VotingKeysAccessor.add keys key = some next) :
    (∀ existing ∈ keys, ¬overlaps key existing) ∧ ∃ before after, keys = before ++ after ∧
      next = before ++ key :: after ∧
      (∀ existing ∈ before, ¬key.endEpoch < existing.startEpoch) ∧
      ∀ first ∈ after.head?, key.endEpoch < first.startEpoch := by
  unfold VotingKeysAccessor.add at done
  split at done
  · cases done
  · next apart =>
    cases done
    refine ⟨fun existing mem overlapping =>
      apart (any_eq_true.mpr ⟨existing, mem, overlapping⟩), _, _,
      (takeWhile_append_dropWhile ..).symm, rfl, ?_, ?_⟩
    · intro existing mem
      simpa using mem_takeWhile_imp mem
    · intro first head
      have stopped := head?_dropWhile_not
        (fun existing : PinnedVotingKey => !decide (key.endEpoch < existing.startEpoch)) keys
      rw [Option.mem_def.mp head] at stopped
      simpa using stopped

private theorem Sorted.add (sorted : keys.Sorted) (forward : key.startEpoch ≤ key.endEpoch)
    (done : VotingKeysAccessor.add keys key = some next) : next.Sorted := by
  obtain ⟨apart, before, after, rfl, rfl, notLater, later⟩ := add_eq_some done
  obtain ⟨sortedBefore, sortedAfter, across⟩ := pairwise_append.mp sorted.ascends
  refine ⟨?_, pairwise_append.mpr ⟨sortedBefore, ?_, ?_⟩⟩
  · intro existing mem
    rcases mem_append.mp mem with former | rest
    · exact sorted.forward existing (mem_append_left _ former)
    · rcases mem_cons.mp rest with rfl | behind
      · exact forward
      · exact sorted.forward existing (mem_append_right _ behind)
  · -- all that follow the first later key are later still
    refine pairwise_cons.mpr ⟨fun existing mem => ?_, sortedAfter⟩
    cases after with
    | nil => cases mem
    | cons first rest =>
      have start := later first rfl
      rcases mem_cons.mp mem with rfl | behind
      · exact start
      · have long := sorted.forward first (mem_append_right _ mem_cons_self)
        have next := rel_of_pairwise_cons sortedAfter behind
        bv_omega
  · intro former mem existing inRest
    have ends : former.endEpoch < key.startEpoch :=
      (apart_of_not_overlaps (apart former (mem_append_left _ mem))).resolve_right
        (notLater former mem)
    rcases mem_cons.mp inRest with rfl | behind
    · exact ends
    · exact across former mem existing behind

private theorem add_between {former later : VotingKeysAccessor}
    (forward : key.startEpoch ≤ key.endEpoch)
    (behind : ∀ existing ∈ former, existing.startEpoch ≤ existing.endEpoch ∧
      existing.endEpoch < key.startEpoch)
    (ahead : ∀ existing ∈ later, existing.startEpoch ≤ existing.endEpoch ∧
      key.endEpoch < existing.startEpoch) :
    VotingKeysAccessor.add (former ++ later) key = some (former ++ key :: later) := by
  have apart : ¬(former ++ later).any (overlaps key) := by
    intro overlapping
    obtain ⟨existing, mem, overlap⟩ := any_eq_true.mp overlapping
    simp only [overlaps, containsEpoch, Bool.or_eq_true, Bool.and_eq_true,
      decide_eq_true_iff] at overlap
    rcases mem_append.mp mem with mem | mem
    · obtain ⟨existingForward, before⟩ := behind existing mem
      bv_omega
    · obtain ⟨existingForward, after⟩ := ahead existing mem
      bv_omega
  have earlier : ∀ existing ∈ former, !decide (key.endEpoch < existing.startEpoch) := by grind
  rw [VotingKeysAccessor.add, if_neg apart]
  dsimp only
  rw [takeWhile_append_of_pos earlier, dropWhile_append_of_pos earlier]
  cases later with
  | nil => simp
  | cons first rest =>
    have stops := (ahead first mem_cons_self).2
    simp [stops]

theorem Sorted.foldlM_add (sorted : keys.Sorted) :
    keys.foldlM VotingKeysAccessor.add [] = some keys := by
  suffices steps : ∀ (former rest : VotingKeysAccessor), (former ++ rest).Sorted →
      rest.foldlM VotingKeysAccessor.add former = some (former ++ rest) from steps [] keys sorted
  intro former rest
  induction rest generalizing former with
  | nil => simp
  | cons key rest ih =>
    intro whole
    have added : VotingKeysAccessor.add former key = some (former ++ [key]) := by
      have placed := @add_between key former [] (whole.forward key (by simp))
      rw [append_nil] at placed
      refine placed (fun existing mem => ?_) (by simp)
      exact ⟨whole.forward existing (by simp [mem]),
        (pairwise_append.mp whole.ascends).2.2 existing mem key mem_cons_self⟩
    rw [foldlM_cons, added]
    simpa using ih (former ++ [key]) (by simpa using whole)

theorem sorted_run {ops : List Operation}
    (forward : ∀ op ∈ ops, op.Forward) : (run ops).Sorted := by
  refine foldlRecOn (motive := Sorted) ops apply ⟨by simp, List.Pairwise.nil⟩ ?_
  intro keys sorted op mem
  have forwardOne := forward op mem
  cases op with
  | add key =>
    rw [apply]
    cases done : VotingKeysAccessor.add keys key with
    | none => exact sorted
    | some next => exact sorted.add forwardOne done
  | remove key =>
    exact ⟨fun existing mem => sorted.forward existing (mem_of_mem_erase mem),
      sorted.ascends.sublist erase_sublist⟩

private theorem Sorted.contains_eq_some (sorted : keys.Sorted) (epoch : FinalizationEpoch)
    (index : Nat) : keys.contains epoch = some index ↔
      ∃ key, keys[index]? = some key ∧ containsEpoch key epoch := by
  rw [contains, findIdx?_eq_some_iff_getElem]
  constructor
  · rintro ⟨inside, here, -⟩
    exact ⟨_, getElem?_eq_getElem inside, here⟩
  · rintro ⟨key, found, here⟩
    obtain ⟨inside, rfl⟩ := List.getElem?_eq_some_iff.mp found
    refine ⟨inside, here, fun former before there => ?_⟩
    -- the earlier range ends before this one starts
    have apart := pairwise_iff_getElem.mp sorted.ascends former index (by omega) inside before
    simp only [containsEpoch, Bool.and_eq_true, decide_eq_true_iff] at here there
    bv_omega

private theorem Sorted.le_upperBound (sorted : keys.Sorted) (mem : key ∈ keys) :
    key.endEpoch ≤ keys.upperBound ∧ ∃ last ∈ keys, last.endEpoch = keys.upperBound := by
  obtain ⟨former, last, rfl⟩ := (eq_nil_or_concat' keys).resolve_left (ne_nil_of_mem mem)
  have bound : upperBound (former ++ [last]) = last.endEpoch := by simp [upperBound]
  refine ⟨?_, last, by simp, bound.symm⟩
  rw [bound]
  rcases mem_append.mp mem with earlier | latest
  · have apart := (pairwise_append.mp sorted.ascends).2.2 key earlier last mem_cons_self
    have forward := sorted.forward last (by simp)
    bv_omega
  · rw [mem_singleton.mp latest]
    exact BitVec.le_refl _

private theorem add_eq_none_iff (forward : key.startEpoch ≤ key.endEpoch)
    (all : ∀ existing ∈ keys, existing.startEpoch ≤ existing.endEpoch) :
    VotingKeysAccessor.add keys key = none ↔
      ∃ existing ∈ keys, ∃ epoch, containsEpoch key epoch ∧ containsEpoch existing epoch := by
  have throws : VotingKeysAccessor.add keys key = none ↔ keys.any (overlaps key) := by
    unfold VotingKeysAccessor.add
    split <;> simp_all
  rw [throws, any_eq_true]
  refine exists_congr fun existing => and_congr_right fun mem => ⟨fun overlap => ?_, ?_⟩
  · -- one of the two ranges starts within the other
    have existingForward := all existing mem
    simp only [overlaps, containsEpoch, Bool.or_eq_true, Bool.and_eq_true,
      decide_eq_true_iff] at overlap ⊢
    by_cases later : key.startEpoch ≤ existing.startEpoch
    · exact ⟨existing.startEpoch, by bv_omega, by bv_omega⟩
    · exact ⟨key.startEpoch, by bv_omega, by bv_omega⟩
  · rintro ⟨epoch, here, there⟩
    by_contra apart
    simp only [containsEpoch, Bool.and_eq_true, decide_eq_true_iff] at here there
    rcases apart_of_not_overlaps apart with before | after
    · bv_omega
    · bv_omega

private theorem remove_of_add (forward : key.startEpoch ≤ key.endEpoch)
    (done : VotingKeysAccessor.add keys key = some next) : next.remove key = keys := by
  obtain ⟨apart, before, after, rfl, rfl, -, -⟩ := add_eq_some done
  have fresh : key ∉ before := by
    intro mem
    refine apart key (mem_append_left _ mem) ?_
    simp [overlaps, containsEpoch, forward]
  rw [remove, erase_append_right _ fresh, erase_cons_head]

private theorem Sorted.add_of_remove (sorted : keys.Sorted) (mem : key ∈ keys) :
    VotingKeysAccessor.add (keys.remove key) key = some keys := by
  obtain ⟨former, later, rfl⟩ := append_of_mem mem
  obtain ⟨-, ascendsLater, across⟩ := pairwise_append.mp sorted.ascends
  have forward := sorted.forward key mem
  have fresh : key ∉ former := by
    intro again
    have apart := across key again key mem_cons_self
    bv_omega
  rw [remove, erase_append_right _ fresh, erase_cons_head]
  refine add_between forward (fun existing before => ?_) fun existing after => ?_
  · exact ⟨sorted.forward existing (by simp [before]), across existing before key mem_cons_self⟩
  · exact ⟨sorted.forward existing (by simp [after]), rel_of_pairwise_cons ascendsLater after⟩

/-- Voting keys stay ordered and disjoint, are found by epoch, and can be put back. -/
theorem votingKeys_exact {ops : List Operation} (forward : ∀ op ∈ ops, op.Forward) :
    (run ops).Sorted ∧
    (∀ epoch index, (run ops).contains epoch = some index ↔
      ∃ key, (run ops)[index]? = some key ∧ containsEpoch key epoch) ∧
    (∀ epoch, (run ops).contains epoch = none ↔ ∀ key ∈ run ops, ¬containsEpoch key epoch) ∧
    (∀ key ∈ run ops, key.endEpoch ≤ (run ops).upperBound ∧
      ∃ last ∈ run ops, last.endEpoch = (run ops).upperBound) ∧
    (∀ key : PinnedVotingKey, key.startEpoch ≤ key.endEpoch →
      ((run ops).add key = none ↔
        ∃ existing ∈ run ops, ∃ epoch, containsEpoch key epoch ∧ containsEpoch existing epoch) ∧
      ∀ next, (run ops).add key = some next → next.remove key = run ops) ∧
    ∀ key ∈ run ops, VotingKeysAccessor.add ((run ops).remove key) key = some (run ops) := by
  have sorted := sorted_run forward
  refine ⟨sorted, sorted.contains_eq_some, fun epoch => by simp [contains],
    fun key => sorted.le_upperBound, fun key keyForward => ?_, fun key => sorted.add_of_remove⟩
  exact ⟨add_eq_none_iff keyForward sorted.forward, fun next => remove_of_add keyForward⟩

theorem votingKeys_exact_two :
    contains (run [.add ⟨1, 4, 6⟩, .add ⟨2, 1, 3⟩, .add ⟨3, 3, 4⟩]) 4 = some 1 ∧
    VotingKeysAccessor.add (remove (run [.add ⟨1, 4, 6⟩, .add ⟨2, 1, 3⟩]) ⟨2, 1, 3⟩) ⟨2, 1, 3⟩ =
      some (run [.add ⟨1, 4, 6⟩, .add ⟨2, 1, 3⟩]) := by
  refine ⟨((votingKeys_exact ?_).2.1 4 1).mpr ⟨⟨1, 4, 6⟩, rfl, rfl⟩,
    (votingKeys_exact ?_).2.2.2.2.2 _ (by decide)⟩
  · simp [Operation.Forward]
  · simp [Operation.Forward]

end VotingKeysAccessor

structure AccountPublicKeys where
  linked : PublicKeyAccessor
  node : PublicKeyAccessor
  vrf : PublicKeyAccessor
  voting : VotingKeysAccessor
  deriving DecidableEq

namespace AccountPublicKeys

def create : AccountPublicKeys := ⟨none, none, none, []⟩

def mask (keys : AccountPublicKeys) : BitVec 8 :=
  (if keys.linked.isSet then 1 else 0) ||| (if keys.node.isSet then 2 else 0) |||
    (if keys.vrf.isSet then 4 else 0)

end AccountPublicKeys

end BitxorCore.State
