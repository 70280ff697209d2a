/- GID: Crypto/MerkleHashBuilder
   anchors: [src/bitxorcore/crypto/MerkleHashBuilder.cpp]
   digest: The in-place loops that build a merkle root, and the reduction they compute. -/

import Mathlib.Algebra.Group.Nat.Defs
import Mathlib.Data.List.GetD
import BitxorCore.Library.HashTree

set_option autoImplicit false
set_option relaxedAutoImplicit false

namespace BitxorCore.Crypto
open Library List

abbrev Byte := BitVec 8

abbrev HashBytes := { bytes : List Byte // bytes.length = 32 }

def HashBytes.zero : HashBytes := ⟨replicate 32 0, length_replicate⟩

def HashBytes.pair (left right : HashBytes) : List Byte := left.val ++ right.val

theorem HashBytes.pair_injective : Function.Injective2 HashBytes.pair := by
  intro left left' right right' same
  obtain ⟨lefts, rights⟩ := append_inj same (left.property.trans left'.property.symm)
  exact ⟨Subtype.ext lefts, Subtype.ext rights⟩

theorem HashBytes.length_pair (left right : HashBytes) : (pair left right).length = 64 := by
  rw [pair, length_append, left.property, right.property]

section Final

variable (sha3_256 : List Byte → HashBytes)

def hashPair (left right : HashBytes) : HashBytes := sha3_256 (HashBytes.pair left right)

/-- The inner loop of `Final`, from index `i` on: the hashes of the next level overwrite the
beginning of the vector. Returns the vector, what was consumed and the number of hashes, which is
raised when an odd last hash is duplicated. -/
def hashLevel (i numRemainingHashes : Nat) (hashes consumed : List HashBytes) :
    List HashBytes × List HashBytes × Nat :=
  if i < numRemainingHashes then
    if i + 1 < numRemainingHashes then
      let hash := hashPair sha3_256 (hashes.getD i .zero) (hashes.getD (i + 1) .zero)
      hashLevel (i + 2) numRemainingHashes (hashes.set (i / 2) hash) (consumed ++ [hash])
    else
      let hash := hashPair sha3_256 (hashes.getD i .zero) (hashes.getD i .zero)
      hashLevel (i + 2) (numRemainingHashes + 1) (hashes.set (i / 2) hash) (consumed ++ [hash])
  else (hashes, consumed, numRemainingHashes)
termination_by numRemainingHashes - i

private theorem hashLevel_halves (num : Nat) (hashes consumed : List HashBytes)
    (several : 1 < num) : (hashLevel sha3_256 0 num hashes consumed).2.2 / 2 < num := by
  have bound : ∀ i num hashes consumed,
      (hashLevel sha3_256 i num hashes consumed).2.2 ≤ num + 1 := by
    intro i num hashes consumed
    fun_induction hashLevel with
    | case1 i num hashes consumed _ _ hash ih => exact ih
    | case2 i num hashes consumed _ last hash ih =>
      refine Nat.le_of_eq ?_
      rw [hashLevel, if_neg (show ¬ i + 2 < num + 1 by omega)]
    | case3 i num hashes consumed => exact Nat.le_succ num
  have := bound 0 num hashes consumed
  omega

variable {hashes : List HashBytes}

private theorem drop_take_eq_cons {i num : Nat} (within : i < num) (fits : num ≤ hashes.length) :
    (hashes.take num).drop i = hashes.getD i .zero :: (hashes.take num).drop (i + 1) := by
  have inside : i < (hashes.take num).length := by
    rw [length_take]
    omega
  rw [drop_eq_getElem_cons inside, getElem_take,
    getD_eq_getElem _ _ (Nat.lt_of_lt_of_le within fits)]

private theorem take_set_succ {j : Nat} (inside : j < hashes.length)
    (hash : HashBytes) : (hashes.set j hash).take (j + 1) = hashes.take j ++ [hash] := by
  rw [take_succ_eq_append_getElem (by simpa using inside), getElem_set_self,
    take_set_of_le (Nat.le_refl j)]

/-- What the inner loop does from index `2 * j` on: the first `j` hashes are already of the next
level, those from `2 * j` on still of this one. -/
private theorem hashLevel_spec (num j : Nat) (hashes consumed : List HashBytes)
    (within : 2 * j ≤ num) (fits : num ≤ hashes.length) :
    ∃ next, hashLevel sha3_256 (2 * j) num hashes consumed =
        (next, consumed ++ pairUp (hashPair sha3_256) ((hashes.take num).drop (2 * j)),
          num + num % 2) ∧
      next.length = hashes.length ∧
      next.take ((num + 1) / 2) =
        hashes.take j ++ pairUp (hashPair sha3_256) ((hashes.take num).drop (2 * j)) := by
  induction left : num - 2 * j using Nat.strongRecOn generalizing j hashes consumed with
  | _ _ ih =>
    rw [hashLevel]
    by_cases more : 2 * j < num
    · have inside : j < hashes.length := by omega
      rw [if_pos more, drop_take_eq_cons more fits, Nat.mul_div_cancel_left j (by decide)]
      by_cases pair : 2 * j + 1 < num
      · rw [if_pos pair, drop_take_eq_cons pair fits, pairUp]
        generalize hashPair sha3_256 (hashes.getD (2 * j) .zero)
          (hashes.getD (2 * j + 1) .zero) = hash
        obtain ⟨next, run, long, content⟩ := ih _ (by omega) (j + 1) (hashes.set j hash)
          (consumed ++ [hash]) (by omega) (by rwa [length_set]) rfl
        -- the write at `j` is below what is still to be read
        have unread : ((hashes.set j hash).take num).drop (2 * (j + 1)) =
            (hashes.take num).drop (2 * j + 1 + 1) := by
          rw [take_set, drop_set_of_lt (by omega)]
          rfl
        rw [unread] at run content
        refine ⟨next, ?_, by rwa [length_set] at long, ?_⟩
        · rw [append_assoc] at run
          exact run
        · rw [content, take_set_succ inside, append_assoc]
          rfl
      · have last : num = 2 * j + 1 := by omega
        subst last
        rw [if_neg pair, hashLevel, if_neg (by omega), drop_take_self, pairUp]
        refine ⟨_, by rw [show (2 * j + 1) % 2 = 1 by omega], length_set, ?_⟩
        rw [show (2 * j + 1 + 1) / 2 = j + 1 by omega, take_set_succ inside]
    · have done : num = 2 * j := by omega
      subst done
      rw [if_neg more, drop_take_self, pairUp]
      refine ⟨hashes, by rw [append_nil, Nat.mul_mod_right, Nat.add_zero], rfl, ?_⟩
      rw [show (2 * j + 1) / 2 = j by omega, append_nil]

/-- The outer loop of `Final`. Returns the vector and what was consumed. -/
def hashLevels (numRemainingHashes : Nat) (hashes consumed : List HashBytes) :
    List HashBytes × List HashBytes :=
  if 1 < numRemainingHashes then
    -- padding is consumed before the next level overwrites the hashes
    let padding := if numRemainingHashes % 2 = 1 then
        [hashes.getD (numRemainingHashes - 1) .zero]
      else []
    let level := hashLevel sha3_256 0 numRemainingHashes hashes (consumed ++ padding)
    hashLevels (level.2.2 / 2) level.1 level.2.1
  else (hashes, consumed)
termination_by numRemainingHashes
decreasing_by
  exact hashLevel_halves _ _ _ _ ‹_›

/-- The hashes of a tree over `num` hashes when every odd level is padded. -/
def paddedSize (num : Nat) : Nat :=
  if 1 < num then num + num % 2 + paddedSize ((num + 1) / 2) else num
termination_by num

private theorem hashLevels_spec (num : Nat) (hashes consumed : List HashBytes)
    (positive : 0 < num) (fits : num ≤ hashes.length)
    (root : num = 1 → consumed.getLast? = some (hashes.getD 0 .zero)) :
    let built := hashLevels sha3_256 num hashes consumed
    reduceLevels (hashPair sha3_256) (hashes.take num) = some (built.1.getD 0 .zero) ∧
      built.2.length + num = consumed.length + paddedSize num ∧
      built.2.getLast? = some (built.1.getD 0 .zero) := by
  induction num using Nat.strongRecOn generalizing hashes consumed with
  | _ num ih =>
    have front := drop_take_eq_cons Nat.one_pos (Nat.le_trans positive fits)
    rw [drop_zero, drop_take_self] at front
    rw [hashLevels, paddedSize]
    by_cases several : 1 < num
    · rw [if_pos several, if_pos several]
      have paddings : (if num % 2 = 1 then [hashes.getD (num - 1) .zero] else []).length =
          num % 2 := by
        split <;> simp <;> omega
      generalize (if num % 2 = 1 then [hashes.getD (num - 1) .zero] else []) = padding at *
      obtain ⟨next, run, long, content⟩ := hashLevel_spec sha3_256 num 0 hashes
        (consumed ++ padding) (Nat.zero_le num) fits
      rw [Nat.mul_zero] at run
      rw [take_zero, nil_append, Nat.mul_zero, drop_zero] at content
      rw [drop_zero, ← content] at run
      have half : (num + num % 2) / 2 = (num + 1) / 2 := by omega
      have nextFits : (num + 1) / 2 ≤ next.length := by omega
      simp only [run, half]
      -- the last level is one hash: it is the first of the vector and the last one consumed
      have last : (num + 1) / 2 = 1 →
          (consumed ++ padding ++ next.take ((num + 1) / 2)).getLast? =
            some (next.getD 0 .zero) := by
        intro single
        have nextFront := drop_take_eq_cons Nat.one_pos (single ▸ nextFits)
        rw [drop_zero, drop_take_self] at nextFront
        rw [single, nextFront, getLast?_concat]
      obtain ⟨reduced, written, ends⟩ := ih _ (by omega) next _ (by omega) nextFits last
      refine ⟨?_, ?_, ends⟩
      · rw [← reduced, content]
        exact reduceLevels_pairUp _ (by rw [length_take]; omega)
      · rw [length_append, length_append, length_take] at written
        omega
    · have single : num = 1 := by omega
      subst single
      rw [if_neg several, if_neg several, front, reduceLevels]
      exact ⟨rfl, rfl, root rfl⟩

/-- The root, and everything given to the consumer: the levels with their padding. -/
def merkleFinal (hashes : List HashBytes) : HashBytes × List HashBytes :=
  if hashes.isEmpty then (.zero, [.zero])
  else
    let built := hashLevels sha3_256 hashes.length hashes hashes
    (built.1.getD 0 .zero, built.2)

end Final

structure MerkleHashBuilder where
  hashes : List HashBytes

namespace MerkleHashBuilder

def empty : MerkleHashBuilder := ⟨[]⟩

def update (builder : MerkleHashBuilder) (hash : HashBytes) : MerkleHashBuilder :=
  ⟨builder.hashes ++ [hash]⟩

/-- `final` with a hash to fill; nothing is consumed there. -/
def final (sha3_256 : List Byte → HashBytes) (builder : MerkleHashBuilder) : HashBytes :=
  (merkleFinal sha3_256 builder.hashes).1

/-- `final` with a vector to fill: everything that is consumed. -/
def finalTree (sha3_256 : List Byte → HashBytes) (builder : MerkleHashBuilder) : List HashBytes :=
  (merkleFinal sha3_256 builder.hashes).2

private theorem final_spec (sha3_256 : List Byte → HashBytes) (builder : MerkleHashBuilder) :
    builder.final sha3_256 = (reduceLevels (hashPair sha3_256) builder.hashes).getD .zero ∧
      (builder.finalTree sha3_256).length =
        paddedSize builder.hashes.length + (1 - builder.hashes.length) ∧
      (builder.finalTree sha3_256).getLast? = some (builder.final sha3_256) := by
  obtain ⟨hashes⟩ := builder
  unfold final finalTree merkleFinal
  cases hashes with
  | nil => simp [reduceLevels, paddedSize]
  | cons first rest =>
    obtain ⟨reduced, written, ends⟩ := hashLevels_spec sha3_256 (first :: rest).length
      (first :: rest) (first :: rest) (length_pos_iff.mpr (cons_ne_nil _ _)) (Nat.le_refl _)
      fun single => by rw [length_eq_one_iff.mp single |>.choose_spec]; rfl
    rw [take_length] at reduced
    rw [reduced]
    refine ⟨rfl, ?_, ends⟩
    change (hashLevels sha3_256 _ (first :: rest) (first :: rest)).2.length = _ + (1 - _)
    rw [length_cons] at written ⊢
    omega

theorem final_eq (sha3_256 : List Byte → HashBytes) (builder : MerkleHashBuilder) :
    builder.final sha3_256 = (reduceLevels (hashPair sha3_256) builder.hashes).getD .zero :=
  (final_spec sha3_256 builder).1

def treeSizeFrom (i size : Nat) : Nat :=
  if 1 < i then treeSizeFrom ((i + 1) / 2) (size + i) else size
termination_by i

/-- The size that is reserved for the tree: only the leaves are padded. -/
def treeSize (leafCount : Nat) : Nat :=
  let adjustedLeafCount :=
    if leafCount = 1 then 1 else if leafCount % 2 = 0 then leafCount else leafCount + 1
  let size := treeSizeFrom adjustedLeafCount 0
  if 2 ≤ size then size + 1 else 1

/-- The loop misses the padding of the levels it passes, so it is exact only where every level
below the top is even. -/
private theorem treeSizeFrom_spec (i size : Nat) (positive : 0 < i) :
    size ≤ treeSizeFrom i size ∧ treeSizeFrom i size + 1 ≤ size + paddedSize i ∧
      (treeSizeFrom i size + 1 = size + paddedSize i ↔ ∃ k, i = 2 ^ k) := by
  induction i using Nat.strongRecOn generalizing size with
  | _ i ih =>
    rw [treeSizeFrom, paddedSize]
    by_cases several : 1 < i
    · obtain ⟨grows, below, exactly⟩ := ih ((i + 1) / 2) (by omega) (size + i) (by omega)
      rw [if_pos several, if_pos several]
      refine ⟨by omega, by omega, ?_⟩
      constructor
      · intro same
        obtain ⟨k, power⟩ := exactly.mp (by omega)
        refine ⟨k + 1, ?_⟩
        rw [Nat.pow_succ]
        omega
      · rintro ⟨k, power⟩
        cases k with
        | zero => omega
        | succ k =>
          rw [Nat.pow_succ] at power
          have := exactly.mpr ⟨k, by omega⟩
          omega
    · have single : i = 1 := by omega
      subst single
      exact ⟨Nat.le_refl _, Nat.le_refl _, iff_of_true rfl ⟨0, rfl⟩⟩

/-- The last hash of the tree is the root, and the reserved size is the size of the tree exactly
when the level above the leaves has a power of two hashes. -/
theorem treeSize_eq_length_iff (sha3_256 : List Byte → HashBytes) (builder : MerkleHashBuilder) :
    (builder.finalTree sha3_256).getLast? = some (builder.final sha3_256) ∧
      (treeSize builder.hashes.length = (builder.finalTree sha3_256).length ↔
        builder.hashes = [] ∨ ∃ k, (builder.hashes.length + 1) / 2 = 2 ^ k) := by
  obtain ⟨-, written, ends⟩ := final_spec sha3_256 builder
  refine ⟨ends, ?_⟩
  rw [written, ← length_eq_zero_iff]
  generalize builder.hashes.length = n
  by_cases several : 1 < n
  · obtain ⟨grows, -, exactly⟩ := treeSizeFrom_spec ((n + 1) / 2) (n + n % 2) (by omega)
    have adjusted : (if n = 1 then 1 else if n % 2 = 0 then n else n + 1) = n + n % 2 := by
      split_ifs <;> omega
    have step : treeSizeFrom (n + n % 2) 0 = treeSizeFrom ((n + 1) / 2) (n + n % 2) := by
      rw [treeSizeFrom, if_pos (by omega), Nat.zero_add,
        show (n + n % 2 + 1) / 2 = (n + 1) / 2 by omega]
    unfold treeSize
    dsimp only
    rw [adjusted, step, if_pos (by omega), paddedSize, if_pos several, ← exactly]
    omega
  · obtain rfl | rfl : n = 0 ∨ n = 1 := by omega
    · exact iff_of_true (by simp [treeSize, treeSizeFrom, paddedSize]) (.inl rfl)
    · exact iff_of_true (by simp [treeSize, treeSizeFrom, paddedSize]) (.inr ⟨0, rfl⟩)

/-- Five hashes: the level of three above them is padded as well. -/
theorem treeSize_ne_length_five :
    let builder : MerkleHashBuilder := ⟨replicate 5 .zero⟩
    treeSize builder.hashes.length = 12 ∧
      (builder.finalTree fun _ => .zero).length = 13 := by
  refine ⟨by simp [treeSize, treeSizeFrom], ?_⟩
  rw [(final_spec _ _).2.1]
  simp [paddedSize]

end MerkleHashBuilder

end BitxorCore.Crypto
