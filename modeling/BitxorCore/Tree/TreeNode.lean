/- GID: Tree/TreeNode
   anchors: [src/bitxorcore/tree]
   digest: Packed nibble paths with an odd or even start behave as lists of nibbles. -/

import BitxorCore.Library.PathTrie
import Mathlib.Data.Finset.Card
import Mathlib.Data.Fintype.Basic
import Mathlib.Data.Nat.Bitwise
import Mathlib.Tactic.Ring

set_option autoImplicit false
set_option relaxedAutoImplicit false

namespace BitxorCore.Tree
open List

open Library.PathTrie (firstDiff)

abbrev Nibble := Fin 16

/-- `(byte & 0xF0) >> 4` -/
def highNibble (byte : UInt8) : Nibble := Fin.ofNat 16 (byte.toNat / 16)

/-- `byte & 0x0F` -/
def lowNibble (byte : UInt8) : Nibble := Fin.ofNat 16 (byte.toNat % 16)

/-- The nibble at a position of a byte string, the high nibble of a byte first. -/
def nibbleOf (bytes : List UInt8) (index : Nat) : Nibble :=
  let byte := bytes.getD (index / 2) 0
  if index % 2 = 0 then highNibble byte else lowNibble byte

variable (offset size : Nat)

/-- Bytes covered by `size` nibbles that start at nibble `offset`. -/
def calculateByteSize : Nat :=
  size / 2 + if offset % 2 = 0 ∧ size % 2 = 0 then 0 else 1

/-- A path of `size` nibbles packed into bytes; `adjustment` tracks an odd or even
starting nibble. -/
structure TreeNodePath where
  size : Nat
  adjustment : Nat
  path : List UInt8
  wf : adjustment + size ≤ 2 * path.length
  deriving DecidableEq

private theorem calculateByteSize_bound :
    offset % 2 + size ≤ 2 * calculateByteSize offset size := by
  unfold calculateByteSize
  split <;> omega

namespace TreeNodePath

def default : TreeNodePath := ⟨0, 0, [], by simp⟩

def ofKey (key : List UInt8) : TreeNodePath := ⟨2 * key.length, 0, key, by simp⟩

/-- The private constructor: `size` nibbles of `path` starting at nibble `offset`.
Nothing is copied for an empty path. -/
def ofRange (path : List UInt8) (offset size : Nat) : TreeNodePath where
  size := size
  adjustment := offset % 2
  path := if size = 0 then replicate (calculateByteSize offset size) 0
    else (path.drop (offset / 2)).takeD (calculateByteSize offset size) 0
  wf := by
    have bound := calculateByteSize_bound offset size
    split <;> simpa using bound

variable (p : TreeNodePath)

def empty : Bool := p.size == 0

def nibbleAt (index : Nat) : Nibble := nibbleOf p.path (index + p.adjustment)

def subpath (offset size : Nat) : TreeNodePath :=
  ofRange p.path (offset + p.adjustment) size

/-- The one argument overload of `subpath`. -/
def subpathFrom (offset : Nat) : TreeNodePath :=
  p.subpath offset (p.size - offset)

end TreeNodePath

open TreeNodePath

/-- The scan of `FindFirstDifferenceIndex`; the bound is the size of the left path. -/
def findFirstDifferenceFrom (lhs rhs : TreeNodePath) : Nat → Nat → Nat
  | 0, index => index
  | remaining + 1, index =>
      if index < lhs.size ∧ index < rhs.size ∧ lhs.nibbleAt index = rhs.nibbleAt index then
        findFirstDifferenceFrom lhs rhs remaining (index + 1)
      else index

def findFirstDifferenceIndex (lhs rhs : TreeNodePath) : Nat :=
  findFirstDifferenceFrom lhs rhs lhs.size 0

/-- `operator==` of two paths. -/
def TreeNodePath.equals (lhs rhs : TreeNodePath) : Bool :=
  lhs.size == rhs.size && lhs.size == findFirstDifferenceIndex lhs rhs

structure JoinBuilder where
  index : Nat
  path : List UInt8

namespace JoinBuilder

def create (size : Nat) : JoinBuilder := ⟨0, replicate size 0⟩

def addNibble (b : JoinBuilder) (nibble : Nibble) : JoinBuilder where
  index := b.index + 1
  path := b.path.set (b.index / 2) (b.path.getD (b.index / 2) 0 |||
    if b.index % 2 = 0 then UInt8.ofNat (nibble.val * 16) else UInt8.ofNat nibble.val)

def addNibbles (b : JoinBuilder) (p : TreeNodePath) : JoinBuilder :=
  (range p.size).foldl (fun acc i => acc.addNibble (p.nibbleAt i)) b

end JoinBuilder

open JoinBuilder (addNibble create)

def TreeNodePath.join (lhs : TreeNodePath) (nibble : Nibble) (rhs : TreeNodePath) : TreeNodePath :=
  let joinedPathSize := lhs.size + 1 + rhs.size
  let builder := create ((joinedPathSize + 1) / 2)
  let builder := ((builder.addNibbles lhs).addNibble nibble).addNibbles rhs
  ofRange builder.path 0 joinedPathSize

def TreeNodePath.nibbles (p : TreeNodePath) : List Nibble := (range p.size).map p.nibbleAt

variable (p : TreeNodePath)

@[simp] theorem length_nibbles : p.nibbles.length = p.size := by
  simp [TreeNodePath.nibbles]

@[simp] theorem getElem_nibbles (i : Nat) (bound : i < p.nibbles.length) :
    p.nibbles[i] = p.nibbleAt i := by
  simp [TreeNodePath.nibbles]

@[simp] theorem size_subpath : (p.subpath offset size).size = size := rfl

@[simp] theorem size_subpathFrom (offset : Nat) :
    (p.subpathFrom offset).size = p.size - offset := rfl

variable (lhs rhs : TreeNodePath)

@[simp] theorem size_join (n : Nibble) :
    (lhs.join n rhs).size = lhs.size + 1 + rhs.size := rfl

theorem empty_iff : p.empty = true ↔ p.nibbles = [] := by
  rw [eq_nil_iff_length_eq_zero, length_nibbles]
  simp [TreeNodePath.empty]

private theorem getD_takeD (l : List UInt8) (n i : Nat) (bound : i < n) :
    (l.takeD n 0).getD i 0 = l.getD i 0 := by
  induction n generalizing l i with
  | zero => omega
  | succ n ih =>
    cases i with
    | zero => cases l <;> rfl
    | succ i =>
      have tail := ih l.tail i (by omega)
      cases l with
      | nil => simp [takeD]
      | cons a l => simpa [takeD] using tail

private theorem getD_drop_zero (l : List UInt8) (n i : Nat) :
    (l.drop n).getD i 0 = l.getD (n + i) 0 := by
  simp [getD_eq_getElem?_getD]

private theorem nibbleAt_ofRange (path : List UInt8) (offset size i : Nat) (bound : i < size) :
    (ofRange path offset size).nibbleAt i = nibbleOf path (offset + i) := by
  have room := calculateByteSize_bound offset size
  have half : offset / 2 + (i + offset % 2) / 2 = (offset + i) / 2 := by omega
  have odd : (i + offset % 2) % 2 = (offset + i) % 2 := by omega
  have inside : (i + offset % 2) / 2 < calculateByteSize offset size := by omega
  have filled : size ≠ 0 := by omega
  simp only [nibbleAt, ofRange, nibbleOf, if_neg filled, odd]
  rw [getD_takeD _ _ _ inside, getD_drop_zero, half]

private theorem nibbleAt_subpath (offset size i : Nat) (bound : i < size) :
    (p.subpath offset size).nibbleAt i = p.nibbleAt (offset + i) := by
  rw [subpath, nibbleAt_ofRange _ _ _ _ bound, nibbleAt]
  congr 1
  omega

@[simp] theorem nibbles_subpath {offset size : Nat} (room : offset + size ≤ p.size) :
    (p.subpath offset size).nibbles = (p.nibbles.drop offset).take size := by
  apply ext_getElem
  · simp only [length_nibbles, size_subpath, length_take, length_drop]
    omega
  · simp_all [length_nibbles, size_subpath, nibbleAt_subpath]

theorem nibbles_subpathFrom {offset : Nat} (room : offset ≤ p.size) :
    (p.subpathFrom offset).nibbles = p.nibbles.drop offset := by
  rw [subpathFrom, nibbles_subpath p (by omega), take_of_length_le]
  simp

private theorem findFirstDifferenceFrom_spec (remaining index : Nat)
    (bound : lhs.size ≤ index + remaining) :
    findFirstDifferenceFrom lhs rhs remaining index =
      index + firstDiff (lhs.nibbles.drop index) (rhs.nibbles.drop index) := by
  induction remaining generalizing index with
  | zero =>
    rw [drop_of_length_le (by simpa using bound)]
    simp [findFirstDifferenceFrom, firstDiff]
  | succ remaining ih =>
    unfold findFirstDifferenceFrom
    by_cases inLeft : index < lhs.size
    · by_cases inRight : index < rhs.size
      · rw [drop_eq_getElem_cons (by simpa using inLeft : index < lhs.nibbles.length),
          drop_eq_getElem_cons (by simpa using inRight : index < rhs.nibbles.length)]
        by_cases same : lhs.nibbleAt index = rhs.nibbleAt index
        · rw [if_pos ⟨inLeft, inRight, same⟩, ih (index + 1) (by omega)]
          simp only [getElem_nibbles, firstDiff, same, ↓reduceIte]
          omega
        · rw [if_neg (by simp [same])]
          simp [firstDiff, same]
      · rw [if_neg (by simp [inRight]), drop_of_length_le
          (by simpa using inRight : rhs.nibbles.length ≤ index)]
        cases lhs.nibbles.drop index <;> simp [firstDiff]
    · rw [if_neg (by simp [inLeft]), drop_of_length_le
        (by simpa using inLeft : lhs.nibbles.length ≤ index)]
      simp [firstDiff]

theorem findFirstDifferenceIndex_eq :
    findFirstDifferenceIndex lhs rhs = firstDiff lhs.nibbles rhs.nibbles := by
  rw [findFirstDifferenceIndex, findFirstDifferenceFrom_spec lhs rhs lhs.size 0 (by simp)]
  simp

private theorem firstDiff_eq_length {A : Type} [DecidableEq A] {p k : List A}
    (full : firstDiff p k = p.length) : p <+: k := by
  induction p generalizing k with
  | nil => exact nil_prefix
  | cons a p ih =>
    cases k with
    | nil => simp [firstDiff] at full
    | cons b k =>
      simp only [firstDiff] at full
      split at full
      · simp_all
      · simp at full

theorem equals_iff : lhs.equals rhs = true ↔ lhs.nibbles = rhs.nibbles := by
  simp only [TreeNodePath.equals, findFirstDifferenceIndex_eq, Bool.and_eq_true, beq_iff_eq]
  constructor
  · rintro ⟨size, full⟩
    have pre := firstDiff_eq_length (p := lhs.nibbles) (k := rhs.nibbles) (by simpa using full.symm)
    exact pre.eq_of_length (by simpa using size)
  · intro same
    have size := congrArg length same
    have whole := Library.PathTrie.firstDiff_append_right lhs.nibbles []
    rw [append_nil] at whole
    rw [← same, whole]
    simpa using size

/-! Joining. -/

private theorem nibbleOf_set (bytes : List UInt8) (slot j : Nat) (byte : UInt8)
    (room : slot < bytes.length) :
    nibbleOf (bytes.set slot byte) j =
      if j / 2 = slot then (if j % 2 = 0 then highNibble byte else lowNibble byte)
      else nibbleOf bytes j := by
  by_cases here : j / 2 = slot
  · subst here
    simp [nibbleOf, getD_eq_getElem?_getD, room]
  · simp [nibbleOf, getD_eq_getElem?_getD, getElem?_set_ne (Ne.symm here), here]

variable (byte : UInt8)

private theorem nibbles_or (m : Nat) (small : m < 256) :
    (byte ||| UInt8.ofNat m).toNat / 16 = byte.toNat / 16 ||| m / 16 ∧
      (byte ||| UInt8.ofNat m).toNat % 16 = byte.toNat % 16 ||| m % 16 := by
  have value : (UInt8.ofNat m).toNat = m := by simpa using small
  rw [UInt8.toNat_or, value]
  exact ⟨Nat.or_div_two_pow (n := 4), Nat.or_mod_two_pow (n := 4)⟩

private theorem highNibble_val : (highNibble byte).val = byte.toNat / 16 := by
  have bound := byte.toNat_lt
  simp only [highNibble, Fin.val_ofNat]
  omega

private theorem lowNibble_val : (lowNibble byte).val = byte.toNat % 16 := by
  simp only [lowNibble, Fin.val_ofNat]
  omega

private theorem highNibble_or_shifted (n : Nibble) (clear : highNibble byte = 0) :
    highNibble (byte ||| UInt8.ofNat (n.val * 16)) = n ∧
      lowNibble (byte ||| UInt8.ofNat (n.val * 16)) = lowNibble byte := by
  have bound := n.isLt
  have parts := nibbles_or byte (n.val * 16) (by omega)
  have zero : byte.toNat / 16 = 0 := by simpa [highNibble_val] using congrArg Fin.val clear
  constructor
  · apply Fin.ext
    rw [highNibble_val, parts.1, zero]
    simp
  · apply Fin.ext
    rw [lowNibble_val, lowNibble_val, parts.2]
    simp

private theorem lowNibble_or (n : Nibble) (clear : lowNibble byte = 0) :
    lowNibble (byte ||| UInt8.ofNat n.val) = n ∧
      highNibble (byte ||| UInt8.ofNat n.val) = highNibble byte := by
  have bound := n.isLt
  have parts := nibbles_or byte n.val (by omega)
  have zero : byte.toNat % 16 = 0 := by simpa [lowNibble_val] using congrArg Fin.val clear
  constructor
  · apply Fin.ext
    rw [lowNibble_val, parts.2, zero]
    simp [Nat.mod_eq_of_lt bound]
  · apply Fin.ext
    rw [highNibble_val, highNibble_val, parts.1, Nat.div_eq_of_lt bound]
    simp

variable (b : JoinBuilder)

/-- The builder holds the nibbles added so far and zeroes behind them. -/
private def Holds (ns : List Nibble) : Prop :=
  b.index = ns.length ∧ ∀ j, nibbleOf b.path j = ns.getD j 0

private theorem holds_create (size : Nat) : Holds (create size) [] := by
  refine ⟨rfl, fun j => ?_⟩
  have zero : (replicate size (0 : UInt8)).getD (j / 2) 0 = 0 := by simp
  simp only [nibbleOf, create, zero]
  split <;> rfl

private theorem holds_addNibble {b : JoinBuilder} {ns : List Nibble} (holds : Holds b ns)
    (n : Nibble) (room : ns.length < 2 * b.path.length) :
    Holds (b.addNibble n) (ns ++ [n]) := by
  obtain ⟨index, content⟩ := holds
  refine ⟨by simp [addNibble, index], fun j => ?_⟩
  have slot : b.index / 2 < b.path.length := by omega
  -- the nibble being written is still zero
  have fresh : nibbleOf b.path b.index = 0 := by
    rw [content, index, getD_eq_default _ _ le_rfl]
  have appended : (ns ++ [n]).getD j 0 = if j = ns.length then n else ns.getD j 0 := by
    rcases Nat.lt_trichotomy j ns.length with inside | here | outside
    · rw [getD_append _ _ _ _ inside, if_neg (by omega)]
    · simp [here]
    · rw [if_neg (by omega), getD_eq_default ns _ (by omega),
        getD_eq_default (ns ++ [n]) _ (by rw [length_append, length_singleton]; omega)]
  rw [appended, ← content, addNibble, nibbleOf_set _ _ _ _ slot]
  by_cases even : b.index % 2 = 0
  · have clear : highNibble (b.path.getD (b.index / 2) 0) = 0 := by
      simpa [nibbleOf, even] using fresh
    obtain ⟨high, low⟩ := highNibble_or_shifted _ n clear
    simp only [even, ↓reduceIte, high, low]
    by_cases same : j / 2 = b.index / 2
    · by_cases parity : j % 2 = 0
      · rw [if_pos same, if_pos parity, if_pos (by omega)]
      · simp [same, parity, show j ≠ ns.length by omega, nibbleOf]
    · simp [same, show j ≠ ns.length by omega]
  · have clear : lowNibble (b.path.getD (b.index / 2) 0) = 0 := by
      simpa [nibbleOf, even] using fresh
    obtain ⟨low, high⟩ := lowNibble_or _ n clear
    simp only [even, ↓reduceIte, high, low]
    by_cases same : j / 2 = b.index / 2
    · by_cases parity : j % 2 = 0
      · simp [same, parity, show j ≠ ns.length by omega, nibbleOf]
      · rw [if_pos same, if_neg parity, if_pos (by omega)]
    · simp [same, show j ≠ ns.length by omega]

private theorem length_addNibble (n : Nibble) :
    (b.addNibble n).path.length = b.path.length := by
  simp [addNibble]

private theorem holds_addAll (l : List Nibble) {b : JoinBuilder} {ns : List Nibble}
    (holds : Holds b ns) (room : ns.length + l.length ≤ 2 * b.path.length) :
    Holds (l.foldl addNibble b) (ns ++ l) ∧
      (l.foldl addNibble b).path.length = b.path.length := by
  induction l generalizing b ns with
  | nil => exact ⟨by simpa using holds, rfl⟩
  | cons n l ih =>
    simp only [length_cons] at room
    have next := holds_addNibble holds n (by omega)
    have rest := ih next (by rw [length_addNibble]; simp; omega)
    rw [length_addNibble] at rest
    simpa using rest

private theorem addNibbles_eq (p : TreeNodePath) :
    b.addNibbles p = p.nibbles.foldl addNibble b := by
  rw [JoinBuilder.addNibbles, TreeNodePath.nibbles, foldl_map]

theorem nibbles_join (lhs : TreeNodePath) (n : Nibble) (rhs : TreeNodePath) :
    (lhs.join n rhs).nibbles = lhs.nibbles ++ n :: rhs.nibbles := by
  have room : 2 * (create ((lhs.size + 1 + rhs.size + 1) / 2)).path.length ≥
      lhs.size + 1 + rhs.size := by
    simp [create]
    omega
  obtain ⟨left, leftLength⟩ := holds_addAll lhs.nibbles
    (holds_create ((lhs.size + 1 + rhs.size + 1) / 2)) (by simp; omega)
  have middle := holds_addNibble left n (by rw [leftLength]; simp; omega)
  obtain ⟨-, content⟩ := (holds_addAll rhs.nibbles middle
    (by rw [length_addNibble, leftLength]; simp; omega)).1
  apply ext_getElem
  · simp only [length_nibbles, size_join, length_append, length_cons]
    omega
  · intro i inLeft inRight
    simp only [length_nibbles, size_join] at inLeft
    rw [getElem_nibbles, TreeNodePath.join, nibbleAt_ofRange _ _ _ _ inLeft, Nat.zero_add,
      addNibbles_eq, addNibbles_eq, content]
    simp only [nil_append, append_assoc, cons_append]
    rw [getD_eq_getElem _ _ inRight]

theorem nibbles_ofKey_injective : Function.Injective fun key => (ofKey key).nibbles := by
  intro a b same
  have size : a.length = b.length := by
    have sizes : (ofKey a).size = (ofKey b).size := by
      rw [← length_nibbles, ← length_nibbles]
      exact congrArg length same
    simp only [ofKey] at sizes
    omega
  apply ext_getElem size
  intro i left right
  have half : ∀ odd, odd < 2 → nibbleOf a (2 * i + odd) = nibbleOf b (2 * i + odd) := by
    intro odd small
    have boundA : 2 * i + odd < (ofKey a).nibbles.length := by
      rw [length_nibbles, ofKey]
      dsimp only
      omega
    have boundB : 2 * i + odd < (ofKey b).nibbles.length := by simp_all
    have nibble : (ofKey a).nibbles[2 * i + odd] = (ofKey b).nibbles[2 * i + odd] :=
      getElem_of_eq same boundA
    simpa [ofKey, nibbleAt] using nibble
  have high := congrArg Fin.val (half 0 (by omega))
  have low := congrArg Fin.val (half 1 (by omega))
  have index : (2 * i + 1) / 2 = i := by omega
  have odd : ¬ (2 * i + 1) % 2 = 0 := by omega
  simp only [nibbleOf, Nat.add_zero, Nat.mul_mod_right, ↓reduceIte, odd, index,
    Nat.mul_div_cancel_left i (show 0 < 2 by omega), getD_eq_getElem _ _ left,
    getD_eq_getElem _ _ right, highNibble_val, lowNibble_val] at high low
  apply UInt8.toNat_inj.mp
  omega

/-- The hash functions of leaf and branch nodes.  Both read a path only through its
nibbles. -/
structure NodeHasher (H : Type) where
  leaf : List Nibble → H → H
  branch : List Nibble → (Nibble → H) → H

/-- A tree node.  A slot of `linkedNodes` that holds `empty` is a null pointer: no caller
of `setLink` passes an empty node. -/
inductive TreeNode (H : Type) where
  | empty
  | leaf (path : TreeNodePath) (value : H)
  | branch (path : TreeNodePath) (links : Nibble → H) (linkedNodes : Nibble → TreeNode H)
      (linkSet : Nibble → Bool)

structure BranchTreeNode (H : Type) where
  path : TreeNodePath
  links : Nibble → H
  linkedNodes : Nibble → TreeNode H
  linkSet : Nibble → Bool

variable {H : Type}

namespace TreeNode

def ofBranch (b : BranchTreeNode H) : TreeNode H := .branch b.path b.links b.linkedNodes b.linkSet

def isEmpty : TreeNode H → Bool
  | .empty => true
  | _ => false

def path : TreeNode H → TreeNodePath
  | .empty => TreeNodePath.default
  | .leaf p _ => p
  | .branch p _ _ _ => p

/-- The node hash.  A link is hashed through its linked node when that is in memory.  The
value is recomputed here; the source caches it until a path or link changes. -/
def hash [Zero H] (hasher : NodeHasher H) : TreeNode H → H
  | .empty => 0
  | .leaf p v => hasher.leaf p.nibbles v
  | .branch p links linkedNodes _ => hasher.branch p.nibbles fun i =>
      if (linkedNodes i).isEmpty then links i else (linkedNodes i).hash hasher

/-- Replaces the path; the source throws for an empty node. -/
def setPath (p : TreeNodePath) : TreeNode H → Option (TreeNode H)
  | .empty => none
  | .leaf _ v => some (.leaf p v)
  | .branch _ links linkedNodes linkSet => some (.branch p links linkedNodes linkSet)

end TreeNode

namespace BranchTreeNode

def create [Zero H] (p : TreeNodePath) : BranchTreeNode H :=
  ⟨p, fun _ => 0, fun _ => .empty, fun _ => false⟩

variable (b : BranchTreeNode H)

def numLinks : Nat := (List.finRange 16).countP b.linkSet

def link [Zero H] (hasher : NodeHasher H) (b : BranchTreeNode H) (index : Nibble) : H :=
  if (b.linkedNodes index).isEmpty then b.links index else (b.linkedNodes index).hash hasher

def linkSetToUlong (linkSet : Nibble → Bool) : Nat :=
  ((List.finRange 16).map fun i => if linkSet i then 2 ^ i.val else 0).sum

def highestLinkIndex : Nibble :=
  ⟨Nat.log2 (linkSetToUlong b.linkSet) % 16, Nat.mod_lt _ (by decide)⟩

def setPath (p : TreeNodePath) : BranchTreeNode H := { b with path := p }

/-- The overload of `setLink` that takes a hash. -/
def setLinkHash (link : H) (index : Nibble) : BranchTreeNode H where
  path := b.path
  links := Function.update b.links index link
  linkedNodes := Function.update b.linkedNodes index .empty
  linkSet := Function.update b.linkSet index true

/-- The overload of `setLink` that takes a node; the stored hash of the slot stays. -/
def setLink (node : TreeNode H) (index : Nibble) : BranchTreeNode H where
  path := b.path
  links := b.links
  linkedNodes := Function.update b.linkedNodes index node
  linkSet := Function.update b.linkSet index true

def clearLink [Zero H] (b : BranchTreeNode H) (index : Nibble) : BranchTreeNode H :=
  let cleared := b.setLinkHash 0 index
  { cleared with linkSet := Function.update cleared.linkSet index false }

def compactLinks [Zero H] (hasher : NodeHasher H) (b : BranchTreeNode H) : BranchTreeNode H where
  path := b.path
  links := b.link hasher
  linkedNodes := fun _ => .empty
  linkSet := b.linkSet

end BranchTreeNode

variable (b : BranchTreeNode H)

@[simp] private theorem ofBranch_ne_empty : TreeNode.ofBranch b ≠ .empty := by
  simp [TreeNode.ofBranch]

theorem isEmpty_eq_false {node : TreeNode H} (present : node ≠ .empty) : node.isEmpty = false := by
  cases node with
  | empty => exact absurd rfl present
  | leaf p v => rfl
  | branch p links linkedNodes linkSet => rfl

theorem ofBranch_injective {b b' : BranchTreeNode H}
    (same : TreeNode.ofBranch b = TreeNode.ofBranch b') : b = b' := by
  cases b
  cases b'
  simpa [TreeNode.ofBranch] using same

private theorem countP_finRange (s : Nibble → Bool) :
    (List.finRange 16).countP s = (Finset.univ.filter fun i => s i = true).card := by
  have distinct := (List.nodup_finRange 16).filter s
  rw [List.countP_eq_length_filter, ← List.toFinset_card_of_nodup distinct]
  congr 1
  ext i
  simp

theorem highestLinkIndex_of_single (a : Nibble)
    (single : ∀ i, b.linkSet i = true ↔ i = a) : b.highestLinkIndex = a := by
  have shape : b.linkSet = fun i => decide (i = a) := by
    funext i
    rw [Bool.eq_iff_iff, single i]
    simp
  have table : ∀ a : Nibble,
      Nat.log2 (BranchTreeNode.linkSetToUlong fun i => decide (i = a)) % 16 = a.val := by
    decide
  apply Fin.ext
  simp only [BranchTreeNode.highestLinkIndex, shape, table a]

theorem numLinks_eq_one_iff : b.numLinks = 1 ↔ ∃ a, ∀ i, b.linkSet i = true ↔ i = a := by
  rw [BranchTreeNode.numLinks, countP_finRange, Finset.card_eq_one]
  simp only [Finset.ext_iff, Finset.mem_filter, Finset.mem_univ, true_and, Finset.mem_singleton]

end BitxorCore.Tree
