/- GID: Tree/NodeEncoding
   anchors: [src/bitxorcore/tree/TreeNode.cpp]
   digest: The bytes hashed for a node determine it, so equal roots mean equal trees. -/

import BitxorCore.Crypto.MerkleHashBuilder
import BitxorCore.Library.Bytes
import BitxorCore.Tree.PatriciaTreeHistory
import Mathlib.Data.Fintype.Option

set_option autoImplicit false
set_option relaxedAutoImplicit false

namespace BitxorCore.Tree
open Crypto List PatriciaTree
open Library.PathTrie (Trie)

instance : Zero HashBytes := ⟨.zero⟩

/-- Two nibbles a byte; an odd last nibble is followed by a zero one. -/
def packNibbles : List Nibble → List Byte
  | high :: low :: rest => .ofNat 8 (high.val * 16 + low.val) :: packNibbles rest
  | [high] => [.ofNat 8 (high.val * 16)]
  | [] => []

/-- The leaf flag, and for an odd path the odd flag and the first nibble. -/
def keyPrefix (isLeaf : Bool) (first : Option Nibble) : Byte :=
  (if isLeaf then 0x20 else 0) ||| first.elim 0 fun nibble => 0x10 ||| .ofNat 8 nibble.val

/-- The loop of `UpdateEncodedKey`, which flushes a working buffer of eight bytes. -/
def updateEncodedKeyFrom (path : TreeNodePath) (i : Nat) (buffer : List Byte) : List Byte :=
  if i < path.size then
    let buffer := buffer ++ [.ofNat 8 ((path.nibbleAt i).val * 16 + (path.nibbleAt (i + 1)).val)]
    if buffer.length = 8 then buffer ++ updateEncodedKeyFrom path (i + 2) []
    else updateEncodedKeyFrom path (i + 2) buffer
  else buffer
termination_by path.size - i

def updateEncodedKey (path : TreeNodePath) (isLeaf : Bool) : List Byte :=
  if path.size % 2 = 1 then updateEncodedKeyFrom path 1 [keyPrefix isLeaf (path.nibbleAt 0)]
  else updateEncodedKeyFrom path 0 [keyPrefix isLeaf none]

def linkBytes (link : Nibble → HashBytes) : List Byte := (ofFn link).flatMap Subtype.val

/-- The bytes that are hashed for a node; an empty node is not hashed. -/
def TreeNode.preimage (hasher : NodeHasher HashBytes) : TreeNode HashBytes → List Byte
  | .empty => []
  | .leaf path value => updateEncodedKey path true ++ value.val
  | .branch path links linkedNodes linkSet => updateEncodedKey path false ++
      linkBytes (BranchTreeNode.link hasher ⟨path, links, linkedNodes, linkSet⟩)

def encodedKey (isLeaf : Bool) (nibbles : List Nibble) : List Byte :=
  if nibbles.length % 2 = 1 then keyPrefix isLeaf nibbles.head? :: packNibbles nibbles.tail
  else keyPrefix isLeaf none :: packNibbles nibbles

inductive NodeContent where
  | leaf (nibbles : List Nibble) (value : HashBytes)
  | branch (nibbles : List Nibble) (link : Nibble → HashBytes)

def NodeContent.bytes : NodeContent → List Byte
  | .leaf nibbles value => encodedKey true nibbles ++ value.val
  | .branch nibbles link => encodedKey false nibbles ++ linkBytes link

def sha3Hasher (sha3_256 : List Byte → HashBytes) : NodeHasher HashBytes where
  leaf nibbles value := sha3_256 (NodeContent.leaf nibbles value).bytes
  branch nibbles link := sha3_256 (NodeContent.branch nibbles link).bytes

/-- The kind, the nibbles and the value or link hashes of a node. -/
def TreeNode.content (hasher : NodeHasher HashBytes) : TreeNode HashBytes → Option NodeContent
  | .empty => none
  | .leaf path value => some (.leaf path.nibbles value)
  | .branch path links linkedNodes linkSet =>
      some (.branch path.nibbles (BranchTreeNode.link hasher ⟨path, links, linkedNodes, linkSet⟩))

private theorem updateEncodedKeyFrom_eq (path : TreeNodePath) (i : Nat) (buffer : List Byte)
    (even : (path.size - i) % 2 = 0) :
    updateEncodedKeyFrom path i buffer = buffer ++ packNibbles (path.nibbles.drop i) := by
  have two : ∀ i, i < path.size → (path.size - i) % 2 = 0 → path.nibbles.drop i =
      path.nibbleAt i :: path.nibbleAt (i + 1) :: path.nibbles.drop (i + 2) := by
    intro i more even
    rw [drop_eq_getElem_cons (by rw [length_nibbles]; omega),
      drop_eq_getElem_cons (by rw [length_nibbles]; omega), getElem_nibbles, getElem_nibbles]
  fun_induction updateEncodedKeyFrom path i buffer with
  | case1 i buffer more buffer' full ih =>
    rw [ih (by omega), two i more even, packNibbles, nil_append]
    exact append_assoc buffer _ _
  | case2 i buffer more buffer' room ih =>
    rw [ih (by omega), two i more even, packNibbles]
    exact append_assoc buffer _ _
  | case3 i buffer done =>
    rw [drop_of_length_le (by simpa using done), packNibbles, append_nil]

private theorem updateEncodedKey_eq (path : TreeNodePath) (isLeaf : Bool) :
    updateEncodedKey path isLeaf = encodedKey isLeaf path.nibbles := by
  rw [updateEncodedKey, encodedKey, length_nibbles]
  split
  · have first : path.nibbles.head? = some (path.nibbleAt 0) := by
      rw [head?_eq_getElem?, getElem?_eq_getElem (by rw [length_nibbles]; omega), getElem_nibbles]
    rw [updateEncodedKeyFrom_eq path 1 _ (by omega), drop_one, first]
    rfl
  · rw [updateEncodedKeyFrom_eq path 0 _ (by omega), drop_zero]
    rfl

private theorem keyPrefix_injective : ∀ isLeaf isLeaf' first first',
    keyPrefix isLeaf first = keyPrefix isLeaf' first' → isLeaf = isLeaf' ∧ first = first' := by
  decide

private theorem packNibbles_injective : ∀ {ns ns' : List Nibble}, ns.length = ns'.length →
    packNibbles ns = packNibbles ns' → ns = ns'
  | [], [], _, _ => rfl
  | [a], [b], _, same => by
    have value := congrArg BitVec.toNat (cons.inj same).1
    simp only [BitVec.toNat_ofNat] at value
    rw [show a = b from Fin.ext (by omega)]
  | a :: b :: rest, c :: d :: rest', size, same => by
    have value := congrArg BitVec.toNat (cons.inj same).1
    simp only [BitVec.toNat_ofNat] at value
    rw [show a = c from Fin.ext (by omega), show b = d from Fin.ext (by omega),
      packNibbles_injective (by simpa using size) (cons.inj same).2]

private theorem length_packNibbles (ns : List Nibble) :
    (packNibbles ns).length = (ns.length + 1) / 2 := by
  fun_induction packNibbles ns with
  | case1 high low rest ih => simp only [length_cons, ih]; omega
  | case2 high => simp
  | case3 => simp

private theorem encodedKey_append_injective {isLeaf isLeaf' : Bool} {ns ns' : List Nibble}
    {data data' : List Byte} (sizes : isLeaf = isLeaf' → data.length = data'.length)
    (same : encodedKey isLeaf ns ++ data = encodedKey isLeaf' ns' ++ data') :
    isLeaf = isLeaf' ∧ ns = ns' ∧ data = data' := by
  have parts : ∀ isLeaf (ns : List Nibble), ∃ first rest, encodedKey isLeaf ns =
      keyPrefix isLeaf first :: packNibbles rest ∧ ns = first.toList ++ rest ∧
        rest.length % 2 = 0 := by
    intro isLeaf ns
    unfold encodedKey
    split
    · cases ns with
      | nil => contradiction
      | cons first rest => exact ⟨some first, rest, rfl, rfl, by simp_all; omega⟩
    · exact ⟨none, ns, rfl, rfl, by omega⟩
  obtain ⟨first, rest, key, rfl, even⟩ := parts isLeaf ns
  obtain ⟨first', rest', key', rfl, even'⟩ := parts isLeaf' ns'
  rw [key, key', cons_append, cons_append] at same
  obtain ⟨rfl, rfl⟩ := keyPrefix_injective _ _ _ _ (cons.inj same).1
  obtain ⟨packed, rfl⟩ := append_inj' (cons.inj same).2 (sizes rfl)
  have halves := congrArg length packed
  rw [length_packNibbles, length_packNibbles] at halves
  exact ⟨rfl, by rw [packNibbles_injective (by omega) packed], rfl⟩

private theorem length_linkBytes (link : Nibble → HashBytes) : (linkBytes link).length = 512 := by
  rw [linkBytes, Library.Bytes.length_flatMap Subtype.property, length_ofFn]

private theorem linkBytes_injective : Function.Injective linkBytes := by
  intro link link' same
  refine ofFn_injective (Library.Bytes.flatMap_injective ?_ Subtype.property ?_ same)
  · decide
  · exact Subtype.val_injective

private theorem NodeContent.bytes_injective : Function.Injective bytes := by
  intro a b same
  cases a <;> cases b
  case leaf.leaf value _ value' =>
    obtain ⟨-, rfl, values⟩ := encodedKey_append_injective
      (fun _ => value.property.trans value'.property.symm) same
    rw [Subtype.ext values]
  case branch.branch =>
    obtain ⟨-, rfl, links⟩ := encodedKey_append_injective
      (fun _ => by rw [length_linkBytes, length_linkBytes]) same
    rw [linkBytes_injective links]
  all_goals cases (encodedKey_append_injective (by nofun) same).1

variable {hasher : NodeHasher HashBytes}

private theorem TreeNode.preimage_eq (node : TreeNode HashBytes) :
    node.preimage hasher = (node.content hasher).elim [] NodeContent.bytes := by
  cases node with
  | empty => rfl
  | leaf path value => rw [preimage, updateEncodedKey_eq]; rfl
  | branch path links linkedNodes linkSet => rw [preimage, updateEncodedKey_eq]; rfl

private theorem TreeNode.content_of_preimage {a b : TreeNode HashBytes}
    (present : a ≠ .empty) (present' : b ≠ .empty) (same : a.preimage hasher = b.preimage hasher) :
    a.content hasher = b.content hasher := by
  rw [preimage_eq, preimage_eq] at same
  cases a <;> cases b <;> first | contradiction |
    exact congrArg some (NodeContent.bytes_injective same)

variable {sha3_256 : List Byte → HashBytes} {inPlay : Set (List Byte)}

/-- The bytes hashed for the nodes of a trie are among the messages in play. -/
def HashedIn (sha3_256 : List Byte → HashBytes) (inPlay : Set (List Byte)) :
    Trie Nibble HashBytes → Prop
  | .empty => True
  | .leaf nibbles value => (NodeContent.leaf nibbles value).bytes ∈ inPlay
  | .branch nibbles child => (∀ i, HashedIn sha3_256 inPlay (child i)) ∧
      (NodeContent.branch nibbles fun i => trieHash (sha3Hasher sha3_256) (child i)).bytes ∈ inPlay

section
variable (free : Set.InjOn sha3_256 inPlay) (nonzero : ∀ message ∈ inPlay, sha3_256 message ≠ 0)
include free nonzero

private theorem eq_of_trieHash_eq {t t' : Trie Nibble HashBytes}
    (hashed : HashedIn sha3_256 inPlay t) (hashed' : HashedIn sha3_256 inPlay t')
    (same : trieHash (sha3Hasher sha3_256) t = trieHash (sha3Hasher sha3_256) t') : t = t' := by
  induction t generalizing t' with
  | empty =>
    cases t' with
    | empty => rfl
    | leaf nibbles value => exact absurd same.symm (nonzero _ hashed')
    | branch nibbles child => exact absurd same.symm (nonzero _ hashed'.2)
  | leaf nibbles value =>
    cases t' with
    | empty => exact absurd same (nonzero _ hashed)
    | leaf nibbles' value' =>
      cases NodeContent.bytes_injective (free hashed hashed' same)
      rfl
    | branch nibbles' child' => cases NodeContent.bytes_injective (free hashed hashed'.2 same)
  | branch nibbles child ih =>
    cases t' with
    | empty => exact absurd same (nonzero _ hashed.2)
    | leaf nibbles' value' => cases NodeContent.bytes_injective (free hashed.2 hashed' same)
    | branch nibbles' child' =>
      obtain ⟨rfl, links⟩ := NodeContent.branch.inj
        (NodeContent.bytes_injective (free hashed.2 hashed'.2 same))
      rw [funext fun i => ih i (hashed.1 i) (hashed'.1 i) (congrFun links i)]

end

/-- What is hashed for the nodes of a tree in memory. -/
def TreeNode.messages (hasher : NodeHasher HashBytes) : TreeNode HashBytes → List (List Byte)
  | .empty => []
  | .leaf path value => [(TreeNode.leaf path value).preimage hasher]
  | .branch path links linkedNodes linkSet =>
    (TreeNode.branch path links linkedNodes linkSet).preimage hasher ::
      (finRange 16).flatMap fun i => (linkedNodes i).messages hasher

private theorem hashedIn_of_messages {t : Trie Nibble HashBytes} {node : TreeNode HashBytes}
    (rep : Represents (sha3Hasher sha3_256) (fun _ => .empty) t node)
    (covered : ∀ message ∈ node.messages (sha3Hasher sha3_256), message ∈ inPlay) :
    HashedIn sha3_256 inPlay t := by
  induction t generalizing node with
  | empty => trivial
  | leaf p v =>
    obtain ⟨path, rfl, rfl⟩ := rep
    have own := covered _ mem_cons_self
    rwa [TreeNode.preimage_eq] at own
  | branch p c ih =>
    obtain ⟨b, rfl, rfl, slots⟩ := rep
    refine ⟨fun i => ?_, ?_⟩
    · rcases slots i with ⟨gone, -⟩ | ⟨-, -, -, below⟩ | ⟨present, -, -, -, below⟩
      · rw [gone]
        trivial
      · refine ih i below fun message mem => covered message (mem_cons_of_mem _ ?_)
        exact mem_flatMap.mpr ⟨i, mem_finRange i, mem⟩
      · exact absurd (below.eq_empty_iff.mp rfl) present
    · have own := covered _ mem_cons_self
      have links := funext fun i => (slots i).link_eq fun _ => Represents.hash_eq
      rw [TreeNode.preimage_eq] at own
      rwa [← links]

/-- The hashed bytes determine a node up to links that are set to the zero hash; without collisions,
and with no message hashed to zero, equal roots stand for equal trees. -/
theorem preimage_unambiguous (free : Set.InjOn sha3_256 inPlay)
    (nonzero : ∀ message ∈ inPlay, sha3_256 message ≠ 0) (own : hasher = sha3Hasher sha3_256) :
    (∀ node : TreeNode HashBytes, node ≠ .empty →
      node.hash hasher = sha3_256 (node.preimage hasher)) ∧
    (∀ a b : TreeNode HashBytes, a ≠ .empty → b ≠ .empty →
      a.preimage hasher = b.preimage hasher → a.content hasher = b.content hasher) ∧
    (∀ b b' : BranchTreeNode HashBytes,
      (TreeNode.ofBranch b).content hasher = (TreeNode.ofBranch b').content hasher →
      (∀ i, b.linkSet i = true ↔ b.link hasher i ≠ 0) →
      (∀ i, b'.linkSet i = true ↔ b'.link hasher i ≠ 0) → b.linkSet = b'.linkSet) ∧
    ∀ stored stored' t t' root root', Represents hasher stored t root →
      Represents hasher stored' t' root' → HashedIn sha3_256 inPlay t →
      HashedIn sha3_256 inPlay t' → root.hash hasher = root'.hash hasher → t = t' := by
  subst own
  refine ⟨?_, fun a b => TreeNode.content_of_preimage, ?_, ?_⟩
  · intro node present
    rw [TreeNode.preimage_eq]
    cases node with
    | empty => exact absurd rfl present
    | leaf path value => rfl
    | branch path links linkedNodes linkSet => rfl
  · intro b b' same shown shown'
    have links := (NodeContent.branch.inj (Option.some.inj same)).2
    funext i
    rw [Bool.eq_iff_iff, shown i, shown' i, links]
  · intro stored stored' t t' root root' rep rep' hashed hashed' same
    rw [rep.hash_eq, rep'.hash_eq] at same
    exact eq_of_trieHash_eq free nonzero hashed hashed' same

def exampleHash : HashBytes := ⟨replicate 32 1, rfl⟩

/-- A hash function for the examples: a checksum, the length and a byte that is not zero. -/
def exampleSha3 (message : List Byte) : HashBytes :=
  ⟨.ofNat 8 (message.foldl (fun sum byte => 3 * sum + byte.toNat) 0) :: .ofNat 8 message.length ::
    replicate 30 1, rfl⟩

def exampleBranch : BranchTreeNode HashBytes :=
  let first := (BranchTreeNode.create .default).setLink (.leaf (.ofKey [1]) (exampleSha3 []))
    (lowNibble 0)
  first.setLink (.leaf (.ofKey [2]) (exampleSha3 [5])) (lowNibble 7)

def exampleTrie : Trie Nibble HashBytes :=
  .branch [] fun i =>
    if i = lowNibble 0 then .leaf (TreeNodePath.ofKey [1]).nibbles (exampleSha3 [])
    else if i = lowNibble 7 then .leaf (TreeNodePath.ofKey [2]).nibbles (exampleSha3 [5])
    else .empty

private theorem represents_exampleTrie : Represents (sha3Hasher exampleSha3) (fun _ => .empty)
    exampleTrie (.ofBranch exampleBranch) := by
  refine ⟨exampleBranch, rfl, rfl, fun i => ?_⟩
  by_cases first : i = lowNibble 0
  · subst first
    exact .inr (.inl ⟨nofun, rfl, nofun, _, rfl, rfl⟩)
  by_cases second : i = lowNibble 7
  · subst second
    exact .inr (.inl ⟨nofun, rfl, nofun, _, rfl, rfl⟩)
  · left
    simp [first, second, exampleBranch, BranchTreeNode.setLink, BranchTreeNode.create]

theorem preimage_unambiguous_branch :
    let hasher := sha3Hasher exampleSha3
    let messages := (TreeNode.ofBranch exampleBranch).messages hasher
    messages.length = 3 ∧ Library.HashTree.CollisionFree exampleSha3 messages ∧
      ∀ stored t root, Represents hasher stored t root →
        HashedIn exampleSha3 {message | message ∈ messages} t →
        root.hash hasher = (TreeNode.ofBranch exampleBranch).hash hasher → t = exampleTrie := by
  intro hasher messages
  have free : Library.HashTree.CollisionFree exampleSha3 messages := by decide +kernel
  refine ⟨by decide +kernel, free, fun stored t root rep hashed same => ?_⟩
  have unambiguous := preimage_unambiguous (fun _ mem _ mem' => free _ mem _ mem')
    (by decide +kernel : ∀ message ∈ messages, exampleSha3 message ≠ 0) rfl
  exact unambiguous.2.2.2 stored _ t exampleTrie root _ rep represents_exampleTrie hashed
    (hashedIn_of_messages represents_exampleTrie fun _ mem => mem) same

/-- A second link that is set to the zero hash does not show, nor does a leaf hashed to zero. -/
theorem preimage_ambiguous_zero :
    let hasher := sha3Hasher fun _ => 0
    let b := (BranchTreeNode.create .default).setLinkHash exampleHash 0
    let b' := b.setLinkHash 0 1
    let inPlay : Set (List Byte) := {(NodeContent.leaf [] exampleHash).bytes}
    let leaf : Trie Nibble HashBytes := .leaf [] exampleHash
    ((TreeNode.ofBranch b).preimage hasher = (TreeNode.ofBranch b').preimage hasher ∧
      b.linkSet 1 ≠ b'.linkSet 1) ∧
    Set.InjOn (fun _ : List Byte => (0 : HashBytes)) inPlay ∧
      HashedIn (fun _ => 0) inPlay .empty ∧ HashedIn (fun _ => 0) inPlay leaf ∧
      trieHash hasher .empty = trieHash hasher leaf ∧ .empty ≠ leaf := by
  refine ⟨⟨?_, by decide⟩, Set.injOn_singleton _ _, trivial, rfl, rfl, by simp⟩
  simp only [TreeNode.preimage, TreeNode.ofBranch]
  congr 2
  funext i
  revert i
  decide

/-- Trees that any calls lead to have the same root hash exactly if they hold the same entries, if
keys are encoded in one length, no two of the messages hashed for the nodes collide and none is
hashed to zero. -/
theorem rootHash_eq_iff {K V : Type} {enc : Encoder K V HashBytes} {n : Nat}
    {source : HashBytes → TreeNode HashBytes} (unsaved : source 0 = .empty)
    {ops ops' : List (Operation K V)}
    (sized : ∀ op ∈ ops ++ ops', (enc.encodeKey op.key).length = n)
    {root root' : TreeNode HashBytes}
    (run : applyOperations (sha3Hasher sha3_256) source enc .empty ops = some root)
    (run' : applyOperations (sha3Hasher sha3_256) source enc .empty ops' = some root')
    (free : Library.HashTree.CollisionFree sha3_256
      (root.messages (sha3Hasher sha3_256) ++ root'.messages (sha3Hasher sha3_256)))
    (nonzero : ∀ message ∈ root.messages (sha3Hasher sha3_256) ++
      root'.messages (sha3Hasher sha3_256), sha3_256 message ≠ 0) :
    root.hash (sha3Hasher sha3_256) = root'.hash (sha3Hasher sha3_256) ↔
      ∀ key, finalMap enc ops key = finalMap enc ops' key := by
  have held : ∀ {ops root}, (∀ op ∈ ops, (enc.encodeKey op.key).length = n) →
      applyOperations (sha3Hasher sha3_256) source enc .empty ops = some root →
      PatriciaTree.Holds (sha3Hasher sha3_256) (fun _ => .empty) (2 * n) root
        (ops.foldl (applyToEntries enc) fun _ => none) := by
    intro ops root sized run
    obtain ⟨_, done, holds⟩ := PatriciaTree.Holds.applyOperations
      ⟨unsaved, fun h saved => absurd rfl saved⟩ holds_empty
      (fun op mem => by rw [size_keyPath, sized op mem])
    rw [run] at done
    exact Option.some.inj done ▸ holds
  obtain ⟨t, rep, canon, entries⟩ := held (fun op mem => sized op (mem_append_left _ mem)) run
  obtain ⟨t', rep', canon', entries'⟩ := held (fun op mem => sized op (mem_append_right _ mem)) run'
  rw [rep.hash_eq, rep'.hash_eq]
  constructor
  · intro same key
    obtain rfl := eq_of_trieHash_eq (fun _ mem _ mem' => free _ mem _ mem') nonzero
      (hashedIn_of_messages rep fun _ => mem_append_left _)
      (hashedIn_of_messages rep' fun _ => mem_append_right _) same
    rw [← entries_finalMap, ← entries_finalMap, ← entries, entries']
  · intro same
    rw [canon.unique canon' fun q => by rw [entries, entries', entries_eq_of_finalMap enc same]]

/-- Three keys of one byte; the first two part at their first nibble. -/
def exampleEncoder : Encoder (Fin 3) HashBytes HashBytes :=
  ⟨fun key => [16 * key.val.toUInt8], id⟩

theorem rootHash_eq_iff_detour :
    let hasher := sha3Hasher exampleSha3
    let ops : List (Operation (Fin 3) HashBytes) := [.set 0 (exampleSha3 []), .set 1 (exampleSha3 [5])]
    let ops' := [.set 1 (exampleSha3 [5]), .set 2 (exampleSha3 []), .set 0 (exampleSha3 []), .unset 2]
    ∃ root root', applyOperations hasher (fun _ => .empty) exampleEncoder .empty ops = some root ∧
      applyOperations hasher (fun _ => .empty) exampleEncoder .empty ops' = some root' ∧
      (root.messages hasher).length = 3 ∧ root.hash hasher = root'.hash hasher := by
  intro hasher ops ops'
  have sized : ∀ op ∈ ops ++ ops', (exampleEncoder.encodeKey op.key).length = 1 := fun _ _ => rfl
  have run : applyOperations hasher (fun _ => .empty) exampleEncoder .empty ops = some _ := rfl
  have run' : applyOperations hasher (fun _ => .empty) exampleEncoder .empty ops' = some _ := rfl
  refine ⟨_, _, run, run', by decide +kernel, ?_⟩
  refine (rootHash_eq_iff rfl sized run run' ?_ ?_).mpr ?_ <;> decide +kernel

end BitxorCore.Tree
