/- GID: Tree/PatriciaTree
   anchors: [src/bitxorcore/tree/PatriciaTree.h]
   digest: The patricia tree recursions simulate insertion, removal and lookup on canonical tries. -/

import BitxorCore.Tree.TreeNode

set_option autoImplicit false
set_option relaxedAutoImplicit false

namespace BitxorCore.Tree

structure Encoder (K V H : Type) where
  encodeKey : K → List UInt8
  encodeValue : V → H

namespace PatriciaTree

variable {H : Type} [Zero H] (hasher : NodeHasher H) (dataSource : H → TreeNode H)

/-- Copies a linked node from memory, if available, and from the data source otherwise. -/
def getLinkedNode (b : BranchTreeNode H) (index : Nibble) : TreeNode H :=
  if (b.linkedNodes index).isEmpty then dataSource (b.link hasher index) else b.linkedNodes index

def branchLeafNode (leafPath : TreeNodePath) (leafValue : H) (newPath : TreeNodePath)
    (newValue : H) : BranchTreeNode H :=
  let differenceIndex := findFirstDifferenceIndex leafPath newPath
  let sharedPath := leafPath.subpath 0 differenceIndex
  let node1 := TreeNode.leaf (leafPath.subpathFrom (differenceIndex + 1)) leafValue
  let node2 := TreeNode.leaf (newPath.subpathFrom (differenceIndex + 1)) newValue
  let branchNode := BranchTreeNode.create sharedPath
  let branchNode := branchNode.setLink node1 (leafPath.nibbleAt differenceIndex)
  branchNode.setLink node2 (newPath.nibbleAt differenceIndex)

/-- Attaches a pair below a consumed branch or splits a branch whose path is not consumed.
`setBelow` is the recursive call. -/
def insertNewPairIntoBranch (setBelow : TreeNode H → TreeNodePath → H → Option (TreeNode H))
    (branchNode : BranchTreeNode H) (branchPath : TreeNodePath) (differenceIndex : Nat)
    (newPath : TreeNodePath) (newValue : H) : Option (BranchTreeNode H) := do
  let isBranchPathConsumed := branchPath.empty
  let nextNode := if isBranchPathConsumed
    then getLinkedNode hasher dataSource branchNode (newPath.nibbleAt 0) else .empty
  let updatedNextNode ← setBelow nextNode (newPath.subpathFrom (differenceIndex + 1)) newValue
  if isBranchPathConsumed then
    return branchNode.setLink updatedNextNode (newPath.nibbleAt 0)
  let newBranchNode := BranchTreeNode.create (branchPath.subpath 0 differenceIndex)
  let newBranchNode := newBranchNode.setLink updatedNextNode (newPath.nibbleAt differenceIndex)
  let branchLinkIndex := branchPath.nibbleAt differenceIndex
  let branchNode := branchNode.setPath (branchPath.subpathFrom (differenceIndex + 1))
  return newBranchNode.setLink (.ofBranch branchNode) branchLinkIndex

def updateBranchLink (setBelow : TreeNode H → TreeNodePath → H → Option (TreeNode H))
    (branchNode : BranchTreeNode H) (newPath : TreeNodePath) (newValue : H) :
    Option (BranchTreeNode H) :=
  let differenceIndex := findFirstDifferenceIndex branchNode.path newPath
  if !branchNode.path.empty && differenceIndex == branchNode.path.size then
    insertNewPairIntoBranch hasher dataSource setBelow branchNode TreeNodePath.default 0
      (newPath.subpathFrom differenceIndex) newValue
  else
    insertNewPairIntoBranch hasher dataSource setBelow branchNode branchNode.path differenceIndex
      newPath newValue

/-- The recursive `set`.  Each level shortens the remaining path, so the fuel of the caller
is its size plus one; `none` stands for running out of it. -/
def setNode : Nat → TreeNode H → TreeNodePath → H → Option (TreeNode H)
  | 0, _, _, _ => none
  | _ + 1, .empty, newPath, newValue => some (.leaf newPath newValue)
  | _ + 1, .leaf p v, newPath, newValue =>
      if p.equals newPath then some (.leaf newPath newValue)
      else some (.ofBranch (branchLeafNode p v newPath newValue))
  | fuel + 1, .branch p links linkedNodes linkSet, newPath, newValue =>
      (updateBranchLink hasher dataSource (setNode fuel) ⟨p, links, linkedNodes, linkSet⟩
        newPath newValue).map TreeNode.ofBranch

/-- Clears a link and merges a branch that kept a single one.  The merge throws when the
remaining link leads to no node. -/
def unsetBranchLink (branchNode : BranchTreeNode H) (linkIndex : Nibble) : Option (TreeNode H) :=
  let branchNode := branchNode.clearLink linkIndex
  if branchNode.numLinks ≠ 1 then some (.ofBranch branchNode)
  else
    let lastLinkIndex := branchNode.highestLinkIndex
    let referencedNode := getLinkedNode hasher dataSource branchNode lastLinkIndex
    referencedNode.setPath (branchNode.path.join lastLinkIndex referencedNode.path)

/-- The recursive `unset`: the result with the values of the two reference arguments
`updatedNode` and `canMerge` after the call. -/
def unsetNode : Nat → TreeNode H → TreeNodePath → TreeNode H → Bool →
    Option (Bool × TreeNode H × Bool)
  | 0, _, _, _, _ => none
  | _ + 1, .empty, _, updatedNode, canMerge => some (false, updatedNode, canMerge)
  | _ + 1, .leaf p _, keyPath, updatedNode, canMerge =>
      if findFirstDifferenceIndex p keyPath = keyPath.size then some (true, .empty, canMerge)
      else some (false, updatedNode, canMerge)
  | fuel + 1, .branch p links linkedNodes linkSet, keyPath, updatedNode, canMerge =>
      let differenceIndex := findFirstDifferenceIndex p keyPath
      if differenceIndex = keyPath.size then some (true, .empty, canMerge)
      else
        let branchNode : BranchTreeNode H := ⟨p, links, linkedNodes, linkSet⟩
        let nodeLinkIndex := keyPath.nibbleAt differenceIndex
        let nextNode := getLinkedNode hasher dataSource branchNode nodeLinkIndex
        if nextNode.isEmpty then some (false, updatedNode, canMerge)
        else do
          let (found, updatedNextNode, canMerge) ←
            unsetNode fuel nextNode (keyPath.subpathFrom (differenceIndex + 1)) .empty canMerge
          if !found then
            return (false, updatedNode, canMerge)
          -- at most a single branch node is collapsed, its parents only update their links
          let updated ← if canMerge then unsetBranchLink hasher dataSource branchNode nodeLinkIndex
            else some (.ofBranch (branchNode.setLink updatedNextNode nodeLinkIndex))
          return (true, updated, false)

/-- The recursive `lookup` with the path of visited nodes.  Besides running out of fuel, `none`
stands for reading a nibble past the end of the key. -/
def lookupNode : Nat → TreeNode H → TreeNodePath → List (TreeNode H) →
    Option ((H × Bool) × List (TreeNode H))
  | 0, _, _, _ => none
  | _ + 1, .empty, _, nodePath => some ((0, false), nodePath)
  | _ + 1, .leaf p v, keyPath, nodePath =>
      let nodePath := nodePath ++ [.leaf p v]
      if findFirstDifferenceIndex p keyPath = keyPath.size then some ((v, true), nodePath)
      else some ((0, false), nodePath)
  | fuel + 1, .branch p links linkedNodes linkSet, keyPath, nodePath =>
      let nodePath := nodePath ++ [.branch p links linkedNodes linkSet]
      let differenceIndex := findFirstDifferenceIndex p keyPath
      if keyPath.size ≤ differenceIndex then none else
      let nodeLinkIndex := keyPath.nibbleAt differenceIndex
      let nextNode := getLinkedNode hasher dataSource ⟨p, links, linkedNodes, linkSet⟩ nodeLinkIndex
      if nextNode.isEmpty then some ((0, false), nodePath)
      else lookupNode fuel nextNode (keyPath.subpathFrom (differenceIndex + 1)) nodePath

section Operations

variable {K V : Type} (enc : Encoder K V H)

def keyPath (key : K) : TreeNodePath := TreeNodePath.ofKey (enc.encodeKey key)

def set (rootNode : TreeNode H) (key : K) (value : V) : Option (TreeNode H) :=
  setNode hasher dataSource ((keyPath enc key).size + 1) rootNode (keyPath enc key)
    (enc.encodeValue value)

/-- The public `unset`: the result and the root afterwards. -/
def unset (rootNode : TreeNode H) (key : K) : Option (Bool × TreeNode H) :=
  (unsetNode hasher dataSource ((keyPath enc key).size + 1) rootNode (keyPath enc key)
    rootNode true).map fun result => (result.1, result.2.1)

def lookup (rootNode : TreeNode H) (key : K) (nodePath : List (TreeNode H)) :
    Option ((H × Bool) × List (TreeNode H)) :=
  lookupNode hasher dataSource ((keyPath enc key).size + 1) rootNode (keyPath enc key)
    nodePath

inductive Operation (K V : Type) where
  | set (key : K) (value : V)
  | unset (key : K)

def Operation.key : Operation K V → K
  | .set key _ => key
  | .unset key => key

def applyOperation (rootNode : TreeNode H) : Operation K V → Option (TreeNode H)
  | .set key value => set hasher dataSource enc rootNode key value
  | .unset key => (unset hasher dataSource enc rootNode key).map Prod.snd

def applyOperations (rootNode : TreeNode H) : List (Operation K V) → Option (TreeNode H)
  | [] => some rootNode
  | op :: ops => do
      let next ← applyOperation hasher dataSource enc rootNode op
      applyOperations next ops

end Operations

open Library.PathTrie Function

def trieHash : Trie Nibble H → H
  | .empty => 0
  | .leaf p v => hasher.leaf p v
  | .branch p c => hasher.branch p fun i => trieHash (c i)

/-- What one slot of a branch holds for a child: nothing, a node in memory, or the hash of a
stored node. -/
def SlotRepresents (stored : H → TreeNode H) (child : Trie Nibble H)
    (represents : TreeNode H → Prop) (b : BranchTreeNode H) (i : Nibble) : Prop :=
  (child = .empty ∧ b.linkSet i = false ∧ b.linkedNodes i = .empty ∧ b.links i = 0) ∨
  (child ≠ .empty ∧ b.linkSet i = true ∧ b.linkedNodes i ≠ .empty ∧ represents (b.linkedNodes i)) ∨
  (child ≠ .empty ∧ b.linkSet i = true ∧ b.linkedNodes i = .empty ∧
    b.links i = trieHash hasher child ∧ represents (stored (b.links i)))

/-- A node stands for a trie when the nodes behind its hash links are the `stored` ones. -/
def Represents (stored : H → TreeNode H) : Trie Nibble H → TreeNode H → Prop
  | .empty, node => node = .empty
  | .leaf p v, node => ∃ path : TreeNodePath, node = .leaf path v ∧ path.nibbles = p
  | .branch p c, node => ∃ b : BranchTreeNode H, node = .ofBranch b ∧ b.path.nibbles = p ∧
      ∀ i, SlotRepresents hasher stored (c i) (Represents stored (c i)) b i

/-- The data source returns every stored node for its hash and nothing for the hash of the
empty node. -/
structure Supplies (dataSource stored : H → TreeNode H) : Prop where
  zero : dataSource 0 = .empty
  saved : ∀ h, stored h ≠ .empty → dataSource h = stored h

variable {hasher} {dataSource} {stored : H → TreeNode H} {t : Trie Nibble H} {node : TreeNode H}

theorem Represents.eq_empty_iff
    (rep : Represents hasher stored t node) : node = .empty ↔ t = .empty := by
  cases t with
  | empty => exact iff_of_true rep rfl
  | leaf p v =>
    obtain ⟨path, rfl, -⟩ := rep
    simp
  | branch p c =>
    obtain ⟨b, rfl, -⟩ := rep
    simp

private theorem Represents.isEmpty_eq
    (rep : Represents hasher stored t node) (present : t ≠ .empty) : node.isEmpty = false :=
  isEmpty_eq_false fun gone => present (rep.eq_empty_iff.mp gone)

variable {b : BranchTreeNode H}

theorem SlotRepresents.link_eq {child : Trie Nibble H} {i : Nibble}
    (slot : SlotRepresents hasher stored child (Represents hasher stored child) b i)
    (hashed : ∀ node, Represents hasher stored child node →
      node.hash hasher = trieHash hasher child) : b.link hasher i = trieHash hasher child := by
  unfold BranchTreeNode.link
  rcases slot with ⟨rfl, -, linked, zero⟩ | ⟨-, -, linked, below⟩ | ⟨-, -, linked, link, -⟩
  · simp [linked, TreeNode.isEmpty, zero, trieHash]
  · simp [isEmpty_eq_false linked, hashed _ below]
  · simp [linked, TreeNode.isEmpty, link]

theorem Represents.hash_eq
    (rep : Represents hasher stored t node) : node.hash hasher = trieHash hasher t := by
  induction t generalizing node with
  | empty =>
    have gone : node = .empty := rep
    subst gone
    rfl
  | leaf p v =>
    obtain ⟨path, rfl, rfl⟩ := rep
    rfl
  | branch p c ih =>
    obtain ⟨b, rfl, rfl, slots⟩ := rep
    simp only [TreeNode.ofBranch, TreeNode.hash, trieHash]
    congr 1
    funext i
    exact (slots i).link_eq fun node below => ih i below

/-- The slots of a branch node stand for the children of a trie branch. -/
def BranchRepresents (hasher : NodeHasher H) (stored : H → TreeNode H)
    (c : Nibble → Trie Nibble H) (b : BranchTreeNode H) : Prop :=
  ∀ i, SlotRepresents hasher stored (c i) (Represents hasher stored (c i)) b i

variable {c : Nibble → Trie Nibble H}

section
variable (slots : BranchRepresents hasher stored c b)
include slots

private theorem represents_branch :
    Represents hasher stored (.branch b.path.nibbles c) (.ofBranch b) :=
  ⟨b, rfl, rfl, slots⟩

theorem BranchRepresents.linkSet_iff (i : Nibble) : b.linkSet i = true ↔ c i ≠ .empty := by
  rcases slots i with ⟨child, unset, -, -⟩ | ⟨child, set, -, -⟩ | ⟨child, set, -, -, -⟩
  · simp [child, unset]
  · simp [child, set]
  · simp [child, set]

private theorem BranchRepresents.getLinkedNode (supplies : Supplies dataSource stored) (i : Nibble) :
    Represents hasher stored (c i) (PatriciaTree.getLinkedNode hasher dataSource b i) := by
  unfold PatriciaTree.getLinkedNode BranchTreeNode.link
  rcases slots i with ⟨child, -, linked, zero⟩ | ⟨-, -, linked, below⟩ |
      ⟨child, -, linked, link, below⟩
  · rw [child]
    simpa [linked, TreeNode.isEmpty, zero, Represents] using supplies.zero
  · simpa [isEmpty_eq_false linked] using below
  · have present : stored (b.links i) ≠ .empty := fun gone => child (below.eq_empty_iff.mp gone)
    simpa [linked, TreeNode.isEmpty, supplies.saved _ present] using below

end

private theorem branchRepresents_create (p : TreeNodePath) :
    BranchRepresents hasher stored (fun _ => .empty) (BranchTreeNode.create p) :=
  fun _ => Or.inl ⟨rfl, rfl, rfl, rfl⟩

section
variable (slots : BranchRepresents hasher stored c b)
include slots

private theorem BranchRepresents.setLink
    (rep : Represents hasher stored t node) (present : t ≠ .empty) (a : Nibble) :
    BranchRepresents hasher stored (update c a t) (b.setLink node a) := by
  intro i
  by_cases here : i = a
  · subst here
    refine Or.inr (Or.inl ?_)
    simp only [BranchTreeNode.setLink, update_self]
    exact ⟨present, trivial, fun gone => present (rep.eq_empty_iff.mp gone), rep⟩
  · simpa [SlotRepresents, BranchTreeNode.setLink, update_of_ne here] using slots i

private theorem BranchRepresents.clearLink (a : Nibble) :
    BranchRepresents hasher stored (update c a .empty) (b.clearLink a) := by
  intro i
  by_cases here : i = a
  · subst here
    exact Or.inl (by simp [BranchTreeNode.clearLink, BranchTreeNode.setLinkHash])
  · simpa [SlotRepresents, BranchTreeNode.clearLink, BranchTreeNode.setLinkHash,
      update_of_ne here] using slots i

private theorem BranchRepresents.setPath (p : TreeNodePath) :
    BranchRepresents hasher stored c (b.setPath p) := slots

end

variable {p : TreeNodePath}

private theorem path_parts {s r : List Nibble} {x : Nibble} (split : p.nibbles = s ++ x :: r) :
    p.nibbleAt s.length = x ∧ (p.subpath 0 s.length).nibbles = s ∧
      (p.subpathFrom (s.length + 1)).nibbles = r ∧ p.size = s.length + 1 + r.length := by
  have size : p.size = s.length + 1 + r.length := by
    rw [← length_nibbles, split]
    simp
    omega
  refine ⟨?_, ?_, ?_, size⟩
  · rw [← getElem_nibbles p s.length (by rw [length_nibbles]; omega)]
    simp [split]
  · rw [nibbles_subpath p (by omega), split]
    simp
  · rw [nibbles_subpathFrom p (by omega), split]
    simp [List.drop_append]

variable {x y : Nibble}

omit [Zero H] in
private theorem fork_comm (differ : x ≠ y) (s : List Nibble)
    (tx ty : Trie Nibble H) : fork s x tx y ty = fork s y ty x tx := by
  rw [fork, fork, update_comm differ]

private theorem represents_fork (p : TreeNodePath) (x y : Nibble) {tx ty : Trie Nibble H}
    {nx ny : TreeNode H} (left : Represents hasher stored tx nx) (presentX : tx ≠ .empty)
    (right : Represents hasher stored ty ny) (presentY : ty ≠ .empty) :
    Represents hasher stored (fork p.nibbles x tx y ty)
      (.ofBranch (((BranchTreeNode.create p).setLink nx x).setLink ny y)) :=
  represents_branch (((branchRepresents_create p).setLink left presentX x).setLink right presentY y)

private theorem represents_graft
    (rep : Represents hasher stored t node) (present : t ≠ .empty) (p : TreeNodePath) (a : Nibble) :
    ∃ node', node.setPath (p.join a node.path) = some node' ∧
      Represents hasher stored (graft p.nibbles a t) node' := by
  cases t with
  | empty => exact absurd rfl present
  | leaf q v =>
    obtain ⟨path, rfl, rfl⟩ := rep
    exact ⟨_, rfl, _, rfl, nibbles_join p a path⟩
  | branch q c =>
    obtain ⟨b, rfl, rfl, slots⟩ := rep
    exact ⟨_, rfl, b.setPath (p.join a b.path), rfl, nibbles_join p a b.path, slots⟩

/-! Set. -/

variable {newPath : TreeNodePath} {s p' k' : List Nibble}

private theorem branchLeafNode_represents (w v : H)
    (forks : Forks p.nibbles newPath.nibbles s x p' y k') :
    Represents hasher stored (fork s x (.leaf p' w) y (.leaf k' v))
      (.ofBranch (branchLeafNode p w newPath v)) := by
  have index : findFirstDifferenceIndex p newPath = s.length := by
    rw [findFirstDifferenceIndex_eq, firstDiff_of_forks forks]
  obtain ⟨left, right, -⟩ := forks
  obtain ⟨atX, shared, restX, -⟩ := path_parts left
  obtain ⟨atY, -, restY, -⟩ := path_parts right
  simp only [branchLeafNode, index, atX, atY]
  have old : Represents hasher stored (.leaf p' w) (.leaf (p.subpathFrom (s.length + 1)) w) :=
    ⟨_, rfl, restX⟩
  have new : Represents hasher stored (.leaf k' v)
      (.leaf (newPath.subpathFrom (s.length + 1)) v) := ⟨_, rfl, restY⟩
  have built := represents_fork (p.subpath 0 s.length) x y old (by simp) new (by simp)
  rwa [shared] at built

variable {a : Nibble} {r : List Nibble} {v : H}

private theorem insertNewPair_consumed
    (setBelow : TreeNode H → TreeNodePath → H → Option (TreeNode H)) {branchPath : TreeNodePath}
    (consumed : branchPath.empty = true) (split : newPath.nibbles = a :: r) {updated : TreeNode H}
    (below : setBelow (PatriciaTree.getLinkedNode hasher dataSource b a) (newPath.subpathFrom 1) v =
      some updated) :
    insertNewPairIntoBranch hasher dataSource setBelow b branchPath 0 newPath v =
      some (b.setLink updated a) := by
  obtain ⟨atA, -⟩ := path_parts (s := []) split
  simp only [List.length_nil] at atA
  simp [insertNewPairIntoBranch, consumed, atA, below]

private theorem insertNewPair_split (dataSource : H → TreeNode H)
    (setBelow : TreeNode H → TreeNodePath → H → Option (TreeNode H)) (v : H)
    (slots : BranchRepresents hasher stored c b)
    (forks : Forks b.path.nibbles newPath.nibbles s x p' y k')
    (below : ∀ path, setBelow .empty path v = some (.leaf path v)) :
    ∃ b', insertNewPairIntoBranch hasher dataSource setBelow b b.path s.length newPath v = some b' ∧
      Represents hasher stored (fork s x (.branch p' c) y (.leaf k' v)) (.ofBranch b') := by
  obtain ⟨left, right, differ⟩ := forks
  obtain ⟨atX, shared, restX, size⟩ := path_parts left
  obtain ⟨atY, -, restY, -⟩ := path_parts right
  have kept : b.path.empty = false := by
    simp only [TreeNodePath.empty, beq_eq_false_iff_ne]
    omega
  refine ⟨_, by simp [insertNewPairIntoBranch, kept, below, atX, atY]; rfl, ?_⟩
  have inner : Represents hasher stored (.branch p' c)
      (.ofBranch (b.setPath (b.path.subpathFrom (s.length + 1)))) := by
    rw [← restX]
    exact represents_branch (slots.setPath _)
  have leaf : Represents hasher stored (.leaf k' v)
      (.leaf (newPath.subpathFrom (s.length + 1)) v) := ⟨_, rfl, restY⟩
  rw [fork_comm differ]
  have built := represents_fork (b.path.subpath 0 s.length) y x leaf (by simp) inner (by simp)
  rwa [shared] at built

variable {n fuel : Nat}

theorem setNode_represents (supplies : Supplies dataSource stored) {path : TreeNodePath} (v : H)
    (rep : Represents hasher stored t node) (canon : CanonicalRoot t n)
    (size : path.size = n) (enough : n < fuel) :
    ∃ node', setNode hasher dataSource fuel node path v = some node' ∧
      Represents hasher stored (insert v t path.nibbles) node' := by
  -- the fuel bounds the length of the path that is still to be consumed
  induction fuel generalizing t node n path with
  | zero => omega
  | succ fuel ih =>
    cases t with
    | empty =>
      have gone : node = .empty := rep
      subst gone
      exact ⟨_, rfl, path, rfl, rfl⟩
    | leaf p w =>
      obtain ⟨leafPath, rfl, rfl⟩ := rep
      by_cases same : leafPath.nibbles = path.nibbles
      · refine ⟨.leaf path v, by simp [setNode, (equals_iff leafPath path).mpr same], ?_⟩
        rw [same, insert_leaf_self]
        exact ⟨path, rfl, rfl⟩
      · have differ : leafPath.equals path = false := by
          simpa [← equals_iff] using same
        have length : leafPath.nibbles.length = n := canon.resolve_left (by simp)
        obtain ⟨s, x, p', y, k', forks⟩ := forks_of_length_eq
          (length.trans (size.symm.trans (length_nibbles path).symm)) same
        refine ⟨_, by simp only [setNode, differ]; rfl, ?_⟩
        rw [insert_leaf_of_forks w v forks]
        exact branchLeafNode_represents w v forks
    | branch p c =>
      obtain ⟨b, rfl, rfl, slots⟩ := rep
      obtain ⟨m, rfl, children, -⟩ := canon.resolve_left (by simp)
      simp only [TreeNode.ofBranch, setNode, updateBranchLink]
      rw [findFirstDifferenceIndex_eq]
      have longer : b.path.nibbles.length < path.nibbles.length := by
        rw [length_nibbles path]
        omega
      rcases append_or_forks longer with ⟨a, r, split⟩ | ⟨s, x, p', y, k', forks⟩
      · have index : firstDiff b.path.nibbles path.nibbles = b.path.size := by
          rw [split, firstDiff_append_right, length_nibbles]
        have tail : r.length = m := by
          have whole := congrArg List.length split
          simp only [length_nibbles, List.length_append, List.length_cons] at whole size
          omega
        have linked := BranchRepresents.getLinkedNode slots supplies a
        -- both ways of calling the insertion hand the rest `r` of the path to child `a`
        have step : ∀ q : TreeNodePath, q.nibbles = a :: r → ∃ updated,
            setNode hasher dataSource fuel (PatriciaTree.getLinkedNode hasher dataSource b a)
              (q.subpathFrom 1) v = some updated ∧
            Represents hasher stored
              (insert v (c a) r) updated := by
          intro q shape
          obtain ⟨-, -, rest, qsize⟩ := path_parts (s := []) shape
          simp only [List.length_nil, Nat.zero_add] at rest qsize
          have shorter : (q.subpathFrom 1).size = m := by
            rw [size_subpathFrom]
            omega
          have result := ih linked (children a) shorter (by omega)
          rwa [rest] at result
        rw [index, split, insert_branch_append]
        have inserted : insert v (c a) r ≠ .empty := (canonical_insert (children a) v tail).ne_empty
        by_cases bare : b.path.empty = true
        · have none : b.path.nibbles = [] := (empty_iff b.path).mp bare
          have zero : b.path.size = 0 := by simpa [TreeNodePath.empty] using bare
          obtain ⟨updated, below, repBelow⟩ := step path (by simpa [none] using split)
          refine ⟨.ofBranch (b.setLink updated a), ?_, ?_⟩
          · have call := insertNewPair_consumed (setNode hasher dataSource fuel) bare
              (show path.nibbles = a :: r by simpa [none] using split) below
            simp only [bare, Bool.not_true, Bool.false_and, Bool.false_eq_true, ↓reduceIte, zero]
            rw [call, Option.map_some]
          · exact represents_branch (BranchRepresents.setLink slots repBelow inserted a)
        · have rest : (path.subpathFrom b.path.size).nibbles = a :: r := by
            rw [nibbles_subpathFrom path (by rw [← length_nibbles b.path]; omega), split,
              ← length_nibbles b.path]
            simp
          obtain ⟨updated, below, repBelow⟩ := step _ rest
          refine ⟨.ofBranch (b.setLink updated a), ?_, ?_⟩
          · have call := insertNewPair_consumed (setNode hasher dataSource fuel)
              (show TreeNodePath.default.empty = true from rfl) rest below
            simp only [bare, Bool.not_false, beq_self_eq_true, Bool.and_self, ↓reduceIte]
            rw [call, Option.map_some]
          · exact represents_branch (BranchRepresents.setLink slots repBelow inserted a)
      · have index := firstDiff_of_forks forks
        have short : s.length ≠ b.path.size := by
          rw [← length_nibbles, forks.1]
          simp
        obtain ⟨fuel, rfl⟩ : ∃ k, fuel = k + 1 := ⟨fuel - 1, by omega⟩
        obtain ⟨b', call, built⟩ := insertNewPair_split dataSource
          (setNode hasher dataSource (fuel + 1)) v slots forks (fun _ => rfl)
        refine ⟨.ofBranch b', ?_, ?_⟩
        · simp_all
        · rw [insert_branch_of_forks c v forks]
          exact built

/-! Lookup. -/

variable {keyPath : TreeNodePath}

private theorem descend_parts (split : keyPath.nibbles = p.nibbles ++ a :: r) :
    findFirstDifferenceIndex p keyPath = p.size ∧ p.size < keyPath.size ∧
      keyPath.nibbleAt p.size = a ∧ (keyPath.subpathFrom (p.size + 1)).nibbles = r := by
  obtain ⟨atA, -, rest, size⟩ := path_parts split
  rw [length_nibbles] at atA rest size
  refine ⟨?_, by omega, atA, rest⟩
  rw [findFirstDifferenceIndex_eq, split, firstDiff_append_right, length_nibbles]

private theorem misaligned_parts (forks : Forks p.nibbles keyPath.nibbles s x p' y k') {m : Nat}
    (size : p.nibbles.length + 1 + m ≤ keyPath.size) :
    findFirstDifferenceIndex p keyPath < keyPath.size ∧
      m < (keyPath.subpathFrom (findFirstDifferenceIndex p keyPath + 1)).size := by
  have shorter : s.length < p.nibbles.length := by
    rw [forks.1]
    simp
  rw [size_subpathFrom, findFirstDifferenceIndex_eq, firstDiff_of_forks forks]
  omega

/-- `lookup` reads the represented trie, for which a key that is too long has no value; it never
reads past the end of the key. -/
theorem lookupNode_represents (supplies : Supplies dataSource stored) (nodePath : List (TreeNode H))
    (rep : Represents hasher stored t node) (canon : CanonicalRoot t n)
    (size : n ≤ keyPath.size) (enough : n < fuel) :
    ∃ visited, lookupNode hasher dataSource fuel node keyPath nodePath =
      some (match if keyPath.size = n then Library.PathTrie.lookup t keyPath.nibbles else none with
        | some v => (v, true)
        | none => (0, false), visited) := by
  induction fuel generalizing t node n keyPath nodePath with
  | zero => omega
  | succ fuel ih =>
    cases t with
    | empty =>
      have gone : node = .empty := rep
      subst gone
      rw [Library.PathTrie.lookup, ite_self]
      exact ⟨nodePath, rfl⟩
    | leaf p w =>
      obtain ⟨leafPath, rfl, rfl⟩ := rep
      have length : leafPath.nibbles.length = n := canon.resolve_left (by simp)
      refine ⟨nodePath ++ [.leaf leafPath w], ?_⟩
      simp only [lookupNode, findFirstDifferenceIndex_eq, Library.PathTrie.lookup]
      by_cases same : leafPath.nibbles = keyPath.nibbles
      · have aligned : keyPath.size = n := by rw [← length_nibbles, ← same, length]
        have full : firstDiff leafPath.nibbles keyPath.nibbles = keyPath.size := by
          simpa [same] using firstDiff_append_right keyPath.nibbles []
        rw [if_pos full, if_pos aligned, if_pos same]
      · have short : firstDiff leafPath.nibbles keyPath.nibbles ≠ keyPath.size := by
          intro full
          have within := firstDiff_le_left leafPath.nibbles keyPath.nibbles
          obtain ⟨s, x, p', y, k', forks⟩ := forks_of_length_eq
            (by rw [length_nibbles keyPath]; omega) same
          rw [firstDiff_of_forks forks, ← length_nibbles, forks.2.1] at full
          simp at full
        rw [if_neg short, if_neg same, ite_self]
    | branch p c =>
      obtain ⟨b, rfl, rfl, slots⟩ := rep
      obtain ⟨m, rfl, children, -⟩ := canon.resolve_left (by simp)
      simp only [TreeNode.ofBranch, lookupNode]
      rcases append_or_forks (p := b.path.nibbles) (k := keyPath.nibbles)
          (by rw [length_nibbles keyPath]; omega) with ⟨a, r, split⟩ | ⟨s, x, p', y, k', forks⟩
      · obtain ⟨index, inside, atA, rest⟩ := descend_parts split
        have linked := BranchRepresents.getLinkedNode slots supplies a
        rw [index, if_neg (by omega), atA, split, lookup_branch_append]
        by_cases gone : c a = .empty
        · have missing := linked.eq_empty_iff.mpr gone
          simp [missing, gone, TreeNode.isEmpty]
        · have aligned : keyPath.size = b.path.nibbles.length + 1 + m ↔
              (keyPath.subpathFrom (b.path.size + 1)).size = m := by
            rw [size_subpathFrom, length_nibbles]
            omega
          rw [linked.isEmpty_eq gone, ← rest]
          simp only [aligned]
          exact ih _ linked (children a)
            (by rw [size_subpathFrom]; rw [length_nibbles] at size; omega) (by omega)
      · obtain ⟨inside, longer⟩ := misaligned_parts forks size
        rw [if_neg (by omega), lookup_branch_of_forks c forks, ite_self]
        split
        · exact ⟨_, rfl⟩
        · have linked := BranchRepresents.getLinkedNode slots supplies
            (keyPath.nibbleAt (findFirstDifferenceIndex b.path keyPath))
          have below := ih (nodePath ++ [.ofBranch b]) linked (children _) longer.le (by omega)
          rwa [if_neg longer.ne'] at below

/-! Unset. -/

private theorem unsetBranchLink_represents (supplies : Supplies dataSource stored)
    (slots : BranchRepresents hasher stored c b) (kept : ∃ i, i ≠ a ∧ c i ≠ .empty) :
    ∃ node', unsetBranchLink hasher dataSource b a = some node' ∧
      Represents hasher stored (collapse b.path.nibbles (update c a .empty)) node' := by
  have cleared := slots.clearLink a
  obtain ⟨i, elsewhere, present⟩ := kept
  have presentI : update c a .empty i ≠ .empty := by
    rwa [update_of_ne elsewhere]
  by_cases one : (b.clearLink a).numLinks = 1
  · obtain ⟨j, only⟩ := (numLinks_eq_one_iff _).mp one
    have same : i = j := (only i).mp ((cleared.linkSet_iff i).mpr presentI)
    subst same
    have others : ∀ k, k ≠ i → update c a .empty k = .empty := by
      intro k differ
      by_contra occupied
      exact differ ((only k).mp ((cleared.linkSet_iff k).mpr occupied))
    have highest := highestLinkIndex_of_single _ i only
    rw [collapse_of_single presentI others]
    have linked := cleared.getLinkedNode supplies i
    simp only [unsetBranchLink, one, ne_eq, not_true_eq_false, ↓reduceIte, highest]
    exact represents_graft linked presentI b.path i
  · have more : ∃ j, j ≠ i ∧ update c a .empty j ≠ .empty := by
      by_contra none
      push Not at none
      refine one ((numLinks_eq_one_iff _).mpr ⟨i, fun j => ?_⟩)
      rw [cleared.linkSet_iff]
      constructor
      · intro occupied
        by_contra differ
        exact occupied (none j differ)
      · rintro rfl
        exact presentI
    obtain ⟨j, differ, presentJ⟩ := more
    rw [collapse_of_two differ presentJ presentI]
    refine ⟨_, by simp only [unsetBranchLink, ne_eq, one, not_false_eq_true, ↓reduceIte]; rfl, ?_⟩
    exact represents_branch cleared

private theorem unsetNode_of_lookupNode {fuel : Nat} {nodePath visited : List (TreeNode H)}
    (updatedNode : TreeNode H) (canMerge : Bool)
    (missed : lookupNode hasher dataSource fuel node keyPath nodePath = some ((v, false), visited)) :
    unsetNode hasher dataSource fuel node keyPath updatedNode canMerge =
      some (false, updatedNode, canMerge) := by
  induction fuel generalizing node keyPath nodePath updatedNode with
  | zero => cases missed
  | succ fuel ih =>
    cases node with
    | empty => rfl
    | leaf p w =>
      simp only [lookupNode] at missed
      split at missed
      · cases missed
      · rename_i differ
        exact if_neg differ
    | branch p links linkedNodes linkSet =>
      simp only [lookupNode] at missed
      split at missed
      · cases missed
      · have inside : findFirstDifferenceIndex p keyPath ≠ keyPath.size := by omega
        simp only [unsetNode, if_neg inside]
        split at missed
        · rename_i gone
          rw [if_pos gone]
        · rename_i present
          rw [if_neg present, ih .empty missed]
          rfl

theorem unsetNode_absent (supplies : Supplies dataSource stored) (updatedNode : TreeNode H)
    (canMerge : Bool) (rep : Represents hasher stored t node) (canon : CanonicalRoot t n)
    (size : keyPath.size = n) (enough : n < fuel)
    (absent : Library.PathTrie.lookup t keyPath.nibbles = none) :
    unsetNode hasher dataSource fuel node keyPath updatedNode canMerge =
      some (false, updatedNode, canMerge) := by
  obtain ⟨visited, missed⟩ := lookupNode_represents supplies [] rep canon size.ge enough
  rw [if_pos size] at missed
  rw [absent] at missed
  exact unsetNode_of_lookupNode updatedNode canMerge missed

/-- `unset` of a present key erases it; `canMerge` stays set exactly when nothing is left. -/
theorem unsetNode_present (supplies : Supplies dataSource stored) (updatedNode : TreeNode H)
    (rep : Represents hasher stored t node) (canon : CanonicalRoot t n)
    (size : keyPath.size = n) (enough : n < fuel)
    (found : Library.PathTrie.lookup t keyPath.nibbles = some v) :
    ∃ node' merge, unsetNode hasher dataSource fuel node keyPath updatedNode true =
        some (true, node', merge) ∧
      Represents hasher stored (erase t keyPath.nibbles) node' ∧
      (merge = true ↔ erase t keyPath.nibbles = .empty) := by
  induction fuel generalizing t node n keyPath updatedNode with
  | zero => omega
  | succ fuel ih =>
    cases t with
    | empty => simp at found
    | leaf p w =>
      obtain ⟨leafPath, rfl, rfl⟩ := rep
      have same : leafPath.nibbles = keyPath.nibbles := by
        by_contra differ
        simp [Library.PathTrie.lookup, differ] at found
      have full : firstDiff keyPath.nibbles keyPath.nibbles = keyPath.size := by
        simpa using firstDiff_append_right keyPath.nibbles []
      refine ⟨.empty, true, ?_, ?_, ?_⟩
      · simp only [unsetNode, findFirstDifferenceIndex_eq, same, full, ↓reduceIte]
      · simp [same, erase, Represents]
      · simp [same, erase]
    | branch p c =>
      obtain ⟨b, rfl, rfl, slots⟩ := rep
      obtain ⟨a, r, split, foundBelow⟩ := lookup_branch_eq_some found
      have remains : erase (.branch b.path.nibbles c) keyPath.nibbles ≠ .empty :=
        erase_branch_ne_empty (canon.resolve_left (by simp)) keyPath.nibbles
      obtain ⟨m, rfl, children, two⟩ := canon.resolve_left (by simp)
      obtain ⟨index, inside, atA, rest⟩ := descend_parts split
      have linked := BranchRepresents.getLinkedNode slots supplies a
      have occupied : c a ≠ .empty := by
        intro gone
        simp [gone] at foundBelow
      have shorter : (keyPath.subpathFrom (b.path.size + 1)).size = m := by simp_all
      rw [← rest] at foundBelow
      obtain ⟨child, merge, call, below, merged⟩ :=
        ih .empty linked (children a) shorter (by omega) foundBelow
      rw [rest] at below merged
      have kept : ∃ i, i ≠ a ∧ c i ≠ .empty := by
        obtain ⟨i, j, differ, presentI, presentJ⟩ := two
        by_cases here : i = a
        · exact ⟨j, fun same => differ (here.trans same.symm), presentJ⟩
        · exact ⟨i, here, presentI⟩
      have shape : erase (.branch b.path.nibbles c) keyPath.nibbles =
          collapse b.path.nibbles (update c a (erase (c a) r)) := by
        rw [split, erase_branch_append]
      simp only [TreeNode.ofBranch, unsetNode]
      rw [index, if_neg (by omega), atA, linked.isEmpty_eq occupied, call]
      rw [shape] at remains ⊢
      cases merge with
      | true =>
        have gone := merged.mp rfl
        rw [gone] at remains ⊢
        obtain ⟨node', unlinked, result⟩ := unsetBranchLink_represents supplies slots kept
        exact ⟨node', false, by simp [unlinked], result, by simp [remains]⟩
      | false =>
        have present : erase (c a) r ≠ .empty := fun gone => by simpa using merged.mpr gone
        obtain ⟨i, elsewhere, presentI⟩ := kept
        have branch : collapse b.path.nibbles (update c a (erase (c a) r)) =
            .branch b.path.nibbles (update c a (erase (c a) r)) :=
          collapse_of_two elsewhere (by rwa [update_of_ne elsewhere])
            (by rwa [update_self]) _
        refine ⟨.ofBranch (b.setLink child a), false, rfl, ?_, by simp [remains]⟩
        rw [branch]
        exact represents_branch (BranchRepresents.setLink slots below present a)

end PatriciaTree

end BitxorCore.Tree
