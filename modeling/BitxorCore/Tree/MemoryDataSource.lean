/- GID: Tree/MemoryDataSource
   anchors: [src/bitxorcore/tree]
   digest: Saving the nodes of a tree keeps every tree readable when hashes do not collide. -/

import BitxorCore.Library.FiniteMap
import BitxorCore.Tree.PatriciaTreeHistory

set_option autoImplicit false
set_option relaxedAutoImplicit false

namespace BitxorCore.Tree

open Library.FiniteMap (Map insertNew lookup_insertNew)
open Library.PathTrie (Trie)

section Growth

variable {H : Type} [Zero H] {hasher : NodeHasher H} {inPlay : Set (Trie Nibble H)}

open PatriciaTree (trieHash Represents)

structure CollisionFree (hasher : NodeHasher H) (inPlay : Set (Trie Nibble H)) : Prop where
  empty_mem : .empty ∈ inPlay
  child_mem : ∀ p c a, .branch p c ∈ inPlay → c a ∈ inPlay
  injOn : Set.InjOn (trieHash hasher) inPlay

def Stored (hasher : NodeHasher H) (dataSource : H → TreeNode H) (t : Trie Nibble H) : Prop :=
  Represents hasher dataSource t (dataSource (trieHash hasher t))

/-- Everything readable from one data source is readable from the next. -/
structure Grows (hasher : NodeHasher H) (inPlay : Set (Trie Nibble H))
    (before after : H → TreeNode H) : Prop where
  represents : ∀ t ∈ inPlay, ∀ node,
    Represents hasher before t node → Represents hasher after t node
  stored : ∀ t ∈ inPlay, t ≠ .empty → Stored hasher before t → Stored hasher after t

private theorem Grows.refl (dataSource : H → TreeNode H) :
    Grows hasher inPlay dataSource dataSource :=
  ⟨fun _ _ _ rep => rep, fun _ _ _ stored => stored⟩

private theorem Grows.trans {first second third : H → TreeNode H}
    (left : Grows hasher inPlay first second) (right : Grows hasher inPlay second third) :
    Grows hasher inPlay first third :=
  ⟨fun t mem node rep => right.represents t mem node (left.represents t mem node rep),
    fun t mem present stored => right.stored t mem present (left.stored t mem present stored)⟩

private theorem grows_of_reads (free : CollisionFree hasher inPlay) {before after : H → TreeNode H}
    (reads : ∀ t ∈ inPlay, t ≠ .empty → Stored hasher before t →
      Represents hasher before t (after (trieHash hasher t))) : Grows hasher inPlay before after := by
  have represents : ∀ t ∈ inPlay, ∀ node,
      Represents hasher before t node → Represents hasher after t node := by
    intro t
    induction t with
    | empty => exact fun _ _ rep => rep
    | leaf p v => exact fun _ _ rep => rep
    | branch p c ih =>
      rintro mem node ⟨b, rfl, rfl, slots⟩
      refine ⟨b, rfl, rfl, fun i => ?_⟩
      have childMem := free.child_mem _ c i mem
      rcases slots i with unset | ⟨present, set, linked, below⟩ | ⟨present, set, linked, link, below⟩
      · exact Or.inl unset
      · exact Or.inr (Or.inl ⟨present, set, linked, ih i childMem _ below⟩)
      · refine Or.inr (Or.inr ⟨present, set, linked, link, ?_⟩)
        rw [link] at below ⊢
        exact ih i childMem _ (reads _ childMem present below)
  exact ⟨represents, fun t mem present stored => represents t mem _ (reads t mem present stored)⟩

end Growth

variable {H : Type} [Zero H] [DecidableEq H] (hasher : NodeHasher H)

structure MemoryDataSource (H : Type) [DecidableEq H] where
  leafNodes : Map H (TreeNodePath × H)
  branchNodes : Map H (BranchTreeNode H)

namespace MemoryDataSource

variable (source : MemoryDataSource H)

def get (hash : H) : TreeNode H :=
  match source.leafNodes.lookup hash with
  | some (path, value) => .leaf path value
  | none => match source.branchNodes.lookup hash with
    | some b => .ofBranch b
    | none => .empty

/-- The overloads of `set`; a node already saved under the hash stays. -/
def set (node : TreeNode H) : MemoryDataSource H :=
  match node with
  | .empty => source
  | .leaf path value => { source with
      leafNodes := insertNew source.leafNodes (node.hash hasher) (path, value) }
  | .branch path links linkedNodes linkSet => { source with
      branchNodes := insertNew source.branchNodes (node.hash hasher)
        ⟨path, links, linkedNodes, linkSet⟩ }

end MemoryDataSource

/-- The nodes of a read through data source: memory first, then the backing source. -/
def readThrough (backing : H → TreeNode H) (memory : MemoryDataSource H) (hash : H) : TreeNode H :=
  if (memory.get hash).isEmpty then backing hash else memory.get hash

namespace PatriciaTree

/-- Saves all nodes in memory, children first; a branch is saved with compact links. -/
def saveAll : TreeNode H → MemoryDataSource H → MemoryDataSource H
  | .empty, source => source
  | .leaf path value, source => source.set hasher (.leaf path value)
  | .branch path links linkedNodes linkSet, source =>
      let source := (List.finRange 16).foldl (fun source i =>
        if (linkedNodes i).isEmpty then source else saveAll (linkedNodes i) source) source
      source.set hasher
        (.ofBranch (BranchTreeNode.compactLinks hasher ⟨path, links, linkedNodes, linkSet⟩))

end PatriciaTree

open PatriciaTree

namespace MemoryDataSource

private theorem get_set (source : MemoryDataSource H) {node : TreeNode H} (present : node ≠ .empty)
    (hash : H) : (hash ≠ node.hash hasher → (source.set hasher node).get hash = source.get hash) ∧
      (hash = node.hash hasher → (source.set hasher node).get hash = node ∨
        source.get hash ≠ .empty ∧ (source.set hasher node).get hash = source.get hash) := by
  cases node with
  | empty => exact absurd rfl present
  | leaf path value =>
    constructor
    · intro other
      simp [set, get, lookup_insertNew, other]
    · rintro rfl
      simp only [set, get, lookup_insertNew, ↓reduceIte]
      cases source.leafNodes.lookup ((TreeNode.leaf path value).hash hasher) <;> simp
  | branch path links linkedNodes linkSet =>
    constructor
    · intro other
      simp [set, get, lookup_insertNew, other]
    · rintro rfl
      simp only [set, get, lookup_insertNew, ↓reduceIte]
      generalize (TreeNode.branch path links linkedNodes linkSet).hash hasher = hash
      cases leaf : source.leafNodes.lookup hash <;> cases source.branchNodes.lookup hash <;>
        simp [TreeNode.ofBranch]

end MemoryDataSource

variable {hasher} {inPlay : Set (Trie Nibble H)}

def Sound (hasher : NodeHasher H) (inPlay : Set (Trie Nibble H)) (backing : H → TreeNode H)
    (memory : MemoryDataSource H) : Prop :=
  ∀ h, memory.get h ≠ .empty → ∃ t ∈ inPlay, t ≠ .empty ∧ trieHash hasher t = h ∧
    Represents hasher (readThrough backing memory) t (memory.get h)

section Saving

variable {backing : H → TreeNode H} {memory : MemoryDataSource H}

omit [Zero H] in
private theorem readThrough_of_get {h : H} (present : memory.get h ≠ .empty) :
    readThrough backing memory h = memory.get h := by
  simp only [readThrough, isEmpty_eq_false present, Bool.false_eq_true, ↓reduceIte]

omit [Zero H] in
private theorem readThrough_congr {memory' : MemoryDataSource H} {h : H}
    (same : memory'.get h = memory.get h) :
    readThrough backing memory' h = readThrough backing memory h := by
  rw [readThrough, readThrough, same]

variable {t : Trie Nibble H} {node : TreeNode H}

private theorem Sound.set (free : CollisionFree hasher inPlay)
    (sound : Sound hasher inPlay backing memory) (mem : t ∈ inPlay) (present : t ≠ .empty)
    (rep : Represents hasher (readThrough backing memory) t node) :
    Sound hasher inPlay backing (memory.set hasher node) ∧
      Grows hasher inPlay (readThrough backing memory)
        (readThrough backing (memory.set hasher node)) ∧
      Stored hasher (readThrough backing (memory.set hasher node)) t := by
  have nonempty : node ≠ .empty := fun gone => present (rep.eq_empty_iff.mp gone)
  have outcome := memory.get_set hasher nonempty
  rw [rep.hash_eq] at outcome
  -- whichever node is kept under the hash, it stood for the saved trie before
  have kept : (memory.set hasher node).get (trieHash hasher t) ≠ .empty ∧
      Represents hasher (readThrough backing memory) t
        ((memory.set hasher node).get (trieHash hasher t)) := by
    rcases (outcome (trieHash hasher t)).2 rfl with new | ⟨occupied, old⟩
    · rw [new]
      exact ⟨nonempty, rep⟩
    · rw [old]
      obtain ⟨u, memU, -, same, repU⟩ := sound _ occupied
      obtain rfl := free.injOn memU mem same
      exact ⟨occupied, repU⟩
  have grows : Grows hasher inPlay (readThrough backing memory)
      (readThrough backing (memory.set hasher node)) := by
    refine grows_of_reads free fun u memU presentU stored => ?_
    by_cases same : trieHash hasher u = trieHash hasher t
    · obtain rfl := free.injOn memU mem same
      rw [readThrough_of_get kept.1]
      exact kept.2
    · rw [readThrough_congr ((outcome _).1 same)]
      exact stored
  refine ⟨fun h occupied => ?_, grows, ?_⟩
  · by_cases same : h = trieHash hasher t
    · subst same
      exact ⟨t, mem, present, rfl, grows.represents t mem _ kept.2⟩
    · rw [(outcome h).1 same] at occupied ⊢
      obtain ⟨u, memU, presentU, hashed, repU⟩ := sound h occupied
      exact ⟨u, memU, presentU, hashed, grows.represents u memU _ repU⟩
  · rw [Stored, readThrough_of_get kept.1]
    exact grows.represents t mem _ kept.2

variable {b : BranchTreeNode H}

omit [DecidableEq H] in
private theorem represents_compactLinks {dataSource : H → TreeNode H} {c : Nibble → Trie Nibble H}
    (slots : BranchRepresents hasher dataSource c b)
    (stored : ∀ i, c i ≠ .empty → Stored hasher dataSource (c i)) :
    Represents hasher dataSource (.branch b.path.nibbles c)
      (.ofBranch (b.compactLinks hasher)) := by
  refine ⟨b.compactLinks hasher, rfl, rfl, fun i => ?_⟩
  have link : b.link hasher i = trieHash hasher (c i) :=
    (slots i).link_eq fun _ below => below.hash_eq
  by_cases present : c i = .empty
  · have unset : b.linkSet i = false := by
      rw [← Bool.not_eq_true, slots.linkSet_iff i]
      exact fun occupied => occupied present
    exact Or.inl ⟨present, unset, rfl, link.trans (by rw [present, trieHash])⟩
  · refine Or.inr (Or.inr ⟨present, (slots.linkSet_iff i).mpr present, rfl, link, ?_⟩)
    have below := stored i present
    rw [Stored, ← link] at below
    exact below

variable {c : Nibble → Trie Nibble H}

private theorem Sound.setBranch {memory₁ : MemoryDataSource H} (free : CollisionFree hasher inPlay)
    (sound : Sound hasher inPlay backing memory₁) (mem : .branch b.path.nibbles c ∈ inPlay)
    (slots : BranchRepresents hasher (readThrough backing memory) c b)
    (grows : Grows hasher inPlay (readThrough backing memory) (readThrough backing memory₁))
    (saved : ∀ i, b.linkedNodes i ≠ .empty → Stored hasher (readThrough backing memory₁) (c i)) :
    let after := memory₁.set hasher (.ofBranch (b.compactLinks hasher))
    Sound hasher inPlay backing after ∧
      Grows hasher inPlay (readThrough backing memory₁) (readThrough backing after) ∧
      Stored hasher (readThrough backing after) (.branch b.path.nibbles c) := by
  have slots₁ : BranchRepresents hasher (readThrough backing memory₁) c b := by
    obtain ⟨b', same, -, slots'⟩ := grows.represents _ mem _ ⟨b, rfl, rfl, slots⟩
    rw [ofBranch_injective same]
    exact slots'
  have stored : ∀ i, c i ≠ .empty → Stored hasher (readThrough backing memory₁) (c i) := by
    intro i child
    rcases slots i with ⟨gone, -⟩ | ⟨-, -, occupied, -⟩ | ⟨-, -, -, link, below⟩
    · exact absurd gone child
    · exact saved i occupied
    · rw [link] at below
      exact grows.stored _ (free.child_mem _ c i mem) child below
  exact sound.set free mem (by simp) (represents_compactLinks slots₁ stored)

private theorem saveLinked (l : List Nibble) {nodes : Nibble → TreeNode H}
    (step : ∀ i memory, Sound hasher inPlay backing memory →
      Represents hasher (readThrough backing memory) (c i) (nodes i) → c i ≠ .empty →
      Sound hasher inPlay backing (saveAll hasher (nodes i) memory) ∧
        Grows hasher inPlay (readThrough backing memory)
          (readThrough backing (saveAll hasher (nodes i) memory)) ∧
        Stored hasher (readThrough backing (saveAll hasher (nodes i) memory)) (c i))
    (mem : ∀ i, c i ∈ inPlay) (sound : Sound hasher inPlay backing memory)
    (linked : ∀ i, nodes i ≠ .empty →
      c i ≠ .empty ∧ Represents hasher (readThrough backing memory) (c i) (nodes i)) :
    let after := l.foldl (fun source i =>
      if (nodes i).isEmpty then source else saveAll hasher (nodes i) source) memory
    Sound hasher inPlay backing after ∧
      Grows hasher inPlay (readThrough backing memory) (readThrough backing after) ∧
      ∀ i ∈ l, nodes i ≠ .empty → Stored hasher (readThrough backing after) (c i) := by
  induction l generalizing memory with
  | nil => exact ⟨sound, Grows.refl _, by simp⟩
  | cons i l ih =>
    rw [List.foldl_cons]
    by_cases gone : nodes i = .empty
    · rw [gone]
      obtain ⟨sound', grows, stored⟩ := ih sound linked
      refine ⟨sound', grows, fun j here occupied => ?_⟩
      rcases List.mem_cons.mp here with rfl | later
      · exact absurd gone occupied
      · exact stored j later occupied
    · obtain ⟨present, rep⟩ := linked i gone
      obtain ⟨sound₁, grows₁, stored₁⟩ := step i memory sound rep present
      have linked₁ : ∀ j, nodes j ≠ .empty → c j ≠ .empty ∧ Represents hasher
          (readThrough backing (saveAll hasher (nodes i) memory)) (c j) (nodes j) :=
        fun j occupied => ⟨(linked j occupied).1,
          grows₁.represents _ (mem j) _ (linked j occupied).2⟩
      obtain ⟨sound₂, grows₂, stored₂⟩ := ih sound₁ linked₁
      rw [isEmpty_eq_false gone]
      refine ⟨sound₂, grows₁.trans grows₂, fun j here occupied => ?_⟩
      rcases List.mem_cons.mp here with rfl | later
      · exact grows₂.stored _ (mem j) present stored₁
      · exact stored₂ j later occupied

theorem Sound.saveAll (free : CollisionFree hasher inPlay)
    (sound : Sound hasher inPlay backing memory)
    (mem : t ∈ inPlay) (rep : Represents hasher (readThrough backing memory) t node)
    (present : t ≠ .empty) :
    Sound hasher inPlay backing (PatriciaTree.saveAll hasher node memory) ∧
      Grows hasher inPlay (readThrough backing memory)
        (readThrough backing (PatriciaTree.saveAll hasher node memory)) ∧
      Stored hasher (readThrough backing (PatriciaTree.saveAll hasher node memory)) t := by
  induction t generalizing node memory with
  | empty => exact absurd rfl present
  | leaf p v =>
    obtain ⟨path, rfl, rfl⟩ := rep
    exact sound.set free mem present ⟨path, rfl, rfl⟩
  | branch p c ih =>
    obtain ⟨b, rfl, rfl, slots⟩ := rep
    have children := fun i => free.child_mem _ c i mem
    have linked : ∀ i, b.linkedNodes i ≠ .empty →
        c i ≠ .empty ∧ Represents hasher (readThrough backing memory) (c i) (b.linkedNodes i) := by
      intro i occupied
      rcases slots i with ⟨-, -, gone, -⟩ | ⟨child, -, -, below⟩ | ⟨-, -, gone, -⟩
      · exact absurd gone occupied
      · exact ⟨child, below⟩
      · exact absurd gone occupied
    obtain ⟨sound₁, grows₁, stored₁⟩ := saveLinked (List.finRange 16)
      (fun i memory sound rep child => ih i sound (children i) rep child) children sound linked
    obtain ⟨sound₂, grows₂, stored₂⟩ := sound₁.setBranch free mem slots grows₁
      fun i => stored₁ i (List.mem_finRange i)
    exact ⟨sound₂, grows₁.trans grows₂, stored₂⟩

end Saving

end BitxorCore.Tree
