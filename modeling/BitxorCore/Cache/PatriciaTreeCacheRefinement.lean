/- GID: Cache/PatriciaTreeCacheRefinement
   anchors: [src/bitxorcore/cache, src/bitxorcore/tree]
   digest: The incrementally maintained tree holds the entries of the current map. -/

import BitxorCore.Deltaset.BaseSetDeltaRefinement
import BitxorCore.Tree.MemoryDataSource

set_option autoImplicit false
set_option relaxedAutoImplicit false

namespace BitxorCore.Cache

open Library.FiniteMap
open Deltaset BitxorCore.Tree

/-- Whether and how values of a type are deactivated at a height. -/
inductive IsActiveAdapter (V : Type) where
  | unsupported
  | supported (isDeactivationDestructive : Bool) (isActive : V → Nat → Bool)

namespace IsActiveAdapter

variable {V : Type}

/-- Deactivation that is not destructive does not trigger any change in state. -/
def isActive (value : V) (height : Nat) : IsActiveAdapter V → Bool
  | .unsupported => true
  | .supported isDeactivationDestructive active =>
      !isDeactivationDestructive || active value height

def NotDestructive : IsActiveAdapter V → Prop
  | .unsupported => True
  | .supported isDeactivationDestructive _ => isDeactivationDestructive = false

private theorem NotDestructive.isActive {adapter : IsActiveAdapter V}
    (kept : adapter.NotDestructive) (value : V) (height : Nat) :
    adapter.isActive value height = true := by
  cases adapter with
  | unsupported => rfl
  | supported destructive active =>
    have off : destructive = false := kept
    simp [IsActiveAdapter.isActive, off]

end IsActiveAdapter

variable {K V H : Type} [DecidableEq K] [DecidableEq H] [Zero H]

/-- A tree in memory over saved nodes; the backing data source does not change. -/
structure BasePatriciaTreeDelta (H : Type) [DecidableEq H] where
  rootNode : TreeNode H
  memory : MemoryDataSource H

/-- A delta set with its tree and the first generation that is not applied. -/
structure PatriciaTreeDeltaMixin (K V H : Type) [DecidableEq K] [DecidableEq H] where
  set : BaseSetDelta K V
  tree : BasePatriciaTreeDelta H
  nextGenerationId : UInt32

section

variable (hasher : NodeHasher H) (backing : H → TreeNode H) (enc : Encoder K V H)
  (adapter : IsActiveAdapter V) (e : Enumeration K V)

namespace BasePatriciaTreeDelta

/-- The tree with the node saved under a root hash, or the empty tree. -/
def load (rootHash : H) : BasePatriciaTreeDelta H := ⟨readThrough backing ⟨∅, ∅⟩ rootHash, ⟨∅, ∅⟩⟩

variable (tree : BasePatriciaTreeDelta H)

/-- A modification of the tree, reading linked nodes through the data source. -/
def apply (op : PatriciaTree.Operation K V) : Option (BasePatriciaTreeDelta H) :=
  (PatriciaTree.applyOperation hasher (readThrough backing tree.memory) enc tree.rootNode op).map
    fun rootNode => { tree with rootNode := rootNode }

/-- Saves all nodes reachable in memory; the tree itself keeps them. -/
def setCheckpoint : BasePatriciaTreeDelta H :=
  { tree with memory := PatriciaTree.saveAll hasher tree.rootNode tree.memory }

end BasePatriciaTreeDelta

/-- Whether the generation of a key lies between a minimum and the current one. -/
def needsApplication (set : BaseSetDelta K V) (minGenerationId : UInt32) (key : K) : Bool :=
  decide (minGenerationId ≤ set.keyGenerationId key ∧ set.keyGenerationId key ≤ set.generationId)

/-- The modification of the tree for an added or copied element. -/
def handleModification (height : Nat) (pair : K × V) : PatriciaTree.Operation K V :=
  if adapter.isActive pair.2 height then .set pair.1 pair.2 else .unset pair.1

def applyLoop (needed : K → Bool) (modification : K × V → PatriciaTree.Operation K V) :
    List (K × V) → BasePatriciaTreeDelta H → Option (BasePatriciaTreeDelta H)
  | [], tree => some tree
  | pair :: rest, tree => do
      let tree ← if needed pair.1 then tree.apply hasher backing enc (modification pair)
        else some tree
      applyLoop needed modification rest tree

/-- Applies all changes in a set to a tree, from a generation through the current one. -/
def applyDeltasToTree (tree : BasePatriciaTreeDelta H) (set : BaseSetDelta K V)
    (minGenerationId : UInt32) (height : Nat) : Option (BasePatriciaTreeDelta H) := do
  let needed := needsApplication set minGenerationId
  let deltas := set.deltas
  let tree ← applyLoop hasher backing enc needed (handleModification adapter height)
    (e.order deltas.added) tree
  let tree ← applyLoop hasher backing enc needed (handleModification adapter height)
    (e.order deltas.copied) tree
  applyLoop hasher backing enc needed (fun pair => .unset pair.1) (e.order deltas.removed) tree

namespace PatriciaTreeDeltaMixin

/-- A mixin around a fresh delta and the tree with a root hash. -/
def create (base : Map K V) (rootHash : H) : PatriciaTreeDeltaMixin K V H :=
  let set := BaseSetDelta.create base
  ⟨set, BasePatriciaTreeDelta.load backing rootHash, set.generationId⟩

variable (mixin : PatriciaTreeDeltaMixin K V H)

def setApplyCheckpoint : PatriciaTreeDeltaMixin K V H :=
  let set := mixin.set.incrementGenerationId
  ⟨set, mixin.tree.setCheckpoint hasher, set.generationId⟩

def updateMerkleRoot (height : Nat) : Option (PatriciaTreeDeltaMixin K V H) := do
  let tree ← applyDeltasToTree hasher backing enc adapter e mixin.tree mixin.set
    mixin.nextGenerationId height
  return { mixin with tree := tree }.setApplyCheckpoint hasher

end PatriciaTreeDeltaMixin

inductive MixinOperation (K V : Type) where
  | delta (op : Deltaset.Operation K V)
  | updateMerkleRoot (height : Nat)

def applyMixinOperation (toKey : V → K) (mixin : PatriciaTreeDeltaMixin K V H) :
    MixinOperation K V → Option (PatriciaTreeDeltaMixin K V H)
  | .delta op => some { mixin with set := applyOperation .mutable toKey mixin.set op }
  | .updateMerkleRoot height => mixin.updateMerkleRoot hasher backing enc adapter e height

def applyMixinOperations (toKey : V → K) (mixin : PatriciaTreeDeltaMixin K V H) :
    List (MixinOperation K V) → Option (PatriciaTreeDeltaMixin K V H)
  | [] => some mixin
  | op :: ops => do
      let mixin ← applyMixinOperation hasher backing enc adapter e toKey mixin op
      applyMixinOperations toKey mixin ops

end

open List PatriciaTreeDeltaMixin Option Tree.PatriciaTree
open Library.PathTrie (Trie CanonicalRoot Subtrie)

structure Tracks (enc : Encoder K V H) (entries : List Nibble → Option H)
    (content : K → Option V) : Prop where
  encoded : ∀ key, entries (keyNibbles enc key) = (content key).map enc.encodeValue
  others : ∀ q, (∀ key, q ≠ keyNibbles enc key) → entries q = none

def TrieOf (enc : Encoder K V H) (n : Nat) (m : Map K V) (t : Trie Nibble H) : Prop :=
  CanonicalRoot t n ∧ Tracks enc (Library.PathTrie.lookup t) m.lookup

section Loops

variable {hasher : NodeHasher H} {backing : H → TreeNode H} {enc : Encoder K V H} {n : Nat}

omit [DecidableEq K] in
private theorem applyLoop_eq (needed : K → Bool) (modification : K × V → PatriciaTree.Operation K V)
    (l : List (K × V)) (tree : BasePatriciaTreeDelta H) :
    applyLoop hasher backing enc needed modification l tree =
      (applyOperations hasher (readThrough backing tree.memory) enc tree.rootNode
        ((l.filter fun pair => needed pair.1).map modification)).map
        fun rootNode => { tree with rootNode := rootNode } := by
  induction l generalizing tree with
  | nil => rfl
  | cons pair l ih =>
    by_cases here : needed pair.1 = true
    · rw [filter_cons_of_pos (p := fun pair : K × V => needed pair.1) here, map_cons]
      simp only [applyLoop, here, ↓reduceIte, BasePatriciaTreeDelta.apply, applyOperations,
        bind_eq_bind, ih]
      cases applyOperation hasher (readThrough backing tree.memory) enc tree.rootNode
        (modification pair) <;> rfl
    · simp [applyLoop, here, Bool.false_eq_true, bind_eq_bind, bind_some, ih]

omit [DecidableEq H] [Zero H] in
private theorem entries_loop (injective : Function.Injective enc.encodeKey) (needed : K → Bool)
    (modification : K × V → PatriciaTree.Operation K V)
    (own : ∀ pair, (modification pair).key = pair.1) {l : List (K × V)}
    (distinct : (l.map Prod.fst).Nodup) (entries : List Nibble → Option H) (k : K) :
    ((l.filter fun pair => needed pair.1).map modification).foldl (applyToEntries enc) entries
        (keyNibbles enc k) =
      match l.lookup k with
      | some v => if needed k then (modification (k, v)).result enc
          else entries (keyNibbles enc k)
      | none => entries (keyNibbles enc k) := by
  induction l generalizing entries with
  | nil => rfl
  | cons pair l ih =>
    obtain ⟨key, v⟩ := pair
    obtain ⟨fresh, rest⟩ := nodup_cons.mp distinct
    by_cases same : k = key
    · subst same
      have last : l.lookup k = none := lookup_eq_none_of_fresh fresh
      by_cases here : needed k = true
      · rw [filter_cons_of_pos (p := fun pair : K × V => needed pair.1) here, map_cons,
          foldl_cons, ih rest, last]
        simp [here, applyToEntries, own]
      · rw [filter_cons_of_neg (p := fun pair : K × V => needed pair.1) here, ih rest, last]
        simp [here]
    · have apart : keyNibbles enc k ≠ keyNibbles enc key := fun equal =>
        same (injective ((keyNibbles_eq_iff enc k key).mp equal))
      have skip : lookup k ((key, v) :: l) = l.lookup k := by
        simp [lookup_cons, beq_false_of_ne same]
      rw [skip]
      by_cases here : needed key = true
      · rw [filter_cons_of_pos (p := fun pair : K × V => needed pair.1) here, map_cons,
          foldl_cons, ih rest]
        simp only [applyToEntries, own, Function.update_of_ne apart]
      · rw [filter_cons_of_neg (p := fun pair : K × V => needed pair.1) here, ih rest]

omit [DecidableEq K] in
private theorem holds_loop (tree : BasePatriciaTreeDelta H) {entries : List Nibble → Option H}
    (zero : readThrough backing tree.memory 0 = .empty)
    (sized : ∀ key, (enc.encodeKey key).length = n)
    (holds : Holds hasher (readThrough backing tree.memory) (2 * n) tree.rootNode entries)
    (needed : K → Bool) (modification : K × V → PatriciaTree.Operation K V) (l : List (K × V)) :
    ∃ rootNode, applyLoop hasher backing enc needed modification l tree =
        some { tree with rootNode := rootNode } ∧
      Holds hasher (readThrough backing tree.memory) (2 * n) rootNode
        (((l.filter fun pair => needed pair.1).map modification).foldl (applyToEntries enc)
          entries) := by
  have lengths : ∀ op ∈ (l.filter fun pair => needed pair.1).map modification,
      (keyPath enc op.key).size = 2 * n := by
    intro op _
    rw [size_keyPath, sized]
  obtain ⟨rootNode, run, holds'⟩ := holds.applyOperations ⟨zero, fun _ _ => rfl⟩ lengths
  exact ⟨rootNode, by rw [applyLoop_eq, run, map_some], holds'⟩

end Loops

section Update

variable {hasher : NodeHasher H} {backing : H → TreeNode H} {enc : Encoder K V H} {n : Nat}
  {adapter : IsActiveAdapter V} {set : BaseSetDelta K V} (e : Enumeration K V)

/-- `ApplyDeltasToTree` writes the content of every pending key that needs application and
leaves all other entries alone. -/
private theorem applyDeltasToTree_holds (kept : adapter.NotDestructive)
    (injective : Function.Injective enc.encodeKey) (sized : ∀ key, (enc.encodeKey key).length = n)
    (consistent : ∀ k, (set.cell k).Consistent) (tree : BasePatriciaTreeDelta H)
    {entries : List Nibble → Option H} (zero : readThrough backing tree.memory 0 = .empty)
    (holds : Holds hasher (readThrough backing tree.memory) (2 * n) tree.rootNode entries)
    (minGenerationId : UInt32) (height : Nat) :
    ∃ rootNode entries', applyDeltasToTree hasher backing enc adapter e tree set minGenerationId
        height = some { tree with rootNode := rootNode } ∧
      Holds hasher (readThrough backing tree.memory) (2 * n) rootNode entries' ∧
      (∀ k, needsApplication set minGenerationId k = true → ¬ (set.cell k).Untouched →
        entries' (keyNibbles enc k) = (set.cell k).content.map enc.encodeValue) ∧
      (∀ k, needsApplication set minGenerationId k = false ∨ (set.cell k).Untouched →
        entries' (keyNibbles enc k) = entries (keyNibbles enc k)) ∧
      ∀ q, (∀ k, q ≠ keyNibbles enc k) → entries' q = entries q := by
  have modification : ∀ pair : K × V,
      handleModification adapter height pair = .set pair.1 pair.2 := by
    intro pair
    rw [handleModification, kept.isActive, if_pos rfl]
  have own : ∀ pair : K × V, (handleModification adapter height pair).key = pair.1 := by
    intro pair
    rw [modification, PatriciaTree.Operation.key]
  obtain ⟨root₁, run₁, holds₁⟩ := holds_loop tree zero sized holds
    (needsApplication set minGenerationId) (handleModification adapter height)
    (e.order set.addedElements)
  obtain ⟨root₂, run₂, holds₂⟩ := holds_loop { tree with rootNode := root₁ } zero sized holds₁
    (needsApplication set minGenerationId) (handleModification adapter height)
    (e.order set.copiedElements)
  obtain ⟨root₃, run₃, holds₃⟩ := holds_loop { tree with rootNode := root₂ } zero sized holds₂
    (needsApplication set minGenerationId) (fun pair => .unset pair.1) (e.order set.removedElements)
  have written := fun k => entries_loop injective (needsApplication set minGenerationId) _ own
    (e.distinct set.addedElements) entries k
  refine ⟨root₃, _, ?_, holds₃, fun k needed pending => ?_, fun k skipped => ?_, fun q other => ?_⟩
  · simp only [applyDeltasToTree, BaseSetDelta.deltas, run₁, run₂, run₃, bind_eq_bind, bind_some]
  · rw [entries_loop injective _ _ (fun _ => rfl) (e.distinct _), e.lookup_order,
      entries_loop injective _ _ own (e.distinct _), e.lookup_order, written, e.lookup_order]
    simp only [needed, ↓reduceIte, modification, PatriciaTree.Operation.result]
    rw [(consistent k).content_of_pending pending]
    simp only [BaseSetDelta.cell] at pending ⊢
    cases removed : set.removedElements.lookup k <;> cases copied : set.copiedElements.lookup k <;>
      cases added : set.addedElements.lookup k <;> simp_all [Cell.Untouched]
  · rw [entries_loop injective _ _ (fun _ => rfl) (e.distinct _), e.lookup_order,
      entries_loop injective _ _ own (e.distinct _), e.lookup_order, written, e.lookup_order]
    rcases skipped with skipped | ⟨added, removed, copied⟩
    · grind
    · simp only [BaseSetDelta.cell] at added removed copied
      rw [added, removed, copied]
  · simp_all [foldl_applyToEntries_other]

/-- The tree agrees with the map at every key without a modification of the current
generation. -/
structure InSync (hasher : NodeHasher H) (backing : H → TreeNode H) (enc : Encoder K V H)
    (n : Nat) (inPlay : Set (Trie Nibble H)) (mixin : PatriciaTreeDeltaMixin K V H) (m : Map K V)
    (entries : List Nibble → Option H) : Prop where
  refines : Refines mixin.set m
  generation : mixin.nextGenerationId = mixin.set.generationId
  sound : Sound hasher inPlay backing mixin.tree.memory
  holds : Holds hasher (readThrough backing mixin.tree.memory) (2 * n) mixin.tree.rootNode entries
  agrees : ∀ k, (mixin.set.cell k).Untouched ∨
      mixin.set.keyGenerationId k ≠ mixin.set.generationId →
    entries (keyNibbles enc k) = (mixin.set.cell k).content.map enc.encodeValue
  others : ∀ q, (∀ k, q ≠ keyNibbles enc k) → entries q = none

variable {inPlay : Set (Trie Nibble H)} {mixin : PatriciaTreeDeltaMixin K V H} {m : Map K V}
  {entries : List Nibble → Option H}

omit [DecidableEq K] in
private theorem readThrough_zero {memory : MemoryDataSource H} (free : CollisionFree hasher inPlay)
    (sound : Sound hasher inPlay backing memory) (zero : backing 0 = .empty) :
    readThrough backing memory 0 = .empty := by
  by_cases saved : memory.get 0 = .empty
  · rw [readThrough, saved]
    exact zero
  · obtain ⟨t, mem, present, hashed, -⟩ := sound 0 saved
    exact absurd (free.injOn mem free.empty_mem hashed) present

private theorem InSync.delta (toKey : V → K)
    (inSync : InSync hasher backing enc n inPlay mixin m entries) (op : Deltaset.Operation K V) :
    InSync hasher backing enc n inPlay
      { mixin with set := applyOperation .mutable toKey mixin.set op } (applyToMap toKey m op)
      entries := by
  obtain ⟨generation, marked⟩ := applyOperation_marks toKey mixin.set
    (fun k => (inSync.refines k).1) op
  refine ⟨inSync.refines.applyOperation toKey op, inSync.generation.trans generation.symm,
    inSync.sound, inSync.holds, fun k quiet => ?_, inSync.others⟩
  rcases marked k with same | ⟨current, pending⟩
  · have stamp : (applyOperation .mutable toKey mixin.set op).keyGenerationId k =
        mixin.set.keyGenerationId k := congrArg (fun c => c.generation.getD 0) same
    rw [stamp, generation, same] at quiet
    rw [same]
    exact inSync.agrees k quiet
  · rcases quiet with untouched | stale
    · exact absurd untouched pending
    · have stamp : (applyOperation .mutable toKey mixin.set op).keyGenerationId k =
          mixin.set.generationId := by
        change ((applyOperation .mutable toKey mixin.set op).cell k).generation.getD 0 = _
        rw [current, getD_some]
      exact absurd (stamp.trans generation.symm) stale

private theorem needsApplication_current (set : BaseSetDelta K V) (k : K) :
    needsApplication set set.generationId k = decide (set.keyGenerationId k = set.generationId) := by
  rw [needsApplication, decide_eq_decide]
  constructor
  · exact fun bounds => UInt32.le_antisymm bounds.2 bounds.1
  · simp_all

private theorem checkpoint_holds (tree : BasePatriciaTreeDelta H)
    (free : CollisionFree hasher inPlay) (sound : Sound hasher inPlay backing tree.memory)
    {t : Trie Nibble H} (mem : t ∈ inPlay)
    (rep : Represents hasher (readThrough backing tree.memory) t tree.rootNode) :
    Sound hasher inPlay backing (tree.setCheckpoint hasher).memory ∧
      Represents hasher (readThrough backing (tree.setCheckpoint hasher).memory) t tree.rootNode := by
  by_cases present : t = .empty
  · have gone := rep.eq_empty_iff.mpr present
    simp only [BasePatriciaTreeDelta.setCheckpoint, gone, saveAll]
    rw [gone] at rep
    exact ⟨sound, rep⟩
  · obtain ⟨sound', grows, -⟩ := sound.saveAll free mem rep present
    exact ⟨sound', grows.represents t mem _ rep⟩

private theorem InSync.updateMerkleRoot (kept : adapter.NotDestructive)
    (injective : Function.Injective enc.encodeKey)
    (sized : ∀ key, (enc.encodeKey key).length = n) (free : CollisionFree hasher inPlay)
    (zero : backing 0 = .empty) (inSync : InSync hasher backing enc n inPlay mixin m entries)
    (current : ∀ t, TrieOf enc (2 * n) m t → t ∈ inPlay) (height : Nat) :
    ∃ mixin' entries', mixin.updateMerkleRoot hasher backing enc adapter e height = some mixin' ∧
      InSync hasher backing enc n inPlay mixin' m entries' ∧
      Tracks enc entries' m.lookup := by
  obtain ⟨rootNode, entries', run, holds, applied, untouched, outside⟩ := applyDeltasToTree_holds
    e kept injective sized (fun k => (inSync.refines k).1) mixin.tree
    (readThrough_zero free inSync.sound zero) inSync.holds mixin.nextGenerationId height
  have content : ∀ k, entries' (keyNibbles enc k) =
      (mixin.set.cell k).content.map enc.encodeValue := by
    intro k
    rw [inSync.generation] at applied untouched
    by_cases quiet : (mixin.set.cell k).Untouched ∨
        mixin.set.keyGenerationId k ≠ mixin.set.generationId
    · rw [untouched k ?_]
      · exact inSync.agrees k quiet
      · rw [needsApplication_current, decide_eq_false_iff_not]
        exact quiet.symm
    · push Not at quiet
      refine applied k ?_ quiet.1
      rw [needsApplication_current, decide_eq_true_iff]
      exact quiet.2
  have tracks : Tracks enc entries' m.lookup := by
    refine ⟨fun k => ?_, fun q other => (outside q other).trans (inSync.others q other)⟩
    rw [content, (inSync.refines k).2]
  obtain ⟨t, rep, canon, lookups⟩ := holds
  have mem : t ∈ inPlay := by
    refine current t ⟨canon, ?_⟩
    rwa [show Library.PathTrie.lookup t = entries' from funext lookups]
  obtain ⟨sound', rep'⟩ := checkpoint_holds { mixin.tree with rootNode := rootNode } free
    inSync.sound mem rep
  refine ⟨_, entries', by simp only [PatriciaTreeDeltaMixin.updateMerkleRoot, run,
    bind_eq_bind, bind_some]; rfl, ?_, tracks⟩
  exact ⟨inSync.refines, rfl, sound', ⟨t, rep', canon, lookups⟩, fun k _ => content k,
    tracks.others⟩

end Update

omit [DecidableEq H] [Zero H] in
private theorem TrieOf.unique {enc : Encoder K V H} {n : Nat} {m : Map K V} {t u : Trie Nibble H}
    (left : TrieOf enc n m t) (right : TrieOf enc n m u) : t = u := by
  refine left.1.unique right.1 fun q => ?_
  by_cases named : ∃ key, q = keyNibbles enc key
  · obtain ⟨key, rfl⟩ := named
    rw [left.2.encoded, right.2.encoded]
  · push Not at named
    rw [left.2.others q named, right.2.others q named]

def mapAfter (toKey : V → K) (m : Map K V) : List (MixinOperation K V) → Map K V
  | [] => m
  | .delta op :: ops => mapAfter toKey (applyToMap toKey m op) ops
  | .updateMerkleRoot _ :: ops => mapAfter toKey m ops

def triesInPlay (enc : Encoder K V H) (n : Nat) (toKey : V → K) (base : Map K V)
    (ops : List (MixinOperation K V)) : Set (Trie Nibble H) :=
  {u | u = .empty ∨ ∃ past, past <+: ops ∧
    ∃ t, TrieOf enc (2 * n) (mapAfter toKey base past) t ∧ Subtrie u t}

section Run

variable (hasher : NodeHasher H) (backing : H → TreeNode H) (enc : Encoder K V H)
  (adapter : IsActiveAdapter V) (e : Enumeration K V) (toKey : V → K) {n : Nat} {base : Map K V}

omit [DecidableEq H] in
private theorem collisionFree_triesInPlay {ops : List (MixinOperation K V)}
    (injOn : Set.InjOn (trieHash hasher) (triesInPlay enc n toKey base ops)) :
    CollisionFree hasher (triesInPlay enc n toKey base ops) := by
  refine ⟨Or.inl rfl, fun p c a mem => ?_, injOn⟩
  rcases mem with absurdity | ⟨past, earlier, t, trie, inside⟩
  · simp at absurdity
  · exact Or.inr ⟨past, earlier, t, trie, inside.of_branch a⟩

variable {hasher backing enc adapter} {ops : List (MixinOperation K V)}

variable {inPlay : Set (Trie Nibble H)}

private theorem InSync.run (kept : adapter.NotDestructive)
    (injective : Function.Injective enc.encodeKey) (sized : ∀ key, (enc.encodeKey key).length = n)
    (free : CollisionFree hasher inPlay) (zero : backing 0 = .empty)
    {mixin : PatriciaTreeDeltaMixin K V H} {m : Map K V} {entries : List Nibble → Option H}
    (inSync : InSync hasher backing enc n inPlay mixin m entries)
    (current : ∀ past, past <+: ops → ∀ t, TrieOf enc (2 * n) (mapAfter toKey m past) t →
      t ∈ inPlay) :
    ∃ mixin' entries', applyMixinOperations hasher backing enc adapter e toKey mixin ops =
        some mixin' ∧
      InSync hasher backing enc n inPlay mixin' (mapAfter toKey m ops) entries' := by
  induction ops generalizing mixin m entries with
  | nil => exact ⟨mixin, entries, rfl, inSync⟩
  | cons op ops ih =>
    cases op with
    | delta op =>
      obtain ⟨mixin', entries', run, inSync'⟩ := ih (inSync.delta toKey op)
        fun past earlier => current (.delta op :: past) (cons_prefix_cons.mpr ⟨rfl, earlier⟩)
      exact ⟨mixin', entries', run, inSync'⟩
    | updateMerkleRoot height =>
      obtain ⟨mixin₁, entries₁, step, inSync₁, -⟩ := inSync.updateMerkleRoot e kept injective sized
        free zero (current [] nil_prefix) height
      obtain ⟨mixin', entries', run, inSync'⟩ := ih inSync₁ fun past earlier =>
        current (.updateMerkleRoot height :: past) (cons_prefix_cons.mpr ⟨rfl, earlier⟩)
      refine ⟨mixin', entries', ?_, inSync'⟩
      simp only [applyMixinOperations, applyMixinOperation, step, bind_eq_bind, bind_some, run]

private theorem applyMixinOperations_concat {mixin mixin' : PatriciaTreeDeltaMixin K V H}
    (run : applyMixinOperations hasher backing enc adapter e toKey mixin ops = some mixin')
    (op : MixinOperation K V) :
    applyMixinOperations hasher backing enc adapter e toKey mixin (ops ++ [op]) =
      applyMixinOperation hasher backing enc adapter e toKey mixin' op := by
  induction ops generalizing mixin with
  | nil =>
    obtain rfl := some.inj run
    simp [applyMixinOperations]
  | cons first ops ih =>
    obtain ⟨next, step, rest⟩ := bind_eq_some_iff.mp run
    rw [cons_append]
    simp only [applyMixinOperations, bind_eq_bind, step, bind_some]
    exact ih rest

omit [DecidableEq H] in
private theorem recomputed_trie (hasher : NodeHasher H) (source : H → TreeNode H)
    (unsaved : source 0 = .empty) (injective : Function.Injective enc.encodeKey)
    (sized : ∀ key, (enc.encodeKey key).length = n) (m : Map K V) :
    ∃ fresh t, applyOperations hasher source enc .empty
        ((e.order m).map fun pair => .set pair.1 pair.2) = some fresh ∧
      TrieOf enc (2 * n) m t ∧ fresh.hash hasher = trieHash hasher t := by
  have start : Holds hasher source (2 * n) .empty fun _ => none := holds_empty
  have lengths : ∀ op ∈ (e.order m).map fun pair => PatriciaTree.Operation.set pair.1 pair.2,
      (keyPath enc op.key).size = 2 * n := by
    intro op _
    rw [size_keyPath, sized]
  obtain ⟨fresh, run, t, rep, canon, lookups⟩ :=
    start.applyOperations ⟨unsaved, fun _ _ => rfl⟩ lengths
  refine ⟨fresh, t, run, ⟨canon, fun key => ?_, fun q other => ?_⟩, rep.hash_eq⟩
  · rw [lookups]
    have written := entries_loop injective (fun _ => true) (fun pair => .set pair.1 pair.2)
      (fun _ => rfl) (e.distinct m) (fun _ => none) key
    simp only [filter_true, e.lookup_order] at written
    rw [written]
    cases m.lookup key <;> rfl
  · rw [lookups, foldl_applyToEntries_other enc _ other]

private theorem inSync_create {baseTrie : Trie Nibble H}
    (trie : TrieOf enc (2 * n) base baseTrie) (stored : Stored hasher backing baseTrie) :
    InSync hasher backing enc n inPlay
      (create backing base (trieHash hasher baseTrie)) base
      (Library.PathTrie.lookup baseTrie) := by
  have nothing : readThrough backing (⟨∅, ∅⟩ : MemoryDataSource H) = backing := rfl
  refine ⟨refines_create base, rfl, fun h saved => absurd rfl saved, ?_, fun k _ => ?_, trie.2.others⟩
  · rw [Stored] at stored
    simp only [create, BasePatriciaTreeDelta.load, nothing]
    exact ⟨baseTrie, stored, trie.1, fun _ => rfl⟩
  · rw [trie.2.encoded]
    simp [create, Cell.content]

end Run

/-- After every update of the merkle root, the tree that started as the stored tree of the base
map holds exactly the entries of the current map, and its root hash is the one of a tree
recomputed from that map. -/
theorem merkleRoot_tracks_map (hasher : NodeHasher H) (backing : H → TreeNode H)
    (enc : Encoder K V H) (adapter : IsActiveAdapter V) (e : Enumeration K V) (toKey : V → K)
    (n : Nat) (kept : adapter.NotDestructive) (injective : Function.Injective enc.encodeKey)
    (sized : ∀ key, (enc.encodeKey key).length = n) (zero : backing 0 = .empty)
    (base : Map K V) (baseTrie : Trie Nibble H) (started : TrieOf enc (2 * n) base baseTrie)
    (stored : Stored hasher backing baseTrie) (ops : List (MixinOperation K V)) (height : Nat)
    (noCollision : Set.InjOn (trieHash hasher) (triesInPlay enc n toKey base ops)) :
    ∃ mixin, applyMixinOperations hasher backing enc adapter e toKey
        (create backing base (trieHash hasher baseTrie))
        (ops ++ [.updateMerkleRoot height]) = some mixin ∧
      (∀ key, mixin.set.findConst .mutable key = (mapAfter toKey base ops).lookup key) ∧
      (∃ entries, Holds hasher (readThrough backing mixin.tree.memory) (2 * n) mixin.tree.rootNode
          entries ∧ Tracks enc entries (mapAfter toKey base ops).lookup) ∧
      (∀ key nodePath, ∃ visited, lookup hasher (readThrough backing mixin.tree.memory) enc
        mixin.tree.rootNode key nodePath = some (match (mapAfter toKey base ops).lookup key with
            | some v => (enc.encodeValue v, true)
            | none => (0, false), visited)) ∧
      ∃ fresh, applyOperations hasher (fun _ => .empty) enc .empty
          ((e.order (mapAfter toKey base ops)).map fun pair => .set pair.1 pair.2) = some fresh ∧
        mixin.tree.rootNode.hash hasher = fresh.hash hasher := by
  have free := collisionFree_triesInPlay hasher enc toKey noCollision
  have current : ∀ past, past <+: ops → ∀ t, TrieOf enc (2 * n) (mapAfter toKey base past) t →
      t ∈ triesInPlay enc n toKey base ops :=
    fun past earlier t trie => Or.inr ⟨past, earlier, t, trie, .refl t⟩
  obtain ⟨mixin₁, entries₁, run, inSync₁⟩ := (inSync_create started stored).run e toKey kept
    injective sized free zero current
  obtain ⟨mixin, entries, step, inSync, tracks⟩ := inSync₁.updateMerkleRoot e kept injective sized
    free zero (current ops (prefix_refl ops)) height
  refine ⟨mixin, (applyMixinOperations_concat e toKey run _).trans step,
    inSync.refines.findConst_eq .mutable nofun, ⟨entries, inSync.holds, tracks⟩,
    fun key nodePath => ?_, ?_⟩
  · have keySize : (keyPath enc key).size = 2 * n := by rw [size_keyPath, sized]
    obtain ⟨visited, found⟩ := inSync.holds.lookup
      ⟨readThrough_zero free inSync.sound zero, fun _ _ => rfl⟩ keySize nodePath
    refine ⟨visited, found.trans ?_⟩
    rw [tracks.encoded]
    cases (mapAfter toKey base ops).lookup key <;> rfl
  · obtain ⟨fresh, u, built, trie, hashed⟩ := recomputed_trie e hasher (fun _ => .empty) rfl
      injective sized (mapAfter toKey base ops)
    refine ⟨fresh, built, ?_⟩
    obtain ⟨t, rep, canon, lookups⟩ := inSync.holds
    have same : t = u := by
      refine TrieOf.unique ⟨canon, ?_⟩ trie
      rwa [show Library.PathTrie.lookup t = entries from funext lookups]
    rw [rep.hash_eq, hashed, same]

/-- A stored entry is removed, and inserted again after the merkle root was updated. -/
theorem merkleRoot_tracks_reinserted :
    let enc : Encoder UInt8 UInt8 Nat := ⟨fun key => [key], fun value => value.toNat⟩
    let hasher : NodeHasher Nat := ⟨fun p v => p.length + v + 1, fun _ _ => 0⟩
    let e := someEnumeration UInt8 UInt8
    let backing : Nat → TreeNode Nat :=
      fun hash => if hash = 10 then .leaf (keyPath enc 7) 7 else .empty
    ∃ mixin, applyMixinOperations hasher backing enc .unsupported e id
        (create backing (Finmap.insert 7 7 ∅) 10)
        [.delta (.remove 7), .updateMerkleRoot 1, .delta (.insert 7), .updateMerkleRoot 2] =
          some mixin ∧
      ∀ nodePath, ∃ visited, lookup hasher (readThrough backing mixin.tree.memory) enc
        mixin.tree.rootNode 7 nodePath = some ((7, true), visited) := by
  intro enc hasher e backing
  have injective : Function.Injective enc.encodeKey := fun a b same => (cons.inj same).1
  have inserted : ∀ m : Map UInt8 UInt8, (∀ key, key ≠ 7 → m.lookup key = none) →
      TrieOf enc 2 (m.insert 7 7) (.leaf (keyNibbles enc 7) 7) := by
    refine fun m absent => ⟨Or.inr rfl, fun key => ?_, fun q other => ?_⟩
    · rw [lookup_insert_apply]
      by_cases same : key = 7
      · subst same
        simp [Library.PathTrie.lookup, enc]
      · have apart : keyNibbles enc 7 ≠ keyNibbles enc key := fun equal =>
          same (injective ((keyNibbles_eq_iff enc 7 key).mp equal)).symm
        simp [Library.PathTrie.lookup, apart, same, absent]
    · simp [Library.PathTrie.lookup, (other 7).symm]
  have removed : TrieOf enc 2 ((Finmap.insert 7 7 ∅ : Map UInt8 UInt8).erase 7) .empty := by
    refine ⟨Or.inl rfl, fun key => ?_, fun _ _ => rfl⟩
    rw [lookup_erase_apply, lookup_insert_apply]
    split_ifs <;> simp [Library.PathTrie.lookup]
  have parts : ∀ u ∈ triesInPlay enc 1 id (Finmap.insert 7 7 ∅)
      [.delta (.remove 7), .updateMerkleRoot 1, .delta (.insert 7)],
      u = .empty ∨ u = .leaf (keyNibbles enc 7) 7 := by
    rintro u (rfl | ⟨past, earlier, t, trie, inside⟩)
    · exact Or.inl rfl
    · have only : t = .empty ∨ t = .leaf (keyNibbles enc 7) 7 := by
        rw [← mem_inits] at earlier
        simp only [inits, map_cons, map_nil, mem_cons, not_mem_nil, or_false] at earlier
        rcases earlier with rfl | rfl | rfl | rfl
        · exact Or.inr (trie.unique (inserted ∅ fun _ _ => rfl))
        · exact Or.inl (trie.unique removed)
        · exact Or.inl (trie.unique removed)
        · exact Or.inr (trie.unique (inserted _ fun key apart => by
            rw [applyToMap, lookup_erase_apply, lookup_insert_apply]
            simp [apart]))
      rcases only with rfl | rfl <;> cases inside <;> simp
  have noCollision : Set.InjOn (trieHash hasher) (triesInPlay enc 1 id (Finmap.insert 7 7 ∅)
      [.delta (.remove 7), .updateMerkleRoot 1, .delta (.insert 7)]) := by
    intro u memU w memW same
    rcases parts u memU with rfl | rfl <;> rcases parts w memW with rfl | rfl
    · rfl
    · simp [trieHash, hasher] at same
    · simp [trieHash, hasher] at same
    · rfl
  obtain ⟨mixin, run, -, -, found, -⟩ := merkleRoot_tracks_map hasher backing enc .unsupported e id
    1 trivial injective (fun _ => rfl) rfl _ _ (inserted ∅ fun _ _ => rfl)
    ⟨keyPath enc 7, rfl, rfl⟩
    [.delta (.remove 7), .updateMerkleRoot 1, .delta (.insert 7)] 2 noCollision
  exact ⟨mixin, run, fun nodePath => found 7 nodePath⟩

end BitxorCore.Cache
