/- GID: Tree/PatriciaTreeHistory
   anchors: [src/bitxorcore/tree/PatriciaTree.h]
   digest: A patricia tree is determined by the entries its operations leave. -/

import BitxorCore.Tree.PatriciaTree

set_option autoImplicit false
set_option relaxedAutoImplicit false

namespace BitxorCore.Tree.PatriciaTree
open List

open Library.PathTrie
  (Trie CanonicalRoot lookup_insert canonical_insert lookup_erase canonical_erase
    erase_of_lookup_none)

variable {K V H : Type} [Zero H] (enc : Encoder K V H)

def keyNibbles (key : K) : List Nibble := (keyPath enc key).nibbles

omit [Zero H] in
theorem size_keyPath (key : K) : (keyPath enc key).size = 2 * (enc.encodeKey key).length := rfl

omit [Zero H] in
theorem keyNibbles_eq_iff (key key' : K) : keyNibbles enc key = keyNibbles enc key' ↔
      enc.encodeKey key = enc.encodeKey key' := by
  constructor
  · exact fun same => nibbles_ofKey_injective same
  · intro same
    simp only [keyNibbles, keyPath, same]

/-- A node holds exactly the given entries, all under keys of `n` nibbles. -/
def Holds (hasher : NodeHasher H) (stored : H → TreeNode H) (n : Nat) (node : TreeNode H)
    (entries : List Nibble → Option H) : Prop :=
  ∃ t, Represents hasher stored t node ∧ CanonicalRoot t n ∧
    ∀ q, Library.PathTrie.lookup t q = entries q

def Operation.result : Operation K V → Option H
  | .set _ value => some (enc.encodeValue value)
  | .unset _ => none

def applyToEntries (entries : List Nibble → Option H) (op : Operation K V) :
    List Nibble → Option H :=
  Function.update entries (keyNibbles enc op.key) (op.result enc)

/-- The encoded value that a sequence of operations leaves at a key, keys being told apart by
their encodings. -/
def finalMap (ops : List (Operation K V)) (key : K) : Option H :=
  ops.foldl (fun found op => if enc.encodeKey op.key = enc.encodeKey key
    then op.result enc else found) none

/-- The value is the one most recently set for the key, which was not unset afterwards. -/
def MostRecentlySet (ops : List (Operation K V)) (key : K) (v : H) : Prop :=
  ∃ before setKey value after, ops = before ++ .set setKey value :: after ∧
    enc.encodeKey setKey = enc.encodeKey key ∧ enc.encodeValue value = v ∧
    ∀ op ∈ after, enc.encodeKey op.key ≠ enc.encodeKey key

section

variable {hasher : NodeHasher H} {source stored : H → TreeNode H} {n : Nat}
  {node : TreeNode H} {entries : List Nibble → Option H}

theorem holds_empty : Holds hasher stored n .empty fun _ => none :=
  ⟨.empty, rfl, Or.inl rfl, fun _ => rfl⟩

variable {enc}

section
variable (supplies : Supplies source stored) (holds : Holds hasher stored n node entries)
include supplies holds

private theorem Holds.set {key : K} (size : (keyPath enc key).size = n) (value : V) :
    ∃ node', PatriciaTree.set hasher source enc node key value = some node' ∧
      Holds hasher stored n node' (applyToEntries enc entries (.set key value)) := by
  obtain ⟨t, rep, canon, content⟩ := holds
  obtain ⟨node', call, rep'⟩ := setNode_represents supplies (enc.encodeValue value) rep
    canon size (Nat.lt_add_one_of_le size.ge)
  have length : (keyPath enc key).nibbles.length = n := by rw [length_nibbles, size]
  refine ⟨node', call, _, rep', Or.inr (canonical_insert canon _ length), ?_⟩
  intro q
  rw [lookup_insert canon _ length, content q]
  simp only [applyToEntries, Function.update_apply, Operation.key, keyNibbles, Operation.result]

private theorem Holds.unset {key : K} (size : (keyPath enc key).size = n) :
    ∃ node', PatriciaTree.unset hasher source enc node key =
        some ((entries (keyNibbles enc key)).isSome, node') ∧
      Holds hasher stored n node' (applyToEntries enc entries (.unset (V := V) key)) ∧
      (entries (keyNibbles enc key) = none → node' = node) := by
  obtain ⟨t, rep, canon, content⟩ := holds
  have erased : ∀ q, Library.PathTrie.lookup
      (Library.PathTrie.erase t (keyNibbles enc key)) q =
        applyToEntries enc entries (.unset (V := V) key) q := by
    intro q
    rw [lookup_erase, content q]
    simp only [applyToEntries, Function.update_apply, Operation.key, Operation.result]
  cases present : entries (keyNibbles enc key) with
  | none =>
    have absent := (content (keyNibbles enc key)).trans present
    have call := unsetNode_absent supplies node true rep canon size
      (Nat.lt_add_one_of_le size.ge) absent
    refine ⟨node, by simp [PatriciaTree.unset, call], ⟨t, rep, canon, ?_⟩, fun _ => rfl⟩
    intro q
    rw [← erased q, erase_of_lookup_none canon absent]
  | some v =>
    have found := (content (keyNibbles enc key)).trans present
    obtain ⟨node', merge, call, rep', -⟩ := unsetNode_present supplies node rep canon size
      (Nat.lt_add_one_of_le size.ge) found
    refine ⟨node', by simp [PatriciaTree.unset, call], ?_, by simp⟩
    exact ⟨_, rep', canonical_erase canon _, erased⟩

theorem Holds.lookup {key : K} (size : (keyPath enc key).size = n) (nodePath : List (TreeNode H)) :
    ∃ visited, PatriciaTree.lookup hasher source enc node key nodePath =
      some (match entries (keyNibbles enc key) with
        | some v => (v, true)
        | none => (0, false), visited) := by
  obtain ⟨t, rep, canon, content⟩ := holds
  obtain ⟨visited, call⟩ := lookupNode_represents supplies nodePath rep canon size.ge
    (Nat.lt_add_one_of_le size.ge)
  refine ⟨visited, ?_⟩
  rw [if_pos size] at call
  rw [← content (keyNibbles enc key)]
  exact call

private theorem Holds.applyOperation {op : Operation K V} (size : (keyPath enc op.key).size = n) :
    ∃ node', PatriciaTree.applyOperation hasher source enc node op = some node' ∧
      Holds hasher stored n node' (applyToEntries enc entries op) := by
  cases op with
  | set key value => exact holds.set supplies size value
  | unset key =>
    obtain ⟨node', call, holds', -⟩ := holds.unset supplies size (V := V)
    rw [Operation.key] at call
    exact ⟨node', by rw [PatriciaTree.applyOperation, call, Option.map_some], holds'⟩

theorem Holds.applyOperations {ops : List (Operation K V)}
    (sized : ∀ op ∈ ops, (keyPath enc op.key).size = n) :
    ∃ node', PatriciaTree.applyOperations hasher source enc node ops = some node' ∧
      Holds hasher stored n node' (ops.foldl (applyToEntries enc) entries) := by
  induction ops generalizing node entries with
  | nil => exact ⟨node, rfl, holds⟩
  | cons op ops ih =>
    obtain ⟨next, step, holds'⟩ := holds.applyOperation supplies (sized op (by simp))
    obtain ⟨node', run, holds''⟩ := ih holds' fun later mem => sized later (by simp [mem])
    exact ⟨node', by simp [PatriciaTree.applyOperations, step, run], holds''⟩

end

end

/-! What a sequence of operations denotes. -/

variable (ops : List (Operation K V))

omit [Zero H] in
private theorem foldl_applyToEntries (key : K)
    (entries : List Nibble → Option H) :
    ops.foldl (applyToEntries enc) entries (keyNibbles enc key) =
      ops.foldl (fun found op => if enc.encodeKey op.key = enc.encodeKey key
        then op.result enc else found) (entries (keyNibbles enc key)) := by
  induction ops generalizing entries with
  | nil => rfl
  | cons op ops ih =>
      simp [foldl_cons, ih, applyToEntries, Function.update_apply, keyNibbles_eq_iff, eq_comm]

omit [Zero H] in
theorem foldl_applyToEntries_other {q : List Nibble}
    (other : ∀ key, q ≠ keyNibbles enc key) (entries : List Nibble → Option H) :
    ops.foldl (applyToEntries enc) entries q = entries q := by
  induction ops generalizing entries with
  | nil => rfl
  | cons op ops ih =>
    rw [foldl_cons, ih, applyToEntries, Function.update_of_ne (other _)]

omit [Zero H] in
theorem entries_finalMap (key : K) :
    ops.foldl (applyToEntries enc) (fun _ => none) (keyNibbles enc key) = finalMap enc ops key :=
  foldl_applyToEntries enc ops key _

omit [Zero H] in
theorem entries_eq_of_finalMap {ops ops' : List (Operation K V)}
    (same : ∀ key, finalMap enc ops key = finalMap enc ops' key) :
    ops.foldl (applyToEntries enc) (fun _ => none) =
      ops'.foldl (applyToEntries enc) fun _ => none := by
  funext q
  by_cases named : ∃ key, q = keyNibbles enc key
  · obtain ⟨key, rfl⟩ := named
    rw [entries_finalMap, entries_finalMap, same]
  · simp_all [foldl_applyToEntries_other]

omit [Zero H] in
private theorem finalMap_eq_some_iff (key : K) (v : H) :
    finalMap enc ops key = some v ↔ MostRecentlySet enc ops key v := by
  induction ops using reverseRecOn with
  | nil => simp [finalMap, MostRecentlySet]
  | append_singleton ops op ih =>
    have last : finalMap enc (ops ++ [op]) key =
        if enc.encodeKey op.key = enc.encodeKey key then op.result enc
        else finalMap enc ops key := by
      simp [finalMap]
    rw [last]
    by_cases here : enc.encodeKey op.key = enc.encodeKey key
    · rw [if_pos here]
      constructor
      · intro result
        cases op with
        | unset unsetKey => simp [Operation.result] at result
        | set setKey value =>
          exact ⟨ops, setKey, value, [], rfl, here, by simpa [Operation.result] using result,
            by simp⟩
      · rintro ⟨before, setKey, value, after, shape, -, rfl, later⟩
        -- the last operation hits the key, so it is the set itself
        cases after using reverseRecOn with
        | nil =>
          obtain ⟨-, rfl⟩ := append_inj' shape rfl |>.imp id singleton_inj.mp
          rfl
        | append_singleton after tail =>
          rw [← cons_append, ← append_assoc] at shape
          obtain ⟨-, rfl⟩ := append_inj' shape rfl |>.imp id singleton_inj.mp
          exact absurd here (later op (by simp))
    · rw [if_neg here, ih]
      constructor
      · rintro ⟨before, setKey, value, after, rfl, hit, encoded, later⟩
        refine ⟨before, setKey, value, after ++ [op], by simp, hit, encoded, ?_⟩
        intro other mem
        rcases mem_append.mp mem with mem | mem
        · exact later other mem
        · rwa [mem_singleton.mp mem]
      · rintro ⟨before, setKey, value, after, shape, hit, encoded, later⟩
        cases after using reverseRecOn with
        | nil =>
          obtain ⟨-, rfl⟩ := append_inj' shape rfl |>.imp id singleton_inj.mp
          exact absurd hit here
        | append_singleton after tail =>
          rw [← cons_append, ← append_assoc] at shape
          obtain ⟨rfl, -⟩ := append_inj' shape rfl
          exact ⟨before, setKey, value, after, rfl, hit, encoded,
            fun other mem => later other (by simp [mem])⟩

/-! History independence. -/

/-- Two trees of the same shape: paths compare equal, leaves carry one value, branches the
same link bits, link hashes and linked nodes. -/
def Identical (hasher : NodeHasher H) : TreeNode H → TreeNode H → Prop
  | .empty, .empty => True
  | .leaf p v, .leaf q w => p.equals q = true ∧ v = w
  | .branch p links nodes set, .branch q links' nodes' set' =>
      p.equals q = true ∧ set = set' ∧ (∀ i, BranchTreeNode.link hasher ⟨p, links, nodes, set⟩ i =
          BranchTreeNode.link hasher ⟨q, links', nodes', set'⟩ i) ∧
        ∀ i, Identical hasher (nodes i) (nodes' i)
  | _, _ => False

variable {hasher : NodeHasher H}

private theorem SlotRepresents.in_memory {child : Trie Nibble H}
    {b : BranchTreeNode H} {i : Nibble} (slot : SlotRepresents hasher (fun _ => .empty) child
      (Represents hasher (fun _ => .empty) child) b i) :
    Represents hasher (fun _ => .empty) child (b.linkedNodes i) := by
  rcases slot with ⟨rfl, -, linked, -⟩ | ⟨-, -, -, below⟩ | ⟨present, -, -, -, below⟩
  · exact linked
  · exact below
  · exact absurd (below.eq_empty_iff.mp rfl) present

/-- Without stored nodes a trie has one representation up to the alignment of paths. -/
private theorem Represents.identical {t : Trie Nibble H} {node node' : TreeNode H}
    (left : Represents hasher (fun _ => .empty) t node)
    (right : Represents hasher (fun _ => .empty) t node') : Identical hasher node node' := by
  induction t generalizing node node' with
  | empty =>
    obtain rfl : node = .empty := left
    obtain rfl : node' = .empty := right
    trivial
  | leaf p v =>
    obtain ⟨path, rfl, rfl⟩ := left
    obtain ⟨path', rfl, same⟩ := right
    exact ⟨(equals_iff _ _).mpr same.symm, rfl⟩
  | branch p c ih =>
    obtain ⟨b, rfl, rfl, slots⟩ := left
    obtain ⟨b', rfl, same, slots'⟩ := right
    refine ⟨(equals_iff _ _).mpr same.symm, ?_, fun i => ?_, fun i => ?_⟩
    · funext i
      rw [Bool.eq_iff_iff, BranchRepresents.linkSet_iff slots, BranchRepresents.linkSet_iff slots']
    · rw [(slots i).link_eq fun _ below => below.hash_eq,
        (slots' i).link_eq fun _ below => below.hash_eq]
    · exact ih i (slots i).in_memory (slots' i).in_memory

variable {source : H → TreeNode H}

private theorem supplies_nothing (unsaved : source 0 = .empty) : Supplies source fun _ => .empty :=
  ⟨unsaved, fun _ saved => absurd rfl saved⟩

private theorem run_from_empty (hasher : NodeHasher H)
    (unsaved : source 0 = .empty) (ops : List (Operation K V)) {n : Nat}
    (sized : ∀ op ∈ ops, (enc.encodeKey op.key).length = n) :
    ∃ root, applyOperations hasher source enc .empty ops = some root ∧
      Holds hasher (fun _ => .empty) (2 * n) root
        (ops.foldl (applyToEntries enc) fun _ => none) :=
  holds_empty.applyOperations (supplies_nothing unsaved) fun op mem => by
    rw [size_keyPath, sized op mem]

/-- Two sequences of operations that denote the same map build structurally identical trees
with the same root hash. -/
theorem trees_identical_of_same_map (hasher : NodeHasher H) (source dataSource' : H → TreeNode H)
    (unsaved : source 0 = .empty) (unsaved' : dataSource' 0 = .empty)
    (ops ops' : List (Operation K V)) (n : Nat)
    (sized : ∀ op ∈ ops ++ ops', (enc.encodeKey op.key).length = n)
    (same : ∀ key, finalMap enc ops key = finalMap enc ops' key) :
    ∃ root root', applyOperations hasher source enc .empty ops = some root ∧
      applyOperations hasher dataSource' enc .empty ops' = some root' ∧
      Identical hasher root root' ∧ root.hash hasher = root'.hash hasher := by
  obtain ⟨root, run, t, rep, canon, content⟩ := run_from_empty enc hasher unsaved ops
    fun op mem => sized op (mem_append_left _ mem)
  obtain ⟨root', run', t', rep', canonical', content'⟩ := run_from_empty enc hasher unsaved'
    ops' fun op mem => sized op (mem_append_right _ mem)
  have tries : t = t' := by
    refine canon.unique canonical' fun q => ?_
    rw [content, content', entries_eq_of_finalMap enc same]
  subst tries
  exact ⟨root, root', run, run', rep.identical rep', rep.hash_eq.trans rep'.hash_eq.symm⟩

theorem trees_identical_after_detour :
    let enc : Encoder UInt8 Nat Nat := ⟨fun key => [key], fun value => value⟩
    let hasher : NodeHasher Nat := ⟨fun p v => p.length + v, fun p links => p.length + links 1⟩
    ∃ root root', applyOperations hasher (fun _ => .empty) enc .empty
        [.set 0x11 5, .set 0x12 6] = some root ∧
      applyOperations hasher (fun _ => .empty) enc .empty
        [.set 0x12 6, .set 0x21 7, .set 0x11 5, .unset 0x21] = some root' ∧
      Identical hasher root root' ∧ root.hash hasher = root'.hash hasher := by
  intro enc hasher
  refine trees_identical_of_same_map enc hasher _ _ rfl rfl _ _ 1 ?_ ?_
  · intro op mem
    cases op <;> rfl
  · intro key
    simp only [finalMap, enc, foldl_cons, foldl_nil, Operation.key,
      Operation.result, cons.injEq, and_true]
    grind

/-- `lookup` returns exactly the value most recently set, and `unset` reports exactly the keys
that are present and changes nothing for the others. -/
theorem lookup_and_unset_exact (hasher : NodeHasher H) (source : H → TreeNode H)
    (unsaved : source 0 = .empty) (ops : List (Operation K V)) (key : K) (n : Nat)
    (sized : ∀ op ∈ ops, (enc.encodeKey op.key).length = n)
    (size : (enc.encodeKey key).length = n) :
    ∃ root, applyOperations hasher source enc .empty ops = some root ∧
      (∀ nodePath, ∃ result visited,
        lookup hasher source enc root key nodePath = some (result, visited) ∧
        (∀ v, result = (v, true) ↔ MostRecentlySet enc ops key v) ∧
        ((∀ v, ¬ MostRecentlySet enc ops key v) → result = (0, false))) ∧
      ∃ removed root', unset hasher source enc root key = some (removed, root') ∧
        (removed = true ↔ ∃ v, MostRecentlySet enc ops key v) ∧
        (removed = false → root' = root) := by
  have keySize : (keyPath enc key).size = 2 * n := by rw [size_keyPath, size]
  obtain ⟨root, run, holds⟩ := run_from_empty enc hasher unsaved ops sized
  refine ⟨root, run, fun nodePath => ?_, ?_⟩
  · obtain ⟨visited, call⟩ := holds.lookup (supplies_nothing unsaved) keySize nodePath
    rw [entries_finalMap] at call
    refine ⟨_, visited, call, fun v => ?_, fun never => ?_⟩
    · rw [← finalMap_eq_some_iff]
      cases finalMap enc ops key <;> simp
    · cases final : finalMap enc ops key with
      | none => rfl
      | some v => exact absurd ((finalMap_eq_some_iff enc ops key v).mp final) (never v)
  · obtain ⟨root', call, -, kept⟩ := holds.unset (supplies_nothing unsaved) keySize (V := V)
    rw [entries_finalMap] at call kept
    refine ⟨_, root', call, ?_, fun absent => kept (by simpa using absent)⟩
    simp only [Option.isSome_iff_exists, finalMap_eq_some_iff]

theorem lookup_and_unset_exact_after_unset :
    let enc : Encoder UInt8 Nat Nat := ⟨fun key => [key], fun value => value⟩
    let hasher : NodeHasher Nat := ⟨fun p v => p.length + v, fun p links => p.length + links 1⟩
    let ops : List (Operation UInt8 Nat) := [.set 0x11 5, .set 0x12 6, .unset 0x11]
    ∃ root, applyOperations hasher (fun _ => .empty) enc .empty ops = some root ∧
      (∀ nodePath, ∃ result visited,
        lookup hasher (fun _ => .empty) enc root 0x12 nodePath = some (result, visited) ∧
        (∀ v, result = (v, true) ↔ MostRecentlySet enc ops 0x12 v) ∧
        ((∀ v, ¬ MostRecentlySet enc ops 0x12 v) → result = (0, false))) ∧
      ∃ removed root', unset hasher (fun _ => .empty) enc root 0x12 = some (removed, root') ∧
        (removed = true ↔ ∃ v, MostRecentlySet enc ops 0x12 v) ∧
        (removed = false → root' = root) := by
  intro enc hasher ops
  refine lookup_and_unset_exact enc hasher _ rfl ops 0x12 1 ?_ rfl
  intro op mem
  cases op <;> rfl

end BitxorCore.Tree.PatriciaTree
