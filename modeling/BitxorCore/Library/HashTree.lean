/- GID: Library/HashTree
   anchors: []
   digest: Lists reduced level by level to one hash, and the tree that this hash determines. -/

import Mathlib.Data.List.Basic

set_option autoImplicit false
set_option relaxedAutoImplicit false

namespace BitxorCore.Library
open List

universe u v

variable {α : Type u} {β : Type v}

/-- The next level: neighbours are combined, and an odd last element with itself. -/
def pairUp (combine : β → β → β) : List β → List β
  | first :: second :: rest => combine first second :: pairUp combine rest
  | [last] => [combine last last]
  | [] => []

theorem length_pairUp (combine : β → β → β) (level : List β) :
    (pairUp combine level).length = (level.length + 1) / 2 := by
  fun_induction pairUp with
  | case1 first second rest ih =>
    rw [length_cons, ih, length_cons, length_cons]
    omega
  | case2 => simp
  | case3 => simp

def reduceLevels (combine : β → β → β) : List β → Option β
  | [] => none
  | [only] => some only
  | first :: second :: rest => reduceLevels combine (combine first second :: pairUp combine rest)
termination_by level => level.length
decreasing_by
  rw [length_cons, length_pairUp, length_cons, length_cons]
  omega

theorem reduceLevels_pairUp (combine : β → β → β) {level : List β} (several : 1 < level.length) :
    reduceLevels combine level = reduceLevels combine (pairUp combine level) := by
  match level with
  | first :: second :: rest => rw [reduceLevels, pairUp]

theorem reduceLevels_eq_none {combine : β → β → β} {level : List β} :
    reduceLevels combine level = none ↔ level = [] := by
  fun_induction reduceLevels with
  | case1 => simp
  | case2 only => simp
  | case3 first second rest ih => simp [ih]

section Closure

variable {combine : β → β → β} {property : β → Prop} {level : List β}

theorem forall_mem_pairUp (closed : ∀ x y, property x → property y → property (combine x y))
    (all : ∀ x ∈ level, property x) : ∀ x ∈ pairUp combine level, property x := by
  fun_induction pairUp combine level with
  | case1 first second rest ih =>
    simp only [forall_mem_cons] at all ⊢
    exact ⟨closed _ _ all.1 all.2.1, ih all.2.2⟩
  | case2 last =>
    simp only [forall_mem_cons] at all ⊢
    exact ⟨closed _ _ all.1 all.1, all.2⟩
  | case3 => exact all

theorem reduceLevels_closed (property : β → Prop)
    (closed : ∀ x y, property x → property y → property (combine x y))
    (all : ∀ x ∈ level, property x) {top : β} (reduced : reduceLevels combine level = some top) :
    property top := by
  fun_induction reduceLevels combine level with
  | case1 => cases reduced
  | case2 only =>
    cases reduced
    exact all _ mem_cons_self
  | case3 first second rest ih => exact ih (forall_mem_pairUp closed all) reduced

end Closure

section Homomorphisms

variable {γ : Type*} {combine : β → β → β} {combine' : γ → γ → γ} {f : β → γ}

section
variable (respects : ∀ x y, f (combine x y) = combine' (f x) (f y)) (level : List β)
include respects level

theorem map_pairUp : (pairUp combine level).map f = pairUp combine' (level.map f) := by
  fun_induction pairUp combine level with
  | case1 first second rest ih => rw [map_cons, ih, respects]; rfl
  | case2 last => simp only [map_cons, map_nil, pairUp, respects]
  | case3 => rfl

theorem map_reduceLevels :
    (reduceLevels combine level).map f = reduceLevels combine' (level.map f) := by
  fun_induction reduceLevels combine level with
  | case1 => rw [map_nil, reduceLevels]; rfl
  | case2 only => rw [map_cons, map_nil, reduceLevels]; rfl
  | case3 first second rest ih =>
    rw [ih, map_cons, map_pairUp respects, respects, map_cons, map_cons, reduceLevels]

end

end Homomorphisms

section Injectivity

variable {combine : β → β → β}

theorem pairUp_injective (injective : Function.Injective2 combine) :
    ∀ {level other : List β}, level.length = other.length →
      pairUp combine level = pairUp combine other → level = other
  | [], [], _, _ => rfl
  | [last], [last'], _, same => by
    obtain ⟨rfl, _⟩ := injective (singleton_inj.mp same)
    rfl
  | first :: second :: rest, first' :: second' :: rest', long, same => by
    obtain ⟨heads, tails⟩ := cons.inj same
    obtain ⟨rfl, rfl⟩ := injective heads
    rw [pairUp_injective injective (by simpa using long) tails]

theorem reduceLevels_injective (injective : Function.Injective2 combine) {level other : List β}
    (long : level.length = other.length)
    (same : reduceLevels combine level = reduceLevels combine other) : level = other := by
  induction size : level.length using Nat.strongRecOn generalizing level other with
  | _ n ih =>
    by_cases several : 1 < level.length
    · have severalOther : 1 < other.length := long ▸ several
      rw [reduceLevels_pairUp combine several, reduceLevels_pairUp combine severalOther] at same
      refine pairUp_injective injective long (ih _ ?_ ?_ same rfl)
      · rw [length_pairUp]
        omega
      · rw [length_pairUp, length_pairUp, long]
    · match level, other with
      | [], [] => rfl
      | [only], [only'] =>
        rw [reduceLevels, reduceLevels] at same
        rw [Option.some.inj same]
      | _ :: _ :: _, _ => simp at several
      | [], _ :: _ => simp at long
      | [_], [] => simp at long
      | [_], _ :: _ :: _ => simp at long

end Injectivity

inductive HashTree (α : Type u)
  | leaf (content : α)
  | node (left right : HashTree α)
  deriving DecidableEq

namespace HashTree

def fold (onLeaf : α → β) (combine : β → β → β) : HashTree α → β
  | leaf content => onLeaf content
  | node left right => combine (left.fold onLeaf combine) (right.fold onLeaf combine)

def leaves : HashTree α → List α
  | leaf content => [content]
  | node left right => left.leaves ++ right.leaves

def shape : HashTree α → HashTree Unit := fold (fun _ => leaf ()) node

/-- The tree over the elements of a list; odd levels are completed by their last node. -/
def ofList (contents : List α) : Option (HashTree α) := reduceLevels node (contents.map leaf)

theorem node_injective : Function.Injective2 (node (α := α)) := fun _ _ _ _ same => node.inj same

variable {contents : List α}

theorem ofList_eq_none : ofList contents = none ↔ contents = [] := by
  rw [ofList, reduceLevels_eq_none, map_eq_nil_iff]

theorem map_fold_ofList (onLeaf : α → β) (combine : β → β → β) (contents : List α) :
    (ofList contents).map (fold onLeaf combine) = reduceLevels combine (contents.map onLeaf) := by
  rw [ofList, map_reduceLevels (fun _ _ => rfl), map_map]
  rfl

theorem shape_ofList {others : List α} (long : contents.length = others.length) :
    (ofList contents).map shape = (ofList others).map shape := by
  unfold shape
  rw [map_fold_ofList, map_fold_ofList, map_const', map_const', long]

theorem ofList_injective {others : List α} (long : contents.length = others.length)
    (same : ofList contents = ofList others) : contents = others := by
  have levels := reduceLevels_injective node_injective (by simpa using long) same
  exact map_injective_iff.mpr (fun _ _ => leaf.inj) levels

theorem mem_of_mem_leaves {tree : HashTree α}
    (built : ofList contents = some tree) : ∀ content ∈ tree.leaves, content ∈ contents := by
  refine reduceLevels_closed (fun tree => ∀ content ∈ tree.leaves, content ∈ contents) ?_ ?_ built
  · intro left right inLeft inRight content mem
    exact (mem_append.mp mem).elim (inLeft content) (inRight content)
  · intro single mem content isLeaf
    obtain ⟨same, inside, rfl⟩ := mem_map.mp mem
    rwa [mem_singleton.mp isLeaf]

section Hashing

variable {M H : Type*} (hash : M → H) (pair : H → H → M)

/-- The hash of a tree of messages: a leaf is hashed itself, a node by the pair of its hashes. -/
def hashOf : HashTree M → H := fold hash fun left right => hash (pair left right)

def input : HashTree M → M
  | leaf msg => msg
  | node left right => pair (left.hashOf hash pair) (right.hashOf hash pair)

def inputs : HashTree M → List M
  | leaf msg => [msg]
  | node left right =>
    pair (left.hashOf hash pair) (right.hashOf hash pair) :: (left.inputs ++ right.inputs)

/-- What is hashed for the inner nodes. -/
def pairs : HashTree M → List M
  | leaf _ => []
  | node left right =>
    pair (left.hashOf hash pair) (right.hashOf hash pair) :: (left.pairs ++ right.pairs)

variable {hash pair} (tree : HashTree M)

theorem hashOf_eq : tree.hashOf hash pair = hash (tree.input hash pair) := by
  cases tree <;> rfl

theorem input_mem_inputs : tree.input hash pair ∈ tree.inputs hash pair := by
  cases tree <;> exact mem_cons_self

def CollisionFree (hash : M → H) (msgs : List M) : Prop :=
  ∀ first ∈ msgs, ∀ second ∈ msgs, hash first = hash second → first = second

instance [DecidableEq M] [DecidableEq H] (hash : M → H) (msgs : List M) :
    Decidable (CollisionFree hash msgs) :=
  inferInstanceAs (Decidable (∀ first ∈ msgs, ∀ second ∈ msgs, _ → _))

variable {tree other : HashTree M} {msgs : List M}

section
variable (free : CollisionFree hash msgs) (covered : ∀ msg ∈ tree.inputs hash pair, msg ∈ msgs)
  (coveredOther : ∀ msg ∈ other.inputs hash pair, msg ∈ msgs)
  (same : tree.hashOf hash pair = other.hashOf hash pair)
include free covered coveredOther same

private theorem input_eq_of_hashOf_eq : tree.input hash pair = other.input hash pair := by
  rw [hashOf_eq, hashOf_eq] at same
  exact free _ (covered _ (input_mem_inputs tree)) _ (coveredOther _ (input_mem_inputs other)) same

/-- Without collisions the hash determines the tree, when leaves cannot be taken for nodes: the
trees have one shape, or no leaf of one reads as an inner node of the other. -/
theorem eq_of_hashOf_eq (injective : Function.Injective2 pair) (told : tree.shape = other.shape ∨
      (∀ msg ∈ tree.leaves, msg ∉ other.pairs hash pair) ∧
        ∀ msg ∈ other.leaves, msg ∉ tree.pairs hash pair) : tree = other := by
  induction tree generalizing other with
  | leaf msg =>
    have top := input_eq_of_hashOf_eq free covered coveredOther same
    cases other with
    | leaf message' => exact congrArg leaf top
    | node left right =>
      rcases told with shapes | plain
      · cases shapes
      · exact absurd (mem_cons.mpr (.inl top)) (plain.1 _ mem_cons_self)
  | node left right ihLeft ihRight =>
    have top := input_eq_of_hashOf_eq free covered coveredOther same
    cases other with
    | leaf message' =>
      rcases told with shapes | plain
      · cases shapes
      · exact absurd (mem_cons.mpr (.inl top.symm)) (plain.2 _ mem_cons_self)
    | node left' right' =>
      obtain ⟨lefts, rights⟩ := injective top
      simp only [inputs, mem_cons, mem_append] at covered coveredOther
      rw [ihLeft (fun m mem => covered m (.inr (.inl mem)))
          (fun m mem => coveredOther m (.inr (.inl mem))) lefts ?_,
        ihRight (fun m mem => covered m (.inr (.inr mem)))
          (fun m mem => coveredOther m (.inr (.inr mem))) rights ?_]
      · refine told.imp (fun shapes => (node.inj shapes).2) fun ⟨plain, plainOther⟩ => ?_
        exact ⟨fun msg mem inside => plain msg (mem_append_right _ mem)
            (mem_cons_of_mem _ (mem_append_right _ inside)),
          fun msg mem inside => plainOther msg (mem_append_right _ mem)
            (mem_cons_of_mem _ (mem_append_right _ inside))⟩
      · refine told.imp (fun shapes => (node.inj shapes).1) fun ⟨plain, plainOther⟩ => ?_
        exact ⟨fun msg mem inside => plain msg (mem_append_left _ mem)
            (mem_cons_of_mem _ (mem_append_left _ inside)),
          fun msg mem inside => plainOther msg (mem_append_left _ mem)
            (mem_cons_of_mem _ (mem_append_left _ inside))⟩

end

end Hashing

end HashTree

end BitxorCore.Library
