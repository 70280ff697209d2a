/- GID: Library/ParentForest
   anchors: []
   digest: A forest that grows by branches and never changes the parent of a node it holds. -/

import Mathlib.Data.List.Nodup
import Mathlib.Data.List.Chain
import Mathlib.Data.List.Infix
import Mathlib.Data.List.Perm.Subperm

set_option autoImplicit false
set_option relaxedAutoImplicit false

namespace BitxorCore.Library.ParentForest
open List Prod

variable {K : Type}

/-- Nodes with the parents they were inserted with, the newest first. -/
abbrev Nodes (K : Type) := List (K × Option K)

def Grown : Nodes K → Prop
  | [] => True
  | (key, parent) :: rest =>
    key ∉ rest.map fst ∧ (∀ above, parent = some above → above ∈ rest.map fst) ∧ Grown rest

structure Forest (K : Type) where
  nodes : Nodes K
  grown : Grown nodes

variable [DecidableEq K]

namespace Nodes

def path : Nodes K → K → List K
  | [], _ => []
  | (key, parent) :: rest, target =>
    if key = target then key :: parent.elim [] fun above => path rest above else path rest target

def parent : Nodes K → K → Option K
  | [], _ => none
  | (key, above) :: rest, target => if key = target then above else parent rest target

def insert (nodes : Nodes K) (key : K) (above : Option K) : Nodes K :=
  if key ∈ nodes.map fst then nodes else (key, above) :: nodes

def addBranch : Nodes K → Option K → List K → Nodes K
  | nodes, _, [] => nodes
  | nodes, above, key :: rest => addBranch (nodes.insert key above) (some key) rest

/-- The nodes that are there have the parents that a branch below `top` gives them. -/
def Agrees (nodes : Nodes K) : Option K → List K → Prop
  | _, [] => True
  | top, key :: rest =>
    (key ∈ nodes.map fst → nodes.parent key = top) ∧ Agrees nodes (some key) rest

variable {nodes : Nodes K} {key target above : K} {parentKey : Option K}

theorem mem_insert : target ∈ (nodes.insert key parentKey).map fst ↔
    target = key ∨ target ∈ nodes.map fst := by
  unfold insert
  split_ifs with present
  · exact ⟨.inr, fun mem => mem.elim (· ▸ present) id⟩
  · rw [map_cons, mem_cons]

section
variable (grown : Grown nodes) (known : ∀ above, parentKey = some above → above ∈ nodes.map fst)
include grown known

theorem grown_insert : Grown (nodes.insert key parentKey) := by
  unfold insert
  split_ifs with present
  · exact grown
  · exact ⟨present, known, grown⟩

theorem grown_addBranch (keys : List K) : Grown (nodes.addBranch parentKey keys) := by
  induction keys generalizing nodes parentKey with
  | nil => exact grown
  | cons key rest ih =>
    refine ih (grown_insert grown known) ?_
    rintro _ ⟨⟩
    exact mem_insert.mpr (.inl rfl)

end

variable (keys : List K)

theorem mem_addBranch : target ∈ (nodes.addBranch parentKey keys).map fst ↔
      target ∈ nodes.map fst ∨ target ∈ keys := by
  induction keys generalizing nodes parentKey with
  | nil => simp [addBranch]
  | cons key rest ih =>
    rw [addBranch, ih, mem_insert, mem_cons]
    tauto

theorem addBranch_append (before after : List K) : nodes.addBranch parentKey (before ++ after) =
      (nodes.addBranch parentKey before).addBranch (before.getLast?.or parentKey) after := by
  induction before generalizing nodes parentKey with
  | nil => simp [addBranch]
  | cons key rest ih =>
    rw [cons_append, addBranch, addBranch, ih]
    cases rest with
    | nil => rfl
    | cons _ _ => rw [getLast?_cons_cons, getLast?_cons]; rfl

theorem path_subset (mem : above ∈ nodes.path target) : above ∈ nodes.map fst := by
  induction nodes generalizing target with
  | nil => exact absurd mem not_mem_nil
  | cons node rest ih =>
    obtain ⟨key, parentKey⟩ := node
    rw [map_cons, mem_cons]
    rw [path] at mem
    split_ifs at mem
    · cases parentKey with
      | none => exact .inl (mem_singleton.mp mem)
      | some top => exact (mem_cons.mp mem).imp_right ih
    · exact .inr (ih mem)

theorem path_of_not_mem (absent : target ∉ nodes.map fst) : nodes.path target = [] := by
  induction nodes with
  | nil => rfl
  | cons node rest ih =>
    obtain ⟨key, parentKey⟩ := node
    rw [map_cons, mem_cons, not_or] at absent
    rw [path, if_neg (Ne.symm absent.1), ih absent.2]

theorem parent_mem (grown : Grown nodes) (found : nodes.parent target = some above) :
    above ∈ nodes.map fst := by
  induction nodes with
  | nil => exact absurd found nofun
  | cons node rest ih =>
    obtain ⟨key, parentKey⟩ := node
    obtain ⟨-, known, grown⟩ := grown
    rw [parent] at found
    rw [map_cons]
    split_ifs at found
    · exact mem_cons_of_mem _ (known above found)
    · exact mem_cons_of_mem _ (ih grown found)

theorem path_cons_of_mem (grown : Grown ((key, parentKey) :: nodes))
    (mem : target ∈ nodes.map fst) :
    path ((key, parentKey) :: nodes) target = path nodes target := by
  rw [path, if_neg]
  rintro rfl
  exact grown.1 mem

theorem path_eq_cons (grown : Grown nodes) (mem : target ∈ nodes.map fst) :
    nodes.path target = target :: (nodes.parent target).elim [] nodes.path := by
  induction nodes generalizing target with
  | nil => exact absurd mem not_mem_nil
  | cons node rest ih =>
    obtain ⟨key, parentKey⟩ := node
    have older {other : K} (present : other ∈ rest.map fst) :
        path ((key, parentKey) :: rest) other = path rest other := path_cons_of_mem grown present
    obtain ⟨-, known, grown⟩ := grown
    by_cases here : key = target
    · subst here
      rw [path, parent, if_pos rfl, if_pos rfl]
      cases parentKey with
      | none => rfl
      | some top => exact congrArg (key :: ·) (older (known top rfl)).symm
    · have present : target ∈ rest.map fst := (mem_cons.mp mem).resolve_left (Ne.symm here)
      rw [older present, ih grown present, parent, if_neg here]
      cases found : parent rest target with
      | none => rfl
      | some top => exact congrArg (target :: ·) (older (parent_mem grown found)).symm

theorem nodup_path (grown : Grown nodes) (target : K) : (nodes.path target).Nodup := by
  induction nodes generalizing target with
  | nil => exact nodup_nil
  | cons node rest ih =>
    obtain ⟨key, parentKey⟩ := node
    obtain ⟨fresh, -, grown⟩ := grown
    rw [path]
    split_ifs
    · cases parentKey with
      | none => exact nodup_singleton key
      | some top => exact nodup_cons.mpr ⟨fun mem => fresh (path_subset mem), ih grown top⟩
    · exact ih grown target

theorem path_suffix (grown : Grown nodes) (mem : above ∈ nodes.path target) :
    nodes.path above <:+ nodes.path target := by
  induction nodes generalizing target with
  | nil => exact absurd mem not_mem_nil
  | cons node rest ih =>
    obtain ⟨key, parentKey⟩ := node
    have older {other : K} (present : other ∈ rest.map fst) :
        path ((key, parentKey) :: rest) other = path rest other := path_cons_of_mem grown present
    by_cases here : key = target
    · subst here
      have unfolded : path ((key, parentKey) :: rest) key =
          key :: parentKey.elim [] fun top => path rest top := by rw [path, if_pos rfl]
      rw [unfolded, mem_cons] at mem
      obtain rfl | mem := mem
      · exact suffix_rfl
      · cases parentKey with
        | none => exact absurd mem not_mem_nil
        | some top =>
          rw [older (path_subset mem), unfolded]
          exact (ih grown.2.2 mem).trans (suffix_cons _ _)
    · have unfolded : path ((key, parentKey) :: rest) target = path rest target := by
        rw [path, if_neg here]
      rw [unfolded] at mem ⊢
      rw [older (path_subset mem)]
      exact ih grown.2.2 mem

section
variable (mem : target ∈ nodes.map fst)
include mem

theorem insert_keeps : (nodes.insert key parentKey).parent target = nodes.parent target ∧
    (nodes.insert key parentKey).path target = nodes.path target := by
  unfold insert
  split_ifs with present
  · exact ⟨rfl, rfl⟩
  · have apart : key ≠ target := by
      rintro rfl
      exact present mem
    rw [parent, path, if_neg apart, if_neg apart]
    exact ⟨rfl, rfl⟩

theorem addBranch_keeps : (nodes.addBranch parentKey keys).parent target = nodes.parent target ∧
    (nodes.addBranch parentKey keys).path target = nodes.path target := by
  induction keys generalizing nodes parentKey with
  | nil => exact ⟨rfl, rfl⟩
  | cons key rest ih =>
    obtain ⟨parents, paths⟩ := ih (mem_insert.mpr (.inr mem))
    rw [addBranch, parents, paths]
    exact insert_keeps mem

end

end Nodes

namespace Forest

instance : Membership K (Forest K) := ⟨fun forest key => key ∈ forest.nodes.map fst⟩

instance (key : K) (forest : Forest K) : Decidable (key ∈ forest) :=
  inferInstanceAs (Decidable (key ∈ forest.nodes.map fst))

def empty : Forest K := ⟨[], trivial⟩

def path (forest : Forest K) (key : K) : List K := forest.nodes.path key

def parent (forest : Forest K) (key : K) : Option K := forest.nodes.parent key

/-- Adds keys one below the other; the first one is a root if it is new. -/
def addBranch (forest : Forest K) (keys : List K) : Forest K :=
  ⟨forest.nodes.addBranch none keys,
    Nodes.grown_addBranch forest.grown (by simp) keys⟩

variable {forest other : Forest K} {keys : List K} {key above below : K}

omit [DecidableEq K] in
theorem not_mem_empty : key ∉ (empty : Forest K) := not_mem_nil

theorem mem_addBranch : key ∈ forest.addBranch keys ↔ key ∈ forest ∨ key ∈ keys :=
  Nodes.mem_addBranch keys

theorem path_eq_cons (mem : key ∈ forest) :
    forest.path key = key :: (forest.parent key).elim [] forest.path :=
  Nodes.path_eq_cons forest.grown mem

theorem path_eq_nil_iff : forest.path key = [] ↔ key ∉ forest := by
  refine ⟨fun empty mem => ?_, Nodes.path_of_not_mem⟩
  rw [path_eq_cons mem] at empty
  exact cons_ne_nil _ _ empty

theorem mem_path_self : key ∈ forest.path key ↔ key ∈ forest := by
  refine ⟨Nodes.path_subset, fun mem => ?_⟩
  rw [path_eq_cons mem]
  exact mem_cons_self

theorem mem_of_mem_path (mem : above ∈ forest.path key) : above ∈ forest := Nodes.path_subset mem

theorem nodup_path (forest : Forest K) (key : K) : (forest.path key).Nodup :=
  Nodes.nodup_path forest.grown key

theorem path_trans (first : above ∈ forest.path key) (second : key ∈ forest.path below) :
    above ∈ forest.path below :=
  (Nodes.path_suffix forest.grown second).subset first

theorem comparable (first : above ∈ forest.path below) (second : key ∈ forest.path below) :
    above ∈ forest.path key ∨ key ∈ forest.path above := by
  have ends := suffix_or_suffix_of_suffix (Nodes.path_suffix forest.grown first)
    (Nodes.path_suffix forest.grown second)
  have firstSelf : above ∈ forest.path above := mem_path_self.mpr (mem_of_mem_path first)
  have secondSelf : key ∈ forest.path key := mem_path_self.mpr (mem_of_mem_path second)
  exact ends.imp (·.subset firstSelf) (·.subset secondSelf)

theorem path_addBranch (mem : key ∈ forest) : (forest.addBranch keys).path key = forest.path key :=
  (Nodes.addBranch_keeps keys mem).2

variable {before after : List K}

theorem mem_path_addBranch (mem : above ∈ (forest.addBranch (before ++ key :: after)).path key) :
    above = key ∨ above ∈ forest ∨ above ∈ before := by
  have present : key ∈ (forest.nodes.addBranch none (before ++ [key])).map fst :=
    (Nodes.mem_addBranch _).mpr (.inr (by simp))
  have split : forest.nodes.addBranch none (before ++ key :: after) =
      (forest.nodes.addBranch none (before ++ [key])).addBranch (some key) after := by
    have joined : before ++ key :: after = (before ++ [key]) ++ after := by simp
    rw [joined, Nodes.addBranch_append]
    simp
  have older : above ∈ (forest.nodes.addBranch none (before ++ [key])).path key := by
    rw [← (Nodes.addBranch_keeps after present).2, ← split]
    exact mem
  have inside := (Nodes.mem_addBranch _).mp (Nodes.path_subset older)
  rw [mem_append, mem_singleton] at inside
  obtain old | early | same := inside
  · exact .inr (.inl old)
  · exact .inr (.inr early)
  · exact .inl same

theorem prev_mem_path_addBranch (new : key ∉ forest)
    (fresh : key ∉ before ++ [above]) :
    above ∈ (forest.addBranch (before ++ above :: key :: after)).path key := by
  have outside : key ∉ (forest.nodes.addBranch none (before ++ [above])).map fst :=
    fun mem => ((Nodes.mem_addBranch _).mp mem).elim new fresh
  have split : forest.nodes.addBranch none (before ++ above :: key :: after) =
      Nodes.addBranch ((key, some above) :: forest.nodes.addBranch none (before ++ [above]))
        (some key) after := by
    have joined : before ++ above :: key :: after = (before ++ [above]) ++ key :: after := by simp
    rw [joined, Nodes.addBranch_append, Nodes.addBranch, Nodes.insert, if_neg outside]
    simp
  have present : above ∈ (forest.nodes.addBranch none (before ++ [above])).map fst :=
    (Nodes.mem_addBranch _).mpr (.inr (by simp))
  have grown : Grown (forest.nodes.addBranch none (before ++ [above])) :=
    (forest.addBranch (before ++ [above])).grown
  change above ∈ (forest.nodes.addBranch none (before ++ above :: key :: after)).path key
  rw [split, (Nodes.addBranch_keeps after mem_cons_self).2, Nodes.path,
    if_pos rfl, Option.elim_some, Nodes.path_eq_cons grown present]
  simp

def size (forest : Forest K) : ℕ := forest.nodes.length

private theorem length_nodes_addBranch_le (nodes : Nodes K) (top : Option K) (keys : List K) :
    (nodes.addBranch top keys).length ≤ nodes.length + keys.length := by
  induction keys generalizing nodes top with
  | nil => exact le_rfl
  | cons key rest ih =>
    have here : (nodes.insert key top).length ≤ nodes.length + 1 := by
      unfold Nodes.insert
      split_ifs <;> simp
    have tail := ih (nodes.insert key top) (some key)
    rw [Nodes.addBranch, length_cons]
    omega

theorem size_addBranch_le (forest : Forest K) (keys : List K) :
    (forest.addBranch keys).size ≤ forest.size + keys.length :=
  length_nodes_addBranch_le forest.nodes none keys

theorem length_path_le_size (forest : Forest K) (key : K) :
    (forest.path key).length ≤ forest.size := by
  have inside : (forest.path key).Subperm (forest.nodes.map fst) :=
    subperm_of_subset (forest.nodup_path key) fun _ mem => mem_of_mem_path mem
  exact inside.length_le.trans (length_map _).le

def Steps (r : K → K → Prop) (forest : Forest K) : Prop :=
  ∀ node ∈ forest.nodes, ∀ above, node.2 = some above → r above node.1

variable {r : K → K → Prop}

omit [DecidableEq K] in
theorem steps_empty : Steps r (empty : Forest K) := fun _ mem => absurd mem not_mem_nil

variable {top : Option K} {nodes : Nodes K}

private theorem steps_nodes (steps : ∀ node ∈ nodes, ∀ above, node.2 = some above → r above node.1)
    (head : ∀ above, top = some above → ∀ first, keys.head? = some first → r above first)
    (chain : keys.IsChain r) :
    ∀ node ∈ nodes.addBranch top keys, ∀ above, node.2 = some above → r above node.1 := by
  induction keys generalizing nodes top with
  | nil => exact steps
  | cons key rest ih =>
    obtain ⟨next, chain⟩ := isChain_cons.mp chain
    refine ih ?_ ?_ chain
    · intro node mem above same
      unfold Nodes.insert at mem
      split_ifs at mem
      · exact steps node mem above same
      · grind
    · simp_all

theorem Steps.addBranch (steps : Steps r forest) (chain : keys.IsChain r) :
    Steps r (forest.addBranch keys) :=
  steps_nodes steps (by simp) chain

theorem Steps.path (steps : Steps r forest) (key : K) :
    (forest.path key).IsChain fun below above => r above below := by
  obtain ⟨nodes, grown⟩ := forest
  change (nodes.path key).IsChain _
  induction nodes generalizing key with
  | nil => exact List.IsChain.nil
  | cons node rest ih =>
    obtain ⟨first, parentKey⟩ := node
    have tail (other : K) := ih other grown.2.2
      fun node mem => steps node (mem_cons_of_mem _ mem)
    rw [Nodes.path]
    split_ifs
    · cases parentKey with
      | none => exact List.IsChain.singleton _
      | some above =>
        have related := steps _ mem_cons_self above rfl
        have next := Nodes.path_eq_cons grown.2.2 (grown.2.1 above rfl)
        have chain := tail above
        rw [Option.elim_some]
        rw [next] at chain ⊢
        exact List.IsChain.cons_cons related chain
    · exact tail key

/-- The keys lie one below the other in a parent function, the first one below `top`. -/
def Follows (expected : K → Option K) : Option K → List K → Prop
  | _, [] => True
  | top, key :: rest => expected key = top ∧ Follows expected (some key) rest

def Obeys (forest : Forest K) (expected : K → Option K) : Prop :=
  ∀ key ∈ forest, forest.parent key = expected key

variable {expected : K → Option K}

theorem obeys_empty : Obeys (empty : Forest K) expected := fun _ mem => absurd mem not_mem_empty

private theorem obeys_nodes (obeys : ∀ key ∈ nodes.map fst, nodes.parent key = expected key)
    (follows : Follows expected top keys) :
    ∀ key ∈ (nodes.addBranch top keys).map fst,
      (nodes.addBranch top keys).parent key = expected key := by
  induction keys generalizing nodes top with
  | nil => exact obeys
  | cons first rest ih =>
    refine ih (fun key mem => ?_) follows.2
    by_cases old : key ∈ nodes.map fst
    · rw [(Nodes.insert_keeps old).1, obeys key old]
    · obtain rfl := (Nodes.mem_insert.mp mem).resolve_right old
      rw [Nodes.insert, if_neg old, Nodes.parent, if_pos rfl, follows.1]

theorem Obeys.addBranch (obeys : Obeys forest expected) (follows : Follows expected none keys) :
    Obeys (forest.addBranch keys) expected :=
  obeys_nodes obeys follows

/-- The nodes that a branch shares with a forest have the parents there that the branch gives
them, the first key none. -/
def Agrees (forest : Forest K) (keys : List K) : Prop := forest.nodes.Agrees none keys

private theorem agrees_insert {above : Option K} (fresh : key ∉ keys)
    (agrees : nodes.Agrees above keys) : (nodes.insert key top).Agrees above keys := by
  induction keys generalizing above with
  | nil => trivial
  | cons other rest ih =>
    rw [mem_cons, not_or] at fresh
    refine ⟨fun inside => ?_, ih fresh.2 agrees.2⟩
    have older := (Nodes.mem_insert.mp inside).resolve_left (Ne.symm fresh.1)
    exact (Nodes.insert_keeps older).1.trans (agrees.1 older)

private theorem follows_nodes (distinct : keys.Nodup)
    (agrees : nodes.Agrees top keys) : Follows (nodes.addBranch top keys).parent top keys := by
  induction keys generalizing nodes top with
  | nil => trivial
  | cons key rest ih =>
    obtain ⟨fresh, distinct⟩ := nodup_cons.mp distinct
    obtain ⟨here, agrees⟩ := agrees
    refine ⟨?_, ih distinct (agrees_insert fresh agrees)⟩
    have present : key ∈ (nodes.insert key top).map fst := Nodes.mem_insert.mpr (.inl rfl)
    rw [Nodes.addBranch, (Nodes.addBranch_keeps rest present).1]
    by_cases old : key ∈ nodes.map fst
    · rw [Nodes.insert, if_pos old]
      exact here old
    · rw [Nodes.insert, if_neg old, Nodes.parent, if_pos rfl]

theorem Agrees.follows (agrees : Agrees forest keys) (distinct : keys.Nodup) :
    Follows (forest.addBranch keys).parent none keys :=
  follows_nodes distinct agrees

theorem Follows.addBranch {others : List K}
    (follows : Follows forest.parent top keys) (inside : ∀ key ∈ keys, key ∈ forest) :
    Follows (forest.addBranch others).parent top keys := by
  induction keys generalizing top with
  | nil => trivial
  | cons key rest ih =>
    refine ⟨?_, ih follows.2 fun other mem => inside other (mem_cons_of_mem key mem)⟩
    exact (Nodes.addBranch_keeps others (inside key mem_cons_self)).1.trans follows.1

theorem Obeys.path_eq (first : Obeys forest expected) (second : Obeys other expected)
    (same : ∀ key, key ∈ forest ↔ key ∈ other) (key : K) : forest.path key = other.path key := by
  induction size : (forest.path key).length using Nat.strongRecOn generalizing key with
  | ind size ih =>
    subst size
    by_cases mem : key ∈ forest
    · have unfolded := path_eq_cons mem
      rw [unfolded, path_eq_cons ((same key).mp mem), first key mem, second key ((same key).mp mem)]
      rw [first key mem] at unfolded
      cases parent : expected key with
      | none => rfl
      | some top =>
        have shorter : (forest.path top).length < (forest.path key).length := by
          rw [unfolded, parent]
          exact Nat.lt_succ_self _
        exact congrArg (key :: ·) (ih _ shorter top rfl)
    · rw [path_eq_nil_iff.mpr mem, path_eq_nil_iff.mpr ((same key).not.mp mem)]

theorem Obeys.path_of_follows (obeys : Obeys forest expected)
    (follows : Follows expected top (before ++ key :: after))
    (inside : ∀ other ∈ before ++ [key], other ∈ forest) :
    forest.path key = key :: (before.reverse ++ top.elim [] forest.path) := by
  induction before generalizing top with
  | nil =>
    have present := inside key (by simp)
    rw [path_eq_cons present, obeys key present, follows.1]
    rfl
  | cons first rest ih =>
    have present := inside first (by simp)
    rw [ih follows.2 fun other mem => inside other (mem_cons_of_mem first mem),
      Option.elim_some, path_eq_cons present, obeys first present, follows.1]
    simp

theorem Obeys.comparable (obeys : Obeys forest expected) (follows : Follows expected none keys)
    (inside : ∀ key ∈ keys, key ∈ forest) (first : above ∈ keys) (second : below ∈ keys) :
    above ∈ forest.path below ∨ below ∈ forest.path above := by
  obtain ⟨before, after, split⟩ := append_of_mem first
  rw [split] at follows inside second
  by_cases later : below ∈ after
  · obtain ⟨between, rest, rfl⟩ := append_of_mem later
    have joined : before ++ above :: (between ++ below :: rest) =
        (before ++ above :: between) ++ below :: rest := by simp
    rw [joined] at follows inside
    left
    rw [obeys.path_of_follows follows fun other mem => inside other (by simp at mem ⊢; tauto)]
    simp
  · right
    rw [obeys.path_of_follows follows fun other mem => inside other (by simp at mem ⊢; tauto)]
    simp at second ⊢
    tauto

end Forest

end BitxorCore.Library.ParentForest
