/- GID: Library/Walk
   anchors: []
   digest: Walks of a directed graph, counted by their edges, and bounds on their length. -/

import Mathlib.Data.Finset.Card

set_option autoImplicit false
set_option relaxedAutoImplicit false

namespace BitxorCore.Library

variable {V : Type}

/-- `Walk edge n u v`: from `u` to `v` along `n` edges. -/
inductive Walk (edge : V → V → Prop) : Nat → V → V → Prop
  | nil (v : V) : Walk edge 0 v v
  | cons {n : Nat} {u v w : V} (first : edge u v) (rest : Walk edge n v w) : Walk edge (n + 1) u w

namespace Walk

variable {edge wider : V → V → Prop} {m n : Nat} {u v w : V}

theorem single (step : edge u v) : Walk edge 1 u v := .cons step (.nil v)

theorem append (before : Walk edge m u v) (after : Walk edge n v w) : Walk edge (m + n) u w := by
  induction before with
  | nil => simpa using after
  | @cons k _ _ _ first _ ih =>
    rw [Nat.add_right_comm]
    exact .cons first (ih after)

theorem reverse (walk : Walk edge n u v) : Walk (Function.swap edge) n v u := by
  induction walk with
  | nil v => exact .nil v
  | cons first _ ih => exact ih.append (single first)

theorem mono (wide : ∀ a b, edge a b → wider a b) (walk : Walk edge n u v) : Walk wider n u v := by
  induction walk with
  | nil v => exact .nil v
  | cons first _ ih => exact .cons (wide _ _ first) ih

theorem power (closed : Walk edge n v v) (k : Nat) : Walk edge (k * n) v v := by
  induction k with
  | zero =>
    rw [Nat.zero_mul]
    exact .nil v
  | succ k ih =>
    rw [Nat.succ_mul]
    exact ih.append closed

theorem of_transGen (connected : Relation.TransGen edge u v) : ∃ n, Walk edge (n + 1) u v := by
  induction connected with
  | single step => exact ⟨0, single step⟩
  | tail _ step ih =>
    obtain ⟨n, walk⟩ := ih
    exact ⟨n + 1, walk.append (single step)⟩

/-- A walk takes at most one of the edges added from `source` to `targets`, if there was no way
back from them to `source`. -/
theorem added {source : V} {targets : V → Prop}
    (edges : ∀ a b, wider a b → edge a b ∨ a = source ∧ targets b)
    (noReturn : ∀ target, targets target → ∀ k, ¬ Walk edge k target source)
    (walk : Walk wider n u v) :
    Walk edge n u v ∨ ∃ target i j, targets target ∧ Walk edge i u source ∧
      Walk edge j target v ∧ n = i + j + 1 := by
  induction walk with
  | nil v => exact .inl (.nil v)
  | @cons n u next v first _ ih =>
    rcases edges _ _ first with old | ⟨rfl, isTarget⟩
    · rcases ih with rest | ⟨target, i, j, isTarget, toSource, fromTarget, rfl⟩
      · exact .inl (.cons old rest)
      · exact .inr ⟨target, i + 1, j, isTarget, .cons old toSource, fromTarget, by omega⟩
    · rcases ih with rest | ⟨_, i, _, _, toSource, _, _⟩
      · exact .inr ⟨next, 0, n, isTarget, .nil _, rest, by omega⟩
      · exact absurd toSource (noReturn next isTarget i)

end Walk

/-- No walk has more than `d` edges. -/
def WalksWithin (edge : V → V → Prop) (d : Nat) : Prop := ∀ n u v, Walk edge n u v → n ≤ d

namespace WalksWithin

variable {edge narrower wider : V → V → Prop} {d : Nat}

theorem not_closed (bounded : WalksWithin edge d) {n : Nat} {v : V} : ¬ Walk edge (n + 1) v v := by
  intro closed
  have tooLong : (d + 1) * (n + 1) ≤ d := bounded _ _ _ (closed.power (d + 1))
  have : (d + 1) * 1 ≤ (d + 1) * (n + 1) := Nat.mul_le_mul_left _ (Nat.succ_pos n)
  omega

theorem acyclic (bounded : WalksWithin edge d) (v : V) : ¬ Relation.TransGen edge v v := by
  intro cycle
  obtain ⟨n, walk⟩ := Walk.of_transGen cycle
  exact bounded.not_closed walk

theorem add (bounded : WalksWithin edge d) (source : V) (targets : V → Prop)
    (edges : ∀ a b, wider a b → edge a b ∨ a = source ∧ targets b)
    (noReturn : ∀ target, targets target → ∀ k, ¬ Walk edge k target source)
    (room : ∀ target, targets target → ∀ i j u v, Walk edge i u source →
      Walk edge j target v → i + j + 1 ≤ d) :
    WalksWithin wider d := by
  intro n u v walk
  rcases walk.added edges noReturn with old | ⟨target, i, j, isTarget, before, after, rfl⟩
  · exact bounded n u v old
  · exact room target isTarget i j u v before after

end WalksWithin

variable {edge : V → V → Prop}

theorem Walk.exists_sources {n : Nat} {u v : V} [DecidableEq V]
    (acyclic : ∀ w, ¬ Relation.TransGen edge w w) (walk : Walk edge n u v) :
    ∃ sources : Finset V, sources.card = n ∧
      ∀ w ∈ sources, Relation.ReflTransGen edge u w ∧ ∃ next, edge w next := by
  induction walk with
  | nil v => exact ⟨∅, rfl, fun w mem => absurd mem (Finset.notMem_empty w)⟩
  | @cons n u next v first rest ih =>
    obtain ⟨sources, card, reached⟩ := ih
    have fresh : u ∉ sources := fun mem =>
      acyclic u (.head' first (reached u mem).1)
    refine ⟨insert u sources, by rw [Finset.card_insert_of_notMem fresh, card], fun w mem => ?_⟩
    rcases Finset.mem_insert.mp mem with rfl | later
    · exact ⟨.refl, next, first⟩
    · exact ⟨.head first (reached w later).1, (reached w later).2⟩

theorem walksWithin_of_acyclic [DecidableEq V]
    (acyclic : ∀ w, ¬ Relation.TransGen edge w w) {vertices : Finset V}
    (within : ∀ w next, edge w next → w ∈ vertices) : WalksWithin edge vertices.card := by
  intro n u v walk
  obtain ⟨sources, rfl, reached⟩ := walk.exists_sources acyclic
  refine Finset.card_le_card fun w mem => ?_
  obtain ⟨_, next, step⟩ := reached w mem
  exact within w next step

end BitxorCore.Library
