/- GID: Library/PartialFold
   anchors: []
   digest: Folds over finite sets and lists of results each of which may be missing. -/

import Mathlib.Data.Finset.Fold
import Mathlib.Data.Option.NAry

set_option autoImplicit false
set_option relaxedAutoImplicit false

namespace BitxorCore.Library.PartialFold
open Option

variable {A B : Type}

instance commutative_map₂ (op : B → B → B) [Std.Commutative op] : Std.Commutative (map₂ op) where
  comm first second := by
    have swap : ∀ x y, op x y = op y x := Std.Commutative.comm
    cases first <;> cases second <;> simp [swap]

instance associative_map₂ (op : B → B → B) [Std.Associative op] : Std.Associative (map₂ op) where
  assoc first second third := by
    have regroup : ∀ x y z, op (op x y) z = op x (op y z) := Std.Associative.assoc
    cases first <;> cases second <;> cases third <;> simp [regroup]

section List
variable {op : B → B → B} {b : B} {mems : List A}

def foldList (op : B → B → B) (b : B) (f : A → Option B) : List A → Option B
  | [] => some b
  | first :: rest => map₂ op (f first) (foldList op b f rest)

theorem isSome_foldList {f : A → Option B} (each : ∀ a ∈ mems, (f a).isSome) :
    (foldList op b f mems).isSome := by
  induction mems with
  | nil => rfl
  | cons first rest ih =>
    obtain ⟨here, later⟩ := List.forall_mem_cons.mp each
    obtain ⟨value, found⟩ := isSome_iff_exists.mp here
    obtain ⟨others, foundRest⟩ := isSome_iff_exists.mp (ih later)
    rw [foldList, found, foundRest]
    rfl

variable {r : B → B → Prop}

theorem exists_of_foldList (left : ∀ x y, r x (op x y))
    (right : ∀ x y z, r x y → r x (op z y)) {f : A → Option B} {total : B}
    (all : foldList op b f mems = some total) : ∀ a ∈ mems, ∃ x, f a = some x ∧ r x total := by
  induction mems generalizing total with
  | nil => exact List.forall_mem_nil _
  | cons first rest ih =>
    obtain ⟨x, y, found, foundRest, rfl⟩ := map₂_eq_some_iff.mp all
    refine List.forall_mem_cons.mpr ⟨⟨x, found, left x y⟩, fun a mem => ?_⟩
    obtain ⟨value, foundIt, below⟩ := ih foundRest a mem
    exact ⟨value, foundIt, right _ _ _ below⟩

theorem rel_foldList {c : B} (base : r b c)
    (compatible : ∀ x y z w, r x z → r y w → r (op x y) (op z w)) {f g : A → Option B}
    (each : ∀ a ∈ mems, ∀ x y, f a = some x → g a = some y → r x y) {total other : B}
    (first : foldList op b f mems = some total)
    (second : foldList op c g mems = some other) : r total other := by
  induction mems generalizing total other with
  | nil =>
    obtain rfl := some_inj.mp first
    obtain rfl := some_inj.mp second
    exact base
  | cons a rest ih =>
    obtain ⟨x, y, found, foundRest, rfl⟩ := map₂_eq_some_iff.mp first
    obtain ⟨z, w, foundToo, foundRestToo, rfl⟩ := map₂_eq_some_iff.mp second
    obtain ⟨here, later⟩ := List.forall_mem_cons.mp each
    exact compatible x y z w (here x z found foundToo) (ih later foundRest foundRestToo)

end List

section Finset
variable {op : B → B → B} [Std.Commutative op] [Std.Associative op] {mems : Finset A} {b : B}

theorem fold_eq_foldList (f : A → Option B) :
    mems.fold (map₂ op) (some b) f = foldList op b f mems.toList := by
  have combine : ∀ list : List A, foldList op b f list = (list.map f).foldr (map₂ op) (some b) := by
    intro list
    induction list with
    | nil => rfl
    | cons first rest ih => rw [foldList, ih, List.map_cons, List.foldr_cons]
  rw [Finset.fold, ← Finset.coe_toList, Multiset.map_coe, Multiset.coe_fold_r, combine]

theorem isSome_fold {f : A → Option B} (each : ∀ a ∈ mems, (f a).isSome) :
    (mems.fold (map₂ op) (some b) f).isSome := by
  rw [fold_eq_foldList]
  exact isSome_foldList fun a mem => each a (Finset.mem_toList.mp mem)

variable {r : B → B → Prop}

theorem exists_of_fold (left : ∀ x y, r x (op x y))
    (right : ∀ x y z, r x y → r x (op z y)) {f : A → Option B} {total : B}
    (all : mems.fold (map₂ op) (some b) f = some total) :
    ∀ a ∈ mems, ∃ x, f a = some x ∧ r x total := by
  rw [fold_eq_foldList] at all
  exact fun a mem => exists_of_foldList left right all a (Finset.mem_toList.mpr mem)

theorem rel_fold {c : B} (base : r b c)
    (compatible : ∀ x y z w, r x z → r y w → r (op x y) (op z w)) {f g : A → Option B}
    (each : ∀ a ∈ mems, ∀ x y, f a = some x → g a = some y → r x y) {total other : B}
    (first : mems.fold (map₂ op) (some b) f = some total)
    (second : mems.fold (map₂ op) (some c) g = some other) : r total other := by
  rw [fold_eq_foldList] at first second
  exact rel_foldList base compatible (fun a mem => each a (Finset.mem_toList.mp mem)) first second

end Finset

end BitxorCore.Library.PartialFold
