/- GID: Cache/IdentifierGroupCacheUtils
   anchors: [src/bitxorcore/cache, src/bitxorcore/utils]
   digest: Identifiers grouped by a key are added, visited and removed by group. -/

import BitxorCore.Library.FiniteMap

set_option autoImplicit false
set_option relaxedAutoImplicit false

namespace BitxorCore.Cache
open Library.FiniteMap

variable {I G V : Type} [DecidableEq I] [DecidableEq G]

structure IdentifierGroup (I : Type) where
  identifiers : List I
  nodup : identifiers.Nodup

namespace IdentifierGroup

def empty : IdentifierGroup I := ⟨[], List.nodup_nil⟩

variable (group : IdentifierGroup I)

def add (identifier : I) : IdentifierGroup I :=
  ⟨group.identifiers.insert identifier, group.nodup.insert⟩

def remove (identifier : I) : IdentifierGroup I :=
  ⟨group.identifiers.erase identifier, group.nodup.erase identifier⟩

end IdentifierGroup

abbrev GroupedSet (G I : Type) := Map G (IdentifierGroup I)

variable (groups : GroupedSet G I)

def GroupedSet.identifiers (key : G) : List I :=
  match groups.lookup key with
  | none => []
  | some group => group.identifiers

def addIdentifierWithGroup (key : G) (identifier : I) : GroupedSet G I :=
  let group := (groups.lookup key).getD .empty
  groups.insert key (group.add identifier)

/-- The values of the identifiers of a group that have one, in the order of the group. -/
def forEachIdentifierWithGroup (set : Map I V) (groups : GroupedSet G I) (key : G) : List V :=
  (groups.identifiers key).filterMap set.lookup

def removeIdentifierWithGroup (key : G) (identifier : I) :
    GroupedSet G I :=
  match groups.lookup key with
  | none => groups
  | some group =>
    let removed := group.remove identifier
    if removed.identifiers.isEmpty then groups.erase key else groups.insert key removed

/-- Removes the values of a group, as height-based pruning does, and the group itself. -/
def removeAllIdentifiersWithGroup (set : Map I V) (groups : GroupedSet G I) (key : G) :
    Map I V × GroupedSet G I :=
  ((groups.identifiers key).foldl (fun values identifier => values.erase identifier) set,
    groups.erase key)

variable (groups : GroupedSet G I)

section Lemmas
omit [DecidableEq I] in
theorem GroupedSet.nodup_identifiers (key : G) : (groups.identifiers key).Nodup := by
  unfold identifiers
  split
  · exact List.nodup_nil
  · exact IdentifierGroup.nodup _

omit [DecidableEq I] in
private theorem GroupedSet.identifiers_insert (key other : G)
    (group : IdentifierGroup I) : (GroupedSet.identifiers (groups.insert key group) other) =
      if other = key then group.identifiers else groups.identifiers other := by
  unfold identifiers
  rw [lookup_insert_apply]
  by_cases here : other = key <;> simp [here]

open GroupedSet (identifiers identifiers_insert)

omit [DecidableEq I] in
theorem GroupedSet.identifiers_erase (key other : G) :
    (identifiers (groups.erase key) other) =
      if other = key then [] else groups.identifiers other := by
  unfold identifiers
  rw [lookup_erase_apply]
  by_cases here : other = key <;> simp [here]

theorem identifiers_add (key other : G) (identifier : I) :
    (addIdentifierWithGroup groups key identifier).identifiers other =
      if other = key then (groups.identifiers other).insert identifier
      else groups.identifiers other := by
  unfold addIdentifierWithGroup
  rw [identifiers_insert]
  by_cases here : other = key
  · subst here
    rw [if_pos rfl, if_pos rfl]
    unfold identifiers
    cases groups.lookup other <;> rfl
  · rw [if_neg here, if_neg here]

theorem mem_identifiers_add {groups : GroupedSet G I} {key other : G} {identifier i : I} :
    i ∈ (addIdentifierWithGroup groups key identifier).identifiers other ↔
      (other = key ∧ i = identifier) ∨ i ∈ groups.identifiers other := by
  rw [identifiers_add]
  by_cases here : other = key
  · simp [here]
  · simp [here]

theorem identifiers_remove (key other : G) (identifier : I) :
    (removeIdentifierWithGroup groups key identifier).identifiers other =
      if other = key then (groups.identifiers other).erase identifier
      else groups.identifiers other := by
  unfold removeIdentifierWithGroup
  cases found : groups.lookup key with
  | none =>
    by_cases here : other = key
    · subst here
      simp [identifiers, found]
    · rw [if_neg here]
  | some group =>
    have here : groups.identifiers key = group.identifiers := by
      rw [identifiers, found]
    dsimp only
    split
    · rename_i isEmpty
      rw [GroupedSet.identifiers_erase]
      by_cases same : other = key
      · subst same
        rw [if_pos rfl, if_pos rfl, here]
        exact (List.isEmpty_iff.mp isEmpty).symm
      · rw [if_neg same, if_neg same]
    · rw [identifiers_insert]
      by_cases same : other = key
      · subst same
        rw [if_pos rfl, if_pos rfl, here]
        rfl
      · rw [if_neg same, if_neg same]

theorem erase_filter_insert {identifiers : List I} (nodup : identifiers.Nodup) (identifier : I)
    (keep : I → Bool) : ((identifiers.insert identifier).filter keep).erase identifier =
      identifiers.filter fun other => keep other && other != identifier := by
  rw [(nodup.insert.filter _).erase_eq_filter, List.filter_filter]
  by_cases present : identifier ∈ identifiers
  · rw [List.insert_of_mem present]
    exact List.filter_congr fun other _ => Bool.and_comm _ _
  · rw [List.insert_of_not_mem present, List.filter_cons_of_neg (by simp)]
    exact List.filter_congr fun other _ => Bool.and_comm _ _

def GroupedSet.Filled (groups : GroupedSet G I) : Prop :=
  ∀ key group, groups.lookup key = some group → group.identifiers ≠ []

namespace GroupedSet.Filled

variable {groups other : GroupedSet G I}

omit [DecidableEq I] in
theorem empty : GroupedSet.Filled (∅ : GroupedSet G I) := by
  intro key group found
  simp at found

theorem add (filled : groups.Filled) (key : G) (identifier : I) :
    (addIdentifierWithGroup groups key identifier).Filled := by
  intro other group found
  unfold addIdentifierWithGroup at found
  rw [lookup_insert_apply] at found
  split at found
  · cases found
    exact List.ne_nil_of_mem (List.mem_insert_self)
  · exact filled other group found

theorem remove (filled : groups.Filled) (key : G) (identifier : I) :
    (removeIdentifierWithGroup groups key identifier).Filled := by
  intro other group found
  unfold removeIdentifierWithGroup at found
  split at found
  · exact filled other group found
  · dsimp only at found
    split at found
    · rw [lookup_erase_apply] at found
      split at found
      · cases found
      · exact filled other group found
    · rw [lookup_insert_apply] at found
      split at found
      · simp_all
      · exact filled other group found

omit [DecidableEq I] in
theorem erase (filled : groups.Filled) (key : G) : GroupedSet.Filled (Finmap.erase key groups) := by
  intro other group found
  rw [lookup_erase_apply] at found
  split at found
  · cases found
  · exact filled other group found

omit [DecidableEq I] in
private theorem lookup_eq (filled : groups.Filled) (key : G) :
    (groups.lookup key).map IdentifierGroup.identifiers =
      if groups.identifiers key = [] then none else some (groups.identifiers key) := by
  cases found : groups.lookup key with
  | none => simp [identifiers, found]
  | some group => simp [identifiers, found, filled key group found]

omit [DecidableEq I] in
theorem ext (filled : groups.Filled) (otherFilled : other.Filled)
    (same : ∀ key, groups.identifiers key = other.identifiers key) : groups = other := by
  refine Finmap.ext_lookup fun key => ?_
  have injective : Function.Injective (IdentifierGroup.identifiers (I := I)) := by
    rintro ⟨_, _⟩ ⟨_, _⟩ rfl
    rfl
  refine Option.map_injective injective ?_
  rw [lookup_eq filled, lookup_eq otherFilled, same]

end GroupedSet.Filled

theorem lookup_removeAll (set : Map I V) (groups : GroupedSet G I) (key : G) (i : I) :
    (removeAllIdentifiersWithGroup set groups key).1.lookup i =
      if i ∈ groups.identifiers key then none else set.lookup i := by
  simpa [removeAllIdentifiersWithGroup] using
    lookup_foldl_erase id (groups.identifiers key) set i
end Lemmas

end BitxorCore.Cache
