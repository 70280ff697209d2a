/- GID: Library/KeyedList
   anchors: []
   digest: Lists whose items have keys of their own, with lookup, replacement and removal by key. -/

import Mathlib.Data.List.Nodup
import Mathlib.Data.List.Perm.Basic

set_option autoImplicit false
set_option relaxedAutoImplicit false

namespace BitxorCore.Library.KeyedList

variable {A K : Type} [DecidableEq K] {key : A → K} {items : List A} {item other : A} {k : K}

def Distinct (key : A → K) (items : List A) : Prop := (items.map key).Nodup

def find (key : A → K) (items : List A) (k : K) : Option A := items.find? fun item => key item == k

def eraseKey (key : A → K) (items : List A) (k : K) : List A :=
  items.filter fun item => key item != k

def replaceKey (key : A → K) (items : List A) (k : K) (item : A) : List A :=
  items.map fun other => if key other = k then item else other

omit [DecidableEq K] in
theorem Distinct.eq (distinct : Distinct key items) (mem : item ∈ items)
    (otherMem : other ∈ items) (same : key item = key other) : item = other :=
  List.inj_on_of_nodup_map distinct mem otherMem same

theorem key_of_find (found : find key items k = some item) : key item = k := by
  have satisfied : (key item == k) = true := List.find?_some (p := fun item => key item == k) found
  exact eq_of_beq satisfied

theorem mem_of_find (found : find key items k = some item) : item ∈ items :=
  List.mem_of_find?_eq_some found

theorem find_eq_none_iff : find key items k = none ↔ ∀ item ∈ items, key item ≠ k := by
  simp [find]

@[simp]
theorem mem_eraseKey : item ∈ eraseKey key items k ↔ item ∈ items ∧ key item ≠ k := by
  simp [eraseKey]

theorem Distinct.eraseKey (distinct : Distinct key items) (k : K) :
    Distinct key (eraseKey key items k) :=
  List.Nodup.sublist (List.Sublist.map key List.filter_sublist) distinct

theorem Distinct.cons (distinct : Distinct key items) (fresh : find key items (key item) = none) :
    Distinct key (item :: items) := by
  refine List.nodup_cons.mpr ⟨fun inside => ?_, distinct⟩
  obtain ⟨other, mem, same⟩ := List.mem_map.mp inside
  exact find_eq_none_iff.mp fresh other mem same

theorem Distinct.perm_cons (distinct : Distinct key items) (mem : item ∈ items) :
    items.Perm (item :: KeyedList.eraseKey key items (key item)) := by
  induction items with
  | nil => cases mem
  | cons first rest ih =>
    obtain ⟨fresh, distinctRest⟩ := List.nodup_cons.mp distinct
    rcases List.mem_cons.mp mem with rfl | later
    · have same : KeyedList.eraseKey key (item :: rest) (key item) = rest := by
        rw [KeyedList.eraseKey, List.filter_cons, if_neg (by simp), List.filter_eq_self]
        intro other otherMem
        have apart : key other ≠ key item := fun equal =>
          fresh (equal ▸ List.mem_map_of_mem otherMem)
        simpa using apart
      rw [same]
    · have apart : key first ≠ key item := fun equal =>
        fresh (equal ▸ List.mem_map_of_mem later)
      have kept : KeyedList.eraseKey key (first :: rest) (key item) =
          first :: KeyedList.eraseKey key rest (key item) := by
        rw [KeyedList.eraseKey, List.filter_cons, if_pos (by simpa using apart),
          ← KeyedList.eraseKey]
      rw [kept]
      exact ((ih distinctRest later).cons first).trans (List.Perm.swap _ _ _)

private theorem key_replace (same : key item = k) (other : A) :
    key (if key other = k then item else other) = key other := by
  split
  · next equal => rw [same, equal]
  · rfl

theorem map_key_replaceKey (same : key item = k) :
    (replaceKey key items k item).map key = items.map key := by
  rw [replaceKey, List.map_map]
  exact List.map_congr_left fun other _ => key_replace same other

theorem Distinct.replaceKey (distinct : Distinct key items) (same : key item = k) :
    Distinct key (replaceKey key items k item) := by
  rw [Distinct, map_key_replaceKey same]
  exact distinct

theorem mem_replaceKey (present : ∃ old ∈ items, key old = k) :
    other ∈ replaceKey key items k item ↔ other = item ∨ other ∈ items ∧ key other ≠ k := by
  rw [replaceKey, List.mem_map]
  constructor
  · rintro ⟨old, mem, rfl⟩
    split
    · exact .inl rfl
    · next apart => exact .inr ⟨mem, apart⟩
  · grind

theorem Distinct.perm_replaceKey {old : A} (distinct : Distinct key items) (mem : old ∈ items)
    (keyOld : key old = k) (item : A) :
    (KeyedList.replaceKey key items k item).Perm (item :: KeyedList.eraseKey key items k) := by
  subst keyOld
  have front := (distinct.perm_cons mem).map fun other =>
    if key other = key old then item else other
  rw [List.map_cons, if_pos rfl] at front
  have others : (KeyedList.eraseKey key items (key old)).map
      (fun other => if key other = key old then item else other) =
        KeyedList.eraseKey key items (key old) := by
    conv_rhs => rw [← List.map_id (KeyedList.eraseKey key items (key old))]
    refine List.map_congr_left fun other inside => ?_
    exact if_neg (mem_eraseKey.mp inside).2
  rw [others] at front
  exact front

theorem find_cons (item : A) (items : List A) (k : K) :
    find key (item :: items) k = if key item = k then some item else find key items k := by
  rw [find, List.find?_cons]
  by_cases here : key item = k
  · rw [if_pos here, beq_iff_eq.mpr here]
  · rw [if_neg here, beq_eq_false_iff_ne.mpr here, find]

theorem find_eraseKey (items : List A) (k target : K) :
    find key (eraseKey key items k) target =
      if target = k then none else find key items target := by
  rw [find, eraseKey, List.find?_filter]
  split
  · next same => simp [same]
  · next apart =>
    refine congrArg (items.find? ·) (funext fun item => ?_)
    by_cases here : key item = target
    · simp [here, apart]
    · simp [here]

theorem find_replaceKey (same : key item = k) (items : List A) (target : K) :
    find key (replaceKey key items k item) target =
      if target = k then (find key items k).map fun _ => item else find key items target := by
  rw [replaceKey, find, List.find?_map]
  simp only [Function.comp_def, key_replace same]
  rw [← find]
  cases found : find key items target with
  | none =>
    split
    · next equal => rw [← equal, found]; rfl
    · rfl
  | some other =>
    have here := key_of_find found
    split
    · next equal => rw [← equal, found, Option.map_some, Option.map_some, if_pos here]
    · next apart => rw [Option.map_some, if_neg (here.trans_ne apart)]

end BitxorCore.Library.KeyedList
