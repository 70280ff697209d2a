/- GID: Library/FiniteMap
   anchors: []
   digest: Finite maps with unique keys, enumerated in an arbitrary order. -/

import Mathlib.Algebra.Order.BigOperators.Group.Finset
import Mathlib.Data.Finmap
import Mathlib.Tactic.Abel

set_option autoImplicit false
set_option relaxedAutoImplicit false

namespace BitxorCore.Library.FiniteMap
open List

abbrev Map (K V : Type) := Finmap fun _ : K => V

variable {K V : Type} [DecidableEq K] (m : Map K V)

theorem lookup_insert_apply (key k : K) (v : V) :
    (m.insert key v).lookup k = if k = key then some v else m.lookup k := by
  by_cases here : k = key
  · subst here
    simp
  · rw [Finmap.lookup_insert_of_ne m here, if_neg here]

theorem lookup_erase_apply (key k : K) :
    (m.erase key).lookup k = if k = key then none else m.lookup k := by
  by_cases here : k = key
  · subst here
    simp
  · rw [Finmap.lookup_erase_ne here, if_neg here]

def insertNew (m : Map K V) (key : K) (v : V) : Map K V := if key ∈ m then m else m.insert key v

theorem lookup_insertNew (key k : K) (v : V) :
    (insertNew m key v).lookup k = (m.lookup k).or (if k = key then some v else none) := by
  unfold insertNew
  by_cases here : k = key
  · subst here
    by_cases present : k ∈ m
    · obtain ⟨w, found⟩ := Finmap.mem_iff.mp present
      simp [present, found]
    · simp [present, Finmap.lookup_eq_none.mpr present]
  · split
    · simp
    · rw [lookup_insert_apply, if_neg here, Option.or_none]

theorem lookup_insertNew_absent {m : Map K V} {key : K} (absent : key ∉ m) (k : K) (v : V) :
    (insertNew m key v).lookup k = if k = key then some v else m.lookup k := by
  rw [insertNew, if_neg absent, lookup_insert_apply]

theorem lookup_replaced (key k : K) (v : V) :
    (insertNew (m.erase key) key v).lookup k = if k = key then some v else m.lookup k := by
  rw [lookup_insertNew, lookup_erase_apply]
  split <;> simp

theorem isSome_lookup (k : K) : (m.lookup k).isSome = decide (k ∈ m) := by
  rw [Bool.eq_iff_iff, Finmap.lookup_isSome, decide_eq_true_iff]

def count (m : Map K V) : Nat := m.keys.card

structure Enumeration (K V : Type) [DecidableEq K] where
  order : Map K V → List (K × V)
  distinct : ∀ m, ((order m).map Prod.fst).Nodup
  mem_iff : ∀ m k v, (k, v) ∈ order m ↔ m.lookup k = some v

namespace Enumeration

variable (e : Enumeration K V)

theorem key_mem_iff (m : Map K V) (k : K) : k ∈ (e.order m).map Prod.fst ↔ k ∈ m := by
  rw [mem_map, Finmap.mem_iff]
  constructor
  · rintro ⟨⟨_, v⟩, mem, rfl⟩
    exact ⟨v, (e.mem_iff m _ v).mp mem⟩
  · rintro ⟨v, found⟩
    exact ⟨(k, v), (e.mem_iff m k v).mpr found, rfl⟩

theorem length_order (m : Map K V) : (e.order m).length = count m := by
  have keys : ((e.order m).map Prod.fst).toFinset = m.keys := by
    ext k
    rw [mem_toFinset, e.key_mem_iff, Finmap.mem_keys]
  rw [count, ← keys, toFinset_card_of_nodup (e.distinct m), length_map]

theorem perm_order {l : List (K × V)} {m : Map K V} (distinct : (l.map Prod.fst).Nodup)
    (same : ∀ k v, (k, v) ∈ l ↔ m.lookup k = some v) : l.Perm (e.order m) := by
  rw [perm_ext_iff_of_nodup distinct.of_map (e.distinct m).of_map]
  rintro ⟨k, v⟩
  rw [same, e.mem_iff]

end Enumeration

noncomputable def someEnumeration (K V : Type) [DecidableEq K] : Enumeration K V where
  order m := m.entries.toList.map fun s => (s.1, s.2)
  distinct m := by
    have distinct := m.nodupKeys
    rw [← m.entries.coe_toList, Multiset.coe_nodupKeys] at distinct
    simpa [List.NodupKeys, keys, map_map, Function.comp_def] using distinct
  mem_iff m k v := by
    rw [mem_map]
    constructor
    · rintro ⟨⟨k', v'⟩, mem, same⟩
      obtain ⟨rfl, rfl⟩ := Prod.mk.inj same
      exact Finmap.lookup_eq_some_iff.mpr (Multiset.mem_toList.mp mem)
    · intro found
      exact ⟨⟨k, v⟩, Multiset.mem_toList.mpr (Finmap.lookup_eq_some_iff.mp found), rfl⟩

variable {l : List (K × V)}

theorem lookup_eq_none_of_fresh {k : K} (fresh : k ∉ l.map Prod.fst) : l.lookup k = none := by
  rw [lookup_eq_none_iff]
  intro p mem
  exact bne_iff_ne.mpr fun same => fresh (mem_map.mpr ⟨p, mem, same.symm⟩)

theorem mem_of_lookup {k : K} {v : V} (found : l.lookup k = some v) : (k, v) ∈ l := by
  obtain ⟨before, after, rfl, -⟩ := lookup_eq_some_iff.mp found
  exact mem_append_right _ mem_cons_self

theorem lookup_eq_some_of_distinct (distinct : (l.map Prod.fst).Nodup) (k : K)
    (v : V) : l.lookup k = some v ↔ (k, v) ∈ l := by
  induction l with
  | nil => simp
  | cons p l ih =>
    obtain ⟨key, w⟩ := p
    obtain ⟨fresh, rest⟩ := nodup_cons.mp distinct
    by_cases here : k = key
    · subst here
      have absent : (k, v) ∉ l := fun mem => fresh (mem_map.mpr ⟨_, mem, rfl⟩)
      simp [absent, eq_comm]
    · simp [lookup_cons, beq_false_of_ne here, here, ih rest]

theorem Enumeration.lookup_order (e : Enumeration K V) (m : Map K V) (k : K) :
    (e.order m).lookup k = m.lookup k := by
  apply Option.ext
  intro v
  rw [lookup_eq_some_of_distinct (e.distinct m), e.mem_iff]

theorem lookup_foldl_insertNew (l : List (K × V)) (m : Map K V) (k : K) :
    (l.foldl (fun acc p => insertNew acc p.1 p.2) m).lookup k = (m.lookup k).or (l.lookup k) := by
  induction l generalizing m with
  | nil => simp
  | cons p l ih =>
    obtain ⟨key, w⟩ := p
    rw [foldl_cons, ih, lookup_insertNew, Option.or_assoc]
    by_cases here : k = key
    · simp [here]
    · simp [lookup_cons, beq_false_of_ne here, here]

theorem lookup_foldl_erase {A : Type} (f : A → K) (l : List A) (m : Map K V) (k : K) :
    (l.foldl (fun acc a => acc.erase (f a)) m).lookup k =
      if k ∈ l.map f then none else m.lookup k := by
  induction l generalizing m with
  | nil => simp
  | cons a l ih =>
    rw [foldl_cons, ih, lookup_erase_apply]
    by_cases here : k = f a
    · simp [here]
    · simp only [here, ↓reduceIte, map_cons, mem_cons, false_or]

section MapValues
variable {W : Type}

def mapValues (f : V → W) (m : Map K V) : Map K W where
  entries := m.entries.map fun entry => ⟨entry.1, f entry.2⟩
  nodupKeys := by
    rw [← Multiset.nodup_keys, Multiset.keys, Multiset.map_map]
    exact Multiset.nodup_keys.mpr m.nodupKeys

theorem lookup_mapValues (f : V → W) (m : Map K V) (k : K) :
    (mapValues f m).lookup k = (m.lookup k).map f := by
  refine Option.ext fun w => ?_
  rw [← Option.mem_def, Finmap.mem_lookup_iff, ← Option.mem_def, Option.mem_map, mapValues,
    Multiset.mem_map]
  constructor
  · rintro ⟨⟨_, v⟩, member, same⟩
    cases same
    exact ⟨v, Finmap.mem_lookup_iff.mpr member, rfl⟩
  · rintro ⟨v, found, rfl⟩
    exact ⟨⟨k, v⟩, Finmap.mem_lookup_iff.mp found, rfl⟩

end MapValues

end BitxorCore.Library.FiniteMap

namespace BitxorCore.Library.Bookkeeping
open FiniteMap Finset

section Totals
variable {K V W : Type} [DecidableEq K]

/-- What an entry contributes to a total; an absent entry contributes nothing. -/
def share (f : V → Nat) (m : Map K V) (k : K) : Nat := (m.lookup k).elim 0 f

def total (f : V → Nat) (m : Map K V) : Nat := ∑ k ∈ m.keys, share f m k

section
variable (f : V → Nat) (m : Map K V)
include f m

theorem share_insert (key k : K) (v : V) :
    share f (m.insert key v) k = if k = key then f v else share f m k := by
  unfold share
  rw [lookup_insert_apply]
  split <;> rfl

theorem share_erase (key k : K) : share f (m.erase key) k = if k = key then 0 else share f m k := by
  unfold share
  rw [lookup_erase_apply]
  split <;> rfl

theorem total_eq_sum {keys : Finset K} (covers : m.keys ⊆ keys) :
    total f m = ∑ k ∈ keys, share f m k := by
  refine sum_subset covers fun k _ absent => ?_
  rw [Finmap.mem_keys, ← Finmap.lookup_eq_none] at absent
  rw [share, absent, Option.elim_none]

end

theorem total_congr {f : V → Nat} {g : W → Nat} {m : Map K V} {n : Map K W}
    (same : ∀ k, share f m k = share g n k) : total f m = total g n := by
  have left : m.keys ⊆ m.keys ∪ n.keys := subset_union_left
  have right : n.keys ⊆ m.keys ∪ n.keys := subset_union_right
  rw [total_eq_sum f m left, total_eq_sum g n right]
  exact sum_congr rfl fun k _ => same k

theorem total_update {f : V → Nat} {m n : Map K V} {key : K}
    (others : ∀ k, k ≠ key → share f n k = share f m k) :
    total f n + share f m key = total f m + share f n key := by
  have covered : key ∈ insert key (m.keys ∪ n.keys) := mem_insert_self _ _
  rw [total_eq_sum f n (subset_union_right.trans (subset_insert key _)),
    total_eq_sum f m (subset_union_left.trans (subset_insert key _)),
    ← add_sum_erase _ _ covered, ← add_sum_erase _ (share f m) covered]
  have rest : ∑ k ∈ (insert key (m.keys ∪ n.keys)).erase key, share f n k =
      ∑ k ∈ (insert key (m.keys ∪ n.keys)).erase key, share f m k :=
    sum_congr rfl fun k mem => others k (ne_of_mem_erase mem)
  omega

theorem total_insert (f : V → Nat) (m : Map K V) (key : K) (v : V) :
    total f (m.insert key v) + share f m key = total f m + f v := by
  have updated := total_update (f := f) (m := m) (n := m.insert key v)
    fun k other => by rw [share_insert, if_neg other]
  rwa [share_insert, if_pos rfl] at updated

theorem total_erase (f : V → Nat) (m : Map K V) (key : K) :
    total f (m.erase key) + share f m key = total f m := by
  have updated := total_update (f := f) (m := m) (n := m.erase key)
    fun k other => by rw [share_erase, if_neg other]
  rwa [share_erase, if_pos rfl, Nat.add_zero] at updated

end Totals

end BitxorCore.Library.Bookkeeping

namespace BitxorCore.Library.Emplacement
open FiniteMap Bookkeeping List

variable {K V : Type} [DecidableEq K]

def emplace (m : Map K V) (key : K) (value : V) : Map K V :=
  if (m.lookup key).isSome then m else m.insert key value

variable (entries : List (K × V))

def emplaceAll : Map K V :=
  entries.foldl (fun m entry => emplace m entry.1 entry.2) ∅

def Agree : Prop :=
  ∀ entry ∈ entries, ∀ other ∈ entries, entry.1 = other.1 → entry.2 = other.2

theorem emplace_eq (m : Map K V) (key : K) (value : V) :
    emplace m key value = insertNew m key value := by
  simp only [emplace, insertNew, Finmap.lookup_isSome]

theorem lookup_emplace (m : Map K V) (key k : K) (value : V) :
    (emplace m key value).lookup k = (m.lookup k).or (if k = key then some value else none) := by
  rw [emplace_eq, lookup_insertNew]

theorem emplace_of_none {m : Map K V} {key : K} {value : V} (absent : m.lookup key = none) :
    emplace m key value = m.insert key value := by
  rw [emplace_eq, insertNew, if_neg (Finmap.lookup_eq_none.mp absent)]

theorem lookup_emplaceAll (k : K) :
    (emplaceAll entries).lookup k = entries.lookup k := by
  simp only [emplaceAll, emplace_eq, lookup_foldl_insertNew, Finmap.lookup_empty, Option.none_or]

variable {entries : List (K × V)}

theorem Agree.lookup_eq_some (agree : Agree entries) {entry : K × V}
    (mem : entry ∈ entries) : entries.lookup entry.1 = some entry.2 := by
  cases found : entries.lookup entry.1 with
  | none =>
    have absent := lookup_eq_none_iff.mp found entry mem
    exact absurd absent (by simp)
  | some value =>
    exact congrArg some (agree _ (mem_of_lookup found) _ mem rfl)

theorem Agree.lookup_perm {other : List (K × V)} (agree : Agree entries)
    (perm : other.Perm entries) (k : K) : other.lookup k = entries.lookup k := by
  have agree' : Agree other := fun a ha b hb =>
    agree a (perm.mem_iff.mp ha) b (perm.mem_iff.mp hb)
  cases found : other.lookup k with
  | none => grind
  | some value =>
    exact (agree.lookup_eq_some (perm.mem_iff.mp (mem_of_lookup found))).symm

theorem agree_of_lookup
    (found : ∀ entry ∈ entries, entries.lookup entry.1 = some entry.2) : Agree entries := by
  intro entry mem other member' same
  have first := found entry mem
  rw [same, found other member'] at first
  exact (Option.some.inj first).symm

section Totals
variable (f : V → ℕ)

/-- The sum over all entries, those with a key that was there before included. -/
def sum (entries : List (K × V)) : ℕ := (entries.map fun entry => f entry.2).sum

theorem total_emplaceAll (entries : List (K × V)) : total f (emplaceAll entries) =
      ∑ k ∈ (entries.map Prod.fst).toFinset, share f (emplaceAll entries) k := by
  refine total_eq_sum f _ fun k present => ?_
  rw [Finmap.mem_keys, Finmap.mem_iff] at present
  obtain ⟨value, found⟩ := present
  rw [lookup_emplaceAll] at found
  exact mem_toFinset.mpr (mem_map_of_mem (mem_of_lookup found))

variable {entries : List (K × V)}

theorem Agree.total_emplaceAll [DecidableEq V] (agree : Agree entries) :
    total f (emplaceAll entries) = sum f entries.dedup := by
  have distinct : (entries.dedup.map Prod.fst).Nodup := by
    refine entries.nodup_dedup.map_on fun entry mem other member' same => ?_
    exact Prod.ext same (agree _ (mem_dedup.mp mem) _ (mem_dedup.mp member') same)
  have keys : (entries.map Prod.fst).toFinset = (entries.dedup.map Prod.fst).toFinset := by
    ext k
    simp only [mem_toFinset, mem_map, mem_dedup]
  rw [Emplacement.total_emplaceAll, keys, sum_toFinset _ distinct, map_map, sum]
  congr 1
  refine map_congr_left fun entry mem => ?_
  rw [Function.comp_apply, share, lookup_emplaceAll,
    agree.lookup_eq_some (mem_dedup.mp mem), Option.elim_some]

private theorem total_foldl_emplace (pos : ∀ entry ∈ entries, 0 < f entry.2) (m : Map K V) :
    let after := entries.foldl (fun m entry => emplace m entry.1 entry.2) m
    total f after ≤ total f m + sum f entries ∧ (total f after = total f m + sum f entries ↔
        (entries.map Prod.fst).Nodup ∧ ∀ entry ∈ entries, m.lookup entry.1 = none) := by
  induction entries generalizing m with
  | nil => simp [sum]
  | cons entry rest ih =>
    have gain := pos entry mem_cons_self
    obtain ⟨le, exact⟩ := ih (fun other mem => pos other (mem_cons_of_mem _ mem))
      (emplace m entry.1 entry.2)
    have more : sum f (entry :: rest) = f entry.2 + sum f rest := sum_cons
    rw [foldl_cons, map_cons, nodup_cons, forall_mem_cons, more]
    cases found : m.lookup entry.1 with
    | some value =>
      have same : emplace m entry.1 entry.2 = m := if_pos (by rw [found]; rfl)
      rw [same] at le ⊢
      exact ⟨by omega, by simp; omega⟩
    | none =>
      have grown : total f (emplace m entry.1 entry.2) = total f m + f entry.2 := by
        have added := total_insert f m entry.1 entry.2
        rwa [share, found, Option.elim_none, Nat.add_zero, ← emplace_of_none found] at added
      have fresh : (∀ other ∈ rest, (emplace m entry.1 entry.2).lookup other.1 = none) ↔
          entry.1 ∉ rest.map Prod.fst ∧ ∀ other ∈ rest, m.lookup other.1 = none := by
        simp only [lookup_emplace, Option.or_eq_none_iff, mem_map, ite_eq_right_iff,
          reduceCtorEq, imp_false, not_exists, not_and]
        exact ⟨fun each => ⟨fun other mem same => (each other mem).2 same,
          fun other mem => (each other mem).1⟩,
          fun both other mem => ⟨both.2 other mem, both.1 other mem⟩⟩
      rw [grown, Nat.add_assoc] at le exact
      exact ⟨le, exact.trans (by rw [fresh]; simp only [true_and]; tauto)⟩

theorem total_emplaceAll_eq_sum_iff (pos : ∀ entry ∈ entries, 0 < f entry.2) :
    total f (emplaceAll entries) = sum f entries ↔ (entries.map Prod.fst).Nodup := by
  obtain ⟨-, exact⟩ := total_foldl_emplace f pos ∅
  have nothing : total f (∅ : Map K V) = 0 := Finset.sum_empty
  rw [nothing, Nat.zero_add] at exact
  exact exact.trans (and_iff_left fun _ _ => Finmap.lookup_empty _)

end Totals

end BitxorCore.Library.Emplacement
