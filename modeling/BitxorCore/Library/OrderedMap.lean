/- GID: Library/OrderedMap
   anchors: []
   digest: Maps whose entries are kept in the order of their keys. -/

import Mathlib.Algebra.Order.Ring.Nat
import Mathlib.Data.List.Pairwise
import Mathlib.Data.List.Sort

set_option autoImplicit false
set_option relaxedAutoImplicit false

namespace BitxorCore.Library
open List

variable {K V : Type} [LinearOrder K]

/-- A map that is iterated from the smallest key to the largest. -/
structure OrderedMap (K V : Type) [LinearOrder K] where
  entries : List (K × V)
  sorted : entries.Pairwise fun first second => first.1 < second.1

namespace OrderedMap

private def lookupEntry : List (K × V) → K → Option V
  | [], _ => none
  | (key, value) :: rest, target => if key = target then some value else lookupEntry rest target

private def insertEntry (key : K) (value : V) : List (K × V) → List (K × V)
  | [] => [(key, value)]
  | (first, old) :: rest =>
    if key < first then (key, value) :: (first, old) :: rest
    else if key = first then (key, value) :: rest
    else (first, old) :: insertEntry key value rest

variable {entries : List (K × V)} {key : K} {entry : K × V} {value : V}

private theorem mem_insertEntry
    (mem : entry ∈ insertEntry key value entries) : entry = (key, value) ∨ entry ∈ entries := by
  induction entries with
  | nil => exact .inl (mem_singleton.mp mem)
  | cons first rest ih =>
    rw [insertEntry] at mem
    split_ifs at mem <;> grind

private theorem sorted_insertEntry (key : K) (value : V)
    (sorted : entries.Pairwise fun first second => first.1 < second.1) :
    (insertEntry key value entries).Pairwise fun first second => first.1 < second.1 := by
  induction entries with
  | nil => exact pairwise_singleton _ _
  | cons first rest ih =>
    obtain ⟨above, tail⟩ := pairwise_cons.mp sorted
    rw [insertEntry]
    split_ifs with before same
    · grind
    · subst same
      exact pairwise_cons.mpr ⟨above, tail⟩
    · refine pairwise_cons.mpr ⟨fun entry mem => ?_, ih tail⟩
      obtain rfl | later := mem_insertEntry mem
      · exact lt_of_le_of_ne (not_lt.mp before) (Ne.symm same)
      · exact above entry later

private theorem lookupEntry_insertEntry (key target : K) (value : V) (entries : List (K × V)) :
    lookupEntry (insertEntry key value entries) target =
      if target = key then some value else lookupEntry entries target := by
  induction entries with
  | nil => simp only [insertEntry, lookupEntry, eq_comm]
  | cons first rest ih =>
    obtain ⟨first, old⟩ := first
    rw [insertEntry]
    split_ifs with before same here <;> simp only [lookupEntry] <;> grind

private theorem lookupEntry_eq_some
    (sorted : entries.Pairwise fun first second => first.1 < second.1) :
    lookupEntry entries key = some value ↔ (key, value) ∈ entries := by
  induction entries with
  | nil => simp [lookupEntry]
  | cons first rest ih =>
    obtain ⟨first, old⟩ := first
    obtain ⟨above, tail⟩ := pairwise_cons.mp sorted
    rw [lookupEntry, mem_cons, Prod.mk.injEq]
    split_ifs with here
    · grind
    · rw [ih tail]
      simp [Ne.symm here]

private theorem insertEntry_perm_of_some {old : V} (value : V)
    (sorted : entries.Pairwise fun first second => first.1 < second.1)
    (found : lookupEntry entries key = some old) :
    ∃ rest, entries.Perm ((key, old) :: rest) ∧
      (insertEntry key value entries).Perm ((key, value) :: rest) := by
  induction entries with
  | nil => exact absurd found nofun
  | cons first rest ih =>
    obtain ⟨first, other⟩ := first
    obtain ⟨above, tail⟩ := pairwise_cons.mp sorted
    rw [lookupEntry] at found
    rw [insertEntry]
    split_ifs at found with same
    · obtain rfl := Option.some.inj found
      subst same
      rw [if_neg (lt_irrefl first), if_pos rfl]
      exact ⟨rest, List.Perm.refl _, List.Perm.refl _⟩
    · have later := above _ ((lookupEntry_eq_some tail).mp found)
      rw [if_neg (not_lt.mpr later.le), if_neg (Ne.symm same)]
      obtain ⟨others, before, after⟩ := ih tail found
      exact ⟨(first, other) :: others, (before.cons _).trans (List.Perm.swap _ _ _),
        (after.cons _).trans (List.Perm.swap _ _ _)⟩

private theorem insertEntry_of_none (value : V)
    (absent : lookupEntry entries key = none) :
    insertEntry key value entries =
      entries.orderedInsert (fun first second => first.1 < second.1) (key, value) := by
  induction entries with
  | nil => rfl
  | cons first rest ih =>
    rw [lookupEntry] at absent
    rw [insertEntry, orderedInsert]
    split_ifs at absent with same
    rw [if_neg (Ne.symm same), ih absent]

def empty : OrderedMap K V := ⟨[], List.Pairwise.nil⟩

variable (map : OrderedMap K V)

def lookup (key : K) : Option V := lookupEntry map.entries key

def insert (key : K) (value : V) : OrderedMap K V :=
  ⟨insertEntry key value map.entries, sorted_insertEntry key value map.sorted⟩

def filterKeys (p : K → Bool) : OrderedMap K V :=
  ⟨map.entries.filter fun entry => p entry.1, map.sorted.filter _⟩

def findLast? (p : K → V → Bool) : Option K :=
  (map.entries.reverse.find? fun entry => p entry.1 entry.2).map Prod.fst

variable {map} {other : OrderedMap K V} {key target : K} {value : V} {p q : K → V → Bool}

@[simp]
theorem lookup_empty : (empty : OrderedMap K V).lookup key = none := rfl

theorem lookup_insert : (map.insert key value).lookup target =
    if target = key then some value else map.lookup target :=
  lookupEntry_insertEntry key target value map.entries

theorem lookup_eq_some_iff : map.lookup key = some value ↔ (key, value) ∈ map.entries :=
  lookupEntry_eq_some map.sorted

theorem lookup_filterKeys {p : K → Bool} :
    (map.filterKeys p).lookup key = if p key = true then map.lookup key else none := by
  refine Option.ext fun value => ?_
  rw [lookup_eq_some_iff, filterKeys, mem_filter]
  split_ifs with holds <;> simp [holds, lookup_eq_some_iff]

variable (value) in
theorem entries_insert_eq (absent : map.lookup key = none) : (map.insert key value).entries =
      map.entries.orderedInsert (fun first second => first.1 < second.1) (key, value) :=
  insertEntry_of_none value absent

variable (value) in
theorem entries_insert_of_none (absent : map.lookup key = none) :
    (map.insert key value).entries.Perm ((key, value) :: map.entries) := by
  rw [entries_insert_eq value absent]
  exact perm_orderedInsert _ _ _

variable (value) in
theorem entries_insert_of_some {old : V} (found : map.lookup key = some old) :
    ∃ rest, map.entries.Perm ((key, old) :: rest) ∧
      (map.insert key value).entries.Perm ((key, value) :: rest) :=
  insertEntry_perm_of_some value map.sorted found

theorem nodup_of_sorted (sorted : entries.Pairwise fun first second => first.1 < second.1) :
    entries.Nodup := by
  refine sorted.imp ?_
  rintro first _ before rfl
  exact lt_irrefl _ before

theorem eq_of_sorted {others : List (K × V)}
    (sorted : entries.Pairwise fun first second => first.1 < second.1)
    (sorted' : others.Pairwise fun first second => first.1 < second.1)
    (same : ∀ entry, entry ∈ entries ↔ entry ∈ others) : entries = others := by
  refine List.Perm.eq_of_pairwise
    (fun first second _ _ before after => absurd before (not_lt.mpr after.le)) sorted sorted' ?_
  exact (perm_ext_iff_of_nodup (nodup_of_sorted sorted) (nodup_of_sorted sorted')).mpr same

theorem ext_lookup (same : ∀ key, map.lookup key = other.lookup key) : map = other := by
  have entries : map.entries = other.entries := by
    refine eq_of_sorted map.sorted other.sorted ?_
    rintro ⟨key, value⟩
    rw [← lookup_eq_some_iff, same key, lookup_eq_some_iff]
  cases map
  cases other
  subst entries
  rfl

theorem findLast?_eq_none_iff : map.findLast? p = none ↔
    ∀ key value, map.lookup key = some value → p key value = false := by
  rw [findLast?, Option.map_eq_none_iff, find?_eq_none]
  constructor
  · intro never key value found
    simpa using never (key, value) (mem_reverse.mpr (lookup_eq_some_iff.mp found))
  · rintro never ⟨key, value⟩ mem
    simpa using never key value (lookup_eq_some_iff.mpr (mem_reverse.mp mem))

private theorem find?_first {A : Type} {r : A → A → Prop} {p : A → Bool} {list : List A} {first : A}
    (sorted : list.Pairwise r) (found : list.find? p = some first) :
    ∀ elem ∈ list, p elem = true → elem = first ∨ r first elem := by
  obtain ⟨-, before, behind, rfl, skipped⟩ := find?_eq_some_iff_append.mp found
  rw [pairwise_append, pairwise_cons] at sorted
  intro elem mem holds
  rw [mem_append, mem_cons] at mem
  obtain early | here | late := mem
  · exact absurd holds (by simpa using skipped _ early)
  · exact .inl here
  · exact .inr (sorted.2.1.1 _ late)

theorem findLast?_spec (found : map.findLast? p = some key) :
    (∃ value, map.lookup key = some value ∧ p key value = true) ∧
      ∀ other value, map.lookup other = some value → p other value = true → other ≤ key := by
  obtain ⟨⟨key, value⟩, first, rfl⟩ := Option.map_eq_some_iff.mp found
  have mem : (key, value) ∈ map.entries := mem_reverse.mp (mem_of_find?_eq_some first)
  have holds := List.find?_some first
  refine ⟨⟨value, lookup_eq_some_iff.mpr mem, holds⟩, fun other v inside meets => ?_⟩
  have listed := mem_reverse.mpr (lookup_eq_some_iff.mp inside)
  obtain here | before := find?_first (pairwise_reverse.mpr map.sorted) first _ listed meets
  · exact le_of_eq (congrArg Prod.fst here)
  · exact le_of_lt before

theorem findLast?_eq_some_iff : map.findLast? p = some key ↔
    (∃ value, map.lookup key = some value ∧ p key value = true) ∧
      ∀ other value, map.lookup other = some value → p other value = true → other ≤ key := by
  refine ⟨findLast?_spec, ?_⟩
  rintro ⟨⟨value, inside, holds⟩, last⟩
  cases found : map.findLast? p with
  | none =>
    have never := findLast?_eq_none_iff.mp found key value inside
    rw [holds] at never
    exact absurd never (by decide)
  | some other =>
    obtain ⟨⟨otherValue, otherInside, otherHolds⟩, otherLast⟩ := findLast?_spec found
    have below := last other otherValue otherInside otherHolds
    exact congrArg some (le_antisymm below (otherLast key value inside holds))

def erase (map : OrderedMap K V) (key : K) : OrderedMap K V := map.filterKeys (· ≠ key)

theorem lookup_erase : (map.erase key).lookup target =
    if target = key then none else map.lookup target := by
  rw [erase, lookup_filterKeys]
  by_cases here : target = key <;> simp [here]

def next? (map : OrderedMap K V) (key : K) : Option (K × V) :=
  map.entries.find? fun entry => key < entry.1

theorem next?_eq_none_iff :
    map.next? key = none ↔ ∀ other value, map.lookup other = some value → other ≤ key := by
  rw [next?, find?_eq_none]
  constructor
  · intro never other value found
    simpa using never (other, value) (lookup_eq_some_iff.mp found)
  · rintro never ⟨other, value⟩ mem
    simpa using never other value (lookup_eq_some_iff.mpr mem)

theorem next?_spec (found : map.next? key = some entry) :
    map.lookup entry.1 = some entry.2 ∧ key < entry.1 ∧
      ∀ other value, map.lookup other = some value → key < other → entry.1 ≤ other := by
  have mem := mem_of_find?_eq_some found
  refine ⟨lookup_eq_some_iff.mpr mem, by simpa using find?_some found, ?_⟩
  intro other value inside higher
  obtain here | behind := find?_first map.sorted found _ (lookup_eq_some_iff.mp inside)
    (by simpa using higher)
  · exact le_of_eq (congrArg Prod.fst here).symm
  · exact le_of_lt behind

end OrderedMap

open OrderedMap

namespace StepFunction

variable {V : Type} [Inhabited V] {map other : OrderedMap ℕ V} {key x : ℕ} {value : V}

/-- The value that the last start at or before an argument gives, the default before all starts. -/
def valueAt (map : OrderedMap ℕ V) (x : ℕ) : V :=
  ((map.findLast? fun key _ => key ≤ x).bind map.lookup).getD default

theorem valueAt_of_last (start : map.lookup key = some value) (started : key ≤ x)
    (last : ∀ later v, map.lookup later = some v → later ≤ x → later ≤ key) :
    valueAt map x = value := by
  have found : (map.findLast? fun key _ => key ≤ x) = some key :=
    findLast?_eq_some_iff.mpr ⟨⟨value, start, by simpa using started⟩,
      fun later v inside holds => last later v inside (by simpa using holds)⟩
  rw [valueAt, found, Option.bind_some, start, Option.getD_some]

theorem valueAt_of_unstarted (unstarted : ∀ key v, map.lookup key = some v → x < key) :
    valueAt map x = default := by
  have none : (map.findLast? fun key _ => key ≤ x) = none :=
    findLast?_eq_none_iff.mpr fun key v inside => by simpa using unstarted key v inside
  rw [valueAt, none, Option.bind_none, Option.getD_none]

theorem valueAt_cases (map : OrderedMap ℕ V) (x : ℕ) :
    (∃ key, map.lookup key = some (valueAt map x) ∧ key ≤ x ∧
      ∀ later v, map.lookup later = some v → later ≤ x → later ≤ key) ∨
    valueAt map x = default ∧ ∀ key v, map.lookup key = some v → x < key := by
  cases found : map.findLast? fun key _ => key ≤ x with
  | none =>
    have never := findLast?_eq_none_iff.mp found
    have unstarted : ∀ key v, map.lookup key = some v → x < key :=
      fun key v inside => by simpa using never key v inside
    exact .inr ⟨valueAt_of_unstarted unstarted, unstarted⟩
  | some key =>
    obtain ⟨⟨value, start, started⟩, last⟩ := findLast?_eq_some_iff.mp found
    have last' : ∀ later v, map.lookup later = some v → later ≤ x → later ≤ key :=
      fun later v inside holds => last later v inside (by simpa using holds)
    have value_eq := valueAt_of_last start (by simpa using started) last'
    exact .inl ⟨key, by rw [value_eq, start], by simpa using started, last'⟩

theorem valueAt_congr {y : ℕ} (same : ∀ key, key ≤ x → map.lookup key = other.lookup key)
    (reach : x ≤ y) (none : ∀ key v, other.lookup key = some v → key ≤ y → key ≤ x) :
    valueAt map x = valueAt other y := by
  obtain ⟨key, start, started, last⟩ | ⟨value_eq, unstarted⟩ := valueAt_cases other y
  · have early := none key _ start started
    exact valueAt_of_last (by rw [same key early, start]) early fun later v inside early' =>
      last later v (by rw [← same later early', inside]) (early'.trans reach)
  · rw [value_eq]
    refine valueAt_of_unstarted fun key v inside => ?_
    by_contra early
    have early : key ≤ x := not_lt.mp early
    exact absurd (unstarted key v (by rw [← same key early, inside])) (by omega)

/-- An argument at or behind a key, but before the next start behind that key. -/
def Covers (map : OrderedMap ℕ V) (key x : ℕ) : Prop :=
  key ≤ x ∧ ∀ entry ∈ map.entries, key < entry.1 → x < entry.1

instance (map : OrderedMap ℕ V) (key x : ℕ) : Decidable (Covers map key x) :=
  inferInstanceAs (Decidable (_ ∧ _))

omit [Inhabited V] in
theorem covers_iff : Covers map key x ↔
    key ≤ x ∧ ∀ later v, map.lookup later = some v → key < later → x < later := by
  refine and_congr_right fun _ => ⟨fun before later v inside => ?_, fun before entry mem => ?_⟩
  · exact before (later, v) (OrderedMap.lookup_eq_some_iff.mp inside)
  · exact before entry.1 entry.2 (OrderedMap.lookup_eq_some_iff.mpr mem)

theorem valueAt_insert (map : OrderedMap ℕ V) (key : ℕ) (value : V) (x : ℕ) :
    valueAt (map.insert key value) x = if Covers map key x then value else valueAt map x := by
  split_ifs with reached <;> rw [covers_iff] at reached
  · refine valueAt_of_last (by rw [lookup_insert, if_pos rfl]) reached.1 ?_
    intro later v inside early
    rw [lookup_insert] at inside
    split_ifs at inside with here
    · exact le_of_eq here
    · by_contra behind
      exact absurd (reached.2 later v inside (not_le.mp behind)) (not_lt.mpr early)
  · have lookup_ne {later : ℕ} (ne : later ≠ key) :
        (map.insert key value).lookup later = map.lookup later := by
      rw [lookup_insert, if_neg ne]
    obtain early | ⟨later, v, inside, behind, started⟩ :
        x < key ∨ ∃ later v, map.lookup later = some v ∧ key < later ∧ later ≤ x := by
      by_contra neither
      push Not at neither
      exact reached ⟨neither.1, fun later v inside behind => neither.2 later v inside behind⟩
    · exact valueAt_congr (fun later _ => lookup_ne (by omega)) le_rfl fun _ _ _ early => early
    · obtain ⟨last, start, started', isLast⟩ | ⟨-, unstarted⟩ := valueAt_cases map x
      · have behind' : key < last := behind.trans_le (isLast later v inside started)
        refine valueAt_of_last (by rw [lookup_ne (by omega), start]) started' ?_
        intro other w inside' early
        rw [lookup_insert] at inside'
        split_ifs at inside' with here
        · omega
        · exact isLast other w inside' early
      · exact absurd (unstarted later v inside) (by omega)

theorem valueAt_erase (start : map.lookup key = some value) (positive : 1 ≤ key)
    (redundant : valueAt map (key - 1) = value) (x : ℕ) :
    valueAt (map.erase key) x = valueAt map x := by
  have lookup_ne {later : ℕ} (ne : later ≠ key) :
      (map.erase key).lookup later = map.lookup later := by
    rw [lookup_erase, if_neg ne]
  have kept {later : ℕ} {v : V} (inside : (map.erase key).lookup later = some v) :
      later ≠ key ∧ map.lookup later = some v := by simp_all [lookup_erase]
  obtain ⟨last, started, early, isLast⟩ | ⟨value_eq, unstarted⟩ := valueAt_cases map x
  · by_cases here : last = key
    · -- the removed start was the last one, and the one before it gives the same value
      subst here
      obtain rfl : value = valueAt map x := Option.some.inj (start.symm.trans started)
      rw [← redundant]
      refine (valueAt_congr (fun later before => (lookup_ne (by omega)).symm) (by omega) ?_).symm
      intro later v inside before
      have := isLast later v (kept inside).2 before
      have := (kept inside).1
      omega
    · exact valueAt_of_last (by rw [lookup_ne here, started]) early fun later v inside before =>
        isLast later v (kept inside).2 before
  · rw [value_eq]
    exact valueAt_of_unstarted fun later v inside => unstarted later v (kept inside).2

theorem valueAt_filterKeys_le (map : OrderedMap ℕ V) (bound x : ℕ) :
    valueAt (map.filterKeys (· ≤ bound)) x = valueAt map (min x bound) := by
  have lookup_le {later : ℕ} (early : later ≤ bound) :
      (map.filterKeys (· ≤ bound)).lookup later = map.lookup later := by
    rw [lookup_filterKeys, if_pos (by simpa using early)]
  refine (valueAt_congr (fun later early => (lookup_le (by omega)).symm) (by omega) ?_).symm
  intro later v inside early
  rw [lookup_filterKeys] at inside
  split_ifs at inside with kept
  have : later ≤ bound := by simpa using kept
  omega

theorem valueAt_filterKeys_gt {bound : ℕ} (covered : ¬Covers map bound x) (behind : bound ≤ x) :
    valueAt (map.filterKeys (bound < ·)) x = valueAt map x := by
  have lookup_gt {later : ℕ} (late : bound < later) :
      (map.filterKeys (bound < ·)).lookup later = map.lookup later := by
    rw [lookup_filterKeys, if_pos (by simpa using late)]
  rw [covers_iff] at covered
  push Not at covered
  obtain ⟨later, v, inside, late, started⟩ := covered behind
  obtain ⟨last, start, early, isLast⟩ | ⟨-, unstarted⟩ := valueAt_cases map x
  · have late' : bound < last := late.trans_le (isLast later v inside started)
    refine valueAt_of_last (by rw [lookup_gt late', start]) early fun other w kept before => ?_
    rw [lookup_filterKeys] at kept
    split_ifs at kept
    exact isLast other w kept before
  · exact absurd (unstarted later v inside) (by omega)

theorem Covers.valueAt_eq (covers : Covers map key x) : valueAt map x = valueAt map key := by
  obtain ⟨started, before⟩ := covers_iff.mp covers
  refine (valueAt_congr (fun _ _ => rfl) started fun later v inside early => ?_).symm
  by_contra late
  exact absurd (before later v inside (not_le.mp late)) (not_lt.mpr early)

def Canonical (map : OrderedMap ℕ V) : Prop :=
  ∀ key value, map.lookup key = some value → 1 ≤ key ∧ valueAt map (key - 1) ≠ value

section
variable (canon : Canonical map)
include canon

theorem Canonical.lookup_eq_some_iff : map.lookup key = some value ↔
      1 ≤ key ∧ valueAt map key = value ∧ valueAt map (key - 1) ≠ value := by
  constructor
  · intro start
    obtain ⟨positive, changes⟩ := canon key value start
    exact ⟨positive, valueAt_of_last start le_rfl fun _ _ _ early => early, changes⟩
  · rintro ⟨positive, here, changes⟩
    obtain ⟨last, start, started, isLast⟩ | ⟨value_eq, unstarted⟩ := valueAt_cases map key
    · by_cases same : last = key
      · rw [← same, start, ← here]
      · -- the value is already there before the key
        have before : valueAt map (key - 1) = valueAt map key := by
          refine valueAt_of_last start (by omega) fun later v inside early => ?_
          exact isLast later v inside (by omega)
        exact absurd (before.trans here) changes
    · have before : valueAt map (key - 1) = default := valueAt_of_unstarted fun later v inside => by
          have := unstarted later v inside
          omega
      exact absurd (before.trans (value_eq.symm.trans here)) changes

theorem Canonical.ext (canonical' : Canonical other)
    (same : ∀ x, valueAt map x = valueAt other x) : map = other := by
  refine ext_lookup fun key => Option.ext fun value => ?_
  rw [canon.lookup_eq_some_iff, canonical'.lookup_eq_some_iff, same, same]

theorem Canonical.valueAt_zero : valueAt map 0 = default :=
  valueAt_of_unstarted fun key value start => (canon key value start).1

theorem Canonical.ne_of_adjacent {before after : List (ℕ × V)}
    {first second : ℕ × V} (split : map.entries = before ++ first :: second :: after) :
    first.2 ≠ second.2 := by
  have sorted := map.sorted
  rw [split, pairwise_append, pairwise_cons, pairwise_cons] at sorted
  obtain ⟨-, ⟨above, behind, -⟩, below⟩ := sorted
  have start {entry : ℕ × V} (mem : entry ∈ before ++ first :: second :: after) :
      map.lookup entry.1 = some entry.2 := by
    rw [OrderedMap.lookup_eq_some_iff, split]
    exact mem
  have ascend : first.1 < second.1 := above second (by simp)
  have value_eq : valueAt map (second.1 - 1) = first.2 := by
    refine valueAt_of_last (start (by simp)) (by omega) fun later v inside early => ?_
    rw [OrderedMap.lookup_eq_some_iff, split, mem_append, mem_cons, mem_cons] at inside
    obtain mem | rfl | rfl | mem := inside
    · exact le_of_lt (below _ mem first (by simp))
    · exact le_rfl
    · omega
    · have := behind _ mem
      omega
  rw [← value_eq]
  exact (canon second.1 second.2 (start (by simp))).2

theorem Canonical.head_ne_default {first : ℕ × V}
    {rest : List (ℕ × V)} (split : map.entries = first :: rest) : first.2 ≠ default := by
  have sorted := map.sorted
  rw [split, pairwise_cons] at sorted
  have start : map.lookup first.1 = some first.2 := by
    rw [OrderedMap.lookup_eq_some_iff, split]
    exact mem_cons_self
  have value_eq : valueAt map (first.1 - 1) = default := by
    refine valueAt_of_unstarted fun later v inside => ?_
    have positive := (canon first.1 first.2 start).1
    rw [OrderedMap.lookup_eq_some_iff, split, mem_cons] at inside
    obtain rfl | mem := inside
    · omega
    · have := sorted.1 _ mem
      omega
  rw [← value_eq]
  exact (canon first.1 first.2 start).2.symm

end

end StepFunction

end BitxorCore.Library
