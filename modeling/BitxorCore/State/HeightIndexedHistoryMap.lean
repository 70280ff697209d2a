/- GID: State/HeightIndexedHistoryMap
   anchors: [src/bitxorcore/state/HeightIndexedHistoryMap.h]
   digest: The values of an account property by height are kept as their changes only. -/

import BitxorCore.Library.OrderedMap

set_option autoImplicit false
set_option relaxedAutoImplicit false

namespace BitxorCore.State
open Library Library.StepFunction OrderedMap

/-- Historical values by the height from which they hold. The source iterates from the largest
height down; here the entries ascend. -/
structure HeightIndexedHistoryMap (V : Type) where
  heightValueMap : OrderedMap ℕ V

namespace HeightIndexedHistoryMap

variable {V : Type} [Inhabited V] [DecidableEq V] (map : HeightIndexedHistoryMap V)

def empty : HeightIndexedHistoryMap V := ⟨OrderedMap.empty⟩

def heights : List ℕ := map.heightValueMap.entries.map Prod.fst

/-- The value at a height: `lower_bound` in descending order is the last entry not above it. -/
def get (height : ℕ) : V := valueAt map.heightValueMap height

def insertOrAssign (height : ℕ) (value : V) : HeightIndexedHistoryMap V :=
  ⟨map.heightValueMap.insert height value⟩

/-- Removes the entry of a larger height that has the value as well. -/
def dropLarger (height : ℕ) (value : V) : HeightIndexedHistoryMap V :=
  match map.heightValueMap.next? height with
  | some larger =>
    if larger.2 = value then ⟨map.heightValueMap.erase larger.1⟩ else map
  | none => map

/-- Removes the entry of a height when the smaller heights have its value already. -/
def dropNew (height : ℕ) (value : V) : HeightIndexedHistoryMap V :=
  if map.get (height - 1) = value then ⟨map.heightValueMap.erase height⟩ else map

def add (height : ℕ) (value : V) : HeightIndexedHistoryMap V :=
  ((map.insertOrAssign height value).dropLarger height value).dropNew height value

def pruneLess (height : ℕ) : HeightIndexedHistoryMap V :=
  match (map.heightValueMap.findLast? fun key _ => key ≤ height).bind map.heightValueMap.lookup with
  | none => map
  | some valueAtPruneHeight =>
    let kept : HeightIndexedHistoryMap V := ⟨map.heightValueMap.filterKeys (height < ·)⟩
    kept.add height valueAtPruneHeight

def pruneGreater (height : ℕ) : HeightIndexedHistoryMap V :=
  ⟨map.heightValueMap.filterKeys (· ≤ height)⟩

/-- A change of a history; its height is at least one. -/
inductive Change (V : Type)
  | add (height : ℕ) (positive : 1 ≤ height) (value : V)
  | pruneLess (height : ℕ) (positive : 1 ≤ height)
  | pruneGreater (height : ℕ) (positive : 1 ≤ height)

def apply : Change V → HeightIndexedHistoryMap V
  | .add height _ value => map.add height value
  | .pruneLess height _ => map.pruneLess height
  | .pruneGreater height _ => map.pruneGreater height

def run (changes : List (Change V)) : HeightIndexedHistoryMap V := changes.foldl apply empty

variable {map} {height x : ℕ} {value : V}

omit [DecidableEq V] in
private theorem ext_get {other : HeightIndexedHistoryMap V}
    (canonical : Canonical map.heightValueMap) (canonical' : Canonical other.heightValueMap)
    (same : ∀ x, map.get x = other.get x) : map = other := by
  cases map
  cases other
  exact congrArg mk (canonical.ext canonical' same)

omit [Inhabited V] [DecidableEq V] in
private theorem insertOrAssign_start (map : HeightIndexedHistoryMap V) (height : ℕ) (value : V) :
    (map.insertOrAssign height value).heightValueMap.lookup height = some value := by
  rw [insertOrAssign, lookup_insert, if_pos rfl]

omit [Inhabited V] in
private theorem dropLarger_lookup {key : ℕ} {v : V}
    (inside : (map.dropLarger height value).heightValueMap.lookup key = some v) :
    map.heightValueMap.lookup key = some v ∧
      map.heightValueMap.next? height ≠ some (key, value) := by
  unfold dropLarger at inside
  split at inside
  · next larger found =>
    rw [found]
    split_ifs at inside with same
    · rw [lookup_erase] at inside
      split_ifs at inside with other
      exact ⟨inside, fun here => other (congrArg Prod.fst (Option.some.inj here)).symm⟩
    · exact ⟨inside, fun here => same (congrArg Prod.snd (Option.some.inj here))⟩
  · simp_all

omit [Inhabited V] in
private theorem dropLarger_start (start : map.heightValueMap.lookup height = some value) :
    (map.dropLarger height value).heightValueMap.lookup height = some value := by
  unfold dropLarger
  split
  · next larger found =>
    obtain ⟨-, behind, -⟩ := next?_spec found
    split_ifs
    · rw [lookup_erase, if_neg (by omega), start]
    · exact start
  · exact start

private theorem get_dropLarger (start : map.heightValueMap.lookup height = some value) (x : ℕ) :
    (map.dropLarger height value).get x = map.get x := by
  unfold dropLarger
  split
  · next larger found =>
    obtain ⟨inside, behind, next⟩ := next?_spec found
    split_ifs with same
    · refine valueAt_erase inside (by omega) ?_ x
      rw [same]
      refine valueAt_of_last start (by omega) fun later v kept early => ?_
      by_contra late
      have := next later v kept (not_le.mp late)
      omega
    · rfl
  · rfl

private theorem dropNew_lookup {key : ℕ} {v : V}
    (inside : (map.dropNew height value).heightValueMap.lookup key = some v) :
    map.heightValueMap.lookup key = some v ∧ (key = height → map.get (height - 1) ≠ value) := by
  unfold dropNew at inside
  split_ifs at inside with same
  · simp_all [lookup_erase]
  · exact ⟨inside, fun _ => same⟩

private theorem get_dropNew (positive : 1 ≤ height)
    (start : map.heightValueMap.lookup height = some value) (x : ℕ) :
    (map.dropNew height value).get x = map.get x := by
  unfold dropNew
  split_ifs with same
  · exact valueAt_erase start positive same x
  · rfl

private theorem get_add (map : HeightIndexedHistoryMap V) (positive : 1 ≤ height) (value : V)
    (x : ℕ) : (map.add height value).get x =
      if Covers map.heightValueMap height x then value else map.get x := by
  have start := map.insertOrAssign_start height value
  rw [add, get_dropNew positive (dropLarger_start start), get_dropLarger start]
  exact valueAt_insert map.heightValueMap height value x

/-- Entries that change the value, except where the new value comes before them, are enough for
an `add` to leave a canonical map. -/
private theorem canonical_add_of (positive : 1 ≤ height) (value : V)
    (canonical : ∀ key v, map.heightValueMap.lookup key = some v → 1 ≤ key ∧
      (¬Covers map.heightValueMap height (key - 1) → map.get (key - 1) ≠ v)) :
    Canonical (map.add height value).heightValueMap := by
  intro key v inside
  obtain ⟨undropped, changes⟩ := dropNew_lookup inside
  obtain ⟨stored, unrepeated⟩ := dropLarger_lookup undropped
  have start := map.insertOrAssign_start height value
  by_cases here : key = height
  · subst here
    obtain rfl : value = v := Option.some.inj (start.symm.trans stored)
    refine ⟨positive, ?_⟩
    have unchanged := get_dropNew positive (dropLarger_start start) (key - 1)
    exact fun same => changes rfl (unchanged.symm.trans same)
  · rw [insertOrAssign, lookup_insert, if_neg here] at stored
    obtain ⟨positive', changed⟩ := canonical key v stored
    refine ⟨positive', ?_⟩
    have value_eq := get_add map positive value (key - 1)
    change (map.add height value).get (key - 1) ≠ v
    rw [value_eq]
    split_ifs with covered
    · -- the entry is the next larger one, so it was kept for its value
      rintro rfl
      obtain ⟨behind, next⟩ := covers_iff.mp covered
      refine unrepeated ?_
      have stored' : (map.insertOrAssign height value).heightValueMap.lookup key = some value := by
        rw [insertOrAssign, lookup_insert, if_neg here, stored]
      cases found : (map.insertOrAssign height value).heightValueMap.next? height with
      | none =>
        have := next?_eq_none_iff.mp found key value stored'
        omega
      | some larger =>
        obtain ⟨inside', behind', first⟩ := next?_spec found
        have lower := first key value stored' (by omega)
        have old : map.heightValueMap.lookup larger.1 = some larger.2 := by
          rwa [insertOrAssign, lookup_insert, if_neg (by omega)] at inside'
        have upper := next larger.1 larger.2 old behind'
        obtain rfl : larger.1 = key := by omega
        rw [stored'] at inside'
        rw [Option.some.inj inside']
    · exact changed covered

private theorem canonical_add (positive : 1 ≤ height) (value : V)
    (canonical : Canonical map.heightValueMap) :
    Canonical (map.add height value).heightValueMap := by
  refine canonical_add_of positive value fun key v inside => ?_
  obtain ⟨positive', changed⟩ := canonical key v inside
  exact ⟨positive', fun _ => changed⟩

private theorem pruneLess_cases (map : HeightIndexedHistoryMap V) (height : ℕ) :
    map.pruneLess height = map ∧ (∀ key v, map.heightValueMap.lookup key = some v → height < key) ∨
      map.pruneLess height =
        add ⟨map.heightValueMap.filterKeys (height < ·)⟩ height (map.get height) := by
  unfold pruneLess get valueAt
  cases found : map.heightValueMap.findLast? fun key _ => key ≤ height with
  | none =>
    refine .inl ⟨rfl, fun key v inside => ?_⟩
    simpa using findLast?_eq_none_iff.mp found key v inside
  | some key =>
    obtain ⟨⟨value, start, -⟩, -⟩ := findLast?_eq_some_iff.mp found
    refine .inr ?_
    simp only [Option.bind_some, start, Option.getD_some]

omit [Inhabited V] [DecidableEq V] in
private theorem covers_filterKeys_gt (map : OrderedMap ℕ V) :
    Covers (map.filterKeys (height < ·)) height x ↔ Covers map height x := by
  refine and_congr_right fun _ => ⟨fun before entry mem late => ?_, fun before entry mem late => ?_⟩
  · exact before entry (List.mem_filter.mpr ⟨mem, by simpa using late⟩) late
  · exact before entry (List.mem_filter.mp mem).1 late

private theorem get_pruneLess (map : HeightIndexedHistoryMap V) (positive : 1 ≤ height)
    (behind : height ≤ x) : (map.pruneLess height).get x = map.get x := by
  obtain ⟨same, -⟩ | same := map.pruneLess_cases height
  · rw [same]
  · rw [same, get_add _ positive]
    split_ifs with covered <;> rw [covers_filterKeys_gt] at covered
    · exact covered.valueAt_eq.symm
    · exact valueAt_filterKeys_gt covered behind

private theorem canonical_pruneLess (positive : 1 ≤ height)
    (canonical : Canonical map.heightValueMap) :
    Canonical (map.pruneLess height).heightValueMap := by
  obtain ⟨same, -⟩ | same := map.pruneLess_cases height
  · rwa [same]
  · rw [same]
    refine canonical_add_of positive _ fun key v inside => ?_
    rw [lookup_filterKeys] at inside
    split_ifs at inside with late
    have late : height < key := by simpa using late
    obtain ⟨positive', changed⟩ := canonical key v inside
    refine ⟨positive', fun uncovered => ?_⟩
    rw [covers_filterKeys_gt] at uncovered
    rw [get, valueAt_filterKeys_gt uncovered (by omega)]
    exact changed

omit [DecidableEq V] in
private theorem get_pruneGreater (map : HeightIndexedHistoryMap V) (height x : ℕ) :
    (map.pruneGreater height).get x = map.get (min x height) :=
  valueAt_filterKeys_le map.heightValueMap height x

omit [DecidableEq V] in
private theorem canonical_pruneGreater (height : ℕ) (canonical : Canonical map.heightValueMap) :
    Canonical (map.pruneGreater height).heightValueMap := by
  intro key v inside
  rw [pruneGreater, lookup_filterKeys] at inside
  split_ifs at inside with kept
  have early : key ≤ height := by simpa using kept
  obtain ⟨positive, changed⟩ := canonical key v inside
  refine ⟨positive, ?_⟩
  have value_eq := get_pruneGreater map height (key - 1)
  rw [min_eq_left (by omega)] at value_eq
  exact fun same => changed (value_eq.symm.trans same)

private theorem canonical_apply (change : Change V) (canonical : Canonical map.heightValueMap) :
    Canonical (map.apply change).heightValueMap := by
  cases change with
  | add height positive value => exact canonical_add positive value canonical
  | pruneLess height positive => exact canonical_pruneLess positive canonical
  | pruneGreater height positive => exact canonical_pruneGreater height canonical

variable (changes : List (Change V))

private theorem canonical_foldl (canonical : Canonical map.heightValueMap) :
    Canonical (changes.foldl apply map).heightValueMap := by
  induction changes generalizing map with
  | nil => exact canonical
  | cons change changes ih => exact ih (canonical_apply change canonical)

private theorem canonical_run :
    Canonical (run changes).heightValueMap := canonical_foldl changes nofun

/-- No two adjacent entries have one value, and the lowest entry does not have the default one. -/
structure Coalesced (map : HeightIndexedHistoryMap V) : Prop where
  adjacent : ∀ before after first second,
    map.heightValueMap.entries = before ++ first :: second :: after → first.2 ≠ second.2
  lowest : ∀ first rest, map.heightValueMap.entries = first :: rest → first.2 ≠ default

/-- A reachable history has one entry for each change of the value; its queries after `add`,
`pruneLess` and `pruneGreater` follow from those before; and the queries give the entries. -/
theorem run_answers (changes : List (Change V)) : (run changes).Coalesced ∧
    (∀ height value, 1 ≤ height → ∀ x, ((run changes).add height value).get x =
      if height ≤ x ∧ ∀ recorded ∈ (run changes).heights, height < recorded → x < recorded
      then value else (run changes).get x) ∧
    (∀ height, 1 ≤ height → ∀ x, height ≤ x →
      ((run changes).pruneLess height).get x = (run changes).get x) ∧
    (∀ height, 1 ≤ height → ∀ x,
      ((run changes).pruneGreater height).get x = (run changes).get (min x height)) ∧
    ∀ others : List (Change V), (∀ x, 1 ≤ x → (run changes).get x = (run others).get x) →
      run changes = run others := by
  have canonical := canonical_run changes
  refine ⟨⟨fun _ _ _ _ split => canonical.ne_of_adjacent split,
    fun _ _ split => canonical.head_ne_default split⟩, ?_, ?_, ?_, ?_⟩
  · intro height value positive x
    rw [get_add _ positive]
    refine if_congr (and_congr_right fun _ => ?_) rfl rfl
    simp [heights]
  · exact fun height positive x behind => get_pruneLess _ positive behind
  · exact fun height _ x => get_pruneGreater _ height x
  · intro others same
    have canonical' := canonical_run others
    refine ext_get canonical canonical' fun x => ?_
    obtain rfl | positive := Nat.eq_zero_or_pos x
    · exact canonical.valueAt_zero.trans canonical'.valueAt_zero.symm
    · exact same x positive

end HeightIndexedHistoryMap

end BitxorCore.State
