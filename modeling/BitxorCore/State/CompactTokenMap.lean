/- GID: State/CompactTokenMap
   anchors: [src/bitxorcore/state]
   digest: A token map spread over a value, a small array and a map is one ordered map. -/

import BitxorCore.Library.OrderedMap

set_option autoImplicit false
set_option relaxedAutoImplicit false

namespace BitxorCore.State
open Library

/-- The array, as long as its size says, and the map behind it. -/
structure SecondLevelStorage (TokenId Amount : Type) [LinearOrder TokenId] where
  arrayStorage : List (TokenId × Amount)
  mapStorage : Option (OrderedMap TokenId Amount)

/-- A token map. No token has the id zero, which marks a value that is not set. -/
structure CompactTokenMap (TokenId Amount : Type) [LinearOrder TokenId] where
  value : TokenId × Amount
  nextStorage : Option (SecondLevelStorage TokenId Amount)
  optimizedTokenId : TokenId

inductive TokenLocation
  | value
  | array (index : ℕ)
  | map
  deriving DecidableEq, Repr

def tokenArraySize : ℕ := 5

variable {TokenId Amount : Type} [LinearOrder TokenId]

namespace SecondLevelStorage

variable (storage : SecondLevelStorage TokenId Amount)

def mapEntries : List (TokenId × Amount) := storage.mapStorage.elim [] OrderedMap.entries

def insertIntoMap (pair : TokenId × Amount) : SecondLevelStorage TokenId Amount :=
  { storage with
    mapStorage := some ((storage.mapStorage.getD OrderedMap.empty).insert pair.1 pair.2) }

def insertIntoArray (index : ℕ) (pair : TokenId × Amount) : SecondLevelStorage TokenId Amount :=
  match storage.arrayStorage.getLast? with
  | some back =>
    if storage.arrayStorage.length = tokenArraySize then
      { storage.insertIntoMap back with
        arrayStorage := storage.arrayStorage.dropLast.insertIdx index pair }
    else { storage with arrayStorage := storage.arrayStorage.insertIdx index pair }
  | none => { storage with arrayStorage := storage.arrayStorage.insertIdx index pair }

def eraseFromArray (index : ℕ) : SecondLevelStorage TokenId Amount :=
  { storage with arrayStorage := storage.arrayStorage.eraseIdx index }

/-- The loop that moves the first tokens of the map into a smaller array. -/
def refill (array : List (TokenId × Amount)) :
    List (TokenId × Amount) → List (TokenId × Amount) × List (TokenId × Amount)
  | [] => (array, [])
  | first :: rest =>
    if array.length < tokenArraySize then refill (array ++ [first]) rest else (array, first :: rest)

omit [LinearOrder TokenId] in
private theorem refill_suffix (array entries : List (TokenId × Amount)) :
    (refill array entries).2 <:+ entries := by
  fun_induction refill array entries with
  | case1 => exact List.suffix_refl _
  | case2 _ _ _ _ ih => exact ih.trans (List.suffix_cons _ _)
  | case3 => exact List.suffix_refl _

/-- The array and the map after the loop; an empty map is released. -/
def compact : SecondLevelStorage TokenId Amount :=
  match storage.mapStorage with
  | none => storage
  | some map =>
    let refilled := refill storage.arrayStorage map.entries
    { arrayStorage := refilled.1
      mapStorage := if refilled.2.isEmpty then none
        else some ⟨refilled.2, map.sorted.sublist (refill_suffix _ _).sublist⟩ }

end SecondLevelStorage

namespace CompactTokenMap

variable [Zero TokenId] [Zero Amount] (map : CompactTokenMap TokenId Amount)

def create : CompactTokenMap TokenId Amount := ⟨(0, 0), none, 0⟩

def isEmpty : Bool := map.value.1 = 0

def array : List (TokenId × Amount) := map.nextStorage.elim [] SecondLevelStorage.arrayStorage

def mapEntries : List (TokenId × Amount) := map.nextStorage.elim [] SecondLevelStorage.mapEntries

def size : ℕ := if map.isEmpty then 0 else 1 + map.array.length + map.mapEntries.length

variable (id : TokenId)

def locate : Option TokenLocation :=
  if map.isEmpty then none
  else if id = map.value.1 then some .value
  else if map.array.any (·.1 = id) then some (.array (map.array.findIdx (·.1 = id)))
  else if map.mapEntries.any (·.1 = id) then some .map
  else none

def tokenAt : TokenLocation → Option (TokenId × Amount)
  | .value => some map.value
  | .array index => map.array[index]?
  | .map => map.mapEntries.find? (·.1 = id)

def find : Option (TokenId × Amount) := (map.locate id).bind (map.tokenAt id)

def isLessThan (optimizedTokenId lhs rhs : TokenId) : Bool :=
  if lhs = rhs then false
  else if optimizedTokenId = lhs ∨ optimizedTokenId = rhs then optimizedTokenId = lhs
  else lhs < rhs

/-- `insert` of a token whose id is checked, into a map that is not empty. -/
def insertBehind (pair : TokenId × Amount) : CompactTokenMap TokenId Amount :=
  let storage := map.nextStorage.getD ⟨[], none⟩
  if isLessThan map.optimizedTokenId pair.1 map.value.1 then
    { map with value := pair, nextStorage := some (storage.insertIntoArray 0 map.value) }
  else
    let arrayIndex := storage.arrayStorage.findIdx (pair.1 < ·.1)
    if arrayIndex < tokenArraySize then
      { map with nextStorage := some (storage.insertIntoArray arrayIndex pair) }
    else { map with nextStorage := some (storage.insertIntoMap pair) }

def insert (pair : TokenId × Amount) : Except String (CompactTokenMap TokenId Amount) :=
  if pair.1 = 0 then .error "cannot insert reserved token"
  else if (map.find pair.1).isSome then .error "cannot insert token already in map"
  else if map.isEmpty then .ok { map with value := pair }
  else .ok (map.insertBehind pair)

/-- The storage behind the value is compacted, and released when it is empty. -/
def compact : CompactTokenMap TokenId Amount :=
  match map.nextStorage with
  | none => map
  | some storage =>
    let compacted := storage.compact
    { map with nextStorage := if compacted.arrayStorage.isEmpty then none else some compacted }

def eraseAt : TokenLocation → CompactTokenMap TokenId Amount
  | .value =>
    match map.nextStorage with
    | some storage =>
      { map with
        value := storage.arrayStorage.headD (0, 0)
        nextStorage := some (storage.eraseFromArray 0) }
    | none => { map with value := (0, 0) }
  | .array index => { map with nextStorage := map.nextStorage.map (·.eraseFromArray index) }
  | .map =>
    { map with
      nextStorage := map.nextStorage.map fun storage =>
        { storage with mapStorage := storage.mapStorage.map (·.erase id) } }

def erase : CompactTokenMap TokenId Amount :=
  match map.locate id with
  | none => map
  | some location => (map.eraseAt id location).compact

def reinsert : Except String (CompactTokenMap TokenId Amount) :=
  match map.find id with
  | none => .ok map
  | some token => (map.erase token.1).insert token

def optimize : Except String (CompactTokenMap TokenId Amount) :=
  if id = map.optimizedTokenId then .ok map
  else do
    let moved ← reinsert { map with optimizedTokenId := id } map.optimizedTokenId
    moved.reinsert id

inductive Stage
  | start
  | value
  | array (index : ℕ)
  | map (index : ℕ)
  | finish
  deriving DecidableEq, Repr

def advance : Stage → Stage
  | .start => if map.isEmpty then .finish else .value
  | .value => if map.nextStorage.isSome then .array 0 else .finish
  | .array index =>
    if index + 1 ≠ map.array.length then .array (index + 1)
    else if (map.nextStorage.bind SecondLevelStorage.mapStorage).isSome then .map 0
    else .finish
  | .map index => if index + 1 ≠ map.mapEntries.length then .map (index + 1) else .finish
  | .finish => .finish

def current : Stage → Option (TokenId × Amount)
  | .value => some map.value
  | .array index => map.array[index]?
  | .map index => map.mapEntries[index]?
  | .start | .finish => none

/-- The tokens that a loop from a stage to the end visits, within a number of steps. -/
def walk : ℕ → Stage → List (TokenId × Amount)
  | 0, _ => []
  | steps + 1, stage =>
    match map.current stage with
    | none => []
    | some token => token :: walk steps (map.advance stage)

/-- A loop over the map has one step more than there are tokens to come to the end. -/
def iterate : List (TokenId × Amount) := map.walk (map.size + 1) (map.advance .start)

end CompactTokenMap

open List

variable {TokenId Amount : Type} [LinearOrder TokenId]

def Precedes (first second : TokenId × Amount) : Prop := first.1 < second.1

instance : DecidableRel (Precedes : TokenId × Amount → TokenId × Amount → Prop) :=
  fun first second => inferInstanceAs (Decidable (first.1 < second.1))

variable {pair : TokenId × Amount} {front back listed : List (TokenId × Amount)}

private theorem orderedInsert_append_left (larger : ∃ token ∈ front, pair.1 < token.1) :
    (front ++ back).orderedInsert Precedes pair = front.orderedInsert Precedes pair ++ back := by
  induction front with
  | nil => simp at larger
  | cons first rest ih =>
    rw [cons_append, List.orderedInsert, List.orderedInsert]
    split_ifs with here
    · rfl
    · rw [cons_append, ih]
      obtain ⟨token, mem, above⟩ := larger
      obtain rfl | later := List.mem_cons.mp mem
      · exact absurd above here
      · exact ⟨token, later, above⟩

private theorem orderedInsert_append_right (smaller : ∀ token ∈ front, ¬pair.1 < token.1) :
    (front ++ back).orderedInsert Precedes pair = front ++ back.orderedInsert Precedes pair := by
  induction front with
  | nil => rfl
  | cons first rest ih =>
    rw [List.forall_mem_cons] at smaller
    have here : ¬Precedes pair first := smaller.1
    rw [cons_append, List.orderedInsert, if_neg here, ih smaller.2, cons_append]

omit [LinearOrder TokenId] in
private theorem insertIdx_append_left {index : ℕ} (inside : index ≤ front.length) :
    (front ++ back).insertIdx index pair = front.insertIdx index pair ++ back := by
  induction front generalizing index with
  | nil => simp_all
  | cons first rest ih =>
    cases index with
    | zero => rfl
    | succ index => simp_all

private theorem insertIdx_findIdx (pair : TokenId × Amount) (front : List (TokenId × Amount)) :
    front.insertIdx (front.findIdx (pair.1 < ·.1)) pair = front.orderedInsert Precedes pair := by
  induction front with
  | nil => rfl
  | cons first rest ih =>
    rw [findIdx_cons, List.orderedInsert]
    by_cases here : pair.1 < first.1
    · simp [here, Precedes]
    · simp [here, Precedes, ih]

abbrev Ascending (listed : List (TokenId × Amount)) : Prop := listed.Pairwise Precedes

private theorem Ascending.orderedInsert (ascending : Ascending listed)
    (fresh : ∀ token ∈ listed, token.1 ≠ pair.1) :
    Ascending (listed.orderedInsert Precedes pair) := by
  induction listed with
  | nil => exact pairwise_singleton _ _
  | cons first rest ih =>
    obtain ⟨above, tail⟩ := List.pairwise_cons.mp ascending
    obtain ⟨other, fresh⟩ := List.forall_mem_cons.mp fresh
    rw [List.orderedInsert]
    split_ifs with here
    · refine List.pairwise_cons.mpr ⟨fun token mem => ?_, ascending⟩
      obtain rfl | later := List.mem_cons.mp mem
      · exact here
      · exact lt_trans here (above token later)
    · refine List.pairwise_cons.mpr ⟨fun token mem => ?_, ih tail fresh⟩
      obtain rfl | later := (mem_orderedInsert Precedes).mp mem
      · exact lt_of_le_of_ne (not_lt.mp here) other
      · exact above token later

variable (optimizedTokenId : TokenId)

/-- The ids behind the first one ascend, and the first one comes before them unless it is the
optimized one. -/
def Ranked : List (TokenId × Amount) → Prop
  | [] => True
  | first :: rest =>
    Ascending rest ∧ (first.1 ≠ optimizedTokenId → ∀ token ∈ rest, first.1 < token.1)

/-- Where `insert` puts a token. -/
def place (pair : TokenId × Amount) :
    List (TokenId × Amount) → List (TokenId × Amount)
  | [] => [pair]
  | first :: rest =>
    if CompactTokenMap.isLessThan optimizedTokenId pair.1 first.1 then pair :: first :: rest
    else first :: rest.orderedInsert Precedes pair

theorem isLessThan_iff {optimizedTokenId lhs rhs : TokenId} :
    CompactTokenMap.isLessThan optimizedTokenId lhs rhs = true ↔
      lhs ≠ rhs ∧ rhs ≠ optimizedTokenId ∧ (lhs = optimizedTokenId ∨ lhs < rhs) := by
  unfold CompactTokenMap.isLessThan
  split_ifs with same special
  · simp [same]
  · grind
  · grind

theorem place_perm (pair : TokenId × Amount)
    (listed : List (TokenId × Amount)) :
    (place optimizedTokenId pair listed).Perm (pair :: listed) := by
  cases listed with
  | nil => exact List.Perm.refl _
  | cons first rest =>
    rw [place]
    split_ifs
    · exact List.Perm.refl _
    · exact ((perm_orderedInsert _ _ _).cons first).trans (List.Perm.swap _ _ _)

variable {optimizedTokenId : TokenId}

theorem Ranked.place (ranked : Ranked optimizedTokenId listed)
    (fresh : ∀ token ∈ listed, token.1 ≠ pair.1) :
    Ranked optimizedTokenId (place optimizedTokenId pair listed) := by
  cases listed with
  | nil => exact ⟨List.Pairwise.nil, fun _ _ mem => absurd mem not_mem_nil⟩
  | cons first rest =>
    obtain ⟨ascending, above⟩ := ranked
    obtain ⟨other, fresh⟩ := List.forall_mem_cons.mp fresh
    rw [State.place]
    split_ifs with less
    · obtain ⟨-, regular, below⟩ := isLessThan_iff.mp less
      refine ⟨List.pairwise_cons.mpr ⟨above regular, ascending⟩, fun unoptimized token mem => ?_⟩
      have below := below.resolve_left unoptimized
      obtain rfl | later := List.mem_cons.mp mem
      · exact below
      · exact below.trans (above regular token later)
    · refine ⟨ascending.orderedInsert fresh, fun unoptimized token mem => ?_⟩
      obtain rfl | later := (mem_orderedInsert Precedes).mp mem
      · rw [isLessThan_iff] at less
        grind
      · exact above unoptimized token later

theorem Ranked.ascending_of_ne (ranked : Ranked optimizedTokenId listed)
    (unoptimized : ∀ token ∈ listed.head?, token.1 ≠ optimizedTokenId) : Ascending listed := by
  cases listed with
  | nil => exact List.Pairwise.nil
  | cons first rest =>
    exact List.pairwise_cons.mpr ⟨ranked.2 (unoptimized first rfl), ranked.1⟩

theorem Ascending.ranked (ascending : Ascending listed) (optimizedTokenId : TokenId) :
    Ranked optimizedTokenId listed := by
  cases listed with
  | nil => trivial
  | cons first rest =>
    obtain ⟨above, tail⟩ := List.pairwise_cons.mp ascending
    exact ⟨tail, fun _ => above⟩

theorem Ranked.filter (ranked : Ranked optimizedTokenId listed) (p : TokenId × Amount → Bool) :
    Ranked optimizedTokenId (listed.filter p) := by
  cases listed with
  | nil => trivial
  | cons first rest =>
    obtain ⟨ascending, above⟩ := ranked
    rw [filter_cons]
    split_ifs
    · exact ⟨ascending.filter p, fun unoptimized token mem =>
        above unoptimized token (mem_filter.mp mem).1⟩
    · exact Ascending.ranked (ascending.filter p) _

namespace SecondLevelStorage

variable {storage : SecondLevelStorage TokenId Amount}

def entries (storage : SecondLevelStorage TokenId Amount) : List (TokenId × Amount) :=
  storage.arrayStorage ++ storage.mapEntries

/-- The array is not overfull, and a map is only there behind a full array and not empty. -/
structure Fits (storage : SecondLevelStorage TokenId Amount) : Prop where
  array : storage.arrayStorage.length ≤ tokenArraySize
  map : ∀ map, storage.mapStorage = some map →
    storage.arrayStorage.length = tokenArraySize ∧ map.entries ≠ []

theorem Fits.mapEntries_eq_nil (fits : storage.Fits)
    (room : storage.arrayStorage.length < tokenArraySize) : storage.mapEntries = [] := by
  unfold mapEntries
  cases found : storage.mapStorage with
  | none => rfl
  | some map => exact absurd (fits.map map found).1 (by omega)

private theorem mapEntries_eq (storage : SecondLevelStorage TokenId Amount) :
    storage.mapEntries = (storage.mapStorage.getD OrderedMap.empty).entries := by
  unfold mapEntries
  cases storage.mapStorage <;> rfl

private theorem mapEntries_insertIntoMap (fresh : ∀ token ∈ storage.mapEntries, token.1 ≠ pair.1) :
    (storage.insertIntoMap pair).mapEntries = storage.mapEntries.orderedInsert Precedes pair := by
  rw [mapEntries_eq] at fresh
  rw [mapEntries_eq storage]
  have absent : (storage.mapStorage.getD OrderedMap.empty).lookup pair.1 = none := by
    rw [Option.eq_none_iff_forall_ne_some]
    intro amount found
    exact fresh _ (OrderedMap.lookup_eq_some_iff.mp found) rfl
  exact OrderedMap.entries_insert_eq pair.2 absent

private theorem orderedInsert_eq_cons (above : ∀ token ∈ listed, pair.1 < token.1) :
    listed.orderedInsert Precedes pair = pair :: listed := by
  cases listed with
  | nil => rfl
  | cons first rest => exact if_pos (above first mem_cons_self)

theorem insertIntoArray_spec (fits : storage.Fits) (ascending : Ascending storage.entries)
    {index : ℕ} (inside : index ≤ storage.arrayStorage.length) (room : index < tokenArraySize)
    (pair : TokenId × Amount) : (storage.insertIntoArray index pair).Fits ∧
      (storage.insertIntoArray index pair).arrayStorage ≠ [] ∧
      (storage.insertIntoArray index pair).entries =
        storage.arrayStorage.insertIdx index pair ++ storage.mapEntries := by
  have length : (storage.arrayStorage.insertIdx index pair).length =
      storage.arrayStorage.length + 1 := by
    rw [length_insertIdx, if_pos inside]
  have nonempty : storage.arrayStorage.insertIdx index pair ≠ [] := by
    rw [← length_pos_iff, length]
    exact Nat.succ_pos _
  by_cases full : storage.arrayStorage.length = tokenArraySize
  · obtain ⟨back, last⟩ : ∃ back, storage.arrayStorage.getLast? = some back := by
      rw [← Option.isSome_iff_exists, getLast?_isSome]
      rintro empty
      rw [empty] at full
      exact absurd full (Nat.zero_ne_add_one 4)
    obtain ⟨front, array_eq⟩ := getLast?_eq_some_iff.mp last
    have front_length : front.length + 1 = tokenArraySize := by
      rw [← full, array_eq, length_append, length_singleton]
    have above : ∀ token ∈ storage.mapEntries, back.1 < token.1 := by
      unfold entries at ascending
      rw [array_eq] at ascending
      exact fun token mem =>
        (pairwise_append.mp ascending).2.2 back (by simp) token mem
    have moved : (storage.insertIntoMap back).mapEntries = back :: storage.mapEntries := by
      rw [mapEntries_insertIntoMap fun token mem => (above token mem).ne',
        orderedInsert_eq_cons above]
    have eq : storage.insertIntoArray index pair = { storage.insertIntoMap back with
        arrayStorage := front.insertIdx index pair } := by
      rw [insertIntoArray, last]
      dsimp only
      rw [if_pos full, array_eq, dropLast_concat]
    have shifted : (front ++ [back]).insertIdx index pair =
        front.insertIdx index pair ++ [back] := insertIdx_append_left (by omega)
    have front_insert : (front.insertIdx index pair).length = tokenArraySize := by
      rw [length_insertIdx, if_pos (by omega), front_length]
    rw [eq]
    refine ⟨⟨le_of_eq front_insert, fun map found => ⟨front_insert, ?_⟩⟩, ?_, ?_⟩
    · have stored : (storage.insertIntoMap back).mapEntries = map.entries := by
        rw [mapEntries, show (storage.insertIntoMap back).mapStorage = some map from found]
        rfl
      rw [← stored, moved]
      exact cons_ne_nil _ _
    · rw [← length_pos_iff, front_insert]
      decide
    · rw [array_eq, shifted, entries]
      change front.insertIdx index pair ++ (storage.insertIntoMap back).mapEntries = _
      rw [moved, append_assoc]
      rfl
  · have small : storage.arrayStorage.length < tokenArraySize := by
      have := fits.array
      omega
    have eq : storage.insertIntoArray index pair =
        { storage with arrayStorage := storage.arrayStorage.insertIdx index pair } := by
      rw [insertIntoArray]
      split
      · rw [if_neg full]
      · rfl
    rw [eq]
    refine ⟨⟨by rw [length]; omega, fun map found => ?_⟩, nonempty, rfl⟩
    exact absurd (fits.map map found).1 full

/-- The storage after `insert` of a token that stays behind the value. -/
def insertSorted (storage : SecondLevelStorage TokenId Amount) (pair : TokenId × Amount) :
    SecondLevelStorage TokenId Amount :=
  if storage.arrayStorage.findIdx (pair.1 < ·.1) < tokenArraySize then
    storage.insertIntoArray (storage.arrayStorage.findIdx (pair.1 < ·.1)) pair
  else storage.insertIntoMap pair

theorem insertSorted_spec (fits : storage.Fits) (ascending : Ascending storage.entries)
    (fresh : ∀ token ∈ storage.entries, token.1 ≠ pair.1) :
    (storage.insertSorted pair).Fits ∧ (storage.insertSorted pair).arrayStorage ≠ [] ∧
      (storage.insertSorted pair).entries = storage.entries.orderedInsert Precedes pair := by
  unfold insertSorted
  have inside : storage.arrayStorage.findIdx (pair.1 < ·.1) ≤ storage.arrayStorage.length :=
    findIdx_le_length
  have fresh_map : ∀ token ∈ storage.mapEntries, token.1 ≠ pair.1 :=
    fun token mem => fresh token (mem_append_right _ mem)
  split_ifs with room
  · obtain ⟨fits', nonempty, eq⟩ := insertIntoArray_spec fits ascending inside room pair
    refine ⟨fits', nonempty, ?_⟩
    rw [eq, insertIdx_findIdx, entries]
    by_cases larger : ∃ token ∈ storage.arrayStorage, pair.1 < token.1
    · rw [orderedInsert_append_left larger]
    · push Not at larger
      -- the array has room behind its last token, so there is no map
      have small : storage.arrayStorage.length < tokenArraySize := by
        rwa [findIdx_eq_length_of_false fun token mem => by
          simpa using larger token mem] at room
      rw [fits.mapEntries_eq_nil small, append_nil, append_nil]
  · have full : storage.arrayStorage.length = tokenArraySize := by
      have := fits.array
      omega
    have smaller : ∀ token ∈ storage.arrayStorage, ¬pair.1 < token.1 := by
      intro token mem above
      have found : storage.arrayStorage.findIdx (pair.1 < ·.1) < storage.arrayStorage.length :=
        findIdx_lt_length_of_exists ⟨token, mem, by simpa using above⟩
      omega
    have inserted := mapEntries_insertIntoMap fresh_map
    refine ⟨⟨le_of_eq full, fun map found => ⟨full, ?_⟩⟩, ?_, ?_⟩
    · have stored : (storage.insertIntoMap pair).mapEntries = map.entries := by
        rw [mapEntries, found]
        rfl
      rw [← stored, inserted, ← length_pos_iff, orderedInsert_length]
      exact Nat.succ_pos _
    · rw [← length_pos_iff]
      change 0 < storage.arrayStorage.length
      rw [full]
      decide
    · change storage.arrayStorage ++ (storage.insertIntoMap pair).mapEntries = _
      rw [inserted, entries, orderedInsert_append_right smaller]

omit [LinearOrder TokenId] in
private theorem refill_spec (array entries : List (TokenId × Amount))
    (bounded : array.length ≤ tokenArraySize) :
    (refill array entries).1 ++ (refill array entries).2 = array ++ entries ∧
      (refill array entries).1.length ≤ tokenArraySize ∧
      ((refill array entries).2 ≠ [] → (refill array entries).1.length = tokenArraySize) := by
  fun_induction refill array entries with
  | case1 => exact ⟨rfl, bounded, fun none => absurd rfl none⟩
  | case2 array first rest room ih => grind
  | case3 array first rest room => exact ⟨rfl, bounded, fun _ => by dsimp only; omega⟩

theorem compact_spec (bounded : storage.arrayStorage.length ≤ tokenArraySize) :
    storage.compact.Fits ∧ storage.compact.entries = storage.entries := by
  unfold compact
  split
  · next none =>
    exact ⟨⟨bounded, fun map found => absurd (none.symm.trans found) nofun⟩, rfl⟩
  · next map stored =>
    obtain ⟨eq, le, full⟩ := refill_spec storage.arrayStorage map.entries bounded
    have entries_eq : storage.entries = storage.arrayStorage ++ map.entries := by
      rw [entries, mapEntries, stored]
      rfl
    rw [entries_eq, ← eq]
    by_cases empty : (refill storage.arrayStorage map.entries).2 = []
    · simp only [empty, isEmpty_nil, if_true, append_nil]
      refine ⟨⟨le, fun _ found => absurd found nofun⟩, ?_⟩
      rw [entries, mapEntries]
      exact append_nil _
    · have kept : (refill storage.arrayStorage map.entries).2.isEmpty = false := by
        rwa [isEmpty_eq_false_iff]
      simp only [kept, Bool.false_eq_true, if_false]
      refine ⟨⟨le, fun other found => ⟨full empty, ?_⟩⟩, rfl⟩
      rw [← Option.some.inj found]
      exact empty

end SecondLevelStorage

end BitxorCore.State
