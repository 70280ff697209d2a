/- GID: State/CompactTokenMapOrder
   anchors: [src/bitxorcore/state/CompactTokenMap.cpp]
   digest: Every run of inserts, erases and optimizes leaves one ordered map in three tiers. -/

import BitxorCore.State.CompactTokenMap

set_option autoImplicit false
set_option relaxedAutoImplicit false

namespace BitxorCore.State
open Library List Option SecondLevelStorage

variable {TokenId Amount : Type} [LinearOrder TokenId]

namespace CompactTokenMap

variable [Zero TokenId] {map after : CompactTokenMap TokenId Amount} {id : TokenId}

def tokens (map : CompactTokenMap TokenId Amount) : List (TokenId × Amount) :=
  if map.isEmpty then [] else map.value :: (map.array ++ map.mapEntries)

/-- What holds of the tiers whatever the order of the tokens: the storage behind the value is
used as far as needed, no id is reserved and none is there twice. -/
structure Shape (map : CompactTokenMap TokenId Amount) : Prop where
  unset : map.value.1 = 0 → map.nextStorage = none
  storage : ∀ storage, map.nextStorage = some storage → storage.Fits ∧ storage.arrayStorage ≠ []
  reserved : ∀ token ∈ map.tokens, token.1 ≠ 0
  distinct : (map.tokens.map Prod.fst).Nodup

theorem tokens_of_isEmpty (empty : map.value.1 = 0) : map.tokens = [] := by
  simp [tokens, isEmpty, empty]

private theorem tokens_of_value (set : map.value.1 ≠ 0) :
    map.tokens = map.value :: (map.array ++ map.mapEntries) := by
  simp [tokens, isEmpty, set]

private theorem tokens_of_storage (set : map.value.1 ≠ 0)
    {storage : SecondLevelStorage TokenId Amount} (stored : map.nextStorage = some storage) :
    map.tokens = map.value :: storage.entries := by
  rw [tokens_of_value set, array, mapEntries, stored]
  rfl

private theorem tokens_of_none (set : map.value.1 ≠ 0) (none : map.nextStorage = none) :
    map.tokens = [map.value] := by
  rw [tokens_of_value set, array, mapEntries, none]
  rfl

variable {value : TokenId × Amount} (optimizedTokenId : TokenId)

private theorem tokens_mk_some (set : value.1 ≠ 0) (storage : SecondLevelStorage TokenId Amount) :
    (⟨value, some storage, optimizedTokenId⟩ : CompactTokenMap TokenId Amount).tokens =
      value :: storage.entries :=
  tokens_of_storage set rfl

theorem length_tokens (map : CompactTokenMap TokenId Amount) : map.tokens.length = map.size := by
  unfold tokens size
  split_ifs
  · rfl
  · rw [length_cons, length_append]
    omega

theorem find_eq (map : CompactTokenMap TokenId Amount) (id : TokenId) :
    map.find id = map.tokens.find? (·.1 = id) := by
  have search : (map.value :: (map.array ++ map.mapEntries)).find? (·.1 = id) =
      if id = map.value.1 then some map.value
      else (map.array.find? (·.1 = id)).or (map.mapEntries.find? (·.1 = id)) := by
    rw [find?_cons, find?_append]
    split_ifs with here
    · simp [here]
    · simp [Ne.symm here]
  have skip {listed : List (TokenId × Amount)} (none : ¬listed.any (·.1 = id) = true) :
      listed.find? (·.1 = id) = .none :=
    find?_eq_none.mpr fun token mem same => none (any_eq_true.mpr ⟨token, mem, same⟩)
  unfold find locate tokens
  by_cases empty : map.isEmpty = true
  · simp [empty]
  rw [if_neg empty, if_neg empty, search]
  split_ifs with here inArray inMap
  · rfl
  · have found : (map.array.find? (·.1 = id)).isSome := by simpa using inArray
    rw [or_of_isSome found]
    exact (find?_eq_getElem?_findIdx ..).symm
  · rw [skip inArray, none_or]
    rfl
  · rw [skip inArray, skip inMap]
    rfl

theorem find_isSome_iff : (map.find id).isSome = true ↔ ∃ token ∈ map.tokens, token.1 = id := by
  rw [find_eq, find?_isSome]
  simp

private theorem absent_of_find (none : map.find id = .none) :
    ∀ token ∈ map.tokens, token.1 ≠ id := by
  intro token mem same
  have found := find_isSome_iff.mpr ⟨token, mem, same⟩
  rw [none] at found
  exact absurd found Bool.false_ne_true

variable {pair : TokenId × Amount}

private theorem Shape.of_perm (shape : map.Shape) (valid : pair.1 ≠ 0)
    (fresh : ∀ token ∈ map.tokens, token.1 ≠ pair.1) (set : after.value.1 ≠ 0)
    (storage : ∀ storage, after.nextStorage = some storage →
      storage.Fits ∧ storage.arrayStorage ≠ [])
    (perm : after.tokens.Perm (pair :: map.tokens)) : after.Shape where
  unset empty := absurd empty set
  storage := storage
  reserved token mem := by
    obtain rfl | old := mem_cons.mp (perm.mem_iff.mp mem)
    · exact valid
    · exact shape.reserved token old
  distinct := by
    rw [(perm.map Prod.fst).nodup_iff, map_cons, nodup_cons]
    refine ⟨fun mem => ?_, shape.distinct⟩
    obtain ⟨token, old, same⟩ := mem_map.mp mem
    exact fresh token old same

private theorem Shape.behind (shape : map.Shape) (set : map.value.1 ≠ 0) :
    (map.nextStorage.getD ⟨[], none⟩).Fits ∧
      map.tokens = map.value :: (map.nextStorage.getD ⟨[], none⟩).entries := by
  cases stored : map.nextStorage with
  | none => exact ⟨⟨Nat.zero_le _, fun _ found => absurd found nofun⟩, tokens_of_none set stored⟩
  | some storage => exact ⟨(shape.storage storage stored).1, tokens_of_storage set stored⟩

private theorem insertBehind_spec (shape : map.Shape) (set : map.value.1 ≠ 0)
    (ranked : Ranked map.optimizedTokenId map.tokens)
    (valid : pair.1 ≠ 0) (fresh : ∀ token ∈ map.tokens, token.1 ≠ pair.1) :
    (map.insertBehind pair).Shape ∧
      (map.insertBehind pair).tokens = place map.optimizedTokenId pair map.tokens ∧
      (map.insertBehind pair).optimizedTokenId = map.optimizedTokenId := by
  obtain ⟨fits, tokens_eq⟩ := shape.behind set
  generalize storage_eq : map.nextStorage.getD ⟨[], none⟩ = storage at fits tokens_eq
  rw [tokens_eq] at ranked fresh
  have ascending := ranked.1
  have placed := place_perm map.optimizedTokenId pair map.tokens
  rw [tokens_eq] at placed ⊢
  have eq : map.insertBehind pair = if isLessThan map.optimizedTokenId pair.1 map.value.1 then
        { map with value := pair, nextStorage := some (storage.insertIntoArray 0 map.value) }
      else { map with nextStorage := some (storage.insertSorted pair) } := by
    rw [insertBehind, storage_eq, insertSorted]
    dsimp only
    split_ifs <;> rfl
  rw [place] at placed ⊢
  rw [eq]
  split_ifs at placed ⊢ with less
  · obtain ⟨fits', nonempty, entries_eq⟩ :=
      storage.insertIntoArray_spec fits ascending (Nat.zero_le _) (by decide) map.value
    have tokens_after := tokens_mk_some map.optimizedTokenId valid
      (storage.insertIntoArray 0 map.value)
    rw [entries_eq, insertIdx_zero, cons_append] at tokens_after
    refine ⟨?_, tokens_after, rfl⟩
    refine shape.of_perm valid (by rwa [tokens_eq]) valid ?_ (by rw [tokens_after, tokens_eq]; rfl)
    rintro _ ⟨⟩
    exact ⟨fits', nonempty⟩
  · obtain ⟨fits', nonempty, entries_eq⟩ := insertSorted_spec fits ascending
      fun token mem => fresh token (mem_cons_of_mem _ mem)
    refine ⟨?_, ?_, rfl⟩
    · refine shape.of_perm valid (by rwa [tokens_eq]) set ?_ ?_
      · rintro _ ⟨⟩
        exact ⟨fits', nonempty⟩
      · rw [tokens_mk_some _ set, entries_eq, tokens_eq]
        exact placed
    · rw [tokens_mk_some _ set, entries_eq]

theorem insert_spec (shape : map.Shape) (ranked : Ranked map.optimizedTokenId map.tokens)
    (pair : TokenId × Amount) : (pair.1 = 0 ∨ ∃ token ∈ map.tokens, token.1 = pair.1) ∧
        (∃ reason, map.insert pair = .error reason) ∨
      pair.1 ≠ 0 ∧ (∀ token ∈ map.tokens, token.1 ≠ pair.1) ∧
        ∃ after, map.insert pair = .ok after ∧ after.Shape ∧
          after.tokens = place map.optimizedTokenId pair map.tokens ∧
          after.optimizedTokenId = map.optimizedTokenId := by
  unfold insert
  split_ifs with reserved present empty
  · exact .inl ⟨.inl reserved, _, rfl⟩
  · exact .inl ⟨.inr (find_isSome_iff.mp present), _, rfl⟩
  all_goals
    have fresh : ∀ token ∈ map.tokens, token.1 ≠ pair.1 := by
      intro token mem same
      exact present (find_isSome_iff.mpr ⟨token, mem, same⟩)
    refine .inr ⟨reserved, fresh, _, rfl, ?_⟩
  · have empty : map.value.1 = 0 := by simpa [isEmpty] using empty
    have none := shape.unset empty
    have tokens_after :
        ({ map with value := pair } : CompactTokenMap TokenId Amount).tokens = [pair] :=
      tokens_of_none reserved none
    refine ⟨?_, by rw [tokens_after, tokens_of_isEmpty empty]; rfl, rfl⟩
    refine shape.of_perm reserved fresh reserved (fun storage stored => ?_) ?_
    · exact absurd (none.symm.trans stored) nofun
    · rw [tokens_after, tokens_of_isEmpty empty]
  · have set : map.value.1 ≠ 0 := by simpa [isEmpty] using empty
    exact insertBehind_spec shape set ranked reserved fresh

private theorem compact_spec (set : map.value.1 ≠ 0)
    (bounded : ∀ storage, map.nextStorage = some storage →
      storage.arrayStorage.length ≤ tokenArraySize) :
    map.compact.tokens = map.tokens ∧ map.compact.value = map.value ∧
      map.compact.optimizedTokenId = map.optimizedTokenId ∧
      ∀ storage, map.compact.nextStorage = some storage →
        storage.Fits ∧ storage.arrayStorage ≠ [] := by
  cases stored : map.nextStorage with
  | none =>
    have eq : map.compact = map := by rw [compact, stored]
    rw [eq]
    exact ⟨rfl, rfl, rfl, fun _ found => absurd (stored.symm.trans found) (some_ne_none _).symm⟩
  | some storage =>
    obtain ⟨fits, entries_eq⟩ := storage.compact_spec (bounded storage stored)
    by_cases empty : storage.compact.arrayStorage = []
    · have nothing : storage.entries = [] := by
        rw [← entries_eq, entries, empty,
          fits.mapEntries_eq_nil (by rw [empty]; exact Nat.succ_pos 4)]
        rfl
      have eq : map.compact = { map with nextStorage := none } := by
        rw [compact, stored]
        simp only [empty, isEmpty_nil, if_true]
      rw [eq, tokens_of_storage set stored, nothing]
      exact ⟨tokens_of_none set rfl, rfl, rfl, fun _ found => absurd found (some_ne_none _).symm⟩
    · have eq : map.compact = { map with nextStorage := some storage.compact } := by
        rw [compact, stored]
        dsimp only
        rw [if_neg (by simpa using empty)]
      rw [eq, tokens_of_storage set stored, ← entries_eq]
      refine ⟨tokens_mk_some _ set _, rfl, rfl, ?_⟩
      rintro _ ⟨⟩
      exact ⟨fits, empty⟩

variable {listed : List (TokenId × Amount)}

omit [Zero TokenId] in
private theorem filter_ne_self
    (absent : ∀ token ∈ listed, token.1 ≠ id) : listed.filter (·.1 ≠ id) = listed := by
  rw [filter_eq_self]
  exact fun token mem => by simpa using absent token mem

omit [Zero TokenId] in
private theorem eraseIdx_findIdx (distinct : (listed.map Prod.fst).Nodup) (id : TokenId) :
    listed.eraseIdx (listed.findIdx (·.1 = id)) = listed.filter (·.1 ≠ id) := by
  induction listed with
  | nil => rfl
  | cons first rest ih =>
    rw [map_cons, nodup_cons] at distinct
    rw [findIdx_cons]
    by_cases here : first.1 = id
    · have others : rest.filter (·.1 ≠ id) = rest := by
        refine filter_ne_self fun token mem same => ?_
        exact distinct.1 (mem_map.mpr ⟨token, mem, same.trans here.symm⟩)
      rw [filter_cons_of_neg (by simpa using here), others]
      simp [here]
    · simpa [here] using ih distinct.2

omit [LinearOrder TokenId] [Zero TokenId] in
private theorem ne_of_distinct {front back : List (TokenId × Amount)}
    (distinct : ((front ++ back).map Prod.fst).Nodup) {first second : TokenId × Amount}
    (inFront : first ∈ front) (inBack : second ∈ back) : first.1 ≠ second.1 := by
  rw [map_append, nodup_append] at distinct
  exact distinct.2.2 _ (mem_map_of_mem inFront) _ (mem_map_of_mem inBack)

private theorem locate_cases {location : TokenLocation} (located : map.locate id = some location) :
    map.value.1 ≠ 0 ∧ (location = .value ∧ id = map.value.1 ∨
      location = .array (map.array.findIdx (·.1 = id)) ∧ id ≠ map.value.1 ∧
        (∃ token ∈ map.array, token.1 = id) ∨
      location = .map ∧ id ≠ map.value.1 ∧ (∀ token ∈ map.array, token.1 ≠ id) ∧
        ∃ token ∈ map.mapEntries, token.1 = id) := by
  unfold locate at located
  split_ifs at located with empty here inArray inMap <;> obtain rfl := some.inj located
  all_goals refine ⟨by simpa [isEmpty] using empty, ?_⟩
  · exact .inl ⟨rfl, here⟩
  · exact .inr (.inl ⟨rfl, here, by simpa using inArray⟩)
  · grind

section Erase

variable [Zero Amount]

private theorem eraseAt_spec (shape : map.Shape) {location : TokenLocation}
    (located : map.locate id = some location) :
    map.eraseAt id location = { map with value := (0, 0) } ∧ map.nextStorage = none ∧
        map.value.1 = id ∨
      (map.eraseAt id location).value.1 ≠ 0 ∧
        (map.eraseAt id location).optimizedTokenId = map.optimizedTokenId ∧
        (map.eraseAt id location).tokens = map.tokens.filter (·.1 ≠ id) ∧
        ∀ storage, (map.eraseAt id location).nextStorage = some storage →
          storage.arrayStorage.length ≤ tokenArraySize := by
  obtain ⟨set, place⟩ := locate_cases located
  have distinct := shape.distinct
  cases stored : map.nextStorage with
  | none =>
    have array_nil : map.array = [] := by rw [array, stored]; rfl
    have map_nil : map.mapEntries = [] := by rw [mapEntries, stored]; rfl
    obtain ⟨rfl, here⟩ | ⟨-, -, token, mem, -⟩ | ⟨-, -, -, token, mem, -⟩ := place
    · exact .inl ⟨by rw [eraseAt, stored], rfl, here.symm⟩
    · rw [array_nil] at mem
      exact absurd mem not_mem_nil
    · rw [map_nil] at mem
      exact absurd mem not_mem_nil
  | some storage =>
    obtain ⟨fits, nonempty⟩ := shape.storage storage stored
    have tokens_eq := tokens_of_storage set stored
    have array_eq : map.array = storage.arrayStorage := by rw [array, stored]; rfl
    have map_eq : map.mapEntries = storage.mapEntries := by rw [mapEntries, stored]; rfl
    rw [tokens_eq, map_cons, nodup_cons] at distinct
    refine .inr ?_
    obtain ⟨rfl, here⟩ | ⟨rfl, other, token, mem, same⟩ | ⟨rfl, other, absent, -⟩ := place
    · obtain ⟨first, rest, split⟩ := exists_cons_of_ne_nil nonempty
      have first_set : first.1 ≠ 0 := by
        refine shape.reserved first ?_
        rw [tokens_eq, entries, split]
        simp
      have eq : map.eraseAt id .value = { map with
          value := first, nextStorage := some (storage.eraseFromArray 0) } := by
        rw [eraseAt, stored]
        simp only [split, headD_cons]
      rw [eq]
      refine ⟨first_set, rfl, ?_, ?_⟩
      · rw [tokens_mk_some _ first_set, tokens_eq, filter_cons_of_neg (by simp [here]),
          filter_ne_self]
        · simp only [entries, eraseFromArray, split]
          rfl
        · intro token mem same
          exact distinct.1 (mem_map.mpr ⟨token, mem, same.trans here⟩)
      · rintro _ ⟨⟩
        exact (length_eraseIdx_le _ _).trans fits.array
    · have eq : map.eraseAt id (.array (map.array.findIdx (·.1 = id))) = { map with
          nextStorage := some
            (storage.eraseFromArray (storage.arrayStorage.findIdx (·.1 = id))) } := by
        rw [eraseAt, stored, array_eq]
        rfl
      rw [eq]
      refine ⟨set, rfl, ?_, ?_⟩
      · rw [tokens_mk_some _ set, tokens_eq, filter_cons_of_pos (by simpa using Ne.symm other),
          entries, entries, filter_append]
        have inArray : storage.arrayStorage.eraseIdx (storage.arrayStorage.findIdx (·.1 = id)) =
            storage.arrayStorage.filter (·.1 ≠ id) := by
          refine eraseIdx_findIdx ?_ id
          exact distinct.2.sublist ((sublist_append_left _ _).map _)
        have inMap : storage.mapEntries.filter (·.1 ≠ id) = storage.mapEntries := by
          refine filter_ne_self fun token' member' same' => ?_
          rw [array_eq] at mem
          exact ne_of_distinct distinct.2 mem member' (same.trans same'.symm)
        rw [inMap, ← inArray]
        rfl
      · rintro _ ⟨⟩
        exact (length_eraseIdx_le _ _).trans fits.array
    · have eq : map.eraseAt id .map = { map with nextStorage := some { storage with
          mapStorage := storage.mapStorage.map (·.erase id) } } := by
        rw [eraseAt, stored]
        rfl
      rw [eq]
      refine ⟨set, rfl, ?_, ?_⟩
      · rw [array_eq] at absent
        rw [tokens_mk_some _ set, tokens_eq, filter_cons_of_pos (by simpa using Ne.symm other),
          SecondLevelStorage.entries, SecondLevelStorage.entries, filter_append,
          filter_ne_self absent, SecondLevelStorage.mapEntries, SecondLevelStorage.mapEntries]
        cases storage.mapStorage <;> rfl
      · rintro _ ⟨⟩
        exact fits.array

private theorem erase_spec (shape : map.Shape) (id : TokenId) :
    (map.erase id).Shape ∧ (map.erase id).tokens = map.tokens.filter (·.1 ≠ id) ∧
      (map.erase id).optimizedTokenId = map.optimizedTokenId := by
  unfold erase
  cases located : map.locate id with
  | none =>
    have none : map.find id = .none := by
      rw [find, located]
      rfl
    have absent := absent_of_find none
    exact ⟨shape, (filter_ne_self absent).symm, rfl⟩
  | some location =>
    dsimp only
    obtain ⟨eq, none, same⟩ | ⟨set, optimized, tokens_eq, bounded⟩ := eraseAt_spec shape located
    · have set := (locate_cases located).1
      have compact_eq : (map.eraseAt id location).compact = { map with value := (0, 0) } := by
        rw [eq, compact, none]
      have nothing : ({ map with value := (0, 0) } : CompactTokenMap TokenId Amount).tokens = [] :=
        tokens_of_isEmpty rfl
      rw [compact_eq, nothing, tokens_of_none set none]
      refine ⟨⟨fun _ => none, fun storage stored => ?_, ?_, ?_⟩, by simp [same], rfl⟩
      · exact absurd (none.symm.trans stored) nofun
      · simp_all
      · rw [nothing]
        exact nodup_nil
    · obtain ⟨tokens', value, optimized', storage⟩ := compact_spec set bounded
      rw [tokens_eq] at tokens'
      refine ⟨⟨fun unset => absurd (value ▸ unset) set, storage, ?_, ?_⟩, tokens',
        optimized'.trans optimized⟩
      · rw [tokens']
        exact fun token mem => shape.reserved token (mem_filter.mp mem).1
      · rw [tokens']
        exact shape.distinct.sublist (filter_sublist.map _)

end Erase

/-- The optimized id comes first where it is there, and the others ascend. -/
structure Ordered (map : CompactTokenMap TokenId Amount) : Prop where
  shape : map.Shape
  ranked : Ranked map.optimizedTokenId map.tokens
  first : ∀ token ∈ map.tokens.tail, token.1 ≠ map.optimizedTokenId

omit [Zero TokenId] in
private theorem tail_place {optimizedTokenId : TokenId} {pair : TokenId × Amount}
    (fresh : ∀ token ∈ listed, token.1 ≠ pair.1)
    (first : ∀ token ∈ listed.tail, token.1 ≠ optimizedTokenId) :
    ∀ token ∈ (place optimizedTokenId pair listed).tail, token.1 ≠ optimizedTokenId := by
  cases listed with
  | nil => exact fun token mem => absurd mem not_mem_nil
  | cons head rest =>
    intro token mem
    rw [place] at mem
    split_ifs at mem with less
    · obtain rfl | later := mem_cons.mp mem
      · exact (isLessThan_iff.mp less).2.1
      · exact first token later
    · obtain rfl | later := (mem_orderedInsert Precedes).mp mem
      · rw [isLessThan_iff] at less
        have other : head.1 ≠ token.1 := fresh head mem_cons_self
        rintro rfl
        exact less ⟨other.symm, other, .inl rfl⟩
      · exact first token later

private theorem tail_filter {α : Type} (p : α → Bool) (listed : List α) :
    (listed.filter p).tail ⊆ listed.tail := by
  cases listed with
  | nil => exact List.Subset.refl _
  | cons head rest =>
    rw [filter_cons]
    split_ifs
    · exact filter_sublist.subset
    · exact ((tail_sublist _).trans filter_sublist).subset

theorem Ordered.insert (ordered : map.Ordered) (inserted : map.insert pair = .ok after) :
    after.Ordered ∧ after.tokens.Perm (pair :: map.tokens) ∧
      after.optimizedTokenId = map.optimizedTokenId := by
  obtain ⟨-, reason, failed⟩ | ⟨-, fresh, other, done, shape, tokens_eq, optimized⟩ :=
    insert_spec ordered.shape ordered.ranked pair
  · exact absurd (failed.symm.trans inserted) nofun
  · obtain rfl : other = after := Except.ok.inj (done.symm.trans inserted)
    refine ⟨⟨shape, ?_, ?_⟩, by rw [tokens_eq]; exact place_perm _ _ _, optimized⟩
    · rw [optimized, tokens_eq]
      exact ordered.ranked.place fresh
    · rw [optimized, tokens_eq]
      exact tail_place fresh ordered.first

omit [Zero TokenId] in
private theorem perm_cons_filter {token : TokenId × Amount}
    (distinct : (listed.map Prod.fst).Nodup) (mem : token ∈ listed) :
    (token :: listed.filter (·.1 ≠ token.1)).Perm listed := by
  have nodup := List.Nodup.of_map _ distinct
  refine (perm_ext_iff_of_nodup (nodup_cons.mpr ⟨?_, nodup.filter _⟩) nodup).mpr ?_
  · simp
  · intro other
    rw [mem_cons, mem_filter]
    constructor
    · rintro (rfl | ⟨inside, -⟩)
      · exact mem
      · exact inside
    · intro inside
      by_cases same : other.1 = token.1
      · exact .inl (inj_on_of_nodup_map distinct inside mem same)
      · exact .inr ⟨inside, by simpa using same⟩

section Optimize

variable [Zero Amount]

private theorem Ordered.erase (ordered : map.Ordered) (id : TokenId) :
    (map.erase id).Ordered ∧ (map.erase id).tokens = map.tokens.filter (·.1 ≠ id) ∧
      (map.erase id).optimizedTokenId = map.optimizedTokenId := by
  obtain ⟨shape, tokens_eq, optimized⟩ := erase_spec ordered.shape id
  refine ⟨⟨shape, ?_, ?_⟩, tokens_eq, optimized⟩
  · rw [optimized, tokens_eq]
    exact ordered.ranked.filter _
  · rw [optimized, tokens_eq]
    exact fun token mem => ordered.first token (tail_filter _ _ mem)

/-- Reinserting a token puts it to its place among the others; the token itself may have been out
of place. -/
private theorem reinsert_spec (shape : map.Shape) (id : TokenId)
    (ranked : Ranked map.optimizedTokenId (map.tokens.filter (·.1 ≠ id))) :
    ∃ after, map.reinsert id = .ok after ∧ after.Shape ∧ Ranked map.optimizedTokenId after.tokens ∧
      after.optimizedTokenId = map.optimizedTokenId ∧ after.tokens.Perm map.tokens ∧
      (id = map.optimizedTokenId →
        ∀ token ∈ after.tokens.tail, token.1 ≠ map.optimizedTokenId) := by
  unfold reinsert
  cases found : map.find id with
  | none =>
    have absent := absent_of_find found
    rw [filter_ne_self absent] at ranked
    refine ⟨map, rfl, shape, ranked, rfl, List.Perm.refl _, ?_⟩
    rintro rfl token mem
    exact absent token (mem_of_mem_tail mem)
  | some token =>
    rw [find_eq] at found
    obtain rfl : token.1 = id := by simpa using find?_some found
    have mem := mem_of_find?_eq_some found
    obtain ⟨shape', tokens_eq, optimized⟩ := erase_spec shape token.1
    have fresh : ∀ other ∈ (map.erase token.1).tokens, other.1 ≠ token.1 := by simp_all
    rw [← optimized, ← tokens_eq] at ranked
    obtain ⟨present, -⟩ | ⟨-, -, after, inserted, shape'', tokens_eq', optimized'⟩ :=
      insert_spec shape' ranked token
    · obtain reserved | ⟨other, kept, same⟩ := present
      · exact absurd reserved (shape.reserved token mem)
      · exact absurd same (fresh other kept)
    · refine ⟨after, inserted, shape'', ?_, optimized'.trans optimized, ?_, ?_⟩
      · rw [tokens_eq', ← optimized]
        exact ranked.place fresh
      · rw [tokens_eq']
        refine (place_perm _ _ _).trans ?_
        rw [tokens_eq]
        exact perm_cons_filter shape.distinct mem
      · intro same
        rw [tokens_eq', ← optimized]
        refine tail_place fresh fun other kept => ?_
        rw [optimized, ← same]
        exact fresh other (mem_of_mem_tail kept)

/-- The order is broken while the two optimized ids are moved, and whole afterwards. -/
theorem Ordered.optimize (ordered : map.Ordered) (id : TokenId) :
    ∃ after, map.optimize id = .ok after ∧ after.Ordered ∧ after.tokens.Perm map.tokens ∧
      after.optimizedTokenId = id := by
  unfold CompactTokenMap.optimize
  split_ifs with same
  · exact ⟨map, rfl, ordered, List.Perm.refl _, same.symm⟩
  · obtain ⟨shape, ranked, first⟩ := ordered
    have shape' : ({ map with optimizedTokenId := id } : CompactTokenMap TokenId Amount).Shape :=
      ⟨shape.unset, shape.storage, shape.reserved, shape.distinct⟩
    have ascending : Ascending (map.tokens.filter (·.1 ≠ map.optimizedTokenId)) := by
      refine (ranked.filter _).ascending_of_ne fun token mem => ?_
      simpa using (mem_filter.mp (mem_of_mem_head? mem)).2
    obtain ⟨moved, done, movedShape, movedRanked, movedOptimized, movedPerm, -⟩ :=
      reinsert_spec shape' map.optimizedTokenId (ascending.ranked id)
    rw [← movedOptimized] at movedRanked
    obtain ⟨after, done', afterShape, afterRanked, afterOptimized, afterPerm, afterFirst⟩ :=
      reinsert_spec movedShape id (movedRanked.filter fun token => token.1 ≠ id)
    refine ⟨after, by rw [done]; exact done', ⟨afterShape, ?_, ?_⟩, afterPerm.trans movedPerm,
      afterOptimized.trans movedOptimized⟩
    · rwa [afterOptimized]
    · rw [afterOptimized]
      exact afterFirst movedOptimized.symm

end Optimize

private theorem walk_map {index steps : ℕ} (inside : index < map.mapEntries.length)
    (enough : map.mapEntries.length - index < steps) :
    map.walk steps (.map index) = map.mapEntries.drop index := by
  induction steps generalizing index with
  | zero => exact absurd enough (Nat.not_lt_zero _)
  | succ steps ih =>
    have here : map.current (.map index) = some (map.mapEntries[index]) :=
      getElem?_eq_getElem inside
    rw [walk, here, drop_eq_getElem_cons inside]
    rw [advance]
    split_ifs with more
    · rw [ih (by omega) (by omega)]
    · rw [drop_of_length_le (by omega)]
      cases steps <;> rfl

private theorem Shape.hasMap_iff (shape : map.Shape) :
    (map.nextStorage.bind mapStorage).isSome = true ↔ map.mapEntries ≠ [] := by
  unfold mapEntries
  cases stored : map.nextStorage with
  | none => simp
  | some storage =>
    rw [bind_some, elim_some, SecondLevelStorage.mapEntries]
    cases found : storage.mapStorage with
    | none => simp
    | some entries => simpa using ((shape.storage storage stored).1.map entries found).2

private theorem Shape.walk_array (shape : map.Shape) {index steps : ℕ}
    (inside : index < map.array.length)
    (enough : map.array.length - index + map.mapEntries.length < steps) :
    map.walk steps (.array index) = map.array.drop index ++ map.mapEntries := by
  induction steps generalizing index with
  | zero => exact absurd enough (Nat.not_lt_zero _)
  | succ steps ih =>
    have here : map.current (.array index) = some (map.array[index]) := getElem?_eq_getElem inside
    rw [walk, here, drop_eq_getElem_cons inside]
    rw [advance]
    split_ifs with more hasMap
    · rw [ih (by omega) (by omega)]
      rfl
    · have nonempty := length_pos_iff.mpr (shape.hasMap_iff.mp hasMap)
      rw [walk_map nonempty (by omega), drop_zero, drop_of_length_le (by omega)]
      rfl
    · have none : map.mapEntries = [] := by
        by_contra nonempty
        exact hasMap (shape.hasMap_iff.mpr nonempty)
      rw [none, append_nil, drop_of_length_le (by omega)]
      cases steps <;> rfl

theorem Shape.iterate_eq (shape : map.Shape) : map.iterate = map.tokens := by
  have length := length_tokens map
  unfold iterate
  rw [← length, advance]
  by_cases empty : map.value.1 = 0
  · rw [tokens_of_isEmpty empty, if_pos (by simpa [isEmpty] using empty)]
    rfl
  · rw [if_neg (by simpa [isEmpty] using empty), walk]
    change map.value :: _ = _
    rw [tokens_of_value empty, cons_inj_right, length_cons, length_append, advance]
    cases stored : map.nextStorage with
    | none =>
      rw [array, mapEntries, stored]
      rfl
    | some storage =>
      have nonempty : 0 < map.array.length := by
        rw [array, stored]
        exact length_pos_iff.mpr (shape.storage storage stored).2
      exact shape.walk_array nonempty (by omega)

end CompactTokenMap

inductive TokenOperation (TokenId Amount : Type)
  | insert (pair : TokenId × Amount)
  | erase (id : TokenId)
  | optimize (id : TokenId)

/-- The ordered map that a token map stands for, and the id that it lists first. -/
structure OrderedTokens (TokenId Amount : Type) [LinearOrder TokenId] where
  map : OrderedMap TokenId Amount
  optimizedTokenId : TokenId

namespace OrderedTokens

variable [Zero TokenId] (ref : OrderedTokens TokenId Amount)

def create : OrderedTokens TokenId Amount := ⟨OrderedMap.empty, 0⟩

def Refuses (id : TokenId) : Prop := id = 0 ∨ (ref.map.lookup id).isSome = true

instance (id : TokenId) : Decidable (ref.Refuses id) := inferInstanceAs (Decidable (_ ∨ _))

def apply : TokenOperation TokenId Amount → OrderedTokens TokenId Amount
  | .insert pair =>
    if ref.Refuses pair.1 then ref
    else { ref with map := ref.map.insert pair.1 pair.2 }
  | .erase id => { ref with map := ref.map.erase id }
  | .optimize id => { ref with optimizedTokenId := id }

def run (ops : List (TokenOperation TokenId Amount)) : OrderedTokens TokenId Amount :=
  ops.foldl apply create

omit [Zero TokenId] in
/-- The optimized token, if it is there, and then the others with ascending ids. -/
def listing : List (TokenId × Amount) :=
  ((ref.map.lookup ref.optimizedTokenId).map
    fun amount => (ref.optimizedTokenId, amount)).toList ++
    (ref.map.erase ref.optimizedTokenId).entries

end OrderedTokens

namespace CompactTokenMap

variable [Zero TokenId] [Zero Amount] {map : CompactTokenMap TokenId Amount}
  {ref : OrderedTokens TokenId Amount}

/-- An operation; one that throws leaves the map as it is. -/
def apply (map : CompactTokenMap TokenId Amount) :
    TokenOperation TokenId Amount → CompactTokenMap TokenId Amount
  | .insert pair => (map.insert pair).toOption.getD map
  | .erase id => map.erase id
  | .optimize id => (map.optimize id).toOption.getD map

def run (ops : List (TokenOperation TokenId Amount)) : CompactTokenMap TokenId Amount :=
  ops.foldl apply create

/-- The tiers hold the entries of an ordered map in the order of its listing. -/
structure Represents (map : CompactTokenMap TokenId Amount)
    (ref : OrderedTokens TokenId Amount) : Prop where
  ordered : map.Ordered
  optimized : map.optimizedTokenId = ref.optimizedTokenId
  content : ∀ token, token ∈ map.tokens ↔ ref.map.lookup token.1 = some token.2

omit [Zero Amount] in
private theorem Represents.refuses_iff (rep : map.Represents ref) {id : TokenId} :
    ref.Refuses id ↔ id = 0 ∨ ∃ token ∈ map.tokens, token.1 = id := by
  refine or_congr_right ?_
  rw [isSome_iff_exists]
  constructor
  · rintro ⟨amount, found⟩
    exact ⟨(id, amount), (rep.content (id, amount)).mpr found, rfl⟩
  · rintro ⟨token, mem, rfl⟩
    exact ⟨token.2, (rep.content token).mp mem⟩

theorem create_represents :
    (create : CompactTokenMap TokenId Amount).Represents OrderedTokens.create where
  ordered := by
    have none : (create : CompactTokenMap TokenId Amount).tokens = [] := tokens_of_isEmpty rfl
    refine ⟨⟨fun _ => rfl, fun _ stored => absurd stored nofun, ?_, ?_⟩, ?_, ?_⟩ <;> rw [none]
    · exact fun _ mem => absurd mem not_mem_nil
    · exact nodup_nil
    · trivial
    · exact fun _ mem => absurd mem not_mem_nil
  optimized := rfl
  content token := by
    rw [tokens_of_isEmpty rfl]
    simp [OrderedTokens.create]

theorem Represents.apply (rep : map.Represents ref) (op : TokenOperation TokenId Amount) :
    (map.apply op).Represents (ref.apply op) := by
  obtain ⟨ordered, optimized, content⟩ := rep
  cases op with
  | insert pair =>
    obtain ⟨refused, reason, failed⟩ | ⟨valid, fresh, after, inserted, -⟩ :=
      insert_spec ordered.shape ordered.ranked pair
    · rw [CompactTokenMap.apply, failed, OrderedTokens.apply,
        if_pos ((Represents.refuses_iff ⟨ordered, optimized, content⟩).mpr refused)]
      exact ⟨ordered, optimized, content⟩
    · obtain ⟨ordered', perm, optimized'⟩ := ordered.insert inserted
      have accepted : ¬ref.Refuses pair.1 := by
        rw [Represents.refuses_iff ⟨ordered, optimized, content⟩]
        rintro (reserved | ⟨token, mem, same⟩)
        · exact valid reserved
        · exact fresh token mem same
      rw [CompactTokenMap.apply, inserted, OrderedTokens.apply, if_neg accepted]
      refine ⟨ordered', optimized'.trans optimized, fun token => ?_⟩
      change token ∈ after.tokens ↔ (ref.map.insert pair.1 pair.2).lookup token.1 = _
      rw [perm.mem_iff, mem_cons, content, OrderedMap.lookup_insert]
      split_ifs with here
      · grind
      · have other : token ≠ pair := fun same => here (congrArg Prod.fst same)
        simp [other]
  | erase id =>
    obtain ⟨ordered', tokens_eq, optimized'⟩ := ordered.erase id
    refine ⟨ordered', optimized'.trans optimized, fun token => ?_⟩
    change token ∈ (map.erase id).tokens ↔ (ref.map.erase id).lookup token.1 = _
    rw [tokens_eq, mem_filter, content, OrderedMap.lookup_erase]
    split_ifs with here <;> simp [here]
  | optimize id =>
    obtain ⟨after, done, ordered', perm, optimized'⟩ := ordered.optimize id
    rw [CompactTokenMap.apply, done]
    exact ⟨ordered', optimized', fun token => perm.mem_iff.trans (content token)⟩

private theorem Represents.foldl (rep : map.Represents ref)
    (ops : List (TokenOperation TokenId Amount)) : (ops.foldl CompactTokenMap.apply map).Represents
      (ops.foldl OrderedTokens.apply ref) := by
  induction ops generalizing map ref with
  | nil => exact rep
  | cons op ops ih => exact ih (rep.apply op)

omit [Zero Amount] in
theorem Represents.find_eq (rep : map.Represents ref) (id : TokenId) :
    map.find id = (ref.map.lookup id).map fun amount => (id, amount) := by
  cases known : ref.map.lookup id with
  | none =>
    rw [map_none, ← not_isSome_iff_eq_none, find_isSome_iff]
    rintro ⟨token, mem, rfl⟩
    have found := (rep.content token).mp mem
    rw [known] at found
    exact absurd found nofun
  | some amount =>
    have mem : (id, amount) ∈ map.tokens := (rep.content _).mpr known
    obtain ⟨token, found⟩ := isSome_iff_exists.mp (find_isSome_iff.mpr ⟨_, mem, rfl⟩)
    rw [found, map_some, some_inj]
    rw [CompactTokenMap.find_eq] at found
    have same : token.1 = id := by simpa using find?_some found
    have inside := (rep.content token).mp (mem_of_find?_eq_some found)
    rw [same, known] at inside
    exact Prod.ext same (some.inj inside).symm

omit [Zero Amount] in
theorem Represents.tokens_eq (rep : map.Represents ref) : map.tokens = ref.listing := by
  obtain ⟨⟨shape, ranked, first⟩, optimized, content⟩ := rep
  rw [optimized] at ranked first
  have others : ∀ token, token ∈ (ref.map.erase ref.optimizedTokenId).entries ↔
      token.1 ≠ ref.optimizedTokenId ∧ token ∈ map.tokens := by
    intro token
    rw [← OrderedMap.lookup_eq_some_iff, OrderedMap.lookup_erase, content]
    split_ifs with here <;> simp [here]
  have ascending : Ascending (ref.map.erase ref.optimizedTokenId).entries :=
    (ref.map.erase ref.optimizedTokenId).sorted
  unfold OrderedTokens.listing
  cases found : ref.map.lookup ref.optimizedTokenId with
  | none =>
    have unoptimized : ∀ token ∈ map.tokens, token.1 ≠ ref.optimizedTokenId := by
      intro token mem same
      have known := (content token).mp mem
      rw [same, found] at known
      exact absurd known nofun
    rw [map_none, toList_none, nil_append]
    refine OrderedMap.eq_of_sorted (ranked.ascending_of_ne fun token mem =>
      unoptimized token (mem_of_mem_head? mem)) ascending fun token => ?_
    rw [others, iff_and_self]
    exact unoptimized token
  | some amount =>
    rw [map_some, toList_some, singleton_append]
    have mem : (ref.optimizedTokenId, amount) ∈ map.tokens := (content _).mpr found
    obtain ⟨head, rest, split⟩ := exists_cons_of_ne_nil (ne_nil_of_mem mem)
    rw [split] at ranked first mem others ⊢
    have head_eq : head = (ref.optimizedTokenId, amount) := by
      obtain here | later := mem_cons.mp mem
      · exact here.symm
      · exact absurd rfl (first _ later)
    rw [head_eq, cons_inj_right]
    refine OrderedMap.eq_of_sorted ranked.1 ascending fun token => ?_
    rw [others, mem_cons]
    constructor
    · exact fun later => ⟨first token later, .inr later⟩
    · rintro ⟨other, here | later⟩
      · exact absurd (by rw [here, head_eq]) other
      · exact later

/-- A token map is an ordered map: the queries agree with the map of the inserted ids, a loop
lists the optimized id first and the others in ascending order, and only inserts of the reserved
id and of ids that are there throw. -/
theorem compactTokenMap_refines (ops : List (TokenOperation TokenId Amount)) :
    (∀ id, (run ops).find id =
      ((OrderedTokens.run ops).map.lookup id).map fun amount => (id, amount)) ∧
    (run ops).size = (OrderedTokens.run ops).map.entries.length ∧
    ((run ops).isEmpty = true ↔ (OrderedTokens.run ops).map.entries = []) ∧
    (run ops).iterate = (OrderedTokens.run ops).listing ∧
    (∀ pair, (∃ reason, (run ops).insert pair = .error reason) ↔
      (OrderedTokens.run ops).Refuses pair.1) ∧
    ∀ id, ∃ after, (run ops).optimize id = .ok after := by
  have rep : (run ops).Represents (OrderedTokens.run ops) := create_represents.foldl ops
  generalize run ops = map at rep ⊢
  generalize OrderedTokens.run ops = ref at rep ⊢
  have tokens_eq := rep.tokens_eq
  have content := rep.content
  have shape := rep.ordered.shape
  have entries_perm : map.tokens.Perm ref.map.entries := by
    refine (perm_ext_iff_of_nodup (List.Nodup.of_map _ shape.distinct)
      (OrderedMap.nodup_of_sorted ref.map.sorted)).mpr fun token => ?_
    rw [content, OrderedMap.lookup_eq_some_iff]
  refine ⟨fun id => ?_, ?_, ?_, ?_, fun pair => ?_, fun id => ?_⟩
  · exact rep.find_eq id
  · rw [← length_tokens, entries_perm.length_eq]
  · rw [← length_eq_zero_iff, ← entries_perm.length_eq, length_tokens, size]
    split_ifs with empty
    · simp [empty]
    · simp_all
  · rw [shape.iterate_eq, tokens_eq]
  · rw [rep.refuses_iff]
    obtain ⟨refused, failed⟩ | ⟨valid, fresh, after, inserted, -⟩ :=
      insert_spec shape rep.ordered.ranked pair
    · exact iff_of_true failed refused
    · refine iff_of_false ?_ ?_
      · rintro ⟨reason, failed⟩
        exact absurd (failed.symm.trans inserted) nofun
      · rintro (reserved | ⟨token, mem, same⟩)
        · exact valid reserved
        · exact fresh token mem same
  · obtain ⟨after, done, -⟩ := rep.ordered.optimize id
    exact ⟨after, done⟩

end CompactTokenMap

end BitxorCore.State
