/- GID: Deltaset/BaseSetDelta
   anchors: [src/bitxorcore/deltaset]
   digest: A delta of added, removed and copied elements over a base set, and its commit. -/

import BitxorCore.Library.FiniteMap

set_option autoImplicit false
set_option relaxedAutoImplicit false

namespace BitxorCore.Deltaset

open Library.FiniteMap

inductive MutabilityTag where
  | mutable
  | immutable
  deriving DecidableEq, Repr

inductive InsertResult where
  | unremoved
  | updated
  | redundant
  | inserted
  deriving DecidableEq, Repr

inductive RemoveResult where
  | none
  | unmodifiedAndRemoved
  | uninserted
  | redundant
  | removed
  deriving DecidableEq, Repr

/-- A delta together with the base elements it refers to.  Storage is a key with its value;
for plain sets the two coincide. -/
structure BaseSetDelta (K V : Type) [DecidableEq K] where
  originalElements : Map K V
  addedElements : Map K V
  removedElements : Map K V
  copiedElements : Map K V
  generationId : UInt32
  keyGenerationIdMap : Map K UInt32

structure DeltaElements (K V : Type) [DecidableEq K] where
  added : Map K V
  removed : Map K V
  copied : Map K V

/-- The in-memory container that a mutable find result points into. -/
inductive FoundIn where
  | copied
  | added
  deriving DecidableEq, Repr

variable {K V : Type} [DecidableEq K]

namespace BaseSetDelta

def create (originalElements : Map K V) : BaseSetDelta K V := ⟨originalElements, ∅, ∅, ∅, 1, ∅⟩

variable (d : BaseSetDelta K V)

/-- `size_t` arithmetic: the subtraction may wrap before the addition. -/
def size : UInt64 :=
  UInt64.ofNat (count d.originalElements) -
    UInt64.ofNat (count d.removedElements) +
    UInt64.ofNat (count d.addedElements)

def markKey (key : K) : BaseSetDelta K V :=
  { d with keyGenerationIdMap := d.keyGenerationIdMap.insert key d.generationId }

def clearKey (key : K) : BaseSetDelta K V :=
  { d with keyGenerationIdMap := d.keyGenerationIdMap.erase key }

def keyGenerationId (key : K) : UInt32 :=
  (d.keyGenerationIdMap.lookup key).getD 0

def incrementGenerationId : BaseSetDelta K V :=
  { d with generationId := d.generationId + 1 }

variable (tag : MutabilityTag)

/-- The const overload of `find`. -/
def findConst (d : BaseSetDelta K V) (key : K) : Option V :=
  if key ∈ d.removedElements then none
  else
    let originalIter := match tag with
      | .mutable => (d.copiedElements.lookup key).or (d.originalElements.lookup key)
      | .immutable => d.originalElements.lookup key
    originalIter.or (d.addedElements.lookup key)

/-- The non-const overload of `find` for mutable elements: an original element is copied before
it is handed out, and a found key is marked. -/
def findMutable (key : K) : Option (FoundIn × V) × BaseSetDelta K V :=
  if key ∈ d.removedElements then (none, d)
  else match d.copiedElements.lookup key with
    | some v => (some (.copied, v), d.markKey key)
    | none => match d.originalElements.lookup key with
      | some v =>
          let d := { d with copiedElements := insertNew d.copiedElements key v }
          (some (.copied, v), d.markKey key)
      | none => match d.addedElements.lookup key with
        | some v => (some (.added, v), d.markKey key)
        | none => (none, d)

def write (key : K) (v : V) : FoundIn → BaseSetDelta K V
  | .copied => { d with copiedElements := d.copiedElements.insert key v }
  | .added => { d with addedElements := d.addedElements.insert key v }

def findAndModify (key : K) (modify : V → V) : Option V × BaseSetDelta K V :=
  match d.findMutable key with
  | (some (place, v), d) => (some v, d.write key (modify v) place)
  | (none, d) => (none, d)

def contains (key : K) : Bool :=
  !decide (key ∈ d.removedElements) &&
    (decide (key ∈ d.addedElements) || decide (key ∈ d.originalElements))

/-- `insert` of a mutable element.  The containers keep an element that is already there, so
it is erased first. -/
def insertMutable (key : K) (elem : V) : InsertResult × BaseSetDelta K V :=
  let d := d.markKey key
  let intoAdded (d : BaseSetDelta K V) : BaseSetDelta K V :=
    { d with addedElements := insertNew (d.addedElements.erase key) key elem }
  let intoCopied (d : BaseSetDelta K V) : BaseSetDelta K V :=
    { d with copiedElements := insertNew (d.copiedElements.erase key) key elem }
  if key ∈ d.removedElements then
    let d := { d with removedElements := d.removedElements.erase key }
    (.unremoved, if key ∈ d.addedElements then intoAdded d else intoCopied d)
  else if key ∈ d.originalElements then
    (.updated, intoCopied d)
  else
    (if key ∈ d.addedElements then .updated else .inserted, intoAdded d)

/-- `insert` of an immutable element, which preserves the first seen element. -/
def insertImmutable (key : K) (elem : V) : InsertResult × BaseSetDelta K V :=
  if key ∈ d.removedElements then
    let d := if key ∈ d.addedElements then d.markKey key else d.clearKey key
    (.unremoved, { d with removedElements := d.removedElements.erase key })
  else if key ∈ d.originalElements ∨ key ∈ d.addedElements then
    (.redundant, d)
  else
    let d := d.markKey key
    (.inserted, { d with addedElements := insertNew d.addedElements key elem })

/-- `insert` stores an element under the key it converts to. -/
def insert (toKey : V → K) (d : BaseSetDelta K V) (elem : V) :
    InsertResult × BaseSetDelta K V :=
  match tag with
  | .mutable => d.insertMutable (toKey elem) elem
  | .immutable => d.insertImmutable (toKey elem) elem

/-- The shared part of `remove`.  An added element stays in Added, so that its removal can be
processed at a later generation. -/
def removeImmutable (key : K) : RemoveResult × BaseSetDelta K V :=
  match d.addedElements.lookup key with
  | some v =>
      let d := d.markKey key
      (.uninserted, { d with removedElements := insertNew d.removedElements key v })
  | none => match d.originalElements.lookup key with
    | some v =>
        let d := d.markKey key
        (.removed, { d with removedElements := insertNew d.removedElements key v })
    | none => (.none, d)

/-- `remove` of a mutable element: a copied element moves to Removed. -/
def removeMutable (key : K) : RemoveResult × BaseSetDelta K V :=
  match d.copiedElements.lookup key with
  | some v =>
      let d := d.markKey key
      (.unmodifiedAndRemoved, { d with
        removedElements := insertNew d.removedElements key v
        copiedElements := d.copiedElements.erase key })
  | none => d.removeImmutable key

def remove (d : BaseSetDelta K V) (key : K) :
    RemoveResult × BaseSetDelta K V :=
  if key ∈ d.removedElements then (.redundant, d)
  else match tag with
    | .mutable => d.removeMutable key
    | .immutable => d.removeImmutable key

def deltas : DeltaElements K V :=
  ⟨d.addedElements, d.removedElements, d.copiedElements⟩

def reset : BaseSetDelta K V := create d.originalElements

end BaseSetDelta

def updateCopied (elements : Map K V) : List (K × V) → Except String (Map K V)
  | [] => .ok elements
  | elem :: rest =>
      if elem.1 ∈ elements then
        updateCopied (insertNew (elements.erase elem.1) elem.1 elem.2) rest
      else .error "element not found, cannot update"

/-- Applies all changes in deltas to the elements, visiting containers in their own order. -/
def updateSet (e : Enumeration K V) (elements : Map K V) (deltas : DeltaElements K V) :
    Except String (Map K V) := do
  let elements := (e.order deltas.added).foldl (fun acc p => insertNew acc p.1 p.2) elements
  let elements ← updateCopied elements (e.order deltas.copied)
  return (e.order deltas.removed).foldl (fun acc p => acc.erase p.1) elements

/-- Commits an attached delta: the base elements are updated and the delta is reset. -/
def BaseSetDelta.commit (e : Enumeration K V) (d : BaseSetDelta K V) :
    Except String (BaseSetDelta K V) := do
  let elements ← updateSet e d.originalElements d.deltas
  return { d with originalElements := elements }.reset

inductive Operation (K V : Type) where
  | insert (elem : V)
  | remove (key : K)
  | find (key : K) (modify : V → V)
  | findConst (key : K)

/-- The delta after a call.  Found immutable elements cannot be modified. -/
def applyOperation (tag : MutabilityTag) (toKey : V → K) (d : BaseSetDelta K V) :
    Operation K V → BaseSetDelta K V
  | .insert elem => (d.insert tag toKey elem).2
  | .remove key => (d.remove tag key).2
  | .find key modify => match tag with
      | .mutable => (d.findAndModify key modify).2
      | .immutable => d
  | .findConst _ => d

structure Cell (V : Type) where
  original : Option V
  added : Option V
  removed : Option V
  copied : Option V
  generation : Option UInt32

namespace Cell

variable {V : Type}

def content (c : Cell V) : Option V :=
  if c.removed.isSome then none else (c.copied.or c.original).or c.added

def firstSeen (c : Cell V) : Option V := c.original.or c.added

@[mk_iff]
structure Consistent (c : Cell V) : Prop where
  copied_original : c.copied.isSome = true → c.original.isSome = true
  copied_kept : c.copied.isSome = true → c.removed = none
  added_new : c.added.isSome = true → c.original = none
  removed_known : c.removed.isSome = true → c.original.isSome = true ∨ c.added.isSome = true

def Untouched (c : Cell V) : Prop := c.added = none ∧ c.removed = none ∧ c.copied = none

/-- A write into the container of elements that are not original, or of copied ones. -/
def store (c : Cell V) (v : V) : Cell V :=
  if c.original.isSome then { c with copied := some v } else { c with added := some v }

variable (generationId : UInt32)

def insertMutable (v : V) (c : Cell V) : Cell V :=
  let c := { c with generation := some generationId }
  if c.removed.isSome then
    let c := { c with removed := none }
    if c.added.isSome then { c with added := some v } else { c with copied := some v }
  else c.store v

def insertImmutable (v : V) (c : Cell V) : Cell V :=
  if c.removed.isSome then
    { c with
      removed := none
      generation := if c.added.isSome then some generationId else none }
  else if c.original.isSome ∨ c.added.isSome then c
  else { c with added := some v, generation := some generationId }

def removeImmutable (c : Cell V) : Cell V :=
  match c.added.or c.original with
  | some v => { c with removed := some v, generation := some generationId }
  | none => c

def remove (tag : MutabilityTag) (generationId : UInt32) (c : Cell V) : Cell V :=
  if c.removed.isSome then c
  else match tag with
    | .immutable => c.removeImmutable generationId
    | .mutable => match c.copied with
      | some v => { c with removed := some v, copied := none, generation := some generationId }
      | none => c.removeImmutable generationId

def findAndModify (modify : V → V) (c : Cell V) : Cell V :=
  match c.content with
  | none => c
  | some v => { c with generation := some generationId }.store (modify v)

variable {c : Cell V}

section
variable (consistent : c.Consistent)
include consistent

theorem Consistent.insertMutable (g : UInt32) (v : V) :
    (c.insertMutable g v).Consistent ∧ (c.insertMutable g v).content = some v := by
  rw [consistent_iff] at consistent
  obtain ⟨_ | o, _ | a, _ | r, _ | x, g'⟩ := c <;>
    simp_all [Cell.insertMutable, store, content, consistent_iff]

theorem Consistent.insertImmutable (plain : c.copied = none) (g : UInt32) (v : V) :
    (c.insertImmutable g v).Consistent ∧ (c.insertImmutable g v).copied = none ∧
      (c.insertImmutable g v).content = some (c.firstSeen.getD v) ∧
      (c.insertImmutable g v).firstSeen = some (c.firstSeen.getD v) := by
  rw [consistent_iff] at consistent
  obtain ⟨_ | o, _ | a, _ | r, _ | x, g'⟩ := c <;>
    simp_all [Cell.insertImmutable, content, firstSeen, consistent_iff]

theorem Consistent.remove (tag : MutabilityTag)
    (plain : tag = .immutable → c.copied = none) (g : UInt32) :
    (c.remove tag g).Consistent ∧ (c.remove tag g).content = none ∧
      (c.remove tag g).firstSeen = c.firstSeen ∧
      (c.copied = none → (c.remove tag g).copied = none) := by
  rw [consistent_iff] at consistent
  obtain ⟨_ | o, _ | a, _ | r, _ | x, g'⟩ := c <;> cases tag <;>
    simp_all [Cell.remove, Cell.removeImmutable, content, firstSeen, consistent_iff]

theorem Consistent.findAndModify (g : UInt32) (modify : V → V) :
    (c.findAndModify g modify).Consistent ∧
      (c.findAndModify g modify).content = c.content.map modify := by
  rw [consistent_iff] at consistent
  obtain ⟨_ | o, _ | a, _ | r, _ | x, g'⟩ := c <;>
    simp_all [Cell.findAndModify, store, content, consistent_iff]

theorem Consistent.content_of_pending (pending : ¬ c.Untouched) : c.content = match c.removed with
      | some _ => none
      | none => match c.copied with
        | some v => some v
        | none => c.added := by
  rw [consistent_iff] at consistent
  obtain ⟨_ | o, _ | a, _ | r, _ | x, g'⟩ := c <;> simp_all [content, Untouched]

end

/-- A cell that a call changed is marked with the current generation and pending. -/
def MarkedFrom (g : UInt32) (before after : Cell V) : Prop :=
  after = before ∨ after.generation = some g ∧ ¬ after.Untouched

private theorem markedFrom_insertMutable (c : Cell V) (g : UInt32) (v : V) :
    MarkedFrom g c (c.insertMutable g v) := by
  refine Or.inr ?_
  obtain ⟨_ | o, _ | a, _ | r, _ | x, g'⟩ := c <;> simp [Cell.insertMutable, store, Untouched]

private theorem markedFrom_remove (c : Cell V) (g : UInt32) :
    MarkedFrom g c (c.remove .mutable g) := by
  obtain ⟨_ | o, _ | a, _ | r, _ | x, g'⟩ := c <;>
    simp [MarkedFrom, Cell.remove, Cell.removeImmutable, Untouched]

private theorem markedFrom_findAndModify (c : Cell V) (g : UInt32) (modify : V → V) :
    MarkedFrom g c (c.findAndModify g modify) := by
  obtain ⟨_ | o, _ | a, _ | r, _ | x, g'⟩ := c <;>
    simp [MarkedFrom, Cell.findAndModify, content, store, Untouched]

end Cell

variable {K V : Type} [DecidableEq K]

def BaseSetDelta.cell (d : BaseSetDelta K V) (k : K) : Cell V where
  original := d.originalElements.lookup k
  added := d.addedElements.lookup k
  removed := d.removedElements.lookup k
  copied := d.copiedElements.lookup k
  generation := d.keyGenerationIdMap.lookup k

namespace BaseSetDelta

@[simp] theorem cell_create (m : Map K V) (k : K) :
    (create m).cell k = ⟨m.lookup k, none, none, none, none⟩ := rfl

variable (d : BaseSetDelta K V)

theorem cell_insertMutable (key k : K) (v : V) : (d.insertMutable key v).2.cell k =
      if k = key then (d.cell key).insertMutable d.generationId v else d.cell k := by
  rcases eq_or_ne k key with rfl | other
  · by_cases removed : k ∈ d.removedElements <;> by_cases added : k ∈ d.addedElements <;>
      by_cases original : k ∈ d.originalElements <;>
      simp [insertMutable, Cell.insertMutable, Cell.store, cell, markKey, isSome_lookup, removed,
        added, original, lookup_replaced]
  · by_cases removed : key ∈ d.removedElements <;> by_cases added : key ∈ d.addedElements <;>
      by_cases original : key ∈ d.originalElements <;>
      simp [insertMutable, cell, markKey, removed, added, original, other, lookup_replaced]

theorem cell_insertImmutable (key k : K) (v : V) : (d.insertImmutable key v).2.cell k =
      if k = key then (d.cell key).insertImmutable d.generationId v else d.cell k := by
  rcases eq_or_ne k key with rfl | other
  · by_cases removed : k ∈ d.removedElements <;> by_cases added : k ∈ d.addedElements <;>
      by_cases original : k ∈ d.originalElements <;>
      simp [insertImmutable, Cell.insertImmutable, cell, markKey, clearKey, isSome_lookup, removed,
        added, original, lookup_insertNew_absent]
  · by_cases removed : key ∈ d.removedElements <;> by_cases added : key ∈ d.addedElements <;>
      by_cases original : key ∈ d.originalElements <;>
      simp [insertImmutable, cell, markKey, clearKey, removed, added, original, other,
        lookup_insertNew_absent]

private theorem cell_removeImmutable {key : K} (kept : key ∉ d.removedElements) (k : K) :
    (d.removeImmutable key).2.cell k =
      if k = key then (d.cell key).removeImmutable d.generationId else d.cell k := by
  rcases eq_or_ne k key with rfl | other
  · cases added : d.addedElements.lookup k <;> cases original : d.originalElements.lookup k <;>
      simp [removeImmutable, Cell.removeImmutable, cell, markKey, added, original,
        lookup_insertNew_absent kept]
  · cases added : d.addedElements.lookup key <;> cases original : d.originalElements.lookup key <;>
      simp [removeImmutable, cell, markKey, other, added, original, lookup_insertNew_absent kept]

variable (tag : MutabilityTag)

theorem cell_remove (d : BaseSetDelta K V) (key k : K) :
    (d.remove tag key).2.cell k =
      if k = key then (d.cell key).remove tag d.generationId else d.cell k := by
  by_cases removed : key ∈ d.removedElements
  · rcases eq_or_ne k key with rfl | other
    · simp [remove, Cell.remove, cell, isSome_lookup, removed]
    · simp [remove, removed, other]
  · have shared := cell_removeImmutable d removed k
    rcases eq_or_ne k key with rfl | other
    · have kept : (d.cell k).removed = none := Finmap.lookup_eq_none.mpr removed
      cases tag with
      | immutable => simp [remove, removed, shared, Cell.remove, kept]
      | mutable =>
        cases copied : d.copiedElements.lookup k with
        | none =>
          have same : (d.cell k).copied = none := copied
          simp [remove, removed, removeMutable, copied, shared, Cell.remove, kept, same]
        | some v =>
          simp [remove, removeMutable, Cell.remove, cell, markKey, isSome_lookup, removed, copied,
            lookup_insertNew_absent removed]
    · cases tag with
      | immutable => simp [remove, shared, removed, other]
      | mutable =>
        cases copied : d.copiedElements.lookup key with
        | none => simp [remove, removeMutable, shared, removed, copied, other]
        | some v =>
          simp [remove, removeMutable, cell, markKey, other, removed, copied,
            lookup_insertNew_absent removed]

theorem findAndModify_fst (k : K) (modify : V → V) :
    (d.findAndModify k modify).1 = (d.cell k).content := by
  by_cases removed : k ∈ d.removedElements
  · simp [findAndModify, findMutable, Cell.content, cell, isSome_lookup, removed]
  · cases copied : d.copiedElements.lookup k <;>
      cases original : d.originalElements.lookup k <;>
      cases added : d.addedElements.lookup k <;>
      simp [findAndModify, findMutable, Cell.content, cell, isSome_lookup, removed, copied,
        original, added]

theorem cell_findAndModify (key k : K) (modify : V → V) (consistent : (d.cell key).Consistent) :
    (d.findAndModify key modify).2.cell k =
      if k = key then (d.cell key).findAndModify d.generationId modify else d.cell k := by
  by_cases removed : key ∈ d.removedElements
  · rcases eq_or_ne k key with rfl | other
    · simp [findAndModify, findMutable, Cell.findAndModify, Cell.content, cell, isSome_lookup,
        removed]
    · simp [findAndModify, findMutable, removed, other]
  · rcases eq_or_ne k key with rfl | other
    · have source := consistent.copied_original
      cases copied : d.copiedElements.lookup k <;>
        cases original : d.originalElements.lookup k <;>
        cases added : d.addedElements.lookup k <;>
        simp_all [findAndModify, findMutable, Cell.findAndModify, Cell.content, Cell.store, cell,
          isSome_lookup, write, markKey]
    · cases copied : d.copiedElements.lookup key <;>
        cases original : d.originalElements.lookup key <;>
        cases added : d.addedElements.lookup key <;>
        simp [findAndModify, findMutable, cell, other, removed, copied, original, added, write,
          markKey, lookup_insertNew]

@[simp] private theorem generationId_insertMutable (k : K) (v : V) :
    (d.insertMutable k v).2.generationId = d.generationId := by
  unfold insertMutable
  dsimp only
  split_ifs <;> rfl

@[simp] private theorem generationId_remove (d : BaseSetDelta K V) (k : K) :
    (d.remove tag k).2.generationId = d.generationId := by
  have shared : (d.removeImmutable k).2.generationId = d.generationId := by
    unfold removeImmutable
    split
    · rfl
    · split <;> rfl
  unfold remove removeMutable
  split
  · rfl
  · cases tag with
    | immutable => exact shared
    | mutable =>
      dsimp only
      split
      · rfl
      · exact shared

@[simp] private theorem generationId_findAndModify (k : K) (modify : V → V) :
    (d.findAndModify k modify).2.generationId = d.generationId := by
  by_cases removed : k ∈ d.removedElements
  · simp [findAndModify, findMutable, removed]
  · cases copied : d.copiedElements.lookup k <;>
      cases original : d.originalElements.lookup k <;>
      cases added : d.addedElements.lookup k <;>
      simp [findAndModify, findMutable, removed, copied, original, added, write, markKey]

end BaseSetDelta

theorem applyOperation_marks (toKey : V → K) (d : BaseSetDelta K V)
    (consistent : ∀ k, (d.cell k).Consistent) (op : Operation K V) :
    (applyOperation .mutable toKey d op).generationId = d.generationId ∧
      ∀ k, Cell.MarkedFrom d.generationId (d.cell k)
        ((applyOperation .mutable toKey d op).cell k) := by
  cases op with
  | insert elem =>
    refine ⟨d.generationId_insertMutable _ _, fun k => ?_⟩
    rw [applyOperation, BaseSetDelta.insert, d.cell_insertMutable]
    split
    · rename_i here
      exact here ▸ Cell.markedFrom_insertMutable _ _ _
    · exact Or.inl rfl
  | remove key =>
    refine ⟨d.generationId_remove _ _, fun k => ?_⟩
    rw [applyOperation, d.cell_remove]
    split
    · rename_i here
      exact here ▸ Cell.markedFrom_remove _ _
    · exact Or.inl rfl
  | find key modify =>
    refine ⟨d.generationId_findAndModify _ _, fun k => ?_⟩
    rw [applyOperation, d.cell_findAndModify key k modify (consistent key)]
    split
    · rename_i here
      exact here ▸ Cell.markedFrom_findAndModify _ _ _
    · exact Or.inl rfl
  | findConst key => exact ⟨rfl, fun k => Or.inl rfl⟩

end BitxorCore.Deltaset
