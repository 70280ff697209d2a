/- GID: Deltaset/BaseSetDeltaRefinement
   anchors: [src/bitxorcore/deltaset]
   digest: A delta over a base set refines a plain map, before and after its commit. -/

import BitxorCore.Deltaset.BaseSetDelta

set_option autoImplicit false
set_option relaxedAutoImplicit false

namespace BitxorCore.Deltaset
open BaseSetDelta
open Finmap (lookup_isSome mem_keys)

open Library.FiniteMap

variable {K V : Type} [DecidableEq K]

def applyToMap (toKey : V → K) (m : Map K V) : Operation K V → Map K V
  | .insert elem => m.insert (toKey elem) elem
  | .remove key => m.erase key
  | .find key modify => match m.lookup key with
      | some v => m.insert key (modify v)
      | none => m
  | .findConst _ => m

/-- A plain map that remembers the first element seen under each key. -/
structure FirstSeenMap (K V : Type) [DecidableEq K] where
  current : Map K V
  seen : Map K V

/-- The plain map after a call on immutable elements: inserting a key already seen brings back
the first seen element. -/
def FirstSeenMap.apply (toKey : V → K) (m : FirstSeenMap K V) : Operation K V → FirstSeenMap K V
  | .insert elem =>
      let first := (m.seen.lookup (toKey elem)).getD elem
      ⟨m.current.insert (toKey elem) first, m.seen.insert (toKey elem) first⟩
  | .remove key => ⟨m.current.erase key, m.seen⟩
  | .find _ _ => m
  | .findConst _ => m

def plainMap (tag : MutabilityTag) (toKey : V → K) (base : Map K V) (ops : List (Operation K V)) :
    Map K V :=
  match tag with
  | .mutable => ops.foldl (applyToMap toKey) base
  | .immutable => (ops.foldl (FirstSeenMap.apply toKey) ⟨base, base⟩).current

def Refines (d : BaseSetDelta K V) (m : Map K V) : Prop :=
  ∀ k, (d.cell k).Consistent ∧ (d.cell k).content = m.lookup k

/-- A delta of immutable elements stands for a map that remembers first seen elements. -/
def RefinesFirstSeen (d : BaseSetDelta K V) (m : FirstSeenMap K V) : Prop :=
  Refines d m.current ∧ ∀ k, (d.cell k).copied = none ∧ (d.cell k).firstSeen = m.seen.lookup k

theorem refines_create (base : Map K V) : Refines (create base) base := by
  intro k
  refine ⟨by simp [Cell.consistent_iff], by simp [Cell.content]⟩

variable {d : BaseSetDelta K V} {m : Map K V}

private theorem refines_of_update {d' : BaseSetDelta K V} {m' : Map K V} (refines : Refines d m)
    {key : K} {c : Cell V} (cell : ∀ k, d'.cell k = if k = key then c else d.cell k)
    (consistent : c.Consistent)
    (map : ∀ k, m'.lookup k = if k = key then c.content else m.lookup k) : Refines d' m' := by
  intro k
  rw [cell, map]
  split
  · exact ⟨consistent, rfl⟩
  · exact refines k

private theorem lookup_modify (m : Map K V) (key k : K) (modify : V → V) : (match m.lookup key with
      | some v => m.insert key (modify v)
      | none => m).lookup k = if k = key then (m.lookup key).map modify else m.lookup k := by
  cases found : m.lookup key with
  | some v => rw [lookup_insert_apply, Option.map_some]
  | none =>
    rcases eq_or_ne k key with rfl | other
    · simp [found]
    · simp [other]

theorem Refines.applyOperation (toKey : V → K) (refines : Refines d m) (op : Operation K V) :
    Refines (Deltaset.applyOperation .mutable toKey d op) (applyToMap toKey m op) := by
  cases op with
  | insert elem =>
    obtain ⟨consistent, content⟩ := (refines (toKey elem)).1.insertMutable d.generationId elem
    refine refines_of_update refines
      (fun k => d.cell_insertMutable (toKey elem) k elem) consistent fun k => ?_
    rw [content]
    exact lookup_insert_apply m _ k elem
  | remove key =>
    obtain ⟨consistent, content, -⟩ := (refines key).1.remove .mutable nofun d.generationId
    refine refines_of_update refines (fun k => d.cell_remove .mutable key k) consistent fun k => ?_
    rw [content]
    exact lookup_erase_apply m key k
  | find key modify =>
    obtain ⟨consistent, content⟩ := (refines key).1.findAndModify d.generationId modify
    refine refines_of_update refines
      (fun k => d.cell_findAndModify key k modify (refines key).1) consistent fun k => ?_
    rw [content, (refines key).2]
    exact lookup_modify m key k modify
  | findConst key => exact refines

private theorem RefinesFirstSeen.applyOperation (toKey : V → K)
    {m : FirstSeenMap K V} (refines : RefinesFirstSeen d m) (op : Operation K V) :
    RefinesFirstSeen (Deltaset.applyOperation .immutable toKey d op) (m.apply toKey op) := by
  obtain ⟨current, x⟩ := refines
  cases op with
  | insert elem =>
    obtain ⟨consistent, plain, content, seen⟩ := (current (toKey elem)).1.insertImmutable
      (x (toKey elem)).1 d.generationId elem
    have cell := fun k => d.cell_insertImmutable (toKey elem) k elem
    rw [(x (toKey elem)).2] at content seen
    constructor
    · refine refines_of_update current cell consistent fun k => ?_
      rw [content]
      exact lookup_insert_apply m.current _ k _
    · intro k
      simp only [FirstSeenMap.apply, Deltaset.applyOperation, BaseSetDelta.insert, cell,
        lookup_insert_apply]
      split
      · exact ⟨plain, seen⟩
      · exact x k
  | remove key =>
    obtain ⟨consistent, content, seen, plain⟩ :=
      (current key).1.remove .immutable (fun _ => (x key).1) d.generationId
    have cell := fun k => d.cell_remove .immutable key k
    constructor
    · refine refines_of_update current cell consistent fun k => ?_
      rw [content]
      exact lookup_erase_apply m.current key k
    · intro k
      simp only [FirstSeenMap.apply, Deltaset.applyOperation, cell]
      split
      · rename_i here
        subst here
        exact ⟨plain (x k).1, seen.trans (x k).2⟩
      · exact x k
  | find key modify => exact ⟨current, x⟩
  | findConst key => exact ⟨current, x⟩

section
variable (toKey : V → K) (base : Map K V) (ops : List (Operation K V))

private theorem refines_run_mutable :
    Refines (ops.foldl (applyOperation .mutable toKey) (create base))
      (ops.foldl (applyToMap toKey) base) := by
  have run : ∀ d m, Refines d m →
      Refines (ops.foldl (applyOperation .mutable toKey) d) (ops.foldl (applyToMap toKey) m) := by
    induction ops with
    | nil => exact fun _ _ refines => refines
    | cons op ops ih => exact fun d m refines => ih _ _ (refines.applyOperation toKey op)
  exact run _ _ (refines_create base)

private theorem refines_run_immutable :
    RefinesFirstSeen (ops.foldl (applyOperation .immutable toKey) (create base))
      (ops.foldl (FirstSeenMap.apply toKey) ⟨base, base⟩) := by
  have run : ∀ d m, RefinesFirstSeen d m → RefinesFirstSeen
      (ops.foldl (applyOperation .immutable toKey) d) (ops.foldl (FirstSeenMap.apply toKey) m) := by
    induction ops with
    | nil => exact fun _ _ refines => refines
    | cons op ops ih => exact fun d m refines => ih _ _ (refines.applyOperation toKey op)
  exact run _ ⟨base, base⟩ ⟨refines_create base, fun k => by simp [Cell.firstSeen]⟩

private theorem refines_run (tag : MutabilityTag) :
    Refines (ops.foldl (applyOperation tag toKey) (create base)) (plainMap tag toKey base ops) := by
  cases tag with
  | mutable => exact refines_run_mutable toKey base ops
  | immutable => exact (refines_run_immutable toKey base ops).1

end

/-! What the delta shows. -/

section
variable (refines : Refines d m)
include refines

private theorem Refines.contains_eq (k : K) : d.contains k = decide (k ∈ m) := by
  obtain ⟨consistent, content⟩ := refines k
  have source := consistent.copied_original
  rw [← isSome_lookup, ← content, contains]
  simp only [Cell.content, BaseSetDelta.cell, isSome_lookup, decide_eq_true_eq] at source ⊢
  by_cases removed : k ∈ d.removedElements
  · simp [removed]
  · simp only [removed, decide_false, Bool.not_false, Bool.true_and, ↓reduceIte, Option.isSome_or,
      isSome_lookup]
    grind

theorem Refines.findConst_eq
    (tag : MutabilityTag) (plain : tag = .immutable → ∀ k, (d.cell k).copied = none) (k : K) :
    d.findConst tag k = m.lookup k := by
  rw [← (refines k).2, Cell.content]
  simp only [findConst, BaseSetDelta.cell, lookup_isSome]
  split
  · rfl
  · cases tag with
    | mutable => rfl
    | immutable =>
      have none : d.copiedElements.lookup k = none := plain rfl k
      rw [none, Option.none_or]

private theorem Refines.keys_eq :
    m.keys = (d.originalElements.keys ∪ d.addedElements.keys) \ d.removedElements.keys := by
  ext k
  have shown := refines.contains_eq k
  rw [contains, Bool.eq_iff_iff] at shown
  simp only [Bool.and_eq_true, Bool.not_eq_true', decide_eq_false_iff_not, Bool.or_eq_true,
    decide_eq_true_eq] at shown
  simp only [Finset.mem_sdiff, Finset.mem_union, mem_keys, ← shown]
  tauto

private theorem Refines.size_eq : d.size = UInt64.ofNat (count m) := by
  have disjoint : Disjoint d.originalElements.keys d.addedElements.keys := by
    rw [Finset.disjoint_right]
    intro k added
    have new := (refines k).1.added_new (lookup_isSome.mpr (mem_keys.mp added))
    exact fun original => Finmap.lookup_eq_none.mp new (mem_keys.mp original)
  have known : d.removedElements.keys ⊆ d.originalElements.keys ∪ d.addedElements.keys := by
    intro k removed
    have source := (refines k).1.removed_known
      (lookup_isSome.mpr (mem_keys.mp removed))
    simpa only [Finset.mem_union, mem_keys, BaseSetDelta.cell, lookup_isSome]
      using source
  have total : count m + count d.removedElements =
      count d.originalElements + count d.addedElements := by
    rw [count, refines.keys_eq, count, Finset.card_sdiff_add_card_eq_card known,
      Finset.card_union_of_disjoint disjoint, count, count]
  rw [size]
  have wrapped := congrArg UInt64.ofNat total
  rw [UInt64.ofNat_add, UInt64.ofNat_add] at wrapped
  generalize UInt64.ofNat (count m) = shown at wrapped ⊢
  generalize UInt64.ofNat (count d.removedElements) = removed at wrapped ⊢
  generalize UInt64.ofNat (count d.originalElements) = original at wrapped ⊢
  generalize UInt64.ofNat (count d.addedElements) = added at wrapped ⊢
  grind

end

private theorem updateCopied_ok {l : List (K × V)} {elements : Map K V}
    (distinct : (l.map Prod.fst).Nodup) (present : ∀ k ∈ l.map Prod.fst, k ∈ elements) :
    ∃ updated, updateCopied elements l = .ok updated ∧
      ∀ k, updated.lookup k = (l.lookup k).or (elements.lookup k) := by
  induction l generalizing elements with
  | nil => exact ⟨elements, rfl, fun k => by simp⟩
  | cons p l ih =>
    obtain ⟨key, v⟩ := p
    obtain ⟨fresh, rest⟩ := List.nodup_cons.mp distinct
    have here : key ∈ elements := present key (by simp)
    have kept : ∀ k ∈ l.map Prod.fst, k ∈ insertNew (elements.erase key) key v := by
      intro k mem
      rw [← lookup_isSome, lookup_replaced]
      split
      · rfl
      · exact lookup_isSome.mpr (present k (by simp [mem]))
    obtain ⟨updated, run, lookups⟩ := ih rest kept
    refine ⟨updated, by simp [updateCopied, here, run], fun k => ?_⟩
    rw [lookups, lookup_replaced]
    rcases eq_or_ne k key with rfl | other
    · simp [lookup_eq_none_of_fresh fresh]
    · simp [List.lookup_cons, beq_false_of_ne other, other]

private theorem Refines.updateSet_eq (e : Enumeration K V)
    (refines : Refines d m) : updateSet e d.originalElements d.deltas = .ok m := by
  have joined : ∀ k, ((e.order d.addedElements).foldl (fun acc p => insertNew acc p.1 p.2)
      d.originalElements).lookup k = (d.originalElements.lookup k).or (d.addedElements.lookup k) := by
    intro k
    rw [lookup_foldl_insertNew, e.lookup_order]
  have present : ∀ k ∈ (e.order d.copiedElements).map Prod.fst,
      k ∈ (e.order d.addedElements).foldl (fun acc p => insertNew acc p.1 p.2)
        d.originalElements := by
    intro k copied
    rw [e.key_mem_iff, ← lookup_isSome] at copied
    have original : (d.originalElements.lookup k).isSome = true :=
      (refines k).1.copied_original copied
    rw [← lookup_isSome, joined, Option.isSome_or, original, Bool.true_or]
  obtain ⟨updated, run, lookups⟩ := updateCopied_ok (e.distinct d.copiedElements) present
  have res : (e.order d.removedElements).foldl (fun acc p => acc.erase p.1) updated = m := by
    apply Finmap.ext_lookup
    intro k
    rw [lookup_foldl_erase Prod.fst, lookups, e.lookup_order, joined, ← (refines k).2, Cell.content,
      ← Option.or_assoc]
    simp only [e.key_mem_iff, BaseSetDelta.cell, lookup_isSome]
  simp only [updateSet, deltas, run, res, bind, Except.bind, pure, Except.pure]

open List

variable {K V : Type} [DecidableEq K]

/-- A view around original elements in their natural order, the deltas and a size. -/
structure BaseSetDeltaIterationView (K V : Type) [DecidableEq K] where
  originalElements : List (K × V)
  added : List (K × V)
  removed : Map K V
  copied : Map K V
  size : UInt64

def makeIterableView (e : Enumeration K V) (d : BaseSetDelta K V) :
    BaseSetDeltaIterationView K V where
  originalElements := e.order d.originalElements
  added := e.order d.addedElements
  removed := d.removedElements
  copied := d.copiedElements
  size := d.size

inductive IterationStage where
  | original
  | added
  deriving DecidableEq, Repr

/-- An iterator.  A container iterator is the list of elements from its position on. -/
structure DeltaIterator (K V : Type) where
  position : UInt64
  stage : IterationStage
  iter : List (K × V)
  originalIter : List (K × V)

namespace BaseSetDeltaIterationView

variable (view : BaseSetDeltaIterationView K V)

/-- The element shown for an original one: copied elements are prioritized. -/
def shown (p : K × V) : K × V := (p.1, (view.copied.lookup p.1).getD p.2)

/-- Advances to the next original element that is not removed.  Of an iterator into the copied
elements only the current element is ever read. -/
def handleOriginalStage : List (K × V) → Option (List (K × V) × List (K × V))
  | [] => none
  | p :: rest =>
      if p.1 ∈ view.removed then handleOriginalStage rest
      else match view.copied.lookup p.1 with
        | some v => some ([(p.1, v)], p :: rest)
        | none => some (p :: rest, p :: rest)

def handleAddedStage (iter : List (K × V)) : List (K × V) :=
  iter.dropWhile fun p => decide (p.1 ∈ view.removed)

variable (it : DeltaIterator K V)

def moveToValidElement : DeltaIterator K V :=
  match it.stage with
  | .original => match view.handleOriginalStage it.originalIter with
    | some (iter, originalIter) => { it with iter := iter, originalIter := originalIter }
    | none => { it with
        stage := .added
        iter := view.handleAddedStage view.added
        originalIter := [] }
  | .added => { it with iter := view.handleAddedStage it.iter }

def start : DeltaIterator K V :=
  let it : DeltaIterator K V := ⟨0, .original, view.originalElements, view.originalElements⟩
  if it.position = view.size then { it with iter := [] } else view.moveToValidElement it

def incrementIterator : Option (DeltaIterator K V) :=
  match it.stage with
  | .original => it.originalIter.tail?.map fun rest => { it with originalIter := rest }
  | .added => it.iter.tail?.map fun rest => { it with iter := rest }

/-- The increment operator, which throws at the end. -/
def next : Option (DeltaIterator K V) :=
  if it.position = view.size then none
  else (incrementIterator { it with position := it.position + 1 }).map view.moveToValidElement

/-- The dereference operator, which throws at the end. -/
def dereference : Option (K × V) :=
  if it.position = view.size then none else it.iter.head?

/-- The elements visited by a range loop; `none` when an operator throws or leaves a container.
Iterators compare equal at equal positions. -/
def visit : Nat → DeltaIterator K V → Option (List (K × V))
  | 0, _ => none
  | fuel + 1, it =>
      if it.position = view.size then some []
      else do
        let elem ← view.dereference it
        let following ← view.next it
        let rest ← visit fuel following
        return elem :: rest

def elements : Option (List (K × V)) := view.visit (view.size.toNat + 1) view.start

def kept (p : K × V) : Bool := decide (p.1 ∉ view.removed)

def remaining (l : List (K × V)) : List (K × V) :=
  (l.filter view.kept).map view.shown ++ view.added.filter view.kept

/-- The iterator stands at the first of the elements that are left. -/
def Ready (left : List (K × V)) : Prop :=
  match it.stage with
  | .original => ∃ p rest, it.originalIter = p :: rest ∧ it.iter.head? = some (view.shown p) ∧
      left = view.shown p :: view.remaining rest
  | .added => left = it.iter.filter view.kept ∧ ∀ p ∈ it.iter.head?, view.kept p = true

variable {view}

private theorem handleAddedStage_ready (l : List (K × V)) :
    l.filter view.kept = (view.handleAddedStage l).filter view.kept ∧
      ∀ p ∈ (view.handleAddedStage l).head?, view.kept p = true := by
  induction l with
  | nil => simp [handleAddedStage]
  | cons p l ih =>
    by_cases removed : p.1 ∈ view.removed
    · have skip : view.handleAddedStage (p :: l) = view.handleAddedStage l := by
        simp [handleAddedStage, removed]
      rw [skip, filter_cons_of_neg (by simp [kept, removed])]
      exact ih
    · have stay : view.handleAddedStage (p :: l) = p :: l := by
        simp [handleAddedStage, removed]
      rw [stay]
      exact ⟨rfl, by simp [kept, removed]⟩

private theorem handleOriginalStage_spec (view : BaseSetDeltaIterationView K V) (l : List (K × V)) :
    match view.handleOriginalStage l with
    | some (iter, originalIter) => ∃ p rest, originalIter = p :: rest ∧
        iter.head? = some (view.shown p) ∧
        view.remaining l = view.shown p :: view.remaining rest
    | none => view.remaining l = view.added.filter view.kept := by
  induction l with
  | nil => simp [handleOriginalStage, remaining]
  | cons p l ih =>
    by_cases removed : p.1 ∈ view.removed
    · have skip : view.handleOriginalStage (p :: l) = view.handleOriginalStage l := by
        simp [handleOriginalStage, removed]
      have same : view.remaining (p :: l) = view.remaining l := by
        simp [remaining, kept, removed]
      rw [skip, same]
      exact ih
    · have x : view.remaining (p :: l) = view.shown p :: view.remaining l := by
        simp [remaining, kept, removed]
      cases copied : view.copied.lookup p.1 with
      | some v =>
        simp only [handleOriginalStage, removed, ↓reduceIte, copied]
        exact ⟨p, l, rfl, by simp [shown, copied], x⟩
      | none =>
        simp only [handleOriginalStage, removed, ↓reduceIte, copied]
        exact ⟨p, l, rfl, by simp [shown, copied], x⟩

private theorem moveToValidElement_original (view : BaseSetDeltaIterationView K V)
    (it : DeltaIterator K V) (stage : it.stage = .original) :
    view.Ready (view.moveToValidElement it) (view.remaining it.originalIter) := by
  have spec := handleOriginalStage_spec view it.originalIter
  unfold moveToValidElement
  rw [stage]
  cases found : view.handleOriginalStage it.originalIter with
  | some pair =>
    rw [found] at spec
    simpa only [Ready, stage] using spec
  | none =>
    rw [found] at spec
    rw [spec]
    exact handleAddedStage_ready view.added

variable (it : DeltaIterator K V)

private theorem moveToValidElement_added (stage : it.stage = .added) :
    view.Ready (view.moveToValidElement it) (it.iter.filter view.kept) := by
  unfold moveToValidElement Ready
  rw [stage]
  simpa only [stage] using handleAddedStage_ready it.iter

private theorem position_moveToValidElement :
    (view.moveToValidElement it).position = it.position := by
  unfold moveToValidElement
  cases it.stage with
  | original => cases found : view.handleOriginalStage it.originalIter <;> rfl
  | added => rfl

variable {it : DeltaIterator K V}

private theorem Ready.step {x : K × V} {xs : List (K × V)}
    (ready : view.Ready it (x :: xs)) (inside : it.position ≠ view.size) :
    view.dereference it = some x ∧ ∃ following, view.next it = some following ∧
      view.Ready following xs ∧ following.position = it.position + 1 := by
  obtain ⟨i, stage, iter, originalIter⟩ := it
  cases stage with
  | original =>
    obtain ⟨p, rest, rfl, head, left⟩ := ready
    obtain ⟨rfl, rfl⟩ := cons.inj left
    refine ⟨by simpa [dereference, inside] using head, _, by simp [next, inside, incrementIterator]; rfl,
      ?_, position_moveToValidElement _⟩
    exact moveToValidElement_original view ⟨i + 1, .original, iter, rest⟩ rfl
  | added =>
    obtain ⟨left, valid⟩ := ready
    cases iter with
    | nil => simp at left
    | cons p rest =>
      rw [filter_cons_of_pos (valid p rfl)] at left
      obtain ⟨rfl, rfl⟩ := cons.inj left
      refine ⟨by simp [dereference, inside], _, by simp [next, inside, incrementIterator]; rfl, ?_,
        position_moveToValidElement _⟩
      exact moveToValidElement_added ⟨i + 1, .added, rest, originalIter⟩ rfl

private theorem Ready.visit {left : List (K × V)} {fuel : Nat}
    (ready : view.Ready it left) (agrees : it.position.toNat + left.length = view.size.toNat)
    (enough : left.length < fuel) : view.visit fuel it = some left := by
  induction left generalizing it fuel with
  | nil =>
    have atEnd : it.position = view.size := by
      rw [← UInt64.toNat_inj]
      simpa using agrees
    obtain ⟨fuel, rfl⟩ := Nat.exists_eq_add_of_lt enough
    simp [BaseSetDeltaIterationView.visit, atEnd]
  | cons x xs ih =>
    rw [length_cons] at agrees enough
    have inside : it.position ≠ view.size := by
      intro same
      rw [same] at agrees
      omega
    obtain ⟨current, following, moved, ready', advanced⟩ := ready.step inside
    obtain ⟨fuel, rfl⟩ : ∃ n, fuel = n + 1 := ⟨fuel - 1, by omega⟩
    have position : following.position.toNat = it.position.toNat + 1 := by
      have bound := view.size.toNat_lt
      rw [advanced, UInt64.toNat_add, UInt64.toNat_one]
      omega
    have rest : view.visit fuel following = some xs := ih ready' (by omega) (by omega)
    simp [BaseSetDeltaIterationView.visit, inside, current, moved, rest]

private theorem elements_eq (size : view.size.toNat = (view.remaining view.originalElements).length) :
    view.elements = some (view.remaining view.originalElements) := by
  by_cases atEnd : (0 : UInt64) = view.size
  · have none : view.remaining view.originalElements = [] := by
      rw [← length_eq_zero_iff, ← size, ← atEnd]
      rfl
    simp only [elements, start, if_pos atEnd, none, visit]
  · have ready := moveToValidElement_original view
      ⟨0, .original, view.originalElements, view.originalElements⟩ rfl
    simp only [elements, start, if_neg atEnd]
    refine ready.visit ?_ (by dsimp only; omega)
    rw [position_moveToValidElement, size]
    simp

end BaseSetDeltaIterationView

open BaseSetDeltaIterationView

section Visited

variable (e : Enumeration K V) {d : BaseSetDelta K V} {m : Map K V}

private theorem mem_original_iff (k : K) (v : V) :
    (k, v) ∈ ((e.order d.originalElements).filter (makeIterableView e d).kept).map
        (makeIterableView e d).shown ↔
      k ∉ d.removedElements ∧ ∃ w, d.originalElements.lookup k = some w ∧
        (d.copiedElements.lookup k).getD w = v := by
  simp only [mem_map, mem_filter, Prod.exists, kept, shown, makeIterableView,
    decide_eq_true_eq, Prod.mk.injEq, e.mem_iff]
  constructor
  · simp_all
  · simp_all

private theorem mem_added_iff (k : K) (v : V) :
    (k, v) ∈ (e.order d.addedElements).filter (makeIterableView e d).kept ↔
      k ∉ d.removedElements ∧ d.addedElements.lookup k = some v := by
  simp only [mem_filter, kept, makeIterableView, decide_eq_true_eq, e.mem_iff, and_comm]

private theorem Refines.remaining_perm (refines : Refines d m) :
    ((makeIterableView e d).remaining (e.order d.originalElements)).Perm (e.order m) := by
  apply e.perm_order
  · have keys : Prod.fst ∘ (makeIterableView e d).shown = Prod.fst := rfl
    rw [remaining, map_append, map_map, keys, nodup_append]
    refine ⟨(e.distinct _).sublist (filter_sublist.map _),
      (e.distinct _).sublist (filter_sublist.map _), ?_⟩
    rintro k original k' added rfl
    obtain ⟨⟨_, v⟩, inAdded, rfl⟩ := mem_map.mp added
    obtain ⟨⟨_, w⟩, inOriginal, same⟩ := mem_map.mp original
    have found := (e.mem_iff _ _ _).mp (mem_of_mem_filter inOriginal)
    have new := (refines _).1.added_new
      (Option.isSome_iff_exists.mpr ⟨v, (mem_added_iff e _ v).mp inAdded |>.2⟩)
    subst same
    simp [cell, found] at new
  · intro k v
    obtain ⟨consistent, content⟩ := refines k
    have source := consistent.copied_original
    have new := consistent.added_new
    rw [remaining, mem_append, mem_original_iff, ← content, Cell.content,
      show (makeIterableView e d).added = e.order d.addedElements from rfl, mem_added_iff]
    simp only [cell, lookup_isSome] at source new ⊢
    by_cases removed : k ∈ d.removedElements
    · simp [removed]
    · simp only [← lookup_isSome] at source new
      cases copied : d.copiedElements.lookup k <;>
        cases original : d.originalElements.lookup k <;>
        cases added : d.addedElements.lookup k <;> simp_all

private theorem Refines.elements_eq (refines : Refines d m) (fits : count m < 2 ^ 64) :
    ∃ visited, (makeIterableView e d).elements = some visited ∧ visited.Perm (e.order m) := by
  have perm := refines.remaining_perm e
  refine ⟨_, BaseSetDeltaIterationView.elements_eq ?_, perm⟩
  have size : (makeIterableView e d).size = UInt64.ofNat (count m) := refines.size_eq
  rw [size, UInt64.toNat_ofNat_of_lt' fits]
  exact (perm.length_eq.trans (e.length_order m)).symm

end Visited

/-- A delta over a base set, the iteration over it and its commit agree with the plain map. -/
theorem delta_refines_plainMap (e : Enumeration K V) (tag : MutabilityTag) (toKey : V → K)
    (base : Map K V) (ops : List (Operation K V)) :
    let d := ops.foldl (applyOperation tag toKey) (create base)
    let m := plainMap tag toKey base ops
    (∀ k, d.contains k = decide (k ∈ m)) ∧ (∀ k, d.findConst tag k = m.lookup k) ∧
      (∀ k modify, tag = .mutable → (d.findAndModify k modify).1 = m.lookup k) ∧
      d.size = UInt64.ofNat (count m) ∧
      (count m < 2 ^ 64 → ∃ visited,
        (makeIterableView e d).elements = some visited ∧ visited.Perm (e.order m)) ∧
      d.commit e = .ok (create m) := by
  intro d m
  have refines : Refines d m := refines_run toKey base ops tag
  refine ⟨refines.contains_eq, refines.findConst_eq tag ?_, fun k modify _ => ?_, refines.size_eq,
    refines.elements_eq e, ?_⟩
  · rintro rfl
    exact fun k => ((refines_run_immutable toKey base ops).2 k).1
  · rw [d.findAndModify_fst, (refines k).2]
  · simp only [commit, refines.updateSet_eq e, bind, Except.bind, pure, Except.pure, reset]

end BitxorCore.Deltaset
