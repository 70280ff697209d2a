/- GID: State/AccountActivity
   anchors: [src/bitxorcore]
   digest: The slots of importance snapshots and activity buckets ascend, blank ones apart. -/

import Mathlib.Data.List.Chain
import Mathlib.Algebra.Order.Ring.Nat

set_option autoImplicit false
set_option relaxedAutoImplicit false

namespace BitxorCore.State
open List

/-- A stack that shows as many values as its array has, and drops the oldest one when it is full. The
array is allocated with the first value. -/
structure CompactArrayStack (T : Type) (N : ℕ) where
  array : Option (List T)
  size : BitVec 64
  length_array : ∀ held ∈ array, held.length = N

namespace CompactArrayStack
variable {T : Type} {N : ℕ} [Inhabited T]

def create : CompactArrayStack T N := ⟨none, 0, nofun⟩

def slots (stack : CompactArrayStack T N) : List T := stack.array.getD (replicate N default)

theorem length_slots (stack : CompactArrayStack T N) : stack.slots.length = N := by
  unfold slots
  cases held : stack.array with
  | none => exact length_replicate
  | some array => exact stack.length_array array held

def top (stack : CompactArrayStack T N) : T := stack.slots.headD default

variable [NeZero N]

def push (stack : CompactArrayStack T N) (value : T) : CompactArrayStack T N where
  array := some (value :: stack.slots.dropLast)
  size := if stack.size.toNat < N then stack.size + 1 else stack.size
  length_array := by
    rintro _ ⟨⟩
    have positive := Nat.pos_of_neZero N
    rw [length_cons, length_dropLast, stack.length_slots]
    omega

/-- Throws when there is no array. With its last value the stack drops its array. -/
def pop (stack : CompactArrayStack T N) : Option (CompactArrayStack T N) :=
  if stack.array.isNone then none
  else some {
    array := if stack.size - 1 = 0 then none else some (stack.slots.tail ++ [default])
    size := stack.size - 1
    length_array := by
      have positive := Nat.pos_of_neZero N
      split
      · exact nofun
      · rintro _ ⟨⟩
        rw [length_append, length_tail, stack.length_slots, length_singleton]
        omega }

/-- Changes the value on top. Throws when the stack is empty. -/
def changeTop (stack : CompactArrayStack T N) (change : T → T) : Option (CompactArrayStack T N) :=
  if stack.size = 0 then none
  else some {
    stack with
    array := stack.array.map fun _ => change stack.top :: stack.slots.tail
    length_array := by
      intro _ held
      obtain ⟨_, _, rfl⟩ := Option.map_eq_some_iff.mp held
      have positive := Nat.pos_of_neZero N
      rw [length_cons, length_tail, stack.length_slots]
      omega }

private theorem slots_eq (stack : CompactArrayStack T N) :
    stack.slots = stack.top :: stack.slots.tail := by
  have nonempty : stack.slots ≠ [] := by
    rw [← length_pos_iff, stack.length_slots]
    exact Nat.pos_of_neZero N
  obtain ⟨first, rest, split⟩ := exists_cons_of_ne_nil nonempty
  rw [top, split]
  rfl

private theorem size_push_ne_zero (fits : N < 2 ^ 64) (stack : CompactArrayStack T N) (value : T) :
    (stack.push value).size ≠ 0 := by
  have positive := Nat.pos_of_neZero N
  rw [push]
  split <;> bv_omega

private theorem slots_push (stack : CompactArrayStack T N) (value : T) :
    (stack.push value).slots = value :: stack.slots.dropLast :=
  rfl

private theorem slots_foldl_push (values : List T) (stack : CompactArrayStack T N) :
    (values.foldl push stack).slots = (values.reverse ++ stack.slots).take N := by
  induction values generalizing stack with
  | nil => exact (take_of_length_le stack.length_slots.le).symm
  | cons value values ih =>
    have nonempty : stack.slots ≠ [] := by
      rw [stack.slots_eq]
      exact cons_ne_nil _ _
    have enough : N ≤ (values.reverse ++ value :: stack.slots.dropLast).length := by
      rw [length_append, length_cons, length_dropLast, stack.length_slots]
      omega
    rw [foldl_cons, ih, slots_push, reverse_cons, append_assoc, singleton_append]
    conv_rhs => rw [← dropLast_append_getLast nonempty, ← cons_append,
      ← append_assoc, take_append_of_le_length enough]

private theorem slots_pop {stack popped : CompactArrayStack T N} (done : stack.pop = some popped) :
    popped.slots = (create : CompactArrayStack T N).slots ∨
      popped.slots = stack.slots.tail ++ [default] := by
  unfold pop at done
  split at done <;> cases done
  change (if stack.size - 1 = 0 then none else some _).getD _ = _ ∨
    (if stack.size - 1 = 0 then none else some _).getD _ = _
  split
  · exact .inl rfl
  · exact .inr rfl

private theorem slots_changeTop {stack changed : CompactArrayStack T N} {change : T → T}
    (done : stack.changeTop change = some changed) :
    changed.slots = stack.slots ∨ changed.slots = change stack.top :: stack.slots.tail := by
  unfold changeTop at done
  split at done <;> cases done
  change (stack.array.map _).getD _ = stack.array.getD _ ∨ (stack.array.map _).getD _ = _
  cases stack.array with
  | none => exact .inl rfl
  | some array => exact .inr rfl

/-- Slots ascend with their heights towards the top. A slot at height zero is blank, and may lie
between others. -/
structure Graded (height : T → BitVec 64) (slots : List T) : Prop where
  ascends : slots.IsChain fun newer older =>
    height newer ≠ 0 → height older ≠ 0 → height older < height newer
  blank : ∀ slot ∈ slots, height slot = 0 → slot = default

section Graded
variable {height : T → BitVec 64} {stack : CompactArrayStack T N} {value : T}

omit [NeZero N] in
private theorem Graded.create (zero : height default = 0) :
    Graded height (create : CompactArrayStack T N).slots where
  ascends := isChain_replicate_of_rel _ fun nonzero => absurd zero nonzero
  blank _ mem _ := eq_of_mem_replicate mem

section
variable (graded : Graded height stack.slots)
include graded

private theorem Graded.push
    (above : height value ≠ 0 → height stack.top ≠ 0 → height stack.top < height value)
    (blank : height value = 0 → value = default) : Graded height (stack.push value).slots where
  ascends := by
    have kept := List.IsChain.prefix graded.ascends ( dropLast_prefix _)
    refine kept.cons fun older newest => ?_
    rw [stack.slots_eq] at newest
    cases rest : stack.slots.tail with
    | nil =>
      rw [rest] at newest
      cases newest
    | cons second others => simp_all
  blank := forall_mem_cons.mpr
    ⟨blank, fun slot mem => graded.blank slot (dropLast_subset _ mem)⟩

private theorem Graded.pop {popped : CompactArrayStack T N}
    (zero : height default = 0) (done : stack.pop = some popped) :
    Graded height popped.slots := by
  rcases slots_pop done with same | same <;> rw [same]
  · exact .create zero
  · refine ⟨?_, ?_⟩
    · refine isChain_append.mpr ⟨graded.ascends.tail, isChain_singleton _, ?_⟩
      rintro newer _ older ⟨⟩ _ nonzero
      exact absurd zero nonzero
    · intro slot mem none
      rcases mem_append.mp mem with kept | last
      · exact graded.blank slot (mem_of_mem_tail kept) none
      · exact mem_singleton.mp last

private theorem Graded.changeTop {changed : CompactArrayStack T N} {change : T → T}
    (same : height (change stack.top) = height stack.top) (nonzero : height stack.top ≠ 0)
    (done : stack.changeTop change = some changed) :
    Graded height changed.slots := by
  rcases slots_changeTop done with kept | replaced
  · exact kept ▸ graded
  · rw [replaced]
    rw [stack.slots_eq] at graded
    refine ⟨graded.ascends.tail.cons fun older newest => ?_, ?_⟩
    · rw [same]
      exact graded.ascends.rel_head? newest
    · refine forall_mem_cons.mpr ⟨fun zero => absurd (same.symm.trans zero) nonzero, ?_⟩
      exact fun slot mem => graded.blank slot (mem_cons_of_mem _ mem)

end

/-- Graded slots can be placed again, from the oldest to the newest, by whatever places a value
above the last one as a push does. -/
theorem Graded.replay {slots : List T} (graded : Graded height slots) (zero : height default = 0)
    {place : CompactArrayStack T N → T → Option (CompactArrayStack T N)}
    (places : ∀ (stack : CompactArrayStack T N) (value : T),
      (height value ≠ 0 → height stack.top ≠ 0 → height stack.top < height value) →
      (height value = 0 → value = default) → place stack value = some (stack.push value)) :
    slots.reverse.foldlM place CompactArrayStack.create =
      some (slots.reverse.foldl CompactArrayStack.push CompactArrayStack.create) := by
  induction slots with
  | nil => rfl
  | cons newest older ih =>
    have gradedOlder : Graded height older :=
      ⟨graded.ascends.tail, fun slot mem => graded.blank slot (mem_cons_of_mem _ mem)⟩
    rw [reverse_cons, foldlM_append, ih gradedOlder, foldl_append]
    let replayed : CompactArrayStack T N :=
      older.reverse.foldl CompactArrayStack.push CompactArrayStack.create
    suffices above : height newest ≠ 0 → height replayed.top ≠ 0 →
        height replayed.top < height newest by
      change (place replayed newest).bind some = _
      rw [places replayed newest above (graded.blank newest mem_cons_self)]
      rfl
    cases older with
    | nil =>
      intro _ nonzero
      refine absurd ?_ nonzero
      cases N <;> exact zero
    | cons second rest =>
      have newestOlder : replayed.top = second := by
        simp only [replayed, reverse_cons, foldl_append]
        rfl
      rw [newestOlder]
      exact graded.ascends.rel

theorem slots_replayed (stack : CompactArrayStack T N) :
    (stack.slots.reverse.foldl CompactArrayStack.push
      (CompactArrayStack.create : CompactArrayStack T N)).slots = stack.slots := by
  rw [slots_foldl_push, reverse_reverse, take_left' stack.length_slots]

end Graded

end CompactArrayStack

open CompactArrayStack

def rollbackBufferSize : ℕ := 2

abbrev importanceHistorySize : ℕ := 1 + rollbackBufferSize

abbrev activityBucketHistorySize : ℕ := 5 + rollbackBufferSize

abbrev ImportanceHeight := BitVec 64

structure ImportanceSnapshot where
  importance : BitVec 64
  height : ImportanceHeight
  deriving DecidableEq

instance : Inhabited ImportanceSnapshot := ⟨0, 0⟩

abbrev AccountImportanceSnapshots := CompactArrayStack ImportanceSnapshot importanceHistorySize

namespace AccountImportanceSnapshots

variable (snapshots : AccountImportanceSnapshots)

def height : ImportanceHeight := snapshots.top.height

def active : Bool := snapshots.height != 0

/-- Throws unless heights ascend. -/
def set (importance : BitVec 64) (height : ImportanceHeight) : Option AccountImportanceSnapshots :=
  let lastHeight := snapshots.height
  if lastHeight ≠ 0 ∧ height ≤ lastHeight then none
  else some (push snapshots ⟨importance, height⟩)

def push : AccountImportanceSnapshots :=
  CompactArrayStack.push snapshots default

inductive Operation where
  | set (importance : BitVec 64) (height : ImportanceHeight)
  | push
  | pop

/-- An operation; one that throws changes nothing. -/
def apply : Operation → AccountImportanceSnapshots
  | .set importance height => (snapshots.set importance height).getD snapshots
  | .push => snapshots.push
  | .pop => (pop snapshots).getD snapshots

def run (ops : List Operation) : AccountImportanceSnapshots :=
  ops.foldl apply create

/-- No importance is set at height zero, which stands for a blank snapshot. -/
def Operation.Dated : Operation → Prop
  | .set _ height => height ≠ 0
  | .push | .pop => True

variable {height : ImportanceHeight}

theorem set_spec (importance : BitVec 64)
    (above : snapshots.height ≠ 0 → snapshots.height < height) :
    snapshots.set importance height =
      some (CompactArrayStack.push snapshots ⟨importance, height⟩) := by
  refine if_neg fun refused => ?_
  exact absurd (above refused.1) (BitVec.not_lt.mpr refused.2)

private theorem set_eq_some {snapshots next : AccountImportanceSnapshots} {importance : BitVec 64}
    (done : snapshots.set importance height = some next) :
    (snapshots.height ≠ 0 → snapshots.height < height) ∧
      next = CompactArrayStack.push snapshots ⟨importance, height⟩ := by
  unfold AccountImportanceSnapshots.set at done
  dsimp only at done
  split at done
  · cases done
  · simp_all

private theorem graded_apply {snapshots : AccountImportanceSnapshots}
    (graded : Graded ImportanceSnapshot.height snapshots.slots) {op : Operation}
    (dated : op.Dated) :
    Graded ImportanceSnapshot.height (snapshots.apply op).slots := by
  cases op with
  | set importance height =>
    rw [apply]
    cases done : snapshots.set importance height with
    | none => exact graded
    | some next =>
      obtain ⟨above, rfl⟩ := set_eq_some done
      exact graded.push (fun _ => above) fun zero => absurd zero dated
  | push => exact graded.push (fun nonzero => absurd rfl nonzero) fun _ => rfl
  | pop =>
    rw [apply]
    cases done : pop snapshots with
    | none => exact graded
    | some next => exact graded.pop rfl done

theorem graded_run {ops : List Operation} (dated : ∀ op ∈ ops, op.Dated) :
    Graded ImportanceSnapshot.height (run ops).slots := by
  refine foldlRecOn (motive := fun snapshots : AccountImportanceSnapshots =>
    Graded ImportanceSnapshot.height snapshots.slots) ops apply (.create rfl) ?_
  exact fun _ graded op mem => graded_apply graded (dated op mem)

end AccountImportanceSnapshots

structure HeightDetachedActivityBucket where
  totalFeesPaid : BitVec 64
  beneficiaryCount : BitVec 32
  rawScore : BitVec 64
  deriving DecidableEq

structure ActivityBucket extends HeightDetachedActivityBucket where
  startHeight : ImportanceHeight
  deriving DecidableEq

instance : Inhabited ActivityBucket := ⟨⟨⟨0, 0, 0⟩, 0⟩⟩

abbrev AccountActivityBuckets := CompactArrayStack ActivityBucket activityBucketHistorySize

namespace AccountActivityBuckets

def consume (consumer : HeightDetachedActivityBucket → HeightDetachedActivityBucket)
    (bucket : ActivityBucket) : ActivityBucket :=
  { bucket with
    toHeightDetachedActivityBucket := consumer bucket.toHeightDetachedActivityBucket }

variable (buckets : AccountActivityBuckets)

/-- Updates the newest bucket, or a new one at a greater height where one may be created. Throws
when the newest bucket has a greater height, or there is none. -/
def tryUpdateBucket (height : ImportanceHeight)
    (consumer : HeightDetachedActivityBucket → HeightDetachedActivityBucket)
    (shouldCreateNewBucket : Bool) : Option (AccountActivityBuckets × Bool) :=
  let lastHeight := buckets.top.startHeight
  if lastHeight ≠ 0 ∧ height < lastHeight then none
  else if lastHeight < height then
    if shouldCreateNewBucket then
      let bucket : ActivityBucket := { (default : ActivityBucket) with startHeight := height }
      ((push buckets bucket).changeTop (consume consumer)).map (·, true)
    else some (buckets, false)
  else (buckets.changeTop (consume consumer)).map (·, true)

def update (height : ImportanceHeight)
    (consumer : HeightDetachedActivityBucket → HeightDetachedActivityBucket) :
    Option AccountActivityBuckets :=
  (buckets.tryUpdateBucket height consumer true).map Prod.fst

def tryUpdate (height : ImportanceHeight)
    (consumer : HeightDetachedActivityBucket → HeightDetachedActivityBucket) :
    Option (AccountActivityBuckets × Bool) :=
  buckets.tryUpdateBucket height consumer false

def push : AccountActivityBuckets :=
  CompactArrayStack.push buckets default

inductive Operation where
  | update (height : ImportanceHeight)
      (consumer : HeightDetachedActivityBucket → HeightDetachedActivityBucket)
  | tryUpdate (height : ImportanceHeight)
      (consumer : HeightDetachedActivityBucket → HeightDetachedActivityBucket)
  | push
  | pop

/-- An operation; one that throws changes nothing. -/
def apply : Operation → AccountActivityBuckets
  | .update height consumer => (buckets.update height consumer).getD buckets
  | .tryUpdate height consumer => ((buckets.tryUpdate height consumer).map Prod.fst).getD buckets
  | .push => buckets.push
  | .pop => (pop buckets).getD buckets

def run (ops : List Operation) : AccountActivityBuckets := ops.foldl apply create

/-- No bucket is updated at height zero, which stands for a blank bucket. -/
def Operation.Dated : Operation → Prop
  | .update height _ | .tryUpdate height _ => height ≠ 0
  | .push | .pop => True

variable {buckets : AccountActivityBuckets} {height : ImportanceHeight}

theorem update_create (consumer : HeightDetachedActivityBucket → HeightDetachedActivityBucket)
    (above : buckets.top.startHeight < height) :
    buckets.update height consumer = some (CompactArrayStack.push buckets
      ⟨consumer (default : ActivityBucket).toHeightDetachedActivityBucket, height⟩) := by
  have accepted : ¬(buckets.top.startHeight ≠ 0 ∧ height < buckets.top.startHeight) :=
    fun refused => BitVec.not_lt.mpr (BitVec.le_of_lt above) refused.2
  have sized : (CompactArrayStack.push buckets
      { (default : ActivityBucket) with startHeight := height }).size ≠ 0 :=
    size_push_ne_zero (by decide) _ _
  simp only [update, tryUpdateBucket, accepted, above, ↓reduceIte, changeTop, sized,
    Option.map_some]
  rfl

section
variable (graded : Graded ActivityBucket.startHeight buckets.slots)
include graded

private theorem graded_tryUpdateBucket (nonzero : height ≠ 0)
    (consumer : HeightDetachedActivityBucket → HeightDetachedActivityBucket)
    (shouldCreateNewBucket : Bool) : Graded ActivityBucket.startHeight
      (((buckets.tryUpdateBucket height consumer shouldCreateNewBucket).map Prod.fst).getD
        buckets).slots := by
  by_cases refused : buckets.top.startHeight ≠ 0 ∧ height < buckets.top.startHeight
  · rw [tryUpdateBucket, if_pos refused]
    exact graded
  by_cases above : buckets.top.startHeight < height
  · cases shouldCreateNewBucket with
    | true =>
      have created := update_create consumer above
      rw [update] at created
      rw [created]
      exact graded.push (fun _ _ => above) fun zero => absurd zero nonzero
    | false =>
      rw [tryUpdateBucket, if_neg refused, if_pos above]
      exact graded
  · have same : buckets.top.startHeight = height := by
      have positive : 0 < height := by bv_omega
      bv_omega
    rw [tryUpdateBucket, if_neg refused, if_neg above]
    cases done : buckets.changeTop (consume consumer) with
    | none => exact graded
    | some next => exact graded.changeTop rfl (same ▸ nonzero) done

private theorem graded_apply {op : Operation} (dated : op.Dated) :
    Graded ActivityBucket.startHeight (buckets.apply op).slots := by
  cases op with
  | update height consumer => exact graded_tryUpdateBucket graded dated consumer true
  | tryUpdate height consumer => exact graded_tryUpdateBucket graded dated consumer false
  | push => exact graded.push (fun nonzero => absurd rfl nonzero) fun _ => rfl
  | pop =>
    rw [apply]
    cases done : pop buckets with
    | none => exact graded
    | some next => exact graded.pop rfl done

end

theorem graded_run {ops : List Operation} (dated : ∀ op ∈ ops, op.Dated) :
    Graded ActivityBucket.startHeight (run ops).slots := by
  refine foldlRecOn (motive := fun buckets : AccountActivityBuckets =>
    Graded ActivityBucket.startHeight buckets.slots) ops apply (.create rfl) ?_
  exact fun _ graded op mem => graded_apply graded (dated op mem)

end AccountActivityBuckets

end BitxorCore.State
