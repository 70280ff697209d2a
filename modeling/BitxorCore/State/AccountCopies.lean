/- GID: State/AccountCopies
   anchors: [src/bitxorcore/state]
   digest: A copy of an account container equals its source where the target held nothing. -/

import BitxorCore.State.AccountActivity
import BitxorCore.State.CompactAccountBalances

set_option autoImplicit false
set_option relaxedAutoImplicit false

namespace BitxorCore.State
open List

namespace CompactArrayStack
variable {T : Type} {N : ℕ} [Inhabited T] (stack : CompactArrayStack T N)

/-- Throws when the stack is empty. -/
def peek : Option T := if stack.size = 0 then none else some stack.top

def get (heightOf : T → BitVec 64) (height : BitVec 64) : T :=
  (stack.slots.find? (heightOf · = height)).getD default

omit [Inhabited T] in
def assign (target source : CompactArrayStack T N) : CompactArrayStack T N where
  array := source.array.or target.array
  size := source.size
  length_array := by
    intro held mem
    rcases Option.or_eq_some_iff.mp mem with own | ⟨_, kept⟩
    · exact source.length_array held own
    · exact target.length_array held kept

def answers (heightOf : T → BitVec 64) : BitVec 64 × List T × Option T × (BitVec 64 → T) :=
  (stack.size, stack.slots, stack.peek, stack.get heightOf)

variable {Op : Type} {apply : CompactArrayStack T N → Op → CompactArrayStack T N}

/-- After a copy, target and source answer alike whatever both go through. -/
def Copied (heightOf : T → BitVec 64) (apply : CompactArrayStack T N → Op → CompactArrayStack T N)
    (target source : CompactArrayStack T N) : Prop :=
  ∀ ops : List Op, (ops.foldl apply (target.assign source)).answers heightOf =
    (ops.foldl apply source).answers heightOf

private theorem size_pop [NeZero N] :
    stack.pop.map size = if stack.array.isNone then none else some (stack.size - 1) := by
  unfold pop
  split <;> rfl

/-- An array that is left over under an empty source can be popped, and the size wraps. -/
private theorem copied_iff [NeZero N] (op : Op)
    (pops : ∀ stack, apply stack op = stack.pop.getD stack) (heightOf : T → BitVec 64)
    (target source : CompactArrayStack T N) :
    Copied heightOf apply target source ↔ (source.array = none → target.array = none) := by
  constructor
  · intro same none
    cases left : target.array with
    | none => rfl
    | some array =>
      have sizes := congrArg Prod.fst (same [op])
      have leftOver : (target.assign source).array = some array := by
        change source.array.or target.array = some array
        rw [none, Option.none_or, left]
      have popped : (target.assign source).pop.map size = some (source.size - 1) := by
        rw [size_pop, leftOver]
        rfl
      have refused : source.pop = .none := by rw [pop, none]; rfl
      obtain ⟨next, done, size⟩ := Option.map_eq_some_iff.mp popped
      rw [foldl_cons, foldl_cons, pops, pops, done, refused] at sizes
      have wrapped : source.size - 1 = source.size := size.symm.trans sizes
      bv_omega
  · intro kept ops
    have copied : target.assign source = source := by
      obtain ⟨array, size, length⟩ := source
      cases array with
      | none => simp only [assign, kept rfl, Option.or_none]
      | some array => rfl
    rw [copied]

end CompactArrayStack

namespace CompactTokenMap
variable {TokenId : Type} [LinearOrder TokenId] [Zero TokenId]
  {map target source : CompactTokenMap TokenId Amount} {ref : OrderedTokens TokenId Amount}

/-- The tokens of the source are inserted, and those of the target stay. An exception leaves the
target where it is. -/
def assign (target source : CompactTokenMap TokenId Amount) :
    CompactTokenMap TokenId Amount × Bool :=
  (target.applyToBalances (.optimize source.optimizedTokenId)).insertTokens source.iterate

inductive Reachable : CompactTokenMap TokenId Amount → Prop
  | create : Reachable create
  | apply {map : CompactTokenMap TokenId Amount} (op : BalanceOperation TokenId) :
      Reachable map → Reachable (map.applyToBalances op)
  | assign {target source : CompactTokenMap TokenId Amount} :
      Reachable target → Reachable source → Reachable (target.assign source).1

def answers (map : CompactTokenMap TokenId Amount) :
    ℕ × List (TokenId × Amount) × TokenId × (TokenId → Amount) :=
  (map.size, map.iterate, map.optimizedTokenId, map.get)

private theorem exists_represents_insertTokens (rep : map.Represents ref)
    (tokens : List (TokenId × Amount)) :
    ∃ next : OrderedTokens TokenId Amount, (map.insertTokens tokens).1.Represents next := by
  induction tokens generalizing map ref with
  | nil => exact ⟨ref, rep⟩
  | cons token rest ih =>
    have step := rep.apply (.insert token)
    rw [CompactTokenMap.apply] at step
    rw [CompactTokenMap.insertTokens]
    cases inserted : map.insert token with
    | error reason => exact ⟨ref, rep⟩
    | ok next =>
      rw [inserted] at step
      exact ih step

private theorem Reachable.exists_represents (reachable : map.Reachable) :
    ∃ ref : OrderedTokens TokenId Amount, map.Represents ref := by
  induction reachable with
  | create => exact ⟨_, create_represents⟩
  | apply op _ ih =>
    obtain ⟨ref, rep⟩ := ih
    obtain ⟨next, kept⟩ := exists_represents_apply ref op
    exact ⟨next, kept rep⟩
  | assign _ _ ih _ =>
    obtain ⟨ref, rep⟩ := ih
    obtain ⟨next, kept⟩ := exists_represents_apply ref (.optimize _)
    exact exists_represents_insertTokens (kept rep) _

private theorem Represents.answers_foldl {other : CompactTokenMap TokenId Amount}
    (rep : map.Represents ref) (rep' : other.Represents ref)
    (ops : List (BalanceOperation TokenId)) :
    (ops.foldl applyToBalances map).answers = (ops.foldl applyToBalances other).answers := by
  induction ops generalizing map other ref with
  | nil =>
    have tokens : map.tokens = other.tokens := rep.tokens_eq.trans rep'.tokens_eq.symm
    have gets : map.get = other.get :=
      funext fun id => (rep.get_eq id).trans (rep'.get_eq id).symm
    change map.answers = other.answers
    rw [answers, answers, ← length_tokens, ← length_tokens, rep.ordered.shape.iterate_eq,
      rep'.ordered.shape.iterate_eq, tokens, gets, rep.optimized, rep'.optimized]
  | cons op ops ih =>
    obtain ⟨next, kept⟩ := exists_represents_apply ref op
    exact ih (kept rep) (kept rep')

private theorem Ordered.assign (ordered : target.Ordered) (ordered' : source.Ordered) :
    (target.assign source).1.Ordered ∧
      (target.assign source).1.optimizedTokenId = source.optimizedTokenId ∧
      ((target.assign source).2 = true →
        (target.assign source).1.tokens.Perm (source.tokens ++ target.tokens)) ∧
      (target.tokens = [] → (target.assign source).2 = true) := by
  obtain ⟨after, done, ordered, perm, optimized⟩ :=
    ordered.optimize source.optimizedTokenId
  obtain ⟨kept, optimized', perms⟩ := ordered.insertTokens source.tokens
  have eq : target.assign source = after.insertTokens source.tokens := by
    rw [CompactTokenMap.assign, applyToBalances, done, ordered'.shape.iterate_eq]
    rfl
  rw [eq]
  refine ⟨kept, optimized'.trans optimized, fun all => ?_, fun empty => ?_⟩
  · exact (perms all).trans (perm.append_left _)
  · rw [empty, perm_nil] at perm
    refine (ordered.insertTokens_fresh ?_ ordered'.shape.reserved).1
    rw [perm, append_nil]
    exact ordered'.shape.distinct

/-- The copy completes, and then target and source answer alike whatever both go through. -/
def Copied (target source : CompactTokenMap TokenId Amount) : Prop :=
  (target.assign source).2 = true ∧ ∀ ops : List (BalanceOperation TokenId),
    (ops.foldl applyToBalances (target.assign source).1).answers =
      (ops.foldl applyToBalances source).answers

private theorem Reachable.copied_iff (reachable : target.Reachable) (reachable' : source.Reachable) :
    target.Copied source ↔ target.size = 0 := by
  obtain ⟨_, rep⟩ := reachable.exists_represents
  obtain ⟨ref, rep'⟩ := reachable'.exists_represents
  obtain ⟨ordered, optimized, perms, completes⟩ := rep.ordered.assign rep'.ordered
  rw [← length_tokens, length_eq_zero_iff]
  constructor
  · rintro ⟨all, same⟩
    have sizes : (target.assign source).1.size = source.size := congrArg Prod.fst (same [])
    rw [← length_tokens, ← length_tokens, (perms all).length_eq, length_append] at sizes
    exact length_eq_zero_iff.mp (by omega)
  · intro empty
    have all := completes empty
    refine ⟨all, Represents.answers_foldl ⟨ordered, optimized.trans rep'.optimized, ?_⟩ rep'⟩
    intro token
    rw [(perms all).mem_iff, empty, append_nil]
    exact rep'.content token

end CompactTokenMap

open CompactTokenMap

variable {TokenId : Type} [LinearOrder TokenId] [Zero TokenId]

/-- A copy answers as its source, whatever both go through afterwards, exactly if the target of a
stack has no array or the source has one, and the target of balances has no tokens. -/
theorem accountContainers_copied_iff :
    (∀ target source : AccountImportanceSnapshots,
      CompactArrayStack.Copied ImportanceSnapshot.height AccountImportanceSnapshots.apply
        target source ↔ (source.array = none → target.array = none)) ∧
    (∀ target source : AccountActivityBuckets,
      CompactArrayStack.Copied ActivityBucket.startHeight AccountActivityBuckets.apply
        target source ↔ (source.array = none → target.array = none)) ∧
    ∀ target source : CompactTokenMap TokenId Amount, target.Reachable → source.Reachable →
      (target.Copied source ↔ target.size = 0) := by
  refine ⟨?_, ?_, fun target source => Reachable.copied_iff⟩
  · exact CompactArrayStack.copied_iff .pop (fun _ => rfl) _
  · exact CompactArrayStack.copied_iff .pop (fun _ => rfl) _

theorem accountContainers_not_copied :
    ((AccountImportanceSnapshots.run [.set 5 7]).assign .create).slots ≠
      (CompactArrayStack.create : AccountImportanceSnapshots).slots ∧
    ((runOnBalances [.credit 1 5]).assign (runOnBalances [.credit 2 5])).1.size ≠
      (runOnBalances [.credit (2 : ℕ) 5]).size ∧
    ((runOnBalances [.credit 1 5]).assign (runOnBalances [.credit (1 : ℕ) 6])).2 = false := by
  decide

end BitxorCore.State
