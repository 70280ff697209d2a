/- GID: State/CompactAccountBalances
   anchors: [src/bitxorcore/state]
   digest: Credits and debits of a token map are those of the ordered map it stands for. -/

import BitxorCore.State.CompactTokenMapOrder
import Mathlib.Data.BitVec

set_option autoImplicit false
set_option relaxedAutoImplicit false

namespace BitxorCore.State
open Library List OrderedMap

abbrev Amount := BitVec 64

variable {TokenId : Type} [LinearOrder TokenId]

def assignAmount (id : TokenId) (amount : Amount) (token : TokenId × Amount) : TokenId × Amount :=
  if token.1 = id then (id, amount) else token

private theorem fst_assignAmount (id : TokenId) (amount : Amount) (token : TokenId × Amount) :
    (assignAmount id amount token).1 = token.1 := by
  unfold assignAmount
  split
  · next same => exact same.symm
  · rfl

private theorem map_fst_assignAmount (id : TokenId) (amount : Amount)
    (listed : List (TokenId × Amount)) :
    (listed.map (assignAmount id amount)).map Prod.fst = listed.map Prod.fst := by
  rw [map_map]
  exact map_congr_left fun token _ => fst_assignAmount id amount token

private theorem pairwise_assignAmount {listed : List (TokenId × Amount)}
    (ascending : listed.Pairwise fun first second => first.1 < second.1) (id : TokenId)
    (amount : Amount) :
    (listed.map (assignAmount id amount)).Pairwise fun first second => first.1 < second.1 := by
  refine pairwise_map.mpr (ascending.imp fun {first second} before => ?_)
  rw [fst_assignAmount, fst_assignAmount]
  exact before

namespace CompactTokenMap
variable [Zero TokenId] {map : CompactTokenMap TokenId Amount}
  {ref : OrderedTokens TokenId Amount} {id : TokenId} {amount : Amount}

/-- Writes an amount through the iterator at a token, in the tier that has it. -/
def setAmount (map : CompactTokenMap TokenId Amount) (id : TokenId) (amount : Amount) :
    CompactTokenMap TokenId Amount :=
  { map with
    value := assignAmount id amount map.value
    nextStorage := map.nextStorage.map fun storage => {
      arrayStorage := storage.arrayStorage.map (assignAmount id amount)
      mapStorage := storage.mapStorage.map fun entries =>
        ⟨entries.entries.map (assignAmount id amount),
          pairwise_assignAmount entries.sorted id amount⟩ } }

def get (map : CompactTokenMap TokenId Amount) (id : TokenId) : Amount :=
  (map.find id).elim 0 Prod.snd

/-- Throws if the token has the reserved id. The sum of the amounts is not checked. -/
def credit (map : CompactTokenMap TokenId Amount) (id : TokenId) (amount : Amount) :
    Option (CompactTokenMap TokenId Amount) :=
  if amount = 0 then some map
  else match map.find id with
    | none => (map.insert (id, amount)).toOption
    | some token => some (map.setAmount id (token.2 + amount))

/-- Throws if the balance is too small. A token without balance is erased. -/
def debit (map : CompactTokenMap TokenId Amount) (id : TokenId) (amount : Amount) :
    Option (CompactTokenMap TokenId Amount) :=
  if amount = 0 then some map
  else match map.find id with
    | none => none
    | some token =>
      if token.2 < amount then none
      else
        let debited := map.setAmount id (token.2 - amount)
        some (if token.2 - amount = 0 then debited.erase id else debited)

end CompactTokenMap

namespace OrderedTokens
variable [Zero TokenId] (ref : OrderedTokens TokenId Amount)

def credit (id : TokenId) (amount : Amount) : Option (OrderedTokens TokenId Amount) :=
  if amount = 0 then some ref
  else match ref.map.lookup id with
    | none => if id = 0 then none else some { ref with map := ref.map.insert id amount }
    | some balance => some { ref with map := ref.map.insert id (balance + amount) }

omit [Zero TokenId] in
def debit (id : TokenId) (amount : Amount) : Option (OrderedTokens TokenId Amount) :=
  if amount = 0 then some ref
  else match ref.map.lookup id with
    | none => none
    | some balance =>
      if balance < amount then none
      else if balance - amount = 0 then some { ref with map := ref.map.erase id }
      else some { ref with map := ref.map.insert id (balance - amount) }

variable {ref} {next : OrderedTokens TokenId Amount} {id : TokenId} {amount : Amount}

theorem optimizedTokenId_credit (done : ref.credit id amount = some next) :
    next.optimizedTokenId = ref.optimizedTokenId := by
  unfold credit at done
  split at done
  · cases done
    rfl
  · split at done
    · split at done
      · cases done
      · cases done
        rfl
    · cases done
      rfl

omit [Zero TokenId] in
theorem optimizedTokenId_debit (done : ref.debit id amount = some next) :
    next.optimizedTokenId = ref.optimizedTokenId := by
  unfold debit at done
  split at done
  · cases done
    rfl
  · split at done
    · cases done
    · split at done
      · cases done
      · split at done <;> cases done <;> rfl

end OrderedTokens

inductive BalanceOperation (TokenId : Type) where
  | credit (id : TokenId) (amount : Amount)
  | debit (id : TokenId) (amount : Amount)
  | optimize (id : TokenId)

namespace CompactTokenMap
variable [Zero TokenId] {map : CompactTokenMap TokenId Amount}
  {ref : OrderedTokens TokenId Amount} {id : TokenId} {amount : Amount}

private theorem tokens_setAmount (map : CompactTokenMap TokenId Amount) (id : TokenId)
    (amount : Amount) :
    (map.setAmount id amount).tokens = map.tokens.map (assignAmount id amount) := by
  have sameEmpty : (map.setAmount id amount).isEmpty = map.isEmpty := by
    rw [isEmpty, isEmpty, setAmount, fst_assignAmount]
  unfold tokens
  rw [sameEmpty]
  split
  · rfl
  · have array_eq : (map.setAmount id amount).array = map.array.map (assignAmount id amount) := by
      rw [array, array, setAmount]
      cases map.nextStorage <;> rfl
    have map_eq : (map.setAmount id amount).mapEntries =
        map.mapEntries.map (assignAmount id amount) := by
      rw [mapEntries, mapEntries, setAmount]
      cases map.nextStorage with
      | none => rfl
      | some storage =>
        cases stored : storage.mapStorage <;> simp [stored, SecondLevelStorage.mapEntries]
    rw [map_cons, map_append, ← array_eq, ← map_eq]
    rfl

private theorem Shape.setAmount (shape : map.Shape) (id : TokenId) (amount : Amount) :
    (map.setAmount id amount).Shape where
  unset empty := by
    rw [CompactTokenMap.setAmount, fst_assignAmount] at empty
    rw [CompactTokenMap.setAmount, shape.unset empty, Option.map_none]
  storage storage stored := by
    obtain ⟨former, known, rfl⟩ := Option.map_eq_some_iff.mp stored
    obtain ⟨fits, nonempty⟩ := shape.storage former known
    refine ⟨⟨(length_map _).trans_le fits.array, fun entries present => ?_⟩, ?_⟩
    · obtain ⟨before, found, rfl⟩ := Option.map_eq_some_iff.mp present
      obtain ⟨full, some⟩ := fits.map before found
      exact ⟨(length_map _).trans full, fun none => some (map_eq_nil_iff.mp none)⟩
    · exact fun none => nonempty (map_eq_nil_iff.mp none)
  reserved token mem := by
    rw [tokens_setAmount] at mem
    obtain ⟨former, known, rfl⟩ := mem_map.mp mem
    rw [fst_assignAmount]
    exact shape.reserved former known
  distinct := by
    rw [tokens_setAmount, map_fst_assignAmount]
    exact shape.distinct

private theorem Ordered.setAmount (ordered : map.Ordered) (id : TokenId) (amount : Amount) :
    (map.setAmount id amount).Ordered where
  shape := ordered.shape.setAmount id amount
  ranked := by
    rw [tokens_setAmount]
    have ranked := ordered.ranked
    cases listed : map.tokens with
    | nil => trivial
    | cons first rest =>
      rw [listed] at ranked
      refine ⟨pairwise_assignAmount ranked.1 id amount, fun unoptimized token mem => ?_⟩
      obtain ⟨former, known, rfl⟩ := mem_map.mp mem
      rw [fst_assignAmount] at unoptimized ⊢
      rw [fst_assignAmount]
      exact ranked.2 unoptimized former known
  first token mem := by
    rw [tokens_setAmount, ← map_tail] at mem
    obtain ⟨former, known, rfl⟩ := mem_map.mp mem
    rw [fst_assignAmount]
    exact ordered.first former known

section
variable (rep : map.Represents ref)
include rep

private theorem Represents.setAmount
    (present : (ref.map.lookup id).isSome) (amount : Amount) : (map.setAmount id amount).Represents
      { ref with map := ref.map.insert id amount } where
  ordered := rep.ordered.setAmount id amount
  optimized := rep.optimized
  content token := by
    rw [tokens_setAmount, mem_map, lookup_insert]
    constructor
    · rintro ⟨former, known, rfl⟩
      rw [fst_assignAmount, assignAmount]
      split
      · rfl
      · exact (rep.content former).mp known
    · split
      · next here =>
        intro same
        obtain ⟨balance, found⟩ := Option.isSome_iff_exists.mp present
        refine ⟨(id, balance), (rep.content (id, balance)).mpr found, ?_⟩
        rw [assignAmount, if_pos rfl]
        exact Prod.ext here.symm (Option.some.inj same)
      · next apart =>
        intro found
        exact ⟨token, (rep.content token).mpr found, if_neg apart⟩

theorem Represents.get_eq (id : TokenId) : map.get id = (ref.map.lookup id).getD 0 := by
  rw [get, rep.find_eq]
  cases ref.map.lookup id <;> rfl

theorem Represents.credit (id : TokenId) (amount : Amount) :
    Option.Rel Represents (map.credit id amount) (ref.credit id amount) := by
  unfold CompactTokenMap.credit OrderedTokens.credit
  split
  · exact .some rep
  · rw [rep.find_eq]
    cases found : ref.map.lookup id with
    | none =>
      have step := rep.apply (.insert (id, amount))
      rw [CompactTokenMap.apply, OrderedTokens.apply] at step
      obtain ⟨refused, reason, failed⟩ | ⟨valid, fresh, after, inserted, -⟩ :=
        insert_spec rep.ordered.shape rep.ordered.ranked (id, amount)
      · have reserved : id = 0 := by
          refine refused.resolve_right ?_
          rintro ⟨token, mem, rfl⟩
          have known := (rep.content token).mp mem
          rw [found] at known
          exact absurd known (Option.some_ne_none _).symm
        rw [failed, if_pos reserved]
        exact .none
      · have accepted : ¬ref.Refuses id := by
          rw [OrderedTokens.Refuses, found]
          exact fun refused => refused.elim valid Bool.false_ne_true
        rw [inserted, if_neg accepted] at step
        rw [inserted, if_neg valid]
        exact .some step
    | some balance =>
      exact .some (rep.setAmount (by rw [found]; rfl) _)

theorem Represents.debit (id : TokenId) (amount : Amount) :
    Option.Rel Represents (map.debit id amount) (ref.debit id amount) := by
  unfold CompactTokenMap.debit OrderedTokens.debit
  split
  · exact .some rep
  · rw [rep.find_eq]
    cases found : ref.map.lookup id with
    | none => exact .none
    | some balance =>
      dsimp only [Option.map_some]
      split
      · exact .none
      · have debited := rep.setAmount (by rw [found]; rfl) (balance - amount)
        split
        · have erased := debited.apply (.erase id)
          have sameMap : (ref.map.insert id (balance - amount)).erase id = ref.map.erase id := by
            refine ext_lookup fun other => ?_
            rw [lookup_erase, lookup_erase, lookup_insert]
            split <;> rfl
          rw [CompactTokenMap.apply, OrderedTokens.apply, sameMap] at erased
          exact .some erased
        · exact .some debited

theorem Represents.optimize (id : TokenId) :
    ∃ next, map.optimize id = .ok next ∧ next.Represents { ref with optimizedTokenId := id } := by
  obtain ⟨next, done, -⟩ := rep.ordered.optimize id
  have step := rep.apply (.optimize id)
  rw [CompactTokenMap.apply, done] at step
  exact ⟨next, done, step⟩

end

/-- An operation on balances; one that throws changes nothing. -/
def applyToBalances (map : CompactTokenMap TokenId Amount) :
    BalanceOperation TokenId → CompactTokenMap TokenId Amount
  | .credit id amount => (map.credit id amount).getD map
  | .debit id amount => (map.debit id amount).getD map
  | .optimize id => (map.optimize id).toOption.getD map

variable (ops : List (BalanceOperation TokenId))

def runOnBalances : CompactTokenMap TokenId Amount :=
  ops.foldl applyToBalances create

theorem Represents.getD {next : Option (CompactTokenMap TokenId Amount)}
    {nextReference : Option (OrderedTokens TokenId Amount)} (rep : map.Represents ref)
    (same : Option.Rel Represents next nextReference) :
    (next.getD map).Represents (nextReference.getD ref) := by
  cases same with
  | none => exact rep
  | some same => exact same

theorem exists_represents_apply (ref : OrderedTokens TokenId Amount)
    (op : BalanceOperation TokenId) :
    ∃ next, ∀ {map}, Represents map ref → (map.applyToBalances op).Represents next := by
  cases op with
  | credit id amount => exact ⟨_, fun rep => rep.getD (rep.credit id amount)⟩
  | debit id amount => exact ⟨_, fun rep => rep.getD (rep.debit id amount)⟩
  | optimize id =>
    refine ⟨{ ref with optimizedTokenId := id }, fun rep => ?_⟩
    obtain ⟨next, done, same⟩ := rep.optimize id
    rw [applyToBalances, done]
    exact same

theorem exists_represents_run :
    ∃ ref : OrderedTokens TokenId Amount, (runOnBalances ops).Represents ref := by
  refine foldlRecOn (motive := fun map => ∃ ref, Represents map ref) ops
    applyToBalances ⟨_, create_represents⟩ ?_
  rintro map ⟨ref, rep⟩ op -
  obtain ⟨next, kept⟩ := exists_represents_apply ref op
  exact ⟨next, kept rep⟩

def optimizeFirst (map : CompactTokenMap TokenId Amount) (index : ℕ) (id : TokenId) :
    Option (CompactTokenMap TokenId Amount) :=
  if index = 0 then (map.optimize id).toOption else some map

/-- Credits tokens one after the other, and optimizes the first one. -/
def creditTokens : ℕ → CompactTokenMap TokenId Amount → List (TokenId × Amount) →
    Option (CompactTokenMap TokenId Amount)
  | _, map, [] => some map
  | index, map, token :: rest => do
    let credited ← map.credit token.1 token.2
    let optimized ← credited.optimizeFirst index token.1
    creditTokens (index + 1) optimized rest

/-- Inserts tokens up to one that cannot be inserted, and tells whether all were. -/
def insertTokens (map : CompactTokenMap TokenId Amount) :
    List (TokenId × Amount) → CompactTokenMap TokenId Amount × Bool
  | [] => (map, true)
  | token :: rest =>
    match map.insert token with
    | .error _ => (map, false)
    | .ok next => next.insertTokens rest

variable {token : TokenId × Amount}

private theorem Ordered.insert_fresh (ordered : map.Ordered)
    {rest : List (TokenId × Amount)} (valid : token.1 ≠ 0)
    (distinct : ((token :: rest ++ map.tokens).map Prod.fst).Nodup) :
    ∃ next, map.insert token = .ok next ∧
      (token.2 ≠ 0 → map.credit token.1 token.2 = some next) := by
  have fresh : ¬∃ other ∈ map.tokens, other.1 = token.1 := by
    rintro ⟨other, mem, same⟩
    rw [cons_append, map_cons, nodup_cons, ← same] at distinct
    exact distinct.1 (mem_map_of_mem (mem_append_right _ mem))
  have absent : map.find token.1 = none := by
    rwa [← Option.not_isSome_iff_eq_none, find_isSome_iff]
  obtain ⟨refused, -⟩ | ⟨-, -, next, inserted, -⟩ :=
    insert_spec ordered.shape ordered.ranked token
  · exact absurd refused (not_or.mpr ⟨valid, fresh⟩)
  · refine ⟨next, inserted, fun pos => ?_⟩
    rw [credit, if_neg pos, absent]
    exact congrArg Except.toOption inserted

private theorem perm_insert {next : CompactTokenMap TokenId Amount}
    (perm : next.tokens.Perm (token :: map.tokens)) (rest : List (TokenId × Amount)) :
    (rest ++ next.tokens).Perm (token :: rest ++ map.tokens) :=
  (perm.append_left rest).trans perm_middle

theorem Ordered.insertTokens (ordered : map.Ordered) (tokens : List (TokenId × Amount)) :
    (map.insertTokens tokens).1.Ordered ∧
      (map.insertTokens tokens).1.optimizedTokenId = map.optimizedTokenId ∧
      ((map.insertTokens tokens).2 = true →
        (map.insertTokens tokens).1.tokens.Perm (tokens ++ map.tokens)) := by
  induction tokens generalizing map with
  | nil => exact ⟨ordered, rfl, fun _ => .refl _⟩
  | cons token rest ih =>
    rw [CompactTokenMap.insertTokens]
    cases inserted : map.insert token with
    | error reason => exact ⟨ordered, rfl, fun done => absurd done Bool.false_ne_true⟩
    | ok next =>
      obtain ⟨ordered', perm, optimized⟩ := ordered.insert inserted
      obtain ⟨kept, optimized', perms⟩ := ih ordered'
      refine ⟨kept, optimized'.trans optimized, fun done => ?_⟩
      exact (perms done).trans (perm_insert perm rest)

theorem Ordered.insertTokens_fresh (ordered : map.Ordered) {tokens : List (TokenId × Amount)}
    (distinct : ((tokens ++ map.tokens).map Prod.fst).Nodup)
    (valid : ∀ token ∈ tokens, token.1 ≠ 0) :
    (map.insertTokens tokens).2 = true ∧
      ((∀ token ∈ tokens, token.2 ≠ 0) → ∀ index ≠ 0,
        creditTokens index map tokens = some (map.insertTokens tokens).1) := by
  induction tokens generalizing map with
  | nil => exact ⟨rfl, fun _ _ _ => rfl⟩
  | cons token rest ih =>
    obtain ⟨validFirst, validRest⟩ := forall_mem_cons.mp valid
    obtain ⟨next, inserted, credited⟩ := ordered.insert_fresh validFirst distinct
    obtain ⟨ordered', perm, -⟩ := ordered.insert inserted
    have distinct' := ((perm_insert perm rest).map Prod.fst).nodup_iff.mpr distinct
    obtain ⟨done, credits⟩ := ih ordered' distinct' validRest
    rw [CompactTokenMap.insertTokens, inserted]
    refine ⟨done, fun pos index later => ?_⟩
    obtain ⟨posFirst, posRest⟩ := forall_mem_cons.mp pos
    have kept : next.optimizeFirst index token.1 = some next := if_neg later
    rw [creditTokens, credited posFirst, Option.bind_eq_bind, Option.bind_some, kept]
    exact credits posRest (index + 1) (Nat.succ_ne_zero index)

section
variable (rep : map.Represents ref)
include rep

private theorem Represents.optimized_first {first : TokenId × Amount}
    {rest : List (TokenId × Amount)}
    (listed : map.tokens = first :: rest) :
    Represents { map with optimizedTokenId := first.1 } ⟨ref.map, first.1⟩ where
  ordered := by
    obtain ⟨⟨unset, storage, reserved, distinct⟩, ranked, -⟩ := rep.ordered
    refine ⟨⟨unset, storage, reserved, distinct⟩, ?_, ?_⟩
    · change Ranked first.1 map.tokens
      rw [listed] at ranked ⊢
      exact ⟨ranked.1, fun unoptimized => absurd rfl unoptimized⟩
    · change ∀ token ∈ map.tokens.tail, token.1 ≠ first.1
      rw [listed] at distinct ⊢
      exact fun token mem same =>
        (nodup_cons.mp distinct).1 (same ▸ mem_map_of_mem mem)
  optimized := rfl
  content := rep.content

/-- A map whose tokens are credited to a new one, the first of them optimized, lists its tokens
in the same order. -/
theorem Represents.reload (pos : ∀ token ∈ map.tokens, token.2 ≠ 0) :
    ∃ loaded first, creditTokens 0 create map.tokens = some loaded ∧
      loaded.Represents ⟨ref.map, first⟩ ∧ loaded.tokens = map.tokens := by
  have shape := rep.ordered.shape
  have content := rep.content
  cases listed : map.tokens with
  | nil =>
    refine ⟨create, 0, rfl, ?_, tokens_of_isEmpty rfl⟩
    have none : ref.map = empty := by
      refine ext_lookup fun id => Option.ext fun amount => ?_
      rw [← content (id, amount), listed]
      simp
    rw [none]
    exact create_represents
  | cons first rest =>
    have distinct := shape.distinct
    have valid := shape.reserved
    rw [listed] at distinct valid pos content
    obtain ⟨validFirst, validRest⟩ := forall_mem_cons.mp valid
    obtain ⟨posFirst, posRest⟩ := forall_mem_cons.mp pos
    have none : (create : CompactTokenMap TokenId Amount).tokens = [] := tokens_of_isEmpty rfl
    -- the first token alone is optimized
    have started : (create : CompactTokenMap TokenId Amount).Ordered := create_represents.ordered
    obtain ⟨one, inserted, credited⟩ := started.insert_fresh validFirst
      (by rwa [none, append_nil] : ((first :: rest ++ create.tokens).map Prod.fst).Nodup)
    obtain ⟨oneOrdered, onePerm, -⟩ := started.insert inserted
    obtain ⟨optimized, done, ordered, perm, first_eq⟩ := oneOrdered.optimize first.1
    have all : (rest ++ optimized.tokens).Perm (first :: rest) := by
      have both := perm_insert (perm.trans onePerm) rest
      rwa [none, append_nil] at both
    obtain ⟨completes, credits⟩ := ordered.insertTokens_fresh
      ((all.map Prod.fst).nodup_iff.mpr distinct) validRest
    obtain ⟨loadedOrdered, kept, perms⟩ := ordered.insertTokens rest
    have loadedRepresents : (optimized.insertTokens rest).1.Represents ⟨ref.map, first.1⟩ :=
      ⟨loadedOrdered, kept.trans first_eq,
        fun token => ((perms completes).trans all).mem_iff.trans (content token)⟩
    refine ⟨_, first.1, ?_, loadedRepresents, ?_⟩
    · have optimizes : one.optimizeFirst 0 first.1 = some optimized := by
        rw [optimizeFirst, if_pos rfl, done]
        rfl
      rw [creditTokens, credited posFirst, Option.bind_eq_bind, Option.bind_some, optimizes]
      exact credits posRest 1 (Nat.succ_ne_zero 0)
    · rw [loadedRepresents.tokens_eq, ← listed]
      exact (rep.optimized_first listed).tokens_eq.symm

end

end CompactTokenMap

end BitxorCore.State
