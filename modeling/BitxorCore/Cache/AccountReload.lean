/- GID: Cache/AccountReload
   anchors: [src/bitxorcore/cache_core/AccountStateCacheDelta.cpp]
   digest: The bytes of an account do not depend on when it was saved and loaded between changes. -/

import BitxorCore.State.AccountStateSerializer

set_option autoImplicit false
set_option relaxedAutoImplicit false

namespace BitxorCore.Cache
open Library State State.AccountStateSerializer OrderedTokens

/-- A mutable find optimizes the currency token, which is lost by serialization. -/
def prepareMutable (currencyTokenId : OrderedTokenId) (state : StoredAccountState) :
    StoredAccountState :=
  { state with
    balances := (state.balances.optimize currencyTokenId).toOption.getD state.balances }

inductive BalanceChange where
  | credit (id : OrderedTokenId) (amount : Amount)
  | debit (id : OrderedTokenId) (amount : Amount)

/-- A change of the balances of an account that is found; one that throws changes nothing else. -/
def BalanceChange.apply (currencyTokenId : OrderedTokenId) (state : StoredAccountState) :
    BalanceChange → StoredAccountState
  | .credit id amount =>
    let found := prepareMutable currencyTokenId state
    { found with balances := (found.balances.credit id amount).getD found.balances }
  | .debit id amount =>
    let found := prepareMutable currencyTokenId state
    { found with balances := (found.balances.debit id amount).getD found.balances }

inductive AccountStep where
  | change (balance : BalanceChange)
  | reload

/-- A step of a run, which ends where an account cannot be loaded. -/
def AccountStep.apply (currencyTokenId : OrderedTokenId) (state : StoredAccountState) :
    AccountStep → Option StoredAccountState
  | .change balance => some (balance.apply currencyTokenId state)
  | .reload => (load (save state)).map Prod.fst

def AccountStep.change? : AccountStep → Option BalanceChange
  | .change balance => some balance
  | .reload => none

def changesOf (steps : List AccountStep) : List BalanceChange := steps.filterMap AccountStep.change?

def runSteps (currencyTokenId : OrderedTokenId) (state : StoredAccountState)
    (steps : List AccountStep) : Option StoredAccountState :=
  steps.foldlM (AccountStep.apply currencyTokenId) state

/-- Balances that can be saved: none is zero, and their number fits. -/
def Storable (state : StoredAccountState) : Prop :=
  (∀ token ∈ state.balances.iterate, token.2 ≠ 0) ∧ state.balances.size ≤ 65535

/-- Balances can be saved before and after each of the changes. -/
def StaysStorable (currencyTokenId : OrderedTokenId) :
    StoredAccountState → List BalanceChange → Prop
  | state, [] => Storable state
  | state, change :: rest =>
    Storable state ∧ StaysStorable currencyTokenId (change.apply currencyTokenId state) rest

/-- An account and another one that may have been reloaded: their balances stand for the same
ordered map and are listed in the same order. -/
structure Alike (state other : StoredAccountState) : Prop where
  attributes : SameAttributes other state
  balances : ∃ map first second, state.balances.Represents ⟨map, first⟩ ∧
    other.balances.Represents ⟨map, second⟩
  tokens : other.balances.tokens = state.balances.tokens

section Steps
variable {currencyTokenId : OrderedTokenId} {state other : StoredAccountState}

variable {map : OrderedMap OrderedTokenId Amount}

private theorem prepareMutable_represents {first : OrderedTokenId}
    (rep : state.balances.Represents ⟨map, first⟩) (currencyTokenId : OrderedTokenId) :
    (prepareMutable currencyTokenId state).balances.Represents ⟨map, currencyTokenId⟩ := by
  obtain ⟨next, done, same⟩ := rep.optimize currencyTokenId
  rw [prepareMutable, done]
  exact same

private theorem exists_represents_change (map : OrderedMap OrderedTokenId Amount)
    (currencyTokenId : OrderedTokenId) (change : BalanceChange) :
    ∃ next : OrderedMap OrderedTokenId Amount, ∀ (state : StoredAccountState)
      (first : OrderedTokenId), state.balances.Represents ⟨map, first⟩ →
        (change.apply currencyTokenId state).balances.Represents ⟨next, currencyTokenId⟩ := by
  let found : OrderedTokens OrderedTokenId Amount := ⟨map, currencyTokenId⟩
  cases change with
  | credit id amount =>
    refine ⟨((found.credit id amount).getD found).map, fun state first rep => ?_⟩
    have prepared := prepareMutable_represents rep currencyTokenId
    have credited := prepared.getD (prepared.credit id amount)
    have optimized : ((found.credit id amount).getD found).optimizedTokenId = currencyTokenId := by
      cases done : found.credit id amount with
      | none => rfl
      | some next => exact optimizedTokenId_credit done
    exact congrArg (mk _) optimized ▸ credited
  | debit id amount =>
    refine ⟨((found.debit id amount).getD found).map, fun state first rep => ?_⟩
    have prepared := prepareMutable_represents rep currencyTokenId
    have debited := prepared.getD (prepared.debit id amount)
    have optimized : ((found.debit id amount).getD found).optimizedTokenId = currencyTokenId := by
      cases done : found.debit id amount with
      | none => rfl
      | some next => exact optimizedTokenId_debit done
    exact congrArg (mk _) optimized ▸ debited

private theorem sameAttributes_change (currencyTokenId : OrderedTokenId) (change : BalanceChange)
    (same : SameAttributes other state) :
    SameAttributes (change.apply currencyTokenId other) (change.apply currencyTokenId state) := by
  obtain ⟨address, addressHeight, publicKey, publicKeyHeight, accountType, linked, node, vrf,
    voting, snapshots, buckets⟩ := same
  cases change <;> exact ⟨address, addressHeight, publicKey, publicKeyHeight, accountType, linked,
    node, vrf, voting, snapshots, buckets⟩

private theorem Alike.change (alike : Alike state other) (currencyTokenId : OrderedTokenId)
    (change : BalanceChange) :
    Alike (change.apply currencyTokenId state) (change.apply currencyTokenId other) := by
  obtain ⟨attributes, ⟨map, first, second, rep, otherRepresents⟩, -⟩ := alike
  obtain ⟨next, changed⟩ := exists_represents_change map currencyTokenId change
  have after := changed state first rep
  have otherAfter := changed other second otherRepresents
  refine ⟨sameAttributes_change currencyTokenId change attributes,
    ⟨next, _, _, after, otherAfter⟩, ?_⟩
  rw [after.tokens_eq, otherAfter.tokens_eq]

private theorem Alike.reload (alike : Alike state other) (orderly : Orderly state)
    (storable : Storable state) :
    ∃ loaded, (load (save other)).map Prod.fst = some loaded ∧ Alike state loaded := by
  obtain ⟨attributes, ⟨map, first, second, rep, otherRepresents⟩, tokens⟩ := alike
  obtain ⟨pos, few⟩ := storable
  rw [rep.ordered.shape.iterate_eq, ← tokens] at pos
  rw [← CompactTokenMap.length_tokens, ← tokens, CompactTokenMap.length_tokens] at few
  have loadable : Loadable other ⟨map, second⟩ :=
    ⟨orderly.of_same attributes, otherRepresents, pos, few⟩
  obtain ⟨loaded, third, done, same, still⟩ := loadable.exists_load
  refine ⟨loaded, by rw [done, Option.map_some], ?_, ⟨map, first, third, rep, still.balances⟩, ?_⟩
  · exact same.toSameAttributes.trans attributes
  · rw [← still.balances.ordered.shape.iterate_eq, same.tokens,
      otherRepresents.ordered.shape.iterate_eq, tokens]

private theorem Alike.sameContent (alike : Alike state other) : SameContent other state where
  toSameAttributes := alike.attributes
  balances id := by
    simp only [CompactTokenMap.get, CompactTokenMap.find_eq, alike.tokens]
  tokens := by
    obtain ⟨map, first, second, rep, otherRepresents⟩ := alike.balances
    rw [rep.ordered.shape.iterate_eq, otherRepresents.ordered.shape.iterate_eq, alike.tokens]
  size := by
    rw [← CompactTokenMap.length_tokens, alike.tokens, CompactTokenMap.length_tokens]

private theorem orderly_change (orderly : Orderly state) (change : BalanceChange) :
    Orderly (change.apply currencyTokenId state) := by
  obtain ⟨snapshots, buckets, voting, fewKeys⟩ := orderly
  cases change <;> exact ⟨snapshots, buckets, voting, fewKeys⟩

private theorem Alike.run (alike : Alike state other) (orderly : Orderly state)
    (steps : List AccountStep) (storable : StaysStorable currencyTokenId state (changesOf steps)) :
    ∃ final, runSteps currencyTokenId other steps = some final ∧
      Alike ((changesOf steps).foldl (BalanceChange.apply currencyTokenId) state) final := by
  induction steps generalizing state other with
  | nil => exact ⟨other, rfl, alike⟩
  | cons step rest ih =>
    cases step with
    | change balance =>
      exact ih (alike.change currencyTokenId balance) (orderly_change orderly balance) storable.2
    | reload =>
      have now : Storable state := by
        cases changes : changesOf (.reload :: rest) with
        | nil =>
          rw [changes] at storable
          exact storable
        | cons balance more =>
          rw [changes] at storable
          exact storable.1
      obtain ⟨loaded, done, still⟩ := alike.reload orderly now
      obtain ⟨final, ended, same⟩ := ih still orderly storable
      refine ⟨final, ?_, same⟩
      rw [runSteps, List.foldlM_cons, AccountStep.apply, done]
      exact ended

private theorem alike_refl {ref : OrderedTokens OrderedTokenId Amount}
    (rep : state.balances.Represents ref) : Alike state state where
  attributes := ⟨rfl, rfl, rfl, rfl, rfl, rfl, rfl, rfl, rfl, rfl, rfl⟩
  balances := ⟨ref.map, ref.optimizedTokenId, ref.optimizedTokenId, rep, rep⟩
  tokens := rfl

private theorem exists_represents_foldl
    (rep : state.balances.Represents ⟨map, currencyTokenId⟩) (changes : List BalanceChange) :
    ∃ next, (changes.foldl (BalanceChange.apply currencyTokenId) state).balances.Represents
      ⟨next, currencyTokenId⟩ := by
  induction changes generalizing state map with
  | nil => exact ⟨map, rep⟩
  | cons change rest ih =>
    obtain ⟨next, changed⟩ := exists_represents_change map currencyTokenId change
    exact ih (changed state currencyTokenId rep)

end Steps

/-- Two runs that make the same changes to an account found in the cache, and save and load it
between them when they like, end with the same bytes: the currency token first and the others in
ascending order. -/
theorem saveNonHistorical_runSteps (currencyTokenId : OrderedTokenId) (account : StoredAccountState)
    (built : Built account) (fewKeys : account.supplementalPublicKeys.voting.length ≤ 255)
    (first second : List AccountStep) (sameChanges : changesOf first = changesOf second)
    (storable : StaysStorable currencyTokenId (prepareMutable currencyTokenId account)
      (changesOf first)) :
    ∃ firstFinal secondFinal,
      runSteps currencyTokenId (prepareMutable currencyTokenId account) first = some firstFinal ∧
      runSteps currencyTokenId (prepareMutable currencyTokenId account) second = some secondFinal ∧
      saveNonHistorical firstFinal = saveNonHistorical secondFinal ∧
      ∃ map, firstFinal.balances.iterate = listing ⟨map, currencyTokenId⟩ ∧
        ∀ id, firstFinal.balances.get id = (map.lookup id).getD 0 := by
  obtain ⟨ref, rep⟩ := built.exists_represents
  have prepared := prepareMutable_represents rep currencyTokenId
  have orderly : Orderly (prepareMutable currencyTokenId account) := by
    obtain ⟨snapshots, buckets, voting, few⟩ := built.orderly fewKeys
    exact ⟨snapshots, buckets, voting, few⟩
  obtain ⟨firstFinal, firstEnds, firstAlike⟩ := (alike_refl prepared).run orderly first storable
  rw [sameChanges] at storable
  obtain ⟨secondFinal, secondEnds, secondAlike⟩ := (alike_refl prepared).run orderly second storable
  rw [← sameChanges] at secondAlike
  refine ⟨firstFinal, secondFinal, firstEnds, secondEnds,
    firstAlike.sameContent.saveNonHistorical_eq.trans
      secondAlike.sameContent.saveNonHistorical_eq.symm, ?_⟩
  obtain ⟨map, final⟩ := exists_represents_foldl prepared (changesOf first)
  refine ⟨map, ?_, fun id => ?_⟩
  · rw [firstAlike.sameContent.tokens, final.ordered.shape.iterate_eq, final.tokens_eq]
  · rw [firstAlike.sameContent.balances, final.get_eq]

theorem saveNonHistorical_runSteps_two : ∃ firstFinal secondFinal,
      runSteps 8 (prepareMutable 8 (.create 1 2))
        [.change (.credit 7 5), .reload, .change (.credit 8 3)] = some firstFinal ∧
      runSteps 8 (prepareMutable 8 (.create 1 2))
        [.change (.credit 7 5), .change (.credit 8 3), .reload] = some secondFinal ∧
      saveNonHistorical firstFinal = saveNonHistorical secondFinal ∧
      ∃ map, firstFinal.balances.iterate = listing ⟨map, 8⟩ ∧
        ∀ id, firstFinal.balances.get id = (map.lookup id).getD 0 := by
  refine saveNonHistorical_runSteps 8 (.create 1 2) ⟨⟨[], by simp, rfl⟩, ⟨[], by simp, rfl⟩,
    ⟨[], by simp, rfl⟩, ⟨[], rfl⟩, positive_of_all (by decide)⟩ (by decide) _ _ rfl ?_
  exact ⟨⟨positive_of_all (by decide +kernel), by decide +kernel⟩,
    ⟨positive_of_all (by decide +kernel), by decide +kernel⟩,
    ⟨positive_of_all (by decide +kernel), by decide +kernel⟩⟩

/-- A credit that brings a balance to zero leaves a token that is not loaded. -/
theorem saveNonHistorical_runSteps_wraps : (runSteps 8 (prepareMutable 8 (.create 1 2))
        [.change (.credit 7 1), .change (.credit 7 (-1))]).map saveNonHistorical ≠
      (runSteps 8 (prepareMutable 8 (.create 1 2))
        [.change (.credit 7 1), .change (.credit 7 (-1)), .reload]).map saveNonHistorical := by
  decide +kernel

end BitxorCore.Cache
