import Brace.Balances.Mutation

/-!
# The outcome of each currency function

For every function that changes an account: when it returns, what it checked, and which data it
stored. Later proofs use these lemmas and do not unfold the functions.
-/

namespace Brace.Balances

open Brace.Lib

variable {AccountId : Type} [DecidableEq AccountId] {config : Config AccountId}
  {state after : Storage AccountId} {who : AccountId} {value : Nat}

namespace Storage

variable {reasons : WithdrawReasons} {transactor dest : AccountId}
  {existence : ExistenceRequirement} {imbalance : Nat}

/-- A transfer that returned: the destination can exist, and the two records stored. -/
theorem transfer_eq_ok (nonzero : value ≠ 0) (differ : transactor ≠ dest)
    (ran : state.transfer config transactor dest value existence = .ok after) :
    let source := state.data transactor
    let target := state.data dest
    config.existentialDeposit ≤ { target with free := target.free + value : AccountData }.worth ∧
      after = (state.stored config transactor (state.refs transactor)
          { source with free := source.free - value }).write dest (state.refs dest)
          (some { target with free := target.free + value }) := by
  intro source target
  rw [transfer, if_neg (not_or.mpr ⟨nonzero, differ⟩)] at ran
  simp only [bind_eq_ok, Prod.exists, pure, Except.pure, Except.ok.injEq] at ran
  obtain ⟨_, last, outer, rfl⟩ := ran
  obtain ⟨toAccount, mid, inner, rfl⟩ := tryMutateAccount_eq_ok.mp outer
  simp only [bind_eq_ok, Prod.exists, Except.ok.injEq, Prod.mk.injEq] at inner
  obtain ⟨_, _, mutated, -, rfl, rfl⟩ := inner
  obtain ⟨fromAccount, start, closure, rfl⟩ := tryMutateAccount_eq_ok.mp mutated
  simp only [bind_eq_ok, Except.ok.injEq, Prod.mk.injEq, ensure_eq_ok, checkedSub_eq_ok,
    Config.checkedAdd_eq_ok, config.le_total_iff] at closure
  obtain ⟨_, ⟨-, rfl⟩, _, ⟨-, rfl⟩, _, rich, _, -, _, -, rfl, rfl, rfl⟩ := closure
  exact ⟨rich, storedWith_of_rich _ rich⟩

/-- A withdrawal that returned: the record it stored. -/
theorem withdraw_eq_ok {liveness : ExistenceRequirement} (nonzero : value ≠ 0)
    (ran : state.withdraw config who value reasons liveness = .ok (imbalance, after)) :
    after = state.stored config who (state.refs who)
      { state.data who with free := (state.data who).free - value } := by
  rw [withdraw, if_neg nonzero] at ran
  obtain ⟨new, mid, closure, rfl⟩ := tryMutateAccount_eq_ok.mp ran
  simp only [bind_eq_ok, pure, Except.pure, Except.ok.injEq, Prod.mk.injEq, ensure_eq_ok,
    checkedSub_eq_ok] at closure
  obtain ⟨_, ⟨-, rfl⟩, _, -, _, -, rfl, rfl, rfl⟩ := closure
  rfl

/-- The data of an account after a slash: free balance first, then reserved. -/
def slashedData (account : AccountData) (value : Nat) : AccountData :=
  { account with
    free := account.free - value
    reserved := account.reserved - (value - account.free) }

theorem slash_eq (nonzero : value ≠ 0) : let account := state.data who
    state.slash config who value =
      ((min account.worth value, value - account.worth),
        state.stored config who (state.refs who) (slashedData account value)) := by
  dsimp only
  rw [slash, if_neg nonzero, mutateAccount_eq]
  dsimp only
  split
  all_goals
    simp only [slashedData, AccountData.worth, Prod.mk.injEq]
    refine ⟨⟨by omega, by omega⟩, congrArg (stored config who _ · state) ?_⟩
    ext <;> simp only <;> omega

theorem depositIntoExisting_eq_ok (noDust : NoDust config state) (nonzero : value ≠ 0)
    (ran : state.depositIntoExisting config who value = .ok (imbalance, after)) :
    (state.data who).worth ≠ 0 ∧ after = state.credit who value := by
  rw [depositIntoExisting, if_neg nonzero] at ran
  obtain ⟨new, mid, closure, rfl⟩ := tryMutateAccount_eq_ok.mp ran
  simp only [bind_eq_ok, pure, Except.pure, Except.ok.injEq, Prod.mk.injEq, ensure_eq_ok,
    Config.checkedAdd_eq_ok, ne_eq, config.total_eq_zero_iff] at closure
  obtain ⟨_, alive, _, ⟨-, rfl⟩, rfl, rfl, rfl⟩ := closure
  exact ⟨alive, storedWith_of_rich _ (rich_of_credit noDust (.inr alive))⟩

theorem makeFreeBalanceBe_eq : let account := state.data who
    state.makeFreeBalanceBe config who value = (.positive 0, state) ∨
      state.makeFreeBalanceBe config who value =
        (if account.free ≤ value then .positive (value - account.free)
          else .negative (account.free - value),
        state.stored config who (state.refs who) { account with free := value }) := by
  intro account
  unfold makeFreeBalanceBe
  cases made : (tryMutateAccount config who _ state : Except Unit _) with
  | error failure => exact .inl rfl
  | ok result =>
    obtain ⟨imbalance, after⟩ := result
    obtain ⟨new, mid, closure, rfl⟩ := tryMutateAccount_eq_ok.mp made
    simp only [bind_eq_ok, pure, Except.pure, Except.ok.injEq, Prod.mk.injEq] at closure
    obtain ⟨_, -, rfl, rfl, rfl⟩ := closure
    exact .inr rfl

/-- The balances that `set_balance` sets: none at all when they are below the existential
deposit. -/
def wipedBalances (config : Config AccountId) (newFree newReserved : Nat) : Nat × Nat :=
  if config.wrappingAdd newFree newReserved < config.existentialDeposit then (0, 0)
  else (newFree, newReserved)

theorem setBalance_eq (newFree newReserved : Nat) : let account := state.data who
    let new := wipedBalances config newFree newReserved
    state.setBalance config who newFree newReserved =
      ((state.square config account.free new.1).square config account.reserved new.2).stored
        config who (state.refs who) { account with free := new.1, reserved := new.2 } := by
  intro account new
  rw [setBalance, mutateAccount_eq]
  simp only [new, wipedBalances]
  split <;> rfl

variable (nonzero : value ≠ 0)

include nonzero

/-- A reservation that returned: the record it stored. -/
theorem reserve_eq_ok (ran : state.reserve config who value = .ok after) :
    let account := state.data who
    value ≤ account.free ∧ after = state.stored config who (state.refs who)
      { account with free := account.free - value, reserved := account.reserved + value } := by
  intro account
  rw [reserve, if_neg nonzero] at ran
  simp only [bind_eq_ok, Prod.exists, pure, Except.pure, Except.ok.injEq] at ran
  obtain ⟨_, _, mutated, rfl⟩ := ran
  obtain ⟨new, mid, closure, rfl⟩ := tryMutateAccount_eq_ok.mp mutated
  simp only [bind_eq_ok, Except.ok.injEq, Prod.mk.injEq, checkedSub_eq_ok,
    Config.checkedAdd_eq_ok] at closure
  obtain ⟨_, ⟨enough, rfl⟩, _, ⟨-, rfl⟩, _, -, -, rfl, rfl⟩ := closure
  exact ⟨enough, rfl⟩

/-- A repatriation between two accounts that returned: the two records it stored. -/
theorem repatriateReserved_eq_ok {slashed beneficiary : AccountId} {status : Status} {left : Nat}
    (differ : slashed ≠ beneficiary)
    (ran : state.repatriateReserved config slashed beneficiary value status =
      .ok (left, after)) : let source := state.data slashed
    let target := state.data beneficiary
    let actual := min source.reserved value
    target.worth ≠ 0 ∧ ∃ new : AccountData, new.frozenAmounts = target.frozenAmounts ∧
      after = (state.stored config slashed (state.refs slashed)
          { source with reserved := source.reserved - actual }).stored config beneficiary
          (state.refs beneficiary) new := by
  intro source target actual
  unfold repatriateReserved at ran
  rw [if_neg nonzero, if_neg differ] at ran
  obtain ⟨toAccount, mid, outer, rfl⟩ := tryMutateAccount_eq_ok.mp ran
  simp only [bind_eq_ok, Prod.exists, pure, Except.pure, Except.ok.injEq, Prod.mk.injEq,
    ensure_eq_ok, ne_eq, config.total_eq_zero_iff] at outer
  obtain ⟨_, alive, _, _, _, mutated, rfl, rfl, rfl⟩ := outer
  obtain ⟨fromAccount, start, closure, rfl⟩ := tryMutateAccount_eq_ok.mp mutated
  refine ⟨alive, ?_⟩
  cases status with
  | free =>
    simp only [bind_eq_ok, Except.ok.injEq, Prod.mk.injEq, Config.checkedAdd_eq_ok] at closure
    obtain ⟨_, ⟨-, rfl⟩, _, rfl, ⟨-, rfl⟩, rfl, rfl⟩ := closure
    exact ⟨{ target with free := target.free + actual }, rfl, rfl⟩
  | reserved =>
    simp only [bind_eq_ok, Except.ok.injEq, Prod.mk.injEq, Config.checkedAdd_eq_ok] at closure
    obtain ⟨_, ⟨-, rfl⟩, _, rfl, ⟨-, rfl⟩, rfl, rfl⟩ := closure
    exact ⟨{ target with reserved := target.reserved + actual }, rfl, rfl⟩

end Storage

end Brace.Balances
