import Brace.Balances.Machine

/-!
# What a mutation stores

The result of `try_mutate_account` in closed form (`stored`), and what the dust handler does with
the dust of an account. All of it holds in storages without dust (`NoDust`): every record is
empty or has at least the existential deposit.
-/

namespace Brace.Balances

open Brace.Lib Config

variable {AccountId : Type} {Result Failure : Type} {config : Config AccountId}

variable (data : AccountData)

/-- What an account holds, without saturation. -/
def AccountData.worth : Nat :=
  data.free + data.reserved

/-- The two frozen amounts of an account. -/
def AccountData.frozenAmounts : Nat × Nat :=
  (data.miscFrozen, data.feeFrozen)

section

variable (config : Config AccountId)

theorem Config.total_lt_iff :
    config.total data < config.existentialDeposit ↔ data.worth < config.existentialDeposit := by
  have fits := config.deposit_fits
  unfold total saturatingAdd AccountData.worth
  omega

theorem Config.le_total_iff :
    config.existentialDeposit ≤ config.total data ↔ config.existentialDeposit ≤ data.worth := by
  rw [← not_lt, ← not_lt, config.total_lt_iff]

theorem Config.total_eq_zero_iff : config.total data = 0 ↔ data.worth = 0 := by
  have fits := config.deposit_fits
  have pos := config.deposit_positive
  unfold total saturatingAdd AccountData.worth
  omega

end

variable {failure : Failure} {result left right : Nat}

theorem ensure_eq_ok {condition : Prop} [Decidable condition] {result : Unit} :
    ensure condition failure = .ok result ↔ condition := by
  unfold ensure
  split <;> simp_all

theorem checkedSub_eq_ok :
    checkedSub left right failure = .ok result ↔ right ≤ left ∧ result = left - right := by
  unfold checkedSub
  split <;> simp_all [eq_comm]

theorem Config.checkedAdd_eq_ok :
    config.checkedAdd left right failure = .ok result ↔
      left + right ≤ config.maxValue ∧ result = left + right := by
  unfold checkedAdd
  split <;> simp_all [eq_comm]

variable [DecidableEq AccountId] {state : Storage AccountId} {who : AccountId}
  {onDust : Nat → Storage AccountId → Storage AccountId} {value : Nat}

namespace Storage

/-! ## Reads after a write -/

theorem data_write (state : Storage AccountId) (who other : AccountId) (refcount : Nat)
    (kept : Option AccountData) :
    (state.write who refcount kept).data other =
      if other = who then kept.getD {} else state.data other := by
  cases kept with
  | some data =>
    simp only [Storage.data, write, HashMap.lookup_insert_eq]
    split <;> rfl
  | none =>
    simp only [Storage.data, write, HashMap.lookup_erase_eq]
    split <;> rfl

theorem lookup_write_of_ne (state : Storage AccountId) {who other : AccountId} (refcount : Nat)
    (kept : Option AccountData) (ne : other ≠ who) :
    (state.write who refcount kept).account.lookup other =
      state.account.lookup other := by
  cases kept with
  | some data => simp [write, ne]
  | none => simp [write, ne]

theorem lookup_write_self (state : Storage AccountId) (who : AccountId) (refcount : Nat)
    (kept : Option AccountData) :
    (state.write who refcount kept).account.lookup who =
      kept.map fun data => { refcount, data } := by
  cases kept with
  | some data => simp [write]
  | none => simp [write]

@[simp] theorem locks_write (state : Storage AccountId) (who : AccountId) (refcount : Nat)
    (kept : Option AccountData) : (state.write who refcount kept).locks = state.locks := by
  cases kept <;> rfl

/-! ## The closed form of a mutation -/

/-- Store the new data of an account: its record is removed when it is dust, and the dust goes
to the handler first. -/
def storedWith (config : Config AccountId)
    (onDust : Nat → Storage AccountId → Storage AccountId) (who : AccountId) (refcount : Nat)
    (new : AccountData) (state : Storage AccountId) : Storage AccountId :=
  let posted := postMutation config onDust new state
  posted.2.write who refcount posted.1

/-- Store the new data of an account, with the handler of the configuration. -/
def stored (config : Config AccountId) (who : AccountId) (refcount : Nat) (new : AccountData)
    (state : Storage AccountId) : Storage AccountId :=
  storedWith config (onUnbalanced config) who refcount new state

variable
  {f : AccountData → Storage AccountId → Except Failure (Result × AccountData × Storage AccountId)}
  {result : Result} {after : Storage AccountId} {new : AccountData} {amount : Nat}

theorem tryMutateAccountWith_eq_ok :
    tryMutateAccountWith config onDust who f state = .ok (result, after) ↔
      ∃ account mid, f (state.data who) state = .ok (result, account, mid) ∧
        after = mid.storedWith config onDust who (state.refs who) account := by
  unfold tryMutateAccountWith tryMutateExists
  simp only [bind_eq_ok, pure, Except.pure, Except.ok.injEq, Prod.mk.injEq, Prod.exists]
  constructor
  · rintro ⟨_, kept, last, ⟨_, account, mid, ran, rfl, rfl, rfl⟩, rfl, rfl⟩
    exact ⟨account, mid, ran, rfl⟩
  · rintro ⟨account, mid, ran, rfl⟩
    exact ⟨_, _, _, ⟨_, account, mid, ran, rfl, rfl, rfl⟩, rfl, rfl⟩

theorem tryMutateAccountWith_eq_error {failure : Failure}
    (fails : f (state.data who) state = .error failure) :
    tryMutateAccountWith config onDust who f state = .error failure := by
  have closure : f (((state.account.lookup who).map (·.data)).getD {}) state =
      .error failure := fails
  simp only [tryMutateAccountWith, tryMutateExists, closure, error_bind]

theorem tryMutateAccount_eq_ok :
    tryMutateAccount config who f state = .ok (result, after) ↔
      ∃ account mid, f (state.data who) state = .ok (result, account, mid) ∧
        after = mid.stored config who (state.refs who) account :=
  tryMutateAccountWith_eq_ok

theorem mutateAccount_eq
    (f : AccountData → Storage AccountId → Result × AccountData × Storage AccountId) :
    mutateAccount config who f state =
      ((f (state.data who) state).1,
        (f (state.data who) state).2.2.stored config who (state.refs who)
          (f (state.data who) state).2.1) := by
  have returns : (tryMutateAccount config who (fun account state => .ok (f account state)) state :
      Except Empty _) = .ok (_, _) := tryMutateAccount_eq_ok.mpr ⟨_, _, rfl, rfl⟩
  unfold mutateAccount
  simp only [returns]

variable (refcount : Nat)

theorem storedWith_of_rich (rich : config.existentialDeposit ≤ new.worth) :
    state.storedWith config onDust who refcount new = state.write who refcount (some new) := by
  have kept : ¬ config.total new < config.existentialDeposit := by
    rw [config.total_lt_iff]
    omega
  simp [storedWith, postMutation, kept]

theorem storedWith_of_empty (empty : new.worth = 0) :
    state.storedWith config onDust who refcount new = state.write who refcount none := by
  have none : config.total new = 0 := (config.total_eq_zero_iff new).mpr empty
  simp [storedWith, postMutation, none, config.deposit_positive]

theorem stored_of_dust (nonzero : new.worth ≠ 0) (dust : new.worth < config.existentialDeposit) :
    state.stored config who refcount new =
      (state.onUnbalanced config new.worth).write who refcount none := by
  have low : config.total new < config.existentialDeposit := (config.total_lt_iff new).mpr dust
  have same : config.total new = new.worth := by
    have fits := config.deposit_fits
    unfold total saturatingAdd
    unfold AccountData.worth at dust ⊢
    omega
  rw [stored, storedWith, postMutation, if_pos low, if_neg (by rwa [same]), same]

/-! ## Deposits and the handler of the dust -/

/-- Every account is blank or has the existential deposit. -/
def NoDust (config : Config AccountId) (state : Storage AccountId) : Prop :=
  ∀ who, state.data who = {} ∨ config.existentialDeposit ≤ (state.data who).worth

/-- Whether a deposit goes through: it is enough for a new account, or the account exists, and
the sum is a balance. -/
def Accepts (config : Config AccountId) (state : Storage AccountId) (who : AccountId)
    (value : Nat) : Prop :=
  (config.existentialDeposit ≤ value ∨ (state.data who).worth ≠ 0) ∧
    (state.data who).free + value ≤ config.maxValue

instance : Decidable (Accepts config state who value) :=
  inferInstanceAs (Decidable (_ ∧ _))

/-- The storage after a deposit that went through. -/
def credit (who : AccountId) (value : Nat) (state : Storage AccountId) : Storage AccountId :=
  state.write who (state.refs who)
    (some { state.data who with free := (state.data who).free + value })

variable (noDust : NoDust config state)

include noDust

theorem rich_of_credit (enough : config.existentialDeposit ≤ value ∨ (state.data who).worth ≠ 0) :
    config.existentialDeposit ≤
      ({ state.data who with free := (state.data who).free + value } : AccountData).worth := by
  have old := noDust who
  unfold AccountData.worth at old enough ⊢
  rcases old with blank | rich
  · simp only [blank] at enough ⊢
    omega
  · simp only
    omega

/-- A deposit never leaves dust: it is credited, or it does nothing. -/
theorem depositCreatingWith_eq (nonzero : value ≠ 0) :
    depositCreatingWith config onDust who value state =
      if Accepts config state who value then (value, state.credit who value) else (0, state) := by
  have funded : config.total (state.data who) ≠ 0 ↔ (state.data who).worth ≠ 0 :=
    not_congr (config.total_eq_zero_iff (state.data who))
  have closure : (do
      ensure (config.existentialDeposit ≤ value ∨ config.total (state.data who) ≠ 0) 0
      let free ← config.checkedAdd (state.data who).free value 0
      return (value, { state.data who with free }, state) : Except Nat _) =
      if Accepts config state who value then
        .ok (value, { state.data who with free := (state.data who).free + value }, state)
      else .error 0 := by
    simp only [ensure, checkedAdd, funded]
    by_cases enough : config.existentialDeposit ≤ value ∨ (state.data who).worth ≠ 0
    · rw [if_pos enough, ok_bind]
      simp only [Accepts, and_iff_right enough]
      split <;> rfl
    · rw [if_neg enough, error_bind, if_neg fun accepted => enough accepted.1]
  unfold depositCreatingWith
  rw [if_neg nonzero]
  by_cases accepted : Accepts config state who value
  · rw [if_pos accepted] at closure ⊢
    rw [tryMutateAccountWith_eq_ok.mpr ⟨_, _, closure, rfl⟩]
    exact congrArg (Prod.mk value) (storedWith_of_rich _ (rich_of_credit noDust accepted.1))
  · rw [if_neg accepted] at closure ⊢
    rw [tryMutateAccountWith_eq_error closure]

/-- What the handler does with dust: it is credited to the target, or dropped. -/
theorem onUnbalanced_eq (nonzero : amount ≠ 0) :
    state.onUnbalanced config amount =
      match config.dustRemoval with
      | none => state.dropNegative amount
      | some target =>
        if Accepts config state target amount then state.credit target amount
        else state.dropNegative amount := by
  unfold onUnbalanced
  cases config.dustRemoval with
  | none => rfl
  | some target =>
    simp only [resolveCreatingWith, depositCreatingWith_eq noDust nonzero]
    split
    · simp [dropOffset, dropNegative]
    · simp [dropOffset]

end Storage

end Brace.Balances
