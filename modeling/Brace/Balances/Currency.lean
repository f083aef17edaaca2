import Brace.Balances.Storage

/-!
# The currency functions of the balances pallet

`Currency`, `ReservableCurrency` and `LockableCurrency` of `frame/balances/src/lib.rs`, and the
call `set_balance`. A function that returns an imbalance returns its amount; an error leaves the
storage as it was. The calls `transfer`, `force_transfer` and `transfer_keep_alive` are
`Currency::transfer` after a check of the origin.
-/

namespace Brace.Balances

open Brace.Lib

/-- `ExistenceRequirement`. -/
inductive ExistenceRequirement
  | keepAlive
  | allowDeath
deriving DecidableEq

/-- `BalanceStatus`. -/
inductive Status
  | free
  | reserved
deriving DecidableEq

/-- `SignedImbalance`. -/
inductive SignedImbalance
  /-- Funds have been created but none destroyed. -/
  | positive (amount : Nat)
  /-- Funds have been destroyed but none created. -/
  | negative (amount : Nat)
deriving DecidableEq

variable {AccountId : Type} [DecidableEq AccountId]

namespace Storage

/-! ## `Currency` -/

variable (config : Config AccountId)

/-- `Currency::burn`. -/
def burn (amount : Nat) (state : Storage AccountId) : Nat × Storage AccountId :=
  if amount = 0 then (0, state)
  else if amount ≤ state.totalIssuance then
    (amount, { state with totalIssuance := state.totalIssuance - amount })
  else
    (state.totalIssuance, { state with totalIssuance := 0 })

/-- `Currency::issue`. -/
def issue (amount : Nat) (state : Storage AccountId) : Nat × Storage AccountId :=
  if amount = 0 then (0, state)
  else if state.totalIssuance + amount ≤ config.maxValue then
    (amount, { state with totalIssuance := state.totalIssuance + amount })
  else
    (config.maxValue - state.totalIssuance, { state with totalIssuance := config.maxValue })

/-- `Currency::ensure_can_withdraw`. -/
def ensureCanWithdraw (who : AccountId) (amount : Nat) (reasons : WithdrawReasons)
    (newBalance : Nat) (state : Storage AccountId) : Except Error Unit :=
  if amount = 0 then
    .ok ()
  else
    ensure ((state.data who).frozen (.ofWithdrawReasons reasons) ≤ newBalance)
      .liquidityRestrictions

/-- `Currency::transfer`. -/
def transfer (transactor dest : AccountId) (value : Nat)
    (existenceRequirement : ExistenceRequirement) (state : Storage AccountId) :
    Except Error (Storage AccountId) :=
  if value = 0 ∨ transactor = dest then
    .ok state
  else do
    let (_, state) ← tryMutateAccount config dest
      (fun toAccount state => do
        let (toAccount, state) ← tryMutateAccount config transactor
          (fun fromAccount state => do
            let fromFree ← checkedSub fromAccount.free value Error.insufficientBalance
            let toFree ← config.checkedAdd toAccount.free value Error.overflow
            let toAccount := { toAccount with free := toFree }
            ensure (config.existentialDeposit ≤ config.total toAccount) Error.existentialDeposit
            state.ensureCanWithdraw transactor value {.transfer} fromFree
            let allowDeath := existenceRequirement = .allowDeath ∧ state.allowDeath transactor
            ensure (allowDeath ∨ config.existentialDeposit ≤ fromFree) Error.keepAlive
            return (toAccount, { fromAccount with free := fromFree }, state))
          state
        return ((), toAccount, state))
      state
    return state

variable (who : AccountId)

variable (value : Nat)

variable (state : Storage AccountId)

/-- `Currency::slash`. Returns the amount of the negative imbalance and what could not be
slashed. -/
def slash : (Nat × Nat) × Storage AccountId :=
  if value = 0 then
    ((0, 0), state)
  else
    mutateAccount config who
      (fun account state =>
        let freeSlash := min account.free value
        let account := { account with free := account.free - freeSlash }
        let remainingSlash := value - freeSlash
        if remainingSlash ≠ 0 then
          let reservedSlash := min account.reserved remainingSlash
          let account := { account with reserved := account.reserved - reservedSlash }
          ((freeSlash + reservedSlash, remainingSlash - reservedSlash), account, state)
        else
          ((value, 0), account, state))
      state

/-- `Currency::deposit_into_existing`. -/
def depositIntoExisting : Except Error (Nat × Storage AccountId) :=
  if value = 0 then
    .ok (0, state)
  else
    tryMutateAccount config who
      (fun account state => do
        ensure (config.total account ≠ 0) Error.deadAccount
        let free ← config.checkedAdd account.free value Error.overflow
        return (value, { account with free }, state))
      state

/-- `Currency::deposit_creating`. -/
def depositCreating : Nat × Storage AccountId :=
  depositCreatingWith config (onUnbalanced config) who value state

/-- `Currency::withdraw`. -/
def withdraw (reasons : WithdrawReasons) (liveness : ExistenceRequirement)
    (state : Storage AccountId) : Except Error (Nat × Storage AccountId) :=
  if value = 0 then
    .ok (0, state)
  else
    tryMutateAccount config who
      (fun account state => do
        let newFree ← checkedSub account.free value Error.insufficientBalance
        let wouldBeDead :=
          config.wrappingAdd newFree account.reserved < config.existentialDeposit
        let wouldKill := wouldBeDead ∧
          config.existentialDeposit ≤ config.wrappingAdd account.free account.reserved
        ensure (liveness = .allowDeath ∨ ¬ wouldKill) Error.keepAlive
        state.ensureCanWithdraw who value reasons newFree
        return (value, { account with free := newFree }, state))
      state

/-- `Currency::make_free_balance_be`. -/
def makeFreeBalanceBe : SignedImbalance × Storage AccountId :=
  let made : Except Unit (SignedImbalance × Storage AccountId) := tryMutateAccount config who
    (fun account state => do
      ensure (config.existentialDeposit ≤ config.wrappingAdd value account.reserved ∨
        config.total account ≠ 0) ()
      let imbalance :=
        if account.free ≤ value then SignedImbalance.positive (value - account.free)
        else .negative (account.free - value)
      return (imbalance, { account with free := value }, state))
    state
  match made with
  | .ok result => result
  | .error () => (.positive 0, state)

/-- `Currency::resolve_into_existing`. An error gives the imbalance back. -/
def resolveIntoExisting (amount : Nat) (state : Storage AccountId) :
    Except Nat (Storage AccountId) :=
  match state.depositIntoExisting config who amount with
  | .ok (opposite, state) => .ok (state.dropOffset config amount opposite)
  | .error _ => .error amount

/-- `Currency::resolve_creating`. -/
def resolveCreating (amount : Nat) (state : Storage AccountId) : Storage AccountId :=
  resolveCreatingWith config (onUnbalanced config) who amount state

/-- `Currency::settle`. An error gives the imbalance back. -/
def settle (amount : Nat) (reasons : WithdrawReasons) (liveness : ExistenceRequirement)
    (state : Storage AccountId) : Except Nat (Storage AccountId) :=
  match state.withdraw config who amount reasons liveness with
  | .ok (opposite, state) =>
    .ok (if opposite ≤ amount then state.dropPositive config (amount - opposite)
      else state.dropNegative (opposite - amount))
  | .error _ => .error amount

/-- Drop the imbalance of a balance that `set_balance` moves from `old` to `new`. -/
def square (old new : Nat) (state : Storage AccountId) : Storage AccountId :=
  if old < new then state.dropPositive config (new - old)
  else if new < old then state.dropNegative (old - new)
  else state

/-- The call `set_balance`. -/
def setBalance (newFree newReserved : Nat) (state : Storage AccountId) : Storage AccountId :=
  let wipeout := config.wrappingAdd newFree newReserved < config.existentialDeposit
  let newFree := if wipeout then 0 else newFree
  let newReserved := if wipeout then 0 else newReserved
  (mutateAccount config who
    (fun account state =>
      let state := state.square config account.free newFree
      let state := state.square config account.reserved newReserved
      ((), { account with free := newFree, reserved := newReserved }, state))
    state).2

/-! ## `ReservableCurrency` -/

/-- `ReservableCurrency::reserve`. -/
def reserve : Except Error (Storage AccountId) :=
  if value = 0 then
    .ok state
  else do
    let (_, state) ← tryMutateAccount config who
      (fun account state => do
        let free ← checkedSub account.free value Error.insufficientBalance
        let reserved ← config.checkedAdd account.reserved value Error.overflow
        state.ensureCanWithdraw who value {.reserve} free
        return ((), { account with free, reserved }, state))
      state
    return state

/-- `ReservableCurrency::unreserve`. Returns what could not be unreserved. -/
def unreserve : Nat × Storage AccountId :=
  if value = 0 then
    (0, state)
  else
    mutateAccount config who
      (fun account state =>
        let actual := min account.reserved value
        (value - actual,
          { account with
            reserved := account.reserved - actual
            free := config.saturatingAdd account.free actual },
          state))
      state

/-- `ReservableCurrency::slash_reserved`. -/
def slashReserved : (Nat × Nat) × Storage AccountId :=
  if value = 0 then
    ((0, 0), state)
  else
    mutateAccount config who
      (fun account state =>
        let actual := min account.reserved value
        ((actual, value - actual), { account with reserved := account.reserved - actual }, state))
      state

/-- `ReservableCurrency::repatriate_reserved`. Returns what could not be moved. -/
def repatriateReserved (slashed beneficiary : AccountId) (value : Nat) (status : Status)
    (state : Storage AccountId) : Except Error (Nat × Storage AccountId) :=
  if value = 0 then
    .ok (0, state)
  else if slashed = beneficiary then
    match status with
    | .free => .ok (state.unreserve config slashed value)
    | .reserved => .ok (value - (state.data slashed).reserved, state)
  else
    tryMutateAccount config beneficiary
      (fun toAccount state => do
        ensure (config.total toAccount ≠ 0) Error.deadAccount
        let ((left, toAccount), state) ← tryMutateAccount config slashed
          (fun fromAccount state => do
            let actual := min fromAccount.reserved value
            let toAccount ← match status with
              | .free => do
                let free ← config.checkedAdd toAccount.free actual Error.overflow
                pure { toAccount with free }
              | .reserved => do
                let reserved ← config.checkedAdd toAccount.reserved actual Error.overflow
                pure { toAccount with reserved }
            return ((value - actual, toAccount),
              { fromAccount with reserved := fromAccount.reserved - actual }, state))
          state
        return (left, toAccount, state))
      state

/-! ## `LockableCurrency` -/

/-- `Account::mutate(who, |a| a.refcount = refcount)`: a missing record is created. -/
def setRefs (refcount : Nat) (state : Storage AccountId) : Storage AccountId :=
  { state with
    account := Finmap.insert who { refcount, data := state.data who } state.account }

/-- `system::Module::inc_ref`. -/
def incRef : Storage AccountId :=
  state.setRefs who (min 255 (state.refs who + 1))

/-- `system::Module::dec_ref`. -/
def decRef : Storage AccountId :=
  state.setRefs who (state.refs who - 1)

/-- The fold of `update_locks` over the locks that are about one kind of withdrawal. -/
def frozenBy (locks : List BalanceLock) (kind : Reasons) : Nat :=
  locks.foldl
    (fun frozen lock =>
      if lock.reasons = .all ∨ lock.reasons = kind then max frozen lock.amount else frozen)
    0

/-- `Module::update_locks`. -/
def updateLocks (locks : List BalanceLock) (state : Storage AccountId) : Storage AccountId :=
  let (_, state) := mutateAccount config who
    (fun account state =>
      ((), { account with miscFrozen := frozenBy locks .misc, feeFrozen := frozenBy locks .fee },
        state))
    state
  let existed := who ∈ state.locks
  if locks = [] then
    let state := { state with locks := Finmap.erase who state.locks }
    if existed then state.decRef who else state
  else
    let state := { state with locks := Finmap.insert who locks state.locks }
    if existed then state else state.incRef who

/-- Replace the first lock with the new lock's identifier, drop the others with it, and append
the new lock if there was none: the `filter_map` of `set_lock` and `extend_lock`. -/
def placeLock (new : BalanceLock) (combine : BalanceLock → BalanceLock → BalanceLock) :
    List BalanceLock → List BalanceLock
  | [] => [new]
  | lock :: rest =>
    if lock.id = new.id then
      combine lock new :: rest.filter (·.id ≠ new.id)
    else
      lock :: placeLock new combine rest

/-- `LockableCurrency::set_lock`. -/
def setLock (id : LockIdentifier) (who : AccountId) (amount : Nat) (reasons : WithdrawReasons)
    (state : Storage AccountId) : Storage AccountId :=
  if amount = 0 ∨ reasons = ∅ then
    state
  else
    let new : BalanceLock := { id, amount, reasons := .ofWithdrawReasons reasons }
    state.updateLocks config who (placeLock new (fun _ new => new) (state.locksOf who))

/-- `LockableCurrency::extend_lock`. -/
def extendLock (id : LockIdentifier) (who : AccountId) (amount : Nat) (reasons : WithdrawReasons)
    (state : Storage AccountId) : Storage AccountId :=
  if amount = 0 ∨ reasons = ∅ then
    state
  else
    let new : BalanceLock := { id, amount, reasons := .ofWithdrawReasons reasons }
    let combine (lock new : BalanceLock) : BalanceLock :=
      { id := lock.id
        amount := max lock.amount new.amount
        reasons := lock.reasons.bitor new.reasons }
    state.updateLocks config who (placeLock new combine (state.locksOf who))

/-- `LockableCurrency::remove_lock`. -/
def removeLock (id : LockIdentifier) (who : AccountId) (state : Storage AccountId) :
    Storage AccountId :=
  state.updateLocks config who ((state.locksOf who).filter (·.id ≠ id))

/-- `IsDeadAccount::is_dead_account`: the account store has no record. -/
def isDeadAccount (who : AccountId) : Bool :=
  who ∉ state.account

end Storage

end Brace.Balances
