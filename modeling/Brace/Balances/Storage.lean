import Brace.Lib.HashMap
import Brace.Lib.Run

/-!
# The storage of the balances pallet and its account mutations

`frame/balances/src/lib.rs` over the account store of `frame/system/src/lib.rs`: an account record
holds the balances of an account and a reference count. It is written back in one place,
`try_mutate_account`, which drops the record of an account below the existential deposit and
hands the rest (the dust) to a handler. The record is read before the closure runs and written
after the handler, so what these store in it in between is overwritten.

A handler drops the imbalance or deposits it into an account. The deposit is itself a mutation;
the dust that it could leave is dropped here, but there is none (`depositCreatingWith_eq`).

Balances are naturals below a maximal value; a plain `+` of the source wraps around.
-/

namespace Brace.Balances

open Brace.Lib

/-- The types and constants of the pallet's configuration. -/
structure Config (AccountId : Type) where
  maxValue : Nat
  existentialDeposit : Nat
  /-- `DustRemoval`: the account that the dust is deposited into, `none` when it is dropped. -/
  dustRemoval : Option AccountId
  /-- The genesis build asserts that the existential deposit is not zero. -/
  deposit_positive : 0 < existentialDeposit
  deposit_fits : existentialDeposit ≤ maxValue

/-- The errors of the pallet that the modelled calls return. -/
inductive Error
  | liquidityRestrictions
  | overflow
  | insufficientBalance
  | existentialDeposit
  | keepAlive
  | deadAccount
deriving DecidableEq

/-- `Reasons`: simplified reasons for withdrawing balance. -/
inductive Reasons
  | fee
  | misc
  | all
deriving DecidableEq

/-- `WithdrawReason`: the flags of the mask `WithdrawReasons`. -/
inductive WithdrawReason
  | transactionPayment
  | transfer
  | reserve
  | fee
  | tip
deriving DecidableEq

/-- `WithdrawReasons`. -/
abbrev WithdrawReasons := Finset WithdrawReason

/-- `From<WithdrawReasons> for Reasons`. -/
def Reasons.ofWithdrawReasons (reasons : WithdrawReasons) : Reasons :=
  if reasons = {.transactionPayment} then .fee
  else if .transactionPayment ∈ reasons then .all
  else .misc

/-- `BitOr for Reasons`. -/
def Reasons.bitor (self other : Reasons) : Reasons :=
  if self = other then self else .all

/-- `LockIdentifier`, the eight bytes as a number. -/
abbrev LockIdentifier := Nat

/-- `BalanceLock`. -/
structure BalanceLock where
  id : LockIdentifier
  /-- The amount that the free balance may not drop below. -/
  amount : Nat
  reasons : Reasons
deriving DecidableEq

/-- `AccountData`. -/
@[ext] structure AccountData where
  free : Nat := 0
  reserved : Nat := 0
  /-- What `free` may not drop below when withdrawing for anything but transaction fees. -/
  miscFrozen : Nat := 0
  /-- What `free` may not drop below when withdrawing for transaction fees. -/
  feeFrozen : Nat := 0
deriving DecidableEq

/-- `AccountData::frozen`. -/
def AccountData.frozen (data : AccountData) : Reasons → Nat
  | .all => max data.miscFrozen data.feeFrozen
  | .misc => data.miscFrozen
  | .fee => data.feeFrozen

/-- `AccountInfo` of the system pallet, without the nonce. -/
structure AccountInfo where
  /-- The number of other modules that depend on the account's existence, a byte. -/
  refcount : Nat := 0
  data : AccountData := {}
deriving DecidableEq

/-- The storage items of the two pallets. -/
structure Storage (AccountId : Type) where
  totalIssuance : Nat
  /-- `Account` of the system pallet. -/
  account : HashMap AccountId AccountInfo
  locks : HashMap AccountId (List BalanceLock)
deriving DecidableEq

variable {AccountId : Type} [DecidableEq AccountId] {Result Failure : Type}

/-- `ensure!`. -/
def ensure (condition : Prop) [Decidable condition] (failure : Failure) : Except Failure Unit :=
  if condition then .ok () else .error failure

variable (config : Config AccountId)

namespace Config

variable (left right : Nat)

/-- `saturating_add`. -/
def saturatingAdd : Nat :=
  min config.maxValue (left + right)

/-- The sum of a plain `+`. -/
def wrappingAdd : Nat :=
  (left + right) % (config.maxValue + 1)

/-- `checked_add(..).ok_or(failure)`. -/
def checkedAdd (failure : Failure) : Except Failure Nat :=
  if left + right ≤ config.maxValue then .ok (left + right) else .error failure

/-- `AccountData::total`. -/
def total (data : AccountData) : Nat :=
  config.saturatingAdd data.free data.reserved

end Config

/-- `checked_sub(..).ok_or(failure)`. -/
def checkedSub (left right : Nat) (failure : Failure) : Except Failure Nat :=
  if right ≤ left then .ok (left - right) else .error failure

namespace Storage

variable (state : Storage AccountId)

/-- `Module::account`. -/
def data (who : AccountId) : AccountData :=
  ((Finmap.lookup who state.account).map (·.data)).getD {}

/-- `system::Module::refs`. -/
def refs (who : AccountId) : Nat :=
  ((Finmap.lookup who state.account).map (·.refcount)).getD 0

/-- `system::Module::allow_death`. -/
def allowDeath (who : AccountId) : Bool :=
  state.refs who = 0

/-- `Module::locks`. -/
def locksOf (who : AccountId) : List BalanceLock :=
  (Finmap.lookup who state.locks).getD []

/-- Write the record of an account, or remove it. -/
def write (who : AccountId) (refcount : Nat) : Option AccountData → Storage AccountId
  | some data => { state with account := Finmap.insert who { refcount, data } state.account }
  | none => { state with account := Finmap.erase who state.account }

/-- `Drop for PositiveImbalance`. -/
def dropPositive (amount : Nat) (state : Storage AccountId) : Storage AccountId :=
  { state with totalIssuance := config.saturatingAdd state.totalIssuance amount }

/-- `Drop for NegativeImbalance`. -/
def dropNegative (amount : Nat) (state : Storage AccountId) : Storage AccountId :=
  { state with totalIssuance := state.totalIssuance - amount }

/-- `StoredMap::try_mutate_exists` of the system pallet. -/
def tryMutateExists (who : AccountId)
    (f : Option AccountData → Storage AccountId →
      Except Failure (Result × Option AccountData × Storage AccountId))
    (state : Storage AccountId) : Except Failure (Result × Storage AccountId) := do
  let existing := Finmap.lookup who state.account
  let refcount := (existing.map (·.refcount)).getD 0
  let (result, data, state) ← f (existing.map (·.data)) state
  return (result, state.write who refcount data)

variable (onDust : Nat → Storage AccountId → Storage AccountId)

/-- `Module::post_mutation` with a handler for the dust. -/
def postMutation (new : AccountData) (state : Storage AccountId) :
    Option AccountData × Storage AccountId :=
  if config.total new < config.existentialDeposit then
    (none, if config.total new = 0 then state else onDust (config.total new) state)
  else
    (some new, state)

/-- `Module::try_mutate_account` with a handler for the dust. -/
def tryMutateAccountWith (who : AccountId) (f : AccountData → Storage AccountId →
      Except Failure (Result × AccountData × Storage AccountId)) (state : Storage AccountId) :
    Except Failure (Result × Storage AccountId) :=
  tryMutateExists who
    (fun maybeAccount state => do
      let (result, account, state) ← f (maybeAccount.getD {}) state
      let (kept, state) := postMutation config onDust account state
      return (result, kept, state))
    state

variable (who : AccountId)

/-- `Currency::deposit_creating` with a handler for the dust. Returns the amount of the positive
imbalance. -/
def depositCreatingWith (value : Nat) (state : Storage AccountId) : Nat × Storage AccountId :=
  if value = 0 then
    (0, state)
  else
    let deposited := tryMutateAccountWith config onDust who
      (fun account state => do
        ensure (config.existentialDeposit ≤ value ∨ config.total account ≠ 0) 0
        let free ← config.checkedAdd account.free value 0
        return (value, { account with free }, state))
      state
    match deposited with
    | .ok result => result
    | .error imbalance => (imbalance, state)

/-- Drop what is left of a negative imbalance after an offset by a positive one. -/
def dropOffset (negative positive : Nat) (state : Storage AccountId) : Storage AccountId :=
  if positive ≤ negative then
    state.dropNegative (negative - positive)
  else
    state.dropPositive config (positive - negative)

/-- `Currency::resolve_creating` with a handler for the dust. -/
def resolveCreatingWith (amount : Nat) (state : Storage AccountId) : Storage AccountId :=
  let (deposited, state) := depositCreatingWith config onDust who amount state
  state.dropOffset config amount deposited

/-- `DustRemoval::on_unbalanced`: drop the dust, or deposit it. -/
def onUnbalanced (amount : Nat) (state : Storage AccountId) : Storage AccountId :=
  match config.dustRemoval with
  | none => state.dropNegative amount
  | some target => resolveCreatingWith config dropNegative target amount state

/-- `Module::try_mutate_account`. -/
def tryMutateAccount (f : AccountData → Storage AccountId →
      Except Failure (Result × AccountData × Storage AccountId)) (state : Storage AccountId) :
    Except Failure (Result × Storage AccountId) :=
  tryMutateAccountWith config (onUnbalanced config) who f state

/-- `Module::mutate_account`: the closure does not fail. -/
def mutateAccount (f : AccountData → Storage AccountId → Result × AccountData × Storage AccountId)
    (state : Storage AccountId) : Result × Storage AccountId :=
  let mutated : Except Empty (Result × Storage AccountId) :=
    tryMutateAccount config who (fun account state => .ok (f account state)) state
  match mutated with
  | .ok result => result

end Storage

end Brace.Balances
