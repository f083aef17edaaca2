import Brace.Balances.Currency

/-!
# Runs of the balances pallet

The state of a run is the storage together with the imbalance values that the callers hold. An
imbalance is a value of the program that cannot be copied: it comes from a currency function and
goes when it is dropped, merged, split, offset or resolved. `step` is one operation; an error of
the function leaves the storage as it was, and an operation on an imbalance that nobody holds
does nothing.
-/

namespace Brace.Balances

open Brace.Lib

/-- The storage and the imbalances that are held. -/
structure Chain (AccountId : Type) where
  storage : Storage AccountId
  /-- The amounts of the positive imbalances. -/
  positive : List Nat
  /-- The amounts of the negative imbalances. -/
  negative : List Nat
deriving DecidableEq

inductive Op (AccountId : Type)
  /-- `Currency::transfer`; the calls `transfer` and `force_transfer` allow death. -/
  | transfer (transactor dest : AccountId) (value : Nat) (existence : ExistenceRequirement)
  | setBalance (who : AccountId) (newFree newReserved : Nat)
  | burn (amount : Nat)
  | issue (amount : Nat)
  | slash (who : AccountId) (value : Nat)
  | depositIntoExisting (who : AccountId) (value : Nat)
  | depositCreating (who : AccountId) (value : Nat)
  | withdraw (who : AccountId) (value : Nat) (reasons : WithdrawReasons)
      (liveness : ExistenceRequirement)
  | makeFreeBalanceBe (who : AccountId) (value : Nat)
  /-- `Currency::resolve_into_existing` of a held negative imbalance. -/
  | resolveIntoExisting (who : AccountId) (amount : Nat)
  /-- `Currency::resolve_creating` of a held negative imbalance. -/
  | resolveCreating (who : AccountId) (amount : Nat)
  /-- `Currency::settle` of a held positive imbalance. -/
  | settle (who : AccountId) (amount : Nat) (reasons : WithdrawReasons)
      (liveness : ExistenceRequirement)
  | reserve (who : AccountId) (value : Nat)
  | unreserve (who : AccountId) (value : Nat)
  | slashReserved (who : AccountId) (value : Nat)
  | repatriateReserved (slashed beneficiary : AccountId) (value : Nat) (status : Status)
  | setLock (id : LockIdentifier) (who : AccountId) (amount : Nat) (reasons : WithdrawReasons)
  | extendLock (id : LockIdentifier) (who : AccountId) (amount : Nat)
      (reasons : WithdrawReasons)
  | removeLock (id : LockIdentifier) (who : AccountId)
  /-- Drop a held positive imbalance. -/
  | dropPositive (amount : Nat)
  /-- Drop a held negative imbalance. -/
  | dropNegative (amount : Nat)
  /-- `Imbalance::merge` or `subsume` of two held positive imbalances. -/
  | mergePositive (first second : Nat)
  /-- `Imbalance::merge` or `subsume` of two held negative imbalances. -/
  | mergeNegative (first second : Nat)
  /-- `Imbalance::split` of a held positive imbalance. -/
  | splitPositive (amount part : Nat)
  /-- `Imbalance::split` of a held negative imbalance. -/
  | splitNegative (amount part : Nat)
  /-- `Imbalance::offset` of a held positive and a held negative imbalance. -/
  | offset (positive negative : Nat)
deriving DecidableEq

variable {AccountId : Type} [DecidableEq AccountId]

namespace Chain

/-- Keep the positive imbalance that a call returned. -/
def gainPositive (chain : Chain AccountId) (result : Nat × Storage AccountId) : Chain AccountId :=
  { chain with storage := result.2, positive := result.1 :: chain.positive }

/-- Keep the negative imbalance that a call returned. -/
def gainNegative (chain : Chain AccountId) (result : Nat × Storage AccountId) : Chain AccountId :=
  { chain with storage := result.2, negative := result.1 :: chain.negative }

/-- Keep the storage of a call that returned, and the old one of a call that failed. -/
def orKeep {Result Failure : Type} (chain : Chain AccountId)
    (next : Result → Chain AccountId) : Except Failure Result → Chain AccountId
  | .ok result => next result
  | .error _ => chain

def step (config : Config AccountId) (chain : Chain AccountId) : Op AccountId → Chain AccountId
  | .transfer transactor dest value existence =>
    chain.orKeep (fun storage => { chain with storage })
      (chain.storage.transfer config transactor dest value existence)
  | .setBalance who newFree newReserved =>
    { chain with storage := chain.storage.setBalance config who newFree newReserved }
  | .burn amount => chain.gainPositive (chain.storage.burn amount)
  | .issue amount => chain.gainNegative (chain.storage.issue config amount)
  | .slash who value =>
    let slashed := chain.storage.slash config who value
    chain.gainNegative (slashed.1.1, slashed.2)
  | .depositIntoExisting who value =>
    chain.orKeep chain.gainPositive (chain.storage.depositIntoExisting config who value)
  | .depositCreating who value =>
    chain.gainPositive (chain.storage.depositCreating config who value)
  | .withdraw who value reasons liveness =>
    chain.orKeep chain.gainNegative (chain.storage.withdraw config who value reasons liveness)
  | .makeFreeBalanceBe who value =>
    match chain.storage.makeFreeBalanceBe config who value with
    | (.positive amount, storage) => chain.gainPositive (amount, storage)
    | (.negative amount, storage) => chain.gainNegative (amount, storage)
  | .resolveIntoExisting who amount =>
    if amount ∈ chain.negative then
      chain.orKeep
        (fun storage => { chain with storage, negative := chain.negative.erase amount })
        (chain.storage.resolveIntoExisting config who amount)
    else chain
  | .resolveCreating who amount =>
    if amount ∈ chain.negative then
      { chain with
        storage := chain.storage.resolveCreating config who amount
        negative := chain.negative.erase amount }
    else chain
  | .settle who amount reasons liveness =>
    if amount ∈ chain.positive then
      chain.orKeep
        (fun storage => { chain with storage, positive := chain.positive.erase amount })
        (chain.storage.settle config who amount reasons liveness)
    else chain
  | .reserve who value =>
    chain.orKeep (fun storage => { chain with storage })
      (chain.storage.reserve config who value)
  | .unreserve who value =>
    { chain with storage := (chain.storage.unreserve config who value).2 }
  | .slashReserved who value =>
    let slashed := chain.storage.slashReserved config who value
    chain.gainNegative (slashed.1.1, slashed.2)
  | .repatriateReserved slashed beneficiary value status =>
    chain.orKeep (fun result => { chain with storage := result.2 })
      (chain.storage.repatriateReserved config slashed beneficiary value status)
  | .setLock id who amount reasons =>
    { chain with storage := chain.storage.setLock config id who amount reasons }
  | .extendLock id who amount reasons =>
    { chain with storage := chain.storage.extendLock config id who amount reasons }
  | .removeLock id who => { chain with storage := chain.storage.removeLock config id who }
  | .dropPositive amount =>
    if amount ∈ chain.positive then
      { chain with
        storage := chain.storage.dropPositive config amount
        positive := chain.positive.erase amount }
    else chain
  | .dropNegative amount =>
    if amount ∈ chain.negative then
      { chain with
        storage := chain.storage.dropNegative amount
        negative := chain.negative.erase amount }
    else chain
  | .mergePositive first second =>
    if first ∈ chain.positive ∧ second ∈ chain.positive.erase first then
      { chain with
        positive :=
          config.saturatingAdd first second :: (chain.positive.erase first).erase second }
    else chain
  | .mergeNegative first second =>
    if first ∈ chain.negative ∧ second ∈ chain.negative.erase first then
      { chain with
        negative :=
          config.saturatingAdd first second :: (chain.negative.erase first).erase second }
    else chain
  | .splitPositive amount part =>
    if amount ∈ chain.positive then
      { chain with
        positive :=
          min amount part :: (amount - min amount part) :: chain.positive.erase amount }
    else chain
  | .splitNegative amount part =>
    if amount ∈ chain.negative then
      { chain with
        negative :=
          min amount part :: (amount - min amount part) :: chain.negative.erase amount }
    else chain
  | .offset positive negative =>
    if positive ∈ chain.positive ∧ negative ∈ chain.negative then
      let rest : Chain AccountId :=
        { chain with
          positive := chain.positive.erase positive
          negative := chain.negative.erase negative }
      if negative ≤ positive then
        { rest with positive := (positive - negative) :: rest.positive }
      else
        { rest with negative := (negative - positive) :: rest.negative }
    else chain

/-- A step for `Reachable`: no operation faults. -/
def stepOk (config : Config AccountId) (chain : Chain AccountId) (op : Op AccountId) :
    Except Empty (Chain AccountId) :=
  .ok (chain.step config op)

end Chain

/-- The genesis configuration: who holds what. -/
structure Genesis (config : Config AccountId) where
  /-- The free balance of each account. -/
  balances : List (AccountId × Nat)
  distinct : (balances.map Prod.fst).Nodup
  /-- The build asserts that no balance is below the existential deposit. -/
  endowed : ∀ entry ∈ balances, config.existentialDeposit ≤ entry.2
  /-- The balances add up to a balance. -/
  fits : (balances.map Prod.snd).sum ≤ config.maxValue

/-- The storage that the genesis build writes: every balance is inserted, and the total issuance
is their sum. -/
def Genesis.build {config : Config AccountId} (genesis : Genesis config) : Chain AccountId where
  storage :=
    { totalIssuance := (genesis.balances.map Prod.snd).sum
      account := HashMap.insertAll ∅
        (genesis.balances.map fun entry => (entry.1, { data := { free := entry.2 } }))
      locks := ∅ }
  positive := []
  negative := []

end Brace.Balances
