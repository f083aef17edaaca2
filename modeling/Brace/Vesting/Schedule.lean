import Brace.Balances.Existence

/-!
# Vesting schedules

`frame/vesting/src/lib.rs`: a schedule locks an amount of an account and releases a part of it with
every block after a starting block. The schedule is an entry of the map `Vesting`; what is still
locked is a lock of the balances pallet under a fixed identifier, which is set again, or removed
with the entry, whenever `update_lock` runs.

A call that returns an error leaves the state as it was. Looking up an address and the events are
left out.
-/

namespace Brace.Vesting

open Brace.Lib

structure Config (AccountId : Type) where
  currency : Balances.Config AccountId
  minVestedTransfer : Nat
  blockNumberToBalance : Nat → Nat
  convert_zero : blockNumberToBalance 0 = 0
  convert_mono : Monotone blockNumberToBalance

inductive Error
  | notVesting
  | existingVestingSchedule
  | amountLow
  | currency (failure : Balances.Error)
  /-- The `expect` of `vested_transfer` failed. -/
  | panicked
deriving DecidableEq

/-- `VESTING_ID`: the bytes of the text "vesting " as a number. -/
def vestingId : Balances.LockIdentifier := 0x76657374696e6720

/-- `VestingInfo` -/
structure VestingInfo where
  /-- Locked amount at genesis. -/
  locked : Nat
  /-- Amount that gets unlocked every block after `startingBlock`. -/
  perBlock : Nat
  startingBlock : Nat
deriving DecidableEq

/-- The reasons that the vesting lock is about. -/
def lockReasons : Balances.WithdrawReasons := {.transfer, .reserve}

/-- The state: the storage of the balances pallet, the schedules and the block number. -/
structure State (AccountId : Type) where
  /-- The storage of the balances pallet, with the imbalances that are held. -/
  chain : Balances.Chain AccountId
  vesting : HashMap AccountId VestingInfo
  blockNumber : Nat
deriving DecidableEq

variable {AccountId : Type} [DecidableEq AccountId]

variable (config : Config AccountId)

/-- `VestingInfo::locked_at` -/
def VestingInfo.lockedAt (self : VestingInfo) (n : Nat) : Nat :=
  let vestedBlockCount := config.blockNumberToBalance (n - self.startingBlock)
  -- `checked_mul`
  if vestedBlockCount * self.perBlock ≤ config.currency.maxValue then
    self.locked - vestedBlockCount * self.perBlock
  else 0

namespace State

/-- Change the storage of the balances pallet. -/
def withStorage (state : State AccountId) (storage : Balances.Storage AccountId) :
    State AccountId :=
  { state with chain := { state.chain with storage } }

/-- `update_lock` -/
def updateLock (who : AccountId) (state : State AccountId) : Except Error (State AccountId) :=
  match Finmap.lookup who state.vesting with
  | none => .error .notVesting
  | some vesting =>
    let lockedNow := vesting.lockedAt config state.blockNumber
    if lockedNow = 0 then
      .ok { state.withStorage (state.chain.storage.removeLock config.currency vestingId who) with
        vesting := Finmap.erase who state.vesting }
    else
      .ok (state.withStorage
        (state.chain.storage.setLock config.currency vestingId who lockedNow lockReasons))

variable (who : AccountId)

/-- `update_lock` with its result ignored. -/
def updateLockIgnored (state : State AccountId) : State AccountId :=
  match state.updateLock config who with
  | .ok next => next
  | .error _ => state

/-- `add_vesting_schedule` -/
def addVestingSchedule (info : VestingInfo) (state : State AccountId) :
    Except Error (State AccountId) :=
  if info.locked = 0 then .ok state
  else if who ∈ state.vesting then .error .existingVestingSchedule
  else
    .ok ({ state with
      vesting := Finmap.insert who info state.vesting }.updateLockIgnored config who)

/-- `remove_vesting_schedule` -/
def removeVestingSchedule (state : State AccountId) : State AccountId :=
  { state with vesting := Finmap.erase who state.vesting }.updateLockIgnored config who

/-- `vested_transfer` -/
def vestedTransfer (transactor who : AccountId) (schedule : VestingInfo) (state : State AccountId) :
    Except Error (State AccountId) :=
  if schedule.locked < config.minVestedTransfer then .error .amountLow
  else if who ∈ state.vesting then .error .existingVestingSchedule
  else
    match state.chain.storage.transfer config.currency transactor who schedule.locked
      .allowDeath with
    | .error failure => .error (.currency failure)
    | .ok storage =>
      match (state.withStorage storage).addVestingSchedule config who schedule with
      | .ok next => .ok next
      | .error _ => .error .panicked

end State

/-! ## Genesis -/

/-- An account of the genesis configuration. -/
structure GenesisEntry (AccountId : Type) where
  who : AccountId
  begin : Nat
  /-- Number of blocks from `begin` until fully vested. -/
  length : Nat
  /-- Number of units which can be spent before vesting begins. -/
  liquid : Nat
deriving DecidableEq

/-- The schedule of an account at genesis, for its free balance. -/
def GenesisEntry.info (entry : GenesisEntry AccountId) (balance : Nat) : VestingInfo where
  locked := balance - entry.liquid
  perBlock := (balance - entry.liquid) / max (config.blockNumberToBalance entry.length) 1
  startingBlock := entry.begin

/-- One round of the genesis build. The build asserts that the balance is not zero. -/
def State.buildEntry (state : State AccountId) (entry : GenesisEntry AccountId) : State AccountId :=
  let info := entry.info config (state.chain.storage.data entry.who).free
  { state.withStorage
      (state.chain.storage.setLock config.currency vestingId entry.who info.locked lockReasons) with
    vesting := Finmap.insert entry.who info state.vesting }

/-- The genesis build, after that of the balances pallet. -/
def genesisState (balances : Balances.Genesis config.currency)
    (entries : List (GenesisEntry AccountId)) : State AccountId :=
  entries.foldl (State.buildEntry config)
    { chain := balances.build, vesting := ∅, blockNumber := 0 }

/-! ## Runs -/

inductive Op (AccountId : Type)
  /-- The calls `vest`, on the sender, and `vest_other`, on a target. -/
  | vest (who : AccountId)
  | vestedTransfer (transactor who : AccountId) (schedule : VestingInfo)
  /-- `add_vesting_schedule`, as other pallets call it. -/
  | addVestingSchedule (who : AccountId) (info : VestingInfo)
  /-- `remove_vesting_schedule`, as other pallets call it. -/
  | removeVestingSchedule (who : AccountId)
  | advance (blocks : Nat)
  | currency (op : Balances.Op AccountId)
deriving DecidableEq

variable (state : State AccountId)

/-- Keep the state of a call that returned, and the old one of a call that failed. -/
def State.orKeep : Except Error (State AccountId) → State AccountId
  | .ok next => next
  | .error _ => state

def State.step : Op AccountId → State AccountId
  | .vest who => state.orKeep (state.updateLock config who)
  | .vestedTransfer transactor who schedule =>
    state.orKeep (state.vestedTransfer config transactor who schedule)
  | .addVestingSchedule who info => state.orKeep (state.addVestingSchedule config who info)
  | .removeVestingSchedule who => state.removeVestingSchedule config who
  | .advance blocks => { state with blockNumber := state.blockNumber + blocks }
  | .currency op => { state with chain := state.chain.step config.currency op }

/-- A step for `Reachable`: no operation faults. -/
def State.stepOk (op : Op AccountId) : Except Empty (State AccountId) :=
  .ok (state.step config op)

end Brace.Vesting
