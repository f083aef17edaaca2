import Brace.Vesting.Schedule

/-!
# The vesting lock matches the schedule

The lock of an account and its schedule live in two pallets. Every operation that adds, updates or
completes a schedule sets both, so that an account has a vesting lock exactly if it has a schedule,
and the amount lies between what is locked now and what was locked at the beginning. Removing a
schedule does not: the entry is removed before `update_lock` looks for it, which then returns an
error, and the lock stays. At genesis a schedule with nothing to lock gets an entry but no lock.
-/

namespace Brace.Vesting

open Brace.Lib List Finmap HashMap Balances.Storage Balances Except Nat

variable {AccountId : Type} [DecidableEq AccountId] {config : Config AccountId}

/-! ## What is locked at a block -/

namespace VestingInfo

omit [DecidableEq AccountId] in
theorem lockedAt_antitone (config : Config AccountId) (info : VestingInfo) :
    Antitone (info.lockedAt config) := by
  intro earlier later ordered
  have counts : config.blockNumberToBalance (earlier - info.startingBlock) ≤
      config.blockNumberToBalance (later - info.startingBlock) :=
    config.convert_mono (Nat.sub_le_sub_right ordered _)
  have products := mul_le_mul_right info.perBlock counts
  simp only [lockedAt]
  split
  · split
    · omega
    · omega
  · exact zero_le _

variable {n : Nat}

variable (config : Config AccountId)

variable (info : VestingInfo)

omit [DecidableEq AccountId]

theorem lockedAt_of_le (early : n ≤ info.startingBlock) : info.lockedAt config n = info.locked := by
  have none : n - info.startingBlock = 0 := Nat.sub_eq_zero_of_le early
  rw [lockedAt, none, config.convert_zero, Nat.zero_mul, if_pos (Nat.zero_le _), Nat.sub_zero]

theorem lockedAt_of_vested (vested : info.locked ≤ info.perBlock *
      config.blockNumberToBalance (n - info.startingBlock)) : info.lockedAt config n = 0 := by
  rw [mul_comm] at vested
  simp only [lockedAt]
  split
  · omega
  · rfl

theorem lockedAt_le (n : Nat) : info.lockedAt config n ≤ info.locked := by
  simp only [lockedAt]
  split
  · exact sub_le _ _
  · exact zero_le _

end VestingInfo

/-! ## Vesting locks -/

/-- The amounts of the vesting locks of an account. -/
def vestingLocks (storage : Storage AccountId) (who : AccountId) : List Nat :=
  ((storage.locksOf who).filter (·.id = vestingId)).map (·.amount)

theorem filter_placeLock_of_ne {new : BalanceLock}
    {combine : BalanceLock → BalanceLock → BalanceLock}
    (keeps : ∀ lock : BalanceLock, lock.id = new.id → (combine lock new).id = new.id)
    {id : LockIdentifier} (ne : new.id ≠ id) (locks : List BalanceLock) :
    (placeLock new combine locks).filter (·.id = id) =
      locks.filter (·.id = id) := by
  induction locks with
  | nil => simp [placeLock, ne]
  | cons lock rest ih =>
    unfold placeLock
    split
    · rename_i same
      have combined : (combine lock new).id ≠ id := by
        rw [keeps lock same]
        exact ne
      have replaced : lock.id ≠ id := by
        rw [same]
        exact ne
      rw [filter_cons_of_neg (by simpa using combined),
        filter_cons_of_neg (by simpa using replaced), filter_filter]
      refine filter_congr fun other _ => ?_
      by_cases here : other.id = id
      · simp [here, Ne.symm ne]
      · simp [here]
    · by_cases here : lock.id = id
      · rw [filter_cons_of_pos (by simpa using here), filter_cons_of_pos (by simpa using here), ih]
      · rw [filter_cons_of_neg (by simpa using here), filter_cons_of_neg (by simpa using here), ih]

theorem filter_placeLock_self (new : Balances.BalanceLock) (locks : List Balances.BalanceLock) :
    (placeLock new (fun _ new => new) locks).filter (·.id = new.id) =
      [new] := by
  induction locks with
  | nil => simp [placeLock]
  | cons lock rest ih =>
    unfold placeLock
    split
    · rw [filter_cons_of_pos (by simp), filter_filter]
      simp
    · rename_i other
      rw [filter_cons_of_neg (by simpa using other), ih]

section Storage

variable {currency : Balances.Config AccountId} {storage : Balances.Storage AccountId}

section

variable (clean : storage.NoDust currency)

include clean

theorem vestingLocks_setLock {amount : Nat} (nonzero : amount ≠ 0) (who other : AccountId) :
    vestingLocks (storage.setLock currency vestingId who amount lockReasons) other =
      if other = who then [amount] else vestingLocks storage other := by
  have effective : ¬ (amount = 0 ∨ lockReasons = ∅) := by
    rintro (zero | none)
    · exact nonzero zero
    · exact absurd none (by decide)
  rw [vestingLocks, setLock, if_neg effective, locksOf_updateLocks clean]
  split
  · rw [filter_placeLock_self ⟨vestingId, amount, .ofWithdrawReasons lockReasons⟩]
    rfl
  · rfl

theorem vestingLocks_removeLock (who other : AccountId) :
    vestingLocks (storage.removeLock currency vestingId who) other =
      if other = who then [] else vestingLocks storage other := by
  rw [vestingLocks, removeLock, locksOf_updateLocks clean]
  split
  · rw [filter_filter]
    simp
  · rfl

theorem vestingLocks_updateLocks {who : AccountId} {locks : List Balances.BalanceLock}
    (same : locks.filter (·.id = vestingId) =
      (storage.locksOf who).filter (·.id = vestingId)) (other : AccountId) :
    vestingLocks (storage.updateLocks currency who locks) other = vestingLocks storage other := by
  rw [vestingLocks, locksOf_updateLocks clean]
  split
  · rename_i here
    rw [same, here, vestingLocks]
  · rfl

end

/-- The vesting lock is not touched by an operation of the balances pallet. -/
def SparesVesting : Balances.Op AccountId → Prop
  | .setLock id _ _ _ => id ≠ vestingId
  | .extendLock id _ _ _ => id ≠ vestingId
  | .removeLock id _ => id ≠ vestingId
  | _ => True

theorem vestingLocks_step {chain : Balances.Chain AccountId} (clean : chain.storage.NoDust currency)
    {op : Balances.Op AccountId} (spares : SparesVesting op) (other : AccountId) :
    vestingLocks (chain.step currency op).storage other = vestingLocks chain.storage other := by
  cases relocks : op.relocks with
  | none =>
    have moved := chain.moved_step clean relocks
    rw [vestingLocks, locksOf, moved.locks]
    rfl
  | some who =>
    cases op with
    | setLock id who amount reasons =>
      have ne : id ≠ vestingId := spares
      simp only [Balances.Chain.step, setLock]
      split
      · rfl
      · exact vestingLocks_updateLocks clean (filter_placeLock_of_ne (fun _ _ => rfl) ne _) _
    | extendLock id who amount reasons =>
      have ne : id ≠ vestingId := spares
      simp only [Balances.Chain.step, extendLock]
      split
      · rfl
      · exact vestingLocks_updateLocks clean
          (filter_placeLock_of_ne (fun _ same => same) ne _) _
    | removeLock id who =>
      refine vestingLocks_updateLocks clean ?_ _
      rw [filter_filter]
      refine filter_congr fun lock _ => ?_
      by_cases here : lock.id = vestingId
      · simp [here, Ne.symm spares]
      · simp [here]
    | _ => cases relocks

end Storage

/-! ## The invariant -/

/-- The vesting locks of an account that fit its schedule at a block. -/
def Matches (config : Config AccountId) (n : Nat) : Option VestingInfo → List Nat → Prop
  | none, locks => locks = []
  | some info, locks => ∃ amount, locks = [amount] ∧ info.lockedAt config n ≤ amount ∧
      amount ≤ info.locked

/-- Locks and schedules fit. -/
structure Coherent (config : Config AccountId) (state : State AccountId) : Prop where
  clean : state.chain.storage.NoDust config.currency
  fits : ∀ who, Matches config state.blockNumber (Finmap.lookup who state.vesting)
    (vestingLocks state.chain.storage who)

variable {state : State AccountId}

omit [DecidableEq AccountId] in
theorem Matches.later {n later : Nat} (ordered : n ≤ later) {entry : Option VestingInfo}
    {locks : List Nat} (held : Matches config n entry locks) :
    Matches config later entry locks := by
  cases entry with
  | none => exact held
  | some info =>
    obtain ⟨amount, only, least, most⟩ := held
    exact ⟨amount, only, le_trans (info.lockedAt_antitone config ordered) least, most⟩

variable {who : AccountId} {info : VestingInfo} {next : State AccountId}
  {storage : Storage AccountId}

theorem Coherent.updateLock (clean : state.chain.storage.NoDust config.currency)
    (others : ∀ other, other ≠ who → Matches config state.blockNumber
      (state.vesting.lookup other) (vestingLocks state.chain.storage other))
    (found : state.vesting.lookup who = some info)
    (ran : state.updateLock config who = .ok next) : Coherent config next := by
  unfold State.updateLock at ran
  simp only [found] at ran
  split at ran
  · obtain rfl := ok.inj ran
    refine ⟨noDust_updateLocks clean _, ?_⟩
    intro other
    change Matches config state.blockNumber ((state.vesting.erase who).lookup other)
      (vestingLocks (state.chain.storage.removeLock config.currency vestingId who) other)
    rw [vestingLocks_removeLock clean, lookup_erase_eq]
    by_cases same : other = who
    · rw [if_pos same, if_pos same]
      rfl
    · rw [if_neg same, if_neg same]
      exact others other same
  · rename_i nonzero
    obtain rfl := ok.inj ran
    have cleanNext : (state.chain.storage.setLock config.currency vestingId who
        (info.lockedAt config state.blockNumber) lockReasons).NoDust config.currency :=
      state.chain.noDust_step clean (.setLock vestingId who _ lockReasons)
    refine ⟨cleanNext, ?_⟩
    intro other
    change Matches config state.blockNumber (state.vesting.lookup other)
      (vestingLocks (state.chain.storage.setLock config.currency vestingId who
        (info.lockedAt config state.blockNumber) lockReasons) other)
    rw [vestingLocks_setLock clean nonzero]
    split
    · rename_i same
      rw [same, found]
      exact ⟨_, rfl, le_refl _, info.lockedAt_le config _⟩
    · rename_i ne
      exact others other ne

theorem Coherent.addVestingSchedule (held : Coherent config state)
    (ran : state.addVestingSchedule config who info = .ok next) : Coherent config next := by
  unfold State.addVestingSchedule at ran
  split at ran
  · obtain rfl := Except.ok.inj ran
    exact held
  · split at ran
    · cases ran
    · obtain rfl := Except.ok.inj ran
      have found : (state.vesting.insert who info).lookup who = some info :=
        lookup_insert _
      have others : ∀ other, other ≠ who → Matches config state.blockNumber
          ((state.vesting.insert who info).lookup other)
          (vestingLocks state.chain.storage other) := by
        intro other ne
        rw [lookup_insert_eq, if_neg ne]
        exact held.fits other
      unfold State.updateLockIgnored
      cases updated : State.updateLock config who
          { state with vesting := state.vesting.insert who info } with
      | ok next =>
        exact @Coherent.updateLock _ _ config
          { state with vesting := state.vesting.insert who info } who info next held.clean
          others found updated
      | error failure =>
        unfold State.updateLock at updated
        simp only [found] at updated
        split at updated <;> cases updated

theorem Coherent.transfer (held : Coherent config state) {transactor dest : AccountId}
    {value : Nat} {existence : ExistenceRequirement}
    (ran : state.chain.storage.transfer config.currency transactor dest value existence =
      .ok storage) : Coherent config (state.withStorage storage) := by
  have moved : Balances.Storage.Moved config.currency (fun _ => True) state.chain.storage storage :=
    moved_transfer held.clean ran trivial
  refine ⟨moved.noDust held.clean, ?_⟩
  intro who
  have same : vestingLocks storage who = vestingLocks state.chain.storage who := by
    rw [vestingLocks, locksOf, moved.locks]
    rfl
  change Matches config state.blockNumber (state.vesting.lookup who)
    (vestingLocks storage who)
  rw [same]
  exact held.fits who

/-- What keeps locks and schedules together: no schedule is removed, and nobody else touches the
vesting lock. -/
def Op.KeepsSchedule (state : State AccountId) : Op AccountId → Prop
  | .removeVestingSchedule who => who ∉ state.vesting
  | .currency op => SparesVesting op
  | _ => True

theorem Coherent.step (held : Coherent config state) (op : Op AccountId)
    (keeps : op.KeepsSchedule state) : Coherent config (state.step config op) := by
  cases op with
  | vest who =>
    simp only [State.step]
    cases updated : state.updateLock config who with
    | error failure => exact held
    | ok next =>
      cases found : state.vesting.lookup who with
      | none =>
        unfold State.updateLock at updated
        simp only [found] at updated
        cases updated
      | some info =>
        exact Coherent.updateLock held.clean (fun other _ => held.fits other) found updated
  | vestedTransfer transactor who schedule =>
    simp only [State.step]
    cases called : state.vestedTransfer config transactor who schedule with
    | error failure => exact held
    | ok next =>
      unfold State.vestedTransfer at called
      split at called
      · cases called
      · split at called
        · cases called
        · split at called
          · cases called
          · rename_i storage transferred
            split at called
            · rename_i added
              obtain rfl := Except.ok.inj called
              exact (held.transfer transferred).addVestingSchedule added
            · cases called
  | addVestingSchedule who info =>
    simp only [State.step]
    cases added : state.addVestingSchedule config who info with
    | error failure => exact held
    | ok next => exact held.addVestingSchedule added
  | removeVestingSchedule who =>
    have unchanged : state.removeVestingSchedule config who = state := by
      rw [State.removeVestingSchedule, HashMap.erase_of_not_mem _ _ keeps, State.updateLockIgnored,
        State.updateLock, lookup_eq_none.mpr keeps]
    change Coherent config (state.removeVestingSchedule config who)
    rw [unchanged]
    exact held
  | advance blocks =>
    exact ⟨held.clean, fun who => (held.fits who).later (Nat.le_add_right _ _)⟩
  | currency op =>
    refine ⟨state.chain.noDust_step held.clean op, ?_⟩
    intro who
    change Matches config state.blockNumber (state.vesting.lookup who)
      (vestingLocks (state.chain.step config.currency op).storage who)
    rw [vestingLocks_step held.clean keeps]
    exact held.fits who

/-! ## Genesis -/

theorem free_setLock {currency : Balances.Config AccountId} (clean : storage.NoDust currency)
    (id : Balances.LockIdentifier) (who : AccountId) (amount : Nat)
    (reasons : Balances.WithdrawReasons) (other : AccountId) :
    ((storage.setLock currency id who amount reasons).data other).free =
      (storage.data other).free := by
  unfold setLock
  split
  · rfl
  · rw [data_updateLocks clean]
    split
    · rename_i same
      subst same
      unfold relocked
      split
      · rename_i empty
        simp only [Balances.AccountData.worth] at empty
        change 0 = (storage.data other).free
        omega
      · rfl
    · rfl

theorem Coherent.buildEntry (held : Coherent config state) (entry : GenesisEntry AccountId)
    (locks : entry.liquid < (state.chain.storage.data entry.who).free) :
    Coherent config (state.buildEntry config entry) := by
  have nonzero : (entry.info config (state.chain.storage.data entry.who).free).locked ≠ 0 := by
    simp only [GenesisEntry.info]
    omega
  refine ⟨state.chain.noDust_step held.clean (.setLock vestingId entry.who _ lockReasons), ?_⟩
  intro who
  change Matches config state.blockNumber
    ((state.vesting.insert entry.who (entry.info config
      (state.chain.storage.data entry.who).free)).lookup who)
    (vestingLocks (state.chain.storage.setLock config.currency vestingId entry.who
      (entry.info config (state.chain.storage.data entry.who).free).locked lockReasons) who)
  rw [vestingLocks_setLock held.clean nonzero, lookup_insert_eq]
  split
  · exact ⟨_, rfl, VestingInfo.lockedAt_le config _ _, le_refl _⟩
  · exact held.fits who

theorem coherent_genesisState {balances : Genesis config.currency}
    {entries : List (GenesisEntry AccountId)} (proper : ∀ entry ∈ entries,
      entry.liquid < (balances.build.storage.data entry.who).free) :
    Coherent config (genesisState config balances entries) := by
  -- a round changes no free balance, so that every round sees those of the balances pallet
  refine (foldlRecOn (motive := fun state => Coherent config state ∧ ∀ who,
    (state.chain.storage.data who).free = (balances.build.storage.data who).free)
    entries _ ⟨⟨balances.noDust_build, fun who => ?_⟩, fun _ => rfl⟩ ?_).1
  · simp [Matches, vestingLocks, locksOf, Balances.Genesis.build]
  · rintro state ⟨held, same⟩ entry mem
    exact ⟨held.buildEntry entry (same entry.who ▸ proper entry mem),
      fun who => (free_setLock held.clean _ _ _ _ who).trans (same who)⟩

/-! ## Runs -/

/-- **The vesting lock matches the schedule.** In every run that removes no schedule, an account has
a vesting lock exactly if it has a schedule, between what is locked now and the whole amount. What
is locked never grows, is everything up to the starting block, and nothing in the end. -/
theorem vesting_lock_matches (config : Config AccountId)
    (balances : Genesis config.currency) (entries : List (GenesisEntry AccountId))
    (proper : ∀ entry ∈ entries, entry.liquid < (balances.build.storage.data entry.who).free)
    {state : State AccountId}
    (reached : Reachable (State.stepOk config) (fun state op => op.KeepsSchedule state)
      (genesisState config balances entries) state) :
    (∀ who, (∃ lock ∈ state.chain.storage.locksOf who, lock.id = vestingId) ↔
      who ∈ state.vesting) ∧
    (∀ who info, Finmap.lookup who state.vesting = some info →
      ∀ lock ∈ state.chain.storage.locksOf who, lock.id = vestingId →
        info.lockedAt config state.blockNumber ≤ lock.amount ∧ lock.amount ≤ info.locked) ∧
    (∀ info : VestingInfo, Antitone (info.lockedAt config) ∧
      (∀ n, n ≤ info.startingBlock → info.lockedAt config n = info.locked) ∧
      ∀ n, info.locked ≤ info.perBlock * config.blockNumberToBalance (n - info.startingBlock) →
        info.lockedAt config n = 0) := by
  have coherent : Coherent config state := by
    refine reached.invariant (coherent_genesisState proper) ?_
    intro state op next held keeps stepped
    obtain rfl := ok.inj stepped
    exact held.step op keeps
  refine ⟨?_, ?_, ?_⟩
  · intro who
    have fits := coherent.fits who
    have locked : (∃ lock ∈ state.chain.storage.locksOf who, lock.id = vestingId) ↔
        vestingLocks state.chain.storage who ≠ [] := by
      simp [vestingLocks]
    rw [locked, mem_iff_lookup_ne]
    cases found : state.vesting.lookup who with
    | none =>
      rw [found] at fits
      simpa [Matches] using fits
    | some info =>
      rw [found] at fits
      obtain ⟨amount, only, -⟩ := fits
      simp [only]
  · intro who info found lock mem isVesting
    have fits := coherent.fits who
    rw [found] at fits
    obtain ⟨amount, only, least, most⟩ := fits
    have isAmount : lock.amount ∈ vestingLocks state.chain.storage who :=
      mem_map_of_mem (mem_filter.mpr ⟨mem, by simpa using isVesting⟩)
    rw [only, List.mem_singleton] at isAmount
    rw [isAmount]
    exact ⟨least, most⟩
  · intro info
    exact ⟨info.lockedAt_antitone config, fun n => info.lockedAt_of_le config,
      fun n => info.lockedAt_of_vested config⟩

/-- The pallet over balances of a byte. -/
def smallConfig : Config Nat where
  currency := Balances.smallConfig
  minVestedTransfer := 5
  blockNumberToBalance := id
  convert_zero := rfl
  convert_mono := monotone_id

/-- Account 1 vests 30 of its 40 at genesis. -/
def smallState : State Nat :=
  genesisState smallConfig Balances.smallGenesis [⟨1, 2, 10, 10⟩]

/-- Account 2 gets a schedule and with it a lock. -/
theorem vesting_lock_matches_added :
    2 ∈ (smallState.step smallConfig (.addVestingSchedule 2 ⟨12, 3, 1⟩)).vesting ∧
      ∃ lock ∈ (smallState.step smallConfig
        (.addVestingSchedule 2 ⟨12, 3, 1⟩)).chain.storage.locksOf 2, lock.id = vestingId := by
  have added : 2 ∈ (smallState.step smallConfig (.addVestingSchedule 2 ⟨12, 3, 1⟩)).vesting := by
    decide +kernel
  have keeps : (Op.addVestingSchedule 2 ⟨12, 3, 1⟩).KeepsSchedule smallState := trivial
  exact ⟨added, ((vesting_lock_matches smallConfig Balances.smallGenesis [⟨1, 2, 10, 10⟩]
    (by decide +kernel) (.tail .refl keeps rfl)).1 2).mpr added⟩

/-- A schedule that is removed leaves its lock; a genesis schedule with nothing to lock has
none. -/
theorem lock_without_schedule :
    (∃ state, Reachable (State.stepOk smallConfig) (fun _ _ => True)
      (genesisState smallConfig Balances.smallGenesis []) state ∧
      1 ∉ state.vesting ∧ ∃ lock ∈ state.chain.storage.locksOf 1, lock.id = vestingId) ∧
    (1 ∈ (genesisState smallConfig Balances.smallGenesis [⟨1, 2, 10, 40⟩]).vesting ∧
      (genesisState smallConfig Balances.smallGenesis [⟨1, 2, 10, 40⟩]).chain.storage.locksOf 1 =
        []) := by
  refine ⟨?_, by decide +kernel⟩
  exact exists_reachable_of_run
    [.addVestingSchedule 1 ⟨20, 3, 1⟩, .removeVestingSchedule 1] (by decide +kernel)

end Brace.Vesting
