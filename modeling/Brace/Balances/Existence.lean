import Brace.Balances.Moves

/-!
# Dust and ghost accounts

No account is left with less than the existential deposit: every mutation removes such a record
(`noDust_step`). An account without a balance should then have no record at all, since
`is_dead_account` looks for the record only. The reference counts break this: a lock on an
account without a balance, or the removal of the last lock of an account that was slashed away,
changes the count of a record that does not exist, and storing the count creates it.
-/

namespace Brace.Balances

open Brace.Lib Finmap HashMap Storage

variable {AccountId : Type} [DecidableEq AccountId] {config : Config AccountId}
  {state : Storage AccountId} {who : AccountId}

namespace Storage

/-! ## The lock functions -/

theorem lookup_setRefs (refcount : Nat) (other : AccountId) :
    (state.setRefs who refcount).account.lookup other =
      if other = who then some { refcount, data := state.data who }
      else state.account.lookup other := by
  rw [setRefs, lookup_insert_eq]

@[simp] theorem data_setRefs (refcount : Nat) (other : AccountId) :
    (state.setRefs who refcount).data other = state.data other := by
  rw [data, lookup_setRefs]
  split
  · rename_i same
    rw [same]
    rfl
  · rfl

/-- The data that `update_locks` stores: nothing for an account without a balance. -/
def relocked (state : Storage AccountId) (who : AccountId) (locks : List BalanceLock) :
    Option AccountData :=
  if (state.data who).worth = 0 then none
  else some { state.data who with
    miscFrozen := frozenBy locks .misc, feeFrozen := frozenBy locks .fee }

/-- The storage of `update_locks` before the reference count. -/
def withLocks (who : AccountId) (locks : List BalanceLock) (state : Storage AccountId) :
    Storage AccountId :=
  { state.write who (state.refs who) (state.relocked who locks) with
    locks := if locks = [] then Finmap.erase who state.locks
      else Finmap.insert who locks state.locks }

/-- Whether `update_locks` changes the reference count: it adds the first lock of the account or
removes the last one. -/
def Recounts (state : Storage AccountId) (who : AccountId) (locks : List BalanceLock) : Prop :=
  locks = [] ∧ who ∈ state.locks ∨ locks ≠ [] ∧ who ∉ state.locks

instance (locks : List BalanceLock) : Decidable (Recounts state who locks) :=
  inferInstanceAs (Decidable (_ ∨ _))

def recount (locks : List BalanceLock) (refcount : Nat) : Nat :=
  if locks = [] then refcount - 1 else min 255 (refcount + 1)

section

variable (clean : NoDust config state)

include clean

variable (locks : List BalanceLock)

/-- **The outcome of `update_locks`.** -/
theorem updateLocks_eq :
    state.updateLocks config who locks =
      if Recounts state who locks then
        (state.withLocks who locks).setRefs who
          (recount locks ((state.withLocks who locks).refs who))
      else state.withLocks who locks := by
  let new : AccountData := { state.data who with
    miscFrozen := frozenBy locks .misc, feeFrozen := frozenBy locks .fee }
  have mutated : state.stored config who (state.refs who) new =
      state.write who (state.refs who) (state.relocked who locks) := by
    unfold relocked
    split
    · rename_i empty
      exact storedWith_of_empty _ empty
    · rename_i funded
      apply storedWith_of_rich
      rcases clean who with blank | rich
      · exact absurd (by rw [blank]; rfl) funded
      · exact rich
  unfold updateLocks
  rw [mutateAccount_eq]
  simp only [new] at mutated
  simp only [mutated, locks_write]
  unfold withLocks Recounts recount
  by_cases none : locks = []
  · by_cases existed : who ∈ state.locks
    · simp [none, existed, decRef]
    · simp [none, existed]
  · by_cases existed : who ∈ state.locks
    · simp [none, existed]
    · simp [none, existed, incRef]

variable (other : AccountId)

theorem data_updateLocks :
    (state.updateLocks config who locks).data other =
      if other = who then (state.relocked who locks).getD {} else state.data other := by
  have written : (state.withLocks who locks).data other =
      if other = who then (state.relocked who locks).getD {} else state.data other :=
    data_write state who other (state.refs who) (state.relocked who locks)
  rw [updateLocks_eq clean]
  split
  · rw [data_setRefs, written]
  · exact written

theorem mem_updateLocks :
    other ∈ (state.updateLocks config who locks).account ↔
      if other = who then (state.data who).worth ≠ 0 ∨ Recounts state who locks
      else other ∈ state.account := by
  have written : other ∈ (state.withLocks who locks).account ↔
      if other = who then (state.data who).worth ≠ 0 else other ∈ state.account := by
    rw [mem_iff_lookup_ne]
    change (state.write who _ _).account.lookup other ≠ none ↔ _
    split
    · rename_i same
      rw [same, lookup_write_self, relocked]
      split <;> simp_all
    · rename_i ne
      rw [lookup_write_of_ne _ _ _ ne, mem_iff_lookup_ne]
  rw [updateLocks_eq clean]
  split
  · rename_i recounts
    rw [mem_iff_lookup_ne, lookup_setRefs]
    by_cases same : other = who
    · simp [same, recounts]
    · rw [if_neg same, if_neg same, ← mem_iff_lookup_ne, written, if_neg same]
  · rename_i keeps
    rw [written]
    simp [keeps]

theorem locksOf_updateLocks :
    (state.updateLocks config who locks).locksOf other =
      if other = who then locks else state.locksOf other := by
  have written : (state.withLocks who locks).locksOf other =
      if other = who then locks else state.locksOf other := by
    unfold locksOf withLocks
    by_cases none : locks = []
    · rw [if_pos none, lookup_erase_eq]
      split
      · exact none.symm
      · rfl
    · rw [if_neg none, lookup_insert_eq]
      split
      · rfl
      · rfl
  rw [updateLocks_eq clean]
  split
  · exact written
  · exact written

theorem noDust_updateLocks : NoDust config (state.updateLocks config who locks) := by
  intro other
  rw [data_updateLocks clean]
  split
  · unfold relocked
    split
    · exact .inl rfl
    · rename_i funded
      refine .inr ?_
      rcases clean who with blank | rich
      · exact absurd (by rw [blank]; rfl) funded
      · exact rich
  · exact clean other

end

/-- Every record has a balance behind it. -/
def NoGhost (state : Storage AccountId) : Prop :=
  ∀ who ∈ state.account, (state.data who).worth ≠ 0

theorem Moved.noGhost {endows : AccountId → Prop} {before after : Storage AccountId}
    (moved : Moved config endows before after) (recorded : before.NoGhost) : after.NoGhost := by
  intro who mem
  have record := moved.records who
  rw [mem_iff_lookup_ne] at mem
  generalize found : after.account.lookup who = stored at record mem
  rw [data_of_lookup found]
  cases record with
  | kept => exact recorded who ((mem_iff_lookup_ne _ _).mpr mem)
  | removed => exact absurd rfl mem
  | written data rich frozen =>
    have pos := config.deposit_positive
    exact Nat.pos_iff_ne_zero.mp (pos.trans_le rich)

theorem noGhost_updateLocks (clean : NoDust config state) (recorded : state.NoGhost)
    (locks : List BalanceLock) (funded : Recounts state who locks → (state.data who).worth ≠ 0) :
    (state.updateLocks config who locks).NoGhost := by
  intro other mem
  rw [mem_updateLocks clean] at mem
  rw [data_updateLocks clean]
  split at mem
  · rename_i same
    have worth : (state.data who).worth ≠ 0 := mem.elim id funded
    rw [if_pos same, relocked, if_neg worth]
    exact worth
  · rename_i ne
    rw [if_neg ne]
    exact recorded other mem

end Storage

/-! ## Runs -/

/-- A lock function changes the reference count only of an account that has a balance. -/
def Op.LocksFunded (state : Storage AccountId) : Op AccountId → Prop
  | .setLock _ who amount reasons =>
    amount ≠ 0 → reasons ≠ ∅ → who ∉ state.locks → (state.data who).worth ≠ 0
  | .extendLock _ who amount reasons =>
    amount ≠ 0 → reasons ≠ ∅ → who ∉ state.locks → (state.data who).worth ≠ 0
  | .removeLock id who =>
    who ∈ state.locks → (∀ lock ∈ state.locksOf who, lock.id = id) → (state.data who).worth ≠ 0
  | _ => True

theorem Storage.placeLock_ne_nil (new : BalanceLock)
    (combine : BalanceLock → BalanceLock → BalanceLock) (locks : List BalanceLock) :
    placeLock new combine locks ≠ [] := by
  cases locks with
  | nil => simp [placeLock]
  | cons lock rest =>
    unfold placeLock
    split <;> simp

namespace Chain

/-- What holds of the storage and after `update_locks` holds after a lock function. -/
theorem relock_induction (chain : Chain AccountId) (op : Op AccountId)
    {motive : Storage AccountId → Prop} {who : AccountId} (relocks : op.relocks = some who)
    (kept : motive chain.storage)
    (updated : ∀ locks, (op.LocksFunded chain.storage → chain.storage.Recounts who locks →
      (chain.storage.data who).worth ≠ 0) →
        motive (chain.storage.updateLocks config who locks)) :
    motive (chain.step config op).storage := by
  cases op with
  | setLock id other amount reasons | extendLock id other amount reasons =>
    cases relocks
    simp only [step, setLock, extendLock]
    split
    · exact kept
    · rename_i effective
      obtain ⟨nonzero, some⟩ := not_or.mp effective
      refine updated _ fun funded recounts => funded nonzero some ?_
      exact recounts.elim (fun none => absurd none.1 (placeLock_ne_nil _ _ _)) (·.2)
  | removeLock id other =>
    cases relocks
    refine updated _ fun funded recounts => ?_
    rcases recounts with ⟨none, existed⟩ | ⟨some, absent⟩
    · refine funded existed fun lock mem => ?_
      by_contra ne
      have kept : lock ∈ (chain.storage.locksOf who).filter (·.id ≠ id) := by
        simp [mem, ne]
      rw [none] at kept
      cases kept
    · refine absurd ?_ some
      simp [locksOf, lookup_eq_none.mpr absent]
  | _ => cases relocks

theorem noDust_step (chain : Chain AccountId) (clean : chain.storage.NoDust config)
    (op : Op AccountId) : (chain.step config op).storage.NoDust config := by
  cases relocks : op.relocks with
  | none => exact (chain.moved_step clean relocks).noDust clean
  | some who =>
    exact chain.relock_induction op relocks clean fun locks _ =>
      noDust_updateLocks clean locks

end Chain

variable {genesis : Genesis config}

theorem Genesis.lookup_build {info : AccountInfo}
    (found : genesis.build.storage.account.lookup who = some info) :
    config.existentialDeposit ≤ info.data.worth := by
  rcases mem_of_lookup_insertAll _ _ found with listed | old
  · obtain ⟨entry, mem, same⟩ := List.mem_map.mp listed
    cases same
    exact genesis.endowed entry mem
  · rw [lookup_empty] at old
    cases old

theorem Genesis.noDust_build (genesis : Genesis config) : genesis.build.storage.NoDust config := by
  intro who
  cases found : genesis.build.storage.account.lookup who with
  | none => exact .inl (data_of_lookup found)
  | some info =>
    rw [data_of_lookup found]
    exact .inr (Genesis.lookup_build found)

theorem Genesis.noGhost_build (genesis : Genesis config) : genesis.build.storage.NoGhost := by
  intro who mem
  obtain ⟨info, found⟩ := mem_iff.mp mem
  rw [data_of_lookup found]
  exact Nat.pos_iff_ne_zero.mp (config.deposit_positive.trans_le (Genesis.lookup_build found))

/-- **No dust and no ghosts.** In every run whose lock functions change the reference counts of
accounts with a balance only, every account has nothing or at least the existential deposit, and
it is dead exactly when it has nothing. -/
theorem no_dust_no_ghosts {genesis : Genesis config} {chain : Chain AccountId}
    (reached : Reachable (Chain.stepOk config) (fun chain op => op.LocksFunded chain.storage)
      genesis.build chain) (who : AccountId) : let data := chain.storage.data who
    (data.free + data.reserved = 0 ∨ config.existentialDeposit ≤ data.free + data.reserved) ∧
      (chain.storage.isDeadAccount who = true ↔ data.free + data.reserved = 0) := by
  let inv := fun chain : Chain AccountId => chain.storage.NoDust config ∧ chain.storage.NoGhost
  have kept : inv chain := by
    refine reached.invariant ⟨genesis.noDust_build, genesis.noGhost_build⟩ ?_
    rintro chain op next ⟨clean, recorded⟩ funded stepped
    cases stepped
    refine ⟨chain.noDust_step clean op, ?_⟩
    cases relocks : op.relocks with
    | none => exact (chain.moved_step clean relocks).noGhost recorded
    | some who =>
      exact chain.relock_induction op relocks recorded fun locks implied =>
        noGhost_updateLocks clean recorded locks (implied funded)
  obtain ⟨clean, recorded⟩ := kept
  intro data
  constructor
  · rcases clean who with blank | rich
    · exact .inl (by simp only [data, blank])
    · exact .inr rich
  · unfold isDeadAccount
    rw [decide_eq_true_iff]
    constructor
    · intro absent
      simp [data, Storage.data, lookup_eq_none.mpr absent]
    · intro empty mem
      exact recorded who mem empty

/-- A configuration with an existential deposit of 10 and byte balances, where dust goes to
account 9. -/
def smallConfig : Config Nat where
  maxValue := 255
  existentialDeposit := 10
  dustRemoval := some 9
  deposit_positive := by decide
  deposit_fits := by decide

/-- Accounts 1, 2 and 9 with 40, 20 and 30. -/
def smallGenesis : Genesis smallConfig where
  balances := [(1, 40), (2, 20), (9, 30)]
  distinct := by decide
  endowed := by decide
  fits := by decide

instance (state : Storage AccountId) (op : Op AccountId) : Decidable (op.LocksFunded state) :=
  match op with
  | .setLock .. | .extendLock .. => inferInstanceAs (Decidable (_ → _ → _ → _))
  | .removeLock _ who => inferInstanceAs (Decidable (_ → (∀ lock ∈ state.locksOf who, _) → _))
  | .transfer .. | .setBalance .. | .burn _ | .issue _ | .slash .. | .depositIntoExisting ..
  | .depositCreating .. | .withdraw .. | .makeFreeBalanceBe .. | .resolveIntoExisting ..
  | .resolveCreating .. | .settle .. | .reserve .. | .unreserve .. | .slashReserved ..
  | .repatriateReserved .. | .dropPositive _ | .dropNegative _ | .mergePositive ..
  | .mergeNegative .. | .splitPositive .. | .splitNegative .. | .offset .. =>
    inferInstanceAs (Decidable True)

/-- A lock on a funded account that is slashed away afterwards leaves the account dead. -/
theorem no_dust_no_ghosts_slashed :
    ∃ chain, Reachable (Chain.stepOk smallConfig) (fun chain op => op.LocksFunded chain.storage)
      smallGenesis.build chain ∧ chain.storage.isDeadAccount 1 = true := by
  refine exists_reachable_of_found [.setLock 0 1 15 {.transfer}, .slash 1 35]
    (fun chain => (chain.storage.data 1).free + (chain.storage.data 1).reserved = 0)
    (by decide +kernel) fun chain reached empty => ?_
  exact (no_dust_no_ghosts reached 1).2.mpr empty

/-- **Ghosts.** A lock on an account without a balance creates its record; so does the removal of
the lock of an account that was slashed away. -/
theorem ghost_accounts :
    (∃ chain, Reachable (Chain.stepOk smallConfig) (fun _ _ => True) smallGenesis.build chain ∧
      chain.storage.data 3 = {} ∧ chain.storage.isDeadAccount 3 = false) ∧
    ∃ chain, Reachable (Chain.stepOk smallConfig) (fun _ _ => True) smallGenesis.build chain ∧
      chain.storage.data 1 = {} ∧ chain.storage.locks = ∅ ∧
        chain.storage.isDeadAccount 1 = false := by
  refine ⟨exists_reachable_of_run [.setLock 0 3 15 {.transfer}] (by decide +kernel), ?_⟩
  exact exists_reachable_of_run
    [.setLock 0 1 15 {.transfer}, .slash 1 35, .removeLock 0 1] (by decide +kernel)

end Brace.Balances
