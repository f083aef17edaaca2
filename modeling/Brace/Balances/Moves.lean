import Brace.Balances.Outcomes

/-!
# What a currency operation does to the account records

Every operation but the lock functions treats each record in one of three ways: it keeps it,
removes it, or writes data with at least the existential deposit under the reference count and
the frozen amounts that the record had before. `Moved` states this for a whole storage, and
names the accounts that may be given a balance while they have none. It composes, also when the
dust handler writes a record between the read and the write of another one.
-/

namespace Brace.Balances

open Brace.Lib Storage AccountData

variable {AccountId : Type} [DecidableEq AccountId] {config : Config AccountId}
  {before mid after state : Storage AccountId} {who : AccountId} {value : Nat}
  {endows : AccountId → Prop}

namespace Storage

/-- What may stand in the place of an account's record. -/
inductive Refreshed (config : Config AccountId) (before : Storage AccountId) (who : AccountId) :
    Option AccountInfo → Prop
  | kept : Refreshed config before who (Finmap.lookup who before.account)
  | removed : Refreshed config before who none
  /-- New balances are written; the reference count and the frozen amounts stay. -/
  | written (data : AccountData) (rich : config.existentialDeposit ≤ data.worth)
      (frozen : data.frozenAmounts = (before.data who).frozenAmounts) :
      Refreshed config before who (some { refcount := before.refs who, data })

/-- The effect of an operation on the records; `endows` are the accounts that it may give a
balance while they have none. -/
structure Moved (config : Config AccountId) (endows : AccountId → Prop)
    (before after : Storage AccountId) : Prop where
  locks : after.locks = before.locks
  /-- Every record is kept, removed or written anew. -/
  records : ∀ who, Refreshed config before who (Finmap.lookup who after.account)
  /-- An account without a balance stays so unless it is endowed. -/
  endowed : ∀ who, (before.data who).worth = 0 → (after.data who).worth ≠ 0 → endows who

variable {record : Option AccountInfo} {reasons : WithdrawReasons} {liveness : ExistenceRequirement}
  {imbalance amount : Nat}

theorem data_of_lookup (found : state.account.lookup who = record) :
    state.data who = (record.map (·.data)).getD {} := by
  rw [data, found]

namespace Moved

theorem of_account_eq (locks : after.locks = before.locks)
    (same : after.account = before.account) : Moved config endows before after where
  locks := locks
  records who := same ▸ .kept
  endowed who empty funded := by
    rw [data, same] at funded
    exact absurd empty funded

theorem refl : Moved config endows before before :=
  of_account_eq rfl rfl

theorem noDust (moved : Moved config endows before after) (clean : NoDust config before) :
    NoDust config after := by
  intro who
  have record := moved.records who
  generalize found : after.account.lookup who = stored at record
  rw [data_of_lookup found]
  cases record with
  | kept => exact clean who
  | removed => exact .inl rfl
  | written data rich frozen => exact .inr rich

section

variable (moved : Moved config endows before mid)

include moved

theorem dropNegative (amount : Nat) : Moved config endows before (mid.dropNegative amount) :=
  { moved with }

theorem dropPositive (amount : Nat) : Moved config endows before (mid.dropPositive config amount) :=
  { moved with }

theorem dropOffset (negative pos : Nat) :
    Moved config endows before (mid.dropOffset config negative pos) := by
  unfold Storage.dropOffset
  split
  · exact moved.dropNegative _
  · exact moved.dropPositive _

theorem write {refcount : Nat} {kept : Option AccountData}
    (record : Refreshed config before who (kept.map fun data => { refcount, data }))
    (endowed : (before.data who).worth = 0 → (kept.getD {}).worth ≠ 0 → endows who) :
    Moved config endows before (mid.write who refcount kept) where
  locks := by rw [locks_write, moved.locks]
  records other := by
    by_cases same : other = who
    · subst same
      rwa [lookup_write_self]
    · rw [lookup_write_of_ne _ _ _ same]
      exact moved.records other
  endowed other := by
    rw [data_write]
    split
    · rename_i same
      subst same
      exact endowed
    · exact moved.endowed other

theorem credit (clean : NoDust config before) (alive : (mid.data who).worth ≠ 0) :
    Moved config endows before (mid.credit who value) := by
  have rich : config.existentialDeposit ≤
      ({ mid.data who with free := (mid.data who).free + value } : AccountData).worth :=
    rich_of_credit (moved.noDust clean) (.inr alive)
  have record := moved.records who
  generalize found : mid.account.lookup who = stored at record
  have data := data_of_lookup found
  have refs : mid.refs who = (stored.map (·.refcount)).getD 0 := by rw [refs, found]
  have same : mid.refs who = before.refs who ∧
      (mid.data who).frozenAmounts = (before.data who).frozenAmounts := by
    rw [data] at alive ⊢
    cases record with
    | kept => exact ⟨refs, rfl⟩
    | removed => exact absurd rfl alive
    | written new _ frozen => exact ⟨refs, frozen⟩
  refine moved.write ?_ fun empty _ => moved.endowed who empty alive
  exact same.1 ▸ .written _ rich same.2

theorem onUnbalanced (clean : NoDust config before) {amount : Nat} (nonzero : amount ≠ 0)
    (dust : amount < config.existentialDeposit) :
    Moved config endows before (mid.onUnbalanced config amount) := by
  rw [onUnbalanced_eq (moved.noDust clean) nonzero]
  split
  · exact moved.dropNegative amount
  · split
    · rename_i target _ accepted
      exact moved.credit clean (accepted.1.resolve_left (not_le.mpr dust))
    · exact moved.dropNegative amount

end

variable {new : AccountData}

theorem stored (moved : Moved config endows before mid) (clean : NoDust config before)
    (frozen : new.frozenAmounts = (before.data who).frozenAmounts)
    (endowed : (before.data who).worth = 0 → new.worth ≠ 0 → endows who) :
    Moved config endows before (mid.stored config who (before.refs who) new) := by
  by_cases rich : config.existentialDeposit ≤ new.worth
  · rw [Storage.stored, storedWith_of_rich _ rich]
    exact moved.write (.written new rich frozen) endowed
  · by_cases empty : new.worth = 0
    · rw [Storage.stored, storedWith_of_empty _ empty]
      exact moved.write .removed fun _ absurd => (absurd rfl).elim
    · rw [stored_of_dust _ empty (not_le.mp rich)]
      have handled := moved.onUnbalanced clean empty (not_le.mp rich)
      exact handled.write .removed fun _ absurd => (absurd rfl).elim

theorem stored_le (clean : NoDust config before)
    (frozen : new.frozenAmounts = (before.data who).frozenAmounts)
    (less : new.worth ≤ (before.data who).worth) :
    Moved config endows before (before.stored config who (before.refs who) new) :=
  refl.stored clean frozen fun empty funded => absurd (Nat.le_zero.mp (empty ▸ less)) funded

end Moved

/-! ## The functions -/

section

variable (clean : NoDust config before)

include clean

theorem moved_transfer {transactor dest : AccountId} {existence : ExistenceRequirement}
    (ran : before.transfer config transactor dest value existence = .ok after)
    (endowed : endows dest) : Moved config endows before after := by
  by_cases nothing : value = 0 ∨ transactor = dest
  · rw [transfer, if_pos nothing] at ran
    cases ran
    exact .refl
  · obtain ⟨nonzero, differ⟩ := not_or.mp nothing
    obtain ⟨rich, rfl⟩ := transfer_eq_ok nonzero differ ran
    have lowered : Moved config endows before (before.stored config transactor
        (before.refs transactor)
        { before.data transactor with free := (before.data transactor).free - value }) := by
      refine Moved.stored_le clean rfl ?_
      simp only [worth]
      omega
    exact lowered.write (.written _ rich rfl) fun _ _ => endowed

theorem moved_withdraw
    (ran : before.withdraw config who value reasons liveness = .ok (imbalance, after)) :
    Moved config endows before after := by
  by_cases nothing : value = 0
  · rw [withdraw, if_pos nothing] at ran
    cases ran
    exact .refl
  · rw [withdraw_eq_ok nothing ran]
    refine Moved.stored_le clean rfl ?_
    simp only [worth]
    omega

theorem moved_slash : Moved config endows before (before.slash config who value).2 := by
  by_cases nothing : value = 0
  · rw [slash, if_pos nothing]
    exact .refl
  · rw [slash_eq nothing]
    refine Moved.stored_le clean rfl ?_
    simp only [worth, slashedData]
    omega

theorem moved_depositIntoExisting
    (ran : before.depositIntoExisting config who value = .ok (imbalance, after)) :
    Moved config endows before after := by
  by_cases nothing : value = 0
  · rw [depositIntoExisting, if_pos nothing] at ran
    cases ran
    exact .refl
  · obtain ⟨alive, rfl⟩ := depositIntoExisting_eq_ok clean nothing ran
    exact Moved.refl.credit clean alive

theorem moved_depositCreating (endowed : endows who) :
    Moved config endows before (before.depositCreating config who value).2 := by
  by_cases nothing : value = 0
  · rw [depositCreating, depositCreatingWith, if_pos nothing]
    exact .refl
  · rw [depositCreating, depositCreatingWith_eq clean nothing]
    split
    · rename_i accepted
      dsimp only
      refine Moved.refl.write ?_ fun _ _ => endowed
      exact .written _ (rich_of_credit clean accepted.1) rfl
    · exact .refl

theorem moved_makeFreeBalanceBe (endowed : endows who) :
    Moved config endows before (before.makeFreeBalanceBe config who value).2 := by
  rcases @makeFreeBalanceBe_eq _ _ config before who value with same | set
  · rw [same]
    exact .refl
  · rw [set]
    exact Moved.refl.stored clean rfl fun _ _ => endowed

theorem moved_setBalance (newFree newReserved : Nat) (endowed : endows who) :
    Moved config endows before (before.setBalance config who newFree newReserved) := by
  have squared (state : Storage AccountId) (old new : Nat)
      (moved : Moved config endows before state) :
      Moved config endows before (state.square config old new) := by
    unfold square
    split
    · exact moved.dropPositive _
    · split
      · exact moved.dropNegative _
      · exact moved
  rw [setBalance_eq]
  exact (squared _ _ _ (squared _ _ _ .refl)).stored clean rfl fun _ _ => endowed

theorem moved_reserve (ran : before.reserve config who value = .ok after) :
    Moved config endows before after := by
  by_cases nothing : value = 0
  · rw [reserve, if_pos nothing] at ran
    cases ran
    exact .refl
  · obtain ⟨enough, rfl⟩ := reserve_eq_ok nothing ran
    refine Moved.stored_le clean rfl ?_
    simp only [worth]
    omega

theorem moved_unreserve : Moved config endows before (before.unreserve config who value).2 := by
  by_cases nothing : value = 0
  · rw [unreserve, if_pos nothing]
    exact .refl
  · rw [unreserve, if_neg nothing, mutateAccount_eq]
    refine Moved.stored_le clean rfl ?_
    simp only [worth, Config.saturatingAdd]
    omega

theorem moved_slashReserved :
    Moved config endows before (before.slashReserved config who value).2 := by
  by_cases nothing : value = 0
  · rw [slashReserved, if_pos nothing]
    exact .refl
  · rw [slashReserved, if_neg nothing, mutateAccount_eq]
    refine Moved.stored_le clean rfl ?_
    simp only [worth]
    omega

theorem moved_repatriateReserved {slashed beneficiary : AccountId} {status : Status} {left : Nat}
    (ran : before.repatriateReserved config slashed beneficiary value status = .ok (left, after)) :
    Moved config endows before after := by
  by_cases nothing : value = 0
  · unfold repatriateReserved at ran
    rw [if_pos nothing] at ran
    cases ran
    exact .refl
  · by_cases differ : slashed = beneficiary
    · unfold repatriateReserved at ran
      rw [if_neg nothing, if_pos differ] at ran
      cases status with
      | free =>
        have same : before.unreserve config slashed value = (left, after) :=
          Except.ok.inj ran
        have second : after = (before.unreserve config slashed value).2 := by rw [same]
        rw [second]
        exact moved_unreserve clean
      | reserved =>
        cases ran
        exact .refl
    · obtain ⟨alive, new, frozen, rfl⟩ := repatriateReserved_eq_ok nothing differ ran
      let source := before.data slashed
      have lowered : Moved config endows before (before.stored config slashed
          (before.refs slashed)
          { source with reserved := source.reserved - min source.reserved value }) := by
        refine Moved.stored_le clean rfl ?_
        simp only [worth, source]
        omega
      exact lowered.stored clean frozen fun empty _ => absurd empty alive

theorem moved_resolveIntoExisting (ran : before.resolveIntoExisting config who amount = .ok after) :
    Moved config endows before after := by
  unfold resolveIntoExisting at ran
  cases deposited : before.depositIntoExisting config who amount with
  | error failure => simp [deposited] at ran
  | ok result =>
    simp only [deposited, Except.ok.injEq] at ran
    subst ran
    exact (moved_depositIntoExisting clean deposited).dropOffset _ _

theorem moved_resolveCreating (amount : Nat) (endowed : endows who) :
    Moved config endows before (before.resolveCreating config who amount) :=
  (moved_depositCreating clean endowed).dropOffset _ _

theorem moved_settle (ran : before.settle config who amount reasons liveness = .ok after) :
    Moved config endows before after := by
  unfold settle at ran
  cases withdrawn : before.withdraw config who amount reasons liveness with
  | error failure => simp [withdrawn] at ran
  | ok result =>
    simp only [withdrawn, Except.ok.injEq] at ran
    subst ran
    have moved : Moved config endows before result.2 := moved_withdraw clean withdrawn
    split
    · exact moved.dropPositive _
    · exact moved.dropNegative _

end

end Storage

/-! ## One operation -/

/-- The account that an operation may give a balance while it has none. -/
def Op.funds : Op AccountId → Option AccountId
  | .transfer _ dest _ _ => some dest
  | .setBalance who _ _ => some who
  | .depositCreating who _ => some who
  | .makeFreeBalanceBe who _ => some who
  | .resolveCreating who _ => some who
  | _ => none

/-- The account whose locks an operation changes. -/
def Op.relocks : Op AccountId → Option AccountId
  | .setLock _ who _ _ => some who
  | .extendLock _ who _ _ => some who
  | .removeLock _ who => some who
  | _ => none

variable {motive : Chain AccountId → Prop} {chain : Chain AccountId}

section

omit [DecidableEq AccountId]

theorem Chain.orKeep_induction {Result Failure : Type}
    {next : Result → Chain AccountId} {call : Except Failure Result}
    (kept : motive chain) (ran : ∀ result, call = .ok result → motive (next result)) :
    motive (chain.orKeep next call) := by
  cases call with
  | error failure => exact kept
  | ok result => exact ran result rfl

theorem Chain.ite_induction {condition : Prop}
    [Decidable condition] {next : Chain AccountId} (kept : motive chain)
    (went : condition → motive next) : motive (if condition then next else chain) := by
  split
  · rename_i holds
    exact went holds
  · exact kept

end

/-- **The effect of an operation on the records.** -/
theorem Chain.moved_step (chain : Chain AccountId) (clean : chain.storage.NoDust config)
    {op : Op AccountId} (keepsLocks : op.relocks = none) :
    Storage.Moved config (· ∈ op.funds) chain.storage (chain.step config op).storage := by
  let motive (after : Chain AccountId) : Prop :=
    Storage.Moved config (· ∈ op.funds) chain.storage after.storage
  have unchanged : motive chain := .refl
  change motive (chain.step config op)
  cases op with
  | transfer transactor dest value existence =>
    exact orKeep_induction unchanged fun _ ran => moved_transfer clean ran rfl
  | setBalance who newFree newReserved => exact moved_setBalance clean _ _ rfl
  | burn amount =>
    refine Storage.Moved.of_account_eq ?_ ?_ <;>
      simp only [step, gainPositive, burn] <;> (repeat' split) <;> rfl
  | issue amount =>
    refine Storage.Moved.of_account_eq ?_ ?_ <;>
      simp only [step, gainNegative, issue] <;> (repeat' split) <;> rfl
  | slash who value => exact moved_slash clean
  | depositIntoExisting who value =>
    exact orKeep_induction unchanged fun _ ran =>
      moved_depositIntoExisting clean ran
  | depositCreating who value => exact moved_depositCreating clean rfl
  | withdraw who value reasons liveness =>
    exact orKeep_induction unchanged fun _ ran => moved_withdraw clean ran
  | makeFreeBalanceBe who value =>
    have moved : Storage.Moved config (· ∈ some who) chain.storage
        (chain.storage.makeFreeBalanceBe config who value).2 :=
      moved_makeFreeBalanceBe clean rfl
    have same : (chain.step config (.makeFreeBalanceBe who value)).storage =
        (chain.storage.makeFreeBalanceBe config who value).2 := by
      rw [step]
      split <;> rename_i made <;> rw [made] <;> rfl
    change Storage.Moved config _ chain.storage (chain.step config _).storage
    rw [same]
    exact moved
  | resolveIntoExisting who amount =>
    exact ite_induction unchanged fun _ =>
      orKeep_induction unchanged fun _ ran => moved_resolveIntoExisting clean ran
  | resolveCreating who amount =>
    exact ite_induction unchanged fun _ => moved_resolveCreating clean amount rfl
  | settle who amount reasons liveness =>
    exact ite_induction unchanged fun _ =>
      orKeep_induction unchanged fun _ ran => moved_settle clean ran
  | reserve who value =>
    exact orKeep_induction unchanged fun _ ran => moved_reserve clean ran
  | unreserve who value => exact moved_unreserve clean
  | slashReserved who value => exact moved_slashReserved clean
  | repatriateReserved slashed beneficiary value status =>
    exact orKeep_induction unchanged fun _ ran =>
      moved_repatriateReserved clean ran
  | setLock | extendLock | removeLock => cases keepsLocks
  | dropPositive amount => exact ite_induction unchanged fun _ => unchanged.dropPositive amount
  | dropNegative amount => exact ite_induction unchanged fun _ => unchanged.dropNegative amount
  | mergePositive | mergeNegative | splitPositive | splitNegative =>
    exact ite_induction unchanged fun _ => unchanged
  | offset pos negative =>
    refine ite_induction unchanged fun _ => ?_
    split
    · exact unchanged
    · exact unchanged

end Brace.Balances
