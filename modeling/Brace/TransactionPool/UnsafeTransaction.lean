import Brace.TransactionPool.GraphImport
import Brace.TransactionPool.NeverPanics

/-!
# Unsafe transactions make a pool panic

For a transaction that is not safe there is a short run, of that transaction and safe ones only,
that ends in a panic. Pruning the tags that it requires makes an empty pool take it for ready. If it
repeats one of several provided tags, pruning another of its tags meets the assertion of
`prune_tags`. If it has a positive priority and a tag both required and provided, it is imported
over one that provides this tag: the replacement leaves the tag mapped to the transaction just
removed, and linking the required tag meets `HASH_READY`.
-/

namespace Brace.TransactionPool.BasePool

open Brace.Lib ReadyTransactions FutureTransactions List Finmap

variable {H T : Type} [DecidableEq H] [DecidableEq T]

theorem satisfyTags_empty (order : Order H T) (tags : List T) :
    FutureTransactions.satisfyTags order {} tags = .ok ({}, []) := by
  unfold FutureTransactions.satisfyTags
  induction tags with
  | nil => rfl
  | cons tag rest ih => exact ih

theorem pruneTags_empty (tag : T) :
    ReadyTransactions.pruneTags ({} : ReadyTransactions H T) tag = .ok ({}, []) := by
  rfl

/-- The tag was pruned by one of the last calls of `prune_tags`. -/
def RecentlyPruned (pool : BasePool H T) (tag : T) : Prop :=
  ∃ pruned ∈ pool.recentlyPruned.toList, tag ∈ pruned

theorem pruneTags_new (order : Order H T) (reject : Bool) (tags : List T) :
    ∃ pool status, (new reject : BasePool H T).pruneTags order tags = .ok (pool, status) ∧
      pool.future = {} ∧ pool.ready = {} ∧ ∀ tag ∈ tags, RecentlyPruned pool tag := by
  have recorded : ∀ pruned : Finset T,
      tags.foldlM (pruneTag order) { future := {}, ready := {}, recentlyPruned := pruned } =
        .ok { future := {}, ready := ({} : ReadyTransactions H T)
              recentlyPruned := pruned ∪ tags.toFinset } := by
    induction tags with
    | nil =>
      intro pruned
      simp [pure, Except.pure]
    | cons tag rest ih =>
      intro pruned
      simp only [foldlM_cons, pruneTag, satisfyTags_empty, pruneTags_empty, ok_bind, append_nil]
      rw [ih, toFinset_cons, Finset.insert_union, Finset.union_insert]
  rw [BasePool.pruneTags]
  simp only [new, recorded, ok_bind]
  refine ⟨_, _, rfl, rfl, rfl, fun tag mem => ⟨_, mem_cons_self, ?_⟩⟩
  simpa using mem

variable {pool : BasePool H T} {tx : Transaction H T} {order : Order H T} {tag : T} {reject : Bool}

theorem importTransaction_ready {now : Nat} (future : pool.future = {})
    (fresh : tx.hash ∉ pool.ready.ready) (pruned : ∀ tag ∈ tx.requires, RecentlyPruned pool tag) :
    pool.importTransaction order tx now = pool.importToReady order
      (.new tx pool.ready.providedTags pool.recentlyPruned.toList now) := by
  have notWaiting : tx.hash ∉ pool.future.waiting := by
    rw [future]
    exact notMem_empty
  obtain ⟨_, -, -, rfl, goes⟩ := importTransaction_admitted order now
    ⟨notWaiting, fresh, fun tag mem => .inr (pruned tag mem)⟩
  exact goes

theorem importTransaction_empty (order : Order H T) {tx : WaitingTransaction H T}
    (ready : tx.isReady = true) :
    ∃ after queued, ReadyTransactions.importTransaction order {} tx = .ok (after, .ok []) ∧
      (∀ tag ∈ tx.transaction.provides,
        after.providedTags.lookup tag = some tx.transaction.hash) ∧
      after.ready.lookup tx.transaction.hash = some queued ∧
      queued.transaction.transaction = tx.transaction ∧
      ∀ hash, hash ≠ tx.transaction.hash → refAt after.ready hash = none := by
  have nothing : replaceHashes ({ insertionId := 0 + 1 } : ReadyTransactions H T)
      tx.transaction = ∅ := by
    simp [replaceHashes]
  have queued : ∀ tag ∈ tx.transaction.requires, ∀ other : H,
      (∅ : HashMap T H).lookup tag = some other →
        refAt ({ ready := ∅ } : Linking H T).ready other ≠ none := by
    intro tag _ other found
    cases found
  obtain ⟨linking, linked, same⟩ := link_returns tx.transaction.hash queued
  simp only [ReadyTransactions.importTransaction, ready, not_true_eq_false, if_false,
    if_neg notMem_empty, replacePrevious, if_pos nothing, ok_bind, insertReady, linked]
  refine ⟨_, _, rfl, ?_, lookup_insert _, rfl, ?_⟩
  · intro tag mem
    rw [HashMap.lookup_insertAll_same, if_pos mem]
  · intro hash ne
    rw [refAt_insert, if_neg ne, same]
    rfl

theorem importTransaction_first (order : Order H T) (tx : Transaction H T)
    (now : Nat) (future : pool.future = {}) (empty : pool.ready = {})
    (pruned : ∀ tag ∈ tx.requires, RecentlyPruned pool tag) :
    ∃ after outcome queued, pool.importTransaction order tx now = .ok (after, outcome) ∧
      after.future = {} ∧ after.recentlyPruned = pool.recentlyPruned ∧
      (∀ tag ∈ tx.provides, after.ready.providedTags.lookup tag = some tx.hash) ∧
      after.ready.ready.lookup tx.hash = some queued ∧
      queued.transaction.transaction = tx ∧
      ∀ hash, hash ≠ tx.hash → refAt after.ready.ready hash = none := by
  have fresh : tx.hash ∉ pool.ready.ready := by
    rw [empty]
    exact notMem_empty
  have ready : (WaitingTransaction.new tx pool.ready.providedTags pool.recentlyPruned.toList
      now).isReady = true := (isReady_new now).mpr fun tag mem => .inr (pruned tag mem)
  obtain ⟨after, queued, imported, mapped, stored, same, others⟩ :=
    importTransaction_empty order ready
  rw [← empty] at imported
  rw [importTransaction_ready future fresh pruned]
  simp only [importToReady, future, satisfyTags_empty, ok_bind, imported]
  exact ⟨_, _, queued, rfl, rfl, rfl, mapped, stored, same, others⟩

/-! ## The two panics -/

theorem pruneTags_repeated {hash : H} {queued : ReadyTx H T} {other : T} (future : pool.future = {})
    (mapped : pool.ready.providedTags.lookup other = some hash)
    (stored : pool.ready.ready.lookup hash = some queued)
    (twice : 1 < queued.provides.count tag) (ne : other ≠ tag) {result : BasePool H T × _}
    (ran : pool.pruneTags order [other] = .ok result) : False := by
  rw [BasePool.pruneTags, bind_eq_ok] at ran
  obtain ⟨state, first, -⟩ := ran
  rw [foldlM_cons, bind_eq_ok] at first
  obtain ⟨state, tagged, -⟩ := first
  simp only [pruneTag, future, satisfyTags_empty, ok_bind] at tagged
  obtain ⟨pruned, looped, -⟩ := bind_eq_ok.mp tagged
  rw [ReadyTransactions.pruneTags, Nat.add_comm, worklist, bind_eq_ok] at looped
  obtain ⟨round, ended, -⟩ := looped
  simp only [pruneNext, mapped, stored] at ended
  obtain ⟨provided, cleared, -⟩ := bind_eq_ok.mp ended
  have once := nodup_iff_count_le_one.mp (clearProvided_eq_ok_iff.mp cleared).2.1 tag
  rw [count_filter (by simpa using Ne.symm ne)] at once
  exact absurd twice (not_lt.mpr once)

/-- A transaction that requires and provides a tag, imported over the one that provides it. -/
theorem importTransaction_circular {queue : ReadyTransactions H T}
    {tx : WaitingTransaction H T} {provider : H}
    (provided : Provided ∅ queue.providedTags queue.ready)
    (mapped : queue.providedTags.lookup tag = some provider)
    (zero : ∀ hash queued, queue.ready.lookup hash = some queued →
      queued.transaction.transaction.priority = 0)
    (priority : tx.transaction.priority ≠ 0) (required : tag ∈ tx.transaction.requires)
    (own : tag ∈ tx.transaction.provides) {result : ReadyTransactions H T × _}
    (ran : queue.importTransaction order tx = .ok result) : False := by
  -- the queue that the replacement starts from
  let started := { queue with insertionId := queue.insertionId + 1 }
  have replaces : provider ∈ started.replaceHashes tx.transaction :=
    mem_replaceHashes.mpr ⟨tag, own, mapped⟩
  have high : ¬ started.Refused tx.transaction := by
    rintro ⟨-, low⟩
    rw [Finset.sum_eq_zero] at low
    · exact priority (UInt64.toNat_inj.mp (Nat.le_zero.mp low))
    · intro hash _
      rw [priorityAt]
      cases stored : started.ready.lookup hash with
      | none => rfl
      | some queued => simp [zero hash queued stored]
  rcases replacePrevious_outcome order started tx.transaction with ⟨low, -⟩ | ⟨-, nothing, -⟩ |
    ⟨-, -, called⟩
  · exact high low
  · exact Finset.ne_empty_of_mem replaces nothing
  · obtain ⟨after, removed, removal, -, gone, -, dangling⟩ := removeSubtreeWithTagFilter_returns
      started (started.replacedList order tx.transaction) _ provided.partly
    unfold ReadyTransactions.importTransaction at ran
    split at ran
    · cases ran
    · split at ran
      · cases ran
      · rw [called, removal, ok_bind, ok_bind] at ran
        obtain ⟨inserted, linked, -⟩ := bind_eq_ok.mp ran
        rw [insertReady, bind_eq_ok] at linked
        obtain ⟨linking, looped, -⟩ := linked
        have still : after.providedTags.lookup tag = some provider := by
          rw [dangling tag (mem_toFinset.mpr own)]
          exact mapped
        have queued := (link_eq looped).2.2.2 tag required provider still
        refine refAt_eq_none.mp (gone provider ?_) queued
        exact (order.replaced.mem_list _ _ _).mpr replaces

/-! ## The theorem -/

/-- Only the given transaction and safe ones are brought to the pool. -/
def BringsOnly (tx : Transaction H T) (_ : BasePool H T) (op : Op H T) : Prop :=
  op.Brings fun other => other = tx ∨ other.Safe

/-- No run that brings only the given transaction and safe ones reaches a panic. -/
def NeverPanics (reject : Bool) (tx : Transaction H T) : Prop :=
  ∀ pool op, Reachable step (BringsOnly tx) (new reject) pool → BringsOnly tx pool op →
    ∃ next, step pool op = .ok next

theorem reachable_snoc {start next : BasePool H T} {Result : Type}
    {result : Result} {call : Except Panic (BasePool H T × Result)} (op : Op H T)
    (reached : Reachable step (BringsOnly tx) start pool) (allowed : BringsOnly tx pool op)
    (called : step pool op = (·.1) <$> call) (ran : call = .ok (next, result)) :
    Reachable step (BringsOnly tx) start next :=
  reached.tail allowed (by rw [called, ran]; rfl)

theorem NeverPanics.repeatsAlone (never : NeverPanics reject tx) : tx.RepeatsAlone := by
  intro tag mem twice other present
  by_contra ne
  obtain ⟨order⟩ : Nonempty (Order H T) := inferInstance
  obtain ⟨pruned, status, first, future, ready, recently⟩ :=
    pruneTags_new order reject tx.requires
  obtain ⟨pool, outcome, queued, second, nothing, -, mapped, stored, same, -⟩ :=
    importTransaction_first order tx 0 future ready recently
  have reached : Reachable step (BringsOnly tx) (new reject) pool :=
    reachable_snoc (.importTransaction order tx 0)
      (reachable_snoc (.pruneTags order tx.requires) .refl trivial rfl first) (.inl rfl) rfl second
  obtain ⟨next, ran⟩ := never pool (.pruneTags order [other]) reached trivial
  obtain ⟨result, pruning⟩ := map_fst_eq_ok.mp ran
  rw [← same] at mem twice
  exact pruneTags_repeated nothing (mapped other present) stored twice ne pruning

theorem NeverPanics.apart [Nontrivial H] (never : NeverPanics reject tx)
    (priority : tx.priority ≠ 0) : ∀ tag ∈ tx.requires, tag ∉ tx.provides := by
  intro tag required own
  obtain ⟨order⟩ : Nonempty (Order H T) := inferInstance
  obtain ⟨name, ne⟩ := exists_ne tx.hash
  let provider : Transaction H T :=
    { bytes := 0, hash := name, priority := 0, validTill := 0, requires := [], provides := [tag] }
  have safe : provider.Safe := by
    refine ⟨.inl rfl, fun first mem _ other present => ?_⟩
    rw [mem_singleton.mp mem, mem_singleton.mp present]
  obtain ⟨pruned, status, first, future, ready, recently⟩ :=
    pruneTags_new order reject tx.requires
  obtain ⟨pool, outcome, queued, second, nothing, recent, mapped, stored, same, others⟩ :=
    importTransaction_first order provider 0 future ready nofun
  have reached : Reachable step (BringsOnly tx) (new reject) pool :=
    reachable_snoc (.importTransaction order provider 0)
      (reachable_snoc (.pruneTags order tx.requires) .refl trivial rfl first) (.inr safe) rfl second
  have consistent : pool.AtRest := by
    obtain ⟨after, _, ran, kept⟩ :=
      pruneTags_returns order tx.requires (consistent_new (H := H) (T := T) reject)
    obtain ⟨rfl, -⟩ := ok_pair_inj (first.symm.trans ran)
    obtain ⟨last, _, ran, kept⟩ := importTransaction_returns order 0 kept safe
    obtain ⟨rfl, -⟩ := ok_pair_inj (second.symm.trans ran)
    exact kept
  have zero : ∀ hash queued, pool.ready.ready.lookup hash = some queued →
      queued.transaction.transaction.priority = 0 := by
    intro hash found present
    by_cases here : hash = name
    · subst here
      obtain rfl := Option.some.inj (stored.symm.trans present)
      rw [same]
    · have absent := others hash here
      rw [refAt, present] at absent
      cases absent
  have fresh : tx.hash ∉ pool.ready.ready := refAt_eq_none.mp (others tx.hash (Ne.symm ne))
  obtain ⟨next, ran⟩ := never pool (.importTransaction order tx 0) reached (.inl rfl)
  obtain ⟨result, imported⟩ := map_fst_eq_ok.mp ran
  have remembered : ∀ tag ∈ tx.requires, RecentlyPruned pool tag := by
    intro tag mem
    rw [RecentlyPruned, recent]
    exact recently tag mem
  rw [importTransaction_ready nothing fresh remembered, importToReady, nothing, satisfyTags_empty,
    ok_bind] at imported
  obtain ⟨replaced, called, -⟩ := bind_eq_ok.mp imported
  exact importTransaction_circular consistent.provided (mapped tag mem_cons_self) zero
    priority required own called

/-- **Which transactions make a pool panic.** Runs of a transaction and safe transactions never
panic exactly when the transaction is safe. -/
theorem never_panics_iff [Nontrivial H] (reject : Bool) (tx : Transaction H T) :
    NeverPanics reject tx ↔ tx.Safe := by
  constructor
  · intro never
    refine ⟨?_, never.repeatsAlone⟩
    by_cases zero : tx.priority = 0
    · exact .inl zero
    · exact .inr (never.apart zero)
  · intro safe pool op reached allowed
    have brings : ∀ pool op, BringsOnly tx pool op → op.Brings Transaction.Safe := by
      intro pool op allowed
      cases op with
      | importTransaction order other now => exact allowed.elim (fun same => same ▸ safe) id
      | _ => trivial
    have kept := consistent_of_reachable (reached.mono brings)
    obtain ⟨next, ran, -⟩ := step_returns kept (brings pool op allowed)
    exact ⟨next, ran⟩

/-- A transaction that requires nothing. -/
def plainTransfer : Transaction Nat Nat :=
  { bytes := 1, hash := 1, priority := 1, validTill := 64, requires := [], provides := [7] }

/-- A transaction that requires the tag of `plainTransfer`, and provides it as well. -/
def circularTransfer : Transaction Nat Nat :=
  { bytes := 1, hash := 2, priority := 2, validTill := 64, requires := [7], provides := [7] }

/-- A transaction that provides one of its two tags twice. -/
def repeatingTransfer : Transaction Nat Nat :=
  { bytes := 1, hash := 3, priority := 1, validTill := 64, requires := [], provides := [7, 8, 8] }

/-- Runs of `plainTransfer` and safe transactions never panic. -/
theorem never_panics_plainTransfer : plainTransfer.Safe ∧ NeverPanics false plainTransfer := by
  have safe : plainTransfer.Safe := by
    refine ⟨.inr nofun, fun tag mem _ other present => ?_⟩
    rw [mem_singleton.mp mem, mem_singleton.mp present]
  exact ⟨safe, (never_panics_iff false plainTransfer).mpr safe⟩

/-- The panic that a call ends with. -/
def panicOf {α : Type} : Except Panic α → Option Panic
  | .error panic => some panic
  | .ok _ => none

/-- **Both panics are reached.** The import of a transaction that requires and provides the tag
of a queued one of lower priority, and the pruning of a tag of a transaction that provides
another tag twice. -/
theorem circular_and_repeating_panic :
    (∃ pool, Reachable step (fun _ _ => True) (new false) pool ∧
      panicOf (step pool (.importTransaction (.sorted Nat Nat) circularTransfer 0)) =
        some .hashReady) ∧
    ∃ pool, Reachable step (fun _ _ => True) (new false) pool ∧
      panicOf (step pool (.pruneTags (.sorted Nat Nat) [7])) = some .oneProvider := by
  constructor
  · exact exists_reachable_of_run [.importTransaction (.sorted Nat Nat) plainTransfer 0]
      (by decide +kernel)
  · exact exists_reachable_of_run [.importTransaction (.sorted Nat Nat) repeatingTransfer 0]
      (by decide +kernel)

end Brace.TransactionPool.BasePool
