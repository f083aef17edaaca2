import Brace.TransactionPool.ImportReports

/-!
# What a prune reports to its caller

A prune reports what it removes and what it promotes when its promotions disturb no other
transaction, as an import does. Runs that lose a transaction without a report are at the end.
-/

namespace Brace.TransactionPool.BasePool

open Brace.Lib ReadyTransactions FutureTransactions List

variable {H T : Type} [DecidableEq H] [DecidableEq T]

section

variable (order : Order H T) {pool start : BasePool H T} {tag : T} {tags : List T}
  {available : T → Prop} {own removed : List (Transaction H T)} {Dropped : Transaction H T → Prop}
  {future : FutureTransactions H T} {ready : ReadyTransactions H T}
  {pending rest : List (WaitingTransaction H T)}

/-- `prune_tags` of the ready queue reports what it removes, and adds nothing to the lists. -/
theorem pruneTags_reports {queue after : ReadyTransactions H T}
    (ran : queue.pruneTags tag = .ok (after, removed)) :
    (∀ hash ref, refAt queue.ready hash = some ref →
      refAt after.ready hash = some ref ∨ ref.transaction ∈ removed) ∧
    ∀ provider dependent, Lists after.ready provider dependent →
      Lists queue.ready provider dependent := by
  let inv := fun state : ReadyTransactions H T × List (Transaction H T) =>
    (∀ hash ref, refAt queue.ready hash = some ref →
      refAt state.1.ready hash = some ref ∨ ref.transaction ∈ state.2) ∧
    ∀ provider dependent, Lists state.1.ready provider dependent →
      Lists queue.ready provider dependent
  have kept : inv (after, removed) := by
    refine worklist_invariant inv ?_ ⟨fun _ _ found => .inl found, fun _ _ listed => listed⟩ ran
    rintro state task next pushed ⟨reported, lists⟩ called
    unfold pruneNext at called
    split at called
    · cases called
      exact ⟨reported, lists⟩
    · rename_i owner mapped
      dsimp only at called
      split at called
      · cases called
        exact ⟨reported, lists⟩
      · rename_i tx stored
        obtain ⟨providedTags, cleared, built⟩ := bind_eq_ok.mp called
        cases built
        refine ⟨fun hash ref found => ?_, fun provider dependent listed => ?_⟩
        · rcases reported hash ref found with still | listed
          · by_cases same : hash = owner
            · subst same
              rw [refAt, stored] at still
              obtain rfl := Option.some.inj still
              exact .inr (mem_append_right _ (mem_singleton_self _))
            · left
              dsimp only
              rw [refAt_unlock, findPrevious_fst, refAt_forget, refAt_erase, if_neg same]
              exact still
          · exact .inr (mem_append_left _ listed)
        · dsimp only at listed
          rw [lists_unlock, findPrevious_fst] at listed
          exact lists provider dependent (lists_erase.mp (lists_of_forget listed)).2
  exact kept

/-- The first loop of `prune_tags`: the transactions handed out miss only the given tags, and the
transactions pruned are reported. -/
structure PrunedSoFar (pool : BasePool H T) (tags : List T) (state : Pruning H T) : Prop where
  promoting : Promoting pool (· ∈ tags) [] (· ∈ state.pruned) state.future state.ready
    state.toImport
  fewer : Within state.ready.ready pool.ready.ready
  lists : ∀ provider dependent, Lists state.ready.ready provider dependent →
    Lists pool.ready.ready provider dependent

theorem PrunedSoFar.initial (consistent : pool.AtRest)
    (tags : List T) : PrunedSoFar pool tags { future := pool.future, ready := pool.ready } where
  promoting := .initial consistent _ _ _
  fewer _ _ found := found
  lists _ _ listed := listed

theorem pruneTag_prunedSoFar {state : Pruning H T}
    (given : tag ∈ tags) (soFar : PrunedSoFar pool tags state) :
    ∃ next, pruneTag order state tag = .ok next ∧ PrunedSoFar pool tags next := by
  obtain ⟨future, unlocked, ran, -, moved, -⟩ := soFar.promoting.satisfyTags order
    [tag] (fun other mem => mem_singleton.mp mem ▸ given)
  obtain ⟨ready, pruned, called, provided, fewer⟩ :=
    ReadyTransactions.pruneTags_returns moved.consistent.provided tag
  obtain ⟨reported, lists⟩ := pruneTags_reports called
  simp only [pruneTag, ran, ok_bind, called]
  have shrunk := moved.perm perm_append_comm
  have within : Within ready.ready pool.ready.ready := fun hash ref found =>
    soFar.fewer hash ref (fewer hash ref found)
  refine ⟨_, rfl, ⟨shrunk.consistent.shrink provided fewer, shrunk.waits, shrunk.opens,
    fun hash ref found => .inl (within hash ref found), fun tx held => ?_⟩, within,
    fun provider dependent listed => soFar.lists provider dependent (lists _ _ listed)⟩
  rcases shrunk.present tx held with (⟨ref, found, same⟩ | waits) | pends | gone
  · rcases reported _ ref found with stays | gone
    · exact .inl (.inl ⟨ref, stays, same⟩)
    · exact .inr (.inr (mem_append_right _ (same ▸ gone)))
  · exact .inl (.inr waits)
  · exact .inr (.inl pends)
  · exact .inr (.inr (mem_append_left _ gone))

/-- What a prune has reported as dropped. -/
def PruneStatus.Drops (status : PruneStatus H T) (tx : Transaction H T) : Prop :=
  tx ∈ status.pruned ∨ tx.hash ∈ status.failed ∨ ∃ imported ∈ status.promoted, imported.Drops tx

/-- A transaction that is refused in the middle of promotions was refused at the start, or meets
a tag of another promotion. -/
theorem Promoting.refused {waiting : WaitingTransaction H T}
    (promoting : Promoting start available [] Dropped future ready pending)
    (mem : waiting ∈ pending) (low : ready.Refused waiting.transaction) (begun : start.AtRest) :
    start.ready.Refused waiting.transaction ∨ ∃ other, start.future.Opens available other ∧
      other ≠ waiting.transaction ∧
      ∃ tag ∈ waiting.transaction.provides, tag ∈ other.provides := by
  by_contra both
  rw [not_or] at both
  have before : ∀ hash ∈ ready.replaceHashes waiting.transaction,
      hash ∈ start.ready.replaceHashes waiting.transaction ∧
        ready.priorityAt hash = start.ready.priorityAt hash := by
    intro hash member
    obtain ⟨tag, given, mapped⟩ := mem_replaceHashes.mp member
    obtain ⟨ref, found, provides⟩ := promoting.consistent.provided.mapped_iff.mp mapped
    rcases promoting.joined hash ref found with first | never | opens
    · refine ⟨mem_replaceHashes.mpr ⟨tag, given, begun.provided.mapped_iff.mpr
        ⟨ref, first, provides⟩⟩, ?_⟩
      have same := (congrArg (Option.map (·.transaction.priority.toNat))
        (found.trans first.symm))
      simp only [refAt, Option.map_map, Function.comp_def] at same
      rw [priorityAt, priorityAt, same]
    · exact absurd never not_mem_nil
    · refine absurd ⟨ref.transaction, opens, fun same => ?_, tag, given, provides⟩ both.2
      have named := promoting.consistent.provided.hash hash ref found
      exact (promoting.consistent.passed found).pends waiting mem (same ▸ named)
  refine both.1 ⟨?_, low.2.trans ?_⟩
  · obtain ⟨hash, member⟩ := Finset.nonempty_iff_ne_empty.mpr low.1
    exact Finset.ne_empty_of_mem (before hash member).1
  · calc ∑ hash ∈ ready.replaceHashes waiting.transaction, ready.priorityAt hash
        = ∑ hash ∈ ready.replaceHashes waiting.transaction, start.ready.priorityAt hash :=
          Finset.sum_congr rfl fun hash member => (before hash member).2
      _ ≤ ∑ hash ∈ start.ready.replaceHashes waiting.transaction, start.ready.priorityAt hash :=
          Finset.sum_le_sum_of_subset fun hash member => (before hash member).1

theorem Promoting.unwanted (promoting : Promoting start available own Dropped future ready pending)
    (unwanted : start.Unwanted tags)
    (satisfied : Satisfied tags.toFinset future afterFuture unlocked) : unlocked = [] := by
  refine eq_nil_iff_forall_not_mem.mpr fun tx mem => ?_
  obtain ⟨hash, old, stored, gone, -⟩ := (satisfied.unlocked tx).mp mem
  obtain ⟨first, waited, -, fewer, -⟩ := promoting.waits hash old stored
  have disjoint : ∀ tag ∈ old.missingTags, tag ∉ tags.toFinset := fun tag missing listed =>
    unwanted hash first waited tag (mem_toFinset.mp listed) (fewer missing)
  rw [leftOver_of_disjoint disjoint] at gone
  cases gone

end

/-- A transaction that waits for tag 7. -/
def waitingTransfer : Transaction Nat Nat :=
  { bytes := 1, hash := 2, priority := 2, validTill := 64, requires := [7], provides := [9] }

/-- A transaction that provides tag 7. -/
def unlockingTransfer : Transaction Nat Nat :=
  { bytes := 1, hash := 3, priority := 1, validTill := 64, requires := [], provides := [7] }

/-- A transaction that is ready and of high priority. -/
def valuableTransfer : Transaction Nat Nat :=
  { bytes := 1, hash := 1, priority := 5, validTill := 64, requires := [], provides := [8] }

section

variable {pool : BasePool Nat Nat} (keys : pool.future.waiting.keys = {2})
  (only : (pool.future.waiting.lookup 2).all
    (fun waiting => waiting.transaction = waitingTransfer) = true)

include keys only

theorem eq_waitingTransfer {hash : Nat} {tx : WaitingTransaction Nat Nat}
    (stored : pool.future.waiting.lookup hash = some tx) :
    pool.future.waiting.lookup 2 = some tx ∧ tx.transaction = waitingTransfer := by
  have here := Finmap.mem_keys.mpr (Finmap.mem_of_lookup_eq_some stored)
  rw [keys, Finset.mem_singleton] at here
  rw [here] at stored
  rw [stored] at only
  exact ⟨stored, of_decide_eq_true only⟩

theorem quiet_unlocking (empty : pool.ready.providedTags = ∅) :
    pool.ready.replaceHashes unlockingTransfer = ∅ ∧
      pool.Quiet (· ∈ unlockingTransfer.provides) unlockingTransfer.provides := by
  refine ⟨by rw [replaceHashes, empty]; rfl, ⟨?_, ?_⟩⟩
  · intro tx promotable tag mem
    rw [(eq_waitingTransfer keys only promotable.1).2] at mem
    rw [mem_singleton.mp mem, empty]
    decide
  · intro tx other first second ne
    exact absurd (Option.some.inj ((eq_waitingTransfer keys only first.1).1.symm.trans
      (eq_waitingTransfer keys only second.1).1)) ne

end

end Brace.TransactionPool.BasePool
