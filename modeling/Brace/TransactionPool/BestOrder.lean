import Brace.TransactionPool.BestIterator
import Brace.TransactionPool.GraphRun

/-!
# The order that a block author sees

Removal and pruning keep the queue live and without cycles, with whatever they leave behind in the
lists and in `best`. An import keeps it so when it is refused, or when the hash is not left behind
from an earlier time in the queue, no queued transaction waits for a tag that only the new one
provides, and no provider of the new transaction depends on one that it replaces (`KeepsOrder`). In
every run of such steps the iterator is right (`get_inOrder`); each of the three can go wrong
otherwise.
-/

namespace Brace.TransactionPool.ReadyTransactions

open Brace.Lib Relation TransactionRef BestIterator Option OrderedSet Transaction

variable {H T : Type} [DecidableEq H] [DecidableEq T]

/-! ## Cycles -/

variable {queue after middle : ReadyTransactions H T} {order : Order H T} {tx : Transaction H T}
  {tag : T} {removed : List (Transaction H T)}

omit [DecidableEq T] in
theorem Depends.of_refAt
    (earlier : Within after.ready queue.ready)
    {dependent provider : H} (depends : after.Depends dependent provider) :
    queue.Depends dependent provider := by
  obtain ⟨ref, found, tag, required, other, again, own⟩ := depends
  exact ⟨ref, earlier _ _ found, tag, required, other, earlier _ _ again, own⟩

/-- No provider of the transaction depends on a transaction that it replaces. -/
def Untangled (queue : ReadyTransactions H T) (tx : Transaction H T) : Prop :=
  ∀ tag ∈ tx.requires, ∀ provider, queue.Provides tag provider →
    ∀ replaced, queue.Replaces tx replaced → ¬ TransGen queue.Depends provider replaced

section

variable (importing : Importing order tx queue middle after)

include importing

theorem Importing.provides_others {hash : H} (ne : hash ≠ tx.hash)
    (provides : after.Provides tag hash) : queue.Provides tag hash := by
  obtain ⟨ref, found, own⟩ := provides
  rcases importing.refAt_cases found with ⟨here, -⟩ | ⟨-, before, -⟩
  · exact absurd here ne
  · exact ⟨ref, before, own⟩

theorem Importing.provides_own (provides : after.Provides tag tx.hash) : tag ∈ tx.provides := by
  obtain ⟨ref, found, own⟩ := provides
  rcases importing.refAt_cases found with ⟨-, rfl⟩ | ⟨ne, -⟩
  · exact own
  · exact absurd rfl ne

/-- **An untangled and timely transaction closes no cycle.** -/
theorem Importing.acyclic (acyclic : Acyclic queue.Depends) (timely : queue.Timely tx)
    (untangled : queue.Untangled tx) : Acyclic after.Depends := by
  refine Acyclic.redirect tx.hash (queue.Replaces tx) ?_ ?_ acyclic ?_ ?_
  · rintro left right leftOther rightOther ⟨ref, found, tag, required, provides⟩
    rcases importing.refAt_cases found with ⟨here, -⟩ | ⟨-, before, -⟩
    · exact absurd here leftOther
    · exact ⟨ref, before, tag, required, importing.provides_others rightOther provides⟩
  · rintro left leftOther ⟨ref, found, tag, required, provides⟩
    have own := importing.provides_own provides
    rcases importing.refAt_cases found with ⟨here, -⟩ | ⟨-, before, stays⟩
    · exact absurd here leftOther
    · obtain ⟨provider, earlier⟩ := timely left ref before
        (fun replaces => stays (importing.removed_of_replaces replaces)) tag required own
      exact ⟨provider, ⟨tag, own, earlier⟩, ref, before, tag, required, earlier⟩
  · rintro ⟨ref, found, tag, required, provides⟩
    rw [importing.inserted.toPlaced.refAt_own] at found
    obtain rfl := some.inj found
    exact importing.apart tag required (importing.provides_own provides)
  · rintro left ⟨ref, found, tag, required, provides⟩
    rw [importing.inserted.toPlaced.refAt_own] at found
    obtain rfl := some.inj found
    have ne : left ≠ tx.hash := by
      rintro rfl
      exact importing.apart tag required (importing.provides_own provides)
    exact untangled tag required left (importing.provides_others ne provides)

end

/-! ## The order of `best` -/

omit [DecidableEq T] in
theorem unlock_sorted (hashes : List H)
    {state : HashMap H (ReadyTx H T) × List (TransactionRef H T)}
    (sorted : Sorted cmp state.2) :
    Sorted cmp (hashes.foldl unlock state).2 := by
  induction hashes generalizing state with
  | nil => exact sorted
  | cons hash rest ih =>
    apply ih
    unfold unlock
    split
    · exact sorted
    · dsimp only
      split
      · exact insert_sorted sorted _
      · exact sorted

section

variable (sorted : Sorted cmp queue.best)

include sorted

theorem removeSubtreeWithTagFilter_sorted {toRemove : List H} {tagFilter : Option (Finset T)}
    (ran : queue.removeSubtreeWithTagFilter toRemove tagFilter = .ok (after, removed)) :
    Sorted cmp after.best := by
  refine worklist_invariant (fun state => Sorted cmp state.1.best) ?_ sorted ran
  intro state hash next pushed kept called
  unfold removeNext at called
  split at called
  · obtain ⟨rfl, -⟩ := ok_pair_inj called
    exact kept
  · obtain ⟨rfl, -⟩ := ok_pair_inj called
    exact List.Pairwise.filter _ kept

theorem pruneTags_sorted (ran : queue.pruneTags tag = .ok (after, removed)) :
    Sorted cmp after.best := by
  refine worklist_invariant (fun state => Sorted cmp state.1.best) ?_ sorted ran
  intro state name next pushed kept called
  unfold pruneNext at called
  split at called
  · obtain ⟨rfl, -⟩ := ok_pair_inj called
    exact kept
  · dsimp only at called
    split at called
    · obtain ⟨rfl, -⟩ := ok_pair_inj called
      exact kept
    · obtain ⟨cleared, -, ended⟩ := bind_eq_ok.mp called
      obtain ⟨rfl, -⟩ := ok_pair_inj ended
      exact unlock_sorted _ kept

theorem replacePrevious_sorted {outcome : Except (Error H) (List (Transaction H T) × List H)}
    (ran : replacePrevious order queue tx = .ok (after, outcome)) :
    Sorted cmp after.best := by
  unfold replacePrevious at ran
  split at ran
  · obtain ⟨rfl, -⟩ := ok_pair_inj ran
    exact sorted
  · dsimp only at ran
    split at ran
    · obtain ⟨rfl, -⟩ := ok_pair_inj ran
      exact sorted
    · obtain ⟨⟨middle, removed⟩, removing, ended⟩ := bind_eq_ok.mp ran
      obtain ⟨rfl, -⟩ := ok_pair_inj ended
      exact removeSubtreeWithTagFilter_sorted sorted removing

theorem importTransaction_sorted {tx : WaitingTransaction H T}
    {outcome : Except (Error H) (List (Transaction H T))}
    (ran : queue.importTransaction order tx = .ok (after, outcome)) :
    Sorted cmp after.best := by
  unfold importTransaction at ran
  split at ran
  · cases ran
  · split at ran
    · cases ran
    · obtain ⟨⟨middle, replaced⟩, replacing, rest⟩ := bind_eq_ok.mp ran
      have kept := replacePrevious_sorted (by exact sorted) replacing
      cases replaced with
      | error error =>
        obtain ⟨rfl, -⟩ := ok_pair_inj rest
        exact kept
      | ok pair =>
        obtain ⟨last, inserting, ended⟩ := bind_eq_ok.mp rest
        obtain ⟨rfl, -⟩ := ok_pair_inj ended
        obtain ⟨linking, -, built⟩ := bind_eq_ok.mp inserting
        obtain rfl := Except.ok.inj built
        dsimp only
        split
        · exact insert_sorted kept _
        · exact kept

end

/-! ## Runs -/

variable (queue)

/-- The operation keeps the iterator over the queue right. -/
def KeepsOrder : Op H T → Prop
  | .importTransaction _ tx => queue.Refused tx.transaction ∨
      tx.transaction.Apart ∧ tx.transaction.RepeatsAlone ∧ queue.Timely tx.transaction ∧
        queue.Forgotten tx.transaction.hash ∧ queue.Untangled tx.transaction
  | _ => True

/-- What the iterator needs of a queue. -/
structure Iterable : Prop where
  live : Live queue
  acyclic : Acyclic queue.Depends
  sorted : Sorted cmp queue.best

variable {queue}

theorem iterable_empty : Iterable ({} : ReadyTransactions H T) where
  live := graph_empty.toLive
  acyclic hash cycle := by
    obtain ⟨next, depends, -⟩ := TransGen.head'_iff.mp cycle
    exact Finmap.notMem_empty depends.mem_dependent
  sorted := List.Pairwise.nil

theorem step_iterable {next : ReadyTransactions H T} (iterable : Iterable queue) {op : Op H T}
    (keeps : queue.KeepsOrder op) (ran : step queue op = .ok next) : Iterable next := by
  cases op with
  | importTransaction order tx =>
    obtain ⟨outcome, called⟩ := map_fst_eq_ok.mp ran
    have sorted := importTransaction_sorted iterable.sorted called
    rcases importTransaction_cases iterable.live called with ⟨-, rfl⟩ | ⟨high, accepted⟩
    · exact ⟨iterable.live.bump, iterable.acyclic, sorted⟩
    · obtain ⟨apart, repeats, timely, forgotten, untangled⟩ := Or.resolve_left keeps high
      obtain ⟨middle, importing⟩ := accepted apart repeats
      exact ⟨importing.live_after timely forgotten,
        importing.acyclic iterable.acyclic timely untangled, sorted⟩
  | removeSubtree hashes =>
    obtain ⟨removed, called⟩ := map_fst_eq_ok.mp ran
    obtain ⟨after, list, again, -, -, fewer⟩ :=
      removeSubtree_returns iterable.live.provided hashes
    obtain ⟨rfl, -⟩ := ok_pair_inj (called.symm.trans again)
    exact ⟨removeSubtree_live iterable.live called,
      iterable.acyclic.mono fun _ _ depends => depends.of_refAt fewer,
      removeSubtreeWithTagFilter_sorted iterable.sorted called⟩
  | pruneTags tag =>
    obtain ⟨removed, called⟩ := map_fst_eq_ok.mp ran
    obtain ⟨after, list, again, -, fewer⟩ := pruneTags_returns iterable.live.provided tag
    obtain ⟨rfl, -⟩ := ok_pair_inj (called.symm.trans again)
    exact ⟨pruneTags_live iterable.live called,
      iterable.acyclic.mono fun _ _ depends => depends.of_refAt fewer,
      pruneTags_sorted iterable.sorted called⟩

/-- **The order that a block author sees.** In every state that a run reaches by steps that keep
the iterator right, `get` yields every queued transaction once, after its providers, and each time
the greatest of the transactions whose providers were all yielded. -/
theorem get_inOrder {queue : ReadyTransactions H T}
    (reached : Reachable step (fun queue op => queue.KeepsOrder op) {} queue) :
    ∃ yielded, queue.get.Drains yielded ∧ queue.InOrder yielded := by
  have iterable : Iterable queue := by
    refine reached.invariant iterable_empty ?_
    intro state op next iterable keeps ran
    exact step_iterable iterable keeps ran
  exact drains_inOrder iterable.live iterable.acyclic iterable.sorted

theorem ImportsUnrelated.keepsOrder {op : Op H T} (imports : queue.ImportsUnrelated op) :
    queue.KeepsOrder op := by
  cases op with
  | importTransaction order tx =>
    obtain ⟨tagged, unrelated⟩ := imports
    exact .inr ⟨tagged.2.2, tagged.repeatsAlone, unrelated.fits.timely,
      ⟨fun other queued stored => (unrelated.queued stored).1, unrelated.2⟩,
      fun _ _ _ _ replaced replaces => absurd replaces (unrelated.not_replaces replaced)⟩
  | removeSubtree _ | pruneTags _ => trivial

/-- A transaction of a higher priority that has nothing to do with `first` and `second`. -/
def apart : WaitingTransaction Nat Nat :=
  { transaction := { bytes := 1, hash := 4, priority := 5, validTill := 64, requires := []
                     provides := [9] }
    missingTags := ∅, importedAt := 0 }

/-- With a provider, its dependent and a third transaction of a higher priority in the queue, the
iterator yields the third one, the provider and the dependent, and this is right. -/
theorem get_inOrder_three : ∃ queue : ReadyTransactions Nat Nat,
    Reachable step (fun queue op => queue.KeepsOrder op) {} queue ∧
    queue.get.Drains [apart.transaction, first.transaction, second.transaction] ∧
      queue.InOrder [apart.transaction, first.transaction, second.transaction] := by
  have found : ((run step ImportsUnrelated ({} : ReadyTransactions Nat Nat)
      [.importTransaction (.sorted Nat Nat) first, .importTransaction (.sorted Nat Nat) second,
        .importTransaction (.sorted Nat Nat) apart]).any fun queue => decide (queue.get.drain 4 =
          some [apart.transaction, first.transaction, second.transaction])) = true := by
    decide +kernel
  obtain ⟨queue, reached, drained⟩ := exists_reachable_of_run _ found
  have keeps := reached.mono fun _ _ imports => imports.keepsOrder
  obtain ⟨yielded, drains, order⟩ := get_inOrder keeps
  obtain rfl := drains.unique (drains_of_drain drained)
  exact ⟨queue, keeps, drains, order⟩

/-- A transaction that replaces `first` and requires the tag of `second`. -/
def third : WaitingTransaction Nat Nat :=
  { transaction := { bytes := 1, hash := 3, priority := 2, validTill := 64, requires := [8]
                     provides := [7] }
    missingTags := ∅, importedAt := 0 }

def transactionAt (queue : ReadyTransactions H T) (hash : H) : Option (Transaction H T) :=
  (refAt queue.ready hash).map (·.transaction)

/-- **The order goes wrong.** A transaction that is imported again after it was pruned is yielded
twice, of two transactions that require each other's tag after a replacement none is yielded, and a
transaction is yielded before a provider that was imported after it. -/
theorem order_goes_wrong :
    (∃ queue, Reachable step (fun _ op => op.Brings WellTagged)
      ({} : ReadyTransactions Nat Nat) queue ∧
        queue.get.Drains [first.transaction, first.transaction] ∧
        ¬ queue.InOrder [first.transaction, first.transaction]) ∧
    (∃ queue, Reachable step (fun _ op => op.Brings WellTagged)
      ({} : ReadyTransactions Nat Nat) queue ∧ queue.get.Drains [] ∧ ¬ queue.InOrder []) ∧
    ∃ queue, Reachable step (fun _ op => op.Brings WellTagged)
      ({} : ReadyTransactions Nat Nat) queue ∧
        queue.get.Drains [second.transaction, first.transaction] ∧
        ¬ queue.InOrder [second.transaction, first.transaction] := by
  refine ⟨?_, ?_, ?_⟩
  · refine exists_reachable_of_found [.importTransaction (.sorted Nat Nat) first, .pruneTags 7,
        .importTransaction (.sorted Nat Nat) first]
      (fun queue => queue.get.drain 3 = some [first.transaction, first.transaction])
      (by decide +kernel) fun queue _ drains =>
        ⟨drains_of_drain drains, fun order => ?_⟩
    exact absurd order.once (by decide)
  · refine exists_reachable_of_found [.importTransaction (.sorted Nat Nat) first,
        .importTransaction (.sorted Nat Nat) second, .importTransaction (.sorted Nat Nat) third]
      (fun queue => queue.transactionAt 2 = some second.transaction ∧ queue.get.drain 1 = some [])
      (by decide +kernel) fun queue _ found =>
        ⟨drains_of_drain found.2, fun order => ?_⟩
    exact absurd ((order.every second.transaction).mpr (map_eq_some_iff.mp found.1))
      List.not_mem_nil
  · refine exists_reachable_of_found [.importTransaction (.sorted Nat Nat) second,
        .importTransaction (.sorted Nat Nat) first]
      (fun queue => queue.transactionAt 1 = some first.transaction ∧
        queue.transactionAt 2 = some second.transaction ∧
          queue.get.drain 3 = some [second.transaction, first.transaction])
      (by decide +kernel) fun queue _ ⟨provider, dependent, drains⟩ =>
        ⟨drains_of_drain drains, fun order => ?_⟩
    obtain ⟨left, leftFound, leftSame⟩ := map_eq_some_iff.mp dependent
    obtain ⟨right, rightFound, rightSame⟩ := map_eq_some_iff.mp provider
    have depends : queue.Depends 2 1 := by
      refine ⟨left, leftFound, 7, ?_, right, rightFound, ?_⟩
      · rw [leftSame]
        decide
      · rw [rightSame]
        decide
    exact absurd ((order.greatest [] _ _ rfl).1 1 depends) List.not_mem_nil

end Brace.TransactionPool.ReadyTransactions
