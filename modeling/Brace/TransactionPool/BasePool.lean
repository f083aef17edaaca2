import Brace.TransactionPool.Ready

/-!
# The base pool

Model of `client/transaction-pool/graph/src/base_pool.rs`: the ready and the future queue, and the
promotion of future transactions when an imported transaction or a pruned tag satisfies them.
Operations return the pool together with the source's result, or panic.
-/

namespace Brace.TransactionPool

open Brace.Lib

/-- `Imported` -/
inductive Imported (H T : Type)
  | ready (hash : H) (promoted failed : List H) (removed : List (Transaction H T))
  | future (hash : H)
  deriving DecidableEq

/-- `PruneStatus` -/
structure PruneStatus (H T : Type) where
  /-- A list of imports that satisfying the tag triggered. -/
  promoted : List (Imported H T) := []
  /-- A list of transactions that failed to be promoted and now are discarded. -/
  failed : List H := []
  pruned : List (Transaction H T) := []
  deriving DecidableEq

/-- `RECENTLY_PRUNED_TAGS`: store last pruned tags for given number of invocations. -/
abbrev recentlyPrunedTags : Nat := 2

/-- `BasePool` -/
structure BasePool (H T : Type) where
  rejectFutureTransactions : Bool
  future : FutureTransactions H T := {}
  ready : ReadyTransactions H T := {}
  /-- Store recently pruned tags (for last two invocations). -/
  recentlyPruned : Vector (Finset T) recentlyPrunedTags := .replicate recentlyPrunedTags ∅
  recentlyPrunedIndex : Fin recentlyPrunedTags := 0

/-- `Limit` -/
structure Limit where
  /-- Maximal number of transactions in the queue. -/
  count : Nat
  /-- Maximal size of encodings of all transactions in the queue. -/
  totalBytes : Nat
  deriving DecidableEq

/-- `Limit::is_exceeded` -/
def Limit.isExceeded (limit : Limit) (count bytes : Nat) : Bool :=
  limit.count < count || limit.totalBytes < bytes

namespace BasePool

variable {H T : Type} [DecidableEq H] [DecidableEq T]

/-- `BasePool::new` -/
def new (rejectFutureTransactions : Bool) : BasePool H T :=
  { rejectFutureTransactions }

/-! ## Import -/

/-- The variables of the loop of `import_to_ready`. -/
structure Promotion (H T : Type) where
  future : FutureTransactions H T
  ready : ReadyTransactions H T
  promoted : List H := []
  failed : List H := []
  removed : List (Transaction H T)

variable (order : Order H T)

/-- One round of the loop of `import_to_ready`, after the first. -/
def promoteNext (state : Promotion H T) (tx : WaitingTransaction H T) :
    Except Panic (Promotion H T × List (WaitingTransaction H T)) := do
  let (future, unlocked) ← state.future.satisfyTags order tx.transaction.provides
  let (ready, outcome) ← state.ready.importTransaction order tx
  match outcome with
  | .ok replaced =>
    .ok ({ state with
        future, ready
        promoted := state.promoted ++ [tx.transaction.hash]
        removed := state.removed ++ replaced }, unlocked.reverse)
  | .error _ =>
    .ok ({ state with future, ready, failed := state.failed ++ [tx.transaction.hash] },
      unlocked.reverse)

variable (pool : BasePool H T)

/-- `BasePool::import_to_ready`. The first round of its loop takes the transaction itself and
returns the error of the import; every transaction that the loop pushes was waiting before, so
the waiting ones bound the rounds. -/
def importToReady (tx : WaitingTransaction H T) :
    Except Panic (BasePool H T × Except (Error H) (Imported H T)) := do
  let hash := tx.transaction.hash
  let (future, unlocked) ← pool.future.satisfyTags order tx.transaction.provides
  let (ready, outcome) ← pool.ready.importTransaction order tx
  match outcome with
  | .error error => .ok ({ pool with future, ready }, .error error)
  | .ok replaced =>
    let last ← worklist (promoteNext order) (unlocked.length + future.len)
      { future, ready, removed := replaced } unlocked.reverse
    if last.removed.any (·.hash = hash) then
      let (ready, _) ← last.ready.removeSubtree last.promoted
      .ok ({ pool with future := last.future, ready }, .error .cycleDetected)
    else
      .ok ({ pool with future := last.future, ready := last.ready },
        .ok (.ready hash last.promoted last.failed last.removed))

/-- `BasePool::import`, at the given time. -/
def importTransaction (tx : Transaction H T) (now : Nat) :
    Except Panic (BasePool H T × Except (Error H) (Imported H T)) :=
  if pool.future.contains tx.hash || pool.ready.contains tx.hash then
    .ok (pool, .error (.alreadyImported tx.hash))
  else
    let waiting := WaitingTransaction.new tx pool.ready.providedTags pool.recentlyPruned.toList now
    if ¬ waiting.isReady then
      if pool.rejectFutureTransactions then .ok (pool, .error .rejectedFutureTransaction)
      else do
        let future ← pool.future.importTransaction order waiting
        .ok ({ pool with future }, .ok (.future tx.hash))
    else pool.importToReady order waiting

/-! ## Removal -/

/-- `BasePool::remove_subtree`, with the transactions removed. -/
def removeSubtree (hashes : List H) : Except Panic (BasePool H T × List (Transaction H T)) := do
  let (ready, removedReady) ← pool.ready.removeSubtree hashes
  let (future, removedFuture) := pool.future.remove order hashes
  .ok ({ pool with ready, future }, removedReady ++ removedFuture)

/-- `BasePool::clear_future`, with the transactions removed. -/
def clearFuture : BasePool H T × List (Transaction H T) :=
  let (future, removed) := pool.future.clear order
  ({ pool with future }, removed)

/-- A loop of `enforce_limits`: while a queue exceeds its limit, remove its worst transaction
and all that depend on it. -/
def enforceLimit (order : Order H T) (exceeded : BasePool H T → Bool)
    (worst : BasePool H T → Option H) :
    Nat → BasePool H T × List (Transaction H T) →
      Except Panic (BasePool H T × List (Transaction H T))
  | 0, state => .ok state
  | rounds + 1, (pool, removed) =>
    if exceeded pool then
      match worst pool with
      | none => .ok (pool, removed)
      | some hash => do
        let (pool, more) ← pool.removeSubtree order [hash]
        enforceLimit order exceeded worst rounds (pool, removed ++ more)
    else .ok (pool, removed)

/-- The transaction that occupies the ready queue for the longest time. -/
def worstReady : Option H :=
  (pool.ready.fold order fun minimal current =>
    match minimal with
    | none => some current.transaction
    | some tx =>
      if tx.insertionId > current.transaction.insertionId then some current.transaction
      else some tx).map (·.transaction.hash)

/-- The transaction that occupies the future queue for the longest time. -/
def worstFuture : Option H :=
  (pool.future.fold order fun minimal current =>
    match minimal with
    | none => some current
    | some tx => if tx.importedAt > current.importedAt then some current else some tx).map
      (·.transaction.hash)

/-- `BasePool::enforce_limits`, with the transactions removed. Each round removes a transaction,
so the length of the queue bounds the rounds. -/
def enforceLimits (ready future : Limit) :
    Except Panic (BasePool H T × List (Transaction H T)) := do
  let (pool, removed) ← enforceLimit order
    (fun pool => ready.isExceeded pool.ready.len pool.ready.bytes) (worstReady order)
    pool.ready.len (pool, [])
  enforceLimit order
    (fun pool => future.isExceeded pool.future.len pool.future.bytes) (worstFuture order)
    pool.future.len (pool, removed)

/-! ## Pruning -/

/-- The variables of the first loop of `prune_tags`. -/
structure Pruning (H T : Type) where
  future : FutureTransactions H T
  ready : ReadyTransactions H T
  recentlyPruned : Finset T := ∅
  toImport : List (WaitingTransaction H T) := []
  pruned : List (Transaction H T) := []

/-- One tag of the first loop of `prune_tags`. -/
def pruneTag (state : Pruning H T) (tag : T) : Except Panic (Pruning H T) := do
  let (future, unlocked) ← state.future.satisfyTags order [tag]
  let (ready, pruned) ← state.ready.pruneTags tag
  .ok
    { future, ready
      recentlyPruned := insert tag state.recentlyPruned
      toImport := state.toImport ++ unlocked
      pruned := state.pruned ++ pruned }

/-- One transaction of the second loop of `prune_tags`. -/
def promoteOne (state : BasePool H T × PruneStatus H T) (tx : WaitingTransaction H T) :
    Except Panic (BasePool H T × PruneStatus H T) := do
  let (pool, outcome) ← state.1.importToReady order tx
  match outcome with
  | .ok imported => .ok (pool, { state.2 with promoted := state.2.promoted ++ [imported] })
  | .error _ => .ok (pool, { state.2 with failed := state.2.failed ++ [tx.transaction.hash] })

/-- `BasePool::prune_tags` -/
def pruneTags (tags : List T) : Except Panic (BasePool H T × PruneStatus H T) := do
  let state ← tags.foldlM (pruneTag order) { future := pool.future, ready := pool.ready }
  let index := pool.recentlyPrunedIndex
  state.toImport.foldlM (promoteOne order)
    ({ pool with
        future := state.future
        ready := state.ready
        recentlyPruned := pool.recentlyPruned.set index state.recentlyPruned
        recentlyPrunedIndex := index + 1 },
      { pruned := state.pruned })

/-- The recently pruned tags after a pruning. -/
def remember (tags : Finset T) : Vector (Finset T) recentlyPrunedTags :=
  pool.recentlyPruned.set pool.recentlyPrunedIndex tags

end BasePool

end Brace.TransactionPool
