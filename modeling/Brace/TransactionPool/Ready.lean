import Brace.Lib.OrderedSet
import Brace.Lib.Worklist
import Brace.TransactionPool.Future

/-!
# The ready queue

Model of `client/transaction-pool/graph/src/ready.rs`: transactions whose required tags are all
provided, with the graph of which transaction unlocks which. Every operation is a computation
that returns or panics. A `Vec` used as a stack is a list with its top first, and the two loops
that pop from such a stack are work lists (`Brace.Lib.worklist`), with a bound on their rounds
that `removeSubtreeWithTagFilter_returns` and `pruneTags_returns` show to be enough.
-/

namespace Brace.TransactionPool

open Brace.Lib Finmap

/-- `TransactionRef` -/
structure TransactionRef (H T : Type) where
  transaction : Transaction H T
  /-- Unique id when transaction was inserted into the pool. -/
  insertionId : Nat
  deriving DecidableEq

/-- `Ord for TransactionRef` -/
def TransactionRef.cmp {H T : Type} (left right : TransactionRef H T) : Ordering :=
  ((compare left.transaction.priority right.transaction.priority).then
    (compare right.transaction.validTill left.transaction.validTill)).then
      (compare right.insertionId left.insertionId)

/-- `ReadyTx` -/
structure ReadyTx (H T : Type) where
  transaction : TransactionRef H T
  unlocks : List H
  /-- How many required tags are provided inherently. -/
  requiresOffset : Nat
  deriving DecidableEq

def ReadyTx.requires {H T : Type} (tx : ReadyTx H T) : List T :=
  tx.transaction.transaction.requires

def ReadyTx.provides {H T : Type} (tx : ReadyTx H T) : List T :=
  tx.transaction.transaction.provides

/-- `ReadyTransactions` -/
structure ReadyTransactions (H T : Type) where
  insertionId : Nat := 0
  providedTags : HashMap T H := ∅
  /-- Transactions that are ready (i.e. don't have any requirements external to the pool). -/
  ready : HashMap H (ReadyTx H T) := ∅
  /-- Best transactions that are ready to be included to the block without any other previous
  transaction, worst first. -/
  best : List (TransactionRef H T) := []

/-- The errors of `sp_transaction_pool::error::Error` that the base pool returns. -/
inductive Error (H : Type)
  | alreadyImported (hash : H)
  | rejectedFutureTransaction
  | tooLowPriority (old new : UInt64)
  | cycleDetected
  deriving DecidableEq

/-- `u64::saturating_add` -/
def saturatingAdd (left right : UInt64) : UInt64 :=
  .ofNat (min (left.toNat + right.toNat) (2 ^ 64 - 1))

/-- `remove_item`: the first occurrence is replaced by the last element of the vector. -/
def removeItem {α : Type} [DecidableEq α] (item : α) : List α → List α
  | [] => []
  | head :: rest =>
    if head = item then
      match rest.getLast? with
      | none => []
      | some last => last :: rest.dropLast
    else head :: removeItem item rest

theorem removeItem_perm {α : Type} [DecidableEq α] (item : α) (items : List α) :
    (removeItem item items).Perm (items.erase item) := by
  induction items with
  | nil => exact .refl _
  | cons head rest ih =>
    unfold removeItem
    split
    · rename_i same
      rw [same, List.erase_cons_head]
      cases found : rest.getLast? with
      | none => rw [List.getLast?_eq_none_iff.mp found]
      | some last =>
        have split := List.dropLast_append_getLast? last (by rw [found]; rfl)
        calc
          (last :: rest.dropLast).Perm (rest.dropLast ++ [last]) :=
            (List.perm_append_singleton _ _).symm
          _ = rest := split
    · rename_i ne
      rw [List.erase_cons_tail (by simpa using ne)]
      exact ih.cons head

variable {H T : Type} [DecidableEq H] [DecidableEq T]

namespace ReadyTransactions

/-! ## Removal of a subtree -/

/-- One tag of the loop "remove from unlocks". The name `hash` of the removed transaction is
shadowed there: what is removed from the list is the hash of the transaction that has it. -/
def forgetUnlock (providedTags : HashMap T H) (ready : HashMap H (ReadyTx H T)) (tag : T) :
    HashMap H (ReadyTx H T) :=
  match lookup tag providedTags with
  | none => ready
  | some hash =>
    match lookup hash ready with
    | none => ready
    | some tx => insert hash { tx with unlocks := removeItem hash tx.unlocks } ready

variable (tagFilter : Option (Finset T))

/-- The provided tags that a removal takes away: the ones outside the filter. -/
def invalidated (tx : ReadyTx H T) : List T :=
  tx.provides.filter fun tag => (tagFilter.map fun tags => decide (tag ∉ tags)).getD true

/-- One round of the loop of `remove_subtree_with_tag_filter`. -/
def removeNext (state : ReadyTransactions H T × List (Transaction H T)) (hash : H) :
    Except Panic ((ReadyTransactions H T × List (Transaction H T)) × List H) :=
  match lookup hash state.1.ready with
  | none => .ok (state, [])
  | some tx =>
    let lost := invalidated tagFilter tx
    let providedTags := state.1.providedTags.eraseAll lost
    .ok (({ state.1 with
          providedTags := providedTags
          ready := tx.requires.foldl (forgetUnlock providedTags) (erase hash state.1.ready)
          best := OrderedSet.remove TransactionRef.cmp tx.transaction state.1.best },
        state.2 ++ [tx.transaction.transaction]),
      -- the dependents are removed as well when the filter does not keep every tag
      if lost = [] then [] else tx.unlocks.reverse)

variable (queue : ReadyTransactions H T)

/-- `remove_subtree_with_tag_filter`, with the transactions removed. -/
def removeSubtreeWithTagFilter (toRemove : List H) (tagFilter : Option (Finset T)) :
    Except Panic (ReadyTransactions H T × List (Transaction H T)) :=
  worklist (removeNext tagFilter)
    (toRemove.length + queue.ready.total fun tx => tx.unlocks.length) (queue, []) toRemove.reverse

/-- `remove_subtree`, with the transactions removed. -/
def removeSubtree (hashes : List H) :
    Except Panic (ReadyTransactions H T × List (Transaction H T)) :=
  queue.removeSubtreeWithTagFilter hashes none

/-! ## Import -/

/-- The queued transactions that provide a tag of the given one. -/
def replaceHashes (tx : Transaction H T) : Finset H :=
  (tx.provides.filterMap fun tag => lookup tag queue.providedTags).toFinset

/-- `replace_previous`, with the transactions removed and the hashes unlocked. -/
def replacePrevious (order : Order H T) (queue : ReadyTransactions H T) (tx : Transaction H T) :
    Except Panic (ReadyTransactions H T × Except (Error H) (List (Transaction H T) × List H)) :=
  if queue.replaceHashes tx = ∅ then .ok (queue, .ok ([], []))
  else
    let toRemove := order.replaced.list tx.hash (queue.replaceHashes tx)
    let replaced := toRemove.filterMap fun hash => lookup hash queue.ready
    let oldPriority := replaced.foldl
      (fun total tx => saturatingAdd total tx.transaction.transaction.priority) 0
    if oldPriority ≥ tx.priority then
      .ok (queue, .error (.tooLowPriority oldPriority tx.priority))
    else do
      let unlocks := replaced.flatMap (·.unlocks)
      let (queue, removed) ←
        queue.removeSubtreeWithTagFilter toRemove (some tx.provides.toFinset)
      .ok (queue, .ok (removed, unlocks))

/-- What the loop over the required tags of an imported transaction computes. -/
structure Linking (H T : Type) where
  ready : HashMap H (ReadyTx H T)
  goesToBest : Bool := true
  requiresOffset : Nat := 0

/-- One required tag of an imported transaction: its provider unlocks the transaction. -/
def link (providedTags : HashMap T H) (hash : H) (linking : Linking H T) (tag : T) :
    Except Panic (Linking H T) :=
  match lookup tag providedTags with
  | none => .ok { linking with requiresOffset := linking.requiresOffset + 1 }
  | some other =>
    match lookup other linking.ready with
    | none => .error .hashReady
    | some tx =>
      .ok { linking with
        ready := insert other { tx with unlocks := tx.unlocks ++ [hash] } linking.ready
        goesToBest := false }

/-- The rest of `import`, after the replacement of previous transactions. -/
def insertReady (transaction : Transaction H T) (unlocks : List H) :
    Except Panic (ReadyTransactions H T) := do
  let linking ← transaction.requires.foldlM (link queue.providedTags transaction.hash)
    { ready := queue.ready }
  let ref := { transaction, insertionId := queue.insertionId }
  .ok
    { insertionId := queue.insertionId
      providedTags := queue.providedTags.insertAll
        (transaction.provides.map fun tag => (tag, transaction.hash))
      ready := insert transaction.hash
        { transaction := ref, unlocks, requiresOffset := linking.requiresOffset } linking.ready
      best :=
        if linking.goesToBest then OrderedSet.insert TransactionRef.cmp ref queue.best
        else queue.best }

/-- `import`, with the transactions that were replaced. -/
def importTransaction (order : Order H T) (queue : ReadyTransactions H T)
    (tx : WaitingTransaction H T) :
    Except Panic (ReadyTransactions H T × Except (Error H) (List (Transaction H T))) :=
  if ¬ tx.isReady then .error .notReady
  else if tx.transaction.hash ∈ queue.ready then .error .alreadyImported
  else do
    let (queue, outcome) ←
      replacePrevious order { queue with insertionId := queue.insertionId + 1 } tx.transaction
    match outcome with
    | .error error => .ok (queue, .error error)
    | .ok (replaced, unlocks) =>
      let queue ← queue.insertReady tx.transaction unlocks
      .ok (queue, .ok replaced)

/-! ## Pruning -/

/-- One required tag of a pruned transaction: its provider no longer unlocks the transaction,
and is pruned as well when it unlocks nothing else. -/
def findPrevious (hash : H) (providedTags : HashMap T H)
    (state : HashMap H (ReadyTx H T) × List T) (tag : T) : HashMap H (ReadyTx H T) × List T :=
  match lookup tag providedTags with
  | none => state
  | some previous =>
    match lookup previous state.1 with
    | none => state
    | some tx =>
      let unlocks := removeItem hash tx.unlocks
      (insert previous { tx with unlocks } state.1,
        if unlocks = [] then state.2 ++ tx.provides else state.2)

/-- One transaction unlocked by a pruned one. -/
def unlock (state : HashMap H (ReadyTx H T) × List (TransactionRef H T)) (hash : H) :
    HashMap H (ReadyTx H T) × List (TransactionRef H T) :=
  match lookup hash state.1 with
  | none => state
  | some tx =>
    (insert hash { tx with requiresOffset := tx.requiresOffset + 1 } state.1,
      if tx.requiresOffset + 1 = tx.requires.length then
        OrderedSet.insert TransactionRef.cmp tx.transaction state.2
      else state.2)

/-- One tag provided by a pruned transaction, which has to be mapped to its hash. -/
def clearProvided (currentTag : T) (hash : H) (providedTags : HashMap T H) (tag : T) :
    Except Panic (HashMap T H) :=
  if lookup tag providedTags = if currentTag = tag then none else some hash then
    .ok (erase tag providedTags)
  else .error .oneProvider

/-- One round of the loop of `prune_tags`. -/
def pruneNext (state : ReadyTransactions H T × List (Transaction H T)) (tag : T) :
    Except Panic ((ReadyTransactions H T × List (Transaction H T)) × List T) :=
  match lookup tag state.1.providedTags with
  | none => .ok (state, [])
  | some hash =>
    let providedTags := erase tag state.1.providedTags
    match lookup hash state.1.ready with
    | none => .ok (({ state.1 with providedTags }, state.2), [])
    | some tx => do
      let transaction := tx.transaction.transaction
      let (ready, toRemove) := tx.requires.foldl (findPrevious transaction.hash providedTags)
        (erase hash state.1.ready, [])
      let (ready, best) := tx.unlocks.foldl unlock (ready, state.1.best)
      let providedTags ← tx.provides.foldlM (clearProvided tag transaction.hash) providedTags
      .ok (({ state.1 with providedTags, ready, best }, state.2 ++ [transaction]),
        toRemove.reverse)

/-- `prune_tags`, with the transactions removed. -/
def pruneTags (tag : T) : Except Panic (ReadyTransactions H T × List (Transaction H T)) :=
  worklist pruneNext
    (1 + (queue.ready.total fun tx => tx.provides.length) *
      queue.ready.total fun tx => tx.requires.length) (queue, []) [tag]

/-! ## Reading -/

/-- `contains` -/
def contains (hash : H) : Bool :=
  hash ∈ queue.ready

/-- `fold` -/
def fold {R : Type} (order : Order H T) (queue : ReadyTransactions H T)
    (f : Option R → ReadyTx H T → Option R) : Option R :=
  ((order.queue.list () queue.ready.keys).filterMap fun hash =>
    lookup hash queue.ready).foldl f none

/-- `len` -/
def len : Nat :=
  queue.ready.keys.card

/-- `bytes` -/
def bytes (queue : ReadyTransactions H T) : Nat :=
  queue.ready.total (·.transaction.transaction.bytes)

end ReadyTransactions

end Brace.TransactionPool
