import Brace.Lib.HashMap
import Brace.Lib.Iteration
import Brace.Lib.Run

/-!
# The future queue

Model of `client/transaction-pool/graph/src/future.rs`: transactions whose required tags are not
all provided yet. Hashes and tags stay abstract. A hash set is a finite set, and a loop over one
takes the order that `Order` gives it, which is an input of every operation.

A transaction keeps the fields that the queues read; the raw extrinsic and the flag for its
propagation are left out. Numbers of transactions, bytes and insertions are natural numbers.
-/

namespace Brace.TransactionPool

open Brace.Lib Finmap

/-- The ways a queue operation ends without returning. -/
inductive Panic
  /-- "Only ready transactions can be imported." -/
  | notReady
  /-- "Transaction is ready." -/
  | ready
  /-- "Transaction is already imported." -/
  | alreadyImported
  /-- `HASH_READY`: "every hash retrieved from `provided_tags` is always present in `ready`" -/
  | hashReady
  /-- `WAITING_PROOF`: "every hash from `wanted_tags` is always present in `waiting`" -/
  | waitingProof
  /-- "The pool contains exactly one transaction providing given tag" -/
  | oneProvider
  deriving DecidableEq

variable (H T : Type)

/-- `Transaction` -/
structure Transaction where
  /-- Number of bytes encoding of the transaction requires. -/
  bytes : Nat
  hash : H
  /-- Transaction priority (higher = better) -/
  priority : UInt64
  validTill : UInt64
  requires : List T
  provides : List T
  deriving DecidableEq

/-- The orders in which one operation visits the hash sets and hash maps that it meets. -/
structure Order where
  /-- The transactions that wait for a tag. -/
  wanted : Iteration T H
  /-- The missing tags of a transaction. -/
  missing : Iteration H T
  /-- The transactions that a transaction replaces. -/
  replaced : Iteration H H
  /-- The hashes of a queue. -/
  queue : Iteration Unit H

/-- Every set by increasing order. -/
def Order.sorted [LinearOrder H] [LinearOrder T] : Order H T :=
  ⟨.sorted _ _, .sorted _ _, .sorted _ _, .sorted _ _⟩

instance {H T : Type} : Nonempty (Order H T) :=
  ⟨⟨Classical.ofNonempty, Classical.ofNonempty, Classical.ofNonempty, Classical.ofNonempty⟩⟩

/-- `WaitingTransaction`, a transaction with partially satisfied dependencies. -/
structure WaitingTransaction where
  transaction : Transaction H T
  /-- Tags that are required and have not been satisfied yet by other transactions in the pool. -/
  missingTags : Finset T
  importedAt : Nat
  deriving DecidableEq

/-- `FutureTransactions` -/
structure FutureTransactions where
  /-- Tags that are not yet provided by any transaction and we await for them. -/
  wantedTags : HashMap T (Finset H) := ∅
  /-- Transactions waiting for a particular other transaction. -/
  waiting : HashMap H (WaitingTransaction H T) := ∅

variable {H T : Type} [DecidableEq H] [DecidableEq T]

namespace WaitingTransaction

/-- `WaitingTransaction::new`, at the given time. -/
def new (transaction : Transaction H T) (provided : HashMap T H)
    (recentlyPruned : List (Finset T)) (now : Nat) : WaitingTransaction H T where
  transaction := transaction
  missingTags := (transaction.requires.filter fun tag =>
    !(decide (tag ∈ provided) || recentlyPruned.any fun pruned => tag ∈ pruned)).toFinset
  importedAt := now

/-- `WaitingTransaction::satisfy_tag` -/
def satisfyTag (tx : WaitingTransaction H T) (tag : T) : WaitingTransaction H T :=
  { tx with missingTags := tx.missingTags.erase tag }

/-- `WaitingTransaction::is_ready` -/
def isReady (tx : WaitingTransaction H T) : Bool :=
  tx.missingTags = ∅

end WaitingTransaction

namespace FutureTransactions

/-- Add a transaction to the ones that want a tag. -/
def want (hash : H) (wantedTags : HashMap T (Finset H)) (tag : T) : HashMap T (Finset H) :=
  insert tag (insert hash ((lookup tag wantedTags).getD ∅)) wantedTags

variable (order : Order H T)

variable (future : FutureTransactions H T)

/-- `FutureTransactions::import` -/
def importTransaction (tx : WaitingTransaction H T) : Except Panic (FutureTransactions H T) :=
  if tx.isReady then .error .ready
  else if tx.transaction.hash ∈ future.waiting then .error .alreadyImported
  else
    .ok
      { wantedTags := (order.missing.list tx.transaction.hash tx.missingTags).foldl
          (want tx.transaction.hash) future.wantedTags
        waiting := insert tx.transaction.hash tx future.waiting }

/-- `FutureTransactions::contains` -/
def contains (hash : H) : Bool :=
  hash ∈ future.waiting

/-- One transaction of the inner loop of `FutureTransactions::satisfy_tags`. -/
def satisfyHash (tag : T) (state : FutureTransactions H T × List (WaitingTransaction H T))
    (hash : H) : Except Panic (FutureTransactions H T × List (WaitingTransaction H T)) :=
  match lookup hash state.1.waiting with
  | none => .error .waitingProof
  | some tx =>
    let tx := tx.satisfyTag tag
    if tx.isReady then
      .ok ({ state.1 with waiting := erase hash state.1.waiting }, state.2 ++ [tx])
    else .ok ({ state.1 with waiting := insert hash tx state.1.waiting }, state.2)

/-- One tag of the loop of `FutureTransactions::satisfy_tags`. -/
def satisfyOne (state : FutureTransactions H T × List (WaitingTransaction H T)) (tag : T) :
    Except Panic (FutureTransactions H T × List (WaitingTransaction H T)) :=
  match lookup tag state.1.wantedTags with
  | none => .ok state
  | some hashes =>
    (order.wanted.list tag hashes).foldlM (satisfyHash tag)
      ({ state.1 with wantedTags := erase tag state.1.wantedTags }, state.2)

/-- `FutureTransactions::satisfy_tags`, with the transactions that became ready. -/
def satisfyTags (tags : List T) :
    Except Panic (FutureTransactions H T × List (WaitingTransaction H T)) :=
  tags.foldlM (satisfyOne order) (future, [])

/-- Remove a transaction from the ones that want a tag. -/
def unwant (hash : H) (wantedTags : HashMap T (Finset H)) (tag : T) : HashMap T (Finset H) :=
  match lookup tag wantedTags with
  | none => wantedTags
  | some wanted =>
    if wanted.erase hash = ∅ then erase tag wantedTags
    else insert tag (wanted.erase hash) wantedTags

/-- One hash of the loop of `FutureTransactions::remove`. -/
def removeOne (state : FutureTransactions H T × List (Transaction H T)) (hash : H) :
    FutureTransactions H T × List (Transaction H T) :=
  match lookup hash state.1.waiting with
  | none => state
  | some tx =>
    ({ wantedTags := (order.missing.list hash tx.missingTags).foldl (unwant hash) state.1.wantedTags
       waiting := erase hash state.1.waiting }, state.2 ++ [tx.transaction])

/-- `FutureTransactions::remove`, with the transactions removed. -/
def remove (hashes : List H) : FutureTransactions H T × List (Transaction H T) :=
  hashes.foldl (removeOne order) (future, [])

/-- The waiting transactions in the order of a visit. -/
def values : List (WaitingTransaction H T) :=
  (order.queue.list () future.waiting.keys).filterMap fun hash => lookup hash future.waiting

/-- `FutureTransactions::fold` -/
def fold {R : Type} (order : Order H T) (future : FutureTransactions H T)
    (f : Option R → WaitingTransaction H T → Option R) : Option R :=
  (future.values order).foldl f none

/-- `FutureTransactions::clear`, with the transactions removed. -/
def clear : FutureTransactions H T × List (Transaction H T) :=
  ({}, (future.values order).map (·.transaction))

/-- `FutureTransactions::len` -/
def len : Nat :=
  future.waiting.keys.card

/-- `FutureTransactions::bytes` -/
def bytes (future : FutureTransactions H T) : Nat :=
  future.waiting.total (·.transaction.bytes)

end FutureTransactions

end Brace.TransactionPool
