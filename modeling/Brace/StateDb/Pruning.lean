import Brace.Lib.Retention
import Brace.StateDb.Types

/-!
# Pruning window

`client/state-db/src/pruning.rs`: for each canonical block a list of nodes pending deletion, and an
index from node keys to block numbers. A node that is inserted again is taken off its list. The
changes are journaled.

The set of keys of a row is kept as a list without repetitions; its order stands for the iteration
order of the hash set, which only the order of the emitted deletions depends on. An index out of
range panics, also when the subtraction before it would wrap around.
-/

namespace Brace.StateDb

open Brace.Lib

/-- `DeathRow`, the keys to delete when a block is pruned. -/
structure DeathRow (BlockHash Key : Type) where
  hash : BlockHash
  journalKey : MetaKey
  deleted : List Key
  deriving DecidableEq

/-- `RefWindow` -/
@[ext]
structure RefWindow (BlockHash Key : Type) where
  /-- A queue of keys that should be deleted for each block in the pruning window. -/
  deathRows : List (DeathRow BlockHash Key) := []
  /-- An index that maps each key from `deathRows` to block number. -/
  deathIndex : HashMap Key Nat := ∅
  /-- Block number that corresponds to the front of `deathRows`. -/
  pendingNumber : Nat := 0
  /-- Number of calls of `noteCanonical` after the last `applyPending` or `revertPending`. -/
  pendingCanonicalizations : Nat := 0
  /-- Number of calls of `pruneOne` after the last `applyPending` or `revertPending`. -/
  pendingPrunings : Nat := 0
  deriving DecidableEq

namespace RefWindow

variable {BlockHash Key : Type} [DecidableEq BlockHash] [DecidableEq Key]

/-- `to_journal_key` -/
def toJournalKey (block : Nat) : MetaKey := .pruningJournal block

variable (self : RefWindow BlockHash Key)

/-- One round of the first loop of `import`: take a re-inserted key off its row. -/
def reinsert (key : Key) : Except Panic (RefWindow BlockHash Key) :=
  match Finmap.lookup key self.deathIndex with
  | none => .ok self
  | some block =>
    if self.pendingNumber ≤ block ∧ block - self.pendingNumber < self.deathRows.length then
      .ok { self with
        deathIndex := self.deathIndex.erase key
        deathRows := self.deathRows.modify (block - self.pendingNumber) fun row =>
          { row with deleted := row.deleted.erase key } }
    else .error .deathRow

variable (hash : BlockHash)

/-- `import` -/
def importBlock (journalKey : MetaKey) (inserted deleted : List Key) :
    Except Panic (RefWindow BlockHash Key) := do
  -- remove all re-inserted keys from death rows
  let self ← inserted.foldlM reinsert self
  -- add new keys
  let importedBlock := self.pendingNumber + self.deathRows.length
  .ok { self with
    deathIndex := HashMap.insertAll self.deathIndex (deleted.map fun key => (key, importedBlock))
    deathRows := self.deathRows ++ [{ hash, journalKey, deleted := deleted.dedup }] }

/-- The loop of `new`: import one record after the other, until the first missing one. -/
def readJournal (db : HashMap MetaKey (MetaValue BlockHash Key)) :
    Nat → Nat → RefWindow BlockHash Key → Except Panic (Except Error (RefWindow BlockHash Key))
  | 0, _, pruning => .ok (.ok pruning)
  | left + 1, block, pruning =>
    let journalKey := toJournalKey block
    match Finmap.lookup journalKey db with
    | none => .ok (.ok pruning)
    | some value =>
      match value.decodePruning with
      | .error error => .ok (.error error)
      | .ok record => do
        let pruning ← pruning.importBlock record.hash journalKey record.inserted record.deleted
        readJournal db left (block + 1) pruning

/-- `RefWindow::new` -/
def new (db : Db BlockHash Key) : Except Panic (Except Error (RefWindow BlockHash Key)) :=
  let read (pendingNumber : Nat) :=
    readJournal db.metadata (db.metadata.keys.card + 1) pendingNumber { pendingNumber }
  match Finmap.lookup .lastPruned db.metadata with
  | none => read 0
  | some buffer =>
    match buffer.decodePruned with
    | .error error => .ok (.error error)
    | .ok lastPruned => read (lastPruned + 1)

/-- `window_size` -/
def windowSize : Nat :=
  self.deathRows.length - self.pendingPrunings

/-- `next_hash` -/
def nextHash : Option BlockHash :=
  self.deathRows[self.pendingPrunings]?.map DeathRow.hash

/-- `pending` -/
def pending : Nat := self.pendingNumber + self.pendingPrunings

/-- `have_block` -/
def haveBlock : Bool :=
  (self.deathRows.drop self.pendingPrunings).any fun row => row.hash = hash

variable (commit : CommitSet BlockHash Key)

/-- `prune_one`: the window and the commit afterwards. Without a block to prune it only warns. -/
def pruneOne : RefWindow BlockHash Key × CommitSet BlockHash Key :=
  match self.deathRows[self.pendingPrunings]? with
  | some pruned =>
    let index := self.pendingNumber + self.pendingPrunings
    ({ self with pendingPrunings := self.pendingPrunings + 1 },
      { data := { commit.data with deleted := commit.data.deleted ++ pruned.deleted }
        metadata :=
          { inserted := commit.metadata.inserted ++ [(.lastPruned, .pruned index)]
            deleted := commit.metadata.deleted ++ [pruned.journalKey] } })
  | none => (self, commit)

/-- `note_canonical`: the deletions of the commit move to the journal record. -/
def noteCanonical :
    Except Panic (RefWindow BlockHash Key × CommitSet BlockHash Key) := do
  let record : PruningRecord BlockHash Key :=
    { hash, inserted := commit.data.inserted.map Prod.fst, deleted := commit.data.deleted }
  let journalKey := toJournalKey (self.pendingNumber + self.deathRows.length)
  let commit := { commit with
    data := { commit.data with deleted := [] }
    metadata := { commit.metadata with
      inserted := commit.metadata.inserted ++ [(journalKey, .pruning record)] } }
  let self ← self.importBlock record.hash journalKey record.inserted record.deleted
  .ok ({ self with pendingCanonicalizations := self.pendingCanonicalizations + 1 }, commit)

/-- One round of the loop of `apply_pending`. -/
def popRow : Except Panic (RefWindow BlockHash Key) :=
  match self.deathRows with
  | [] => .error .pendingPrunings
  | pruned :: rest => .ok { self with
      deathRows := rest
      deathIndex := HashMap.eraseAll self.deathIndex pruned.deleted
      pendingNumber := self.pendingNumber + 1 }

/-- `apply_pending` -/
def applyPending : Except Panic (RefWindow BlockHash Key) := do
  let self ← (List.range self.pendingPrunings).foldlM (fun self _ => self.popRow)
    { self with pendingCanonicalizations := 0 }
  .ok { self with pendingPrunings := 0 }

/-- `revert_pending` -/
def revertPending : RefWindow BlockHash Key :=
  let deathRows := self.deathRows.take (self.deathRows.length - self.pendingCanonicalizations)
  let newMaxBlock := deathRows.length + self.pendingNumber
  { self with
    deathRows
    deathIndex := self.deathIndex.retain fun block => block < newMaxBlock
    pendingCanonicalizations := 0
    pendingPrunings := 0 }

end RefWindow

end Brace.StateDb
