import Brace.StateDb.Types

/-!
# Canonicalization window

`client/state-db/src/noncanonical.rs`: a tree of block overlays, one level for each height
above the last canonicalized block. Overlays are added by `insert` and removed by
`canonicalize`; pending changes stay in memory until `applyPending` or `revertPending`.

The functions follow a release build: a failed `expect` is a `Panic` that names the message, and
the `debug_assert`s are not compiled in. Loops without a structural bound carry one: reading the
journal is bounded by the number of stored metadata keys, and walking a parent chain by the number
of parent entries, beyond which the chain has come back to itself and the source never returns.
-/

namespace Brace.StateDb

open Brace.Lib Finmap

variable (BlockHash Key : Type)

/-- `BlockOverlay`, the changes of one block of the tree. -/
structure BlockOverlay where
  hash : BlockHash
  journalKey : MetaKey
  inserted : List Key
  deleted : List Key
  deriving DecidableEq

/-- The blocks of the tree, one list for each height. -/
abbrev Levels := List (List (BlockOverlay BlockHash Key))

/-- `NonCanonicalOverlay` -/
structure NonCanonicalOverlay where
  lastCanonicalized : Option (BlockHash × Nat) := none
  levels : Levels BlockHash Key := []
  parents : HashMap BlockHash BlockHash := ∅
  pendingCanonicalizations : List BlockHash := []
  pendingInsertions : List BlockHash := []
  /-- Reference counted node values. -/
  values : HashMap Key (Nat × DBValue) := ∅
  /-- Blocks that would be deleted but are kept around because they are pinned. -/
  pinned : HashMap BlockHash Nat := ∅
  pinnedInsertions : HashMap BlockHash (List Key) := ∅
  deriving DecidableEq

variable {BlockHash Key : Type} [DecidableEq BlockHash] [DecidableEq Key]

/-- `to_journal_key` -/
def toJournalKey (block index : Nat) : MetaKey := .noncanonicalJournal block index

variable (values : HashMap Key (Nat × DBValue))

/-- One step of `insert_values`: count the key, keeping the value of the first occurrence. -/
def insertValue (entry : Key × DBValue) : HashMap Key (Nat × DBValue) :=
  let (counter, value) := (lookup entry.1 values).getD (0, entry.2)
  values.insert entry.1 (counter + 1, value)

/-- `insert_values` -/
def insertValues (inserted : List (Key × DBValue)) : HashMap Key (Nat × DBValue) :=
  inserted.foldl insertValue values

/-- One step of `discard_values`: the entry goes when its counter reaches zero. -/
def discardValue (key : Key) : HashMap Key (Nat × DBValue) :=
  match lookup key values with
  | some (counter, value) =>
    if counter - 1 = 0 then values.erase key else values.insert key (counter - 1, value)
  | none => values

/-- `discard_values` -/
def discardValues (inserted : List Key) : HashMap Key (Nat × DBValue) :=
  inserted.foldl discardValue values

/-! ## Discarding a subtree -/

/-- The tables that a discarded overlay is booked out of. -/
structure Books (BlockHash Key : Type) where
  values : HashMap Key (Nat × DBValue)
  parents : HashMap BlockHash BlockHash
  pinnedInsertions : HashMap BlockHash (List Key)

/-- Book out one overlay: a pinned one is saved to be discarded later, any other one is
discarded immediately. -/
def discardOverlay (pinned : HashMap BlockHash Nat) (books : Books BlockHash Key)
    (overlay : BlockOverlay BlockHash Key) : Books BlockHash Key :=
  if overlay.hash ∈ pinned then
    { books with
      pinnedInsertions := books.pinnedInsertions.insert overlay.hash overlay.inserted }
  else
    { books with
      parents := books.parents.erase overlay.hash
      values := discardValues books.values overlay.inserted }

variable (pinned : HashMap BlockHash Nat)

/-- The `filter_map` over one level: the overlays kept, the hashes discarded, and the books. -/
def discardChildren (hash : BlockHash) :
    List (BlockOverlay BlockHash Key) → Books BlockHash Key →
      Except Panic (List (BlockOverlay BlockHash Key) × List BlockHash × Books BlockHash Key)
  | [], books => .ok ([], [], books)
  | overlay :: rest, books =>
    match lookup overlay.hash books.parents with
    | none => .error .parentEntry
    | some parent =>
      if parent = hash then do
        let (kept, discarded, books) ← discardChildren hash rest
          (discardOverlay pinned books overlay)
        .ok (kept, overlay.hash :: discarded, books)
      else do
        let (kept, discarded, books) ← discardChildren hash rest books
        .ok (overlay :: kept, discarded, books)

/-- `discard_descendants`, from the level at `index` on. The first argument bounds the number
of levels left. -/
def discardDescendants :
    Nat → Levels BlockHash Key → Books BlockHash Key → (index : Nat) → BlockHash →
      Except Panic (Levels BlockHash Key × Books BlockHash Key)
  | 0, levels, books, _, _ => .ok (levels, books)
  | left + 1, levels, books, index, hash =>
    match levels[index]? with
    | none => .ok (levels, books)
    | some level => do
      let (kept, discarded, books) ← discardChildren pinned hash level books
      discarded.foldlM
        (fun (levels, books) hash => discardDescendants left levels books (index + 1) hash)
        (levels.set index kept, books)

namespace NonCanonicalOverlay

/-! ## Reading the journal -/

variable (db : HashMap MetaKey (MetaValue BlockHash Key))

/-- The inner loop of `new`: the records of one height, from `index` on. -/
def readLevel (block : Nat) :
    Nat → Nat → List (BlockOverlay BlockHash Key) → HashMap BlockHash BlockHash →
      HashMap Key (Nat × DBValue) →
      Except Error (List (BlockOverlay BlockHash Key) × HashMap BlockHash BlockHash ×
        HashMap Key (Nat × DBValue))
  | 0, _, level, parents, values => .ok (level, parents, values)
  | left + 1, index, level, parents, values =>
    let journalKey := toJournalKey block index
    match lookup journalKey db with
    | none => .ok (level, parents, values)
    | some value => do
      let record ← value.decodeBlock
      let overlay : BlockOverlay BlockHash Key :=
        { hash := record.hash
          journalKey := journalKey
          inserted := record.inserted.map Prod.fst
          deleted := record.deleted }
      readLevel block left (index + 1) (level ++ [overlay])
        (parents.insert record.hash record.parentHash) (insertValues values record.inserted)

/-- The outer loop of `new`: one level after the other, until the first empty one. -/
def readLevels :
    Nat → Nat → Levels BlockHash Key → HashMap BlockHash BlockHash →
      HashMap Key (Nat × DBValue) →
      Except Error (Levels BlockHash Key × HashMap BlockHash BlockHash ×
        HashMap Key (Nat × DBValue))
  | 0, _, levels, parents, values => .ok (levels, parents, values)
  | left + 1, block, levels, parents, values => do
    let (level, parents, values) ← readLevel db block (db.keys.card + 1) 0 [] parents values
    if level.isEmpty then
      .ok (levels, parents, values)
    else
      readLevels left (block + 1) (levels ++ [level]) parents values

/-- `NonCanonicalOverlay::new` -/
def new (db : Db BlockHash Key) : Except Error (NonCanonicalOverlay BlockHash Key) := do
  let lastCanonicalized ← match lookup .lastCanonical db.metadata with
    | some buffer => some <$> buffer.decodeCanonicalized
    | none => .ok none
  match lastCanonicalized with
  | some (_, block) =>
    let (levels, parents, values) ←
      readLevels db.metadata (db.metadata.keys.card + 1) (block + 1) [] ∅ ∅
    .ok { lastCanonicalized, levels, parents, values }
  | none => .ok {}

/-! ## Insertion -/

variable (self : NonCanonicalOverlay BlockHash Key)

/-- `front_block_number` -/
def frontBlockNumber : Nat :=
  match self.lastCanonicalized with
  | some (_, number) => number + 1
  | none => 0

/-- The part of `insert` after its checks: choose the level, add the overlay, write its journal
record after the metadata of `commit`. -/
def insertChecked (frontBlockNumber : Nat) (hash : BlockHash) (number : Nat)
    (parentHash : BlockHash) (changeset : ChangeSet Key DBValue)
    (commit : CommitSet BlockHash Key) :
    Except Panic (CommitSet BlockHash Key × NonCanonicalOverlay BlockHash Key) := do
  let (levels, position) ←
    (if self.levels.isEmpty ∨ number = frontBlockNumber + self.levels.length then
      .ok (self.levels ++ [[]], self.levels.length)
    else if number - frontBlockNumber < self.levels.length then
      .ok (self.levels, number - frontBlockNumber)
    else
      .error .numberRange)
  let index := (levels.getD position []).length
  let journalKey := toJournalKey number index
  let overlay : BlockOverlay BlockHash Key :=
    { hash := hash
      journalKey := journalKey
      inserted := changeset.inserted.map Prod.fst
      deleted := changeset.deleted }
  let journalRecord : BlockRecord BlockHash Key :=
    { hash := hash
      parentHash := parentHash
      inserted := changeset.inserted
      deleted := changeset.deleted }
  let inserted := commit.metadata.inserted ++ [(journalKey, .block journalRecord)]
  .ok ({ commit with metadata := { commit.metadata with inserted := inserted } },
    { self with
      levels := levels.modify position (· ++ [overlay])
      parents := self.parents.insert hash parentHash
      values := insertValues self.values changeset.inserted
      pendingInsertions := self.pendingInsertions ++ [hash] })

/-- `NonCanonicalOverlay::insert`. The overlay is returned with the result: an error leaves it
as the code left it. -/
def insert (hash : BlockHash) (number : Nat) (parentHash : BlockHash)
    (changeset : ChangeSet Key DBValue) :
    Except Panic (Except Error (CommitSet BlockHash Key) × NonCanonicalOverlay BlockHash Key) :=
  let frontBlockNumber := self.frontBlockNumber
  let insertWith (self : NonCanonicalOverlay BlockHash Key) (commit : CommitSet BlockHash Key) := do
    let (commit, self) ← self.insertChecked frontBlockNumber hash number parentHash changeset commit
    .ok (.ok commit, self)
  if self.levels.isEmpty ∧ self.lastCanonicalized.isNone ∧ 0 < number then
    -- assume that parent was canonicalized
    insertWith { self with lastCanonicalized := some (parentHash, number - 1) }
      { metadata := { inserted := [(.lastCanonical, .canonicalized parentHash (number - 1))] } }
  else
    match self.lastCanonicalized with
    | some (lastHash, lastNumber) =>
      if number < frontBlockNumber ∨ frontBlockNumber + self.levels.length + 1 ≤ number then
        .ok (.error .invalidBlockNumber, self)
      -- check for valid parent if inserting on second level or higher
      else if number = frontBlockNumber then
        if lastHash = parentHash ∧ lastNumber = number - 1 then insertWith self {}
        else .ok (.error .invalidParent, self)
      else if parentHash ∈ self.parents then insertWith self {}
      else .ok (.error .invalidParent, self)
    | none => insertWith self {}

/-! ## Canonicalization -/

variable (parents : HashMap BlockHash BlockHash)

/-- `discard_journals`: the journal keys of the descendants of a block, each before those of its
own descendants. The blocks themselves, which the source also collects, are never read. -/
def discardJournals : Levels BlockHash Key → BlockHash → Except Panic (List MetaKey)
  | [], _ => .ok []
  | level :: above, hash => do
    let discarded ← level.mapM fun overlay =>
      match lookup overlay.hash parents with
      | none => .error .parentEntry
      | some parent =>
        if parent = hash then do
          let below ← discardJournals above overlay.hash
          .ok (overlay.journalKey :: below)
        else .ok []
    .ok discarded.flatten

/-- The loop of `canonicalize` over the level of the block: the journal keys of the level, those of
the other blocks after the keys of their descendants. -/
def levelJournals (above : Levels BlockHash Key) (level : List (BlockOverlay BlockHash Key))
    (index : Nat) : Except Panic (List MetaKey) := do
  let discarded ← level.zipIdx.mapM fun (overlay, i) => do
    let below ← (if i ≠ index then discardJournals parents above overlay.hash else .ok [])
    .ok (below ++ [overlay.journalKey])
  .ok discarded.flatten

/-- The keys of an overlay with their values. -/
def overlayValues (keys : List Key) : Except Panic (List (Key × DBValue)) :=
  keys.mapM fun key =>
    match lookup key values with
    | none => .error .missingValue
    | some (_, value) => .ok (key, value)

/-- `NonCanonicalOverlay::canonicalize`, adding its changes to `commit`. -/
def canonicalize (hash : BlockHash) (commit : CommitSet BlockHash Key) :
    Except Panic (Except Error (CommitSet BlockHash Key) × NonCanonicalOverlay BlockHash Key) :=
  let pending := self.pendingCanonicalizations.length
  match self.levels[pending]? with
  | none => .ok (.error .invalidBlock, self)
  | some level =>
    match level.find? (fun overlay => overlay.hash = hash) with
    | none => .ok (.error .invalidBlock, self)
    | some overlay => do
      let index := level.findIdx fun overlay => overlay.hash = hash
      let discardedJournals ←
        levelJournals self.parents (self.levels.drop (pending + 1)) level index
      -- get the one we need to canonicalize
      let inserted ← overlayValues self.values overlay.inserted
      let canonicalized := self.frontBlockNumber + pending
      .ok (.ok
        { data :=
            { inserted := commit.data.inserted ++ inserted
              deleted := commit.data.deleted ++ overlay.deleted }
          metadata :=
            { inserted := commit.metadata.inserted ++
                [(.lastCanonical, .canonicalized hash canonicalized)]
              deleted := commit.metadata.deleted ++ discardedJournals } },
        { self with pendingCanonicalizations := self.pendingCanonicalizations ++ [hash] })

def books : Books BlockHash Key :=
  { values := self.values, parents := self.parents, pinnedInsertions := self.pinnedInsertions }

/-- One round of the loop of `apply_canonicalizations`: discard the unfinalized overlays of the
first level with their descendants, and the canonicalized one. -/
def applyCanonicalization (pinned : HashMap BlockHash Nat) (levels : Levels BlockHash Key)
    (books : Books BlockHash Key) (hash : BlockHash) :
    Except Panic (Levels BlockHash Key × Books BlockHash Key) :=
  match levels with
  | [] => .error .hashValidity
  | level :: above =>
    if level.any fun overlay => overlay.hash = hash then
      let index := level.findIdx fun overlay => overlay.hash = hash
      level.zipIdx.foldlM (fun (above, books) (overlay, i) => do
        let (above, books) ← (if i ≠ index then
            discardDescendants pinned above.length above books 0 overlay.hash
          else .ok (above, books))
        .ok (above, discardOverlay pinned books overlay)) (above, books)
    else .error .hashValidity

/-- `apply_canonicalizations` -/
def applyCanonicalizations : Except Panic (NonCanonicalOverlay BlockHash Key) := do
  let count := self.pendingCanonicalizations.length
  let (levels, books) ← self.pendingCanonicalizations.foldlM
    (fun (levels, books) hash => applyCanonicalization self.pinned levels books hash)
    (self.levels, self.books)
  let lastCanonicalized := match self.pendingCanonicalizations.getLast? with
    | some hash => match self.lastCanonicalized with
      | some (_, number) => some (hash, number + count)
      | none => some (hash, count - 1)
    | none => self.lastCanonicalized
  .ok { self with
    lastCanonicalized
    levels
    values := books.values
    parents := books.parents
    pinnedInsertions := books.pinnedInsertions
    pendingCanonicalizations := [] }

/-- `apply_pending` -/
def applyPending : Except Panic (NonCanonicalOverlay BlockHash Key) := do
  let self ← self.applyCanonicalizations
  .ok { self with pendingInsertions := [] }

/-! ## Queries -/

/-- `NonCanonicalOverlay::get` -/
def get (key : Key) : Option DBValue :=
  (lookup key self.values).map Prod.snd

/-! ## Reverting -/

/-- The level whose last overlay has the hash, counted from the front. -/
def lastPosition (hash : BlockHash) : Levels BlockHash Key → Except Panic Nat
  | [] => .error .hashAdded
  | level :: above =>
    match level.getLast? with
    | none => .error .lastInLevel
    | some overlay =>
      if overlay.hash = hash then .ok 0
      else do
        let position ← lastPosition hash above
        .ok (position + 1)

/-- One round of the loop of `revert_insertions`: pop the overlay, and the last level when the
overlay's own level is left empty. -/
def revertInsertion (levels : Levels BlockHash Key) (books : Books BlockHash Key)
    (hash : BlockHash) : Except Panic (Levels BlockHash Key × Books BlockHash Key) := do
  let levelIndex ← lastPosition hash levels
  let level := levels.getD levelIndex []
  let inserted := (level.getLast?.map BlockOverlay.inserted).getD []
  let popped := levels.modify levelIndex List.dropLast
  .ok (if level.dropLast.isEmpty then popped.dropLast else popped,
    { books with
      parents := books.parents.erase hash
      values := discardValues books.values inserted })

/-- `revert_insertions` -/
def revertInsertions : Except Panic (NonCanonicalOverlay BlockHash Key) := do
  let (levels, books) ← self.pendingInsertions.reverse.foldlM
    (fun (levels, books) hash => revertInsertion levels books hash) (self.levels, self.books)
  .ok { self with
    levels
    values := books.values
    parents := books.parents
    pendingInsertions := [] }

/-- `revert_pending` -/
def revertPending : Except Panic (NonCanonicalOverlay BlockHash Key) :=
  revertInsertions { self with pendingCanonicalizations := [] }

/-! ## Pinning -/

/-- The loop of `pin`: count the block and all its parents. -/
def pinChain (parents : HashMap BlockHash BlockHash) :
    Nat → HashMap BlockHash Nat → Option BlockHash → Except Panic (HashMap BlockHash Nat)
  | _, pinned, none => .ok pinned
  | 0, _, some _ => .error .endless
  | left + 1, pinned, some hash =>
    pinChain parents left (pinned.insert hash ((lookup hash pinned).getD 0 + 1))
      (lookup hash parents)

/-- `NonCanonicalOverlay::pin` -/
def pin (hash : BlockHash) : Except Panic (NonCanonicalOverlay BlockHash Key) :=
  if hash ∈ self.pendingInsertions then .ok self
  else do
    let pinned ← pinChain self.parents (self.parents.keys.card + 2) self.pinned (some hash)
    .ok { self with pinned }

/-- One round of the loop of `unpin`: release one reference, and discard a block that was kept
only for it. -/
def unpinBlock (hash : BlockHash) : NonCanonicalOverlay BlockHash Key :=
  match lookup hash self.pinned with
  | none => self
  | some refs =>
    if refs - 1 = 0 then
      let self := { self with pinned := self.pinned.erase hash }
      match lookup hash self.pinnedInsertions with
      | none => self
      | some inserted =>
        { self with
          pinnedInsertions := self.pinnedInsertions.erase hash
          values := discardValues self.values inserted
          parents := self.parents.erase hash }
    else { self with pinned := self.pinned.insert hash (refs - 1) }

/-- The loop of `unpin`: release the block and all its parents. -/
def unpinChain : Nat → NonCanonicalOverlay BlockHash Key → Option BlockHash →
    Except Panic (NonCanonicalOverlay BlockHash Key)
  | _, self, none => .ok self
  | 0, _, some _ => .error .endless
  | left + 1, self, some hash =>
    unpinChain left (self.unpinBlock hash) (lookup hash self.parents)

/-- `NonCanonicalOverlay::unpin` -/
def unpin (hash : BlockHash) : Except Panic (NonCanonicalOverlay BlockHash Key) :=
  unpinChain (self.parents.keys.card + 2) self (some hash)

end NonCanonicalOverlay

end Brace.StateDb
