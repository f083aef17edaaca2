import Brace.StateDb.PruningWindow

/-!
# Runs of the pruning window

The window as part of a node: the commits are written to the database, and a revert discards those
since the last `apply_pending`. The records of the canonical blocks noted so far are kept next to
it as the history that the results speak about; it takes no part in the computation. `Tracked`
holds along all runs in which blocks delete live keys only, reverts included: a row holds keys that
die with its block and no others. `Exact` adds what a revert loses, that a row holds all of them.
-/

namespace Brace.StateDb

open Brace.Lib List HashMap RefWindow

variable {BlockHash Key : Type}

/-- The record of a canonical block. -/
def blockRecord (hash : BlockHash) (changes : ChangeSet Key DBValue) :
    PruningRecord BlockHash Key :=
  { hash, inserted := changes.inserted.map Prod.fst, deleted := changes.deleted }

/-- What a canonical block changes. -/
def changeOf [DecidableEq Key] (record : PruningRecord BlockHash Key) : Change Key :=
  { inserted := record.inserted.toFinset, deleted := record.deleted.toFinset }

/-- A node after some commits: its window and database, and the canonical blocks so far. -/
structure Stage (BlockHash Key : Type) where
  window : RefWindow BlockHash Key := {}
  db : Db BlockHash Key := {}
  /-- The records of the blocks noted. -/
  history : List (PruningRecord BlockHash Key) := []
  /-- How many of them are pruned. -/
  pruned : Nat := 0

/-- A node, with the stage it returns to on a revert. -/
structure PruningNode (BlockHash Key : Type) where
  current : Stage BlockHash Key
  settled : Stage BlockHash Key

inductive PruningCall (BlockHash Key : Type)
  | noteCanonical (hash : BlockHash) (changes : ChangeSet Key DBValue)
  | pruneOne
  | applyPending
  | revertPending

variable [DecidableEq Key]

/-- A table with an empty node for each key. -/
def makeNodes (keys : List Key) : HashMap Key DBValue :=
  HashMap.insertAll ∅ (keys.map fun key => (key, []))

namespace Stage

/-- The changes of the blocks noted. -/
def changes (self : Stage BlockHash Key) : List (Change Key) := self.history.map changeOf

/-- Note a canonical block and write the commit. -/
def noteCanonical (self : Stage BlockHash Key) (hash : BlockHash)
    (changes : ChangeSet Key DBValue) : Except Panic (Stage BlockHash Key) := do
  let (window, commit) ← self.window.noteCanonical hash { data := changes }
  .ok { self with
    window
    db := self.db.commit commit
    history := self.history ++ [blockRecord hash changes] }

/-- Prune a block and write the commit. -/
def pruneOne (self : Stage BlockHash Key) : Stage BlockHash Key :=
  let (window, commit) := self.window.pruneOne {}
  { self with
    window
    db := self.db.commit commit
    pruned := if 0 < self.window.windowSize then self.pruned + 1 else self.pruned }

/-- Apply the pending changes of the window. -/
def applyPending (self : Stage BlockHash Key) : Except Panic (Stage BlockHash Key) := do
  .ok { self with window := ← self.window.applyPending }

end Stage

variable (nodes : HashMap Key DBValue)

namespace PruningNode

/-- An empty window on a database with the given nodes. -/
def start : PruningNode BlockHash Key :=
  { current := { db := { data := nodes } }, settled := { db := { data := nodes } } }

variable (self : PruningNode BlockHash Key)

/-- A call. On a revert the commits since the last `apply_pending` are discarded. -/
def step : PruningCall BlockHash Key → Except Panic (PruningNode BlockHash Key)
  | .noteCanonical hash changes => do
    .ok { self with current := ← self.current.noteCanonical hash changes }
  | .pruneOne => .ok { self with current := self.current.pruneOne }
  | .applyPending => do
    let stage ← self.current.applyPending
    .ok { current := stage, settled := stage }
  | .revertPending =>
    let stage := { self.settled with window := self.current.window.revertPending }
    .ok { current := stage, settled := stage }

/-- The state of the last block noted. -/
def live : Finset Key :=
  stateAt nodes.keys self.current.changes self.current.history.length

/-- Blocks delete keys only while they are live. -/
def DeletesLive (nodes : HashMap Key DBValue) (self : PruningNode BlockHash Key) :
    PruningCall BlockHash Key → Prop
  | .noteCanonical hash changes =>
      (changeOf (blockRecord hash changes)).DeletesLive (self.live nodes)
  | _ => True

/-- Blocks delete keys of the state they are built on, and none that they insert. -/
def ChainConsistent : PruningCall BlockHash Key → Prop
  | .noteCanonical hash changes =>
      (changeOf (blockRecord hash changes)).Proper (self.live nodes)
  | _ => True

/-- Every call but `revert_pending`. -/
def Forward : PruningCall BlockHash Key → Prop
  | .revertPending => False
  | _ => True

section

variable (nodes : HashMap Key DBValue) (self : PruningNode BlockHash Key)
  (op : PruningCall BlockHash Key)

instance : Decidable (DeletesLive nodes self op) := by
  rcases op <;> unfold DeletesLive <;> infer_instance

instance : Decidable (ChainConsistent nodes self op) := by
  rcases op <;> unfold ChainConsistent <;> infer_instance

omit [DecidableEq Key] in
instance : Decidable (Forward op) := by
  rcases op <;> unfold Forward <;> infer_instance

end

end PruningNode

/-! ## Everything that the calls do -/

namespace Stage

variable {self : Stage BlockHash Key}

/-- The stage after noting a block. -/
def noted (self : Stage BlockHash Key) (hash : BlockHash) (changes : ChangeSet Key DBValue) :
    Stage BlockHash Key :=
  let journalKey := RefWindow.toJournalKey
    (self.window.pendingNumber + self.window.deathRows.length)
  { self with
    window :=
      { self.window.imported hash journalKey (changes.inserted.map Prod.fst) changes.deleted with
        pendingCanonicalizations := self.window.pendingCanonicalizations + 1 }
    db :=
      { data := HashMap.insertAll self.db.data changes.inserted
        metadata := self.db.metadata.insert journalKey (.pruning (blockRecord hash changes)) }
    history := self.history ++ [blockRecord hash changes] }

theorem noteCanonical_eq (indexed : self.window.Indexed) (hash : BlockHash)
    (changes : ChangeSet Key DBValue) :
    self.noteCanonical hash changes = .ok (self.noted hash changes) := by
  unfold noteCanonical RefWindow.noteCanonical
  simp only [importBlock_eq indexed, bind, Except.bind]
  rfl

theorem pruneOne_of_row {row : DeathRow BlockHash Key}
    (next : self.window.deathRows[self.window.pendingPrunings]? = some row) :
    self.pruneOne = { self with
      window := { self.window with pendingPrunings := self.window.pendingPrunings + 1 }
      db :=
        { data := eraseAll self.db.data row.deleted
          metadata := (self.db.metadata.insert .lastPruned (.pruned self.window.pending)).erase
            row.journalKey }
      pruned := self.pruned + 1 } := by
  have low := (List.getElem?_eq_some_iff.mp next).1
  have room : 0 < self.window.windowSize := Nat.sub_pos_of_lt low
  simp only [pruneOne, RefWindow.pruneOne, next, room, if_true]
  rfl

theorem pruneOne_of_none
    (none : self.window.deathRows[self.window.pendingPrunings]? = none) : self.pruneOne = self := by
  have high := List.getElem?_eq_none_iff.mp none
  have full : ¬ 0 < self.window.windowSize := by
    unfold windowSize
    omega
  simp only [pruneOne, RefWindow.pruneOne, none, full, if_false]
  rfl

theorem pruneOne_window (self : Stage BlockHash Key) :
    self.pruneOne.window.pendingNumber = self.window.pendingNumber ∧
      self.pruneOne.window.deathRows = self.window.deathRows ∧
      self.pruneOne.window.pendingCanonicalizations = self.window.pendingCanonicalizations := by
  cases next : self.window.deathRows[self.window.pendingPrunings]? with
  | none =>
    rw [pruneOne_of_none next]
    exact ⟨rfl, rfl, rfl⟩
  | some row =>
    rw [pruneOne_of_row next]
    exact ⟨rfl, rfl, rfl⟩

/-! ## What all runs keep -/

/-- The rows hold keys that die with their blocks, and the database holds the states from the last
pruned block on. -/
structure Tracked (initial : Finset Key) (stage : Stage BlockHash Key) : Prop where
  indexed : stage.window.Indexed
  count : stage.window.pendingNumber + stage.window.deathRows.length = stage.history.length
  inside : stage.window.pendingPrunings ≤ stage.window.deathRows.length
  pruned : stage.pruned = stage.window.pending
  rows : ∀ height row, stage.window.deathRows[height]? = some row → ∀ key ∈ row.deleted,
    Dying stage.changes (stage.window.pendingNumber + height) key
  stored : ∀ key, Kept initial stage.changes stage.pruned key → key ∈ stage.db.data

namespace Tracked

variable {initial : Finset Key}

theorem length_changes (self : Stage BlockHash Key) : self.changes.length = self.history.length :=
  length_map _

theorem changes_noted (self : Stage BlockHash Key) (hash : BlockHash)
    (changes : ChangeSet Key DBValue) : (self.noted hash changes).changes =
      self.changes ++ [changeOf (blockRecord hash changes)] := List.map_append

section

variable (tracked : Tracked initial self)

include tracked

theorem pruned_le : self.pruned ≤ self.history.length := by
  have count := tracked.count
  have mem := tracked.inside
  rw [tracked.pruned, pending]
  omega

theorem not_mem_rows {key : Key} (member : key ∈ stateAt initial self.changes self.history.length) :
    ∀ row ∈ self.window.deathRows, key ∉ row.deleted := by
  intro row mem present
  obtain ⟨height, found⟩ := mem_iff_getElem?.mp mem
  have low := (List.getElem?_eq_some_iff.mp found).1
  have count := tracked.count
  have dying := tracked.rows height row found key present
  exact dying.not_mem (by omega) (by rw [length_changes]) member

/-- **Noting a block that deletes live keys.** -/
theorem noted (hash : BlockHash) {changes : ChangeSet Key DBValue}
    (live : (changeOf (blockRecord hash changes)).DeletesLive (stateAt initial self.changes
      self.history.length)) : Tracked initial (self.noted hash changes) := by
  have fresh : ∀ key ∈ changes.deleted, key ∈ changes.inserted.map Prod.fst ∨
      ∀ row ∈ self.window.deathRows, key ∉ row.deleted := by
    intro key deleted
    have there := live (mem_toFinset.mpr deleted)
    rcases Finset.mem_union.mp there with old | again
    · exact .inr (tracked.not_mem_rows old)
    · exact .inl (mem_toFinset.mp again)
  have indexed := tracked.indexed.imported hash (RefWindow.toJournalKey
    (self.window.pendingNumber + self.window.deathRows.length)) fresh
  have count := tracked.count
  have rows : (self.noted hash changes).window.deathRows.length =
      self.window.deathRows.length + 1 := by
    simp [Stage.noted, imported]
  refine ⟨⟨indexed.nodup, indexed.iff⟩, ?_, ?_, tracked.pruned, ?_, ?_⟩
  · rw [rows]
    simp only [Stage.noted, length_append, length_singleton, imported]
    omega
  · rw [rows]
    exact Nat.le_succ_of_le tracked.inside
  · intro height row found key mem
    rw [changes_noted]
    change (self.window.deathRows.map (·.without (changes.inserted.map Prod.fst)) ++ [_])[height]? =
      some row at found
    rcases getElem?_concat found with old | ⟨new, rfl⟩
    · rw [List.getElem?_map] at old
      obtain ⟨before, there, rfl⟩ := Option.map_eq_some_iff.mp old
      simp only [DeathRow.without, mem_filter, decide_eq_true_eq] at mem
      have dying := tracked.rows height before there key mem.1
      exact dying.concat fun again => mem.2 (mem_toFinset.mp again)
    · rw [length_map] at new
      have last : self.window.pendingNumber + height = self.changes.length := by
        rw [length_changes]
        omega
      change Dying _ (self.window.pendingNumber + height) key
      rw [last]
      exact dying_concat_last (mem_toFinset.mpr (mem_dedup.mp mem))
  · intro key kept
    rw [changes_noted] at kept
    have low := tracked.pruned_le
    rw [← length_changes] at low
    change key ∈ insertAll self.db.data changes.inserted
    rw [mem_insertAll]
    rcases kept.of_concat low with old | inserted
    · exact .inr (tracked.stored key old)
    · exact .inl (mem_toFinset.mp inserted)

/-- **Pruning.** -/
theorem prunedOne : Tracked initial self.pruneOne := by
  cases next : self.window.deathRows[self.window.pendingPrunings]? with
  | none =>
    rw [pruneOne_of_none next]
    exact tracked
  | some row =>
    rw [pruneOne_of_row next]
    have low := (List.getElem?_eq_some_iff.mp next).1
    refine ⟨⟨tracked.indexed.nodup, tracked.indexed.iff⟩, tracked.count, low, ?_, tracked.rows, ?_⟩
    · change self.pruned + 1 = self.window.pendingNumber + (self.window.pendingPrunings + 1)
      rw [tracked.pruned, pending, Nat.add_assoc]
    · intro key kept
      change Kept initial self.changes (self.pruned + 1) key at kept
      change key ∈ eraseAll self.db.data row.deleted
      rw [mem_eraseAll]
      refine ⟨tracked.stored key (kept.mono (Nat.le_succ _)), fun member => ?_⟩
      have dying := tracked.rows _ row next key member
      obtain ⟨block, high, mem, present⟩ := kept
      rw [tracked.pruned] at high
      exact dying.not_mem high mem present

/-- **Applying.** -/
theorem applied :
    ∃ index, self.applyPending = .ok { self with window := self.window.settledWith index } ∧
      Tracked initial { self with window := self.window.settledWith index } := by
  have mem := tracked.inside
  have count := tracked.count
  obtain ⟨index, applied, indexed⟩ := applyPending_eq tracked.indexed mem
  refine ⟨index, bind_eq_ok.mpr ⟨_, applied, rfl⟩, indexed, ?_, Nat.zero_le _, tracked.pruned, ?_,
    tracked.stored⟩
  · simp only [length_drop]
    omega
  · intro height row found key member
    simp only [List.getElem?_drop] at found
    have dying := tracked.rows _ row found key member
    rwa [← Nat.add_assoc] at dying

end

theorem start : Tracked nodes.keys ({ db := { data := nodes } } : Stage BlockHash Key) := by
  refine ⟨⟨by simp, by simp⟩, rfl, Nat.le_refl _, rfl, by simp, ?_⟩
  rintro key ⟨block, -, low, mem⟩
  obtain rfl : block = 0 := Nat.le_zero.mp low
  exact Finmap.mem_keys.mp mem

end Tracked

end Stage

end Brace.StateDb
