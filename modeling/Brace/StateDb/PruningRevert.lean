import Brace.StateDb.PruningRun

/-!
# Reverting the pruning window

`revert_pending` drops the rows of the blocks noted since the last `apply_pending`, but does not put
back the keys that these blocks had taken off older rows. `Followed` relates the window to the stage
it returns to: the rows left are those of the blocks before, each with at most the keys it had then.
A later pruning therefore forgets keys at worst and never deletes one that is needed
(`revert_safe`).
-/

namespace Brace.StateDb

open Brace.Lib List RefWindow

variable {BlockHash Key : Type} [DecidableEq Key]

namespace PruningNode

/-- The pending calls have only added rows to those of the settled stage. -/
structure Followed (nodes : HashMap Key DBValue) (node : PruningNode BlockHash Key) : Prop where
  tracked : node.current.Tracked nodes.keys
  settled : node.settled.Tracked nodes.keys
  idle : node.settled.window.pendingPrunings = 0
  number : node.current.window.pendingNumber = node.settled.window.pendingNumber
  length : node.current.window.deathRows.length =
    node.settled.window.deathRows.length + node.current.window.pendingCanonicalizations
  hashes : (node.current.window.deathRows.map DeathRow.hash).take
    node.settled.window.deathRows.length = node.settled.window.deathRows.map DeathRow.hash
  history : node.settled.history = node.current.history.take node.settled.history.length

variable {nodes : HashMap Key DBValue} {self : PruningNode BlockHash Key}

/-- A stage with no call pending is its own settled stage. -/
theorem Followed.settle {stage : Stage BlockHash Key} (tracked : stage.Tracked nodes.keys)
    (idle : stage.window.pendingPrunings = 0) (none : stage.window.pendingCanonicalizations = 0) :
    Followed nodes { current := stage, settled := stage } where
  tracked := tracked
  settled := tracked
  idle := idle
  number := rfl
  length := by simp only [none, Nat.add_zero]
  hashes := List.take_of_length_le (by rw [List.length_map])
  history := (List.take_of_length_le (Nat.le_refl _)).symm

section

variable (followed : Followed nodes self)

include followed

theorem Followed.noted (hash : BlockHash) {changes : ChangeSet Key DBValue}
    (live : (changeOf (blockRecord hash changes)).DeletesLive (self.live nodes)) :
    Followed nodes { self with current := self.current.noted hash changes } := by
  have length := followed.length
  refine ⟨followed.tracked.noted hash live, followed.settled, followed.idle, followed.number, ?_,
    ?_, ?_⟩
  · simp only [Stage.noted, imported, length_append, length_map, length_singleton]
    omega
  · have hashes : (self.current.window.deathRows.map
        (·.without (changes.inserted.map Prod.fst))).map DeathRow.hash =
          self.current.window.deathRows.map DeathRow.hash := by
      rw [map_map]
      rfl
    simp only [Stage.noted, imported, map_append, hashes]
    rw [take_append_of_le_length (by rw [length_map]; omega)]
    exact followed.hashes
  · have before := followed.history
    have bound : self.settled.history.length ≤ self.current.history.length := by
      rw [before, length_take]
      omega
    change self.settled.history = (self.current.history ++ [_]).take self.settled.history.length
    rw [take_append_of_le_length bound]
    exact before

theorem Followed.reverted_rows :
    self.current.window.revertPending.deathRows =
      self.current.window.deathRows.take self.settled.window.deathRows.length := by
  simp only [revertPending]
  rw [followed.length, Nat.add_sub_cancel]

theorem Followed.reverted :
    Stage.Tracked nodes.keys
      { self.settled with window := self.current.window.revertPending } := by
  have length := followed.length
  have count := followed.settled.count
  have number := followed.number
  have rows := followed.reverted_rows
  refine ⟨followed.tracked.indexed.reverted, ?_, Nat.zero_le _, ?_, ?_, followed.settled.stored⟩
  · simp only [rows, length_take]
    change self.current.window.pendingNumber + _ = _
    omega
  · change self.settled.pruned = self.current.window.pendingNumber + 0
    rw [followed.settled.pruned, pending, followed.idle, number]
  · intro height row found key mem
    simp only [rows] at found
    rw [List.getElem?_take] at found
    split at found
    · rename_i low
      have dying := followed.tracked.rows height row found key mem
      change Dying (self.settled.history.map changeOf) (self.current.window.pendingNumber + height)
        key
      rw [followed.history, map_take]
      exact dying.take (by omega)
    · cases found

/-- **Every call keeps the relation.** -/
theorem Followed.step {op : PruningCall BlockHash Key} {next : PruningNode BlockHash Key}
    (live : DeletesLive nodes self op) (ran : self.step op = .ok next) : Followed nodes next := by
  cases op with
  | noteCanonical hash changes =>
    obtain ⟨stage, noted, rest⟩ := bind_eq_ok.mp ran
    rw [Stage.noteCanonical_eq followed.tracked.indexed] at noted
    cases noted
    cases rest
    exact followed.noted hash live
  | pruneOne =>
    cases ran
    obtain ⟨number, rows, pending⟩ := self.current.pruneOne_window
    refine ⟨followed.tracked.prunedOne, followed.settled, followed.idle,
      number.trans followed.number, ?_, ?_, followed.history⟩
    · simp only [rows, pending]
      exact followed.length
    · simp only [rows]
      exact followed.hashes
  | applyPending =>
    obtain ⟨index, applied, tracked⟩ := followed.tracked.applied
    obtain ⟨stage, same, rest⟩ := bind_eq_ok.mp ran
    rw [applied] at same
    cases same
    cases rest
    exact .settle tracked rfl rfl
  | revertPending =>
    cases ran
    exact .settle followed.reverted rfl rfl

end

/-- **A reverted window never deletes a needed key.** In every run in which blocks delete live keys
only, the next pruning deletes no key of a block in the window, the database has all keys of the
blocks from the last pruned one on, and a revert returns to the window as it was before the reverted
calls. -/
theorem revert_safe (nodes : HashMap Key DBValue) (self : PruningNode BlockHash Key)
    (reached : Reachable PruningNode.step (DeletesLive nodes) (PruningNode.start nodes) self) :
    (∀ key ∈ (self.current.window.pruneOne {}).2.data.deleted, ∀ block,
      self.current.pruned < block → block ≤ self.current.history.length →
        key ∉ stateAt nodes.keys self.current.changes block) ∧
    (∀ key, Kept nodes.keys self.current.changes self.current.pruned key →
      key ∈ self.current.db.data) ∧
    ∃ next, self.step .revertPending = .ok next ∧
      next.current.window.windowSize = self.settled.window.windowSize ∧
      next.current.window.pending = self.settled.window.pending ∧
      next.current.window.nextHash = self.settled.window.nextHash := by
  have followed : Followed nodes self :=
    reached.invariant (.settle (.start nodes) rfl rfl) fun _ _ _ followed live ran =>
      followed.step live ran
  have tracked := followed.tracked
  refine ⟨?_, tracked.stored, _, rfl, ?_, ?_, ?_⟩
  · intro key emitted block after mem
    unfold pruneOne at emitted
    split at emitted
    · rename_i row next
      have dying := tracked.rows _ row next key (by simpa using emitted)
      rw [tracked.pruned] at after
      exact dying.not_mem after (by rw [Stage.Tracked.length_changes]; exact mem)
    · cases emitted
  · have length := followed.length
    simp only [windowSize, revertPending, followed.idle, length_take]
    omega
  · change self.current.window.pendingNumber + 0 = _
    rw [pending, followed.number, followed.idle]
  · simp only [nextHash, ← List.getElem?_map, followed.reverted_rows, map_take,
      followed.hashes, followed.idle]
    rfl

/-- A reverted block had inserted key 2 again: the key leaks, and no other row is affected. -/
theorem revert_safe_reinserted : ∃ self : PruningNode Nat Nat,
    Reachable PruningNode.step (DeletesLive (makeNodes [1, 2]))
      (PruningNode.start (makeNodes [1, 2])) self ∧
    self.current.window.deathRows.map DeathRow.deleted = [[], [1]] ∧
    2 ∈ self.current.db.data ∧
    ∀ key ∈ (self.current.window.pruneOne {}).2.data.deleted, ∀ block,
      self.current.pruned < block → block ≤ self.current.history.length →
        key ∉ stateAt (makeNodes [1, 2]).keys
          self.current.changes block := by
  refine exists_reachable_of_found
    [.noteCanonical 10 { deleted := [2] }, .applyPending,
      .noteCanonical 11 { inserted := [(2, [])] }, .pruneOne, .revertPending,
      .noteCanonical 12 { inserted := [(3, [])], deleted := [1] }]
    (fun self => self.current.window.deathRows.map DeathRow.deleted = [[], [1]] ∧
      2 ∈ self.current.db.data)
    (by decide +kernel) fun self reached found => ?_
  exact ⟨found.1, found.2, (revert_safe _ self reached).1⟩

end PruningNode

end Brace.StateDb
