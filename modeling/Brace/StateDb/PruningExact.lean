import Brace.StateDb.PruningRun

/-!
# The pruning window without reverts

Without reverts a row holds exactly the keys that die with its block, `rowsOf`, and the journal
holds the records of the blocks that are not pruned. Pruning a block then takes from the database
what only the state before it has (`keys_exact`), and replaying the journal gives back the window
(`index_consistent`).
-/

namespace Brace.StateDb

open Brace.Lib List HashMap RefWindow PruningNode

variable {BlockHash Key : Type} [DecidableEq Key]

namespace RefWindow

/-- The row of a block, given the blocks after it. -/
def rowOf (block : Nat) (record : PruningRecord BlockHash Key)
    (later : List (PruningRecord BlockHash Key)) : DeathRow BlockHash Key :=
  { hash := record.hash
    journalKey := RefWindow.toJournalKey block
    deleted := record.deleted.dedup.filter fun key => key ∉ later.flatMap PruningRecord.inserted }

def rowsOf : Nat → List (PruningRecord BlockHash Key) → List (DeathRow BlockHash Key)
  | _, [] => []
  | block, record :: later => rowOf block record later :: rowsOf (block + 1) later

section

variable (block : Nat) (records : List (PruningRecord BlockHash Key))

include block records

theorem length_rowsOf : (rowsOf block records).length = records.length := by
  induction records generalizing block with
  | nil => rfl
  | cons record later ih => simp [rowsOf, ih]

theorem getElem?_rowsOf (height : Nat) : (rowsOf block records)[height]? =
      records[height]?.map fun record =>
        rowOf (block + height) record (records.drop (height + 1)) := by
  induction records generalizing block height with
  | nil => rfl
  | cons record later ih =>
    cases height with
    | zero => rfl
    | succ height =>
      have tail := ih (block + 1) height
      rw [show block + 1 + height = block + (height + 1) by omega] at tail
      exact tail

theorem drop_rowsOf (count : Nat) :
    (rowsOf block records).drop count = rowsOf (block + count) (records.drop count) := by
  induction records generalizing block count with
  | nil => cases count <;> rfl
  | cons record later ih =>
    cases count with
    | zero => rfl
    | succ count =>
      have tail := ih (block + 1) count
      rw [show block + 1 + count = block + (count + 1) by omega] at tail
      exact tail

theorem rowsOf_concat (record : PruningRecord BlockHash Key) :
    rowsOf block (records ++ [record]) =
      (rowsOf block records).map (·.without record.inserted) ++
        [rowOf (block + records.length) record []] := by
  induction records generalizing block with
  | nil => rfl
  | cons first later ih =>
    have head : rowOf block first (later ++ [record]) =
        (rowOf block first later).without record.inserted := by
      simp only [rowOf, DeathRow.without, filter_filter, flatMap_append, mem_append,
        not_or, flatMap_singleton]
      congr 1
      refine filter_congr fun key _ => ?_
      rw [Bool.decide_and, Bool.and_comm]
    rw [cons_append, rowsOf, head, ih, rowsOf, map_cons, length_cons,
      show block + 1 + later.length = block + (later.length + 1) by omega]
    rfl

end

/-- **A row holds exactly the keys that die with its block.** -/
theorem mem_rowsOf {block height : Nat} {records : List (PruningRecord BlockHash Key)}
    {row : DeathRow BlockHash Key} (found : (rowsOf block records)[height]? = some row)
    (key : Key) : key ∈ row.deleted ↔ Dying (records.map changeOf) height key := by
  rw [getElem?_rowsOf] at found
  obtain ⟨record, there, rfl⟩ := Option.map_eq_some_iff.mp found
  simp only [rowOf, mem_filter, mem_dedup, decide_eq_true_eq, mem_flatMap, Dying,
    List.getElem?_map, Option.map_eq_some_iff]
  constructor
  · rintro ⟨deleted, never⟩
    refine ⟨⟨changeOf record, ⟨record, there, rfl⟩, mem_toFinset.mpr deleted⟩, ?_⟩
    rintro later after change ⟨other, stored, rfl⟩ again
    refine never ⟨other, mem_of_getElem? (i := later - (height + 1)) ?_, mem_toFinset.mp again⟩
    rwa [List.getElem?_drop, show height + 1 + (later - (height + 1)) = later by omega]
  · rintro ⟨⟨change, ⟨other, stored, rfl⟩, deleted⟩, never⟩
    rw [there] at stored
    cases stored
    refine ⟨mem_toFinset.mp deleted, ?_⟩
    rintro ⟨other, mem, again⟩
    obtain ⟨place, stored⟩ := mem_iff_getElem?.mp mem
    rw [List.getElem?_drop] at stored
    exact never (height + 1 + place) (by omega) _ ⟨other, stored, rfl⟩
      (mem_toFinset.mpr again)

end RefWindow

namespace Stage

variable {initial : Finset Key} {self : Stage BlockHash Key}

/-- The rows are those of the blocks left, and the journal has their records. -/
structure Exact (initial : Finset Key) (stage : Stage BlockHash Key) : Prop where
  tracked : Tracked initial stage
  live : ∀ block (change : Change Key), stage.changes[block]? = some change →
    change.DeletesLive (stateAt initial stage.changes block)
  rows : stage.window.deathRows = rowsOf stage.window.pendingNumber
    (stage.history.drop stage.window.pendingNumber)
  lastPruned : Finmap.lookup .lastPruned stage.db.metadata =
    if stage.pruned = 0 then none else some (.pruned (stage.pruned - 1))
  journal : ∀ block, Finmap.lookup (RefWindow.toJournalKey block) stage.db.metadata =
    if stage.pruned ≤ block then stage.history[block]?.map .pruning else none

/-- The window of the blocks that are not pruned, under an index. -/
abbrev windowWith (self : Stage BlockHash Key) (index : HashMap Key Nat) :
    RefWindow BlockHash Key where
  deathRows := rowsOf self.pruned (self.history.drop self.pruned)
  deathIndex := index
  pendingNumber := self.pruned

namespace Exact

variable {row : DeathRow BlockHash Key}

section

variable (complete : Exact initial self)

include complete

section

variable (next : self.window.deathRows[self.window.pendingPrunings]? = some row)

include next

theorem journalKey_next : row.journalKey = RefWindow.toJournalKey self.pruned := by
  rw [complete.rows, getElem?_rowsOf] at next
  obtain ⟨record, -, rfl⟩ := Option.map_eq_some_iff.mp next
  rw [complete.tracked.pruned]
  rfl

end

/-- **Noting a block that deletes live keys.** -/
theorem noted (hash : BlockHash) {changes : ChangeSet Key DBValue}
    (live : (changeOf (blockRecord hash changes)).DeletesLive (stateAt initial self.changes
      self.history.length)) : Exact initial (self.noted hash changes) := by
  have count := complete.tracked.count
  have length := Tracked.length_changes self
  refine ⟨complete.tracked.noted hash live, ?_, ?_, ?_, ?_⟩
  · intro block change there
    rw [Tracked.changes_noted] at there ⊢
    rcases getElem?_concat there with old | ⟨rfl, rfl⟩
    · rw [stateAt_concat _ (List.getElem?_eq_some_iff.mp old).1.le]
      exact complete.live block change old
    · rw [stateAt_concat _ (Nat.le_refl _), length]
      exact live
  · change self.window.deathRows.map (·.without (changes.inserted.map Prod.fst)) ++ [_] =
      rowsOf self.window.pendingNumber
        ((self.history ++ [blockRecord hash changes]).drop self.window.pendingNumber)
    rw [drop_append_of_le_length (by omega), rowsOf_concat, ← complete.rows, length_drop]
    simp [rowOf, blockRecord,
      show self.history.length - self.window.pendingNumber = self.window.deathRows.length by omega]
  · change (Finmap.insert _ _ _).lookup _ = _
    rw [lookup_insert_eq, if_neg (by simp [RefWindow.toJournalKey])]
    exact complete.lastPruned
  · intro block
    change (self.db.metadata.insert _ _).lookup (RefWindow.toJournalKey block) =
      if self.pruned ≤ block then
        (self.history ++ [blockRecord hash changes])[block]?.map MetaValue.pruning
      else none
    have pruned := complete.tracked.pruned_le
    rw [lookup_insert_eq, complete.journal, count]
    rcases Nat.lt_trichotomy block self.history.length with old | rfl | new
    · rw [if_neg (by simp [RefWindow.toJournalKey]; omega), List.getElem?_append_left old]
    · rw [if_pos rfl, if_pos pruned, List.getElem?_concat_length]
      rfl
    · rw [if_neg (by simp [RefWindow.toJournalKey]; omega), List.getElem?_eq_none (by omega),
        List.getElem?_eq_none (by rw [length_append, length_singleton]; omega)]

/-- **Pruning.** -/
theorem prunedOne : Exact initial self.pruneOne := by
  have tracked := complete.tracked.prunedOne
  cases next : self.window.deathRows[self.window.pendingPrunings]? with
  | none =>
    rw [pruneOne_of_none next]
    exact complete
  | some row =>
    rw [pruneOne_of_row next] at tracked ⊢
    refine ⟨tracked, complete.live, complete.rows, ?_, ?_⟩
    · change ((Finmap.insert _ _ _).erase _).lookup _ = _
      rw [lookup_erase_eq, lookup_insert_eq, complete.journalKey_next next,
        if_neg (by simp [RefWindow.toJournalKey]), if_pos rfl, if_neg (Nat.succ_ne_zero _),
        complete.tracked.pruned]
      rfl
    · intro block
      change Finmap.lookup (RefWindow.toJournalKey block)
          ((self.db.metadata.insert _ _).erase _) =
        if self.pruned + 1 ≤ block then self.history[block]?.map MetaValue.pruning else none
      rw [lookup_erase_eq, lookup_insert_eq, complete.journalKey_next next, complete.journal]
      rcases Nat.lt_trichotomy block self.pruned with low | rfl | high
      · rw [if_neg (by simp [RefWindow.toJournalKey]; omega),
          if_neg (by simp [RefWindow.toJournalKey]), if_neg (by omega), if_neg (by omega)]
      · rw [if_pos rfl, if_neg (by omega)]
      · rw [if_neg (by simp [RefWindow.toJournalKey]; omega),
          if_neg (by simp [RefWindow.toJournalKey]), if_pos (by omega), if_pos (by omega)]

/-- **Applying.** -/
theorem applied {next : Stage BlockHash Key} (ran : self.applyPending = .ok next) :
    Exact initial next := by
  obtain ⟨index, applied, tracked⟩ := complete.tracked.applied
  rw [applied] at ran
  cases ran
  refine ⟨tracked, complete.live, ?_, complete.lastPruned, complete.journal⟩
  change self.window.deathRows.drop self.window.pendingPrunings = rowsOf
    (self.window.pendingNumber + self.window.pendingPrunings) (self.history.drop
      (self.window.pendingNumber + self.window.pendingPrunings))
  rw [complete.rows, drop_rowsOf, drop_drop]

end

/-! ## Replaying the journal -/

/-- **Importing the records one after the other** gives the rows of all of them. -/
theorem readJournal_eq (complete : Exact initial self) (left block : Nat)
    (window : RefWindow BlockHash Key) (indexed : window.Indexed)
    (number : window.pendingNumber = self.pruned)
    (idle : window.pendingCanonicalizations = 0 ∧ window.pendingPrunings = 0)
    (rows : window.deathRows =
      rowsOf self.pruned ((self.history.take block).drop self.pruned))
    (low : self.pruned ≤ block) (mem : block ≤ self.history.length)
    (enough : self.history.length < block + left) :
    ∃ index, readJournal self.db.metadata left block window =
        .ok (.ok (self.windowWith index)) ∧ (self.windowWith index).Indexed := by
  induction left generalizing block window with
  | zero => omega
  | succ left ih =>
    unfold readJournal
    simp only [complete.journal block, low, if_true]
    rcases Nat.lt_or_ge block self.history.length with more | done
    · have there : self.history[block]? = some self.history[block] := List.getElem?_eq_getElem more
      have change : self.changes[block]? = some (changeOf self.history[block]) := by
        rw [Stage.changes, List.getElem?_map, there]
        rfl
      have fresh : ∀ key ∈ self.history[block].deleted, key ∈ self.history[block].inserted ∨
          ∀ row ∈ window.deathRows, key ∉ row.deleted := by
        intro key deleted
        rcases Finset.mem_union.mp (complete.live block _ change (mem_toFinset.mpr deleted))
          with old | again
        · refine .inr fun row stored present => ?_
          -- a key in a row is in no state after its block
          obtain ⟨height, found⟩ := mem_iff_getElem?.mp stored
          rw [rows] at found
          have dying := (mem_rowsOf found key).mp present
          have short : height < block - self.pruned := by
            have bound := (List.getElem?_eq_some_iff.mp found).1
            rw [length_rowsOf, length_drop, length_take] at bound
            omega
          rw [map_drop, map_take, dying_drop] at dying
          have absent : key ∉ stateAt initial (self.changes.take block) block :=
            dying.not_mem (by omega) (by rw [length_take, length_map]; omega)
          rw [stateAt, take_take, Nat.min_self] at absent
          exact absent old
        · exact .inl (mem_toFinset.mp again)
      have next := ih (block + 1)
        (window.imported self.history[block].hash (RefWindow.toJournalKey block)
          self.history[block].inserted self.history[block].deleted)
        (indexed.imported _ _ fresh) number idle ?_ (by omega) more (by omega)
      · simpa only [there, Option.map_some, MetaValue.decodePruning,
          importBlock_eq indexed, bind, Except.bind] using next
      · have taken : (self.history.take (block + 1)).drop self.pruned =
            (self.history.take block).drop self.pruned ++ [self.history[block]] := by
          rw [take_add_one, there, drop_append_of_le_length
            (by rw [length_take]; omega)]
          rfl
        rw [taken, rowsOf_concat, ← rows, length_drop, length_take]
        simp [imported, rowOf,
          show self.pruned + (min block self.history.length - self.pruned) = block by omega]
    · obtain rfl : block = self.history.length := by omega
      rw [take_of_length_le (Nat.le_refl _)] at rows
      have same : window = self.windowWith window.deathIndex :=
        RefWindow.ext rows rfl number idle.1 idle.2
      refine ⟨window.deathIndex, ?_, same ▸ indexed⟩
      rw [List.getElem?_eq_none (Nat.le_refl _), ← same]
      rfl

theorem restores (complete : Exact initial self)
    (idle : self.window.pendingCanonicalizations = 0 ∧ self.window.pendingPrunings = 0) :
    new self.db = .ok (.ok self.window) := by
  have tracked := complete.tracked
  have number : self.window.pendingNumber = self.pruned := by
    rw [tracked.pruned, pending, idle.2]
    rfl
  have low := tracked.pruned_le
  have enough : self.history.length - self.pruned ≤ self.db.metadata.keys.card := by
    refine le_card_keys (fun place => RefWindow.toJournalKey (self.pruned + place))
      (fun left right same => by injection same with same; omega) fun place mem => ?_
    rw [mem_iff_lookup_ne, complete.journal, if_pos (by omega), List.getElem?_eq_getElem (by omega)]
    simp
  have empty : ({ pendingNumber := self.pruned } : RefWindow BlockHash Key).Indexed :=
    ⟨by simp, by simp⟩
  obtain ⟨index, read, indexed⟩ := complete.readJournal_eq (self.db.metadata.keys.card + 1)
    self.pruned { pendingNumber := self.pruned } empty rfl ⟨rfl, rfl⟩
    (by rw [drop_eq_nil_of_le (by rw [length_take]; omega)]; rfl) (Nat.le_refl _) low
    (by omega)
  -- the index is the one in memory, since both belong to the same rows
  have rows := complete.rows
  rw [number] at rows
  have whole : self.window = self.windowWith index := by
    refine RefWindow.ext rows (Finmap.ext_lookup fun key => Option.ext fun block => ?_) number
      idle.1 idle.2
    rw [tracked.indexed.iff, indexed.iff, rows, number]
  rw [← whole] at read
  unfold new
  rw [complete.lastPruned]
  by_cases zero : self.pruned = 0
  · rw [if_pos zero]
    rw [zero] at read
    exact read
  · rw [if_neg zero]
    simp only [MetaValue.decodePruned, Nat.sub_one_add_one zero]
    exact read

end Exact

end Stage

namespace Stage

variable {initial : Finset Key} {self : Stage BlockHash Key}

/-- The database holds nothing but the states from the last pruned block on. -/
structure Retains (initial : Finset Key) (stage : Stage BlockHash Key) : Prop where
  complete : Exact initial stage
  disjoint : ∀ change ∈ stage.changes, Disjoint change.inserted change.deleted
  keys : ∀ key ∈ stage.db.data, Kept initial stage.changes stage.pruned key

namespace Retains

variable (retains : Retains initial self)

include retains

/-- **Noting a block of the chain.** -/
theorem noted (hash : BlockHash) {changes : ChangeSet Key DBValue}
    (proper : (changeOf (blockRecord hash changes)).Proper
      (stateAt initial self.changes self.history.length)) :
    Retains initial (self.noted hash changes) := by
  have low := retains.complete.tracked.pruned_le
  rw [← Tracked.length_changes] at low
  refine ⟨retains.complete.noted hash (proper.1.trans Finset.subset_union_left), ?_, ?_⟩
  · intro change mem
    rw [Tracked.changes_noted] at mem
    rcases mem_append.mp mem with old | new
    · exact retains.disjoint change old
    · rw [mem_singleton.mp new]
      exact proper.2
  · intro key mem
    change key ∈ insertAll self.db.data changes.inserted at mem
    rw [Tracked.changes_noted]
    refine (kept_concat low proper.2).mpr ?_
    rcases (mem_insertAll _ _ _).mp mem with inserted | old
    · exact .inr (mem_toFinset.mpr inserted)
    · exact .inl (retains.keys key old)

/-- **Pruning takes what only the state before the block has.** -/
theorem prunedOne : Retains initial self.pruneOne := by
  have complete := retains.complete.prunedOne
  cases next : self.window.deathRows[self.window.pendingPrunings]? with
  | none =>
    rw [pruneOne_of_none next]
    exact retains
  | some row =>
    rw [pruneOne_of_row next] at complete ⊢
    refine ⟨complete, retains.disjoint, fun key mem => ?_⟩
    change key ∈ eraseAll self.db.data row.deleted at mem
    obtain ⟨old, stays⟩ := (mem_eraseAll _ _ _).mp mem
    have room : self.pruned < self.changes.length := by
      have tracked := retains.complete.tracked
      have count := tracked.count
      have bound := (List.getElem?_eq_some_iff.mp next).1
      rw [Tracked.length_changes, tracked.pruned, pending]
      omega
    refine (kept_succ room retains.disjoint).mpr ⟨retains.keys key old, fun dying => stays ?_⟩
    rw [retains.complete.rows] at next
    rw [retains.complete.tracked.pruned] at dying
    rwa [mem_rowsOf next, map_drop, dying_drop]

/-- **Applying.** -/
theorem applied {next : Stage BlockHash Key}
    (ran : self.applyPending = .ok next) : Retains initial next := by
  have complete := retains.complete.applied ran
  obtain ⟨index, applied, -⟩ := retains.complete.tracked.applied
  rw [applied] at ran
  cases ran
  exact ⟨complete, retains.disjoint, retains.keys⟩

end Retains

end Stage

namespace PruningNode

variable {nodes : HashMap Key DBValue} {self next : PruningNode BlockHash Key}

theorem exact_start :
    (start nodes : PruningNode BlockHash Key).current.Exact nodes.keys :=
  ⟨.start nodes, by simp [start, Stage.changes], rfl, rfl, by simp [start]⟩

variable {op : PruningCall BlockHash Key}

/-- **Every call of a run without reverts keeps the rows and the journal exact.** -/
theorem exact_step (complete : self.current.Exact nodes.keys)
    (forward : Forward op) (live : DeletesLive nodes self op) (ran : self.step op = .ok next) :
    next.current.Exact nodes.keys := by
  cases op with
  | noteCanonical hash changes =>
    obtain ⟨stage, noted, rest⟩ := bind_eq_ok.mp ran
    rw [Stage.noteCanonical_eq complete.tracked.indexed] at noted
    cases noted
    cases rest
    exact complete.noted hash live
  | pruneOne =>
    cases ran
    exact complete.prunedOne
  | applyPending =>
    obtain ⟨stage, applied, rest⟩ := bind_eq_ok.mp ran
    cases rest
    exact complete.applied applied
  | revertPending => exact forward.elim

theorem retains_start :
    (start nodes : PruningNode BlockHash Key).current.Retains nodes.keys := by
  refine ⟨exact_start, by simp [start, Stage.changes], fun key mem => ?_⟩
  exact ⟨0, Nat.le_refl _, Nat.le_refl _, Finmap.mem_keys.mpr mem⟩

/-- **Every call of a run over a chain keeps the database exact.** -/
theorem retains_step (retains : self.current.Retains nodes.keys)
    (forward : Forward op) (proper : ChainConsistent nodes self op)
    (ran : self.step op = .ok next) : next.current.Retains nodes.keys := by
  cases op with
  | noteCanonical hash changes =>
    obtain ⟨stage, noted, rest⟩ := bind_eq_ok.mp ran
    rw [Stage.noteCanonical_eq retains.complete.tracked.indexed] at noted
    cases noted
    cases rest
    exact retains.noted hash proper
  | pruneOne =>
    cases ran
    exact retains.prunedOne
  | applyPending =>
    obtain ⟨stage, applied, rest⟩ := bind_eq_ok.mp ran
    cases rest
    exact retains.applied applied
  | revertPending => exact forward.elim

variable (nodes)

/-- **The window deletes exactly what no state in it needs.** In every run over the blocks of a
chain the keys of the database are those of the states from the last pruned block to the last noted
one, where a block takes the keys it deletes out of the state before and adds those it inserts. -/
theorem keys_exact (self : PruningNode BlockHash Key) (reached : Reachable step
      (fun node op => Forward op ∧ ChainConsistent nodes node op) (start nodes) self) :
    (∀ key, key ∈ self.current.db.data ↔ ∃ block, self.current.pruned ≤ block ∧
      block ≤ self.current.history.length ∧
        key ∈ stateAt nodes.keys self.current.changes block) ∧
    ∀ block record, self.current.history[block]? = some record →
      stateAt nodes.keys self.current.changes (block + 1) =
        (stateAt nodes.keys self.current.changes block \ record.deleted.toFinset) ∪
          record.inserted.toFinset := by
  have retains : self.current.Retains nodes.keys := by
    induction reached with
    | refl => exact retains_start
    | tail _ guarded ran ih => exact retains_step ih guarded.1 guarded.2 ran
  refine ⟨fun key => ⟨fun mem => ?_, fun kept => ?_⟩, fun block record there => ?_⟩
  · have kept := retains.keys key mem
    rw [Kept, Stage.Tracked.length_changes] at kept
    exact kept
  · rw [← Stage.Tracked.length_changes] at kept
    exact retains.complete.tracked.stored key kept
  · have change : self.current.changes[block]? = some (changeOf record) := by
      rw [Stage.changes, List.getElem?_map, there]
      rfl
    rw [stateAt_succ change]
    exact Change.apply_of_disjoint _ (retains.disjoint _ (mem_of_getElem? change))

/-- Key 2 is deleted, inserted again and deleted again, with two of the three blocks pruned. -/
theorem keys_exact_reinserted : ∃ self : PruningNode Nat Nat,
    Reachable step (fun node op => Forward op ∧
      ChainConsistent (makeNodes [1, 2, 3]) node op) (start (makeNodes [1, 2, 3])) self ∧
    (self.current.pruned = 2 ∧ self.current.history.length = 3) ∧
    ∀ key, key ∈ self.current.db.data ↔ ∃ block, self.current.pruned ≤ block ∧
      block ≤ self.current.history.length ∧
        key ∈ stateAt (makeNodes [1, 2, 3]).keys self.current.changes block := by
  refine exists_reachable_of_found
    [.noteCanonical 10 { deleted := [2] }, .noteCanonical 11 { inserted := [(2, [])] },
      .pruneOne, .noteCanonical 12 { deleted := [2] }, .pruneOne, .applyPending]
    (fun self => self.current.pruned = 2 ∧ self.current.history.length = 3) (by decide +kernel)
    fun self reached counts => ?_
  exact ⟨counts, (keys_exact _ self reached).1⟩

/-- **The index agrees with the rows, and a restart finds both.** In every run without reverts in
which blocks delete live keys only, the index has a block for a key exactly when the key is in its
row, a key is in at most one row, and the window read back after `apply_pending` is the one in
memory. -/
theorem index_consistent (self : PruningNode BlockHash Key) (reached : Reachable step
      (fun node op => Forward op ∧ DeletesLive nodes node op) (start nodes) self) :
    (∀ key block, Finmap.lookup key self.current.window.deathIndex = some block ↔
      ∃ row, self.current.window.pendingNumber ≤ block ∧
        self.current.window.deathRows[block - self.current.window.pendingNumber]? = some row ∧
          key ∈ row.deleted) ∧
    (∀ key (height other : Nat) (row stored : DeathRow BlockHash Key),
      self.current.window.deathRows[height]? = some row →
      self.current.window.deathRows[other]? = some stored → key ∈ row.deleted →
        key ∈ stored.deleted → height = other) ∧
    (∀ hash changes, ∃ next, self.step (.noteCanonical hash changes) = .ok next) ∧
    ∃ next, self.step .applyPending = .ok next ∧
      new next.current.db = .ok (.ok next.current.window) := by
  have complete : self.current.Exact nodes.keys := by
    induction reached with
    | refl => exact exact_start
    | tail _ guarded ran ih => exact exact_step ih guarded.1 guarded.2 ran
  have indexed := complete.tracked.indexed
  refine ⟨fun key block => ?_, fun key height other row stored found known first second =>
    indexed.unique found first known second, fun hash changes => ?_, ?_⟩
  · rw [indexed.iff]
    constructor
    · rintro ⟨height, row, stored, rfl, mem⟩
      exact ⟨row, Nat.le_add_right _ _, by rwa [Nat.add_sub_cancel_left], mem⟩
    · rintro ⟨row, low, stored, mem⟩
      exact ⟨block - self.current.window.pendingNumber, row, stored, by omega, mem⟩
  · exact ⟨_, bind_eq_ok.mpr ⟨_, Stage.noteCanonical_eq indexed hash changes, rfl⟩⟩
  · obtain ⟨index, applied, -⟩ := complete.tracked.applied
    exact ⟨_, bind_eq_ok.mpr ⟨_, applied, rfl⟩, (complete.applied applied).restores ⟨rfl, rfl⟩⟩

variable {nodes}

/-- Key 2 is deleted, inserted again while its first deletion is being pruned, and deleted again. -/
theorem index_consistent_reinserted : ∃ self : PruningNode Nat Nat,
    Reachable step (fun node op => Forward op ∧
      DeletesLive (makeNodes [1, 2, 3]) node op) (start (makeNodes [1, 2, 3])) self ∧
    self.current.window.deathRows.map DeathRow.deleted = [[], [], [2]] ∧
    ∃ next, self.step .applyPending = .ok next ∧
      new next.current.db = .ok (.ok next.current.window) := by
  refine exists_reachable_of_found
    [.noteCanonical 10 { deleted := [2] }, .pruneOne,
      .noteCanonical 11 { inserted := [(2, [])] }, .noteCanonical 12 { deleted := [2] }]
    (fun self => self.current.window.deathRows.map DeathRow.deleted = [[], [], [2]])
    (by decide +kernel) fun self reached rows => ?_
  exact ⟨rows, (index_consistent _ self reached).2.2.2⟩

/-- **What `have_block` promises.** In every run without reverts in which blocks delete live keys
only, it answers for exactly the blocks noted and not pruned, whose states the database holds. -/
theorem haveBlock_available [DecidableEq BlockHash] {self : PruningNode BlockHash Key}
    (reached : Reachable step (fun node op => Forward op ∧ DeletesLive nodes node op) (start nodes)
      self) (hash : BlockHash) :
    (self.current.window.haveBlock hash = true ↔
      ∃ record ∈ self.current.history.drop self.current.pruned, record.hash = hash) ∧
    ∀ block, self.current.pruned ≤ block → block ≤ self.current.history.length →
      ∀ key ∈ stateAt nodes.keys self.current.changes block, key ∈ self.current.db.data := by
  have complete : self.current.Exact nodes.keys := reached.invariant
    (motive := fun node => node.current.Exact nodes.keys) exact_start
    fun _ _ _ complete guarded ran => exact_step complete guarded.1 guarded.2 ran
  have tracked := complete.tracked
  have answers : ∀ block (records : List (PruningRecord BlockHash Key)),
      (rowsOf block records).any (·.hash = hash) ↔ ∃ record ∈ records, record.hash = hash := by
    intro block records
    induction records generalizing block with
    | nil => simp [rowsOf]
    | cons record later ih => simp [rowsOf, rowOf, ih]
  refine ⟨?_, fun block high low key mem => tracked.stored key ⟨block, high, ?_, mem⟩⟩
  · rw [haveBlock, complete.rows, drop_rowsOf, drop_drop, tracked.pruned, pending]
    exact answers _ _
  · rwa [Stage.Tracked.length_changes]

/-- A block deletes a key and is pruned, and the next one has inserted the key again: that block and
its key are there. -/
theorem haveBlock_available_noted : let nodes := makeNodes [1, 2]
    ∃ self : PruningNode Nat Nat, Reachable step
      (fun node op => Forward op ∧ DeletesLive nodes node op) (start nodes) self ∧
        self.current.window.haveBlock 11 = true ∧ self.current.window.haveBlock 10 = false ∧
          2 ∈ self.current.db.data := by
  intro nodes
  refine exists_reachable_of_found
    [.noteCanonical 10 { deleted := [2] }, .noteCanonical 11 { inserted := [(2, [])] },
      .pruneOne, .applyPending]
    (fun self => (self.current.history.drop self.current.pruned).map (·.hash) = [11] ∧
      self.current.pruned = 1 ∧ self.current.history.length = 2 ∧
      2 ∈ stateAt nodes.keys self.current.changes 2)
    (by decide +kernel) fun self reached ⟨left, pruned, noted, live⟩ => ?_
  have hashes : ∀ hash, (∃ record ∈ self.current.history.drop self.current.pruned,
      record.hash = hash) ↔ hash = 11 := by
    intro hash
    rw [← mem_map, left, mem_singleton]
  obtain ⟨there, states⟩ := haveBlock_available reached 11
  refine ⟨there.mpr ((hashes 11).mpr rfl), ?_, states 2 (by omega) (by omega) 2 live⟩
  rw [Bool.eq_false_iff, ne_eq, (haveBlock_available reached 10).1, hashes]
  decide

end PruningNode

end Brace.StateDb
