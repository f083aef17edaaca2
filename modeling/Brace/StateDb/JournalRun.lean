import Brace.StateDb.Journal
import Brace.StateDb.ReferenceCounts

/-!
# The journal along a run

The window with the database it writes to. The journal is ahead of memory: while
canonicalizations are pending it holds the window as it will be once they are applied,
`survivors`. `Filed` states the correspondence; an accepted insertion keeps it (`Filed.placed`).

A journal key is made of the height and of the size of the level at the insertion, and the reader
stops at the first missing index. So discards must take blocks off the end of a level only
(`KeepsPrefix`), a block inserted while canonicalizations are pending must go where these leave the
level alone (`InsertsSurvivor`), and a first block of number zero must not be left alone
(`AppliesRooted`), since the reader returns an empty window while nothing is canonicalized.
-/

namespace Brace.StateDb

open Brace.Lib List HashMap

variable {BlockHash Key : Type} [DecidableEq BlockHash] [DecidableEq Key]

namespace NonCanonicalOverlay

variable (self : NonCanonicalOverlay BlockHash Key)

/-- The levels as they will be once the pending canonicalizations are applied. -/
def survivors : Levels BlockHash Key :=
  match self.pendingCanonicalizations.getLast? with
  | none => self.levels
  | some last => heirs self.parentOf {last} (self.levels.drop self.pendingCanonicalizations.length)

/-- A block inserted above pending canonicalizations descends from the last one, and so do all
blocks of its height. -/
def InsertsSurvivor : Operation BlockHash Key → Prop
  | .insert _ number parentHash _ =>
      let start := self.frontBlockNumber + self.pendingCanonicalizations.length
      self.pendingCanonicalizations ≠ [] → start ≤ number →
      number ≤ self.frontBlockNumber + self.levels.length →
        self.survivors.getD (number - start) [] =
          self.levels.getD (number - self.frontBlockNumber) [] ∧
        (number = start → self.pendingCanonicalizations.getLast? = some parentHash) ∧
        (start < number → parentHash ∈ hashes (self.survivors.getD (number - start - 1) []))
  | _ => True

/-- In every level above a canonicalized block its descendants come first. -/
def KeepsPrefix : Operation BlockHash Key → Prop
  | .canonicalize hash =>
      hash ∈ hashes (self.levels.getD self.pendingCanonicalizations.length []) →
        ∀ height < self.levels.length, (heirs self.parentOf {hash}
          (self.levels.drop (self.pendingCanonicalizations.length + 1))).getD height [] <+:
            self.survivors.getD (height + 1) []
  | _ => True

/-- Blocks are applied only once something is canonicalized. -/
def AppliesRooted : Operation BlockHash Key → Prop
  | .applyPending =>
      self.lastCanonicalized = none → self.pendingCanonicalizations = [] → self.levels = []
  | _ => True

/-- The calls of a run without pins and reverts. -/
def PlainCall : Operation BlockHash Key → Prop
  | .insert _ _ _ _ => True
  | .canonicalize _ => True
  | .applyPending => True
  | _ => False

/-- The calls of a run that the journal follows. -/
def Replayable (content : Key → DBValue) (self : NonCanonicalOverlay BlockHash Key)
    (op : Operation BlockHash Key) : Prop :=
  PlainCall op ∧ SameContent content op ∧ self.Orderly op ∧ self.InsertsSurvivor op ∧
    self.KeepsPrefix op ∧ self.AppliesRooted op

section

variable (content : Key → DBValue) (self : NonCanonicalOverlay BlockHash Key)
  (op : Operation BlockHash Key)

instance : Decidable (PlainCall op) := by
  rcases op <;> unfold PlainCall <;> infer_instance

instance : Decidable (self.InsertsSurvivor op) := by
  rcases op <;> unfold InsertsSurvivor <;> infer_instance

instance : Decidable (self.KeepsPrefix op) := by
  rcases op <;> unfold KeepsPrefix <;> infer_instance

instance : Decidable (self.AppliesRooted op) := by
  rcases op <;> unfold AppliesRooted <;> infer_instance

instance : Decidable (Replayable content self op) := inferInstanceAs (Decidable (_ ∧ _))

end

end NonCanonicalOverlay

open NonCanonicalOverlay

/-- A window and the database that its commits are written to. -/
structure Journaled (BlockHash Key : Type) where
  window : NonCanonicalOverlay BlockHash Key := {}
  db : Db BlockHash Key := {}

namespace Journaled

/-- A call, with its commit written to the database. -/
def step (self : Journaled BlockHash Key) (op : Operation BlockHash Key) :
    Except Panic (Journaled BlockHash Key) := do
  let (result, window) ← self.window.call op
  .ok { window, db := match result with
    | .ok commit => self.db.commit commit
    | .error _ => self.db }

/-- The correspondence between the journal and the window. -/
structure Filed (content : Key → DBValue) (node : Journaled BlockHash Key) : Prop where
  counting : Counting content node.window
  steady : node.window.Steady
  unpinned : node.window.pinned = ∅ ∧ node.window.pinnedInsertions = ∅
  parents : ∀ hash ∈ node.window.parents, hash ∈ hashes node.window.levels.flatten
  last : Finmap.lookup .lastCanonical node.db.metadata =
    node.window.settledLast.map fun last => .canonicalized last.1 last.2
  keyed : Keyed node.window.frontBlockNumber node.window.levels
  /-- The survivors come first in their levels. -/
  kept : ∀ height, node.window.survivors.getD height [] <+:
    node.window.levels.getD (node.window.pendingCanonicalizations.length + height) []
  journals : Journals node.window.parentOf content node.db.metadata
    (node.window.frontBlockNumber + node.window.pendingCanonicalizations.length)
    node.window.survivors

end Journaled

namespace NonCanonicalOverlay

abbrev depth (self : NonCanonicalOverlay BlockHash Key) : Nat :=
  self.pendingCanonicalizations.length

variable {self : NonCanonicalOverlay BlockHash Key}

section

omit [DecidableEq Key]

theorem mem_levels_of_mem_survivors {overlay : BlockOverlay BlockHash Key}
    (member : overlay ∈ self.survivors.flatten) : overlay ∈ self.levels.flatten := by
  obtain ⟨height, mem⟩ := mem_flatten.mp member
  unfold survivors at mem
  split at mem
  · exact mem_flatten.mpr ⟨height, mem⟩
  · have stored := (getD_heirs_sublist _ _ _).subset mem
    refine mem_flatten.mpr ⟨self.depth + height, ?_⟩
    simpa [List.getD, List.getElem?_drop] using stored

theorem length_survivors : self.survivors.length =
    self.levels.length - self.depth := by
  unfold survivors
  split
  · rename_i none
    simp [depth, List.getLast?_eq_none_iff.mp none]
  · rw [heirs_length, length_drop]

end

theorem Accepts.number_eq {block : Placement BlockHash Key} (accepted : self.Accepts block) :
    block.number = (self.place block).frontBlockNumber + block.position := by
  obtain ⟨last, position, hash, number, parentHash, changeset⟩ := block
  change Accepted self number parentHash last position at accepted
  cases accepted with
  | first empty none pos =>
    simp only [frontBlockNumber, place, placed]
    omega
  | unchecked none _ => simp [frontBlockNumber, place, placed]
  | front _ _ same | above _ _ _ _ same => simp [frontBlockNumber, place, placed, same]

theorem survivors_place {block : Placement BlockHash Key} (forest : Forest Unbroken self)
    (fresh : self.Fresh block.hash) (within : block.position ≤ self.levels.length)
    (front : block.position = self.depth →
      ∀ final ∈ self.pendingCanonicalizations.getLast?, final = block.parentHash)
    (below : ∀ height, self.pendingCanonicalizations ≠ [] →
      block.position = self.depth + (height + 1) →
        block.parentHash ∈ hashes (self.survivors.getD height [])) :
    (self.place block).survivors =
      if self.depth ≤ block.position then
        pushBlock self.survivors (block.position - self.depth) (self.overlayOf block)
      else self.survivors := by
  have stored := forest.parentOf_stored fresh.1
  have childless : ∀ overlay ∈ self.levels.flatten, self.parentOf overlay.hash ≠ some block.hash :=
    fun overlay mem => fresh.2 overlay.hash
      (Finmap.mem_keys.mpr (forest.wellFormed.parentEntry overlay mem))
  unfold survivors at below ⊢
  change (match self.pendingCanonicalizations.getLast? with
    | none => pushBlock self.levels block.position (self.overlayOf block)
    | some final => heirs (self.place block).parentOf {final}
        ((pushBlock self.levels block.position (self.overlayOf block)).drop self.depth)) = _
  cases final : self.pendingCanonicalizations.getLast? with
  | none => simp [depth, List.getLast?_eq_none_iff.mp final]
  | some last' =>
    have pending : self.pendingCanonicalizations ≠ [] := fun none => by simp [none] at final
    simp only [final] at below ⊢
    have dropped : ∀ overlay ∈ (self.levels.drop self.depth).flatten,
        overlay ∈ self.levels.flatten := fun overlay mem =>
      (drop_sublist _ _).flatten.subset mem
    have same := heirs_congr {last'} fun overlay mem => stored overlay (dropped overlay mem)
    rw [drop_pushBlock _ _ _ within]
    split
    · rename_i above
      rw [← same]
      refine heirs_pushBlock (by rw [length_drop]; omega)
        ((parentOf_place ..).trans (if_pos rfl)) ?_ ?_ ?_
      · intro block mem
        rw [stored block (dropped block mem)]
        exact childless block (dropped block mem)
      · intro first
        rw [front (by omega) last' final]
        exact Finset.mem_singleton_self _
      · intro height at'
        rw [same]
        exact below height pending (by omega)
    · exact same

end NonCanonicalOverlay

namespace Journaled

variable {content : Key → DBValue} {self : Journaled BlockHash Key}

omit [DecidableEq BlockHash] [DecidableEq Key] in
theorem getElem?_of_initial {α : Type} {short long : List α} (first : short <+: long) {index : Nat}
    {element : α} (found : short[index]? = some element) : long[index]? = some element := by
  obtain ⟨low, same⟩ := List.getElem?_eq_some_iff.mp found
  rw [prefix_iff_getElem?.mp first index low, same]

omit [DecidableEq BlockHash] in
theorem lookup_commit (db : Db BlockHash Key) (commit : CommitSet BlockHash Key) (key : MetaKey) :
    (db.commit commit).metadata.lookup key =
      if key ∈ commit.metadata.deleted then none
      else (HashMap.insertAll db.metadata commit.metadata.inserted).lookup key :=
  lookup_eraseAll _ _ _

variable {block : Placement BlockHash Key}

/-- The record of an inserted block. -/
abbrev recordIn (block : Placement BlockHash Key) : BlockRecord BlockHash Key where
  hash := block.hash
  parentHash := block.parentHash
  inserted := block.changeset.inserted
  deleted := block.changeset.deleted

/-- The node after an insertion and its commit. -/
abbrev place (self : Journaled BlockHash Key) (block : Placement BlockHash Key) :
    Journaled BlockHash Key where
  window := self.window.place block
  db := self.db.commit (self.window.placedCommit block.last block.position block.hash block.number
    block.parentHash block.changeset)

theorem lookup_journal_place (number index : Nat) :
    (self.place block).db.metadata.lookup (toJournalKey number index) =
      if number = block.number ∧ index = (self.window.levels.getD block.position []).length then
        some (.block (recordIn block))
      else self.db.metadata.lookup (toJournalKey number index) := by
  have key : toJournalKey number index =
      toJournalKey block.number (self.window.levels.getD block.position []).length ↔
        number = block.number ∧ index = (self.window.levels.getD block.position []).length := by
    simp [toJournalKey]
  rw [lookup_commit]
  simp only [placedCommit, not_mem_nil, if_false, insertAll, foldl_append,
    foldl_cons, foldl_nil, overlayAt, lookup_insert_eq, key]
  split
  · rfl
  · split
    · simp [toJournalKey]
    · rfl

theorem lookup_last_place :
    Finmap.lookup .lastCanonical (self.place block).db.metadata =
      match self.window.lastCanonicalized, block.last with
      | none, some (hash, number) => some (.canonicalized hash number)
      | _, _ => Finmap.lookup .lastCanonical self.db.metadata := by
  rw [lookup_commit]
  cases canonical : self.window.lastCanonicalized <;> cases last : block.last <;>
    simp [placedCommit, canonical, insertAll, overlayAt, toJournalKey]

/-! ## Insertion -/

theorem recordOf_overlayOf (window : NonCanonicalOverlay BlockHash Key)
    (same : SameContent content block.op) :
    recordOf (window.place block).parentOf content (window.overlayOf block) = recordIn block := by
  have entries : (block.changeset.inserted.map Prod.fst).map (fun key => (key, content key)) =
      block.changeset.inserted := by
    rw [map_map]
    refine (map_congr_left fun entry mem => ?_).trans (map_id _)
    exact Prod.ext rfl (same entry mem).symm
  simp [recordOf, overlayAt, parentOf_place, entries]

section

variable (filed : Filed content self)

include filed

/-- The journal and the keys, counted from the front of the window after an insertion: the front
moves only when the window was empty. -/
theorem Filed.rebased (accepted : self.window.Accepts block) :
    Journals self.window.parentOf content self.db.metadata
      ((self.window.place block).frontBlockNumber + self.window.depth) self.window.survivors ∧
    Keyed (self.window.place block).frontBlockNumber self.window.levels := by
  by_cases first : self.window.levels = [] ∧ self.window.lastCanonicalized = none ∧ 0 < block.number
  · obtain ⟨empty, none, -⟩ := first
    have settled := filed.steady.settled_of_empty empty
    have survivors : self.window.survivors = [] := by
      simp [NonCanonicalOverlay.survivors, settled, empty]
    have journals := filed.journals
    rw [survivors, settled, frontBlockNumber, none] at journals
    rw [survivors, empty]
    refine ⟨fun height index => ?_, fun height index overlay found => by simp at found⟩
    have absent := journals
      ((self.window.place block).frontBlockNumber + self.window.depth + height) index
    rw [length_nil, Nat.zero_add] at absent
    exact absent.trans (by simp)
  · have same : (self.window.place block).frontBlockNumber = self.window.frontBlockNumber := by
      have last : (self.window.place block).lastCanonicalized = block.last := rfl
      rw [frontBlockNumber, frontBlockNumber, last, (accepted.located first).1]
    rw [same]
    exact ⟨filed.journals, filed.keyed⟩

section

variable (accepted : self.window.Accepts block) (survivor : self.window.InsertsSurvivor block.op)

include accepted survivor

/-- What the conditions on an insertion say about the level it goes to. -/
theorem Filed.inserts_survivor (pending : self.window.pendingCanonicalizations ≠ [])
    (above : self.window.depth ≤ block.position) :
    self.window.survivors.getD (block.position - self.window.depth) [] =
      self.window.levels.getD block.position [] ∧
    (block.position = self.window.depth →
      self.window.pendingCanonicalizations.getLast? = some block.parentHash) ∧
    (self.window.depth < block.position → block.parentHash ∈ hashes
      (self.window.survivors.getD (block.position - self.window.depth - 1) [])) := by
  unfold depth at above ⊢
  have located := (accepted.located fun first =>
    pending (filed.steady.settled_of_empty first.1)).2
  have within := accepted.within
  have facts := survivor pending (by omega) (by omega)
  rw [show block.number - (self.window.frontBlockNumber + self.window.depth) =
      block.position - self.window.depth by unfold depth; omega,
    show block.number - self.window.frontBlockNumber = block.position by omega] at facts
  exact ⟨facts.1, fun same => facts.2.1 (by omega), fun less => facts.2.2 (by omega)⟩

theorem Filed.survivors_level (above : self.window.depth ≤ block.position) :
    self.window.survivors.getD (block.position - self.window.depth) [] =
      self.window.levels.getD block.position [] := by
  by_cases pending : self.window.pendingCanonicalizations = []
  · simp [survivors, depth, pending]
  · exact (filed.inserts_survivor accepted survivor pending above).1

theorem Filed.getD_survivors_place (fresh : self.window.Fresh block.hash) (height : Nat) :
    (self.window.place block).survivors.getD height [] =
      if self.window.depth + height = block.position then
        self.window.levels.getD block.position [] ++ [self.window.overlayOf block]
      else self.window.survivors.getD height [] := by
  have within := accepted.within
  have front : block.position = self.window.depth →
      ∀ final ∈ self.window.pendingCanonicalizations.getLast?, final = block.parentHash := by
    intro atFront final isLast
    have pending : self.window.pendingCanonicalizations ≠ [] := fun none => by simp [none] at isLast
    have facts := filed.inserts_survivor accepted survivor pending (by omega)
    rw [facts.2.1 atFront] at isLast
    exact (Option.some.inj isLast).symm
  have below : ∀ height, self.window.pendingCanonicalizations ≠ [] →
      block.position = self.window.depth + (height + 1) →
        block.parentHash ∈ hashes (self.window.survivors.getD height []) := by
    intro height pending high
    have facts := filed.inserts_survivor accepted survivor pending (by omega)
    rw [show height = block.position - self.window.depth - 1 by omega]
    exact facts.2.2 (by omega)
  rw [survivors_place filed.steady.forest fresh within front below]
  split
  · rename_i above
    rw [getD_pushBlock _ _ _ (by rw [length_survivors]; omega)]
    by_cases here : self.window.depth + height = block.position
    · rw [if_pos (by omega), if_pos here, ← filed.survivors_level accepted survivor above]
      rw [show block.position - self.window.depth = height by omega]
    · rw [if_neg (by omega), if_neg here]
  · rw [if_neg (by omega)]

end

theorem Filed.last_place (accepted : self.window.Accepts block) :
    Finmap.lookup .lastCanonical (self.place block).db.metadata =
      (self.window.place block).settledLast.map fun last => .canonicalized last.1 last.2 := by
  rw [lookup_last_place]
  by_cases first : self.window.levels = [] ∧ self.window.lastCanonicalized = none ∧ 0 < block.number
  · obtain ⟨empty, none, pos⟩ := first
    have settled := filed.steady.settled_of_empty empty
    obtain ⟨last, position, hash, number, parentHash, changeset⟩ := block
    change Accepted self.window number parentHash last position at accepted
    change 0 < number at pos
    cases accepted with
    | first => simp [none, settledLast, NonCanonicalOverlay.placed, settled]
    | unchecked _ low => simp [empty] at low; omega
    | front _ canonical | above _ _ _ canonical => simp [none] at canonical
  · have same := (accepted.located first).1
    have settled : (self.window.place block).settledLast = self.window.settledLast := by
      unfold NonCanonicalOverlay.place
      rw [same]
      rfl
    rw [settled, ← filed.last, same]
    cases self.window.lastCanonicalized <;> rfl

section

variable (fresh : self.window.Fresh block.hash) (same : SameContent content block.op)
  (survivor : self.window.InsertsSurvivor block.op) (accepted : self.window.Accepts block)

include fresh same survivor accepted

theorem Filed.journals_place :
    Journals (self.window.place block).parentOf content (self.place block).db.metadata
      ((self.window.place block).frontBlockNumber + self.window.depth)
      (self.window.place block).survivors := by
  have located := accepted.number_eq
  have stored := filed.steady.forest.parentOf_stored fresh.1
  have records := (filed.rebased accepted).1.congr fun overlay mem =>
    stored overlay (mem_levels_of_mem_survivors mem)
  intro height index
  rw [lookup_journal_place, filed.getD_survivors_place accepted survivor fresh,
    records height index]
  by_cases here : self.window.depth + height = block.position
  · have level := filed.survivors_level accepted survivor (by omega)
    rw [show block.position - self.window.depth = height by omega] at level
    rw [if_pos here, ← level]
    rcases Nat.lt_trichotomy index (self.window.survivors.getD height []).length with
      low | equal | high
    · rw [if_neg (by omega), List.getElem?_append_left low]
    · rw [if_pos (by omega), equal, List.getElem?_concat_length, Option.map_some,
        recordOf_overlayOf _ same]
    · rw [if_neg (by omega), List.getElem?_eq_none (by omega),
        List.getElem?_eq_none (by rw [length_append, length_singleton]; omega)]
  · rw [if_neg (by omega), if_neg here]

/-- **An accepted insertion keeps the journal in step with the window.** -/
theorem Filed.place (counting : Counting content (self.window.place block))
    (steady : (self.window.place block).Steady) : Filed content (self.place block) := by
  have located := accepted.number_eq
  have level := getD_pushBlock self.window.levels _ (self.window.overlayOf block) accepted.within
  have keyed := (filed.rebased accepted).2
  refine ⟨counting, steady, filed.unpinned, ?_, filed.last_place accepted, ?_, ?_,
    filed.journals_place fresh same survivor accepted⟩
  · intro other known
    have parts := flatten_pushBlock self.window.levels block.position (self.window.overlayOf block)
    rcases Finmap.mem_insert.mp known with rfl | old
    · exact mem_hashes_of_mem (parts.mem_iff.mpr mem_cons_self)
    · obtain ⟨overlay, stored, named⟩ := mem_hashes.mp (filed.parents other old)
      exact mem_hashes.mpr ⟨overlay, parts.mem_iff.mpr (mem_cons_of_mem _ stored), named⟩
  · intro height index overlay found
    change ((pushBlock _ _ _).getD height [])[index]? = some overlay at found
    rw [level] at found
    split at found
    · rename_i here
      rw [List.getElem?_append] at found
      split at found
      · exact keyed height index overlay found
      · rename_i high
        rw [List.getElem?_singleton] at found
        split at found
        · rename_i only
          cases found
          change toJournalKey block.number _ = _
          rw [located, here, show index = (self.window.levels.getD block.position []).length by
            rw [here] at only high; omega]
        · cases found
    · exact keyed height index overlay found
  · intro height
    change _ <+: (pushBlock _ _ _).getD (self.window.depth + height) []
    rw [filed.getD_survivors_place accepted survivor fresh, level]
    split
    · rename_i here
      rw [here]
    · exact filed.kept height

end

end

end Journaled

end Brace.StateDb
