import Brace.StateDb.JournalRun

/-!
# Restarting from the journal

Canonicalizing deletes the records of the blocks that do not survive (`mem_journals_iff`) and
applying makes the survivors the levels, so both keep the journal in step with the window. After an
`apply_pending` the reader therefore finds the window in memory (`restart_same`), in every run that
keeps the conditions of `Replayable`. Without them it can lose blocks (`restart_loses_block`).
-/

namespace Brace.StateDb

open Brace.Lib NonCanonicalOverlay List Finmap HashMap Option

variable {BlockHash Key : Type} [DecidableEq BlockHash] [DecidableEq Key]

namespace Journaled

variable {content : Key → DBValue} {self : Journaled BlockHash Key}

/-! ## Canonicalization -/

/-- The window after a canonicalization. -/
def canonicalized (self : NonCanonicalOverlay BlockHash Key) (hash : BlockHash) :
    NonCanonicalOverlay BlockHash Key :=
  { self with pendingCanonicalizations := self.pendingCanonicalizations ++ [hash] }

/-- A canonicalization that is accepted: the level of its block and the records it deletes. -/
structure Noted (window : NonCanonicalOverlay BlockHash Key) (hash : BlockHash)
    (level : List (BlockOverlay BlockHash Key)) (journals : List MetaKey) : Prop where
  there : window.levels[window.pendingCanonicalizations.length]? = some level
  chosen : hash ∈ hashes level
  collected : levelJournals window.parents
    (window.levels.drop (window.pendingCanonicalizations.length + 1)) level
    (level.findIdx fun overlay => overlay.hash = hash) = .ok journals

section

omit [DecidableEq Key]

variable {hash : BlockHash} {level : List (BlockOverlay BlockHash Key)} {journals : List MetaKey}

theorem Noted.level_eq {window : NonCanonicalOverlay BlockHash Key}
    (noted : Noted window hash level journals) : window.levels.getD window.depth [] = level := by
  rw [List.getD, noted.there]
  rfl

theorem survivors_canonicalized (window : NonCanonicalOverlay BlockHash Key) (hash : BlockHash) :
    (canonicalized window hash).survivors = heirs window.parentOf {hash}
      (window.levels.drop (window.depth + 1)) := by
  unfold survivors
  simp only [canonicalized, List.getLast?_concat, length_append, length_singleton]
  rfl

theorem Noted.survivors_initial (noted : Noted self.window hash level journals)
    (first : self.window.KeepsPrefix (.canonicalize hash)) (height : Nat) :
    (canonicalized self.window hash).survivors.getD height [] <+:
      self.window.survivors.getD (height + 1) [] := by
  rw [survivors_canonicalized]
  rcases Nat.lt_or_ge height self.window.levels.length with low | high
  · exact first (noted.level_eq ▸ noted.chosen) height low
  · have none : (heirs self.window.parentOf {hash} (self.window.levels.drop
        (self.window.depth + 1))).getD height [] = [] := by
      rw [List.getD, List.getElem?_eq_none (by rw [heirs_length, length_drop]; omega)]
      rfl
    rw [none]
    exact nil_prefix

end

section

variable (filed : Filed content self) {hash : BlockHash}
  {level : List (BlockOverlay BlockHash Key)} {journals : List MetaKey}
  (noted : Noted self.window hash level journals)

include filed noted

theorem Filed.kept_canonicalized
    (first : self.window.KeepsPrefix (.canonicalize hash)) (height : Nat) :
    (canonicalized self.window hash).survivors.getD height [] <+: self.window.levels.getD
      (self.window.depth + 1 + height) [] := by
  have kept := filed.kept (height + 1)
  rw [show self.window.depth + (height + 1) = self.window.depth + 1 + height by omega] at kept
  exact (noted.survivors_initial first height).trans kept

theorem Filed.mem_levelJournals_iff (key : MetaKey) :
    key ∈ journals ↔ ∃ overlay ∈ level ++ doomed self.window.parentOf ((hashes level).erase hash)
      (self.window.levels.drop (self.window.depth + 1)),
        overlay.journalKey = key := by
  have agrees : Agrees self.window.parentOf self.window.parents (self.window.levels.drop
      (self.window.depth + 1)).flatten := fun other mem =>
    filed.counting.wellFormed.agrees other ((drop_sublist _ _).flatten.subset mem)
  have distinct : Distinct level := filed.counting.wellFormed.distinct.sublist
    ((sublist_flatten_of_mem (mem_of_getElem? noted.there)).map _)
  exact mem_levelJournals agrees distinct noted.chosen noted.collected key

/-- **The deleted records are those of the blocks that do not survive.** -/
theorem Filed.mem_journals_iff (first : self.window.KeepsPrefix (.canonicalize hash))
    {height index : Nat} {overlay : BlockOverlay BlockHash Key} (found : (self.window.levels.getD
      (self.window.depth + 1 + height) [])[index]? = some overlay) :
    overlay.journalKey ∈ journals ↔
      ((canonicalized self.window hash).survivors.getD height [])[index]? ≠ some overlay := by
  obtain ⟨low, here⟩ := List.getElem?_eq_some_iff.mp noted.there
  have split : self.window.levels.drop self.window.depth =
      level :: self.window.levels.drop (self.window.depth + 1) := by
    rw [drop_eq_getElem_cons low, here]
  have stored : ∀ height, (self.window.levels.drop
      (self.window.depth + 1)).getD height [] = self.window.levels.getD
        (self.window.depth + 1 + height) [] := by
    intro height
    rw [List.getD, List.getD, List.getElem?_drop]
  have inAbove : overlay ∈ (self.window.levels.drop
      (self.window.depth + 1)).flatten :=
    mem_flatten.mpr ⟨height, by rw [stored]; exact mem_of_getElem? found⟩
  -- the blocks above the level are the survivors and the doomed ones
  have linked := filed.steady.forest.linked.drop self.window.depth
  rw [split] at linked
  have parts := flatten_perm_prune self.window.parentOf ((hashes level).erase hash)
    (self.window.levels.drop (self.window.depth + 1))
  rw [linked.prune_eq_heirs noted.chosen, ← survivors_canonicalized] at parts
  have distinct := filed.counting.wellFormed.distinct
  have apart : Distinct _ :=
    Distinct.perm (distinct.sublist ((drop_sublist _ _).flatten.map _)) parts
  rw [filed.mem_levelJournals_iff noted]
  constructor
  · rintro ⟨other, member, same⟩ survives
    rcases mem_append.mp member with sibling | gone
    · obtain ⟨position, place⟩ := mem_iff_getElem?.mp sibling
      rw [← noted.level_eq] at place
      have clash := filed.keyed.place_unique place found same
      omega
    · obtain ⟨place, mem⟩ := mem_flatten.mp (parts.mem_iff.mpr (mem_append_right _ gone))
      rw [stored] at mem
      obtain ⟨position, known⟩ := mem_iff_getElem?.mp mem
      obtain ⟨heights, rfl⟩ := filed.keyed.place_unique known found same
      obtain rfl : place = height := by omega
      rw [found] at known
      cases known
      have alive := mem_flatten.mpr ⟨_, mem_of_getElem? survives⟩
      exact apart.apart _ alive _ gone rfl
  · intro dies
    rcases mem_append.mp (parts.mem_iff.mp inAbove) with alive | gone
    · obtain ⟨place, mem⟩ := mem_flatten.mp alive
      obtain ⟨position, known⟩ := mem_iff_getElem?.mp mem
      have kept := filed.kept_canonicalized noted first place
      have below := getElem?_of_initial kept known
      obtain ⟨heights, rfl⟩ := filed.keyed.place_unique below found rfl
      obtain rfl : place = height := by omega
      exact absurd known dies
    · exact ⟨overlay, mem_append_right _ gone, rfl⟩

variable {commit : CommitSet BlockHash Key}

theorem Filed.journals_canonicalized (first : self.window.KeepsPrefix (.canonicalize hash))
    {number : Nat} (written : commit.metadata =
      { inserted := [(.lastCanonical, .canonicalized hash number)], deleted := journals }) :
    Journals self.window.parentOf content (self.db.commit commit).metadata
      (self.window.frontBlockNumber + (self.window.depth + 1))
      (canonicalized self.window hash).survivors := by
  have deleted := fun {height index : Nat} {overlay : BlockOverlay BlockHash Key} =>
    @Filed.mem_journals_iff _ _ _ _ _ _ filed _ _ _ noted first height index overlay
  intro height index
  have old := filed.journals (height + 1) index
  rw [show self.window.frontBlockNumber + self.window.depth +
    (height + 1) = self.window.frontBlockNumber +
      (self.window.depth + 1) + height by omega] at old
  have kept : ∀ overlay, ((canonicalized self.window hash).survivors.getD height [])[index]? =
      some overlay → (self.window.survivors.getD (height + 1) [])[index]? = some overlay :=
    fun _ => getElem?_of_initial (noted.survivors_initial first height)
  have stored : ∀ overlay, (self.window.survivors.getD (height + 1) [])[index]? = some overlay →
      (self.window.levels.getD (self.window.depth + 1 + height) [])[index]?
        = some overlay := by
    intro overlay found
    have here := getElem?_of_initial (filed.kept (height + 1)) found
    rwa [Nat.add_comm height 1, ← Nat.add_assoc] at here
  rw [lookup_commit, written, lookup_insertAll_of_not_mem _ _ _ (by simp [toJournalKey])]
  rw [old]
  cases before : (self.window.survivors.getD (height + 1) [])[index]? with
  | none =>
    have none := eq_none_iff_forall_ne_some.mpr fun overlay found =>
      some_ne_none overlay ((kept overlay found).symm.trans before)
    rw [none]
    split <;> rfl
  | some overlay =>
    have here := stored overlay before
    have listed := deleted here
    rw [filed.keyed _ _ _ here, ← Nat.add_assoc] at listed
    by_cases survives :
        ((canonicalized self.window hash).survivors.getD height [])[index]? = some overlay
    · rw [if_neg (mt listed.mp (not_not.mpr survives)), survives]
    · have gone := eq_none_iff_forall_ne_some.mpr fun other found => survives
        (found.trans ((kept other found).symm.trans before))
      rw [if_pos (listed.mpr survives), gone]
      rfl

theorem Filed.last_canonicalized (written : commit.metadata =
      { inserted := [(.lastCanonical, .canonicalized hash
          (self.window.frontBlockNumber + self.window.depth))]
        deleted := journals }) :
    Finmap.lookup .lastCanonical (self.db.commit commit).metadata =
      (canonicalized self.window hash).settledLast.map fun last =>
        .canonicalized last.1 last.2 := by
  have spared : MetaKey.lastCanonical ∉ journals := by
    rw [filed.mem_levelJournals_iff noted]
    rintro ⟨overlay, member, key⟩
    have stored : overlay ∈ self.window.levels.flatten := by
      rcases List.mem_append.mp member with sibling | gone
      · exact List.mem_flatten.mpr ⟨level, List.mem_of_getElem? noted.there, sibling⟩
      · exact (List.drop_sublist _ _).flatten.subset ((flatten_perm_prune _ _ _).mem_iff.mpr
          (List.mem_append_right _ gone))
    obtain ⟨height, mem⟩ := mem_flatten.mp stored
    obtain ⟨index, found⟩ := List.mem_iff_getElem?.mp mem
    rw [filed.keyed _ _ _ found] at key
    cases key
  rw [lookup_commit, written, if_neg spared]
  simp [insertAll, settledLast, canonicalized, frontBlockNumber]

/-- **A canonicalization keeps the journal in step with the window.** -/
theorem Filed.canonicalized (first : self.window.KeepsPrefix (.canonicalize hash))
    (written : commit.metadata =
      { inserted := [(.lastCanonical, .canonicalized hash
          (self.window.frontBlockNumber + self.window.depth))]
        deleted := journals }) (counting : Counting content (canonicalized self.window hash))
    (steady : (canonicalized self.window hash).Steady) : Filed content
      { window := canonicalized self.window hash, db := self.db.commit commit } where
  counting := counting
  steady := steady
  __ := filed
  last := filed.last_canonicalized noted written
  kept height := by
    have kept := filed.kept_canonicalized noted first height
    simpa [Journaled.canonicalized] using kept
  journals := by
    have journals := filed.journals_canonicalized noted first written
    change Journals self.window.parentOf content _ (self.window.frontBlockNumber +
      (self.window.pendingCanonicalizations ++ [hash]).length) _
    rw [length_append, length_singleton]
    exact journals

end

/-! ## Applying -/

omit [DecidableEq BlockHash] [DecidableEq Key] in
theorem frontBlockNumber_settled (window : NonCanonicalOverlay BlockHash Key) :
    (match window.settledLast with
      | some (_, number) => number + 1
      | none => 0) = window.frontBlockNumber + window.depth := by
  unfold settledLast depth
  cases final : window.pendingCanonicalizations.getLast? with
  | none =>
    rw [List.getLast?_eq_none_iff.mp final]
    rfl
  | some hash =>
    have pending : 0 < window.pendingCanonicalizations.length := by
      refine length_pos_iff.mpr fun none => ?_
      simp [none] at final
    simp only
    omega

/-- **Applying keeps the journal in step with the window**: it makes the survivors the levels. -/
theorem Filed.applied (filed : Filed content self) {next : NonCanonicalOverlay BlockHash Key}
    (ran : self.window.applyPending = .ok next) (counting : Counting content next)
    (steady : next.Steady) : Filed content { window := next, db := self.db } := by
  obtain ⟨settled, gone, result, parts, rfl⟩ :=
    applyPending_cases filed.counting.wellFormed ran
  obtain rfl : settled = self.window.survivors := by
    unfold survivors
    split
    · rename_i none
      rw [List.getLast?_eq_none_iff.mp none] at result
      cases result
      rfl
    · rename_i last final
      exact (settle_eq_heirs filed.steady.forest.linked result final).2
  have front := frontBlockNumber_settled self.window
  refine ⟨counting, steady, ⟨filed.unpinned.1, ?_⟩, ?_, filed.last, ?_, ?_, ?_⟩
  · change (discardOverlays self.window.pinned self.window.books gone).pinnedInsertions = ∅
    rw [filed.unpinned.1, pinnedInsertions_discardOverlays_empty]
    exact filed.unpinned.2
  · intro hash known
    change hash ∈ (discardOverlays self.window.pinned self.window.books gone).parents at known
    rw [mem_iff_lookup_ne, lookup_parents_discardOverlays, filed.unpinned.1] at known
    split at known
    · exact absurd rfl known
    · rename_i stays
      have old := filed.parents hash ((mem_iff_lookup_ne _ _).mpr known)
      obtain ⟨overlay, mem, rfl⟩ := mem_hashes.mp old
      rcases mem_append.mp (parts.mem_iff.mp mem) with removed | kept
      · exact absurd ⟨mem_hashes_of_mem removed, notMem_empty⟩ stays
      · exact mem_hashes_of_mem kept
  · intro height index overlay found
    have key := filed.keyed _ _ _ (getElem?_of_initial (filed.kept height) found)
    rw [key, ← Nat.add_assoc, ← front]
    rfl
  · intro height
    change self.window.survivors.getD height [] <+: self.window.survivors.getD (0 + height) []
    rw [Nat.zero_add]
  · have same := parentOf_withBooks filed.counting.wellFormed self.window.pinned
      self.window.survivors parts
    have journals := filed.journals.congr same
    rw [← front] at journals
    exact journals

/-! ## Runs -/

theorem Filed.empty : Filed content ({} : Journaled BlockHash Key) where
  counting := .empty
  steady := .empty
  unpinned := ⟨rfl, rfl⟩
  parents hash known := absurd known Finmap.notMem_empty
  last := rfl
  keyed height index overlay found := by simp at found
  kept height := by simp [survivors]
  journals height index := by simp [survivors]

/-- **Every call of the run keeps the journal in step with the window.** -/
theorem Filed.step (filed : Filed content self) {op : Operation BlockHash Key}
    {next : Journaled BlockHash Key} (allowed : Replayable content self.window op)
    (ran : self.step op = .ok next) : Filed content next := by
  obtain ⟨plain, same, orderly, survivor, first, -⟩ := allowed
  obtain ⟨⟨result, window⟩, called, rest⟩ := bind_eq_ok.mp ran
  cases rest
  have stepped : self.window.step op = .ok window := bind_eq_ok.mpr ⟨_, called, rfl⟩
  have steady := filed.steady.step orderly stepped
  have counting : Counting content window := by
    refine filed.counting.step ⟨orderly.1, same, ?_⟩ stepped
    cases op <;> trivial
  cases op with
  | insert hash number parentHash changeset =>
    rcases insert_cases called with ⟨error, rfl, rfl⟩ | ⟨last, position, accepted, rfl, rfl⟩
    · exact filed
    · exact @Filed.place _ _ _ _ _ _ ⟨last, position, hash, number, parentHash, changeset⟩ filed
        orderly.1 same survivor accepted counting steady
  | canonicalize hash =>
    rcases canonicalize_cases called with ⟨rfl, rfl⟩ | ⟨level, overlay, journals, inserted, there,
      mem, rfl, collected, -, rfl, rfl⟩
    · exact filed
    · have noted : Noted self.window overlay.hash level journals :=
        ⟨there, mem_hashes_of_mem mem, collected⟩
      exact filed.canonicalized noted first rfl counting steady
  | applyPending =>
    obtain ⟨after, applied, rest⟩ := bind_eq_ok.mp called
    cases rest
    exact filed.applied applied counting steady
  | revertPending | pin hash | unpin hash => exact plain.elim

/-- The two windows agree in everything that the journal records. -/
structure SameWindow (restored window : NonCanonicalOverlay BlockHash Key) : Prop where
  lastCanonicalized : restored.lastCanonicalized = window.lastCanonicalized
  /-- The same blocks with the same keys at every height. -/
  levels : ∀ height, restored.levels.getD height [] = window.levels.getD height []
  parents : restored.parents = window.parents
  values : restored.values = window.values

section

variable (filed : Filed content self)

include filed

theorem Filed.foldl_addParent :
    self.window.levels.flatten.foldl (addParent self.window.parentOf) ∅ = self.window.parents := by
  refine ext_lookup fun hash => ?_
  rw [lookup_foldl_addParent]
  split
  · rename_i stored
    obtain ⟨overlay, mem, rfl⟩ := mem_hashes.mp stored
    obtain ⟨father, known, -⟩ := filed.counting.wellFormed.agrees overlay mem
    change some ((self.window.parents.lookup overlay.hash).getD overlay.hash) = _
    have given : self.window.parents.lookup overlay.hash = some father := known
    rw [given]
    rfl
  · rename_i absent
    have none := mt (filed.parents hash) absent
    rw [lookup_empty, lookup_eq_none.mpr none]

theorem Filed.foldl_addValues :
    self.window.levels.flatten.foldl (addValues content) ∅ = self.window.values := by
  refine ext_lookup fun key => ?_
  have none : self.window.books.pinnedInsertions = ∅ := filed.unpinned.2
  refine (counts_foldl_addValues _ (Counts.empty content) key).trans
    (Eq.trans ?_ (filed.counting.counted key).symm)
  simp only [occurrencesIn, none, total_empty, Nat.zero_add, Nat.add_zero]

/-- **The reader finds the window** when nothing is pending and, as long as nothing is
canonicalized, there are no blocks. -/
theorem Filed.restores (settled : self.window.pendingCanonicalizations = [])
    (rooted : self.window.lastCanonicalized = none → self.window.levels = []) :
    ∃ restored, NonCanonicalOverlay.new self.db = .ok restored ∧
      SameWindow restored self.window := by
  have last : Finmap.lookup .lastCanonical self.db.metadata =
      self.window.lastCanonicalized.map fun last => .canonicalized last.1 last.2 := by
    rw [filed.last, settledLast, settled]
    rfl
  have parents := filed.foldl_addParent
  have values := filed.foldl_addValues
  unfold NonCanonicalOverlay.new
  cases canonical : self.window.lastCanonicalized with
  | none =>
    have empty := rooted canonical
    rw [empty] at parents values
    rw [last, canonical]
    exact ⟨{}, rfl, ⟨canonical.symm, fun height => by rw [empty], parents, values⟩⟩
  | some pair =>
    have front : self.window.frontBlockNumber = pair.2 + 1 := by simp [frontBlockNumber, canonical]
    have journals := filed.journals
    have keyed := filed.keyed
    rw [show self.window.survivors = self.window.levels by simp [survivors, settled], settled,
      length_nil, Nat.add_zero, front] at journals
    rw [front] at keyed
    have unbroken := filed.steady.forest.linked.unbroken
    have read := readLevels_eq journals keyed (self.db.metadata.keys.card + 1) [] ∅ ∅
      (Nat.lt_succ_of_le journals.count_le)
    rw [flatten_takeWhile_of_unbroken unbroken, parents, values, nil_append] at read
    rw [last, canonical]
    refine ⟨{ lastCanonicalized := some pair
              levels := self.window.levels.takeWhile fun level => !level.isEmpty
              parents := self.window.parents
              values := self.window.values }, ?_,
      ⟨canonical.symm, getD_takeWhile_of_unbroken unbroken, rfl, rfl⟩⟩
    simp only [map_some, MetaValue.decodeCanonicalized, Functor.map, Except.map, bind,
      Except.bind, read]

end

/-- **A restart after `apply_pending` finds the window that is in memory**: the same last
canonicalized block, blocks at every height, parents and counted values, in every run from an empty
database whose calls keep the tree in shape and the journal readable. -/
theorem restart_same (content : Key → DBValue) (self next : Journaled BlockHash Key)
    (reached : Reachable Journaled.step (fun node op => Replayable content node.window op) {} self)
    (allowed : Replayable content self.window .applyPending)
    (applied : self.step .applyPending = .ok next) :
    ∃ restored, NonCanonicalOverlay.new next.db = .ok restored ∧
      SameWindow restored next.window := by
  have filed : Filed content self :=
    reached.invariant .empty fun _ _ _ filed guarded ran => filed.step guarded ran
  have after := filed.step allowed applied
  obtain ⟨⟨result, window⟩, called, rest⟩ := bind_eq_ok.mp applied
  cases rest
  obtain ⟨_, ran, rest⟩ := bind_eq_ok.mp called
  cases rest
  obtain ⟨settled, gone, result, parts, rfl⟩ :=
    applyPending_cases filed.counting.wellFormed ran
  refine after.restores rfl fun (unsettled : self.window.settledLast = none) => ?_
  unfold settledLast at unsettled
  split at unsettled
  · cases unsettled
  · rename_i final
    have pending := List.getLast?_eq_none_iff.mp final
    have empty := allowed.2.2.2.2.2 unsettled pending
    rw [pending, empty] at result
    cases result
    rfl

/-- Two forks, the first of them canonicalized and its level pruned: the restart finds the block
that is left, with the key it shares with the discarded one. -/
theorem restart_same_fork : ∃ self next : Journaled Nat Nat,
    Reachable Journaled.step (fun node op => Replayable (fun _ => [1]) node.window op) {} self ∧
    Replayable (fun _ => [1]) self.window .applyPending ∧ self.step .applyPending = .ok next ∧
    next.window.levels.map (·.map BlockOverlay.hash) = [[11], []] ∧
    ∃ restored, NonCanonicalOverlay.new next.db = .ok restored ∧
      SameWindow restored next.window := by
  have found : ∃ self : Journaled Nat Nat,
      Reachable Journaled.step (fun node op => Replayable (fun _ => [1]) node.window op) {} self ∧
        (Replayable (fun _ => [1]) self.window .applyPending ∧
          (self.step .applyPending).toOption.any fun next =>
            next.window.levels.map (·.map BlockOverlay.hash) = [[11], []]) :=
    exists_reachable_of_run
      [.insert 1 1 0 { inserted := [(5, [1])] }, .insert 2 1 0 {}, .applyPending,
        .insert 11 2 1 { inserted := [(7, [1])] }, .insert 21 2 2 { inserted := [(7, [1])] },
        .insert 211 3 21 {}, .canonicalize 1]
      (by decide +kernel)
  obtain ⟨self, reached, allowed, settled⟩ := found
  obtain ⟨next, applied, levels⟩ := exists_ok_of_any settled
  exact ⟨self, next, reached, allowed, applied, of_decide_eq_true levels,
    restart_same _ self next reached allowed applied⟩

/-- **A restart can lose a block.** Block 21 is the second one inserted at its height. Once the
other fork is discarded it is the only one, but its record still has the index one: the reader
finds no record of index zero and returns a window without blocks. -/
theorem restart_loses_block : ∃ self next : Journaled Nat Nat,
    Reachable Journaled.step (fun node op => PlainCall op ∧ node.window.FreshInsert op) {} self ∧
    self.step .applyPending = .ok next ∧
    ∃ restored, NonCanonicalOverlay.new next.db = .ok restored ∧
      ¬ SameWindow restored next.window := by
  have found : ∃ self : Journaled Nat Nat,
      Reachable Journaled.step (fun node op => PlainCall op ∧ node.window.FreshInsert op) {} self ∧
        ((self.step .applyPending).toOption.any fun next =>
          (NonCanonicalOverlay.new next.db).toOption.any fun restored =>
            restored.levels = [] ∧ next.window.levels.getD 0 [] ≠ []) :=
    exists_reachable_of_run
      [.insert 1 1 0 {}, .insert 2 1 0 {}, .insert 11 2 1 {}, .insert 21 2 2 {}, .applyPending,
        .canonicalize 2]
      (by decide +kernel)
  obtain ⟨self, reached, lost⟩ := found
  obtain ⟨next, applied, lost⟩ := exists_ok_of_any lost
  obtain ⟨restored, read, lost⟩ := exists_ok_of_any lost
  obtain ⟨empty, full⟩ := of_decide_eq_true lost
  refine ⟨self, next, reached, applied, restored, read, fun same => full ?_⟩
  rw [← same.levels 0, empty]
  rfl

end Journaled

end Brace.StateDb
