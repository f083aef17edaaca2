import Brace.StateDb.WindowForest

/-!
# The journal of the window

`discard_journals` names the journal records that a canonicalization deletes: those of the
discarded blocks (`mem_levelJournals`). `new` reads the records back, height by height and index by
index, until the first gap. `Journals` states what a database has to hold for a list of levels;
then the reader returns these levels, up to the first empty one, with the parents and the values of
their blocks (`readLevels_eq`), and never runs into the bounds of its loops.
-/

namespace Brace.StateDb

open Brace.Lib List HashMap

variable {BlockHash Key : Type} [DecidableEq BlockHash]

/-! ## The records deleted by a canonicalization -/

variable {parent : BlockHash → Option BlockHash}

theorem mem_doomed_iff {dead : Finset BlockHash} {levels : Levels BlockHash Key}
    {overlay : BlockOverlay BlockHash Key} :
    overlay ∈ doomed parent dead levels ↔ ∃ hash ∈ dead, overlay ∈ doomed parent {hash} levels := by
  induction levels generalizing dead with
  | nil => simp [doomed]
  | cons level above ih =>
    have child : ∀ dead : Finset BlockHash, childOf parent dead overlay = true ↔
        ∃ hash ∈ dead, childOf parent {hash} overlay = true := by simp [childOf_iff]
    have later := fun dead : Finset BlockHash => @ih dead
    simp only [doomed, mem_append, mem_filter, later (hashes _)]
    constructor
    · rintro (⟨mem, dies⟩ | ⟨hash, member, below⟩)
      · obtain ⟨father, killed, dies⟩ := (child dead).mp dies
        exact ⟨father, killed, .inl ⟨mem, dies⟩⟩
      · obtain ⟨stored, father, killed, given⟩ := mem_hashes_filter_childOf.mp member
        refine ⟨father, killed, .inr ⟨hash, ?_, below⟩⟩
        exact mem_hashes_filter_childOf.mpr ⟨stored, father, Finset.mem_singleton_self _, given⟩
    · rintro ⟨father, killed, ⟨mem, dies⟩ | ⟨hash, member, below⟩⟩
      · exact .inl ⟨mem, (child dead).mpr ⟨father, killed, dies⟩⟩
      · obtain ⟨stored, other, same, given⟩ := mem_hashes_filter_childOf.mp member
        rw [Finset.mem_singleton.mp same] at given
        exact .inr ⟨hash, mem_hashes_filter_childOf.mpr ⟨stored, father, killed, given⟩, below⟩

namespace NonCanonicalOverlay

variable {parents : HashMap BlockHash BlockHash} {levels : Levels BlockHash Key}
  {level : List (BlockOverlay BlockHash Key)} {block : Nat}
  {db : HashMap MetaKey (MetaValue BlockHash Key)}

/-- **`discard_journals` names the records of the descendants.** -/
theorem discardJournals_eq (agrees : Agrees parent parents levels.flatten) (hash : BlockHash) :
    ∃ journals, discardJournals parents levels hash = .ok journals ∧
      ∀ key, key ∈ journals ↔
        ∃ overlay ∈ doomed parent {hash} levels, overlay.journalKey = key := by
  induction levels generalizing hash with
  | nil => exact ⟨[], rfl, by simp [doomed]⟩
  | cons level above ih =>
    have agreesAbove : Agrees parent parents above.flatten :=
      fun overlay mem => agrees overlay (List.mem_append_right _ mem)
    choose below walked listed using ih agreesAbove
    refine ⟨_, bind_eq_ok.mpr ⟨level.map fun overlay => if childOf parent {hash} overlay then
      overlay.journalKey :: below overlay.hash else [], mapM_ok fun overlay mem => ?_, rfl⟩,
      fun key => ?_⟩
    · obtain ⟨father, stored, given⟩ := agrees overlay (List.mem_append_left _ mem)
      by_cases same : father = hash
      · simp [stored, same, walked, childOf, given, bind, Except.bind]
      · simp [stored, same, childOf, given]
    rw [List.mem_flatten]
    simp only [List.mem_map, doomed, List.mem_append, List.mem_filter]
    constructor
    · rintro ⟨keys, ⟨overlay, mem, rfl⟩, member⟩
      split at member
      · rename_i dies
        rcases List.mem_cons.mp member with rfl | later
        · exact ⟨overlay, .inl ⟨mem, dies⟩, rfl⟩
        · obtain ⟨other, gone, named⟩ := (listed _ _).mp later
          refine ⟨other, .inr (mem_doomed_iff.mpr ⟨overlay.hash, ?_, gone⟩), named⟩
          exact mem_hashes_of_mem (List.mem_filter.mpr ⟨mem, dies⟩)
      · cases member
    · rintro ⟨overlay, ⟨mem, dies⟩ | gone, rfl⟩
      · exact ⟨_, ⟨overlay, mem, rfl⟩, by simp [dies]⟩
      · obtain ⟨hash, member, gone⟩ := mem_doomed_iff.mp gone
        obtain ⟨father, killed, rfl⟩ := mem_hashes.mp member
        obtain ⟨mem, dies⟩ := List.mem_filter.mp killed
        refine ⟨_, ⟨father, mem, rfl⟩, ?_⟩
        rw [if_pos dies]
        exact List.mem_cons_of_mem _ ((listed _ _).mpr ⟨overlay, gone, rfl⟩)

/-- **The records that a canonicalization deletes** are those of its level and of the descendants
of the other blocks in it. -/
theorem mem_levelJournals {above : Levels BlockHash Key}
    (agrees : Agrees parent parents above.flatten) (distinct : Distinct level) {hash : BlockHash}
    (chosen : hash ∈ hashes level) {journals : List MetaKey}
    (collected : levelJournals parents above level
      (level.findIdx fun overlay => overlay.hash = hash) = .ok journals) (key : MetaKey) :
    key ∈ journals ↔ ∃ overlay ∈ level ++ doomed parent ((hashes level).erase hash) above,
      overlay.journalKey = key := by
  choose below walked listed using fun hash => discardJournals_eq agrees hash
  have step : ∀ pair ∈ level.zipIdx, (do
      let below ← (if pair.2 ≠ level.findIdx (fun overlay => overlay.hash = hash) then
        discardJournals parents above pair.1.hash else .ok [])
      .ok (below ++ [pair.1.journalKey]) : Except Panic (List MetaKey)) =
      .ok ((if pair.1.hash ≠ hash then below pair.1.hash else []) ++ [pair.1.journalKey]) := by
    rintro ⟨overlay, index⟩ mem
    simp only [index_ne_findIdx_iff distinct mem chosen, walked]
    split <;> rfl
  unfold levelJournals at collected
  rw [mapM_ok step] at collected
  cases collected
  rw [List.mem_flatten]
  have members : ∀ overlay ∈ level, ∃ index, (overlay, index) ∈ level.zipIdx := by
    intro overlay mem
    obtain ⟨index, low, rfl⟩ := List.mem_iff_getElem.mp mem
    exact ⟨index, List.mem_zipIdx_iff_getElem?.mpr (List.getElem?_eq_getElem low)⟩
  constructor
  · rintro ⟨keys, found, member⟩
    obtain ⟨⟨overlay, index⟩, mem, rfl⟩ := List.mem_map.mp found
    have stored : overlay ∈ level :=
      List.mem_of_getElem? (List.mem_zipIdx_iff_getElem?.mp mem)
    rcases List.mem_append.mp member with deeper | here
    · split at deeper
      · rename_i other
        obtain ⟨gone, dies, named⟩ := (listed _ _).mp deeper
        refine ⟨gone, List.mem_append_right _ (mem_doomed_iff.mpr ⟨overlay.hash, ?_, dies⟩), named⟩
        exact Finset.mem_erase.mpr ⟨other, mem_hashes_of_mem stored⟩
      · cases deeper
    · exact ⟨overlay, List.mem_append_left _ stored, (List.mem_singleton.mp here).symm⟩
  · rintro ⟨overlay, member, rfl⟩
    rcases List.mem_append.mp member with stored | gone
    · obtain ⟨index, mem⟩ := members overlay stored
      exact ⟨_, List.mem_map.mpr ⟨(overlay, index), mem, rfl⟩, by simp⟩
    · obtain ⟨father, killed, dies⟩ := mem_doomed_iff.mp gone
      obtain ⟨other, known⟩ := Finset.mem_erase.mp killed
      obtain ⟨block, stored, rfl⟩ := mem_hashes.mp known
      obtain ⟨index, mem⟩ := members block stored
      refine ⟨_, List.mem_map.mpr ⟨(block, index), mem, rfl⟩, ?_⟩
      rw [if_pos other]
      exact List.mem_append_left _ ((listed _ _).mpr ⟨overlay, dies, rfl⟩)

/-! ## Reading the records back -/

/-- The journal record of a stored block. -/
def recordOf (parent : BlockHash → Option BlockHash) (content : Key → DBValue)
    (overlay : BlockOverlay BlockHash Key) : BlockRecord BlockHash Key :=
  { hash := overlay.hash
    parentHash := (parent overlay.hash).getD overlay.hash
    inserted := overlay.inserted.map fun key => (key, content key)
    deleted := overlay.deleted }

/-- From a block number on, the database holds the records of the levels and no others. -/
def Journals (parent : BlockHash → Option BlockHash) (content : Key → DBValue)
    (db : HashMap MetaKey (MetaValue BlockHash Key)) (block : Nat) (levels : Levels BlockHash Key) :
    Prop :=
  ∀ height index, Finmap.lookup (toJournalKey (block + height) index) db =
    (levels.getD height [])[index]?.map fun overlay => .block (recordOf parent content overlay)

/-- Every block of the levels remembers the key of its place. -/
def Keyed (block : Nat) (levels : Levels BlockHash Key) : Prop :=
  ∀ height index overlay, (levels.getD height [])[index]? = some overlay →
    overlay.journalKey = toJournalKey (block + height) index

omit [DecidableEq BlockHash] in
theorem Keyed.place_unique (keyed : Keyed block levels)
    {height other index position : Nat} {overlay stored : BlockOverlay BlockHash Key}
    (found : (levels.getD height [])[index]? = some overlay)
    (known : (levels.getD other [])[position]? = some stored)
    (same : overlay.journalKey = stored.journalKey) : height = other ∧ index = position := by
  rw [keyed height index overlay found, keyed other position stored known] at same
  injection same with heights positions
  exact ⟨by omega, positions⟩

/-- Enter the parent of a block read back. -/
def addParent (parent : BlockHash → Option BlockHash) (parents : HashMap BlockHash BlockHash)
    (overlay : BlockOverlay BlockHash Key) : HashMap BlockHash BlockHash :=
  parents.insert overlay.hash ((parent overlay.hash).getD overlay.hash)

variable [DecidableEq Key] {content : Key → DBValue}

/-- Count the values of a block read back. -/
def addValues (content : Key → DBValue) (values : HashMap Key (Nat × DBValue))
    (overlay : BlockOverlay BlockHash Key) : HashMap Key (Nat × DBValue) :=
  insertValues values (overlay.inserted.map fun key => (key, content key))

/-- **One height is read back** after the blocks that have been read. -/
theorem readLevel_eq (filed : ∀ index, db.lookup (toJournalKey block index) =
      level[index]?.map fun overlay => .block (recordOf parent content overlay))
    (keyed : ∀ index overlay, level[index]? = some overlay →
      overlay.journalKey = toJournalKey block index) {read rest : List (BlockOverlay BlockHash Key)}
    (parts : level = read ++ rest) {left : Nat} (enough : rest.length < left)
    (parents : HashMap BlockHash BlockHash) (values : HashMap Key (Nat × DBValue)) :
    readLevel db block left read.length read parents values =
      .ok (level, rest.foldl (addParent parent) parents,
        rest.foldl (addValues content) values) := by
  induction rest generalizing left read parents values with
  | nil =>
    obtain ⟨left, rfl⟩ := Nat.exists_eq_add_one_of_ne_zero (Nat.ne_zero_of_lt enough)
    simp [readLevel, filed, parts]
  | cons overlay rest ih =>
    obtain ⟨left, rfl⟩ := Nat.exists_eq_add_one_of_ne_zero (Nat.ne_zero_of_lt enough)
    have here : level[read.length]? = some overlay := by simp [parts]
    have parted : level = read ++ [overlay] ++ rest := by simp [parts]
    have later := ih parted (Nat.lt_of_succ_lt_succ enough) (addParent parent parents overlay)
      (addValues content values overlay)
    have restored : ({ hash := overlay.hash, journalKey := toJournalKey block read.length
                       inserted := overlay.inserted, deleted := overlay.deleted } :
        BlockOverlay BlockHash Key) = overlay := by
      rw [← keyed _ overlay here]
    simp only [readLevel, filed, here, Option.map_some, MetaValue.decodeBlock, bind, Except.bind,
      recordOf, map_map, Function.comp_def, map_id', restored]
    rwa [length_append] at later

section Journals

variable {db : HashMap MetaKey (MetaValue BlockHash Key)} {block : Nat}
  {levels : Levels BlockHash Key}

omit [DecidableEq BlockHash] [DecidableEq Key]

variable {level : List (BlockOverlay BlockHash Key)}

theorem Journals.tail (journals : Journals parent content db block (level :: levels)) :
    Journals parent content db (block + 1) levels := by
  intro height index
  have found := journals (height + 1) index
  rw [show block + (height + 1) = block + 1 + height by omega] at found
  exact found

theorem Journals.congr {other : BlockHash → Option BlockHash}
    (journals : Journals parent content db block levels)
    (same : ∀ overlay ∈ levels.flatten, other overlay.hash = parent overlay.hash) :
    Journals other content db block levels := by
  intro height index
  refine (journals height index).trans (Option.map_congr fun overlay found => ?_)
  have mem := mem_flatten.mpr ⟨height, mem_of_getElem? found⟩
  rw [recordOf, recordOf, same overlay mem]

theorem Keyed.tail (keyed : Keyed block (level :: levels)) : Keyed (block + 1) levels := by
  intro height index overlay found
  rw [show block + 1 + height = block + (height + 1) by omega]
  exact keyed (height + 1) index overlay found

theorem Journals.length_le (journals : Journals parent content db block levels) (height : Nat) :
    (levels.getD height []).length ≤ db.keys.card := by
  refine le_card_keys (toJournalKey (block + height))
    (fun left right same => by injection same) fun index low => ?_
  rw [mem_iff_lookup_ne, journals height index, List.getElem?_eq_getElem low]
  simp

theorem getD_ne_nil_of_lt_takeWhile {height : Nat}
    (low : height < (levels.takeWhile fun level => !level.isEmpty).length) :
    levels.getD height [] ≠ [] := by
  induction levels generalizing height with
  | nil => simp at low
  | cons level above ih =>
    by_cases empty : level = []
    · simp [empty] at low
    · cases height with
      | zero => exact empty
      | succ height => exact ih (by simpa [empty] using low)

theorem Journals.count_le (journals : Journals parent content db block levels) :
    (levels.takeWhile fun level => !level.isEmpty).length ≤ db.keys.card := by
  refine le_card_keys (fun height => toJournalKey (block + height) 0)
    (fun left right same => by injection same with same; omega) fun height low => ?_
  have full := getD_ne_nil_of_lt_takeWhile low
  rw [mem_iff_lookup_ne, journals height 0, List.getElem?_eq_getElem (length_pos_iff.mpr full)]
  simp

end Journals

/-- **The levels are read back** up to the first empty one, with the parents and the values of
their blocks. -/
theorem readLevels_eq (journals : Journals parent content db block levels)
    (keyed : Keyed block levels) (left : Nat) (read : Levels BlockHash Key)
    (parents : HashMap BlockHash BlockHash) (values : HashMap Key (Nat × DBValue))
    (enough : (levels.takeWhile fun level => !level.isEmpty).length < left) :
    readLevels db left block read parents values =
      .ok (read ++ levels.takeWhile (fun level => !level.isEmpty),
        (levels.takeWhile fun level => !level.isEmpty).flatten.foldl (addParent parent) parents,
        (levels.takeWhile fun level => !level.isEmpty).flatten.foldl
          (addValues content) values) := by
  induction left generalizing levels block read parents values with
  | zero => omega
  | succ left ih =>
    have first := readLevel_eq (journals 0) (keyed 0) (nil_append _).symm
      (Nat.lt_succ_of_le (journals.length_le 0)) parents values
    rw [length_nil, Nat.add_zero] at first
    unfold readLevels
    simp only [first, bind, Except.bind]
    cases levels with
    | nil => simp
    | cons level above =>
      by_cases empty : level = []
      · simp [empty]
      · have later := ih journals.tail keyed.tail (read ++ [level])
          (level.foldl (addParent parent) parents) (level.foldl (addValues content) values)
          (by simpa [empty] using enough)
        simp [empty, later]

omit [DecidableEq Key] in
theorem lookup_foldl_addParent (blocks : List (BlockOverlay BlockHash Key))
    (parents : HashMap BlockHash BlockHash) (hash : BlockHash) :
    (blocks.foldl (addParent parent) parents).lookup hash =
      if hash ∈ hashes blocks then some ((parent hash).getD hash)
      else parents.lookup hash := by
  induction blocks generalizing parents with
  | nil => simp [hashes]
  | cons overlay rest ih =>
    rw [foldl_cons, ih, addParent, lookup_insert_eq]
    by_cases first : hash = overlay.hash
    · subst first
      simp [mem_hashes_cons]
    · by_cases later : hash ∈ hashes rest <;> simp [first, later, mem_hashes_cons]

omit [DecidableEq BlockHash] in
theorem counts_foldl_addValues (blocks : List (BlockOverlay BlockHash Key))
    {occurrences : Key → Nat} {values : HashMap Key (Nat × DBValue)}
    (counts : Counts content occurrences values) :
    Counts content (fun key => occurrences key + (blocks.flatMap BlockOverlay.inserted).count key)
      (blocks.foldl (addValues content) values) := by
  induction blocks generalizing occurrences values with
  | nil => simpa using counts
  | cons overlay rest ih =>
    have first := counts.insertValues (overlay.inserted.map fun key => (key, content key))
      (by simp)
    refine (ih first).congr fun key => ?_
    simp [Function.comp_def, Nat.add_assoc]

omit [DecidableEq BlockHash] [DecidableEq Key]

theorem flatten_takeWhile_of_unbroken (unbroken : Unbroken levels) :
    (levels.takeWhile fun level => !level.isEmpty).flatten = levels.flatten := by
  induction levels with
  | nil => rfl
  | cons level above ih =>
    by_cases empty : level = []
    · have bare := unbroken 0 empty
      rw [drop_zero] at bare
      rw [bare]
      simp [empty]
    · have later := ih fun index bare => unbroken (index + 1) bare
      simp [empty, later]

theorem getD_takeWhile_of_unbroken (unbroken : Unbroken levels) (height : Nat) :
    (levels.takeWhile fun level => !level.isEmpty).getD height [] = levels.getD height [] := by
  induction levels generalizing height with
  | nil => rfl
  | cons level above ih =>
    by_cases empty : level = []
    · have bare := unbroken 0 empty
      have none : (level :: above).getD height [] = [] := by
        rw [eq_nil_iff_forall_not_mem]
        intro overlay mem
        have member := mem_flatten.mpr ⟨height, mem⟩
        rw [drop_zero] at bare
        rw [bare] at member
        cases member
      rw [none]
      simp [empty]
    · cases height with
      | zero => simp [empty]
      | succ height =>
        have later := ih (fun index bare => unbroken (index + 1) bare) height
        simpa [empty] using later

end NonCanonicalOverlay

end Brace.StateDb
