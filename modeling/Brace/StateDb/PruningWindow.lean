import Brace.StateDb.Pruning
import Brace.Lib.Run

/-!
# The death rows and their index

`Indexed` is the correspondence between the rows and the index: a key has a block number in the
index exactly when it is in the row of that block, so it is in at most one row. Importing a block
keeps it, and never indexes out of range, as long as the block deletes no key that is waiting to be
deleted already (`importBlock_eq`, `Indexed.imported`); so do popping and truncating the rows.
-/

namespace Brace.StateDb

open Brace.Lib List HashMap DeathRow

variable {BlockHash Key : Type} [DecidableEq Key]

/-- A row without some keys. -/
def DeathRow.without (row : DeathRow BlockHash Key) (keys : List Key) : DeathRow BlockHash Key :=
  { row with deleted := row.deleted.filter fun key => key ∉ keys }

variable {row : DeathRow BlockHash Key}

theorem DeathRow.without_of_not_mem {keys : List Key}
    (absent : ∀ key ∈ keys, key ∉ row.deleted) : row.without keys = row := by
  have same : row.deleted.filter (fun key => key ∉ keys) = row.deleted := by
    rw [filter_eq_self]
    intro key mem
    exact decide_eq_true fun named => absent key named mem
  rw [without, same]

theorem DeathRow.without_singleton (nodup : row.deleted.Nodup)
    (key : Key) : row.without [key] = { row with deleted := row.deleted.erase key } := by
  rw [without, nodup.erase_eq_filter key]
  congr 1
  refine filter_congr fun other _ => ?_
  rw [Bool.eq_iff_iff]
  simp

namespace RefWindow

/-- The index names for each key the block whose row it is in. -/
structure Indexed (window : RefWindow BlockHash Key) : Prop where
  nodup : ∀ row ∈ window.deathRows, row.deleted.Nodup
  iff : ∀ key block, Finmap.lookup key window.deathIndex = some block ↔
    ∃ height row, window.deathRows[height]? = some row ∧ block = window.pendingNumber + height ∧
      key ∈ row.deleted

variable {self : RefWindow BlockHash Key}

namespace Indexed

variable {key : Key}

theorem unique (indexed : self.Indexed) {height other : Nat}
    {row stored : DeathRow BlockHash Key} (found : self.deathRows[height]? = some row)
    (mem : key ∈ row.deleted) (known : self.deathRows[other]? = some stored)
    (present : key ∈ stored.deleted) : height = other := by
  have first := (indexed.iff key _).mpr ⟨height, row, found, rfl, mem⟩
  have second := (indexed.iff key _).mpr ⟨other, stored, known, rfl, present⟩
  rw [first] at second
  have same := Option.some.inj second
  omega

theorem not_mem_of_lookup (indexed : self.Indexed) (none : self.deathIndex.lookup key = none) :
    ∀ row ∈ self.deathRows, key ∉ row.deleted := by
  intro row mem member
  obtain ⟨height, found⟩ := mem_iff_getElem?.mp mem
  have entry := (indexed.iff key _).mpr ⟨height, row, found, rfl, member⟩
  rw [none] at entry
  cases entry

theorem without (indexed : self.Indexed) (keys : List Key) :
    ({ self with
      deathIndex := HashMap.eraseAll self.deathIndex keys
      deathRows := self.deathRows.map (·.without keys) } : RefWindow BlockHash Key).Indexed where
  nodup row mem := by
    obtain ⟨before, stored, rfl⟩ := mem_map.mp mem
    exact (indexed.nodup before stored).filter _
  iff key block := by
    rw [lookup_eraseAll]
    simp only [List.getElem?_map]
    constructor
    · intro found
      split at found
      · cases found
      · rename_i stays
        obtain ⟨height, row, stored, number, member⟩ := (indexed.iff key block).mp found
        refine ⟨height, row.without keys, by rw [stored]; rfl, number, ?_⟩
        simpa [DeathRow.without, stays] using member
    · rintro ⟨height, row, stored, number, member⟩
      obtain ⟨before, found, rfl⟩ := Option.map_eq_some_iff.mp stored
      simp only [DeathRow.without, mem_filter, decide_eq_true_eq] at member
      rw [if_neg member.2]
      exact (indexed.iff key block).mpr ⟨height, before, found, number, member.1⟩

end Indexed

/-- **One round of the first loop of `import`** finds the row in range. -/
theorem reinsert_eq (indexed : self.Indexed) (key : Key) :
    self.reinsert key = .ok { self with
      deathIndex := HashMap.eraseAll self.deathIndex [key]
      deathRows := self.deathRows.map (·.without [key]) } := by
  have absent : ∀ row : DeathRow BlockHash Key, key ∉ row.deleted → row.without [key] = row :=
    fun row outside => without_of_not_mem (by simpa using outside)
  unfold reinsert
  cases found : self.deathIndex.lookup key with
  | none =>
    have outside := indexed.not_mem_of_lookup found
    have rows : self.deathRows.map (·.without [key]) = self.deathRows := by
      refine (map_congr_left fun row mem => absent row (outside row mem)).trans ?_
      exact map_id _
    have index : eraseAll self.deathIndex [key] = self.deathIndex :=
      erase_of_not_mem _ _ (Finmap.lookup_eq_none.mp found)
    simp only [rows, index]
  | some block =>
    obtain ⟨height, row, stored, number, member⟩ := (indexed.iff key block).mp found
    have low : height < self.deathRows.length := (List.getElem?_eq_some_iff.mp stored).1
    have range : self.pendingNumber ≤ block ∧
        block - self.pendingNumber < self.deathRows.length := by omega
    have rows : self.deathRows.modify (block - self.pendingNumber) (fun row =>
        { row with deleted := row.deleted.erase key }) = self.deathRows.map (·.without [key]) := by
      apply ext_getElem?
      intro place
      rw [List.getElem?_modify, List.getElem?_map]
      cases here : self.deathRows[place]? with
      | none => rfl
      | some other =>
        by_cases same : block - self.pendingNumber = place
        · have nodup := indexed.nodup other (mem_of_getElem? here)
          simp only [same, if_true, Option.map_some, without_singleton nodup]
          rfl
        · have outside : key ∉ other.deleted := fun present => by
            have place_eq := indexed.unique stored member here present
            omega
          simp [same, absent other outside]
    simp only [range, and_self, if_true, rows]
    rfl

/-- **The first loop of `import`** takes the inserted keys off all rows. -/
theorem foldlM_reinsert (indexed : self.Indexed) (inserted : List Key) :
    inserted.foldlM reinsert self = .ok { self with
      deathIndex := HashMap.eraseAll self.deathIndex inserted
      deathRows := self.deathRows.map (·.without inserted) } := by
  induction inserted generalizing self with
  | nil =>
    have rows : self.deathRows.map (·.without []) = self.deathRows := by
      refine (map_congr_left fun row _ => ?_).trans (map_id _)
      exact without_of_not_mem (by simp)
    simp only [rows]
    rfl
  | cons key rest ih =>
    have later := ih (indexed.without [key])
    have rows : (self.deathRows.map (·.without [key])).map (·.without rest) =
        self.deathRows.map (·.without (key :: rest)) := by
      rw [map_map]
      refine map_congr_left fun row _ => ?_
      simp [without, filter_filter, Bool.and_comm]
    rw [foldlM_cons, reinsert_eq indexed key]
    refine later.trans ?_
    simp only [rows]
    rfl

/-- The window after importing a block. -/
def imported (self : RefWindow BlockHash Key) (hash : BlockHash) (journalKey : MetaKey)
    (inserted deleted : List Key) : RefWindow BlockHash Key :=
  { self with
    deathIndex := HashMap.insertAll (HashMap.eraseAll self.deathIndex inserted)
      (deleted.map fun key => (key, self.pendingNumber + self.deathRows.length))
    deathRows := self.deathRows.map (·.without inserted) ++
      [{ hash, journalKey, deleted := deleted.dedup }] }

section

variable (indexed : self.Indexed)

include indexed

/-- **`import` never indexes out of range.** -/
theorem importBlock_eq (hash : BlockHash) (journalKey : MetaKey) (inserted deleted : List Key) :
    self.importBlock hash journalKey inserted deleted =
      .ok (self.imported hash journalKey inserted deleted) := by
  unfold importBlock imported
  rw [foldlM_reinsert indexed]
  simp only [bind, Except.bind, length_map]

theorem Indexed.imported (hash : BlockHash) (journalKey : MetaKey) {inserted deleted : List Key}
    (fresh : ∀ key ∈ deleted, key ∈ inserted ∨ ∀ row ∈ self.deathRows, key ∉ row.deleted) :
    (self.imported hash journalKey inserted deleted).Indexed where
  nodup row mem := by
    rcases mem_append.mp mem with old | new
    · exact (indexed.without inserted).nodup row old
    · rw [mem_singleton.mp new]
      exact nodup_dedup _
  iff key block := by
    have before := (indexed.without inserted).iff key block
    simp only at before
    have length : (self.deathRows.map (·.without inserted)).length = self.deathRows.length :=
      length_map _
    simp only [RefWindow.imported]
    rw [lookup_insertAll_same]
    constructor
    · intro found
      split at found
      · rename_i named
        cases found
        refine ⟨self.deathRows.length, { hash, journalKey, deleted := deleted.dedup }, ?_, rfl,
          mem_dedup.mpr named⟩
        rw [← length]
        exact List.getElem?_concat_length
      · obtain ⟨height, row, stored, number, member⟩ := before.mp found
        refine ⟨height, row, ?_, number, member⟩
        rwa [List.getElem?_append_left (List.getElem?_eq_some_iff.mp stored).1]
    · rintro ⟨height, row, stored, number, member⟩
      rcases getElem?_concat stored with old | ⟨rfl, rfl⟩
      · have unnamed : key ∉ deleted := by
          intro named
          rw [List.getElem?_map] at old
          obtain ⟨original, there, rfl⟩ := Option.map_eq_some_iff.mp old
          simp only [DeathRow.without, mem_filter, decide_eq_true_eq] at member
          rcases fresh key named with again | nowhere
          · exact member.2 again
          · exact nowhere original (mem_of_getElem? there) member.1
        rw [if_neg unnamed]
        exact before.mpr ⟨height, row, old, number, member⟩
      · rw [if_pos (mem_dedup.mp member), number, length]

theorem Indexed.popped {pruned : DeathRow BlockHash Key} {rest : List (DeathRow BlockHash Key)}
    (rows : self.deathRows = pruned :: rest) :
    ({ self with
      deathRows := rest
      deathIndex := HashMap.eraseAll self.deathIndex pruned.deleted
      pendingNumber := self.pendingNumber + 1 } : RefWindow BlockHash Key).Indexed where
  nodup row mem := indexed.nodup row (by rw [rows]; exact List.mem_cons_of_mem _ mem)
  iff key block := by
    have first : self.deathRows[0]? = some pruned := by rw [rows]; rfl
    have later : ∀ height, self.deathRows[height + 1]? = rest[height]? := by
      intro height
      rw [rows]
      rfl
    rw [lookup_eraseAll]
    constructor
    · intro found
      split at found
      · cases found
      · rename_i stays
        obtain ⟨height, row, stored, number, member⟩ := (indexed.iff key block).mp found
        cases height with
        | zero =>
          rw [first] at stored
          cases stored
          exact absurd member stays
        | succ height =>
          rw [later] at stored
          exact ⟨height, row, stored, by rw [number]; simp only; omega, member⟩
    · rintro ⟨height, row, stored, number, member⟩
      have there : self.deathRows[height + 1]? = some row := (later height).trans stored
      have stays : key ∉ pruned.deleted := fun present => by
        have clash := indexed.unique first present there member
        omega
      rw [if_neg stays]
      exact (indexed.iff key block).mpr
        ⟨height + 1, row, there, by rw [number]; simp only; omega, member⟩

theorem foldlM_popRow (rounds : List Nat) (mem : rounds.length ≤ self.deathRows.length) :
    ∃ index, rounds.foldlM (fun self _ => self.popRow) self = .ok { self with
        deathRows := self.deathRows.drop rounds.length
        deathIndex := index
        pendingNumber := self.pendingNumber + rounds.length } ∧
      ({ self with
        deathRows := self.deathRows.drop rounds.length
        deathIndex := index
        pendingNumber := self.pendingNumber + rounds.length } :
          RefWindow BlockHash Key).Indexed := by
  induction rounds generalizing self with
  | nil => exact ⟨self.deathIndex, rfl, indexed⟩
  | cons round rest ih =>
    cases rows : self.deathRows with
    | nil => simp [rows] at mem
    | cons pruned others =>
      have popped := indexed.popped rows
      rw [rows] at mem
      obtain ⟨index, folded, kept⟩ := ih popped (Nat.le_of_succ_le_succ mem)
      have number : self.pendingNumber + 1 + rest.length =
          self.pendingNumber + (rest.length + 1) := by omega
      rw [foldlM_cons]
      simp only [popRow, rows, bind, Except.bind, length_cons, drop_succ_cons]
      simp only [number] at folded kept
      exact ⟨index, folded, kept⟩

/-- The window with its pending prunings applied, under an index. -/
abbrev settledWith (self : RefWindow BlockHash Key) (index : HashMap Key Nat) :
    RefWindow BlockHash Key where
  deathRows := self.deathRows.drop self.pendingPrunings
  deathIndex := index
  pendingNumber := self.pendingNumber + self.pendingPrunings

/-- **What `apply_pending` does** when no more blocks were pruned than there are. -/
theorem applyPending_eq (mem : self.pendingPrunings ≤ self.deathRows.length) :
    ∃ index, self.applyPending = .ok (self.settledWith index) ∧
      (self.settledWith index).Indexed := by
  have settled : ({ self with pendingCanonicalizations := 0 } : RefWindow BlockHash Key).Indexed :=
    ⟨indexed.nodup, indexed.iff⟩
  obtain ⟨index, folded, kept⟩ := foldlM_popRow settled (List.range self.pendingPrunings)
    (by rw [length_range]; exact mem)
  rw [length_range] at folded kept
  refine ⟨index, ?_, ⟨kept.nodup, kept.iff⟩⟩
  unfold applyPending
  rw [folded]
  rfl

theorem Indexed.reverted : self.revertPending.Indexed where
  nodup row mem := indexed.nodup row (List.mem_of_mem_take mem)
  iff key block := by
    have length : (self.deathRows.take (self.deathRows.length -
        self.pendingCanonicalizations)).length =
          self.deathRows.length - self.pendingCanonicalizations := by
      rw [length_take]
      omega
    simp only [revertPending, lookup_retain, length, Option.filter_eq_some_iff,
      indexed.iff key block, decide_eq_true_eq]
    constructor
    · rintro ⟨⟨height, row, stored, number, member⟩, low⟩
      refine ⟨height, row, ?_, number, member⟩
      rwa [List.getElem?_take_of_lt (by omega)]
    · rintro ⟨height, row, stored, number, member⟩
      rw [List.getElem?_take] at stored
      split at stored
      · exact ⟨⟨height, row, stored, number, member⟩, by omega⟩
      · cases stored

end

end RefWindow

end Brace.StateDb
