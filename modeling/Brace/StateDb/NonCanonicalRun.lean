import Brace.StateDb.RevertInsertions

/-!
# Runs of the canonicalization window

The calls of the window as steps of a machine, and one statement for each call of everything it
can do: `insert_trichotomy`, `canonicalize_cases`, `applyPending_cases`, `revertPending_cases`,
`pin_cases` and `unpin_invariant`. Every result about runs is derived from these. `WellFormed` is
what holds in all runs with fresh hashes, whatever their order.
-/

namespace Brace.StateDb.NonCanonicalOverlay

open Brace.Lib List Finmap

variable {BlockHash Key : Type} [DecidableEq BlockHash] [DecidableEq Key]

inductive Operation (BlockHash Key : Type)
  | insert (hash : BlockHash) (number : Nat) (parentHash : BlockHash)
      (changeset : ChangeSet Key DBValue)
  | canonicalize (hash : BlockHash)
  | applyPending
  | revertPending
  | pin (hash : BlockHash)
  | unpin (hash : BlockHash)

variable (self : NonCanonicalOverlay BlockHash Key)

/-- The result and the overlay after a call; calls without a commit return an empty one. -/
def call : Operation BlockHash Key →
    Except Panic (Except Error (CommitSet BlockHash Key) × NonCanonicalOverlay BlockHash Key)
  | .insert hash number parentHash changeset => self.insert hash number parentHash changeset
  | .canonicalize hash => self.canonicalize hash {}
  | .applyPending => do .ok (.ok {}, ← self.applyPending)
  | .revertPending => do .ok (.ok {}, ← self.revertPending)
  | .pin hash => do .ok (.ok {}, ← self.pin hash)
  | .unpin hash => do .ok (.ok {}, ← self.unpin hash)

def step (op : Operation BlockHash Key) : Except Panic (NonCanonicalOverlay BlockHash Key) := do
  let (_, next) ← self.call op
  .ok next

/-- The overlay knows no block of this hash, neither a stored one nor a parent of one. -/
def Fresh (hash : BlockHash) : Prop :=
  hash ∉ self.parents ∧ ∀ child ∈ self.parents.keys, Finmap.lookup child self.parents ≠ some hash

instance (self : NonCanonicalOverlay BlockHash Key) (hash : BlockHash) :
    Decidable (self.Fresh hash) := inferInstanceAs (Decidable (_ ∧ _))

/-- Blocks are inserted under fresh hashes. -/
def FreshInsert : Operation BlockHash Key → Prop
  | .insert hash _ _ _ => self.Fresh hash
  | _ => True

instance (self : NonCanonicalOverlay BlockHash Key) (op : Operation BlockHash Key) :
    Decidable (self.FreshInsert op) := by
  rcases op <;> unfold FreshInsert <;> infer_instance

variable {self next : NonCanonicalOverlay BlockHash Key} {number position : Nat}
  {parentHash hash : BlockHash} {last : Option (BlockHash × Nat)}
  {changeset : ChangeSet Key DBValue} {result : Except Error (CommitSet BlockHash Key)}
  {shape : Levels BlockHash Key → Prop}

/-! ## Insertion -/

/-- The blocks `insert` accepts, with the last canonicalized block it leaves and the position of
the level it chooses. -/
inductive Accepted (self : NonCanonicalOverlay BlockHash Key) (number : Nat)
    (parentHash : BlockHash) : Option (BlockHash × Nat) → Nat → Prop
  /-- The first block: its parent is assumed to be canonicalized. -/
  | first : self.levels = [] → self.lastCanonicalized = none → 0 < number →
      Accepted self number parentHash (some (parentHash, number - 1)) 0
  /-- Nothing is canonicalized: the parent is not checked. -/
  | unchecked : self.lastCanonicalized = none → number ≤ self.levels.length →
      Accepted self number parentHash none number
  /-- A child of the last canonicalized block. -/
  | front (last : Nat) : self.lastCanonicalized = some (parentHash, last) → number = last + 1 →
      Accepted self number parentHash (some (parentHash, last)) 0
  /-- A block above the first level, whose parent has an entry. -/
  | above (hash : BlockHash) (last position : Nat) : self.lastCanonicalized = some (hash, last) →
      number = last + 1 + position → 0 < position → position ≤ self.levels.length →
        parentHash ∈ self.parents → Accepted self number parentHash (some (hash, last)) position

/-- The overlay of a block to be pushed at a position. -/
def overlayAt (self : NonCanonicalOverlay BlockHash Key) (position : Nat) (hash : BlockHash)
    (number : Nat) (changeset : ChangeSet Key DBValue) : BlockOverlay BlockHash Key :=
  { hash := hash
    journalKey := toJournalKey number (self.levels.getD position []).length
    inserted := changeset.inserted.map Prod.fst
    deleted := changeset.deleted }

/-- The window after an accepted insertion. -/
def placed (self : NonCanonicalOverlay BlockHash Key) (last : Option (BlockHash × Nat))
    (position : Nat) (hash : BlockHash) (number : Nat) (parentHash : BlockHash)
    (changeset : ChangeSet Key DBValue) : NonCanonicalOverlay BlockHash Key :=
  { self with
    lastCanonicalized := last
    levels := pushBlock self.levels position (self.overlayAt position hash number changeset)
    parents := self.parents.insert hash parentHash
    values := insertValues self.values changeset.inserted
    pendingInsertions := self.pendingInsertions ++ [hash] }

/-- The commit of an accepted insertion: the journal record, after the assumed canonicalization
when there is one. -/
def placedCommit (self : NonCanonicalOverlay BlockHash Key) (last : Option (BlockHash × Nat))
    (position : Nat) (hash : BlockHash) (number : Nat) (parentHash : BlockHash)
    (changeset : ChangeSet Key DBValue) : CommitSet BlockHash Key :=
  let assumed := match self.lastCanonicalized, last with
    | none, some (hash, number) => [(.lastCanonical, .canonicalized hash number)]
    | _, _ => []
  { metadata :=
    { inserted := assumed ++ [((self.overlayAt position hash number changeset).journalKey, .block
        { hash := hash
          parentHash := parentHash
          inserted := changeset.inserted
          deleted := changeset.deleted })] } }

/-- The arguments of an insertion, with the last canonicalized block and the position chosen. -/
structure Placement (BlockHash Key : Type) where
  last : Option (BlockHash × Nat)
  position : Nat
  hash : BlockHash
  number : Nat
  parentHash : BlockHash
  changeset : ChangeSet Key DBValue

abbrev Placement.op (block : Placement BlockHash Key) : Operation BlockHash Key :=
  .insert block.hash block.number block.parentHash block.changeset

section

variable (self : NonCanonicalOverlay BlockHash Key) (block : Placement BlockHash Key)

/-- The block is accepted at its position. -/
abbrev Accepts : Prop := Accepted self block.number block.parentHash block.last block.position

abbrev overlayOf : BlockOverlay BlockHash Key :=
  self.overlayAt block.position block.hash block.number block.changeset

abbrev place : NonCanonicalOverlay BlockHash Key :=
  self.placed block.last block.position block.hash block.number block.parentHash block.changeset

end

variable {block : Placement BlockHash Key}

section

variable (accepted : Accepted self number parentHash last position)

include accepted

omit [DecidableEq BlockHash] [DecidableEq Key]

theorem Accepted.within : position ≤ self.levels.length := by
  cases accepted with
  | first | front => exact Nat.zero_le _
  | unchecked _ mem | above _ _ _ _ _ _ mem => exact mem

theorem Accepted.known
    (above : 0 < position) (some : self.lastCanonicalized ≠ none) : parentHash ∈ self.parents := by
  cases accepted with
  | first | front => omega
  | unchecked none => exact absurd none some
  | above _ _ _ _ _ _ _ known => exact known

theorem Accepted.located
    (later : ¬ (self.levels = [] ∧ self.lastCanonicalized = none ∧ 0 < number)) :
    last = self.lastCanonicalized ∧ number = self.frontBlockNumber + position := by
  cases accepted with
  | first empty none pos => exact absurd ⟨empty, none, pos⟩ later
  | unchecked none _ => simp [frontBlockNumber, none]
  | front _ canonical same | above _ _ _ canonical same => simp [frontBlockNumber, canonical, same]

end

variable (self)

/-- The part of `insert` after its checks, at an existing level or at the first new one. -/
theorem insertChecked_eq (front position : Nat) (hash : BlockHash) (number : Nat)
    (parentHash : BlockHash) (changeset : ChangeSet Key DBValue) (commit : CommitSet BlockHash Key)
    (within : position ≤ self.levels.length)
    (located : number = front + position ∨ (self.levels = [] ∧ position = 0)) :
    self.insertChecked front hash number parentHash changeset commit =
      .ok ({ commit with metadata := { commit.metadata with
          inserted := commit.metadata.inserted ++
            [((self.overlayAt position hash number changeset).journalKey, .block
              { hash := hash
                parentHash := parentHash
                inserted := changeset.inserted
                deleted := changeset.deleted })] } },
        self.placed self.lastCanonicalized position hash number parentHash changeset) := by
  have chosen : (if self.levels.isEmpty ∨ number = front + self.levels.length then
        (.ok (self.levels ++ [[]], self.levels.length) : Except Panic (Levels BlockHash Key × Nat))
      else if number - front < self.levels.length then .ok (self.levels, number - front)
      else .error .numberRange) =
      .ok (if position < self.levels.length then self.levels else self.levels ++ [[]],
        position) := by
    rcases Nat.lt_or_ge position self.levels.length with mem | beyond
    · have full : self.levels ≠ [] := List.ne_nil_of_length_pos (by omega)
      have number_eq : number = front + position := located.resolve_right fun empty => full empty.1
      simp only [List.isEmpty_iff, full, false_or, number_eq, Nat.add_left_cancel_iff,
        Nat.ne_of_lt mem, if_false, Nat.add_sub_cancel_left, mem, if_true]
    · obtain rfl : position = self.levels.length := by omega
      have last : self.levels.isEmpty ∨ number = front + self.levels.length :=
        located.symm.imp_left fun empty => by simp [empty.1]
      simp only [last, if_true, Nat.lt_irrefl, if_false]
  have level : (if position < self.levels.length then self.levels
      else self.levels ++ [[]]).getD position [] = self.levels.getD position [] := by
    split
    · rfl
    · exact getD_concat_nil _
  unfold insertChecked
  simp only [chosen, bind, Except.bind, level, modify_eq_pushBlock _ _ _ within]
  rfl

/-- **Everything `insert` can do**: refuse the block and leave the window as it is, accept it, or
panic on a number beyond the levels while nothing is canonicalized. -/
theorem insert_trichotomy (hash : BlockHash) (number : Nat) (parentHash : BlockHash)
    (changeset : ChangeSet Key DBValue) :
    (∃ error, self.insert hash number parentHash changeset = .ok (.error error, self)) ∨
    (∃ last position, Accepted self number parentHash last position ∧
      self.insert hash number parentHash changeset =
        .ok (.ok (self.placedCommit last position hash number parentHash changeset),
          self.placed last position hash number parentHash changeset)) ∨
    (self.lastCanonicalized = none ∧ self.levels ≠ [] ∧ self.levels.length < number ∧
      self.insert hash number parentHash changeset = .error .numberRange) := by
  unfold insert
  -- An overlay that holds nothing takes the parent of its first block for canonical.
  by_cases virgin : self.levels.isEmpty ∧ self.lastCanonicalized.isNone ∧ 0 < number
  · obtain ⟨empty, none, pos⟩ := virgin
    rw [List.isEmpty_iff] at empty
    rw [Option.isNone_iff_eq_none] at none
    refine .inr (.inl ⟨_, 0, .first empty none pos, ?_⟩)
    have checked := insertChecked_eq
      { self with lastCanonicalized := some (parentHash, number - 1) } self.frontBlockNumber 0 hash
      number parentHash changeset
      { metadata := { inserted := [(.lastCanonical, .canonicalized parentHash (number - 1))] } }
      (Nat.zero_le _) (.inr ⟨empty, rfl⟩)
    simp only [empty, none, List.isEmpty_nil, Option.isNone_none, pos, and_self, if_true]
      at checked ⊢
    simp only [checked, bind, Except.bind]
    simp [placedCommit, none, overlayAt, empty, placed]
  · simp only [virgin, if_false]
    have accept : ∀ position, position ≤ self.levels.length →
        number = self.frontBlockNumber + position →
        Accepted self number parentHash self.lastCanonicalized position →
        ∃ last position, Accepted self number parentHash last position ∧
          (self.insertChecked self.frontBlockNumber hash number parentHash changeset {} >>=
            fun result => .ok (.ok result.1, result.2)) =
              (.ok (.ok (self.placedCommit last position hash number parentHash changeset),
            self.placed last position hash number parentHash changeset) :
            Except Panic (Except Error (CommitSet BlockHash Key) × _)) := by
      intro position within located accepted
      refine ⟨_, position, accepted, ?_⟩
      rw [insertChecked_eq self self.frontBlockNumber position hash number parentHash changeset {}
        within (.inl located)]
      cases canonical : self.lastCanonicalized <;> simp [placedCommit, canonical, bind, Except.bind]
    cases canonical : self.lastCanonicalized with
    | none =>
      have front : self.frontBlockNumber = 0 := by simp [frontBlockNumber, canonical]
      -- Nothing is canonical, so neither number nor parent is checked: one past the levels panics.
      rcases Nat.lt_or_ge self.levels.length number with beyond | mem
      · have full : self.levels ≠ [] := fun empty =>
          virgin ⟨by simp [empty], by simp [canonical], by omega⟩
        refine .inr (.inr ⟨rfl, full, beyond, ?_⟩)
        simp [insertChecked, front, full, show number ≠ self.levels.length by omega,
          show ¬ number < self.levels.length by omega, bind, Except.bind]
      · refine .inr (.inl (accept number mem (by omega) ?_))
        rw [canonical]
        exact .unchecked canonical mem
    | some last =>
      have front : self.frontBlockNumber = last.2 + 1 := by simp [frontBlockNumber, canonical]
      by_cases outside : number < self.frontBlockNumber ∨
          self.frontBlockNumber + self.levels.length + 1 ≤ number
      · exact .inl ⟨.invalidBlockNumber, by simp only [outside, if_true]⟩
      simp only [outside, if_false]
      by_cases atFront : number = self.frontBlockNumber
      · rw [if_pos atFront]
        by_cases child : last.1 = parentHash ∧ last.2 = number - 1
        · rw [if_pos child]
          refine .inr (.inl (accept 0 (Nat.zero_le _) atFront ?_))
          have parent : self.lastCanonicalized = some (parentHash, last.2) := by
            rw [canonical, ← child.1]
          rw [parent]
          exact .front last.2 parent (by omega)
        · exact .inl ⟨.invalidParent, by rw [if_neg child]⟩
      · simp only [atFront, if_false]
        by_cases known : parentHash ∈ self.parents
        · simp only [known, if_true]
          refine .inr (.inl (accept (number - self.frontBlockNumber) (by omega) (by omega) ?_))
          rw [canonical]
          exact .above last.1 last.2 _ canonical (by omega) (by omega) (by omega) known
        · exact .inl ⟨.invalidParent, by simp only [known, if_false]⟩

variable {self}

theorem insert_cases (ran : self.insert hash number parentHash changeset = .ok (result, next)) :
    (∃ error, result = .error error ∧ next = self) ∨
    ∃ last position, Accepted self number parentHash last position ∧
      result = .ok (self.placedCommit last position hash number parentHash changeset) ∧
      next = self.placed last position hash number parentHash changeset := by
  rcases self.insert_trichotomy hash number parentHash changeset with
    ⟨error, refused⟩ | ⟨last, position, accepted, inserted⟩ | ⟨-, -, -, panics⟩
  · rw [refused] at ran
    cases ran
    exact .inl ⟨error, rfl, rfl⟩
  · rw [inserted] at ran
    cases ran
    exact .inr ⟨last, position, accepted, rfl, rfl⟩
  · rw [panics] at ran
    cases ran

/-! ## Canonicalization -/

/-- **Everything `canonicalize` can do** when it returns: refuse a block that is not in the first
level without a pending canonicalization, or note it and write its changes. -/
theorem canonicalize_cases {commit : CommitSet BlockHash Key}
    (ran : self.canonicalize hash commit = .ok (result, next)) :
    (result = .error .invalidBlock ∧ next = self) ∨
    ∃ level overlay journals inserted,
      self.levels[self.pendingCanonicalizations.length]? = some level ∧
      overlay ∈ level ∧ overlay.hash = hash ∧
      levelJournals self.parents (self.levels.drop (self.pendingCanonicalizations.length + 1)) level
        (level.findIdx fun overlay => overlay.hash = hash) = .ok journals ∧
      overlayValues self.values overlay.inserted = .ok inserted ∧
      result = .ok
        { data :=
            { inserted := commit.data.inserted ++ inserted
              deleted := commit.data.deleted ++ overlay.deleted }
          metadata :=
            { inserted := commit.metadata.inserted ++ [(.lastCanonical, .canonicalized hash
                (self.frontBlockNumber + self.pendingCanonicalizations.length))]
              deleted := commit.metadata.deleted ++ journals } } ∧
      next = { self with pendingCanonicalizations := self.pendingCanonicalizations ++ [hash] } := by
  simp only [canonicalize] at ran
  split at ran
  · cases ran
    exact .inl ⟨rfl, rfl⟩
  · rename_i level there
    split at ran
    · cases ran
      exact .inl ⟨rfl, rfl⟩
    · rename_i overlay found
      obtain ⟨journals, collected, ran⟩ := bind_eq_ok.mp ran
      obtain ⟨inserted, looked, ran⟩ := bind_eq_ok.mp ran
      cases ran
      exact .inr ⟨level, overlay, journals, inserted, there, mem_of_find?_eq_some found,
        by simpa using List.find?_some found, collected, looked, rfl, rfl⟩

/-- The parent of a block, as the window has it stored. -/
def parentOf (self : NonCanonicalOverlay BlockHash Key) (hash : BlockHash) : Option BlockHash :=
  Finmap.lookup hash self.parents

/-- The last canonicalized block once the pending ones are applied. -/
def settledLast (self : NonCanonicalOverlay BlockHash Key) : Option (BlockHash × Nat) :=
  match self.pendingCanonicalizations.getLast? with
  | some hash => some (hash, self.frontBlockNumber + self.pendingCanonicalizations.length - 1)
  | none => self.lastCanonicalized

/-- The window with the levels and books of a discard. -/
def withBooks (self : NonCanonicalOverlay BlockHash Key) (levels : Levels BlockHash Key)
    (books : Books BlockHash Key) : NonCanonicalOverlay BlockHash Key :=
  { self with
    levels := levels
    values := books.values
    parents := books.parents
    pinnedInsertions := books.pinnedInsertions }

/-- What holds in every run with fresh hashes. -/
structure WellFormed (window : NonCanonicalOverlay BlockHash Key) : Prop where
  distinct : Distinct window.levels.flatten
  parentEntry : ∀ overlay ∈ window.levels.flatten, overlay.hash ∈ window.parents
  savedApart : ∀ hash ∈ window.pinnedInsertions, hash ∉ hashes window.levels.flatten
  savedParent : ∀ hash ∈ window.pinnedInsertions, hash ∈ window.parents
  positive : Positive window.values

section

variable (wellFormed : self.WellFormed)

include wellFormed

theorem WellFormed.agrees : Agrees self.parentOf self.books.parents self.levels.flatten := by
  intro overlay mem
  obtain ⟨parent, stored⟩ := mem_iff.mp (wellFormed.parentEntry overlay mem)
  exact ⟨parent, stored, stored⟩

/-- **Everything `apply_pending` can do**: it panics when the pending blocks cannot be settled one
after the other, and otherwise keeps the settled levels and books every other block out. -/
theorem applyPending_eq :
    match settle self.parentOf self.pendingCanonicalizations self.levels with
    | some settled => ∃ gone, self.levels.flatten.Perm (gone ++ settled.flatten) ∧
        self.applyPending = .ok
          { self.withBooks settled (discardOverlays self.pinned self.books gone) with
            lastCanonicalized := self.settledLast
            pendingCanonicalizations := []
            pendingInsertions := [] }
    | none => self.applyPending = .error .hashValidity := by
  have loop := foldlM_applyCanonicalization self.pinned self.pendingCanonicalizations self.levels
    self.books wellFormed.agrees wellFormed.distinct
  split <;> rename_i result <;> rw [result] at loop
  · obtain ⟨gone, folded, parts⟩ := loop
    refine ⟨gone, parts, ?_⟩
    simp only [applyPending, applyCanonicalizations, folded, bind, Except.bind, settledLast,
      frontBlockNumber, withBooks]
    cases self.pendingCanonicalizations.getLast? with
    | none => rfl
    | some hash =>
      cases self.lastCanonicalized with
      | none => simp
      | some last => simp [Nat.add_right_comm]
  · simp only [applyPending, applyCanonicalizations, loop, bind, Except.bind]

theorem applyPending_cases (ran : self.applyPending = .ok next) :
    ∃ settled gone, settle self.parentOf self.pendingCanonicalizations self.levels = some settled ∧
      self.levels.flatten.Perm (gone ++ settled.flatten) ∧
      next = { self.withBooks settled (discardOverlays self.pinned self.books gone) with
        lastCanonicalized := self.settledLast
        pendingCanonicalizations := []
        pendingInsertions := [] } := by
  have applied := applyPending_eq wellFormed
  split at applied
  · rename_i settled result
    obtain ⟨gone, parts, returns⟩ := applied
    rw [returns] at ran
    cases ran
    exact ⟨settled, gone, result, parts, rfl⟩
  · rw [applied] at ran
    cases ran

end

/-! ## Reverting -/

theorem pinnedInsertions_discardOverlays_empty (books : Books BlockHash Key)
    (gone : List (BlockOverlay BlockHash Key)) :
    (discardOverlays ∅ books gone).pinnedInsertions = books.pinnedInsertions := by
  induction gone generalizing books with
  | nil => rfl
  | cons overlay rest ih =>
    refine (ih _).trans ?_
    simp [discardOverlay, notMem_empty]

/-- **Everything `revert_pending` can do** when it returns. -/
theorem revertPending_cases (ran : self.revertPending = .ok next) :
    ∃ left popped kept, popped.map BlockOverlay.hash = self.pendingInsertions.reverse ∧
      self.levels.flatten.Perm (popped ++ kept) ∧ left.flatten.Sublist kept ∧
      self.pendingInsertions.reverse.foldlM
        (fun (levels, books) hash => revertInsertion levels books hash) (self.levels, self.books) =
          .ok (left, discardOverlays ∅ self.books popped) ∧
      next = { self.withBooks left (discardOverlays ∅ self.books popped) with
        pendingCanonicalizations := []
        pendingInsertions := [] } := by
  unfold revertPending revertInsertions at ran
  obtain ⟨⟨left, after⟩, folded, ran⟩ := bind_eq_ok.mp ran
  obtain ⟨popped, kept, listed, parts, mem, rfl⟩ := revert_cases folded
  cases ran
  refine ⟨left, popped, kept, listed, parts, mem, folded, ?_⟩
  simp [withBooks, pinnedInsertions_discardOverlays_empty, books]

/-! ## Pinning -/

omit [DecidableEq Key] in
/-- Everything `pin` can do when it returns: change the pin counters. -/
theorem pin_cases (ran : self.pin hash = .ok next) : ∃ pinned, next = { self with pinned } := by
  unfold pin at ran
  split at ran
  · cases ran
    exact ⟨self.pinned, rfl⟩
  · obtain ⟨pinned, -, ran⟩ := bind_eq_ok.mp ran
    cases ran
    exact ⟨pinned, rfl⟩

/-- **Everything one round of `unpin` can do**: change the pin counters, and discard the block
when it was kept only for a pin. -/
theorem unpinBlock_cases (self : NonCanonicalOverlay BlockHash Key) (hash : BlockHash) :
    (∃ pinned, self.unpinBlock hash = { self with pinned }) ∨
    ∃ inserted, self.pinnedInsertions.lookup hash = some inserted ∧
      self.unpinBlock hash = { self with
        pinned := self.pinned.erase hash
        pinnedInsertions := self.pinnedInsertions.erase hash
        values := discardValues self.values inserted
        parents := self.parents.erase hash } := by
  unfold unpinBlock
  split
  · exact .inl ⟨self.pinned, rfl⟩
  · split
    · simp only
      split
      · exact .inl ⟨_, rfl⟩
      · rename_i inserted saved
        exact .inr ⟨inserted, saved, rfl⟩
    · exact .inl ⟨_, rfl⟩

theorem unpin_invariant {Inv : NonCanonicalOverlay BlockHash Key → Prop}
    (kept : ∀ self hash, Inv self → Inv (self.unpinBlock hash)) (holds : Inv self)
    (ran : self.unpin hash = .ok next) : Inv next := by
  have chain : ∀ (left : Nat) (self : NonCanonicalOverlay BlockHash Key) (hash? : Option BlockHash),
      Inv self → unpinChain left self hash? = .ok next → Inv next := by
    intro left self hash? holds ran
    fun_induction unpinChain left self hash? with
    | case1 =>
      cases ran
      exact holds
    | case2 => cases ran
    | case3 left self hash ih => exact ih (kept self hash holds) ran
  exact chain _ _ _ holds ran

/-! ## One step -/

/-- What a call that returns did to the window. -/
inductive Stepped (self : NonCanonicalOverlay BlockHash Key) :
    Operation BlockHash Key → NonCanonicalOverlay BlockHash Key → Prop
  /-- A refused block changes nothing. -/
  | refused (op : Operation BlockHash Key) : Stepped self op self
  | placed (block : Placement BlockHash Key) (accepted : self.Accepts block) :
      Stepped self block.op (self.place block)
  | noted {overlay : BlockOverlay BlockHash Key}
      (inside : overlay ∈ self.levels.getD self.pendingCanonicalizations.length []) :
      Stepped self (.canonicalize overlay.hash)
        { self with pendingCanonicalizations := self.pendingCanonicalizations ++ [overlay.hash] }
  | applied {next : _} (applied : self.applyPending = .ok next) : Stepped self .applyPending next
  | reverted {next : _} (reverted : self.revertPending = .ok next) :
      Stepped self .revertPending next
  | pinned {hash : BlockHash} (pinned : HashMap BlockHash Nat) :
      Stepped self (.pin hash) { self with pinned }
  | unpinned {hash : BlockHash} {next : _} (returned : self.unpin hash = .ok next) :
      Stepped self (.unpin hash) next

/-- **Everything a step can do** when it returns. -/
theorem step_cases {op : Operation BlockHash Key} (ran : self.step op = .ok next) :
    Stepped self op next := by
  obtain ⟨⟨result, after⟩, called, rest⟩ := bind_eq_ok.mp ran
  cases rest
  cases op with
  | insert hash number parentHash changeset =>
    rcases insert_cases called with ⟨error, -, rfl⟩ | ⟨last, position, accepted, -, rfl⟩
    · exact .refused _
    · exact .placed ⟨last, position, hash, number, parentHash, changeset⟩ accepted
  | canonicalize hash =>
    rcases canonicalize_cases called with ⟨-, rfl⟩ | ⟨level, overlay, journals, inserted, there,
      mem, rfl, -, -, -, rfl⟩
    · exact .refused _
    · refine .noted ?_
      rw [List.getD, there]
      exact mem
  | applyPending =>
    obtain ⟨after, applied, rest⟩ := bind_eq_ok.mp called
    cases rest
    exact .applied applied
  | revertPending =>
    obtain ⟨after, reverted, rest⟩ := bind_eq_ok.mp called
    cases rest
    exact .reverted reverted
  | pin hash =>
    obtain ⟨after, returns, rest⟩ := bind_eq_ok.mp called
    cases rest
    obtain ⟨pinned, rfl⟩ := pin_cases returns
    exact .pinned pinned
  | unpin hash =>
    obtain ⟨after, returns, rest⟩ := bind_eq_ok.mp called
    cases rest
    exact .unpinned returns

/-! ## Well-formed windows -/

theorem WellFormed.empty : ({} : NonCanonicalOverlay BlockHash Key).WellFormed where
  distinct := List.nodup_nil
  parentEntry := by simp
  savedApart := by simp [Finmap.notMem_empty]
  savedParent := by simp [Finmap.notMem_empty]
  positive := by simp [Positive]

namespace WellFormed

variable {self : NonCanonicalOverlay BlockHash Key}

variable {hash : BlockHash}

section

variable (wellFormed : self.WellFormed)

include wellFormed

theorem mem_parents (stored : hash ∈ hashes self.levels.flatten) : hash ∈ self.parents := by
  obtain ⟨overlay, mem, rfl⟩ := mem_hashes.mp stored
  exact wellFormed.parentEntry overlay mem

theorem place (fresh : block.hash ∉ self.parents) : (self.place block).WellFormed := by
  have parts := flatten_pushBlock self.levels block.position (self.overlayOf block)
  have member : ∀ other, other ∈ hashes (pushBlock self.levels block.position
      (self.overlayOf block)).flatten ↔
        other = block.hash ∨ other ∈ hashes self.levels.flatten := by
    intro other
    simp only [mem_hashes, parts.mem_iff, mem_cons, exists_eq_or_imp]
    simp [overlayAt, eq_comm]
  constructor
  · have apart : Distinct (self.overlayOf block :: self.levels.flatten) :=
      nodup_cons.mpr ⟨fun listed => mt wellFormed.mem_parents fresh
        (by simpa [hashes, overlayAt] using listed), wellFormed.distinct⟩
    exact apart.perm parts.symm
  · intro overlay mem
    change overlay.hash ∈ self.parents.insert block.hash block.parentHash
    rw [mem_insert]
    exact ((member overlay.hash).mp (mem_hashes_of_mem mem)).imp_right wellFormed.mem_parents
  · intro saved kept listed
    rcases (member saved).mp listed with rfl | old
    · exact fresh (wellFormed.savedParent _ kept)
    · exact wellFormed.savedApart saved kept old
  · intro saved kept
    change saved ∈ self.parents.insert block.hash block.parentHash
    rw [mem_insert]
    exact .inr (wellFormed.savedParent saved kept)
  · exact wellFormed.positive.insertValues _

variable {gone kept : List (BlockOverlay BlockHash Key)}

theorem savedApart_gone (parts : self.levels.flatten.Perm (gone ++ kept)) :
    ∀ hash ∈ self.pinnedInsertions, hash ∉ hashes gone := by
  intro hash saved removed
  exact wellFormed.savedApart _ saved
    (hashes_mono (fun _ there => parts.mem_iff.mpr (mem_append_left _ there)) removed)

theorem withBooks (pinned : HashMap BlockHash Nat) {left : Levels BlockHash Key}
    (parts : self.levels.flatten.Perm (gone ++ kept)) (mem : left.flatten.Sublist kept) :
    (self.withBooks left (discardOverlays pinned self.books gone)).WellFormed := by
  have apart : Distinct (gone ++ kept) := Distinct.perm wellFormed.distinct parts
  have stays : ∀ hash, hash ∈ hashes left.flatten → hash ∉ hashes gone := by
    intro hash listed
    obtain ⟨stored, here, rfl⟩ := mem_hashes.mp listed
    exact apart.notMem_hashes (mem.subset here)
  have stored : hashes left.flatten ⊆ hashes self.levels.flatten :=
    hashes_mono fun _ here => parts.mem_iff.mpr (mem_append_right _ (mem.subset here))
  have parentKept : ∀ hash, hash ∈ self.parents → (hash ∉ hashes gone ∨ hash ∈ pinned) →
      hash ∈ (discardOverlays pinned self.books gone).parents := by
    intro hash known exempt
    rw [HashMap.mem_iff_lookup_ne, lookup_parents_discardOverlays, if_neg (by tauto)]
    exact (HashMap.mem_iff_lookup_ne _ _).mp known
  constructor
  · exact apart.part (mem.trans (sublist_append_right _ _))
  · intro overlay here
    have listed := mem_hashes_of_mem here
    exact parentKept _ (wellFormed.mem_parents (stored listed)) (.inl (stays _ listed))
  · intro hash saved listed
    rcases (mem_saved_discardOverlays _ _ _ _).mp saved with old | ⟨removed, -⟩
    · exact wellFormed.savedApart hash old (stored listed)
    · exact stays hash listed removed
  · intro hash saved
    rcases (mem_saved_discardOverlays _ _ _ _).mp saved with old | ⟨removed, held⟩
    · exact parentKept hash (wellFormed.savedParent hash old)
        (.inl (wellFormed.savedApart_gone parts hash old))
    · refine parentKept _ (wellFormed.mem_parents (hashes_mono ?_ removed)) (.inr held)
      exact fun _ there => parts.mem_iff.mpr (mem_append_left _ there)
  · exact wellFormed.positive.discardOverlays gone

theorem unpinBlock (hash : BlockHash) : (self.unpinBlock hash).WellFormed := by
  rcases self.unpinBlock_cases hash with ⟨pinned, same⟩ | ⟨inserted, saved, same⟩
  · rw [same]
    exact { wellFormed with }
  · rw [same]
    have apart : hash ∉ hashes self.levels.flatten :=
      wellFormed.savedApart hash (mem_iff.mpr ⟨inserted, saved⟩)
    refine ⟨wellFormed.distinct, ?_, ?_, ?_, wellFormed.positive.discardValues _⟩
    · intro overlay mem
      refine mem_erase.mpr ⟨?_, wellFormed.parentEntry overlay mem⟩
      rintro rfl
      exact apart (mem_hashes_of_mem mem)
    · intro other kept
      exact wellFormed.savedApart other (mem_erase.mp kept).2
    · intro other kept
      obtain ⟨ne, old⟩ := mem_erase.mp kept
      exact mem_erase.mpr ⟨ne, wellFormed.savedParent other old⟩

/-- **Every call with a fresh hash keeps a window well-formed.** -/
theorem step {op : Operation BlockHash Key} {next : NonCanonicalOverlay BlockHash Key}
    (fresh : self.FreshInsert op) (ran : self.step op = .ok next) : next.WellFormed := by
  cases step_cases ran with
  | refused => exact wellFormed
  | placed => exact wellFormed.place fresh.1
  | noted | pinned => exact { wellFormed with }
  | applied applied =>
    obtain ⟨settled, gone, -, parts, rfl⟩ := applyPending_cases wellFormed applied
    have kept := wellFormed.withBooks self.pinned parts (List.Sublist.refl _)
    exact { kept with }
  | reverted reverted =>
    obtain ⟨left, popped, kept, -, parts, mem, -, rfl⟩ := revertPending_cases reverted
    have kept := wellFormed.withBooks ∅ parts mem
    exact { kept with }
  | unpinned returns =>
    exact unpin_invariant (fun self hash holds => holds.unpinBlock hash) wellFormed returns

end

end WellFormed

/-! ## Pending blocks -/

/-- The pending blocks are those pushed onto the levels since the last `apply_pending` or
`revert_pending`, and the levels of every stage had the shape. -/
def PendingPushed (shape : Levels BlockHash Key → Prop) (self : NonCanonicalOverlay BlockHash Key) :
    Prop :=
  ∃ base blocks, Pushed shape base blocks self.levels ∧
    self.pendingInsertions.reverse = blocks.map BlockOverlay.hash

omit [DecidableEq Key] in
theorem PendingPushed.settled (none : self.pendingInsertions = [])
    (shaped : shape self.levels) : PendingPushed shape self :=
  ⟨self.levels, [], .nil shaped, by simp [none]⟩

theorem PendingPushed.place (pushed : PendingPushed shape self)
    (within : block.position ≤ self.levels.length) (fresh : block.hash ∉ hashes self.levels.flatten)
    (shaped : shape (self.place block).levels) : PendingPushed shape (self.place block) := by
  obtain ⟨base, blocks, stages, listed⟩ := pushed
  refine ⟨base, self.overlayOf block :: blocks, .push _ _ stages within fresh shaped, ?_⟩
  simp [NonCanonicalOverlay.placed, listed, overlayAt]

end Brace.StateDb.NonCanonicalOverlay
