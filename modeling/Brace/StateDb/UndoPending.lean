import Brace.StateDb.NonCanonicalRun

/-!
# Undoing pending work

`revert_pending` gives back the window from before a series of `insert` and `canonicalize` calls,
field by field (`revert_restores`), when none of the insertions was the first block of an empty
window, which sets `last_canonicalized` for good, and none landed on or above a level that was
empty at the start, where the revert takes a level too many off.
-/

namespace Brace.StateDb.NonCanonicalOverlay

open Brace.Lib NonCanonicalOverlay

variable {BlockHash Key : Type} [DecidableEq BlockHash] [DecidableEq Key]

/-- The calls of pending work: insertions of fresh blocks, and canonicalizations. -/
def PendingCall (self : NonCanonicalOverlay BlockHash Key) : Operation BlockHash Key → Prop
  | .insert hash _ _ _ => self.Fresh hash
  | .canonicalize _ => True
  | _ => False

variable (start self : NonCanonicalOverlay BlockHash Key)

/-- The insertions that can be undone: not the first block of an empty window, and no block on or
above an empty level of the start. -/
def UndoableInsert : Operation BlockHash Key → Prop
  | .insert _ number _ _ =>
      ¬ (self.levels = [] ∧ self.lastCanonicalized = none ∧ 0 < number) ∧
      ∀ height < start.levels.length, self.frontBlockNumber + height ≤ number →
        number ≤ self.frontBlockNumber + self.levels.length → start.levels.getD height [] ≠ []
  | _ => True

/-- The calls of pending work that can be undone. -/
def Undoable (op : Operation BlockHash Key) : Prop :=
  self.PendingCall op ∧ UndoableInsert start self op

section

variable (start self : NonCanonicalOverlay BlockHash Key) (op : Operation BlockHash Key)

instance : Decidable (self.PendingCall op) := by
  rcases op <;> unfold PendingCall <;> infer_instance

instance : Decidable (UndoableInsert start self op) := by
  rcases op <;> unfold UndoableInsert <;> infer_instance

instance : Decidable (Undoable start self op) := inferInstanceAs (Decidable (_ ∧ _))

end

variable {self : NonCanonicalOverlay BlockHash Key} {op : Operation BlockHash Key}

omit [DecidableEq Key] in
theorem PendingCall.fresh (pending : self.PendingCall op) : self.FreshInsert op := by
  cases op with
  | insert => exact pending
  | canonicalize => trivial
  | applyPending | revertPending | pin | unpin => exact pending.elim

/-- What is carried along pending work: the revert leads back to the start. -/
structure Undone (start window : NonCanonicalOverlay BlockHash Key) : Prop where
  wellFormed : window.WellFormed
  lastCanonicalized : window.lastCanonicalized = start.lastCanonicalized
  pinned : window.pinned = start.pinned
  pinnedInsertions : window.pinnedInsertions = start.pinnedInsertions
  /-- An empty level was empty at the start. -/
  empty : ∀ height < window.levels.length, window.levels.getD height [] = [] →
    height < start.levels.length ∧ start.levels.getD height [] = []
  reverted : window.pendingInsertions.reverse.foldlM
    (fun (levels, books) hash => revertInsertion levels books hash)
      (window.levels, window.books) = .ok (start.levels, start.books)

theorem discardOverlay_place {block : Placement BlockHash Key} (pos : Positive self.values)
    (fresh : block.hash ∉ self.parents) :
    discardOverlay ∅ (self.place block).books (self.overlayOf block) = self.books := by
  have parents := HashMap.erase_insert self.parents block.parentHash fresh
  have values := discardValues_insertValues pos block.changeset.inserted
  simp [discardOverlay, Finmap.notMem_empty, placed, books, overlayAt, parents, values]

/-- **Every call of pending work keeps the way back.** -/
theorem Undone.step {start next : NonCanonicalOverlay BlockHash Key} (undone : Undone start self)
    (allowed : Undoable start self op) (ran : self.step op = .ok next) : Undone start next := by
  have wellFormed := undone.wellFormed.step allowed.1.fresh ran
  cases step_cases ran with
  | refused => exact undone
  | placed block accepted =>
    obtain ⟨fresh, later, solid⟩ := allowed
    obtain ⟨same, located⟩ := accepted.located later
    have within := accepted.within
    have full : ∀ height < self.levels.length, height ≤ block.position →
        self.levels.getD height [] ≠ [] := by
      intro height mem low bare
      obtain ⟨old, bareStart⟩ := undone.empty height mem bare
      exact solid height old (by omega) (by omega) bareStart
    have kept : emptied self.levels block.position = self.levels :=
      (emptied_cases self.levels _).resolve_right fun ⟨mem, bare, _⟩ =>
        full _ mem (Nat.le_refl _) bare
    refine ⟨wellFormed, same.trans undone.lastCanonicalized, undone.pinned,
      undone.pinnedInsertions, ?_, ?_⟩
    · intro height mem bare
      change (pushBlock _ _ _).getD height [] = [] at bare
      change height < (pushBlock _ _ _).length at mem
      rw [getD_pushBlock _ _ _ within] at bare
      rw [length_pushBlock _ _ _ within] at mem
      split at bare
      · exact absurd bare (List.concat_ne_nil _ _)
      · exact undone.empty height (by split at mem <;> omega) bare
    · have solidBelow : ∀ level ∈ self.levels.take block.position, level ≠ [] := by
        rintro level member rfl
        obtain ⟨height, low, found⟩ := List.mem_take_iff_getElem.mp member
        exact full height (by omega) (by omega)
          (by simp [List.getD, found, show height < self.levels.length by omega])
      have round := revertInsertion_pushBlock self.levels block.position
        (self.overlayOf block) within
        (mt undone.wellFormed.mem_parents fresh.1) (self.place block).books
      rw [if_pos solidBelow, kept, discardOverlay_place undone.wellFormed.positive fresh.1] at round
      change (self.pendingInsertions ++ [block.hash]).reverse.foldlM _ _ = _
      rw [List.reverse_concat, List.foldlM_cons]
      exact bind_eq_ok.mpr ⟨_, round, undone.reverted⟩
  | noted =>
    exact ⟨wellFormed, undone.lastCanonicalized, undone.pinned, undone.pinnedInsertions,
      undone.empty, undone.reverted⟩
  | applied | reverted | pinned | unpinned => exact allowed.1.elim

/-- **`revert_pending` undoes pending work.** From any window that calls with fresh hashes reach
and that has nothing pending, after any undoable insertions and canonicalizations the revert
returns the window from before them. -/
theorem revert_restores (start self : NonCanonicalOverlay BlockHash Key)
    (reached : Reachable step FreshInsert {} start)
    (idle : start.pendingInsertions = [] ∧ start.pendingCanonicalizations = [])
    (worked : Reachable step (Undoable start) start self) :
    self.revertPending = .ok start := by
  have wellFormed : start.WellFormed := reached.invariant WellFormed.empty
    fun _ _ _ wellFormed fresh ran => wellFormed.step fresh ran
  have initial : Undone start start :=
    ⟨wellFormed, rfl, rfl, rfl, fun _ mem bare => ⟨mem, bare⟩, by rw [idle.1]; rfl⟩
  have undone : Undone start self := worked.invariant initial
    fun _ _ _ undone allowed ran => undone.step allowed ran
  have folded := undone.reverted
  simp only [books, undone.pinnedInsertions] at folded
  simp only [revertPending, revertInsertions, books, bind, Except.bind, undone.pinnedInsertions,
    folded, undone.lastCanonicalized, undone.pinned]
  obtain ⟨noInsertions, noCanonicalizations⟩ := idle
  cases start
  simp_all

/-- A fork of pending insertions and a pending canonicalization, undone. -/
theorem revert_restores_fork : ∃ start self : NonCanonicalOverlay Nat Nat,
    Reachable step FreshInsert {} start ∧
    Reachable step (Undoable start) start self ∧
    self.pendingInsertions = [11, 22, 111] ∧ self.revertPending = .ok start := by
  have started : ∃ start : NonCanonicalOverlay Nat Nat,
      Reachable step FreshInsert {} start ∧
        ((start.pendingInsertions = [] ∧ start.pendingCanonicalizations = []) ∧
          (run step (Undoable start) start
            [.insert 11 2 1 { inserted := [(7, [1])] }, .canonicalize 1, .insert 22 2 2 {},
              .insert 111 3 11 { inserted := [(7, [1])] }]).any
            (fun self => self.pendingInsertions = [11, 22, 111])) :=
    exists_reachable_of_run
      [.insert 1 1 0 { inserted := [(7, [1])] }, .insert 2 1 0 {}, .applyPending]
      (by decide +kernel)
  obtain ⟨start, reached, idle, executed⟩ := started
  obtain ⟨self, worked, pending⟩ := exists_reachable_of_run _ executed
  exact ⟨start, self, reached, worked, pending, revert_restores start self reached idle worked⟩

/-- **The first insertion is not undone.** Reverting the first block of an empty window leaves its
parent as the last canonicalized block. -/
theorem revert_keeps_first_parent : ∃ self restored : NonCanonicalOverlay Nat Nat,
    Reachable step PendingCall {} self ∧ self.revertPending = .ok restored ∧
      restored.lastCanonicalized ≠ ({} : NonCanonicalOverlay Nat Nat).lastCanonicalized := by
  have worked : ∃ self : NonCanonicalOverlay Nat Nat,
      Reachable step PendingCall {} self ∧
        (self.revertPending.toOption.any fun restored =>
          restored.lastCanonicalized = some (0, 0)) :=
    exists_reachable_of_run [.insert 1 1 0 {}] (by decide +kernel)
  obtain ⟨self, reached, reverted⟩ := worked
  obtain ⟨restored, ran, kept⟩ := exists_ok_of_any reverted
  refine ⟨self, restored, reached, ran, ?_⟩
  rw [of_decide_eq_true kept]
  simp

-- A block alone in a level that a discard had emptied: the revert takes the level off.
example : (run step FreshInsert ({} : NonCanonicalOverlay Nat Nat)
    [.insert 1 1 0 {}, .insert 2 1 0 {}, .insert 22 2 2 {}, .applyPending, .canonicalize 1,
      .applyPending]).any (fun start => start.levels = [[]]) ∧
    (run step FreshInsert ({} : NonCanonicalOverlay Nat Nat)
    [.insert 1 1 0 {}, .insert 2 1 0 {}, .insert 22 2 2 {}, .applyPending, .canonicalize 1,
      .applyPending, .insert 11 2 1 {}, .revertPending]).any (fun self => self.levels = []) := by
  decide +kernel

end Brace.StateDb.NonCanonicalOverlay
