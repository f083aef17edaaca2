import Brace.StateDb.NonCanonicalRun

/-!
# Reference counts over runs of the window

The counter of a key in `values` is the number of its occurrences in the blocks of the tree and
in the blocks kept for a pin. `Counted` states this for a list of blocks and the books, and it is
moved through every discard by one lemma about one booked-out block. `revert_insertions` keeps it
only while no settled block lies above a level that holds nothing but pending blocks
(`PendingOnTop`): otherwise the revert takes the wrong level off, with the blocks in it, and their
values stay behind.
-/

namespace Brace.StateDb

open Brace.Lib List HashMap

variable {BlockHash Key : Type} [DecidableEq BlockHash] [DecidableEq Key]

/-- The occurrences of a key in the insertions of blocks and in saved insertions. -/
def occurrencesIn (blocks : List (BlockOverlay BlockHash Key))
    (saved : HashMap BlockHash (List Key)) (key : Key) : Nat :=
  (blocks.flatMap BlockOverlay.inserted).count key +
    HashMap.total saved (fun inserted => inserted.count key)

variable (content : Key → DBValue)

/-- The table counts the keys of the blocks and of the saved insertions. -/
def Counted (blocks : List (BlockOverlay BlockHash Key)) (books : Books BlockHash Key) : Prop :=
  Counts content (occurrencesIn blocks books.pinnedInsertions) books.values

variable (pinned : HashMap BlockHash Nat)

namespace Counted

variable {content : Key → DBValue} {blocks : List (BlockOverlay BlockHash Key)}
  {books : Books BlockHash Key}

theorem perm {others : List (BlockOverlay BlockHash Key)} (counted : Counted content blocks books)
    (same : blocks.Perm others) : Counted content others books := by
  refine Counts.congr counted fun key => ?_
  rw [occurrencesIn, (same.flatMap_right BlockOverlay.inserted).count_eq key, occurrencesIn]

/-- Booking out a block keeps the table exact: a pinned block moves to the saved insertions, any
other one gives its references back. -/
theorem discardOverlay {overlay : BlockOverlay BlockHash Key}
    (counted : Counted content (overlay :: blocks) books)
    (apart : overlay.hash ∉ books.pinnedInsertions) :
    Counted content blocks (discardOverlay pinned books overlay) := by
  unfold StateDb.discardOverlay
  split
  · refine Counts.congr counted fun key => ?_
    simp only [occurrencesIn, total_insert _ _ _ _ apart, flatMap_cons, count_append]
    omega
  · refine Counts.discardValues (Counts.congr counted fun key => ?_)
    simp only [occurrencesIn, flatMap_cons, count_append]
    omega

theorem discardOverlays {gone : List (BlockOverlay BlockHash Key)}
    (counted : Counted content (gone ++ blocks) books) (distinct : Distinct gone)
    (apart : ∀ hash ∈ books.pinnedInsertions, hash ∉ hashes gone) :
    Counted content blocks (discardOverlays pinned books gone) := by
  induction gone generalizing books with
  | nil => exact counted
  | cons overlay rest ih =>
    have other : overlay.hash ∉ books.pinnedInsertions := fun saved =>
      apart _ saved (mem_hashes_of_mem mem_cons_self)
    refine ih (counted.discardOverlay pinned other) (nodup_cons.mp distinct).2 ?_
    intro hash saved listed
    have booked := (mem_saved_discardOverlays pinned books [overlay] hash).mp saved
    rcases booked with old | ⟨same, -⟩
    · exact apart _ old (hashes_mono (subset_cons_self _ _) listed)
    · obtain ⟨first, here, rfl⟩ := mem_hashes.mp same
      obtain rfl := mem_singleton.mp here
      obtain ⟨block, mem, equal⟩ := mem_hashes.mp listed
      exact (nodup_cons.mp distinct).1 (mem_map.mpr ⟨block, mem, equal⟩)

end Counted

namespace NonCanonicalOverlay

variable (self : NonCanonicalOverlay BlockHash Key)

/-- The occurrences of a key in the tree and in the insertions saved for pins. -/
def occurrences (key : Key) : Nat :=
  occurrencesIn self.levels.flatten self.pinnedInsertions key

/-- Above a level that holds only pending blocks there are only pending blocks. -/
def PendingOnTop : Prop :=
  ∀ index < self.levels.length, self.levels.getD index [] ≠ [] →
    (∀ overlay ∈ self.levels.getD index [], overlay.hash ∈ self.pendingInsertions) →
      ∀ overlay ∈ (self.levels.drop index).flatten, overlay.hash ∈ self.pendingInsertions

instance (self : NonCanonicalOverlay BlockHash Key) : Decidable self.PendingOnTop :=
  inferInstanceAs (Decidable (∀ index < _, _))

/-- Equal keys carry equal values. -/
def SameContent : Operation BlockHash Key → Prop
  | .insert _ _ _ changeset => ∀ entry ∈ changeset.inserted, entry.2 = content entry.1
  | _ => True

instance (content : Key → DBValue) (op : Operation BlockHash Key) :
    Decidable (SameContent content op) := by
  rcases op <;> unfold SameContent <;> infer_instance

/-- A revert leaves no settled block behind. -/
def RevertsOnTop : Operation BlockHash Key → Prop
  | .revertPending => self.PendingOnTop
  | _ => True

instance (op : Operation BlockHash Key) : Decidable (self.RevertsOnTop op) := by
  rcases op <;> unfold RevertsOnTop <;> infer_instance

/-- The calls of a run in which reference counts stay exact. -/
def KeepsCounts (op : Operation BlockHash Key) : Prop :=
  self.FreshInsert op ∧ SameContent content op ∧ self.RevertsOnTop op

instance (content : Key → DBValue) (self : NonCanonicalOverlay BlockHash Key)
    (op : Operation BlockHash Key) : Decidable (KeepsCounts content self op) :=
  inferInstanceAs (Decidable (_ ∧ _))

/-- What is carried along a run with exact reference counts. -/
structure Counting (content : Key → DBValue) (window : NonCanonicalOverlay BlockHash Key) :
    Prop where
  wellFormed : window.WellFormed
  counted : Counted content window.levels.flatten window.books
  pushed : PendingPushed (fun _ => True) window

omit [DecidableEq Key] in
theorem PendingOnTop.topped {self : NonCanonicalOverlay BlockHash Key} (onTop : self.PendingOnTop)
    {base : Levels BlockHash Key} {blocks : List (BlockOverlay BlockHash Key)}
    {shape : Levels BlockHash Key → Prop} (pushed : Pushed shape base blocks self.levels)
    (listed : self.pendingInsertions.reverse = blocks.map BlockOverlay.hash)
    (distinct : Distinct self.levels.flatten) (index : Nat) (bare : base.getD index [] = [])
    (full : self.levels.getD index [] ≠ []) : (base.drop index).flatten = [] := by
  have pending : ∀ hash, hash ∈ self.pendingInsertions ↔ hash ∈ blocks.map BlockOverlay.hash := by
    intro hash
    rw [← listed, mem_reverse]
  have mem : index < self.levels.length := by
    by_contra beyond
    exact full (by simp [List.getD, List.getElem?_eq_none (Nat.le_of_not_lt beyond)])
  have above := onTop index mem full fun overlay member => by
    rcases pushed.mem_level member with settled | new
    · rw [bare] at settled
      cases settled
    · exact (pending _).mpr (mem_map_of_mem new)
  rw [eq_nil_iff_forall_not_mem]
  intro overlay member
  -- the block is in the tree above the level, so it would be pending and settled at once
  obtain ⟨height, high, here⟩ := mem_flatten_drop.mp member
  have stored := (pushed.base_prefix height).subset here
  have listedHere := above overlay (mem_flatten_drop.mpr ⟨height, high, stored⟩)
  obtain ⟨block, new, same⟩ := mem_map.mp ((pending _).mp listedHere)
  exact (distinct.perm pushed.flatten).apart block new overlay (mem_flatten.mpr ⟨height, here⟩) same

namespace Counting

variable {content : Key → DBValue} {self next : NonCanonicalOverlay BlockHash Key}

theorem empty : Counting content ({} : NonCanonicalOverlay BlockHash Key) where
  wellFormed := WellFormed.empty
  counted := by
    refine (Counts.empty content).congr fun key => ?_
    simp [occurrencesIn, books, total_empty]
  pushed := .settled rfl trivial

section

variable (counting : Counting content self)

include counting

theorem counted_gone {gone kept : List (BlockOverlay BlockHash Key)}
    (parts : self.levels.flatten.Perm (gone ++ kept)) :
    Counted content kept (discardOverlays pinned self.books gone) := by
  have distinct : Distinct (gone ++ kept) := Distinct.perm counting.wellFormed.distinct parts
  exact (counting.counted.perm parts).discardOverlays pinned
    (distinct.part (sublist_append_left _ _)) (counting.wellFormed.savedApart_gone parts)

theorem revertPending (onTop : self.PendingOnTop) (ran : self.revertPending = .ok next) :
    Counted content next.levels.flatten next.books := by
  obtain ⟨base, blocks, pushed, listed⟩ := counting.pushed
  obtain ⟨left, popped, kept, -, -, -, folded, rfl⟩ := revertPending_cases ran
  rw [listed] at folded
  have distinct := counting.wellFormed.distinct
  obtain ⟨⟨count, rfl, bare⟩, booked⟩ := revert_pushed (fun _ _ => id) pushed distinct
    (onTop.topped pushed listed distinct) folded
  have exact_ : Counted content base.flatten (discardOverlays ∅ self.books blocks) :=
    counting.counted_gone ∅ pushed.flatten
  have same : base.flatten = (base.take count).flatten := by
    conv_lhs => rw [← take_append_drop count base, flatten_append, bare, append_nil]
  rw [← booked, same] at exact_
  exact exact_

theorem unpinBlock (hash : BlockHash) : Counting content (self.unpinBlock hash) := by
  have wellFormed := counting.wellFormed.unpinBlock hash
  rcases self.unpinBlock_cases hash with ⟨pinned, same⟩ | ⟨inserted, saved, same⟩
  · rw [same] at wellFormed ⊢
    exact ⟨wellFormed, counting.counted, counting.pushed⟩
  · rw [same] at wellFormed ⊢
    refine ⟨wellFormed, ?_, counting.pushed⟩
    refine Counts.discardValues (Counts.congr counting.counted fun key => ?_)
    have moved := total_erase self.pinnedInsertions (fun keys => keys.count key) hash
      inserted saved
    simp only [occurrencesIn, books] at moved ⊢
    omega

/-- **Every call of such a run keeps the counts exact.** -/
theorem step {op : Operation BlockHash Key} (allowed : KeepsCounts content self op)
    (ran : self.step op = .ok next) : Counting content next := by
  obtain ⟨fresh, same, onTop⟩ := allowed
  have wellFormed := counting.wellFormed.step fresh ran
  cases step_cases ran with
  | refused => exact counting
  | placed block accepted =>
    refine ⟨wellFormed, ?_, counting.pushed.place accepted.within
      (mt counting.wellFormed.mem_parents fresh.1) trivial⟩
    refine Counted.perm ?_ (flatten_pushBlock _ _ _).symm
    refine (counting.counted.insertValues _ same).congr fun key => ?_
    simp only [occurrencesIn, flatMap_cons, count_append, overlayAt, placed, books]
    omega
  | noted | pinned => exact ⟨wellFormed, counting.counted, counting.pushed⟩
  | applied applied =>
    obtain ⟨settled, gone, -, parts, rfl⟩ := applyPending_cases counting.wellFormed applied
    exact ⟨wellFormed, counting.counted_gone self.pinned parts, .settled rfl trivial⟩
  | reverted reverted =>
    refine ⟨wellFormed, counting.revertPending onTop reverted, .settled ?_ trivial⟩
    obtain ⟨left, popped, kept, -, -, -, -, rfl⟩ := revertPending_cases reverted
    rfl
  | unpinned returns =>
    exact unpin_invariant (fun self hash holds => holds.unpinBlock hash) counting returns

end

end Counting

/-- A block of the tree or one kept for a pin inserted the key. -/
def Needs (key : Key) : Prop :=
  (∃ overlay ∈ self.levels.flatten, key ∈ overlay.inserted) ∨
    ∃ hash inserted, Finmap.lookup hash self.pinnedInsertions = some inserted ∧ key ∈ inserted

theorem occurrences_ne_zero_iff (key : Key) : self.occurrences key ≠ 0 ↔ self.Needs key := by
  have tree : (self.levels.flatten.flatMap BlockOverlay.inserted).count key ≠ 0 ↔
      ∃ overlay ∈ self.levels.flatten, key ∈ overlay.inserted := by
    rw [Ne, count_eq_zero, not_not, mem_flatMap]
  have saved := total_ne_zero_iff self.pinnedInsertions (fun keys => keys.count key)
  simp only [Ne, count_eq_zero, not_not] at saved
  rw [Needs, ← tree, ← saved, occurrences, occurrencesIn]
  omega

/-- The entry of a key is there exactly when the key is needed; its counter is the number of the
insertions that need it and its value the inserted one. -/
structure ValueExact (content : Key → DBValue) (window : NonCanonicalOverlay BlockHash Key)
    (key : Key) : Prop where
  mem_iff : key ∈ window.values ↔ window.Needs key
  counter : ∀ counter value, Finmap.lookup key window.values = some (counter, value) →
    counter = window.occurrences key ∧ value = content key
  get_needed : window.Needs key → window.get key = some (content key)
  get_unneeded : ¬ window.Needs key → window.get key = none

/-- **Reference counts are exact** in every window reached by calls with fresh hashes and one value
for each key, in which no revert happens while a settled block lies above a level that holds only
pending blocks. -/
theorem values_exact (reached : Reachable NonCanonicalOverlay.step (KeepsCounts content) {} self)
    (key : Key) : self.ValueExact content key := by
  have counting : Counting content self :=
    reached.invariant .empty fun _ _ _ counting allowed ran => counting.step allowed ran
  have found : self.values.lookup key = if self.occurrences key = 0 then none
      else some (self.occurrences key, content key) := counting.counted key
  have needed := self.occurrences_ne_zero_iff key
  constructor
  · rw [← needed, mem_iff_lookup_ne, found]
    by_cases zero : self.occurrences key = 0 <;> simp [zero]
  · intro counter value stored
    rw [found] at stored
    split at stored
    · cases stored
    · cases stored
      exact ⟨rfl, rfl⟩
  · intro needs
    rw [get, found, if_neg (needed.mpr needs)]
    rfl
  · intro unneeded
    rw [get, found, if_pos (not_not.mp (mt needed.mp unneeded))]
    rfl

/-- A run with a pin, a discarded fork and a revert: the key of the pinned block is still there. -/
theorem values_exact_pinned_fork : ∃ self : NonCanonicalOverlay Nat Nat,
    Reachable NonCanonicalOverlay.step (KeepsCounts fun _ => [1]) {} self ∧
    self.occurrences 7 = 1 ∧ self.ValueExact (fun _ => [1]) 7 := by
  refine exists_reachable_of_found
    [.insert 1 1 0 { inserted := [(5, [1])] }, .insert 2 1 0 { inserted := [(7, [1])] },
      .applyPending, .pin 2, .canonicalize 1, .applyPending,
      .insert 11 2 1 { inserted := [(7, [1])] }, .insert 12 2 1 {}, .revertPending]
    (fun self => self.occurrences 7 = 1) (by decide +kernel) fun self reached once => ?_
  exact ⟨once, values_exact _ self reached 7⟩

/-- **A revert can leave a value behind.** The pinned block 22 of a discarded fork is still known as
a parent, so block 33 goes above the level that the discard emptied. Reverting block 12, alone in
that level, takes block 33 off instead: its key stays in `values`. -/
theorem revert_leaks_value : ∃ self : NonCanonicalOverlay Nat Nat,
    Reachable NonCanonicalOverlay.step
      (fun self op => self.FreshInsert op ∧ SameContent (fun _ => [1]) op) {} self ∧
    ¬ self.ValueExact (fun _ => [1]) 7 := by
  refine exists_reachable_of_found
    [.insert 1 1 0 {}, .insert 2 1 0 {}, .insert 22 2 2 {}, .applyPending, .pin 22,
      .canonicalize 1, .applyPending, .insert 33 3 22 { inserted := [(7, [1])] }, .applyPending,
      .insert 12 2 1 {}, .revertPending]
    (fun self => 7 ∈ self.values ∧ self.occurrences 7 = 0) (by decide +kernel)
    fun self _ found counts => ?_
  exact (self.occurrences_ne_zero_iff 7).mpr (counts.mem_iff.mp found.1) found.2

end NonCanonicalOverlay

end Brace.StateDb
