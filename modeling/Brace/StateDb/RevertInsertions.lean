import Brace.Lib.Run
import Brace.StateDb.Discard

/-!
# Reverting pending insertions

The levels of a window are those of the last `apply_pending` or `revert_pending` with the pending
blocks pushed onto them (`Pushed`). `revert_insertions` pops these in reverse order. One round
restores the levels from before the push, except that it takes the last level away whenever the
popped block was alone in a level that had been empty (`revertInsertion_pushBlock`). When no settled
block lies above such a level, a revert that returns leaves the old levels without some of their
last empty ones (`revert_pushed`).
-/

namespace Brace.StateDb

open Brace.Lib NonCanonicalOverlay List Option Nat

variable {BlockHash Key : Type}

variable {levels left base : Levels BlockHash Key} {overlay : BlockOverlay BlockHash Key}
  {hash : BlockHash} {books after : Books BlockHash Key} {pending : List BlockHash}
  {blocks : List (BlockOverlay BlockHash Key)}

theorem mem_flatten : overlay ∈ levels.flatten ↔ ∃ height, overlay ∈ levels.getD height [] := by
  rw [List.mem_flatten]
  constructor
  · rintro ⟨level, mem, here⟩
    obtain ⟨height, found⟩ := mem_iff_getElem?.mp mem
    exact ⟨height, by rwa [List.getD, found]⟩
  · rintro ⟨height, here⟩
    rw [List.getD] at here
    cases found : levels[height]? with
    | none =>
      rw [found] at here
      cases here
    | some level =>
      rw [found] at here
      exact ⟨level, mem_of_getElem? found, here⟩

theorem mem_flatten_drop {index : Nat} : overlay ∈ (levels.drop index).flatten ↔
      ∃ height, index ≤ height ∧ overlay ∈ levels.getD height [] := by
  simp only [mem_flatten, List.getD, getElem?_drop]
  constructor
  · rintro ⟨height, here⟩
    exact ⟨index + height, le_add_right _ _, here⟩
  · rintro ⟨height, high, here⟩
    exact ⟨height - index, by rwa [add_sub_of_le high]⟩

/-- Push a block onto the level at a position, or onto a new last level. -/
def pushBlock : Levels BlockHash Key → Nat → BlockOverlay BlockHash Key → Levels BlockHash Key
  | [], _, overlay => [[overlay]]
  | level :: above, 0, overlay => (level ++ [overlay]) :: above
  | level :: above, position + 1, overlay => level :: pushBlock above position overlay

/-- No block lies above an empty level. -/
def Unbroken (levels : Levels BlockHash Key) : Prop :=
  ∀ index, levels.getD index [] = [] → (levels.drop index).flatten = []

section

variable (levels) (position : Nat)

variable (overlay : BlockOverlay BlockHash Key)

theorem getD_pushBlock (within : position ≤ levels.length) (index : Nat) :
    (pushBlock levels position overlay).getD index [] =
      if index = position then levels.getD index [] ++ [overlay] else levels.getD index [] := by
  fun_induction pushBlock levels position overlay generalizing index with
  | case1 position =>
    obtain rfl : position = 0 := le_zero.mp within
    cases index <;> simp
  | case2 => cases index <;> simp
  | case3 level above position overlay ih =>
    cases index with
    | zero => simp
    | succ index => simpa using ih (le_of_succ_le_succ within) index

theorem getD_pushBlock_ne_nil (within : position ≤ levels.length) :
    (pushBlock levels position overlay).getD position [] ≠ [] := by
  rw [getD_pushBlock levels position overlay within, if_pos rfl]
  exact concat_ne_nil _ _

theorem flatten_pushBlock :
    (pushBlock levels position overlay).flatten.Perm (overlay :: levels.flatten) := by
  fun_induction pushBlock levels position overlay with
  | case1 => exact .refl _
  | case2 level above =>
    simp only [flatten_cons, append_assoc]
    exact perm_middle
  | case3 level above position overlay ih =>
    exact (List.Perm.append_left level ih).trans perm_middle

section

variable (within : position ≤ levels.length)

include within

theorem modify_eq_pushBlock :
    (if position < levels.length then levels else levels ++ [[]]).modify position (· ++ [overlay]) =
      pushBlock levels position overlay := by
  fun_induction pushBlock levels position overlay with
  | case1 position =>
    obtain rfl : position = 0 := le_zero.mp within
    rfl
  | case2 => simp
  | case3 level above position overlay ih =>
    simp only [← ih (le_of_succ_le_succ within), length_cons, succ_eq_add_one, add_lt_add_iff_right]
    split <;> simp

theorem length_pushBlock :
    (pushBlock levels position overlay).length =
      if position < levels.length then levels.length else levels.length + 1 := by
  rw [← modify_eq_pushBlock levels position overlay within, length_modify]
  split
  · rfl
  · exact length_append

theorem drop_pushBlock (count : Nat) :
    (pushBlock levels position overlay).drop count =
      if count ≤ position then pushBlock (levels.drop count) (position - count) overlay
      else levels.drop count := by
  fun_induction pushBlock levels position overlay generalizing count with
  | case1 position =>
    obtain rfl : position = 0 := le_zero.mp within
    cases count <;> simp [pushBlock]
  | case2 => cases count <;> simp [pushBlock]
  | case3 level above position overlay ih =>
    cases count with
    | zero => simp [pushBlock]
    | succ count => simpa using ih (le_of_succ_le_succ within) count

end

end

variable [DecidableEq BlockHash]

theorem lastPosition_pushBlock {levels : Levels BlockHash Key} {position : Nat}
    {overlay : BlockOverlay BlockHash Key} (within : position ≤ levels.length)
    (fresh : overlay.hash ∉ hashes levels.flatten) :
    lastPosition overlay.hash (pushBlock levels position overlay) =
      if ∀ level ∈ levels.take position, level ≠ [] then .ok position else .error .lastInLevel := by
  fun_induction pushBlock levels position overlay with
  | case1 position =>
    obtain rfl : position = 0 := le_zero.mp within
    simp [lastPosition]
  | case2 => simp [lastPosition]
  | case3 level above position overlay ih =>
    have freshAbove : overlay.hash ∉ hashes above.flatten :=
      mt (hashes_mono (subset_append_right _ _) ·) fresh
    have later := ih (le_of_succ_le_succ within) freshAbove
    simp only [lastPosition, later]
    cases last : level.getLast? with
    | none =>
      have empty : level = [] := List.getLast?_eq_none_iff.mp last
      simp [empty]
    | some top =>
      have mem : top ∈ level := mem_of_getLast? last
      have full : level ≠ [] := ne_nil_of_mem mem
      have other : top.hash ≠ overlay.hash := fun same =>
        fresh (mem_hashes.mpr ⟨top, by simp [mem], same⟩)
      simp only [other, ↓reduceIte, take_succ_cons, forall_mem_cons, full,
        ne_eq, not_false_eq_true, true_and]
      split <;> rfl

/-- What the search returns: the level it names ends in a block with the hash. -/
theorem lastPosition_ok {position : Nat} (found : lastPosition hash levels = .ok position) :
    ∃ below start overlay above, levels = below ++ (start ++ [overlay]) :: above ∧
      below.length = position ∧ overlay.hash = hash := by
  induction levels generalizing position with
  | nil => cases found
  | cons level above ih =>
    unfold lastPosition at found
    split at found
    · cases found
    · rename_i overlay last
      split at found
      · rename_i same
        cases found
        obtain ⟨start, rfl⟩ := List.getLast?_eq_some_iff.mp last
        exact ⟨[], start, overlay, above, rfl, rfl, same⟩
      · cases searched : lastPosition hash above with
        | error fault =>
          rw [searched] at found
          cases found
        | ok later =>
          rw [searched] at found
          cases found
          obtain ⟨below, start, overlay, rest, rfl, size, same⟩ := ih searched
          exact ⟨level :: below, start, overlay, rest, rfl, by simp [size], same⟩

variable [DecidableEq Key]

/-- **What one round of `revert_insertions` does, whatever the levels are.** It takes one block
with the hash out of the levels, possibly with more blocks, and books it out. -/
theorem revertInsertion_cases (ran : revertInsertion levels books hash = .ok (left, after)) :
    ∃ overlay kept, overlay.hash = hash ∧ levels.flatten.Perm (overlay :: kept) ∧
      left.flatten.Sublist kept ∧ after = discardOverlay ∅ books overlay := by
  unfold revertInsertion at ran
  cases found : lastPosition hash levels with
  | error fault =>
    rw [found] at ran
    cases ran
  | ok position =>
    obtain ⟨below, start, overlay, above, rfl, size, same⟩ := lastPosition_ok found
    have level : (below ++ (start ++ [overlay]) :: above).getD position [] =
      start ++ [overlay] := by
      simp [← size]
    have popped : (below ++ (start ++ [overlay]) :: above).modify position dropLast =
        below ++ start :: above := by
      rw [← size, modify_eq_take_cons_drop (by simp)]
      simp
    rw [found] at ran
    simp only [bind, Except.bind, level, popped, dropLast_concat, List.getLast?_concat,
      map_some, getD_some, Except.ok.injEq, Prod.mk.injEq] at ran
    obtain ⟨rfl, rfl⟩ := ran
    refine ⟨overlay, (below ++ start :: above).flatten, same, ?_, ?_, ?_⟩
    · simp only [flatten_append, flatten_cons, append_assoc, cons_append, nil_append]
      refine (List.Perm.append_left _ perm_middle).trans ?_
      exact perm_middle
    · split
      · exact (dropLast_sublist _).flatten
      · exact List.Sublist.refl _
    · simp [discardOverlay, Finmap.notMem_empty, same]

/-- The levels after popping a block that was pushed at a position. -/
def emptied (levels : Levels BlockHash Key) (position : Nat) : Levels BlockHash Key :=
  if position < levels.length ∧ levels.getD position [] = [] then levels.dropLast else levels

section

variable (levels : Levels BlockHash Key)

omit [DecidableEq BlockHash] [DecidableEq Key] in
theorem modify_pushBlock {position : Nat}
    (overlay : BlockOverlay BlockHash Key) (within : position ≤ levels.length) :
    (pushBlock levels position overlay).modify position List.dropLast =
      if position < levels.length then levels else levels ++ [[]] := by
  have popped : dropLast ∘ (· ++ [overlay]) = id := funext fun level => dropLast_concat
  rw [← modify_eq_pushBlock levels position overlay within, modify_modify_eq, popped, modify_id]

/-- **One round of `revert_insertions`**, when the block it looks for was pushed last. -/
theorem revertInsertion_pushBlock (position : Nat)
    (overlay : BlockOverlay BlockHash Key) (within : position ≤ levels.length)
    (fresh : overlay.hash ∉ hashes levels.flatten) (books : Books BlockHash Key) :
    revertInsertion (pushBlock levels position overlay) books overlay.hash =
      if ∀ level ∈ levels.take position, level ≠ [] then
        .ok (emptied levels position, discardOverlay ∅ books overlay)
      else .error .lastInLevel := by
  unfold revertInsertion
  rw [lastPosition_pushBlock within fresh]
  split
  · have level := getD_pushBlock levels position overlay within position
    rw [if_pos rfl] at level
    have popped : (if (levels.getD position []).isEmpty then
          (if position < levels.length then levels else levels ++ [[]]).dropLast
        else if position < levels.length then levels else levels ++ [[]]) =
        emptied levels position := by
      unfold emptied
      rcases lt_or_ge position levels.length with mem | beyond
      · simp [mem]
      · simp [show ¬ position < levels.length by omega]
    simp only [bind, Except.bind, level, List.getLast?_concat, map_some, getD_some,
      dropLast_concat, modify_pushBlock levels overlay within, popped]
    simp [discardOverlay, Finmap.notMem_empty]
  · rfl

/-! ## Levels with blocks pushed onto them -/

/-- The levels are `base` with blocks pushed onto it, the last one first in the list. The levels
of every stage have the shape. -/
inductive Pushed (shape : Levels BlockHash Key → Prop) (base : Levels BlockHash Key) :
    List (BlockOverlay BlockHash Key) → Levels BlockHash Key → Prop
  | nil : shape base → Pushed shape base [] base
  | push {blocks : List (BlockOverlay BlockHash Key)} {levels : Levels BlockHash Key}
      (position : Nat) (overlay : BlockOverlay BlockHash Key) :
      Pushed shape base blocks levels → position ≤ levels.length →
        overlay.hash ∉ hashes levels.flatten → shape (pushBlock levels position overlay) →
          Pushed shape base (overlay :: blocks) (pushBlock levels position overlay)

omit [DecidableEq BlockHash] [DecidableEq Key] in
theorem dropLast_pushBlock (position : Nat)
    (overlay : BlockOverlay BlockHash Key) (within : position ≤ levels.length)
    (empty : (pushBlock levels position overlay).getLast? = some []) :
    position + 1 < levels.length ∧ levels.getLast? = some [] ∧
      (pushBlock levels position overlay).dropLast =
        pushBlock levels.dropLast position overlay := by
  induction levels generalizing position with
  | nil => simp [pushBlock] at empty
  | cons level above ih =>
    cases position with
    | zero =>
      cases above with
      | nil => simp [pushBlock] at empty
      | cons next rest =>
        simp only [pushBlock, List.getLast?_cons_cons] at empty
        exact ⟨by simp, by simpa using empty, by simp [pushBlock]⟩
    | succ position =>
      have some : pushBlock above position overlay ≠ [] := by
        cases above <;> cases position <;> simp [pushBlock]
      have later : (pushBlock above position overlay).getLast? = Option.some [] := by
        rw [pushBlock, List.getLast?_cons_of_ne_nil some] at empty
        exact empty
      obtain ⟨mem, last, rest⟩ := ih position (le_of_succ_le_succ within) later
      have present : above ≠ [] := ne_nil_of_length_pos (by omega)
      refine ⟨by simpa using mem, ?_, ?_⟩
      · rw [List.getLast?_cons_of_ne_nil present, last]
      · rw [pushBlock, dropLast_cons_of_ne_nil some, rest,
          dropLast_cons_of_ne_nil present, pushBlock]

end

namespace Pushed

variable {shape : Levels BlockHash Key → Prop} {base levels : Levels BlockHash Key}
  {blocks : List (BlockOverlay BlockHash Key)}

omit [DecidableEq Key]

section

variable (pushed : Pushed shape base blocks levels)

include pushed

theorem shaped : shape levels := by
  cases pushed with
  | nil shaped => exact shaped
  | push _ _ _ _ _ shaped => exact shaped

theorem base_shaped : shape base := by
  induction pushed with
  | nil shaped => exact shaped
  | push _ _ _ _ _ _ ih => exact ih

theorem flatten : levels.flatten.Perm (blocks ++ base.flatten) := by
  induction pushed with
  | nil _ => exact .refl _
  | push position overlay _ _ _ _ ih => exact (flatten_pushBlock _ _ _).trans (ih.cons _)

theorem base_prefix (index : Nat) : base.getD index [] <+: levels.getD index [] := by
  induction pushed with
  | nil _ => exact prefix_refl _
  | push position overlay _ within _ _ ih =>
    rw [getD_pushBlock _ _ _ within]
    split
    · exact ih.trans (prefix_append _ _)
    · exact ih

theorem mem_level {index : Nat} {overlay : BlockOverlay BlockHash Key}
    (mem : overlay ∈ levels.getD index []) : overlay ∈ base.getD index [] ∨ overlay ∈ blocks := by
  induction pushed with
  | nil _ => exact .inl mem
  | push position first _ within _ _ ih =>
    rw [getD_pushBlock _ _ _ within] at mem
    split at mem
    · rcases mem_append.mp mem with old | new
      · exact (ih old).imp_right (mem_cons_of_mem _)
      · exact .inr (by simpa using .inl (mem_singleton.mp new))
    · exact (ih mem).imp_right (mem_cons_of_mem _)

/-- An empty last level carries no pushed block: it can be taken off the base. -/
theorem dropLast (closed : ∀ levels count, shape levels → shape (levels.take count))
    (empty : levels.getLast? = some []) :
    base.getLast? = some [] ∧ Pushed shape base.dropLast blocks levels.dropLast := by
  have closedLast : ∀ levels, shape levels → shape levels.dropLast := fun levels shaped => by
    rw [dropLast_eq_take]
    exact closed levels _ shaped
  induction pushed with
  | nil shaped => exact ⟨empty, .nil (closedLast _ shaped)⟩
  | push position overlay earlier within fresh shaped ih =>
    rename_i pushedBlocks stage
    obtain ⟨mem, last, rest⟩ := dropLast_pushBlock stage position overlay within empty
    obtain ⟨baseLast, shorter⟩ := ih last
    have freshShorter : overlay.hash ∉ hashes stage.dropLast.flatten :=
      mt (hashes_mono (dropLast_sublist stage).flatten.subset ·) fresh
    refine ⟨baseLast, ?_⟩
    have shapedShorter := closedLast _ shaped
    rw [rest] at shapedShorter ⊢
    exact .push position overlay shorter (by rw [length_dropLast]; omega) freshShorter
      shapedShorter

end

end Pushed

/-! ## The whole revert -/

/-- **What a returned revert did, whatever the levels are.** It took a block for each hash out of
the levels, possibly with more blocks, and booked the blocks it looked for out. -/
theorem revert_cases
    (ran : pending.foldlM (fun (levels, books) hash => revertInsertion levels books hash)
      (levels, books) = .ok (left, after)) :
    ∃ popped kept, popped.map BlockOverlay.hash = pending ∧ levels.flatten.Perm (popped ++ kept) ∧
      left.flatten.Sublist kept ∧ after = discardOverlays ∅ books popped := by
  induction pending generalizing levels books with
  | nil =>
    cases ran
    exact ⟨[], left.flatten, rfl, .refl _, .refl _, rfl⟩
  | cons hash rest ih =>
    rw [foldlM_cons] at ran
    obtain ⟨⟨stage, booked⟩, round, later⟩ := bind_eq_ok.mp ran
    obtain ⟨overlay, others, same, first, smaller, rfl⟩ := revertInsertion_cases round
    obtain ⟨popped, kept, listed, parts, mem, rfl⟩ := ih later
    -- the blocks lost with the popped one stay on the kept side
    obtain ⟨lost, split⟩ := smaller.exists_perm_append
    refine ⟨overlay :: popped, kept ++ lost, by simp [same, listed], ?_,
      mem.trans (sublist_append_left _ _), rfl⟩
    have moved : (stage.flatten ++ lost).Perm (popped ++ (kept ++ lost)) := by
      rw [← append_assoc]
      exact parts.append_right lost
    exact first.trans ((split.trans moved).cons _)

section Empty

omit [DecidableEq BlockHash] [DecidableEq Key]

theorem getD_concat_nil (index : Nat) : (levels ++ [[]]).getD index [] = levels.getD index [] := by
  rcases lt_trichotomy index levels.length with mem | last | beyond
  · simp [List.getD, List.getElem?_append_left mem]
  · simp [List.getD, last]
  · simp [List.getD, List.getElem?_append, Nat.not_lt_of_gt beyond,
      Nat.ne_of_gt (Nat.sub_pos_of_lt beyond)]

theorem flatten_drop_concat_nil (index : Nat) :
    ((levels ++ [[]]).drop index).flatten = (levels.drop index).flatten := by
  rw [drop_append, flatten_append]
  have bare : (([[]] : Levels BlockHash Key).drop (index - levels.length)).flatten = [] := by
    cases index - levels.length <;> simp
  rw [bare, append_nil]

variable {levels : Levels BlockHash Key}

theorem getD_of_flatten_drop {index : Nat} (bare : (levels.drop index).flatten = []) (above : Nat)
    (higher : index ≤ above) : levels.getD above [] = [] := by
  by_contra stocked
  obtain ⟨overlay, here⟩ := exists_mem_of_ne_nil _ stocked
  have mem := mem_flatten_drop.mpr ⟨above, higher, here⟩
  rw [bare] at mem
  cases mem

theorem take_of_concat_nil {levels : Levels BlockHash Key} {count : Nat}
    (rest : (levels.drop count).flatten = []) :
    ∃ total, levels.take count = (levels ++ [[]]).take total ∧
      ((levels ++ [[]]).drop total).flatten = [] := by
  refine ⟨min count levels.length, ?_, ?_⟩
  · rw [take_append_of_le_length (min_le_right _ _), take_eq_take_min]
  · rw [flatten_drop_concat_nil]
    rcases le_total count levels.length with short | long
    · rw [min_eq_left short, rest]
    · rw [min_eq_right long, drop_length]
      rfl

theorem emptied_cases (levels : Levels BlockHash Key) (position : Nat) :
    emptied levels position = levels ∨ (position < levels.length ∧
      levels.getD position [] = [] ∧ emptied levels position = levels.dropLast) := by
  unfold emptied
  split
  · rename_i alone
    exact .inr ⟨alone.1, alone.2, rfl⟩
  · exact .inl rfl

theorem Unbroken.take (unbroken : Unbroken levels) (count : Nat) :
    Unbroken (levels.take count) := by
  intro index bare
  rcases lt_or_ge index count with low | high
  · have above := unbroken index (by
      rw [List.getD, List.getElem?_take_of_lt low] at bare
      exact bare)
    rw [flatten_eq_nil_iff] at above ⊢
    intro level mem
    rw [drop_take] at mem
    exact above level (mem_of_mem_take mem)
  · rw [drop_eq_nil_of_le (le_trans (length_take_le _ _) high)]
    rfl

end Empty

/-- **A revert that returns.** When the base has no block at or above any of its empty levels
that received a block, the revert leaves the base without some of its last empty levels, and
books every pushed block out. -/
theorem revert_pushed {shape : Levels BlockHash Key → Prop}
    (closed : ∀ levels count, shape levels → shape (levels.take count))
    (pushed : Pushed shape base blocks levels) (distinct : Distinct levels.flatten)
    (topped : ∀ index, base.getD index [] = [] → levels.getD index [] ≠ [] →
      (base.drop index).flatten = []) (ran : (blocks.map BlockOverlay.hash).foldlM
      (fun (levels, books) hash => revertInsertion levels books hash) (levels, books) =
        .ok (left, after)) :
    (∃ count, left = base.take count ∧ (base.drop count).flatten = []) ∧
      after = discardOverlays ∅ books blocks := by
  induction blocks generalizing base levels books with
  | nil =>
    cases pushed
    cases ran
    exact ⟨⟨left.length, by simp, by simp⟩, rfl⟩
  | cons overlay rest ih =>
    cases pushed with
    | push position _ earlier within fresh shaped =>
      rename_i stage
      have distinctStage : Distinct stage.flatten :=
        (nodup_cons.mp (distinct.perm (flatten_pushBlock stage position overlay))).2
      have here := getD_pushBlock stage position overlay within
      simp only [map_cons, foldlM_cons,
        revertInsertion_pushBlock stage position overlay within fresh books] at ran
      split at ran
      · simp only [bind, Except.bind] at ran
        rcases emptied_cases stage position with kept | ⟨mem, alone, shorter⟩
        · rw [kept] at ran
          refine ih earlier distinctStage (fun index bare full => topped index bare ?_) ran
          rw [here index]
          split
          · simp
          · exact full
        · have bareHere : base.getD position [] = [] := by
            have start := earlier.base_prefix position
            rwa [alone, prefix_nil] at start
          have bareAbove := topped position bareHere
            (getD_pushBlock_ne_nil stage position overlay within)
          obtain ⟨front, last, rfl⟩ : ∃ front last, stage = front ++ [last] :=
            ⟨_, _, (dropLast_append_getLast (ne_nil_of_length_pos
              (zero_lt_of_lt mem))).symm⟩
          rw [shorter, dropLast_concat] at ran
          by_cases empty : last = []
          · subst empty
            obtain ⟨baseLast, pushedShorter⟩ := earlier.dropLast closed (by simp)
            obtain ⟨baseFront, rfl⟩ := List.getLast?_eq_some_iff.mp baseLast
            rw [dropLast_concat, dropLast_concat] at pushedShorter
            obtain ⟨⟨count, rfl, above⟩, booked⟩ := ih pushedShorter
              (by simpa [flatten_append] using distinctStage)
              (fun index bare full => by
                rw [← flatten_drop_concat_nil]
                refine topped index (by rw [getD_concat_nil]; exact bare) ?_
                rw [here index, getD_concat_nil]
                split
                · simp
                · exact full)
              ran
            exact ⟨take_of_concat_nil above, booked⟩
          · -- the last level holds only pushed blocks, and the revert still looks for them
            exfalso
            obtain ⟨lost, member⟩ := exists_mem_of_ne_nil _ empty
            have level : (front ++ [last]).getD front.length [] = last := by simp
            have bareLast : base.getD front.length [] = [] :=
              getD_of_flatten_drop bareAbove _ (by simpa [Nat.lt_succ_iff] using mem)
            have listed : lost ∈ rest := by
              rcases earlier.mem_level (by rw [level]; exact member) with
                settled | listed
              · rw [bareLast] at settled
                cases settled
              · exact listed
            obtain ⟨popped, kept, same, parts, -⟩ := revert_cases ran
            obtain ⟨overlay, mem, equal⟩ := mem_map.mp (same ▸ mem_map_of_mem listed)
            rw [flatten_append] at distinctStage
            exact Distinct.notMem_hashes distinctStage (by simpa using member)
              (mem_hashes.mpr ⟨overlay, parts.mem_iff.mpr (mem_append_left _ mem), equal⟩)
      · cases ran

/-- **A revert of unbroken levels returns.** -/
theorem revert_unbroken (books : Books BlockHash Key)
    (pushed : Pushed Unbroken base blocks levels) :
    ∃ left after, (blocks.map BlockOverlay.hash).foldlM
      (fun (levels, books) hash => revertInsertion levels books hash) (levels, books) =
        .ok (left, after) := by
  induction blocks generalizing base levels books with
  | nil => exact ⟨levels, books, rfl⟩
  | cons overlay rest ih =>
    cases pushed with
    | push position _ earlier within fresh unbroken =>
      rename_i stage
      have here := getD_pushBlock stage position overlay within
      have solid : ∀ level ∈ stage.take position, level ≠ [] := by
        rintro level member rfl
        obtain ⟨index, low, found⟩ := mem_take_iff_getElem.mp member
        have bare : (pushBlock stage position overlay).getD index [] = [] := by
          rw [here index, if_neg (by omega)]
          simp [List.getD, found, show index < stage.length by omega]
        exact getD_pushBlock_ne_nil stage position overlay within
          (getD_of_flatten_drop (unbroken index bare) position (by omega))
      simp only [map_cons, foldlM_cons,
        revertInsertion_pushBlock stage position overlay within fresh books, if_pos solid, bind,
        Except.bind]
      rcases emptied_cases stage position with kept | ⟨mem, alone, shorter⟩
      · rw [kept]
        exact ih _ earlier
      · have bareLast : stage.getLast? = some [] := by
          have level := getD_of_flatten_drop (earlier.shaped position alone) (stage.length - 1)
            (by omega)
          rw [List.getLast?_eq_getElem?]
          simpa [List.getD, show stage.length - 1 < stage.length by omega] using level
        rw [shorter]
        exact ih _ (earlier.dropLast (fun _ count shaped => shaped.take count) bareLast).2

end Brace.StateDb
