import Brace.StateDb.ValueCounts

/-!
# What a canonicalization discards

`discard_descendants` walks the levels depth first and edits four tables on the way. Its effect
has a closed form over the parent function: `prune` is the tree without the descendants of a set
of dead blocks, computed one level after the other, and `doomed` lists the blocks it removes.
`discardDescendants_eq` and `applyCanonicalization_eq` state that the source computes exactly
this, and books every removed overlay out once.
-/

namespace Brace.StateDb

open Brace.Lib List NonCanonicalOverlay

variable {BlockHash Key : Type} [DecidableEq BlockHash]

variable (parent : BlockHash → Option BlockHash)

/-- The block has a dead parent. -/
def childOf (dead : Finset BlockHash) (overlay : BlockOverlay BlockHash Key) : Bool :=
  match parent overlay.hash with
  | some hash => hash ∈ dead
  | none => false

def hashes (blocks : List (BlockOverlay BlockHash Key)) : Finset BlockHash :=
  (blocks.map BlockOverlay.hash).toFinset

/-- The levels without the descendants of the dead blocks. -/
def prune : Finset BlockHash → Levels BlockHash Key → Levels BlockHash Key
  | _, [] => []
  | dead, level :: above =>
    level.filter (fun overlay => !childOf parent dead overlay) ::
      prune (hashes (level.filter (childOf parent dead))) above

/-- The descendants of the dead blocks, level by level. -/
def doomed : Finset BlockHash → Levels BlockHash Key → List (BlockOverlay BlockHash Key)
  | _, [] => []
  | dead, level :: above =>
    level.filter (childOf parent dead) ++
      doomed (hashes (level.filter (childOf parent dead))) above

variable {parent : BlockHash → Option BlockHash}

variable {blocks : List (BlockOverlay BlockHash Key)} {α : Type} {books : Books BlockHash Key}

variable {hash : BlockHash} {dead : Finset BlockHash} {levels : Levels BlockHash Key}
  {gone kept : List (BlockOverlay BlockHash Key)}

theorem mem_hashes : hash ∈ hashes blocks ↔ ∃ overlay ∈ blocks, overlay.hash = hash := by
  simp [hashes]

variable {overlay : BlockOverlay BlockHash Key}

theorem mem_hashes_of_mem (mem : overlay ∈ blocks) : overlay.hash ∈ hashes blocks :=
  mem_hashes.mpr ⟨overlay, mem, rfl⟩

theorem hashes_mono (sub : gone ⊆ blocks) : hashes gone ⊆ hashes blocks := by
  intro hash member
  obtain ⟨overlay, mem, rfl⟩ := mem_hashes.mp member
  exact mem_hashes_of_mem (sub mem)

theorem mem_hashes_cons :
    hash ∈ hashes (overlay :: blocks) ↔ hash = overlay.hash ∨ hash ∈ hashes blocks := by
  simp [hashes]

theorem prune_length (dead : Finset BlockHash) (levels : Levels BlockHash Key) :
    (prune parent dead levels).length = levels.length := by
  induction levels generalizing dead with
  | nil => rfl
  | cons level above ih => simp [prune, ih]

variable (level : List (BlockOverlay BlockHash Key))

section

variable (left right : Finset BlockHash)

theorem childOf_iff {dead : Finset BlockHash} : childOf parent dead overlay = true ↔
    ∃ father ∈ dead, parent overlay.hash = some father := by
  unfold childOf
  cases parent overlay.hash <;> simp

variable (overlay)

theorem childOf_union :
    childOf parent (left ∪ right) overlay =
      (childOf parent left overlay || childOf parent right overlay) := by
  unfold childOf
  split <;> simp

theorem childOf_empty : childOf parent ∅ overlay = false := by
  unfold childOf
  split <;> simp

variable {overlay}

theorem filter_childOf_empty : level.filter (childOf parent ∅) = [] :=
  filter_eq_nil_iff.mpr fun overlay _ => by simp [childOf_empty]

variable (levels : Levels BlockHash Key)

theorem prune_empty : prune parent ∅ levels = levels := by
  induction levels with
  | nil => rfl
  | cons level above ih =>
    simp [prune, childOf_empty, filter_childOf_empty, hashes, ih]

theorem hashes_children_union :
    hashes (level.filter (childOf parent (left ∪ right))) =
      hashes (level.filter (childOf parent left)) ∪
        hashes ((level.filter fun overlay => !childOf parent left overlay).filter
          (childOf parent right)) := by
  ext hash
  simp only [mem_hashes, mem_filter, childOf_union, Finset.mem_union, Bool.or_eq_true,
    Bool.not_eq_true']
  constructor
  · rintro ⟨overlay, ⟨mem, dies⟩, rfl⟩
    cases first : childOf parent left overlay with
    | true => exact .inl ⟨overlay, ⟨mem, first⟩, rfl⟩
    | false =>
      rw [first] at dies
      exact .inr ⟨overlay, ⟨⟨mem, first⟩, by simpa using dies⟩, rfl⟩
  · rintro (⟨overlay, ⟨mem, dies⟩, rfl⟩ | ⟨overlay, ⟨⟨mem, _⟩, dies⟩, rfl⟩)
    · exact ⟨overlay, ⟨mem, .inl dies⟩, rfl⟩
    · exact ⟨overlay, ⟨mem, .inr dies⟩, rfl⟩

theorem perm_exchange (first second third fourth : List α) :
    (first ++ second ++ (third ++ fourth)).Perm (first ++ third ++ (second ++ fourth)) := by
  rw [append_assoc, append_assoc]
  exact List.Perm.append_left _ (perm_append_comm_assoc _ _ _)

theorem prune_union :
    prune parent (left ∪ right) levels = prune parent right (prune parent left levels) := by
  induction levels generalizing left right with
  | nil => rfl
  | cons level above ih =>
    simp only [prune, hashes_children_union, ih, List.cons.injEq, and_true]
    rw [filter_filter]
    apply filter_congr
    intro overlay _
    simp [childOf_union, Bool.and_comm]

/-- The blocks of the levels are those that are booked out and those that pruning leaves. -/
abbrev Parted (parent : BlockHash → Option BlockHash) (dead : Finset BlockHash)
    (levels : Levels BlockHash Key) (gone : List (BlockOverlay BlockHash Key)) : Prop :=
  levels.flatten.Perm (gone ++ (prune parent dead levels).flatten)

variable {left right levels}

end

theorem flatten_perm_prune (parent : BlockHash → Option BlockHash) (dead : Finset BlockHash)
    (levels : Levels BlockHash Key) :
    levels.flatten.Perm ((prune parent dead levels).flatten ++ doomed parent dead levels) := by
  induction levels generalizing dead with
  | nil => exact .refl _
  | cons level above ih =>
    simp only [prune, doomed, flatten_cons]
    have parts := (filter_append_perm (childOf parent dead) level).symm.trans
      perm_append_comm
    exact (parts.append (ih (hashes (level.filter (childOf parent dead))))).trans
      (perm_exchange _ _ _ _)

/-! ## Booking out a list of overlays -/

variable [DecidableEq Key] {pinned : HashMap BlockHash Nat}

/-- Book out a list of overlays, one after the other. -/
def discardOverlays (pinned : HashMap BlockHash Nat) (books : Books BlockHash Key)
    (gone : List (BlockOverlay BlockHash Key)) : Books BlockHash Key :=
  gone.foldl (discardOverlay pinned) books

theorem lookup_parents_discardOverlay (books : Books BlockHash Key)
    (overlay : BlockOverlay BlockHash Key) (hash : BlockHash) :
    (discardOverlay pinned books overlay).parents.lookup hash =
      if hash = overlay.hash ∧ overlay.hash ∉ pinned then none
      else books.parents.lookup hash := by
  unfold discardOverlay
  by_cases kept : overlay.hash ∈ pinned
  · simp [kept]
  · simp [kept, HashMap.lookup_erase_eq]

theorem lookup_parents_discardOverlays (books : Books BlockHash Key)
    (gone : List (BlockOverlay BlockHash Key)) (hash : BlockHash) :
    (discardOverlays pinned books gone).parents.lookup hash =
      if hash ∈ hashes gone ∧ hash ∉ pinned then none else books.parents.lookup hash := by
  induction gone generalizing books with
  | nil => simp [discardOverlays, hashes]
  | cons overlay rest ih =>
    change (discardOverlays pinned (discardOverlay pinned books overlay) rest).parents.lookup hash
      = _
    rw [ih, lookup_parents_discardOverlay]
    by_cases first : hash = overlay.hash
    · subst first
      by_cases kept : overlay.hash ∈ pinned <;> simp [kept, mem_hashes_cons]
    · by_cases later : hash ∈ hashes rest <;> simp [first, later, mem_hashes_cons]

theorem mem_saved_discardOverlays (pinned : HashMap BlockHash Nat) (books : Books BlockHash Key)
    (gone : List (BlockOverlay BlockHash Key)) (hash : BlockHash) :
    hash ∈ (discardOverlays pinned books gone).pinnedInsertions ↔
      hash ∈ books.pinnedInsertions ∨ (hash ∈ hashes gone ∧ hash ∈ pinned) := by
  induction gone generalizing books with
  | nil => simp [discardOverlays, hashes]
  | cons overlay rest ih =>
    change hash ∈ (discardOverlays pinned (discardOverlay pinned books overlay)
      rest).pinnedInsertions ↔ _
    rw [ih, mem_hashes_cons, discardOverlay]
    by_cases first : hash = overlay.hash
    · subst first
      by_cases held : overlay.hash ∈ pinned <;> simp [held]
    · split <;> simp [first]

theorem Positive.discardOverlays (pos : Positive books.values)
    (gone : List (BlockOverlay BlockHash Key)) :
    Positive (discardOverlays pinned books gone).values := by
  induction gone generalizing books with
  | nil => exact pos
  | cons overlay rest ih =>
    refine ih ?_
    unfold discardOverlay
    split
    · exact pos
    · exact pos.discardValues _

/-! ## The walk of the source -/

/-- The parent entries of the blocks are those of the parent function. -/
def Agrees (parent : BlockHash → Option BlockHash) (parents : HashMap BlockHash BlockHash)
    (blocks : List (BlockOverlay BlockHash Key)) : Prop :=
  ∀ overlay ∈ blocks, ∃ hash, Finmap.lookup overlay.hash parents = some hash ∧
    parent overlay.hash = some hash

/-- The hashes of a list of blocks are pairwise different. -/
def Distinct (blocks : List (BlockOverlay BlockHash Key)) : Prop :=
  (blocks.map BlockOverlay.hash).Nodup

section

omit [DecidableEq BlockHash] [DecidableEq Key]

variable {left right : List (BlockOverlay BlockHash Key)}

theorem Distinct.perm (distinct : Distinct left) (same : left.Perm right) : Distinct right :=
  (same.map _).nodup_iff.mp distinct

theorem Distinct.part (distinct : Distinct right) (part : left.Sublist right) : Distinct left :=
  List.Nodup.sublist (part.map _) distinct

theorem Distinct.apart (distinct : Distinct (left ++ right)) :
    ∀ first ∈ left, ∀ second ∈ right, first.hash ≠ second.hash := by
  rw [Distinct, map_append, nodup_append] at distinct
  exact fun first inLeft second inRight =>
    distinct.2.2 _ (mem_map_of_mem inLeft) _ (mem_map_of_mem inRight)

end

omit [DecidableEq Key] in
theorem Distinct.notMem_hashes
    (distinct : Distinct (gone ++ kept)) (mem : overlay ∈ kept) : overlay.hash ∉ hashes gone := by
  intro removed
  obtain ⟨other, there, same⟩ := mem_hashes.mp removed
  exact distinct.apart other there overlay mem same

theorem Agrees.discardOverlays (agrees : Agrees parent books.parents blocks)
    (distinct : Distinct (gone ++ blocks)) :
    Agrees parent (discardOverlays pinned books gone).parents blocks := by
  intro overlay mem
  obtain ⟨hash, stored, given⟩ := agrees overlay mem
  refine ⟨hash, ?_, given⟩
  have outside := distinct.notMem_hashes mem
  rw [lookup_parents_discardOverlays, if_neg (fun both => outside both.1), stored]

theorem Agrees.leave (agrees : Agrees parent books.parents blocks) (pinned : HashMap BlockHash Nat)
    (distinct : Distinct blocks) (parts : blocks.Perm (gone ++ kept)) :
    Agrees parent (StateDb.discardOverlays pinned books gone).parents kept ∧ Distinct kept := by
  have apart := distinct.perm parts
  exact ⟨Agrees.discardOverlays (fun overlay mem => agrees overlay
    (parts.mem_iff.mpr (mem_append_right _ mem))) apart,
    apart.part (sublist_append_right _ _)⟩

/-- The filter over one level keeps the blocks that are not children of the hash and books out
the children. -/
theorem discardChildren_eq (hash : BlockHash) (level : List (BlockOverlay BlockHash Key))
    (books : Books BlockHash Key) (agrees : Agrees parent books.parents level)
    (distinct : Distinct level) :
    discardChildren pinned hash level books =
      .ok (level.filter (fun overlay => !childOf parent {hash} overlay),
        (level.filter (childOf parent {hash})).map BlockOverlay.hash,
        discardOverlays pinned books (level.filter (childOf parent {hash}))) := by
  induction level generalizing books with
  | nil => rfl
  | cons overlay rest ih =>
    have tail : Distinct rest := distinct.part (sublist_cons_self _ _)
    have agreesRest : Agrees parent books.parents rest :=
      fun other mem => agrees other (mem_cons_of_mem _ mem)
    obtain ⟨father, stored, given⟩ := agrees overlay mem_cons_self
    have child : childOf parent {hash} overlay = decide (father = hash) := by
      simp [childOf, given]
    by_cases same : father = hash
    · have booked := ih (discardOverlay pinned books overlay)
        (agreesRest.discardOverlays (show Distinct ([overlay] ++ rest) from distinct)) tail
      simp [discardChildren, stored, same, booked, child, StateDb.discardOverlays, bind,
        Except.bind]
    · have booked := ih books agreesRest tail
      simp [discardChildren, stored, same, booked, child, bind, Except.bind]

/-- Discarding below a list of hashes, one after the other. `step` is the recursive call at the
next level; it is correct for a single hash. -/
theorem foldlM_discard_eq (size : Nat) (lower : Levels BlockHash Key)
    (step : Levels BlockHash Key → Books BlockHash Key → BlockHash →
      Except Panic (Levels BlockHash Key × Books BlockHash Key))
    (correct : ∀ upper books hash, upper.length ≤ size → Agrees parent books.parents upper.flatten →
      Distinct upper.flatten →
      ∃ gone, step (lower ++ upper) books hash = .ok (lower ++ prune parent {hash} upper,
        discardOverlays pinned books gone) ∧ Parted parent {hash} upper gone)
    (dead : List BlockHash) (upper : Levels BlockHash Key) (books : Books BlockHash Key)
    (sized : upper.length ≤ size) (agrees : Agrees parent books.parents upper.flatten)
    (distinct : Distinct upper.flatten) :
    ∃ gone, dead.foldlM (fun (levels, books) hash => step levels books hash)
        (lower ++ upper, books) =
        .ok (lower ++ prune parent dead.toFinset upper, discardOverlays pinned books gone) ∧
      Parted parent dead.toFinset upper gone := by
  induction dead generalizing upper books with
  | nil => exact ⟨[], by simp [prune_empty, discardOverlays, pure, Except.pure],
      by simp [Parted, prune_empty]⟩
  | cons hash rest ih =>
    obtain ⟨first, ran, parted⟩ := correct upper books hash sized agrees distinct
    obtain ⟨agreesLeft, distinctLeft⟩ := agrees.leave pinned distinct parted
    obtain ⟨later, folded, partedLater⟩ := ih (prune parent {hash} upper)
      (discardOverlays pinned books first) (by rwa [prune_length]) agreesLeft distinctLeft
    refine ⟨first ++ later, ?_, ?_⟩
    · simp only [foldlM_cons, ran, bind, Except.bind, folded, toFinset_cons, Finset.insert_eq,
        prune_union]
      simp [discardOverlays]
    · rw [toFinset_cons, Finset.insert_eq, Parted, prune_union, append_assoc]
      exact parted.trans (partedLater.append_left _)

section

variable (pinned : HashMap BlockHash Nat)

/-- **`discard_descendants` computes the closed form.** Above the lower levels it removes the
descendants of the hash, and it books each of them out once. -/
theorem discardDescendants_eq (left : Nat) (lower upper : Levels BlockHash Key)
    (books : Books BlockHash Key) (hash : BlockHash) (bound : upper.length ≤ left)
    (agrees : Agrees parent books.parents upper.flatten) (distinct : Distinct upper.flatten) :
    ∃ gone, discardDescendants pinned left (lower ++ upper) books lower.length hash =
        .ok (lower ++ prune parent {hash} upper, discardOverlays pinned books gone) ∧
      Parted parent {hash} upper gone := by
  induction left generalizing lower upper books hash with
  | zero =>
    obtain rfl := length_eq_zero_iff.mp (Nat.le_zero.mp bound)
    exact ⟨[], rfl, .refl _⟩
  | succ left ih =>
    cases upper with
    | nil => exact ⟨[], by simp [discardDescendants, prune, discardOverlays], .refl _⟩
    | cons level above =>
      rw [flatten_cons] at agrees distinct
      have agreesLevel : Agrees parent books.parents level :=
        fun overlay member => agrees overlay (mem_append_left _ member)
      have agreesAbove : Agrees parent books.parents above.flatten :=
        fun overlay member => agrees overlay (mem_append_right _ member)
      obtain ⟨kept, keptEq⟩ : ∃ kept, kept = level.filter fun overlay =>
        !childOf parent {hash} overlay := ⟨_, rfl⟩
      obtain ⟨gone, folded, parted⟩ := foldlM_discard_eq left (lower ++ [kept])
        (fun levels books hash => discardDescendants pinned left levels books (lower.length + 1)
          hash)
        (fun upper books hash sized agrees distinct => by
          simpa using ih (lower ++ [kept]) upper books hash sized agrees distinct)
        ((level.filter (childOf parent {hash})).map BlockOverlay.hash) above
        (discardOverlays pinned books (level.filter (childOf parent {hash})))
        (Nat.le_of_succ_le_succ bound)
        (agreesAbove.discardOverlays (distinct.part (filter_sublist.append_right _)))
        (distinct.part (sublist_append_right _ _))
      refine ⟨level.filter (childOf parent {hash}) ++ gone, ?_, ?_⟩
      · have ran : discardChildren pinned hash level books = _ :=
          discardChildren_eq hash level books agreesLevel (distinct.part (sublist_append_left _ _))
        simp only [append_assoc, singleton_append] at folded
        simp [discardDescendants, ran, bind, Except.bind, ← keptEq, folded, prune, hashes]
        simp [discardOverlays]
      · exact ((filter_append_perm (childOf parent {hash}) _).symm.append parted).trans
          (perm_exchange _ _ _ _)

/-! ## One canonicalized block -/

omit [DecidableEq Key] in
theorem index_ne_findIdx_iff {level : List (BlockOverlay BlockHash Key)} (distinct : Distinct level)
    {hash : BlockHash} {overlay : BlockOverlay BlockHash Key} {index : Nat}
    (mem : (overlay, index) ∈ level.zipIdx) (chosen : hash ∈ hashes level) :
    index ≠ level.findIdx (fun overlay => overlay.hash = hash) ↔ overlay.hash ≠ hash := by
  obtain ⟨target, member, same⟩ := mem_hashes.mp chosen
  have found : level.findIdx (fun overlay => overlay.hash = hash) < level.length :=
    findIdx_lt_length_of_exists ⟨target, member, by simpa using same⟩
  have first := findIdx_getElem (w := found)
  simp only [decide_eq_true_eq] at first
  obtain ⟨bound, here⟩ := List.getElem?_eq_some_iff.mp (mem_zipIdx_iff_getElem?.mp mem)
  constructor
  · intro ne equal
    apply ne
    have hashesAgree : (level.map BlockOverlay.hash)[index]? =
        (level.map BlockOverlay.hash)[level.findIdx fun overlay => overlay.hash = hash]? := by
      simp [bound, found, here, first, equal]
    exact (List.getElem?_inj (by simpa using bound) distinct).mp hashesAgree
  · rintro ne rfl
    exact ne (by rw [← first]; exact congrArg _ here.symm)

theorem foldlM_zipIdx_eq {β ε : Type} {numbered : β → α × Nat → Except ε β}
    {plain : β → α → Except ε β} (elements : List α) {start : Nat} (same : ∀ element ∈
      elements.zipIdx start, ∀ state, numbered state element = plain state element.1) (state : β) :
    (elements.zipIdx start).foldlM numbered state = elements.foldlM plain state := by
  induction elements generalizing start state with
  | nil => rfl
  | cons element rest ih =>
    rw [zipIdx_cons, foldlM_cons, foldlM_cons, same _ mem_cons_self]
    exact bind_congr fun next => ih (fun other mem => same other (mem_cons_of_mem _ mem)) next

theorem foldlM_level_eq (hash : BlockHash) (members : List (BlockOverlay BlockHash Key))
    (above : Levels BlockHash Key) (books : Books BlockHash Key)
    (agrees : Agrees parent books.parents above.flatten)
    (distinct : Distinct (members ++ above.flatten)) :
    ∃ gone, members.foldlM (fun (above, books) overlay => do
        let (above, books) ← (if overlay.hash ≠ hash then
            discardDescendants pinned above.length above books 0 overlay.hash
          else .ok (above, books))
        .ok (above, discardOverlay pinned books overlay)) (above, books) =
        .ok (prune parent ((hashes members).erase hash) above,
          discardOverlays pinned books gone) ∧
      (members ++ above.flatten).Perm
        (gone ++ (prune parent ((hashes members).erase hash) above).flatten) := by
  induction members generalizing above books with
  | nil =>
    refine ⟨[], ?_, ?_⟩
    · simp [hashes, prune_empty, discardOverlays, pure, Except.pure]
    · simp [hashes, prune_empty]
  | cons overlay rest ih =>
    obtain ⟨dead, deadEq⟩ : ∃ dead, dead = ({overlay.hash} : Finset BlockHash).erase hash :=
      ⟨_, rfl⟩
    have distinctAbove := distinct.part (sublist_append_right _ _)
    -- what one round does to the levels above, whether or not the block is the chosen one
    obtain ⟨gone, walked, booked⟩ : ∃ gone, (if overlay.hash ≠ hash then
          discardDescendants pinned above.length above books 0 overlay.hash
        else .ok (above, books)) =
          .ok (prune parent dead above, discardOverlays pinned books gone) ∧
        Parted parent dead above gone := by
      by_cases chosen : overlay.hash = hash
      · refine ⟨[], ?_, ?_⟩
        · simp [deadEq, chosen, prune_empty, discardOverlays]
        · simp [deadEq, chosen, Parted, prune_empty]
      · have single : dead = {overlay.hash} := by
          rw [deadEq, Finset.erase_eq_of_notMem]
          simpa using Ne.symm chosen
        rw [if_pos chosen, single]
        exact discardDescendants_eq pinned above.length [] above books overlay.hash (Nat.le_refl _)
          agrees distinctAbove
    have total := (booked.append_left (overlay :: rest)).trans (perm_append_comm_assoc _ _ _)
    have left := (distinct.perm total).part (sublist_append_right _ _)
    obtain ⟨later, folded, bookedLater⟩ := ih (prune parent dead above)
      (discardOverlays pinned (discardOverlays pinned books gone) [overlay])
      ((agrees.leave pinned distinctAbove booked).1.discardOverlays
        (left.part ((sublist_append_right _ _).cons_cons overlay)))
      (left.part (sublist_cons_self _ _))
    have split : (hashes (overlay :: rest)).erase hash = dead ∪ (hashes rest).erase hash := by
      rw [deadEq, hashes, map_cons, toFinset_cons, Finset.insert_eq, Finset.erase_union_distrib]
      rfl
    refine ⟨gone ++ [overlay] ++ later, ?_, ?_⟩
    · simp only [foldlM_cons, walked, bind, Except.bind, split, prune_union]
      simp only [bind, Except.bind] at folded
      refine folded.trans ?_
      simp [discardOverlays]
    · simp only [split, prune_union, append_assoc, singleton_append]
      exact total.trans ((bookedLater.cons overlay).append_left gone)

/-- **One round of `apply_canonicalizations`.** With a block of the first level chosen, the
rest of that level and all its descendants go, and every removed block is booked out once. -/
theorem applyCanonicalization_eq (above : Levels BlockHash Key) (books : Books BlockHash Key)
    (hash : BlockHash) (chosen : hash ∈ hashes level)
    (agrees : Agrees parent books.parents above.flatten)
    (distinct : Distinct (level ++ above.flatten)) :
    ∃ gone, applyCanonicalization pinned (level :: above) books hash =
        .ok (prune parent ((hashes level).erase hash) above, discardOverlays pinned books gone) ∧
      (level ++ above.flatten).Perm
        (gone ++ (prune parent ((hashes level).erase hash) above).flatten) := by
  obtain ⟨gone, folded, booked⟩ := foldlM_level_eq pinned hash level above books
    agrees distinct
  refine ⟨gone, ?_, booked⟩
  obtain ⟨target, member, same⟩ := mem_hashes.mp chosen
  have present : (level.any fun overlay => decide (overlay.hash = hash)) = true :=
    any_eq_true.mpr ⟨target, member, by simpa using same⟩
  unfold applyCanonicalization
  simp only [present, ↓reduceIte]
  rw [← folded]
  apply foldlM_zipIdx_eq
  rintro ⟨overlay, index⟩ mem ⟨levels, books⟩
  have position := index_ne_findIdx_iff (distinct.part (sublist_append_left _ _)) mem chosen
  simp only [position]

end

theorem applyCanonicalization_absent (above : Levels BlockHash Key) (books : Books BlockHash Key)
    (hash : BlockHash) (absent : hash ∉ hashes level) :
    applyCanonicalization pinned (level :: above) books hash =
      .error .hashValidity := by
  have missing : (level.any fun overlay => decide (overlay.hash = hash)) = false := by
    rw [any_eq_false]
    intro overlay mem same
    exact absent (mem_hashes.mpr ⟨overlay, mem, by simpa using same⟩)
  unfold applyCanonicalization
  simp only [missing, Bool.false_eq_true, ↓reduceIte]

/-! ## A list of canonicalized blocks -/

/-- The levels left after canonicalizing a list of blocks, one from each of the first levels, or
`none` when one of them is not there any more. -/
def settle (parent : BlockHash → Option BlockHash) :
    List BlockHash → Levels BlockHash Key → Option (Levels BlockHash Key)
  | [], levels => some levels
  | _ :: _, [] => none
  | hash :: rest, level :: above =>
    if hash ∈ hashes level then settle parent rest (prune parent ((hashes level).erase hash) above)
    else none

/-- **The loop of `apply_canonicalizations`.** It succeeds exactly when the blocks can be
settled, leaves the settled levels and books out every other block once. -/
theorem foldlM_applyCanonicalization (pinned : HashMap BlockHash Nat) (pending : List BlockHash)
    (levels : Levels BlockHash Key) (books : Books BlockHash Key)
    (agrees : Agrees parent books.parents levels.flatten) (distinct : Distinct levels.flatten) :
    match settle parent pending levels with
    | some settled => ∃ gone, pending.foldlM (fun (levels, books) hash =>
          applyCanonicalization pinned levels books hash) (levels, books) =
          .ok (settled, discardOverlays pinned books gone) ∧
        levels.flatten.Perm (gone ++ settled.flatten)
    | none => pending.foldlM (fun (levels, books) hash =>
          applyCanonicalization pinned levels books hash) (levels, books) =
        .error .hashValidity := by
  induction pending generalizing levels books with
  | nil => exact ⟨[], rfl, .refl _⟩
  | cons hash rest ih =>
    cases levels with
    | nil => rfl
    | cons level above =>
      by_cases chosen : hash ∈ hashes level
      · rw [flatten_cons] at agrees distinct
        have agreesAbove : Agrees parent books.parents above.flatten :=
          fun overlay mem => agrees overlay (mem_append_right _ mem)
        obtain ⟨first, ran, removed⟩ := applyCanonicalization_eq level pinned above
          books hash chosen agreesAbove distinct
        obtain ⟨agreesLeft, distinctLeft⟩ := agrees.leave pinned distinct removed
        have later := ih (prune parent ((hashes level).erase hash) above)
          (discardOverlays pinned books first) agreesLeft distinctLeft
        rw [settle, if_pos chosen]
        split <;> rename_i result <;> rw [result] at later
        · obtain ⟨gone, folded, rest⟩ := later
          refine ⟨first ++ gone, ?_, ?_⟩
          · simp only [foldlM_cons, ran, bind, Except.bind, folded]
            simp [discardOverlays]
          · rw [append_assoc]
            exact removed.trans (List.Perm.append_left _ rest)
        · simp only [foldlM_cons, ran, bind, Except.bind]
          exact later
      · rw [settle, if_neg chosen]
        simp only [foldlM_cons, applyCanonicalization_absent level above books hash chosen,
          bind, Except.bind]

end Brace.StateDb
