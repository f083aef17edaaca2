import Brace.StateDb.NonCanonicalRun
import Brace.StateDb.TreeShape

/-!
# The forest of a running window

`Forest` is the invariant that the levels of a window are a forest and that its pending blocks
were pushed onto one. It holds in every run in which a block is inserted only when its parent is
stored in the level right below (`ParentBelow`); `insert` checks only that the parent is known.
From it follow, each under a condition on the calls, that the tree has the shape that the source
takes for granted (`tree_shape`), and that no `expect` of an insertion, of `apply_pending` or of
`revert_pending` fails (`never_panics`).
-/

namespace Brace.StateDb.NonCanonicalOverlay

open Brace.Lib List NonCanonicalOverlay

variable {BlockHash Key : Type} [DecidableEq BlockHash] [DecidableEq Key]

/-- A block that `insert` accepts above the first level has its parent in the level right below. -/
def ParentBelow (self : NonCanonicalOverlay BlockHash Key) : Operation BlockHash Key → Prop
  | .insert _ number parentHash _ => self.levels ≠ [] → self.frontBlockNumber < number →
      number ≤ self.frontBlockNumber + self.levels.length →
      (self.lastCanonicalized ≠ none → parentHash ∈ self.parents) →
        parentHash ∈ hashes (self.levels.getD (number - self.frontBlockNumber - 1) [])
  | _ => True

instance (self : NonCanonicalOverlay BlockHash Key) (op : Operation BlockHash Key) :
    Decidable (self.ParentBelow op) := by
  rcases op <;> unfold ParentBelow <;> infer_instance

/-- The levels are a forest, and so were those that the pending blocks were pushed onto. -/
structure Forest (shape : Levels BlockHash Key → Prop)
    (window : NonCanonicalOverlay BlockHash Key) : Prop where
  wellFormed : window.WellFormed
  linked : Linked window.parentOf window.levels
  pushed : ∃ base blocks, Pushed shape base blocks window.levels ∧
    window.pendingInsertions.reverse = blocks.map BlockOverlay.hash ∧ Linked window.parentOf base

theorem parentOf_place (self : NonCanonicalOverlay BlockHash Key) (block : Placement BlockHash Key)
    (other : BlockHash) : (self.place block).parentOf other =
      if other = block.hash then some block.parentHash else self.parentOf other :=
  HashMap.lookup_insert_eq _ _ _ _

variable {self : NonCanonicalOverlay BlockHash Key} {block : Placement BlockHash Key}

theorem parentOf_withBooks (wellFormed : self.WellFormed) (pinned : HashMap BlockHash Nat)
    (left : Levels BlockHash Key) {gone kept : List (BlockOverlay BlockHash Key)}
    (parts : self.levels.flatten.Perm (gone ++ kept)) :
    ∀ overlay ∈ kept, (self.withBooks left (discardOverlays pinned self.books gone)).parentOf
      overlay.hash = self.parentOf overlay.hash := by
  intro overlay mem
  have stays := Distinct.notMem_hashes (Distinct.perm wellFormed.distinct parts) mem
  change (discardOverlays pinned self.books gone).parents.lookup overlay.hash = _
  rw [lookup_parents_discardOverlays, if_neg fun both => stays both.1]
  rfl

theorem ParentBelow.father_place {height : Nat} (below : self.ParentBelow block.op)
    (accepted : self.Accepts block) (above : block.position = height + 1) :
    ∃ father ∈ self.levels.getD height [],
      (self.place block).parentOf (self.overlayOf block).hash = some father.hash := by
  have within := accepted.within
  have stocked : self.levels ≠ [] := ne_nil_of_length_pos (by omega)
  obtain ⟨-, located⟩ := accepted.located fun first => stocked first.1
  have stored := below stocked (by omega) (by omega) (accepted.known (by omega))
  rw [show block.number - self.frontBlockNumber - 1 = height by omega] at stored
  obtain ⟨father, mem, same⟩ := mem_hashes.mp stored
  refine ⟨father, mem, ?_⟩
  rw [parentOf_place, same]
  exact if_pos rfl

namespace Forest

variable {shape : Levels BlockHash Key → Prop} {self next : NonCanonicalOverlay BlockHash Key}
  {block : Placement BlockHash Key}

theorem empty (shaped : shape []) : Forest shape ({} : NonCanonicalOverlay BlockHash Key) where
  wellFormed := WellFormed.empty
  linked := fun _ _ mem => by cases mem
  pushed := ⟨[], [], .nil shaped, rfl, fun _ _ mem => by cases mem⟩

section

variable (forest : Forest shape self)

include forest

theorem parentOf_stored (fresh : block.hash ∉ self.parents) : ∀ overlay ∈ self.levels.flatten,
    (self.place block).parentOf overlay.hash = self.parentOf overlay.hash := by
  intro overlay mem
  rw [parentOf_place, if_neg]
  intro same
  exact fresh (same ▸ forest.wellFormed.parentEntry overlay mem)

theorem place (fresh : block.hash ∉ self.parents) (below : self.ParentBelow block.op)
    (accepted : self.Accepts block) (shaped : shape (self.place block).levels) :
    Forest shape (self.place block) := by
  have same := forest.parentOf_stored fresh
  have within := accepted.within
  obtain ⟨base, blocks, pushed, listed, linkedBase⟩ := forest.pushed
  refine ⟨forest.wellFormed.place fresh, ?_, base, self.overlayOf block :: blocks,
    .push _ _ pushed within (mt forest.wellFormed.mem_parents fresh) shaped, ?_, ?_⟩
  · exact (forest.linked.congr same).pushBlock _ _ within fun height above =>
      below.father_place accepted above
  · simp [placed, listed, overlayAt]
  · refine linkedBase.congr fun overlay mem => same overlay ?_
    exact pushed.flatten.mem_iff.mpr (mem_append_right _ mem)

theorem applied (ran : self.applyPending = .ok next) (shaped : shape next.levels) :
    Forest shape next := by
  obtain ⟨settled, gone, result, parts, rfl⟩ := applyPending_cases forest.wellFormed ran
  have wellFormed := forest.wellFormed.withBooks self.pinned parts (List.Sublist.refl _)
  have linked := (settle_rooted forest.linked result).1.congr
    (parentOf_withBooks forest.wellFormed self.pinned settled parts)
  exact ⟨{ wellFormed with }, linked, settled, [], .nil shaped, rfl, linked⟩

/-- `revert_pending` keeps the forest, and what it leaves was there before. -/
theorem reverted (closed : ∀ levels count, shape levels → shape (levels.take count))
    (unbroken : ∀ levels, shape levels → Unbroken levels) (ran : self.revertPending = .ok next) :
    Forest shape next ∧ ∀ height, ∀ overlay ∈ next.levels.getD height [],
      overlay ∈ self.levels.getD height [] ∧
        next.parentOf overlay.hash = self.parentOf overlay.hash := by
  obtain ⟨base, blocks, pushed, listed, linkedBase⟩ := forest.pushed
  obtain ⟨left, popped, kept, -, parts, mem, folded, rfl⟩ := revertPending_cases ran
  rw [listed] at folded
  obtain ⟨⟨count, rfl, -⟩, -⟩ := revert_pushed closed pushed forest.wellFormed.distinct
    (fun index bare _ => unbroken base pushed.base_shaped index bare) folded
  have same : ∀ overlay ∈ (base.take count).flatten,
      (self.withBooks (base.take count) (discardOverlays ∅ self.books popped)).parentOf
        overlay.hash = self.parentOf overlay.hash :=
    fun overlay member => parentOf_withBooks forest.wellFormed ∅ _ parts overlay
      (mem.subset member)
  have wellFormed := forest.wellFormed.withBooks ∅ parts mem
  have linked := (linkedBase.take count).congr same
  refine ⟨⟨{ wellFormed with }, linked, _, [],
    .nil (closed base count pushed.base_shaped), rfl, linked⟩, fun height overlay member => ?_⟩
  refine ⟨(pushed.base_prefix height).subset ?_, same overlay (mem_flatten.mpr ⟨height, member⟩)⟩
  change overlay ∈ (base.take count).getD height [] at member
  rw [List.getD, List.getElem?_take] at member
  split at member
  · exact member
  · cases member

theorem congr (wellFormed : next.WellFormed) (levels : next.levels = self.levels)
    (pending : next.pendingInsertions = self.pendingInsertions)
    (same : ∀ overlay ∈ self.levels.flatten,
      next.parentOf overlay.hash = self.parentOf overlay.hash) :
    Forest shape next := by
  obtain ⟨base, blocks, pushed, listed, linkedBase⟩ := forest.pushed
  refine ⟨wellFormed, ?_, base, blocks, ?_, ?_, linkedBase.congr fun overlay mem =>
    same overlay (pushed.flatten.mem_iff.mpr (mem_append_right _ mem))⟩
  · rw [levels]
    exact forest.linked.congr same
  · rw [levels]
    exact pushed
  · rw [pending]
    exact listed

theorem parentOf_unpinBlock (hash : BlockHash) :
    ∀ overlay ∈ self.levels.flatten,
      (self.unpinBlock hash).parentOf overlay.hash = self.parentOf overlay.hash := by
  intro overlay mem
  rcases self.unpinBlock_cases hash with ⟨pinned, same⟩ | ⟨inserted, saved, same⟩
  · rw [same]
    rfl
  · have ne : overlay.hash ≠ hash := by
      rintro rfl
      exact forest.wellFormed.savedApart _ (Finmap.mem_iff.mpr ⟨inserted, saved⟩)
        (mem_hashes_of_mem mem)
    rw [same]
    exact (HashMap.lookup_erase_eq _ _ _).trans (if_neg ne)

end

theorem unpinBlock_levels (self : NonCanonicalOverlay BlockHash Key) (hash : BlockHash) :
    (self.unpinBlock hash).levels = self.levels ∧
    (self.unpinBlock hash).pendingInsertions = self.pendingInsertions ∧
    (self.unpinBlock hash).pendingCanonicalizations = self.pendingCanonicalizations ∧
    (self.unpinBlock hash).lastCanonicalized = self.lastCanonicalized := by
  rcases self.unpinBlock_cases hash with ⟨pinned, same⟩ | ⟨inserted, saved, same⟩ <;> rw [same] <;>
    exact ⟨rfl, rfl, rfl, rfl⟩

theorem unpinned (forest : Forest shape self) (hash : BlockHash) :
    Forest shape (self.unpinBlock hash) :=
  forest.congr (forest.wellFormed.unpinBlock hash) (unpinBlock_levels self hash).1
    (unpinBlock_levels self hash).2.1 (forest.parentOf_unpinBlock hash)

end Forest

/-! ## The shape of the tree -/

/-- The shape that the source takes for granted: no empty level, the first level on the last
canonicalized block if there is one, every other block on a block of the level right below. -/
structure TreeShaped (window : NonCanonicalOverlay BlockHash Key) : Prop where
  nonempty : ∀ level ∈ window.levels, level ≠ []
  front : ∀ last number, window.lastCanonicalized = some (last, number) →
    ∀ overlay ∈ window.levels.getD 0 [], window.parentOf overlay.hash = some last
  above : ∀ height, ∀ overlay ∈ window.levels.getD (height + 1) [],
    ∃ father ∈ window.levels.getD height [], window.parentOf overlay.hash = some father.hash

variable (self)

/-- The block canonicalized last has a descendant in every level above it. -/
def ReachesTop : Prop :=
  ∀ last ∈ self.pendingCanonicalizations.getLast?,
    ∀ level ∈ heirs self.parentOf {last} (self.levels.drop self.pendingCanonicalizations.length),
      level ≠ []

instance : Decidable self.ReachesTop := by
  unfold ReachesTop
  infer_instance

/-- Blocks are canonicalized only on a branch that reaches the top. -/
def AppliesTop : Operation BlockHash Key → Prop
  | .applyPending => self.ReachesTop
  | _ => True

variable (op : Operation BlockHash Key)

instance : Decidable (self.AppliesTop op) := by
  rcases op <;> unfold AppliesTop <;> infer_instance

/-- The calls of a run in which the tree keeps its shape. -/
def KeepsShape : Prop :=
  self.FreshInsert op ∧ self.ParentBelow op ∧ self.AppliesTop op

instance :
    Decidable (self.KeepsShape op) := inferInstanceAs (Decidable (_ ∧ _))

variable {self}

def NoEmptyLevel (levels : Levels BlockHash Key) : Prop := ∀ level ∈ levels, level ≠ []

section NoEmptyLevel

omit [DecidableEq BlockHash] [DecidableEq Key]

variable {levels : Levels BlockHash Key}

variable (full : NoEmptyLevel levels)

include full

theorem NoEmptyLevel.unbroken : Unbroken levels := by
  intro index bare
  rcases Nat.lt_or_ge index levels.length with mem | beyond
  · refine absurd ?_ (full levels[index] (getElem_mem mem))
    simpa [List.getD, mem] using bare
  · rw [drop_eq_nil_of_le beyond]
    rfl

theorem NoEmptyLevel.pushBlock (position : Nat) (overlay : BlockOverlay BlockHash Key) :
    NoEmptyLevel (pushBlock levels position overlay) := by
  fun_induction StateDb.pushBlock levels position overlay with
  | case1 => simp [NoEmptyLevel]
  | case2 =>
    obtain ⟨-, full⟩ := forall_mem_cons.mp full
    exact forall_mem_cons.mpr ⟨concat_ne_nil _ _, full⟩
  | case3 level above position overlay ih =>
    obtain ⟨first, full⟩ := forall_mem_cons.mp full
    exact forall_mem_cons.mpr ⟨first, ih full⟩

end NoEmptyLevel

/-- What is carried along a run that keeps the shape of the tree. -/
structure Shaping (window : NonCanonicalOverlay BlockHash Key) : Prop where
  forest : Forest NoEmptyLevel window
  front : ∀ last number, window.lastCanonicalized = some (last, number) →
    ∀ overlay ∈ window.levels.getD 0 [], window.parentOf overlay.hash = some last

namespace Shaping

variable {self next : NonCanonicalOverlay BlockHash Key}

variable (shaping : self.Shaping)

include shaping

theorem treeShaped : self.TreeShaped where
  nonempty := by
    obtain ⟨base, blocks, pushed, -, -⟩ := shaping.forest.pushed
    exact pushed.shaped
  front := shaping.front
  above := shaping.forest.linked

theorem place {block : Placement BlockHash Key}
    (fresh : block.hash ∉ self.parents) (below : self.ParentBelow block.op)
    (accepted : self.Accepts block) : (self.place block).Shaping := by
  have full : NoEmptyLevel self.levels := shaping.treeShaped.nonempty
  have forest := shaping.forest.place fresh below accepted (full.pushBlock _ _)
  refine ⟨forest, fun canonical number' here overlay member => ?_⟩
  have stored := shaping.forest.parentOf_stored fresh
  change overlay ∈ (pushBlock _ _ _).getD 0 [] at member
  rw [getD_pushBlock _ _ _ accepted.within] at member
  -- a block of the first level from before keeps its parent; the new one has the parent given
  have old : overlay ∈ self.levels.getD 0 [] → block.last = self.lastCanonicalized →
      (self.place block).parentOf overlay.hash = some canonical := by
    intro mem same
    rw [stored overlay (mem_flatten.mpr ⟨0, mem⟩)]
    exact shaping.front canonical number' (same ▸ here) overlay mem
  have new : overlay = self.overlayOf block → block.parentHash = canonical →
      (self.place block).parentOf overlay.hash = some canonical := by
    rintro rfl rfl
    rw [parentOf_place]
    exact if_pos rfl
  obtain ⟨last, position, hash, number, parentHash, changeset⟩ := block
  change Accepted self number parentHash last position at accepted
  cases accepted with
  | first empty none pos =>
    cases here
    rw [if_pos rfl, empty] at member
    exact new (mem_singleton.mp member) rfl
  | unchecked none mem => cases here
  | front number canonicalized same =>
    cases here
    rw [if_pos rfl] at member
    rcases mem_append.mp member with mem | added
    · exact old mem canonicalized.symm
    · exact new (mem_singleton.mp added) rfl
  | above other number position canonicalized same pos mem known =>
    rw [if_neg pos.ne] at member
    exact old member canonicalized.symm

theorem applied (top : self.ReachesTop) (ran : self.applyPending = .ok next) : next.Shaping := by
  have wellFormed := shaping.forest.wellFormed
  obtain ⟨settled, gone, result, parts, after⟩ := applyPending_cases wellFormed ran
  have same := parentOf_withBooks wellFormed self.pinned settled parts
  have full : NoEmptyLevel settled := by
    cases final : self.pendingCanonicalizations.getLast? with
    | none =>
      rw [List.getLast?_eq_none_iff.mp final] at result
      cases result
      exact shaping.treeShaped.nonempty
    | some last =>
      rw [(settle_eq_heirs shaping.forest.linked result final).2]
      exact top last final
  subst after
  refine ⟨shaping.forest.applied ran full, fun canonical number here overlay mem => ?_⟩
  refine (same overlay (mem_flatten.mpr ⟨0, mem⟩)).trans ?_
  change self.settledLast = some (canonical, number) at here
  unfold settledLast at here
  cases final : self.pendingCanonicalizations.getLast? with
  | none =>
    rw [final] at here
    rw [List.getLast?_eq_none_iff.mp final] at result
    cases result
    exact shaping.front canonical number here overlay mem
  | some last =>
    rw [final] at here
    cases here
    have rooted := (settle_rooted shaping.forest.linked result).2 _ final
    obtain ⟨father, root, child⟩ := (rooted_iff.mp rooted).1 overlay mem
    rw [child, Finset.mem_singleton.mp root]

/-- **Every call of such a run keeps the shape.** -/
theorem step {op : Operation BlockHash Key} (allowed : self.KeepsShape op)
    (ran : self.step op = .ok next) : next.Shaping := by
  obtain ⟨fresh, below, top⟩ := allowed
  have wellFormed := shaping.forest.wellFormed.step fresh ran
  cases step_cases ran with
  | refused => exact shaping
  | placed block accepted => exact shaping.place fresh.1 below accepted
  | noted | pinned => exact ⟨shaping.forest.congr wellFormed rfl rfl fun _ _ => rfl, shaping.front⟩
  | applied applied => exact shaping.applied top applied
  | reverted reverted =>
    obtain ⟨forest, kept⟩ := shaping.forest.reverted
      (fun _ count full level mem => full level (mem_of_mem_take mem))
      (fun _ full => full.unbroken) reverted
    refine ⟨forest, fun last number here overlay mem => ?_⟩
    obtain ⟨stored, same⟩ := kept 0 overlay mem
    obtain ⟨left, popped, others, -, -, -, -, rfl⟩ := revertPending_cases reverted
    exact same.trans (shaping.front last number here overlay stored)
  | unpinned returns =>
    refine unpin_invariant (fun self hash shaping => ?_) shaping returns
    obtain ⟨levels, -, -, last⟩ := Forest.unpinBlock_levels self hash
    refine ⟨shaping.forest.unpinned hash, fun canonical number here overlay mem => ?_⟩
    rw [levels] at mem
    rw [last] at here
    rw [shaping.forest.parentOf_unpinBlock hash overlay (mem_flatten.mpr ⟨0, mem⟩)]
    exact shaping.front canonical number here overlay mem

end Shaping

/-- **The tree keeps its shape** in every run in which blocks are inserted under fresh hashes onto
a parent in the level right below, and canonicalized on a branch that reaches the top. -/
theorem tree_shape (self : NonCanonicalOverlay BlockHash Key)
    (reached : Reachable step KeepsShape {} self) : self.TreeShaped := by
  have initial : ({} : NonCanonicalOverlay BlockHash Key).Shaping :=
    ⟨.empty (by simp [NoEmptyLevel]), by simp⟩
  have shaping : self.Shaping :=
    reached.invariant initial fun _ _ _ shaping allowed ran => shaping.step allowed ran
  exact shaping.treeShaped

/-- Two forks, a pin, a canonicalization and a revert. -/
theorem tree_shape_forks : ∃ self : NonCanonicalOverlay Nat Nat,
    Reachable step KeepsShape {} self ∧ self.levels.length = 2 ∧
      self.TreeShaped := by
  refine exists_reachable_of_found
    [.insert 1 1 0 {}, .insert 2 1 0 {}, .insert 22 2 2 {}, .insert 11 2 1 {}, .insert 111 3 11 {},
      .applyPending, .pin 22, .canonicalize 1, .applyPending, .unpin 22, .insert 12 2 1 {},
      .insert 122 3 12 {}, .revertPending]
    (fun self => self.levels.length = 2) (by decide +kernel) fun self reached levels => ?_
  exact ⟨levels, tree_shape self reached⟩

/-- **A discard can empty a level.** Canonicalizing the shorter of two forks leaves the level of
the longer one in place without a block. -/
theorem discard_empties_level : ∃ self : NonCanonicalOverlay Nat Nat,
    Reachable step FreshInsert {} self ∧ ¬ self.TreeShaped := by
  refine exists_reachable_of_found
    [.insert 1 1 0 {}, .insert 2 1 0 {}, .insert 22 2 2 {}, .applyPending, .canonicalize 1,
      .applyPending]
    (fun self => [] ∈ self.levels) (by decide +kernel) fun self _ empty shaped => ?_
  exact shaped.nonempty [] empty rfl

-- A parent that is known from a discarded pinned fork is enough for `insert`: block 33 is stored
-- above an empty level.
example : (run step FreshInsert ({} : NonCanonicalOverlay Nat Nat)
    [.insert 1 1 0 {}, .insert 2 1 0 {}, .insert 22 2 2 {}, .applyPending, .pin 22,
      .canonicalize 1, .applyPending, .insert 33 3 22 {}]).any
    (fun self => self.levels.map (·.map BlockOverlay.hash) = [[], [33]]) := by
  decide +kernel

/-! ## The panics -/

variable (self)

/-- While nothing is canonicalized, blocks are inserted at most one level above the others. -/
def NumberInRange : Operation BlockHash Key → Prop
  | .insert _ number _ _ =>
      ¬ (self.lastCanonicalized = none ∧ self.levels ≠ [] ∧ self.levels.length < number)
  | _ => True

/-- A block that `canonicalize` accepts is a child of the block whose canonicalization is pending
last. -/
def FollowsPending : Operation BlockHash Key → Prop
  | .canonicalize hash =>
      hash ∈ hashes (self.levels.getD self.pendingCanonicalizations.length []) →
        ∀ last ∈ self.pendingCanonicalizations.getLast?, self.parentOf hash = some last
  | _ => True

/-- The calls of a run that follows the chain. -/
def Orderly : Prop :=
  self.FreshInsert op ∧ self.ParentBelow op ∧ self.FollowsPending op

/-- The calls of a run without a panic. -/
def Careful : Prop :=
  self.Orderly op ∧ self.NumberInRange op

variable {self}

section

variable (self : NonCanonicalOverlay BlockHash Key) (op : Operation BlockHash Key)

instance : Decidable (self.NumberInRange op) := by
  rcases op <;> unfold NumberInRange <;> infer_instance

instance : Decidable (self.FollowsPending op) := by
  rcases op <;> unfold FollowsPending <;> infer_instance

instance : Decidable (self.Orderly op) := inferInstanceAs (Decidable (_ ∧ _))

instance : Decidable (self.Careful op) := inferInstanceAs (Decidable (_ ∧ _))

end

/-- What is carried along an orderly run: the pending canonicalizations are a chain. -/
structure Steady (window : NonCanonicalOverlay BlockHash Key) : Prop where
  forest : Forest Unbroken window
  chain : Chain window.parentOf none window.pendingCanonicalizations window.levels

namespace Steady

variable {self next : NonCanonicalOverlay BlockHash Key}

theorem settled_of_empty (steady : self.Steady) (empty : self.levels = []) :
    self.pendingCanonicalizations = [] := by
  have chain := steady.chain
  rw [empty] at chain
  cases pending : self.pendingCanonicalizations with
  | nil => rfl
  | cons hash rest =>
    rw [pending] at chain
    exact chain.elim

theorem applies (steady : self.Steady) : ∃ after, self.applyPending = .ok after := by
  obtain ⟨settled, result⟩ := steady.chain.settle
  have applied := applyPending_eq steady.forest.wellFormed
  rw [result] at applied
  obtain ⟨gone, -, returns⟩ := applied
  exact ⟨_, returns⟩

theorem reverts (steady : self.Steady) : ∃ after, self.revertPending = .ok after := by
  obtain ⟨base, blocks, pushed, listed, -⟩ := steady.forest.pushed
  obtain ⟨left, after, folded⟩ := revert_unbroken self.books pushed
  rw [← listed] at folded
  exact ⟨_, bind_eq_ok.mpr ⟨_, folded, rfl⟩⟩

theorem empty : ({} : NonCanonicalOverlay BlockHash Key).Steady :=
  ⟨.empty (fun _ _ => by simp), by unfold Chain; trivial⟩

/-- **Every call of an orderly run keeps it steady.** -/
theorem step (steady : self.Steady) {op : Operation BlockHash Key} (allowed : self.Orderly op)
    (ran : self.step op = .ok next) : next.Steady := by
  obtain ⟨fresh, below, follows⟩ := allowed
  have wellFormed := steady.forest.wellFormed.step fresh ran
  cases step_cases ran with
  | refused => exact steady
  | placed block accepted =>
    have same := steady.forest.parentOf_stored fresh.1
    have linked := (steady.forest.linked.congr same).pushBlock _ _ accepted.within fun _ above =>
      below.father_place accepted above
    exact ⟨steady.forest.place fresh.1 below accepted linked.unbroken,
      (steady.chain.congr same).pushBlock _ _⟩
  | noted mem =>
    have stored := mem_hashes_of_mem mem
    refine ⟨steady.forest.congr wellFormed rfl rfl fun _ _ => rfl,
      steady.chain.concat stored fun last final => ?_⟩
    rw [Option.or_none] at final
    exact follows stored last final
  | pinned => exact ⟨steady.forest.congr wellFormed rfl rfl fun _ _ => rfl, steady.chain⟩
  | applied applied =>
    obtain ⟨settled, gone, result, parts, same⟩ :=
      applyPending_cases steady.forest.wellFormed applied
    have linked := (settle_rooted steady.forest.linked result).1
    subst same
    exact ⟨steady.forest.applied applied linked.unbroken, by unfold Chain; trivial⟩
  | reverted reverted =>
    have forest := (steady.forest.reverted (fun _ count unbroken => unbroken.take count)
      (fun _ => id) reverted).1
    obtain ⟨left, popped, others, -, -, -, -, rfl⟩ := revertPending_cases reverted
    exact ⟨forest, by unfold Chain; trivial⟩
  | unpinned returns =>
    refine unpin_invariant (fun self hash steady => ?_) steady returns
    obtain ⟨levels, -, pending, -⟩ := Forest.unpinBlock_levels self hash
    refine ⟨steady.forest.unpinned hash, ?_⟩
    rw [pending, levels]
    exact steady.chain.congr (steady.forest.parentOf_unpinBlock hash)

end Steady

/-- **No panic in a careful run.** In every window that careful calls reach, `insert` refuses a
block and leaves the window as it is or accepts it, as long as its number is in range while nothing
is canonicalized, and both `apply_pending` and `revert_pending` return. -/
theorem never_panics (self : NonCanonicalOverlay BlockHash Key)
    (reached : Reachable step Careful {} self) :
    (∀ hash number parentHash changeset,
      self.NumberInRange (.insert hash number parentHash changeset) →
        (∃ error, self.insert hash number parentHash changeset = .ok (.error error, self)) ∨
          ∃ commit next, self.insert hash number parentHash changeset = .ok (.ok commit, next)) ∧
    (∃ next, self.applyPending = .ok next) ∧ ∃ next, self.revertPending = .ok next := by
  have steady : self.Steady := reached.invariant Steady.empty
    fun _ _ _ steady allowed ran => steady.step allowed.1 ran
  refine ⟨fun hash number parentHash changeset inRange => ?_, steady.applies, steady.reverts⟩
  rcases self.insert_trichotomy hash number parentHash changeset with
    refused | ⟨last, position, -, inserted⟩ | ⟨none, stocked, beyond, -⟩
  · exact .inl refused
  · exact .inr ⟨_, _, inserted⟩
  · exact absurd ⟨none, stocked, beyond⟩ inRange

/-- Two pending canonicalizations in a row and a pending insertion. -/
theorem never_panics_chain : ∃ self : NonCanonicalOverlay Nat Nat,
    Reachable step Careful {} self ∧
    self.pendingCanonicalizations = [1, 11] ∧ self.NumberInRange (.insert 9 7 8 {}) ∧
    ((∃ error, self.insert 9 7 8 {} = .ok (.error error, self)) ∨
      ∃ commit next, self.insert 9 7 8 {} = .ok (.ok commit, next)) ∧
    (∃ next, self.applyPending = .ok next) ∧ ∃ next, self.revertPending = .ok next := by
  refine exists_reachable_of_found
    [.insert 1 1 0 {}, .insert 2 1 0 {}, .insert 22 2 2 {}, .insert 11 2 1 {}, .applyPending,
      .canonicalize 1, .canonicalize 11, .insert 111 3 11 {}]
    (fun self => self.pendingCanonicalizations = [1, 11] ∧ self.NumberInRange (.insert 9 7 8 {}))
    (by decide +kernel) fun self reached found => ?_
  have safe := never_panics self reached
  exact ⟨found.1, found.2, safe.1 _ _ _ _ found.2, safe.2⟩

/-- **The panics are reachable.** A second block far above the first, with nothing canonicalized;
a canonicalized block whose parent is discarded by the canonicalization before it; and a pending
block above a level that a discard emptied, whose parent is known only through a pin. -/
theorem panics_reachable :
    (∃ self : NonCanonicalOverlay Nat Nat, Reachable step FreshInsert {} self ∧
      self.Fresh 2 ∧ self.insert 2 5 1 {} = .error .numberRange) ∧
    (∃ self : NonCanonicalOverlay Nat Nat, Reachable step FreshInsert {} self ∧
      self.pendingCanonicalizations = [1, 22] ∧ self.applyPending = .error .hashValidity) ∧
    ∃ self : NonCanonicalOverlay Nat Nat, Reachable step FreshInsert {} self ∧
      self.revertPending = .error .lastInLevel := by
  refine ⟨?_, ?_, ?_⟩
  · exact exists_reachable_of_run [.insert 1 0 9 {}] (by decide +kernel)
  · exact exists_reachable_of_run
      [.insert 1 1 0 {}, .insert 2 1 0 {}, .insert 22 2 2 {}, .insert 11 2 1 {}, .applyPending,
        .canonicalize 1, .canonicalize 22]
      (by decide +kernel)
  · exact exists_reachable_of_run
      [.insert 1 1 0 {}, .insert 2 1 0 {}, .insert 22 2 2 {}, .applyPending, .pin 22,
        .canonicalize 1, .applyPending, .insert 33 3 22 {}]
      (by decide +kernel)

/-- **Canonicalization keeps one branch.** In every orderly run `apply_pending` returns, moves to
the block canonicalized last and keeps the descendants of that block, in their levels and order. -/
theorem applyPending_keeps_heirs (reached : Reachable step Orderly {} self) :
    ∃ next, self.applyPending = .ok next ∧ next.lastCanonicalized = self.settledLast ∧
      ∀ last, self.pendingCanonicalizations.getLast? = some last → next.levels =
        heirs self.parentOf {last} (self.levels.drop self.pendingCanonicalizations.length) := by
  have steady : self.Steady := reached.invariant Steady.empty
    fun _ _ _ steady allowed ran => steady.step allowed ran
  obtain ⟨next, ran⟩ := steady.applies
  obtain ⟨settled, gone, result, -, rfl⟩ := applyPending_cases steady.forest.wellFormed ran
  exact ⟨_, ran, rfl, fun last final => (settle_eq_heirs steady.forest.linked result final).2⟩

/-- Of two forks the one canonicalized stays. -/
theorem applyPending_keeps_heirs_fork : ∃ self : NonCanonicalOverlay Nat Nat,
    Reachable step Orderly {} self ∧ ∃ next, self.applyPending = .ok next ∧
      next.levels = heirs self.parentOf {1} (self.levels.drop 1) := by
  refine exists_reachable_of_found [.insert 1 1 0 {}, .insert 2 1 0 {}, .insert 11 2 1 {},
    .canonicalize 1] (fun self => self.pendingCanonicalizations = [1]) (by decide +kernel)
    fun self reached pending => ?_
  obtain ⟨next, ran, -, kept⟩ := applyPending_keeps_heirs reached
  rw [pending] at kept
  exact ⟨next, ran, kept 1 rfl⟩

end Brace.StateDb.NonCanonicalOverlay
