import Brace.StateDb.RevertInsertions

/-!
# The tree behind the levels

`Linked` states that the levels are a forest: every block above the first level has its parent in
the level right below. Discards keep a forest linked (`settle_rooted`), and what they leave of it
is exactly the descendants of the block canonicalized last (`settle_eq_heirs`). In a linked forest
no block lies above an empty level (`Linked.unbroken`).
-/

namespace Brace.StateDb

open Brace.Lib List

variable {BlockHash Key : Type}

/-- Every block above the first level has its parent in the level right below. -/
def Linked (parent : BlockHash → Option BlockHash) (levels : Levels BlockHash Key) : Prop :=
  ∀ height, ∀ overlay ∈ levels.getD (height + 1) [],
    ∃ father ∈ levels.getD height [], parent overlay.hash = some father.hash

variable {parent : BlockHash → Option BlockHash}

variable {levels above settled : Levels BlockHash Key} {other : BlockHash → Option BlockHash}
  {roots dead : Finset BlockHash} {level : List (BlockOverlay BlockHash Key)}
  {hash last : BlockHash} {pending : List BlockHash} {previous : Option BlockHash}

section

variable (linked : Linked parent levels)

include linked

theorem Linked.empty_above {height : Nat} (bare : levels.getD height [] = []) (count : Nat) :
    levels.getD (height + count) [] = [] := by
  induction count with
  | zero => exact bare
  | succ count ih =>
    rw [eq_nil_iff_forall_not_mem]
    intro overlay mem
    obtain ⟨father, below, -⟩ := linked (height + count) overlay mem
    rw [ih] at below
    cases below

theorem Linked.unbroken : Unbroken levels := by
  intro index bare
  rw [eq_nil_iff_forall_not_mem]
  intro overlay member
  obtain ⟨height, high, mem⟩ := mem_flatten_drop.mp member
  have none := linked.empty_above bare (height - index)
  rw [Nat.add_sub_cancel' high] at none
  rw [none] at mem
  cases mem

theorem Linked.take (count : Nat) : Linked parent (levels.take count) := by
  have level : ∀ height, (levels.take count).getD height [] =
      if height < count then levels.getD height [] else [] := by
    intro height
    rw [List.getD, List.getElem?_take]
    split <;> rfl
  intro height overlay mem
  rw [level] at mem
  split at mem
  · rename_i low
    rw [level, if_pos (by omega)]
    exact linked height overlay mem
  · cases mem

theorem Linked.drop (count : Nat) : Linked parent (levels.drop count) := by
  have level : ∀ height, (levels.drop count).getD height [] = levels.getD (count + height) [] := by
    intro height
    rw [List.getD, List.getD, List.getElem?_drop]
  intro height overlay mem
  rw [level] at mem ⊢
  exact linked (count + height) overlay mem

theorem Linked.congr (same : ∀ overlay ∈ levels.flatten, other overlay.hash = parent overlay.hash) :
    Linked other levels := by
  intro height overlay mem
  obtain ⟨father, below, child⟩ := linked height overlay mem
  exact ⟨father, below, (same overlay (mem_flatten.mpr ⟨_, mem⟩)).trans child⟩

theorem Linked.pushBlock (position : Nat) (overlay : BlockOverlay BlockHash Key)
    (within : position ≤ levels.length)
    (below : ∀ height, position = height + 1 → ∃ father ∈ levels.getD height [], parent
      overlay.hash = some father.hash) : Linked parent (pushBlock levels position overlay) := by
  have grows : ∀ height block, block ∈ levels.getD height [] →
      block ∈ (StateDb.pushBlock levels position overlay).getD height [] := by
    intro height block mem
    rw [getD_pushBlock levels position overlay within]
    split
    · exact mem_append_left _ mem
    · exact mem
  intro height block mem
  rw [getD_pushBlock levels position overlay within] at mem
  have old : block ∈ levels.getD (height + 1) [] → ∃ father ∈
      (StateDb.pushBlock levels position overlay).getD height [],
        parent block.hash = some father.hash := by
    intro stored
    obtain ⟨father, there, child⟩ := linked height block stored
    exact ⟨father, grows height father there, child⟩
  split at mem
  · rename_i here
    rcases mem_append.mp mem with stored | new
    · exact old stored
    · obtain rfl := mem_singleton.mp new
      obtain ⟨father, there, child⟩ := below height here.symm
      exact ⟨father, grows height father there, child⟩
  · exact old mem

end

variable [DecidableEq BlockHash]

/-- The blocks of the first level have their parents in a set, those of a higher one in the level
right below. -/
def Rooted (parent : BlockHash → Option BlockHash) : Finset BlockHash → Levels BlockHash Key → Prop
  | _, [] => True
  | roots, level :: above =>
    (∀ overlay ∈ level, ∃ father ∈ roots, parent overlay.hash = some father) ∧
      Rooted parent (hashes level) above

theorem linked_cons_iff : Linked parent (level :: levels) ↔
    (∀ overlay ∈ levels.getD 0 [], ∃ father ∈ hashes level, parent overlay.hash = some father) ∧
      Linked parent levels := by
  constructor
  · intro linked
    refine ⟨fun overlay mem => ?_, fun height => linked (height + 1)⟩
    obtain ⟨father, below, child⟩ := linked 0 overlay mem
    exact ⟨father.hash, mem_hashes_of_mem below, child⟩
  · rintro ⟨next, rest⟩ (_ | height) overlay mem
    · obtain ⟨hash, member, child⟩ := next overlay mem
      obtain ⟨father, below, rfl⟩ := mem_hashes.mp member
      exact ⟨father, below, child⟩
    · exact rest height overlay mem

theorem rooted_iff :
    Rooted parent roots levels ↔
      (∀ overlay ∈ levels.getD 0 [], ∃ father ∈ roots, parent overlay.hash = some father) ∧
        Linked parent levels := by
  induction levels generalizing roots with
  | nil => simp [Rooted, Linked]
  | cons level above ih =>
    rw [Rooted, ih, linked_cons_iff]
    rfl

theorem mem_hashes_filter_childOf :
    hash ∈ hashes (level.filter (childOf parent dead)) ↔
      hash ∈ hashes level ∧ ∃ father ∈ dead, parent hash = some father := by
  simp only [mem_hashes, mem_filter, childOf_iff]
  constructor
  · rintro ⟨overlay, ⟨mem, dies⟩, rfl⟩
    exact ⟨⟨overlay, mem, rfl⟩, dies⟩
  · rintro ⟨⟨overlay, mem, rfl⟩, dies⟩
    exact ⟨overlay, ⟨mem, dies⟩, rfl⟩

theorem Linked.rooted
    (linked : Linked parent (level :: above)) : Rooted parent (hashes level) above :=
  rooted_iff.mpr (linked_cons_iff.mp linked)

/-! ## What stays -/

/-- The descendants of a set of blocks, level by level. -/
def heirs (parent : BlockHash → Option BlockHash) :
    Finset BlockHash → Levels BlockHash Key → Levels BlockHash Key
  | _, [] => []
  | alive, level :: above =>
    level.filter (childOf parent alive) ::
      heirs parent (hashes (level.filter (childOf parent alive))) above

section

variable (alive : Finset BlockHash)

variable (levels)

theorem heirs_length : (heirs parent alive levels).length = levels.length := by
  induction levels generalizing alive with
  | nil => rfl
  | cons level above ih => simp [heirs, ih]

theorem rooted_heirs : Rooted parent alive (heirs parent alive levels) := by
  induction levels generalizing alive with
  | nil => trivial
  | cons level above ih =>
    exact ⟨fun overlay mem => childOf_iff.mp (mem_filter.mp mem).2, ih _⟩

variable {levels}

theorem Rooted.prune_eq_heirs (rooted : Rooted parent roots levels) (alive : Finset BlockHash) :
    StateDb.prune parent (roots \ alive) levels = heirs parent (roots ∩ alive) levels := by
  induction levels generalizing roots alive with
  | nil => rfl
  | cons level above ih =>
    obtain ⟨first, rest⟩ := rooted
    have split : ∀ overlay ∈ level, (!childOf parent (roots \ alive) overlay) =
        childOf parent (roots ∩ alive) overlay := by
      intro overlay mem
      obtain ⟨father, member, child⟩ := first overlay mem
      by_cases lives : father ∈ alive <;> simp [childOf, child, member, lives]
    have dead : hashes (level.filter (childOf parent (roots \ alive))) =
        hashes level \ hashes (level.filter (childOf parent (roots ∩ alive))) := by
      ext hash
      rw [Finset.mem_sdiff, mem_hashes_filter_childOf, mem_hashes_filter_childOf]
      constructor
      · rintro ⟨stored, father, killed, child⟩
        refine ⟨stored, ?_⟩
        rintro ⟨-, other, lives, same⟩
        rw [child] at same
        cases same
        exact (Finset.mem_sdiff.mp killed).2 (Finset.mem_inter.mp lives).2
      · rintro ⟨stored, none⟩
        obtain ⟨overlay, mem, rfl⟩ := mem_hashes.mp stored
        obtain ⟨father, member, child⟩ := first overlay mem
        refine ⟨stored, father, Finset.mem_sdiff.mpr ⟨member, fun lives => ?_⟩, child⟩
        exact none ⟨stored, father, Finset.mem_inter.mpr ⟨member, lives⟩, child⟩
    have kept : hashes level ∩ hashes (level.filter (childOf parent (roots ∩ alive))) =
        hashes (level.filter (childOf parent (roots ∩ alive))) :=
      Finset.inter_eq_right.mpr (hashes_mono filter_sublist.subset)
    rw [StateDb.prune, heirs, dead, ih rest _, kept, filter_congr split]

theorem Linked.prune_eq_heirs (linked : Linked parent (level :: above))
    (chosen : hash ∈ hashes level) :
    StateDb.prune parent ((hashes level).erase hash) above = heirs parent {hash} above := by
  have left := linked.rooted.prune_eq_heirs {hash}
  rw [Finset.sdiff_singleton_eq_erase hash (hashes level),
    Finset.inter_singleton_of_mem chosen] at left
  exact left

theorem heirs_heirs {few many : Finset BlockHash} (subset : few ⊆ many)
    (levels : Levels BlockHash Key) :
    heirs parent few (heirs parent many levels) = heirs parent few levels := by
  induction levels generalizing few many with
  | nil => rfl
  | cons level above ih =>
    have weaker : ∀ overlay : BlockOverlay BlockHash Key,
        childOf parent few overlay = true → childOf parent many overlay = true := by
      intro overlay child
      obtain ⟨father, member, given⟩ := childOf_iff.mp child
      exact childOf_iff.mpr ⟨father, subset member, given⟩
    have same : (level.filter (childOf parent many)).filter (childOf parent few) =
        level.filter (childOf parent few) := by
      rw [filter_filter]
      refine filter_congr fun overlay _ => ?_
      cases child : childOf parent few overlay with
      | false => rfl
      | true => rw [weaker overlay child]; rfl
    have fewer : hashes (level.filter (childOf parent few)) ⊆
        hashes (level.filter (childOf parent many)) := by
      rw [← same]
      exact hashes_mono filter_sublist.subset
    rw [heirs, heirs, heirs, same, ih fewer]

theorem drop_heirs (levels : Levels BlockHash Key) (count : Nat) :
    (heirs parent alive levels).drop (count + 1) =
      heirs parent (hashes ((heirs parent alive levels).getD count []))
        (levels.drop (count + 1)) := by
  induction levels generalizing alive count with
  | nil => rfl
  | cons level above ih =>
    cases count with
    | zero => rfl
    | succ count =>
      have later := ih (hashes (level.filter (childOf parent alive))) count
      simpa [heirs] using later

theorem getD_heirs_sublist (levels : Levels BlockHash Key) (height : Nat) :
    ((heirs parent alive levels).getD height []).Sublist (levels.getD height []) := by
  induction levels generalizing alive height with
  | nil => exact List.Sublist.refl _
  | cons level above ih =>
    cases height with
    | zero => exact filter_sublist
    | succ height => exact ih _ height

section

variable (linked : Linked parent levels) (result : settle parent pending levels = some settled)

include linked result

/-- **What settling leaves of a forest** is the descendants of the block canonicalized last. -/
theorem settle_eq_heirs (final : pending.getLast? = some last) :
    last ∈ hashes (levels.getD (pending.length - 1) []) ∧
      settled = heirs parent {last} (levels.drop pending.length) := by
  induction pending generalizing levels with
  | nil => cases final
  | cons hash rest ih =>
    cases levels with
    | nil => cases result
    | cons level above =>
      rw [settle] at result
      split at result
      · rename_i chosen
        rw [linked.prune_eq_heirs chosen] at result
        cases rest with
        | nil =>
          cases result
          cases final
          exact ⟨chosen, rfl⟩
        | cons next later =>
          rw [List.getLast?_cons_cons] at final
          obtain ⟨present, left⟩ := ih (rooted_iff.mp (rooted_heirs _ _)).2 result final
          refine ⟨hashes_mono (getD_heirs_sublist {hash} above _).subset present, ?_⟩
          rw [left, length_cons, drop_heirs]
          exact heirs_heirs (Finset.singleton_subset_iff.mpr present) _
      · cases result

/-- **Settling keeps the forest**, rooted in the block canonicalized last. -/
theorem settle_rooted :
    Linked parent settled ∧
      ∀ last, pending.getLast? = some last → Rooted parent {last} settled := by
  have rooted : ∀ last, pending.getLast? = some last → Rooted parent {last} settled := by
    intro last final
    rw [(settle_eq_heirs linked result final).2]
    exact rooted_heirs _ _
  refine ⟨?_, rooted⟩
  cases final : pending.getLast? with
  | none =>
    rw [List.getLast?_eq_none_iff.mp final] at result
    cases result
    exact linked
  | some last => exact (rooted_iff.mp (rooted last final)).2

end

theorem heirs_congr (same : ∀ overlay ∈ levels.flatten, other overlay.hash = parent overlay.hash) :
    heirs other alive levels = heirs parent alive levels := by
  induction levels generalizing alive with
  | nil => rfl
  | cons level above ih =>
    have children : level.filter (childOf other alive) = level.filter (childOf parent alive) := by
      refine filter_congr fun overlay mem => ?_
      rw [childOf, same overlay (mem_append_left _ mem), childOf]
    have later := ih (hashes (level.filter (childOf parent alive)))
      fun overlay mem => same overlay (mem_append_right _ mem)
    rw [heirs, heirs, children, later]

theorem heirs_insert_childless
    (childless : ∀ overlay ∈ levels.flatten, parent overlay.hash ≠ some hash) :
    heirs parent (insert hash alive) levels = heirs parent alive levels := by
  cases levels with
  | nil => rfl
  | cons level above =>
    have children : level.filter (childOf parent (insert hash alive)) =
        level.filter (childOf parent alive) := by
      refine filter_congr fun overlay mem => ?_
      have other := childless overlay (mem_append_left _ mem)
      unfold childOf
      cases given : parent overlay.hash with
      | none => rfl
      | some father =>
        have ne : father ≠ hash := fun same => other (by rw [given, same])
        simp [ne]
    rw [heirs, heirs, children]

end

/-- A new block without children whose parent is alive is one more descendant. -/
theorem heirs_pushBlock {alive : Finset BlockHash} {position : Nat}
    {overlay : BlockOverlay BlockHash Key} {father : BlockHash} (within : position ≤ levels.length)
    (given : parent overlay.hash = some father)
    (childless : ∀ block ∈ levels.flatten, parent block.hash ≠ some overlay.hash)
    (front : position = 0 → father ∈ alive) (below : ∀ height, position = height + 1 →
      father ∈ hashes ((heirs parent alive levels).getD height [])) :
    heirs parent alive (pushBlock levels position overlay) =
      pushBlock (heirs parent alive levels) position overlay := by
  induction levels generalizing alive position with
  | nil =>
    obtain rfl : position = 0 := Nat.le_zero.mp within
    simp [pushBlock, heirs, childOf, given, front rfl]
  | cons level above ih =>
    have childlessAbove : ∀ block ∈ above.flatten, parent block.hash ≠ some overlay.hash :=
      fun block mem => childless block (mem_append_right _ mem)
    cases position with
    | zero =>
      have kept : (level ++ [overlay]).filter (childOf parent alive) =
          level.filter (childOf parent alive) ++ [overlay] := by
        simp [childOf, given, front rfl]
      have names : hashes (level.filter (childOf parent alive) ++ [overlay]) =
          insert overlay.hash (hashes (level.filter (childOf parent alive))) := by
        ext hash
        simp [hashes]
      rw [pushBlock, heirs, heirs, pushBlock, kept, names, heirs_insert_childless _ childlessAbove]
    | succ position =>
      have later := @ih (hashes (level.filter (childOf parent alive))) position
        (Nat.le_of_succ_le_succ within) childlessAbove
        (fun first => below 0 (by omega)) fun height above => below (height + 1) (by omega)
      rw [pushBlock, heirs, heirs, pushBlock, later]

/-! ## Chains of canonicalized blocks -/

/-- The blocks are stored one in each of the first levels, and each is a child of the one before. -/
def Chain (parent : BlockHash → Option BlockHash) :
    Option BlockHash → List BlockHash → Levels BlockHash Key → Prop
  | _, [], _ => True
  | _, _ :: _, [] => False
  | previous, hash :: rest, level :: above =>
    hash ∈ hashes level ∧ (∀ before, previous = some before → parent hash = some before) ∧
      Chain parent (some hash) rest above

theorem Chain.prune {rest : List BlockHash} (chain : Chain parent (some hash) rest levels)
    (lives : hash ∉ dead) : Chain parent (some hash) rest (prune parent dead levels) := by
  induction rest generalizing hash levels dead with
  | nil => cases levels <;> trivial
  | cons next others ih =>
    cases levels with
    | nil => exact chain.elim
    | cons level above =>
      obtain ⟨stored, child, later⟩ := chain
      have father : parent next = some hash := child hash rfl
      obtain ⟨overlay, mem, rfl⟩ := mem_hashes.mp stored
      refine ⟨?_, child, ih later fun killed => ?_⟩
      · refine mem_hashes_of_mem (mem_filter.mpr ⟨mem, ?_⟩)
        simp [childOf, father, lives]
      · obtain ⟨-, other, member, same⟩ := mem_hashes_filter_childOf.mp killed
        rw [father] at same
        cases same
        exact lives member

section

variable (chain : Chain parent previous pending levels)

include chain

/-- **A chain can be settled.** -/
theorem Chain.settle : ∃ settled, settle parent pending levels = some settled := by
  induction pending generalizing previous levels with
  | nil => exact ⟨levels, rfl⟩
  | cons hash rest ih =>
    cases levels with
    | nil => exact chain.elim
    | cons level above =>
      obtain ⟨stored, -, later⟩ := chain
      rw [StateDb.settle, if_pos stored]
      exact ih (later.prune (Finset.notMem_erase hash _))

theorem Chain.concat (stored : hash ∈ hashes (levels.getD pending.length []))
    (child : ∀ last, pending.getLast?.or previous = some last → parent hash = some last) :
    Chain parent previous (pending ++ [hash]) levels := by
  induction pending generalizing previous levels with
  | nil =>
    cases levels with
    | nil => simp [hashes] at stored
    | cons level above => exact ⟨stored, child, by cases above <;> trivial⟩
  | cons first rest ih =>
    cases levels with
    | nil => exact chain.elim
    | cons level above =>
      obtain ⟨here, linked, later⟩ := chain
      refine ⟨here, linked, ih later stored fun last final => child last ?_⟩
      rw [List.getLast?_cons]
      cases ending : rest.getLast? <;> simpa [ending] using final

theorem Chain.congr (same : ∀ block ∈ levels.flatten, other block.hash = parent block.hash) :
    Chain other previous pending levels := by
  induction pending generalizing previous levels with
  | nil => cases levels <;> trivial
  | cons hash rest ih =>
    cases levels with
    | nil => exact chain.elim
    | cons level above =>
      obtain ⟨stored, linked, later⟩ := chain
      obtain ⟨block, mem, rfl⟩ := mem_hashes.mp stored
      exact ⟨stored,
        fun before given => (same block (by simp [mem])).trans (linked before given),
        ih later fun block member => same block (by simp [member])⟩

theorem Chain.pushBlock (position : Nat) (overlay : BlockOverlay BlockHash Key) :
    Chain parent previous pending (pushBlock levels position overlay) := by
  induction pending generalizing previous levels position with
  | nil => trivial
  | cons hash rest ih =>
    cases levels with
    | nil => exact chain.elim
    | cons level above =>
      obtain ⟨stored, linked, later⟩ := chain
      cases position with
      | zero =>
        exact ⟨hashes_mono (subset_append_left _ _) stored, linked, later⟩
      | succ position => exact ⟨stored, linked, ih later position⟩

end

end Brace.StateDb
