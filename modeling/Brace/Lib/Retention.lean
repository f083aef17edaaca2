import Mathlib

/-!
# Keeping the states of a chain of changes

A chain of changes takes a set of keys from one state to the next. A store that keeps the states
from some block on has to hold every key of these states and, when the oldest one is given up, may
erase exactly the keys that die with it: those deleted by the next change and never inserted again
(`kept_succ`). A dying key is in no later state (`Dying.not_mem`), which is all that safety needs.
-/

namespace Brace.Lib

open List

variable {Key : Type}

/-- What one block does to a set of keys. -/
structure Change (Key : Type) where
  inserted : Finset Key
  deleted : Finset Key

variable [DecidableEq Key]

namespace Change

variable (change : Change Key)

variable (state : Finset Key)

/-- The state after a change: the insertions, then the deletions. -/
def apply : Finset Key :=
  (state ∪ change.inserted) \ change.deleted

/-- Only keys that are there are deleted. -/
def DeletesLive : Prop :=
  change.deleted ⊆ state ∪ change.inserted

/-- Keys of the state are deleted and other keys are inserted. -/
def Proper : Prop :=
  change.deleted ⊆ state ∧ Disjoint change.inserted change.deleted

instance : Decidable (change.DeletesLive state) := by
  unfold DeletesLive
  infer_instance

instance : Decidable (change.Proper state) :=
  inferInstanceAs (Decidable (_ ∧ _))

variable {change : Change Key}

theorem apply_of_disjoint (state : Finset Key)
    (disjoint : Disjoint change.inserted change.deleted) :
    change.apply state = (state \ change.deleted) ∪ change.inserted := by
  rw [apply, Finset.union_sdiff_distrib, Finset.sdiff_eq_self_of_disjoint disjoint]

end Change

omit [DecidableEq Key] in
theorem getElem?_concat {Element : Type} {list : List Element} {last found : Element} {index : Nat}
    (there : (list ++ [last])[index]? = some found) :
    list[index]? = some found ∨ index = list.length ∧ found = last := by
  rw [List.getElem?_append] at there
  split at there
  · exact .inl there
  · obtain ⟨low, same⟩ := List.getElem?_eq_some_iff.mp there
    rw [length_singleton] at low
    exact .inr ⟨by omega, by simpa using same.symm⟩

/-- The state after the first changes of a chain. -/
def stateAt (initial : Finset Key) (changes : List (Change Key)) (block : Nat) : Finset Key :=
  (changes.take block).foldl (fun state change => change.apply state) initial

variable {initial : Finset Key} {changes : List (Change Key)} {key : Key}

variable {block count later first : Nat} {change : Change Key}

theorem stateAt_succ (there : changes[block]? = some change) :
    stateAt initial changes (block + 1) = change.apply (stateAt initial changes block) := by
  rw [stateAt, take_add_one, there, foldl_append]
  rfl

theorem stateAt_concat (change : Change Key) (low : block ≤ changes.length) :
    stateAt initial (changes ++ [change]) block = stateAt initial changes block := by
  rw [stateAt, take_append_of_le_length low, stateAt]

theorem stateAt_concat_last (change : Change Key) :
    stateAt initial (changes ++ [change]) (changes.length + 1) =
      change.apply (stateAt initial changes changes.length) := by
  rw [stateAt_succ List.getElem?_concat_length, stateAt_concat _ (Nat.le_refl _)]

/-- The key is in one of the states from a block on. -/
def Kept (initial : Finset Key) (changes : List (Change Key)) (first : Nat) (key : Key) : Prop :=
  ∃ block, first ≤ block ∧ block ≤ changes.length ∧ key ∈ stateAt initial changes block

omit [DecidableEq Key] in
/-- The key is deleted by the change at a block and not inserted by any later one. -/
def Dying (changes : List (Change Key)) (block : Nat) (key : Key) : Prop :=
  (∃ change, changes[block]? = some change ∧ key ∈ change.deleted) ∧
    ∀ later, block < later → ∀ change, changes[later]? = some change → key ∉ change.inserted

/-- **A dying key is in no later state.** -/
theorem Dying.not_mem (dying : Dying changes block key) (after : block < later)
    (mem : later ≤ changes.length) : key ∉ stateAt initial changes later := by
  obtain ⟨⟨change, there, deleted⟩, never⟩ := dying
  induction later with
  | zero => omega
  | succ later ih =>
    rcases Nat.lt_or_ge block later with between | here
    · have next : changes[later]? = some changes[later] := List.getElem?_eq_getElem (by omega)
      have absent := ih between (by omega)
      have other := never later between _ next
      rw [stateAt_succ next, Change.apply, Finset.mem_sdiff, Finset.mem_union]
      tauto
    · obtain rfl : later = block := by omega
      rw [stateAt_succ there, Change.apply, Finset.mem_sdiff]
      tauto

section

omit [DecidableEq Key]

theorem dying_drop (changes : List (Change Key)) (count block : Nat) (key : Key) :
    Dying (changes.drop count) block key ↔ Dying changes (count + block) key := by
  unfold Dying
  simp only [List.getElem?_drop]
  refine and_congr_right fun _ => ⟨fun never later after change there => ?_,
    fun never later after change there => never _ (by omega) change there⟩
  refine never (later - count) (by omega) change ?_
  rwa [show count + (later - count) = later by omega]

theorem Dying.take (dying : Dying changes block key)
    (mem : block < count) : Dying (changes.take count) block key := by
  obtain ⟨⟨change, there, deleted⟩, never⟩ := dying
  refine ⟨⟨change, ?_, deleted⟩, fun later after other found => ?_⟩
  · rwa [List.getElem?_take_of_lt mem]
  · rw [List.getElem?_take] at found
    split at found
    · exact never later after other found
    · cases found

theorem Dying.concat (dying : Dying changes block key)
    (outside : key ∉ change.inserted) : Dying (changes ++ [change]) block key := by
  obtain ⟨⟨first, there, deleted⟩, never⟩ := dying
  have low := (List.getElem?_eq_some_iff.mp there).1
  refine ⟨⟨first, by rwa [List.getElem?_append_left low], deleted⟩,
    fun later after other found => ?_⟩
  rcases getElem?_concat found with old | ⟨-, rfl⟩
  · exact never later after other old
  · exact outside

theorem dying_concat_last (deleted : key ∈ change.deleted) :
    Dying (changes ++ [change]) changes.length key := by
  refine ⟨⟨change, List.getElem?_concat_length, deleted⟩, fun later after other found => ?_⟩
  have low := (List.getElem?_eq_some_iff.mp found).1
  rw [length_append, length_singleton] at low
  omega

end

theorem Kept.of_concat (kept : Kept initial (changes ++ [change]) first key)
    (low : first ≤ changes.length) : Kept initial changes first key ∨ key ∈ change.inserted := by
  obtain ⟨block, high, mem, member⟩ := kept
  rw [length_append, length_singleton] at mem
  rcases Nat.lt_or_ge changes.length block with new | old
  · obtain rfl : block = changes.length + 1 := by omega
    rw [stateAt_concat_last, Change.apply, Finset.mem_sdiff, Finset.mem_union] at member
    exact member.1.imp_left fun stays => ⟨_, low, Nat.le_refl _, stays⟩
  · rw [stateAt_concat _ old] at member
    exact .inl ⟨block, high, old, member⟩

/-- The states kept after a new change: its insertions are added. -/
theorem kept_concat (low : first ≤ changes.length)
    (disjoint : Disjoint change.inserted change.deleted) :
    Kept initial (changes ++ [change]) first key ↔
      Kept initial changes first key ∨ key ∈ change.inserted := by
  refine ⟨fun kept => kept.of_concat low, ?_⟩
  rintro (⟨block, high, mem, member⟩ | inserted)
  · refine ⟨block, high, by rw [length_append]; omega, ?_⟩
    rwa [stateAt_concat _ mem]
  · refine ⟨changes.length + 1, by omega, by simp, ?_⟩
    rw [stateAt_concat_last, Change.apply_of_disjoint _ disjoint]
    exact Finset.mem_union_right _ inserted

theorem Kept.mono (kept : Kept initial changes later key)
    (before : first ≤ later) : Kept initial changes first key := by
  obtain ⟨block, high, mem, member⟩ := kept
  exact ⟨block, before.trans high, mem, member⟩

/-- **Giving up a state**: the keys that die with it are exactly those no longer kept. -/
theorem kept_succ (low : first < changes.length)
    (disjoint : ∀ change ∈ changes, Disjoint change.inserted change.deleted) :
    Kept initial changes (first + 1) key ↔
      Kept initial changes first key ∧ ¬ Dying changes first key := by
  constructor
  · intro kept
    refine ⟨kept.mono (by omega), fun dying => ?_⟩
    obtain ⟨block, high, mem, member⟩ := kept
    exact dying.not_mem high mem member
  · rintro ⟨⟨block, high, mem, member⟩, survives⟩
    rcases Nat.lt_or_ge first block with later | here
    · exact ⟨block, later, mem, member⟩
    · obtain rfl : block = first := by omega
      have next : changes[block]? = some changes[block] := List.getElem?_eq_getElem low
      by_cases deleted : key ∈ changes[block].deleted
      · -- the key is inserted again by a later change
        have again : ∃ later, block < later ∧ ∃ change, changes[later]? = some change ∧
            key ∈ change.inserted := by
          by_contra never
          push Not at never
          exact survives ⟨⟨_, next, deleted⟩, fun later after change there =>
            never later after change there⟩
        obtain ⟨later, after, change, there, inserted⟩ := again
        have bound : later < changes.length := (List.getElem?_eq_some_iff.mp there).1
        refine ⟨later + 1, by omega, by omega, ?_⟩
        rw [stateAt_succ there, Change.apply_of_disjoint _
          (disjoint change (mem_of_getElem? there))]
        exact Finset.mem_union_right _ inserted
      · refine ⟨block + 1, Nat.le_refl _, low, ?_⟩
        rw [stateAt_succ next, Change.apply]
        exact Finset.mem_sdiff.mpr ⟨Finset.mem_union_left _ member, deleted⟩

end Brace.Lib
