import Mathlib

/-!
# Ordered sets

A set kept as a list by increasing order of a comparison, as a B-tree set keeps it: insertion
goes to the first place that is not below the new element and does nothing when the comparison
finds an equal element there, and removal drops the elements that compare equal.
-/

namespace Brace.Lib.OrderedSet

open List

variable {α : Type} (cmp : α → α → Ordering)

/-- Insert an element at its place, unless an equal one is there. -/
def insert (element : α) : List α → List α
  | [] => [element]
  | other :: rest =>
    match cmp element other with
    | .lt => element :: other :: rest
    | .eq => other :: rest
    | .gt => other :: insert element rest

/-- Drop the elements that compare equal. -/
def remove (element : α) (set : List α) : List α :=
  set.filter fun other => cmp element other ≠ .eq

variable {element value : α} {set : List α}

theorem mem_insert {cmp : α → α → Ordering}
    (unique : ∀ other ∈ set, cmp element other = .eq → other = element) (value : α) :
    value ∈ insert cmp element set ↔ value = element ∨ value ∈ set := by
  induction set with
  | nil => simp [insert]
  | cons other rest ih =>
    have tail := ih fun next mem => unique next (mem_cons_of_mem _ mem)
    unfold insert
    split
    · simp
    · rename_i same
      rw [unique other mem_cons_self same, mem_cons]
      tauto
    · rw [mem_cons, tail, mem_cons]
      tauto

theorem mem_remove {cmp : α → α → Ordering} :
    value ∈ remove cmp element set ↔ value ∈ set ∧ cmp element value ≠ .eq := by
  simp [remove]

/-- The elements are in strictly increasing order. -/
def Sorted (set : List α) : Prop :=
  set.Pairwise fun left right => cmp left right = .lt

theorem of_mem_insert {cmp : α → α → Ordering}
    (mem : value ∈ insert cmp element set) : value = element ∨ value ∈ set := by
  induction set with
  | nil => exact .inl (mem_singleton.mp mem)
  | cons other rest ih =>
    unfold insert at mem
    split at mem
    · exact mem_cons.mp mem
    · exact .inr mem
    · rcases mem_cons.mp mem with rfl | later
      · exact .inr mem_cons_self
      · exact (ih later).imp_right (mem_cons_of_mem other)

theorem insert_sorted {cmp : α → α → Ordering} [Std.TransCmp cmp]
    (sorted : Sorted cmp set) (element : α) : Sorted cmp (insert cmp element set) := by
  induction set with
  | nil => exact pairwise_singleton _ element
  | cons other rest ih =>
    obtain ⟨above, tail⟩ := pairwise_cons.mp sorted
    unfold insert
    split
    · rename_i below
      refine pairwise_cons.mpr ⟨fun value mem => ?_, sorted⟩
      rcases mem_cons.mp mem with rfl | later
      · exact below
      · exact Std.TransCmp.lt_trans below (above value later)
    · exact sorted
    · rename_i greater
      refine pairwise_cons.mpr ⟨fun value mem => ?_, ih tail⟩
      rcases of_mem_insert mem with rfl | later
      · exact Std.OrientedCmp.lt_of_gt greater
      · exact above value later

end Brace.Lib.OrderedSet
