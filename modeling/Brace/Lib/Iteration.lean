import Mathlib

/-!
# Iteration orders of hash sets

A hash set does not fix the order in which its elements are visited, and two sets with the same
elements may be visited in two orders. An `Iteration` is one choice of all these orders: for
each place of the program that iterates and each set met there, a list of the elements of the
set without repetition. A result about every iteration holds whatever order the hash sets take.
-/

namespace Brace.Lib

/-- The order in which the sets met at each place are visited. -/
structure Iteration (Place α : Type) where
  /-- The elements in the order of the visit. -/
  list : Place → Finset α → List α
  nodup : ∀ place set, (list place set).Nodup
  mem_list : ∀ place set element, element ∈ list place set ↔ element ∈ set

namespace Iteration

variable {Place α : Type}

theorem sum_list [DecidableEq α] (iteration : Iteration Place α) (place : Place) (set : Finset α)
    (weight : α → Nat) :
    ((iteration.list place set).map weight).sum = ∑ element ∈ set, weight element := by
  have same : (iteration.list place set).toFinset = set := by
    ext element
    rw [List.mem_toFinset, iteration.mem_list]
  conv_rhs => rw [← same]
  exact (List.sum_toFinset weight (iteration.nodup place set)).symm

/-- Every type of elements has an iteration. -/
instance : Nonempty (Iteration Place α) :=
  ⟨⟨fun _ set => set.toList, fun _ set => set.nodup_toList, fun _ _ _ => Finset.mem_toList⟩⟩

/-- The elements of a set by increasing order. -/
def sortedList [LinearOrder α] (set : Finset α) : List α :=
  Quot.liftOn set.val (List.insertionSort (· ≤ ·)) fun left right perm =>
    List.Perm.eq_of_pairwise (fun _ _ _ _ => le_antisymm)
      (List.pairwise_insertionSort (· ≤ ·) left) (List.pairwise_insertionSort (· ≤ ·) right)
      (((List.perm_insertionSort (· ≤ ·) left).trans perm).trans
        (List.perm_insertionSort (· ≤ ·) right).symm)

theorem coe_sortedList [LinearOrder α] (set : Finset α) :
    (sortedList set : Multiset α) = set.val := by
  rcases set with ⟨elements, nodup⟩
  induction elements using Quot.inductionOn with
  | h list => exact Quot.sound (List.perm_insertionSort _ _)

/-- The visit by increasing order, an iteration that can be evaluated. -/
def sorted (Place : Type) (α : Type) [LinearOrder α] : Iteration Place α where
  list _ set := sortedList set
  nodup _ set := by
    have nodup := set.nodup
    rw [← coe_sortedList] at nodup
    exact nodup
  mem_list _ set element := by
    rw [← Multiset.mem_coe, coe_sortedList]
    rfl

end Iteration

end Brace.Lib
