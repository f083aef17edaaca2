import Brace.StateDb.NonCanonical

/-!
# Reference counts of node values

The window keeps one value for each key together with a counter. `Counts` states what the
counter is for: it is the number of occurrences of the key in the insertions that are still
alive, and a key without occurrences is absent. `insertValues` and `discardValues` move the
counters exactly by the occurrences in their argument, and a discard undoes an insertion of
the same keys whatever the table held before.
-/

namespace Brace.StateDb

open Brace.Lib List HashMap

variable {BlockHash Key : Type} [DecidableEq BlockHash] [DecidableEq Key]

/-- Every key has its number of occurrences as its counter and its content as its value. -/
def Counts (content : Key → DBValue) (occurrences : Key → Nat)
    (values : HashMap Key (Nat × DBValue)) : Prop :=
  ∀ key, Finmap.lookup key values =
    if occurrences key = 0 then none else some (occurrences key, content key)

variable {content : Key → DBValue} {occurrences : Key → Nat} {values : HashMap Key (Nat × DBValue)}

theorem Counts.congr {others : Key → Nat} (counts : Counts content occurrences values)
    (same : ∀ key, occurrences key = others key) : Counts content others values :=
  (funext same : occurrences = others) ▸ counts

theorem Counts.empty (content : Key → DBValue) : Counts content (fun _ => 0) ∅ := by
  intro key
  simp

theorem Counts.insertValue (counts : Counts content occurrences values)
    (entry : Key × DBValue) (same : entry.2 = content entry.1) :
    Counts content (fun key => occurrences key + [entry.1].count key)
      (insertValue values entry) := by
  intro key
  unfold StateDb.insertValue
  rw [counts entry.1]
  by_cases here : key = entry.1
  · subst here
    by_cases zero : occurrences entry.1 = 0 <;> simp [zero, same]
  · have elsewhere : [entry.1].count key = 0 := by simp [Ne.symm here]
    rw [lookup_insert_eq, if_neg here, counts key]
    simp only [elsewhere, Nat.add_zero]

theorem Counts.insertValues (counts : Counts content occurrences values)
    (inserted : List (Key × DBValue)) (same : ∀ entry ∈ inserted, entry.2 = content entry.1) :
    Counts content (fun key => occurrences key + (inserted.map Prod.fst).count key)
      (insertValues values inserted) := by
  induction inserted generalizing occurrences values with
  | nil => simpa [StateDb.insertValues] using counts
  | cons entry rest ih =>
    have first := counts.insertValue entry (same entry mem_cons_self)
    have later := ih first fun other mem => same other (mem_cons_of_mem _ mem)
    refine later.congr fun key => ?_
    simp only [map_cons, count_cons, count_nil]
    omega

theorem Counts.discardValue (key : Key)
    (counts : Counts content (fun other => occurrences other + [key].count other) values) :
    Counts content occurrences (discardValue values key) := by
  intro other
  have here := counts key
  simp only [count_singleton_self, Nat.add_eq_zero_iff, one_ne_zero, and_false, ↓reduceIte] at here
  unfold StateDb.discardValue
  rw [here]
  simp only [Nat.add_sub_cancel]
  by_cases same : other = key
  · subst same
    split <;> simp
  · have elsewhere := counts other
    simp only [count_singleton, beq_iff_eq, Ne.symm same, ↓reduceIte, Nat.add_zero] at elsewhere
    split
    · rw [lookup_erase_eq, if_neg same, elsewhere]
    · rw [lookup_insert_eq, if_neg same, elsewhere]

theorem Counts.discardValues {keys : List Key}
    (counts : Counts content (fun key => occurrences key + keys.count key) values) :
    Counts content occurrences (discardValues values keys) := by
  induction keys generalizing values with
  | nil => simpa [StateDb.discardValues] using counts
  | cons first rest ih =>
    apply ih
    apply Counts.discardValue
    refine counts.congr fun key => ?_
    simp only [count_cons, count_nil]
    omega

/-! ## Undoing an insertion -/

/-- No stored counter is zero. -/
def Positive (values : HashMap Key (Nat × DBValue)) : Prop :=
  ∀ key counter value, Finmap.lookup key values = some (counter, value) → 0 < counter

section

variable (positive : Positive values)

include positive

theorem Positive.insertValue (entry : Key × DBValue) : Positive (insertValue values entry) := by
  intro key counter value stored
  simp only [StateDb.insertValue, lookup_insert_eq] at stored
  split at stored
  · simp only [Option.some.injEq, Prod.mk.injEq] at stored
    omega
  · exact positive key counter value stored

theorem Positive.insertValues
    (inserted : List (Key × DBValue)) : Positive (insertValues values inserted) := by
  induction inserted generalizing values with
  | nil => exact positive
  | cons entry rest ih => exact ih (positive.insertValue entry)

theorem Positive.discardValue (key : Key) : Positive (discardValue values key) := by
  intro other counter value stored
  unfold StateDb.discardValue at stored
  split at stored
  · rename_i old content found
    split at stored
    · rw [lookup_erase_eq] at stored
      split at stored
      · contradiction
      · exact positive other counter value stored
    · rename_i left
      rw [lookup_insert_eq] at stored
      split at stored
      · simp only [Option.some.injEq, Prod.mk.injEq] at stored
        omega
      · exact positive other counter value stored
  · exact positive other counter value stored

theorem Positive.discardValues (keys : List Key) : Positive (discardValues values keys) := by
  induction keys generalizing values with
  | nil => exact positive
  | cons key rest ih => exact ih (positive.discardValue key)

end

/-- What discarding one occurrence does to a stored entry. -/
def released : Option (Nat × DBValue) → Option (Nat × DBValue)
  | some (counter, value) => if counter - 1 = 0 then none else some (counter - 1, value)
  | none => none

theorem lookup_discardValue (values : HashMap Key (Nat × DBValue)) (key other : Key) :
    (discardValue values key).lookup other =
      if other = key then released (values.lookup other) else values.lookup other := by
  unfold discardValue
  by_cases same : other = key
  · subst same
    cases stored : values.lookup other with
    | none => simp [released, stored]
    | some found =>
      simp only [released, ↓reduceIte]
      split <;> simp
  · rw [if_neg same]
    split
    · split
      · rw [lookup_erase_eq, if_neg same]
      · rw [lookup_insert_eq, if_neg same]
    · rfl

theorem lookup_discardValues (values : HashMap Key (Nat × DBValue)) (keys : List Key)
    (key : Key) : (discardValues values keys).lookup key =
      released^[keys.count key] (values.lookup key) := by
  induction keys generalizing values with
  | nil => rfl
  | cons first rest ih =>
    change (discardValues (discardValue values first) rest).lookup key = _
    rw [ih, lookup_discardValue]
    by_cases same : key = first
    · subst same
      rw [if_pos rfl, count_cons_self, Function.iterate_succ_apply]
    · rw [if_neg same, count_cons_of_ne (Ne.symm same)]

theorem released_insertValue (positive : Positive values) (entry : Key × DBValue) :
    released ((insertValue values entry).lookup entry.1) = values.lookup entry.1 := by
  cases stored : values.lookup entry.1 with
  | none => simp [insertValue, stored, released]
  | some found =>
    have left : found.1 ≠ 0 := Nat.pos_iff_ne_zero.mp (positive _ found.1 found.2 stored)
    simp [insertValue, stored, released, left]

/-- **`discard_values` undoes `insert_values`** of the same keys, on any table with positive
counters. -/
theorem discardValues_insertValues (positive : Positive values) (inserted : List (Key × DBValue)) :
    discardValues (insertValues values inserted) (inserted.map Prod.fst) = values := by
  apply Finmap.ext_lookup
  intro key
  rw [lookup_discardValues]
  induction inserted generalizing values with
  | nil => rfl
  | cons entry rest ih =>
    have later := ih (positive.insertValue entry)
    change released^[(entry.1 :: rest.map Prod.fst).count key]
      ((insertValues (insertValue values entry) rest).lookup key) = _
    by_cases same : key = entry.1
    · subst same
      rw [count_cons_self, Function.iterate_succ_apply', later, released_insertValue positive entry]
    · rw [count_cons_of_ne (Ne.symm same), later, insertValue, lookup_insert_eq, if_neg same]

end Brace.StateDb
