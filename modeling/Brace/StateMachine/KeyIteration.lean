import Brace.StateMachine.Reads

/-!
# Iteration over the keys of a state

`next_storage_key` alternates between the backend and the overlay and skips the deletions of the
overlay. For any content and any changes it finds the least key above the given one that has a
value (`nextKey_isNext`), so that following it lists the live keys in ascending order.
-/

namespace Brace.StateMachine

open Brace.Lib OverlayedChanges

variable (content : BTreeMap StorageKey StorageValue)

/-- What is read of one trie: the entry of the overlay, or else the content of the backend. -/
def readTrie (prospective committed : Changes) (key : StorageKey) : Option StorageValue :=
  ((entryOf prospective committed key).map (·.value)).getD (Finmap.lookup key content)

/-- A key of a trie is live when it has a value. -/
def Live (prospective committed : Changes) (key : StorageKey) : Prop :=
  readTrie content prospective committed key ≠ none

variable {content : BTreeMap StorageKey StorageValue} {prospective committed : Changes}
  {key : StorageKey}

theorem live_of_unchanged (unchanged : entryOf prospective committed key = none) :
    Live content prospective committed key ↔ key ∈ content := by
  rw [Live, readTrie, unchanged, HashMap.mem_iff_lookup_ne]
  rfl

theorem live_of_changed {entry : OverlayedValue}
    (changed : entryOf prospective committed key = some entry) :
    Live content prospective committed key ↔ entry.value.isSome := by
  rw [Live, readTrie, changed, Option.isSome_iff_ne_none]
  rfl

theorem Live.changed_or_mem (alive : Live content prospective committed key) :
    entryOf prospective committed key ≠ none ∨ key ∈ content := by
  by_cases changed : entryOf prospective committed key = none
  · exact .inr ((live_of_unchanged changed).mp alive)
  · exact .inl changed

/-- When no key of the backend comes before the next change, the search ends at the change if it
has a value, and goes on behind it if it is a deletion. -/
theorem isNext_of_change {change : StorageKey × OverlayedValue} {behind : Option StorageKey}
    (found : nextChange prospective committed key = some change)
    (later : ∀ other, other ∈ content → key < other → change.1 ≤ other)
    (search : IsNext (Live content prospective committed) change.1 behind) :
    IsNext (Live content prospective committed) key
      (if change.2.value.isSome then some change.1 else behind) := by
  obtain ⟨next, stored⟩ := nextChange_isNext prospective committed key
  rw [found] at next
  have entry := stored change found
  have least (other : StorageKey) (alive : Live content prospective committed other)
      (after : key < other) : change.1 ≤ other := by
    rcases alive.changed_or_mem with changed | mem
    · exact next.2.2 other changed after
    · exact later other mem after
  split
  · rename_i valued
    exact ⟨(live_of_changed entry).mpr valued, next.2.1, least⟩
  · rename_i deleted
    refine search.skip next.2.1 fun other alive after => ?_
    refine lt_of_le_of_ne (least other alive after) ?_
    rintro rfl
    exact deleted ((live_of_changed entry).mp alive)

variable (content : BTreeMap StorageKey StorageValue)

/-- **The search finds the next live key.** -/
theorem nextKey_isNext (prospective committed : Changes) (key : StorageKey) :
    IsNext (Live content prospective committed) key
      (nextKey (nextAbove content.keys) prospective committed key) := by
  have backend (key : StorageKey) : IsNext (· ∈ content) key (nextAbove content.keys key) := by
    simpa only [Finmap.mem_keys] using nextAbove_isNext content.keys key
  fun_induction nextKey (nextAbove content.keys) prospective committed key with
  | case1 key unchanged =>
    have next := (nextChange_isNext prospective committed key).1
    rw [unchanged] at next
    refine (backend key).congr fun other after => (live_of_unchanged ?_).symm
    by_contra changed
    exact absurd (next other changed) (not_le.mpr after)
  | case2 key change found backendKey result before _ =>
    obtain ⟨next, -⟩ := nextChange_isNext prospective committed key
    rw [found] at next
    have search := backend key
    rw [result] at search
    -- The overlay has no change at the backend's key: its first one comes later.
    have unchanged : entryOf prospective committed backendKey = none := by
      by_contra changed
      exact absurd (next.2.2 _ changed search.2.1) (not_le.mpr before)
    refine ⟨(live_of_unchanged unchanged).mpr search.1, search.2.1, fun other alive after => ?_⟩
    rcases alive.changed_or_mem with changed | mem
    · exact before.le.trans (next.2.2 other changed after)
    · exact search.2.2 other mem after
  | case3 key change found overlayKey backendKey result notBefore search =>
    refine isNext_of_change found (fun other mem after => ?_) search
    obtain ⟨first, same, least⟩ := (backend key).ahead mem after
    obtain rfl : first = backendKey := Option.some.inj (same.symm.trans result)
    exact (not_lt.mp notBefore).trans least
  | case4 key change found overlayKey result search =>
    refine isNext_of_change found (fun other mem after => ?_) search
    obtain ⟨first, same, -⟩ := (backend key).ahead mem after
    cases same.symm.trans result

/-- **Iteration lists the live keys.** Following the search from any key ends after exactly the
live keys above it, in ascending order. -/
theorem nextKey_enumerates (prospective committed : Changes) (key : StorageKey) :
    ∃ listed, Enumerates (nextKey (nextAbove content.keys) prospective committed) key listed ∧
      listed.Pairwise (· < ·) ∧
      ∀ other, other ∈ listed ↔
        key < other ∧ readTrie content prospective committed other ≠ none := by
  apply enumerates_of_isNext _ (content.keys ∪ prospective.keys ∪ committed.keys)
  · intro other alive
    simp only [Finset.mem_union, Finmap.mem_keys]
    rcases Live.changed_or_mem alive with changed | mem
    · have present := (entryOf_ne_none prospective committed other).mp changed
      tauto
    · exact .inl (.inl mem)
  · exact nextKey_isNext content prospective committed

end Brace.StateMachine
