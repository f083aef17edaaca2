import Brace.StateMachine.Ext

/-!
# Reads of the overlay after each change

What `storage` and `child_storage` of the overlay answer after each of its changes. A write is
seen at its key; a clear turns every entry it reaches into a deletion; a commit moves entries
between the two sets and changes no read. The changes of the top trie and of one child trie are
the same function of a map of entries, so each fact is proved once for that map (`entryOf`).
-/

namespace Brace.StateMachine

open Brace.Lib Finmap HashMap Option OverlayedChangeSet

namespace OverlayedChanges

/-! ## One trie -/

section

variable (prospective committed : Changes)

theorem value_entryOf_alter (key other : StorageKey)
    (value : Option StorageValue) (extrinsicIndex : Option Nat) :
    (entryOf (prospective.alter key fun entry => (entry.getD {}).change value extrinsicIndex)
        committed other).map (·.value) =
      if other = key then some value
      else (entryOf prospective committed other).map (·.value) := by
  rw [entryOf, lookup_alter]
  split
  · rfl
  · rfl

theorem value_entryOf_markRemoved (stem key : StorageKey) (extrinsicIndex : Option Nat) :
    (entryOf (prospective.markRemoved committed stem extrinsicIndex) committed key).map (·.value) =
      if startsWith key stem then (entryOf prospective committed key).map fun _ => none
      else (entryOf prospective committed key).map (·.value) := by
  rw [entryOf, Changes.markRemoved, lookup_alterFrom, lookup_alterFrom, entryOf]
  cases prospective.lookup key <;> cases committed.lookup key <;>
    by_cases reached : startsWith key stem <;> simp [reached, OverlayedValue.change]

theorem value_lookup_commit (key : StorageKey) :
    ((prospective.commit committed).lookup key).map (·.value) =
      (entryOf prospective committed key).map (·.value) := by
  rw [Changes.commit, lookup_alterFrom, entryOf]
  cases prospective.lookup key with
  | none => rfl
  | some entry => rfl

end

@[simp] theorem entryOf_empty_left (committed : Changes) (key : StorageKey) :
    entryOf ∅ committed key = committed.lookup key := by
  simp [entryOf]

@[simp] theorem entryOf_empty_right (prospective : Changes) (key : StorageKey) :
    entryOf prospective ∅ key = prospective.lookup key := by
  simp [entryOf]

/-! ## The maps of the child tries -/

@[simp] theorem childEntry_fst (set : OverlayedChangeSet) (storageKey : StorageKey)
    (childInfo : ChildInfo) : (set.childEntry storageKey childInfo).1 = set.child storageKey := by
  unfold childEntry child
  cases set.children.lookup storageKey <;> rfl

theorem child_putChild (set : OverlayedChangeSet) (storageKey other : StorageKey)
    (entry : Changes × ChildInfo) :
    (set.putChild storageKey entry).child other =
      if other = storageKey then entry.1 else set.child other := by
  unfold putChild child
  rw [lookup_insert_eq]
  split
  · rfl
  · rfl

@[simp] theorem child_empty (storageKey : StorageKey) :
    (({} : OverlayedChangeSet).child storageKey) = ∅ := by
  simp [child]

theorem lookup_child (set : OverlayedChangeSet) (storageKey key : StorageKey) :
    ((set.children.lookup storageKey).bind fun child => child.1.lookup key) =
      (set.child storageKey).lookup key := by
  unfold child
  cases set.children.lookup storageKey <;> simp

theorem storage_eq (overlay : OverlayedChanges) (key : StorageKey) :
    overlay.storage key =
      (entryOf overlay.prospective.top overlay.committed.top key).map (·.value) :=
  rfl

theorem childStorage_eq (overlay : OverlayedChanges) (storageKey key : StorageKey) :
    overlay.childStorage storageKey key =
      (entryOf (overlay.prospective.child storageKey) (overlay.committed.child storageKey)
        key).map (·.value) := by
  simp only [childStorage, lookup_child, entryOf]
  cases (overlay.prospective.child storageKey).lookup key with
  | some entry => rfl
  | none =>
    cases (overlay.committed.child storageKey).lookup key with
    | some entry => rfl
    | none => rfl

/-! ## The changes of the overlay -/

section

variable (overlay : OverlayedChanges)

include overlay

theorem storage_setStorage (key other : StorageKey) (value : Option StorageValue) :
    (overlay.setStorage key value).storage other =
      if other = key then some value else overlay.storage other :=
  value_entryOf_alter _ _ _ _ _ _

theorem storage_clearPrefix (stem key : StorageKey) :
    (overlay.clearPrefix stem).storage key =
      if startsWith key stem then (overlay.storage key).map fun _ => none
      else overlay.storage key := by
  simp only [storage_eq, map_map]
  exact value_entryOf_markRemoved _ _ _ _ _

theorem childStorage_putChild (storageKey other key : StorageKey) (entry : Changes × ChildInfo) :
    ({ overlay with prospective := overlay.prospective.putChild storageKey entry }
        : OverlayedChanges).childStorage other key =
      if other = storageKey then
        (entryOf entry.1 (overlay.committed.child storageKey) key).map (·.value)
      else overlay.childStorage other key := by
  simp only [childStorage_eq, child_putChild]
  split
  · rename_i same
    rw [same]
  · rfl

variable (storageKey : StorageKey)

variable (childInfo : ChildInfo)

theorem childStorage_setChildStorage
    (key : StorageKey) (value : Option StorageValue) (other otherKey : StorageKey) :
    (overlay.setChildStorage storageKey childInfo key value).childStorage other otherKey =
      if other = storageKey ∧ otherKey = key then some value
      else overlay.childStorage other otherKey := by
  rw [setChildStorage, childStorage_putChild, childEntry_fst, value_entryOf_alter]
  by_cases same : other = storageKey
  · simp [same, childStorage_eq]
  · simp [same]

theorem childStorage_clearChildPrefix (stem other key : StorageKey) :
    (overlay.clearChildPrefix storageKey childInfo stem).childStorage other key =
      if other = storageKey ∧ startsWith key stem then
        (overlay.childStorage other key).map fun _ => none
      else overlay.childStorage other key := by
  rw [clearChildPrefix, childStorage_putChild, childEntry_fst, value_entryOf_markRemoved]
  by_cases same : other = storageKey
  · simp [same, childStorage_eq, map_map, Function.comp_def]
  · simp [same]

theorem childStorage_clearChildStorage (other key : StorageKey) :
    (overlay.clearChildStorage storageKey childInfo).childStorage other key =
      if other = storageKey then (overlay.childStorage other key).map fun _ => none
      else overlay.childStorage other key := by
  rw [clearChildStorage, childStorage_putChild, childEntry_fst]
  by_cases same : other = storageKey
  · subst same
    rw [if_pos rfl, if_pos rfl, childStorage_eq]
    have cleared (changes : Changes) :
        (changes.alterFrom changes (fun _ => true) fun entry _ =>
          entry.change none overlay.extrinsicIndex).lookup key =
        (changes.lookup key).map (·.change none overlay.extrinsicIndex) := by
      rw [lookup_alterFrom]
      cases changes.lookup key <;> rfl
    generalize overlay.prospective.child other = prospective
    unfold child
    cases overlay.committed.children.lookup other with
    | none =>
      simp only [map_none, getD_none, entryOf_empty_right, cleared, map_map]
      rfl
    | some committed =>
      simp only [entryOf, lookup_alterFrom, cleared, map_some, getD_some]
      cases prospective.lookup key <;> cases committed.1.lookup key <;>
        simp [OverlayedValue.change]
  · simp [same]

end

theorem eq_empty_of_isEmpty {set : OverlayedChangeSet} (empty : set.isEmpty = true) : set = {} := by
  obtain ⟨top, children⟩ := set
  obtain ⟨noTop, noChildren⟩ := of_decide_eq_true empty
  have none_of_keys {Value : Type} (map : HashMap StorageKey Value) (bare : map.keys = ∅) :
      map = ∅ := by
    apply ext_lookup
    intro key
    rw [lookup_empty, lookup_eq_none, ← mem_keys, bare]
    exact Finset.notMem_empty key
  rw [none_of_keys top noTop, none_of_keys children noChildren]

variable (overlay : OverlayedChanges)

theorem prospective_commitProspective : overlay.commitProspective.prospective = {} := by
  unfold commitProspective
  split
  · rename_i empty
    exact eq_empty_of_isEmpty empty
  · rfl

theorem storage_commitProspective (key : StorageKey) :
    overlay.commitProspective.storage key = overlay.storage key := by
  rw [storage_eq, prospective_commitProspective, storage_eq]
  unfold commitProspective
  split
  · rename_i empty
    rw [eq_empty_of_isEmpty empty]
    simp
  · exact (congrArg _ (entryOf_empty_left _ _)).trans (value_lookup_commit _ _ _)

theorem childStorage_commitProspective (storageKey key : StorageKey) :
    overlay.commitProspective.childStorage storageKey key =
      overlay.childStorage storageKey key := by
  rw [childStorage_eq, prospective_commitProspective, childStorage_eq, child_empty,
    entryOf_empty_left]
  unfold commitProspective
  split
  · rename_i empty
    rw [eq_empty_of_isEmpty empty, child_empty, entryOf_empty_right]
  · rw [← value_lookup_commit]
    congr 1
    unfold child
    rw [lookup_alterFrom]
    cases overlay.prospective.children.lookup storageKey with
    | none => simp [Changes.commit, lookup_alterFrom]
    | some prospective =>
      cases overlay.committed.children.lookup storageKey with
      | none => rfl
      | some committed => rfl

end OverlayedChanges

end Brace.StateMachine
