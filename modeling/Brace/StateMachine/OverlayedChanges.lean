import Brace.Lib.OrderedMap

/-!
# The overlayed changes of a state

`primitives/state-machine/src/overlayed_changes.rs`: the changes to the storage of a block are
kept in two sets over the backend, the prospective one that an extrinsic may still discard and
the committed one. An entry carries the new value (`none` when the key is deleted) and, when the
runtime collects them, the indices of the extrinsics that touched it. Child tries have their own
maps under their storage key. `debug_assert!(updatable)` is compiled out of a release build.
-/

namespace Brace.StateMachine

open Brace.Lib Finmap Option

/-- A byte of a key or a value. -/
abbrev Byte := Fin 256

/-- `StorageKey`, ordered lexicographically. -/
abbrev StorageKey := List Byte

/-- `StorageValue`. -/
abbrev StorageValue := List Byte

/-- A `BTreeMap`: a finite map whose entries are visited in the order of its keys. -/
abbrev BTreeMap (Key Value : Type) := HashMap Key Value

/-- `OwnedChildInfo`: the unique id of a child trie. -/
inductive ChildInfo
  /-- A child trie of the default type. -/
  | default (data : List Byte)
deriving DecidableEq

/-- `key.starts_with(prefix)`. -/
def startsWith (key stem : StorageKey) : Bool :=
  stem.isPrefixOf key

/-- A byte string literal of the source. -/
def bytes (text : String) : List Byte :=
  text.toList.map fun char => Fin.ofNat 256 char.toNat

/-- `well_known_keys::EXTRINSIC_INDEX`. -/
def extrinsicIndexKey : StorageKey := bytes ":extrinsic_index"

/-- `well_known_keys::CHILD_STORAGE_KEY_PREFIX`. -/
def childStorageKeyPrefix : StorageKey := bytes ":child_storage:"

/-- `is_child_storage_key`. -/
def isChildStorageKey (key : StorageKey) : Bool :=
  startsWith key childStorageKeyPrefix

/-- `NO_EXTRINSIC_INDEX`. -/
def noExtrinsicIndex : Nat := 0xffffffff

/-- `Decode::decode` of a `u32`: four bytes, the lowest first, and whatever follows them. -/
def decodeU32 : StorageValue → Option Nat
  | first :: second :: third :: fourth :: _ =>
    some (first + 2 ^ 8 * second + 2 ^ 16 * third + 2 ^ 24 * fourth)
  | _ => none

/-- `OverlayedValue`. -/
structure OverlayedValue where
  /-- The current value, `none` if it has been deleted. -/
  value : Option StorageValue := none
  extrinsics : Option (Finset Nat) := none
deriving DecidableEq

/-- Write a value into an entry and record the extrinsic that did it. -/
def OverlayedValue.change (value : Option StorageValue) (extrinsicIndex : Option Nat)
    (entry : OverlayedValue) : OverlayedValue where
  value := value
  extrinsics := match extrinsicIndex with
    | some extrinsic => some (insert extrinsic (entry.extrinsics.getD ∅))
    | none => entry.extrinsics

/-- The changes to one trie. -/
abbrev Changes := BTreeMap StorageKey OverlayedValue

/-- `OverlayedChangeSet`. -/
structure OverlayedChangeSet where
  top : Changes := ∅
  /-- Child storage changes, with the info of each child trie. -/
  children : HashMap StorageKey (Changes × ChildInfo) := ∅
deriving DecidableEq

variable (set : OverlayedChangeSet)

/-- `OverlayedChangeSet::is_empty`. -/
def OverlayedChangeSet.isEmpty : Bool :=
  set.top.keys = ∅ ∧ set.children.keys = ∅

variable (storageKey : StorageKey)

/-- The changes to a child trie, none when it has no entry: `children.get(storage_key)`. -/
def OverlayedChangeSet.child : Changes :=
  ((Finmap.lookup storageKey set.children).map (·.1)).getD ∅

/-- The entry of a child trie, empty when it has none: `entry(storage_key).or_insert_with(..)`. -/
def OverlayedChangeSet.childEntry (childInfo : ChildInfo) : Changes × ChildInfo :=
  (Finmap.lookup storageKey set.children).getD (∅, childInfo)

/-- Write back the entry of a child trie. -/
def OverlayedChangeSet.putChild (entry : Changes × ChildInfo) : OverlayedChangeSet :=
  { set with children := Finmap.insert storageKey entry set.children }

/-- The first change after a key: `range((Excluded(key), Unbounded)).next()`. -/
def Changes.after (changes : Changes) (key : StorageKey) : Option (StorageKey × OverlayedValue) :=
  (nextAbove changes.keys key).bind fun next =>
    (Finmap.lookup next changes).map (Prod.mk next)

variable (prospective committed : Changes)

/-- Mark as removed the prospective and the committed keys that start with `stem`. -/
def Changes.markRemoved (stem : StorageKey) (extrinsicIndex : Option Nat) : Changes :=
  let removed (found : Option OverlayedValue) : OverlayedValue :=
    (found.getD {}).change none extrinsicIndex
  let prospective := prospective.alterFrom prospective (startsWith · stem) fun _ => removed
  prospective.alterFrom committed (startsWith · stem) fun _ => removed

/-- Commit the entry of one key over the one committed before. -/
def OverlayedValue.merge (prospective : OverlayedValue) (committed : Option OverlayedValue) :
    OverlayedValue where
  value := prospective.value
  extrinsics := match prospective.extrinsics with
    | some extrinsics => some (((committed.getD {}).extrinsics.getD ∅) ∪ extrinsics)
    | none => (committed.getD {}).extrinsics

/-- Commit the changes of one trie. -/
def Changes.commit : Changes :=
  committed.alterFrom prospective (fun _ => true) OverlayedValue.merge

/-- `OverlayedChanges`. -/
structure OverlayedChanges where
  /-- Changes that are not yet committed. -/
  prospective : OverlayedChangeSet := {}
  committed : OverlayedChangeSet := {}
  collectExtrinsics : Bool
deriving DecidableEq

namespace OverlayedChanges

variable (overlay : OverlayedChanges)

variable (key : StorageKey)

/-- `OverlayedChanges::storage`: `none` when the backend is to be asked. -/
def storage : Option (Option StorageValue) :=
  (Finmap.lookup key overlay.prospective.top <|>
    Finmap.lookup key overlay.committed.top).map (·.value)

/-- `OverlayedChanges::child_storage`. -/
def childStorage (storageKey key : StorageKey) : Option (Option StorageValue) :=
  let stored (set : OverlayedChangeSet) : Option OverlayedValue :=
    (Finmap.lookup storageKey set.children).bind fun child => Finmap.lookup key child.1
  match stored overlay.prospective with
  | some entry => some entry.value
  | none =>
    match stored overlay.committed with
    | some entry => some entry.value
    | none => none

/-- `OverlayedChanges::extrinsic_index`. -/
def extrinsicIndex : Option Nat :=
  if overlay.collectExtrinsics then
    some (((overlay.storage extrinsicIndexKey).bind fun index =>
      index.bind decodeU32).getD noExtrinsicIndex)
  else
    none

/-- `OverlayedChanges::set_storage`. -/
def setStorage (value : Option StorageValue) : OverlayedChanges :=
  let top := overlay.prospective.top.alter key fun entry =>
    (entry.getD {}).change value overlay.extrinsicIndex
  { overlay with prospective := { overlay.prospective with top } }

/-- `OverlayedChanges::set_child_storage`. -/
def setChildStorage (storageKey : StorageKey) (childInfo : ChildInfo) (key : StorageKey)
    (value : Option StorageValue) : OverlayedChanges :=
  let entry := overlay.prospective.childEntry storageKey childInfo
  let changes := entry.1.alter key fun entry =>
    (entry.getD {}).change value overlay.extrinsicIndex
  { overlay with prospective := overlay.prospective.putChild storageKey (changes, entry.2) }

/-- `OverlayedChanges::clear_child_storage`. -/
def clearChildStorage (storageKey : StorageKey) (childInfo : ChildInfo) : OverlayedChanges :=
  let extrinsicIndex := overlay.extrinsicIndex
  let entry := overlay.prospective.childEntry storageKey childInfo
  let changes := entry.1.alterFrom entry.1 (fun _ => true) fun entry _ =>
    entry.change none extrinsicIndex
  let changes := match Finmap.lookup storageKey overlay.committed.children with
    | some (committed, _) =>
      changes.alterFrom committed (fun _ => true) fun value found =>
        found.getD
          { value := none
            extrinsics := extrinsicIndex.map fun index =>
              insert index (value.extrinsics.getD ∅) }
    | none => changes
  { overlay with prospective := overlay.prospective.putChild storageKey (changes, entry.2) }

/-- `OverlayedChanges::clear_prefix`. -/
def clearPrefix (stem : StorageKey) : OverlayedChanges :=
  let top := overlay.prospective.top.markRemoved overlay.committed.top stem
    overlay.extrinsicIndex
  { overlay with prospective := { overlay.prospective with top } }

/-- `OverlayedChanges::clear_child_prefix`. -/
def clearChildPrefix (storageKey : StorageKey) (childInfo : ChildInfo) (stem : StorageKey) :
    OverlayedChanges :=
  let entry := overlay.prospective.childEntry storageKey childInfo
  let changes := entry.1.markRemoved (overlay.committed.child storageKey) stem
    overlay.extrinsicIndex
  { overlay with prospective := overlay.prospective.putChild storageKey (changes, entry.2) }

/-- `OverlayedChanges::discard_prospective`. -/
def discardProspective : OverlayedChanges :=
  { overlay with prospective := {} }

/-- `OverlayedChanges::commit_prospective`. -/
def commitProspective : OverlayedChanges :=
  if overlay.committed.isEmpty then
    { overlay with prospective := overlay.committed, committed := overlay.prospective }
  else
    let children := overlay.committed.children.alterFrom overlay.prospective.children
      (fun _ => true) fun prospective found =>
        let committed := found.getD (∅, prospective.2)
        (prospective.1.commit committed.1, committed.2)
    { overlay with
      prospective := {}
      committed :=
        { top := overlay.prospective.top.commit overlay.committed.top
          children } }

/-- The choice of `next_storage_key_change` and of `next_child_storage_key_change` between the two
sets: the smaller key, and the prospective change when both have it. -/
def nextChange : Option (StorageKey × OverlayedValue) :=
  match committed.after key, prospective.after key with
  | some committedKey, some prospectiveKey =>
    if committedKey.1 < prospectiveKey.1 then some committedKey else some prospectiveKey
  | committedKey, none => committedKey
  | none, prospectiveKey => prospectiveKey

end OverlayedChanges

/-! ## The next change -/

theorem Changes.after_isNext (changes : Changes) (key : StorageKey) :
    IsNext (· ∈ changes) key ((changes.after key).map Prod.fst) ∧
      ∀ change, changes.after key = some change →
        changes.lookup change.1 = some change.2 := by
  have search := nextAbove_isNext changes.keys key
  simp only [mem_keys] at search
  cases found : nextAbove changes.keys key with
  | none =>
    rw [found] at search
    simpa [Changes.after, found] using search
  | some next =>
    rw [found] at search
    obtain ⟨entry, stored⟩ := mem_iff.mp search.1
    have after : changes.after key = some (next, entry) := by
      simp [Changes.after, found, stored]
    rw [after]
    refine ⟨search, fun change same => ?_⟩
    cases same
    exact stored

variable (key : StorageKey)

/-- The entry that reads find in the two sets: the prospective one, or else the committed. -/
def OverlayedChanges.entryOf : Option OverlayedValue :=
  Finmap.lookup key prospective <|> Finmap.lookup key committed

theorem OverlayedChanges.entryOf_ne_none :
    entryOf prospective committed key ≠ none ↔ key ∈ prospective ∨ key ∈ committed := by
  rw [HashMap.mem_iff_lookup_ne, HashMap.mem_iff_lookup_ne, entryOf]
  cases prospective.lookup key <;> simp

/-- **The next change of the overlay.** It is at the next key of the two sets together, with the
entry that a read of that key finds. -/
theorem OverlayedChanges.nextChange_isNext :
    IsNext (entryOf prospective committed · ≠ none) key
        ((nextChange prospective committed key).map Prod.fst) ∧
      ∀ change, nextChange prospective committed key = some change →
        entryOf prospective committed change.1 = some change.2 := by
  simp only [entryOf_ne_none]
  obtain ⟨nextProspective, storedProspective⟩ := prospective.after_isNext key
  obtain ⟨nextCommitted, storedCommitted⟩ := committed.after_isNext key
  have ofProspective (change : StorageKey × OverlayedValue)
      (found : prospective.after key = some change) :
      entryOf prospective committed change.1 = some change.2 := by
    simp [entryOf, storedProspective change found]
  -- A committed change is read only when the prospective set does not have its key.
  have ofCommitted (change : StorageKey × OverlayedValue)
      (found : committed.after key = some change) (absent : change.1 ∉ prospective) :
      entryOf prospective committed change.1 = some change.2 := by
    simp [entryOf, storedCommitted change found, lookup_eq_none.mpr absent]
  cases second : prospective.after key with
  | none =>
    rw [second] at nextProspective
    have chosen : nextChange prospective committed key = committed.after key := by
      cases first : committed.after key <;> simp [nextChange, first, second]
    rw [chosen]
    refine ⟨nextProspective.or_of_none nextCommitted, fun change found => ?_⟩
    rw [found] at nextCommitted
    refine ofCommitted change found fun present => ?_
    exact absurd (nextProspective _ present) (not_le.mpr nextCommitted.2.1)
  | some prospectiveKey =>
    rw [second] at nextProspective
    cases first : committed.after key with
    | none =>
      rw [first] at nextCommitted
      simp only [nextChange, first, second]
      refine ⟨nextProspective.or nextCommitted (fun later absurd => nomatch absurd), ?_⟩
      intro change same
      cases same
      exact ofProspective prospectiveKey second
    | some committedKey =>
      rw [first] at nextCommitted
      simp only [nextChange, first, second]
      split
      · rename_i before
        have swapped := nextCommitted.or nextProspective fun later same =>
          some.inj same ▸ before.le
        refine ⟨by simpa only [or_comm, map_some] using swapped, fun change same => ?_⟩
        cases same
        apply ofCommitted committedKey first
        intro present
        exact absurd (nextProspective.2.2 _ present nextCommitted.2.1) (not_le.mpr before)
      · rename_i after
        refine ⟨nextProspective.or nextCommitted fun later same =>
          some.inj same ▸ not_lt.mp after, fun change same => ?_⟩
        cases same
        exact ofProspective prospectiveKey second

end Brace.StateMachine
