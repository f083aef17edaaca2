import Brace.StateMachine.OverlayedChanges

/-!
# The externalities over an overlay and a backend

`primitives/state-machine/src/ext.rs`: the host functions of the runtime read and write its
storage through `Ext`. A read asks the overlay and then the backend; a write goes to the overlay;
a clear marks the keys of the overlay and then, one by one, those of the backend. The backend is
the in-memory one (`in_memory_backend.rs`), which holds the content of the tries as ordered maps.
-/

namespace Brace.StateMachine

open Brace.Lib

/-- The content of a backend: the top trie, and the child tries by storage key and info. -/
structure Backend where
  top : BTreeMap StorageKey StorageValue
  children : HashMap (StorageKey × ChildInfo) (BTreeMap StorageKey StorageValue)
deriving DecidableEq

namespace Backend

variable (backend : Backend)

variable (storageKey : StorageKey)

variable (childInfo : ChildInfo)

/-- The content of a child trie, empty when there is none. -/
def child : BTreeMap StorageKey StorageValue :=
  (Finmap.lookup (storageKey, childInfo) backend.children).getD ∅

variable (key : StorageKey)

/-- `Backend::storage`. -/
def storage : Option StorageValue :=
  Finmap.lookup key backend.top

/-- `Backend::child_storage`. -/
def childStorage : Option StorageValue :=
  Finmap.lookup key (backend.child storageKey childInfo)

/-- `Backend::exists_storage`. -/
def existsStorage : Bool :=
  (backend.storage key).isSome

/-- `Backend::exists_child_storage`. -/
def existsChildStorage : Bool :=
  (backend.childStorage storageKey childInfo key).isSome

/-- `Backend::next_storage_key`. -/
def nextStorageKey : Option StorageKey :=
  nextAbove backend.top.keys key

/-- `Backend::next_child_storage_key`. -/
def nextChildStorageKey : Option StorageKey :=
  nextAbove (backend.child storageKey childInfo).keys key

/-- The keys visited by `for_keys_with_prefix`. -/
def keysWithPrefix (stem : StorageKey) : List StorageKey :=
  (backend.top.keys.sort (· ≤ ·)).filter (startsWith · stem)

/-- The keys visited by `for_keys_in_child_storage`. -/
def keysInChildStorage : List StorageKey :=
  (backend.child storageKey childInfo).keys.sort (· ≤ ·)

/-- The keys visited by `for_child_keys_with_prefix`. -/
def childKeysWithPrefix (stem : StorageKey) : List StorageKey :=
  ((backend.child storageKey childInfo).keys.sort (· ≤ ·)).filter (startsWith · stem)

end Backend

/-- `Ext`: an overlay over a backend. -/
structure Ext where
  overlay : OverlayedChanges
  backend : Backend
deriving DecidableEq

theorem nextChange_ahead {prospective committed : Changes} {key : StorageKey}
    {change : StorageKey × OverlayedValue}
    (found : OverlayedChanges.nextChange prospective committed key = some change) :
    change.1 ∈ prospective.keys ∪ committed.keys ∧ key < change.1 := by
  have next := (OverlayedChanges.nextChange_isNext prospective committed key).1
  rw [found] at next
  have mem := (OverlayedChanges.entryOf_ne_none prospective committed change.1).mp next.1
  refine ⟨?_, next.2.1⟩
  rwa [Finset.mem_union, Finmap.mem_keys, Finmap.mem_keys]

/-- The search of `next_storage_key` and `next_child_storage_key`: the backend's next key when it
comes before every change of the overlay, the key of the next change when it has a value, and
otherwise the search from there. -/
def nextKey (backendNext : StorageKey → Option StorageKey) (prospective committed : Changes)
    (key : StorageKey) : Option StorageKey :=
  match _ : OverlayedChanges.nextChange prospective committed key with
  | none => backendNext key
  | some change =>
    let overlayKey :=
      if change.2.value.isSome then some change.1
      else nextKey backendNext prospective committed change.1
    match backendNext key with
    | some backendKey => if backendKey < change.1 then some backendKey else overlayKey
    | none => overlayKey
termination_by (above (prospective.keys ∪ committed.keys) key).card
decreasing_by
  rename_i found _
  have ahead := nextChange_ahead found
  exact card_above_lt ahead.1 ahead.2

namespace Ext

variable (ext : Ext)

variable (key : StorageKey)

/-- `Externalities::storage`. -/
def storage : Option StorageValue :=
  (ext.overlay.storage key).getD (ext.backend.storage key)

/-- `Externalities::child_storage`. -/
def childStorage (storageKey : StorageKey) (childInfo : ChildInfo) (key : StorageKey) :
    Option StorageValue :=
  (ext.overlay.childStorage storageKey key).getD
    (ext.backend.childStorage storageKey childInfo key)

/-- `Externalities::exists_storage`. -/
def existsStorage : Bool :=
  match ext.overlay.storage key with
  | some value => value.isSome
  | none => ext.backend.existsStorage key

/-- `Externalities::exists_child_storage`. -/
def existsChildStorage (storageKey : StorageKey) (childInfo : ChildInfo) (key : StorageKey) :
    Bool :=
  match ext.overlay.childStorage storageKey key with
  | some value => value.isSome
  | none => ext.backend.existsChildStorage storageKey childInfo key

/-- `Externalities::next_storage_key`. -/
def nextStorageKey : Option StorageKey :=
  nextKey ext.backend.nextStorageKey ext.overlay.prospective.top ext.overlay.committed.top key

/-- `Externalities::next_child_storage_key`. -/
def nextChildStorageKey (storageKey : StorageKey) (childInfo : ChildInfo) (key : StorageKey) :
    Option StorageKey :=
  nextKey (ext.backend.nextChildStorageKey storageKey childInfo)
    (ext.overlay.prospective.child storageKey) (ext.overlay.committed.child storageKey) key

/-- `Externalities::place_storage`. -/
def placeStorage (value : Option StorageValue) : Ext :=
  if isChildStorageKey key then
    ext
  else
    { ext with overlay := ext.overlay.setStorage key value }

/-- `Externalities::place_child_storage`. -/
def placeChildStorage (storageKey : StorageKey) (childInfo : ChildInfo) (key : StorageKey)
    (value : Option StorageValue) : Ext :=
  { ext with overlay := ext.overlay.setChildStorage storageKey childInfo key value }

/-- `Externalities::kill_child_storage`. -/
def killChildStorage (storageKey : StorageKey) (childInfo : ChildInfo) : Ext :=
  let keys := ext.backend.keysInChildStorage storageKey childInfo
  { ext with
    overlay := keys.foldl
      (fun overlay key => overlay.setChildStorage storageKey childInfo key none)
      (ext.overlay.clearChildStorage storageKey childInfo) }

/-- `Externalities::clear_prefix`. -/
def clearPrefix (stem : StorageKey) : Ext :=
  if isChildStorageKey stem then
    ext
  else
    { ext with
      overlay := (ext.backend.keysWithPrefix stem).foldl
        (fun overlay key => overlay.setStorage key none) (ext.overlay.clearPrefix stem) }

/-- `Externalities::clear_child_prefix`. -/
def clearChildPrefix (storageKey : StorageKey) (childInfo : ChildInfo) (stem : StorageKey) : Ext :=
  let keys := ext.backend.childKeysWithPrefix storageKey childInfo stem
  { ext with
    overlay := keys.foldl
      (fun overlay key => overlay.setChildStorage storageKey childInfo key none)
      (ext.overlay.clearChildPrefix storageKey childInfo stem) }

/-- `OverlayedChanges::commit_prospective` on the overlay of the externalities. -/
def commitProspective : Ext :=
  { ext with overlay := ext.overlay.commitProspective }

/-- `OverlayedChanges::discard_prospective` on the overlay of the externalities. -/
def discardProspective : Ext :=
  { ext with overlay := ext.overlay.discardProspective }

end Ext

end Brace.StateMachine
