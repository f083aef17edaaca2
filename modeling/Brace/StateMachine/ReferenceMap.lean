import Brace.StateMachine.KeyIteration

/-!
# The storage as a flat map with one transaction

The abstract meaning of the overlay and the backend: a map of the top keys and, under each storage
key, a map of the child keys, with the copy of both that the last commit made. Each operation
changes what `Ext.transactional` reads off the externalities as the reference says
(`transactional_step`), so that after any sequence of operations the reads, the existence checks
and the iteration are those of the reference map.

The child info that the runtime passes with a storage key is a function of the storage key, and
the overlay checks no more than that (`try_update`).
-/

namespace Brace.StateMachine

open Brace.Lib OverlayedChanges List Finmap

/-! ## The reference -/

/-- The content of a storage: the top keys, and the keys of each child trie. -/
@[ext] structure FlatMap where
  top : StorageKey → Option StorageValue
  /-- The values of each child trie, by storage key. -/
  children : StorageKey → StorageKey → Option StorageValue

/-- A flat map in a transaction. -/
@[ext] structure Transactional where
  current : FlatMap
  /-- The content at the last commit. -/
  saved : FlatMap

/-- The operations of the runtime on its storage, and the two ends of its transaction. -/
inductive Op
  | placeStorage (key : StorageKey) (value : Option StorageValue)
  | placeChildStorage (storageKey key : StorageKey) (value : Option StorageValue)
  | killChildStorage (storageKey : StorageKey)
  | clearPrefix (stem : StorageKey)
  | clearChildPrefix (storageKey stem : StorageKey)
  | commitProspective
  | discardProspective
deriving DecidableEq

namespace FlatMap

/-- Delete the keys that pass a test. -/
def delete (values : StorageKey → Option StorageValue) (test : StorageKey → Bool) :
    StorageKey → Option StorageValue :=
  fun key => if test key then none else values key

/-- Change one child trie. -/
def withChild (map : FlatMap) (storageKey : StorageKey)
    (values : StorageKey → Option StorageValue) : FlatMap :=
  { map with children := Function.update map.children storageKey values }

/-- What an operation does to the content. Writes and clears of keys that look like the root of
a child trie are refused. -/
def step (map : FlatMap) : Op → FlatMap
  | .placeStorage key value =>
    if isChildStorageKey key then map else { map with top := Function.update map.top key value }
  | .placeChildStorage storageKey key value =>
    map.withChild storageKey (Function.update (map.children storageKey) key value)
  | .killChildStorage storageKey => map.withChild storageKey fun _ => none
  | .clearPrefix stem =>
    if isChildStorageKey stem then map
    else { map with top := delete map.top (startsWith · stem) }
  | .clearChildPrefix storageKey stem =>
    map.withChild storageKey (delete (map.children storageKey) (startsWith · stem))
  | .commitProspective => map
  | .discardProspective => map

end FlatMap

/-- One operation on a flat map in a transaction. -/
def Transactional.step (map : Transactional) : Op → Transactional
  | .commitProspective => { current := map.current, saved := map.current }
  | .discardProspective => { current := map.saved, saved := map.saved }
  | op => { map with current := map.current.step op }

/-! ## The externalities -/

namespace Ext

variable (info : StorageKey → ChildInfo)

/-- One operation on the externalities; `info` is the child info of each storage key. -/
def step (ext : Ext) : Op → Ext
  | .placeStorage key value => ext.placeStorage key value
  | .placeChildStorage storageKey key value =>
    ext.placeChildStorage storageKey (info storageKey) key value
  | .killChildStorage storageKey => ext.killChildStorage storageKey (info storageKey)
  | .clearPrefix stem => ext.clearPrefix stem
  | .clearChildPrefix storageKey stem => ext.clearChildPrefix storageKey (info storageKey) stem
  | .commitProspective => ext.commitProspective
  | .discardProspective => ext.discardProspective

/-- The content that reads see. -/
def view (ext : Ext) : FlatMap where
  top := ext.storage
  children storageKey := ext.childStorage storageKey (info storageKey)

/-- The content that reads see, and the one they would see after a discard. -/
def transactional (ext : Ext) : Transactional where
  current := ext.view info
  saved := ext.discardProspective.view info

section

variable (ext : Ext)

variable (storageKey : StorageKey)

/-! ## The clears of backend keys, one by one -/

theorem storage_foldl_setStorage (keys : List StorageKey) (overlay : OverlayedChanges)
    (key : StorageKey) :
    (keys.foldl (fun overlay key => overlay.setStorage key none) overlay).storage key =
      if key ∈ keys then some none else overlay.storage key := by
  induction keys generalizing overlay with
  | nil => rfl
  | cons first rest ih =>
    rw [foldl_cons, ih, storage_setStorage]
    by_cases here : key = first <;> by_cases later : key ∈ rest <;> simp [here, later]

theorem childStorage_foldl_setChildStorage (keys : List StorageKey) (overlay : OverlayedChanges)
    (storageKey : StorageKey) (childInfo : ChildInfo) (other key : StorageKey) :
    (keys.foldl (fun overlay key => overlay.setChildStorage storageKey childInfo key none)
        overlay).childStorage other key =
      if other = storageKey ∧ key ∈ keys then some none
      else overlay.childStorage other key := by
  induction keys generalizing overlay with
  | nil => simp
  | cons first rest ih =>
    rw [foldl_cons, ih, childStorage_setChildStorage]
    by_cases same : other = storageKey <;> by_cases here : key = first <;>
      by_cases later : key ∈ rest <;> simp [same, here, later]

theorem getD_cleared (content : BTreeMap StorageKey StorageValue) (key : StorageKey)
    (entry : Option (Option StorageValue)) :
    (if key ∈ content then some none else entry.map fun _ => none).getD
      (content.lookup key) = none := by
  by_cases mem : key ∈ content
  · simp [mem]
  · cases entry <;> simp [mem, lookup_eq_none.mpr mem]

/-! ## One operation -/

theorem storage_placeStorage (key : StorageKey) (value : Option StorageValue) (other : StorageKey) :
    (ext.placeStorage key value).storage other =
      if isChildStorageKey key = false ∧ other = key then value else ext.storage other := by
  unfold placeStorage
  cases refused : isChildStorageKey key with
  | true => simp
  | false =>
    rw [if_neg Bool.false_ne_true, storage, storage_setStorage]
    by_cases same : other = key
    · simp [same]
    · simp [same, storage]

theorem storage_clearPrefix (stem key : StorageKey) :
    (ext.clearPrefix stem).storage key =
      if isChildStorageKey stem = false ∧ startsWith key stem then none
      else ext.storage key := by
  unfold clearPrefix
  cases refused : isChildStorageKey stem with
  | true => simp
  | false =>
    have listed : key ∈ ext.backend.keysWithPrefix stem ↔
        key ∈ ext.backend.top ∧ startsWith key stem := by
      simp [Backend.keysWithPrefix, Finmap.mem_keys]
    rw [if_neg Bool.false_ne_true, storage, storage_foldl_setStorage,
      OverlayedChanges.storage_clearPrefix]
    by_cases reached : startsWith key stem
    · simp only [listed, reached, and_true, if_true]
      exact getD_cleared _ _ _
    · simp [listed, reached, storage]

theorem childStorage_placeChildStorage (childInfo otherInfo : ChildInfo) (key : StorageKey)
    (value : Option StorageValue) (other otherKey : StorageKey) :
    (ext.placeChildStorage storageKey childInfo key value).childStorage other otherInfo otherKey =
      if other = storageKey ∧ otherKey = key then value
      else ext.childStorage other otherInfo otherKey := by
  rw [placeChildStorage, childStorage, childStorage_setChildStorage]
  by_cases same : other = storageKey ∧ otherKey = key
  · simp [same]
  · simp [same, childStorage]

end

section

variable (ext : Ext)

theorem childStorage_clearChildPrefix (storageKey stem other key : StorageKey) :
    (ext.clearChildPrefix storageKey (info storageKey) stem).childStorage other (info other) key =
      if other = storageKey ∧ startsWith key stem then none
      else ext.childStorage other (info other) key := by
  have listed : key ∈ ext.backend.childKeysWithPrefix storageKey (info storageKey) stem ↔
      key ∈ ext.backend.child storageKey (info storageKey) ∧ startsWith key stem := by
    simp [Backend.childKeysWithPrefix, Finmap.mem_keys]
  rw [clearChildPrefix, childStorage, childStorage_foldl_setChildStorage,
    OverlayedChanges.childStorage_clearChildPrefix]
  by_cases reached : other = storageKey ∧ startsWith key stem
  · obtain ⟨rfl, reached⟩ := reached
    simp only [listed, reached, and_true, true_and, if_true]
    exact getD_cleared _ _ _
  · by_cases same : other = storageKey
    · have missed : startsWith key stem = false := by simpa [same] using reached
      simp [same, missed, listed, childStorage]
    · simp [same, childStorage]

theorem childStorage_killChildStorage (storageKey other key : StorageKey) :
    (ext.killChildStorage storageKey (info storageKey)).childStorage other (info other) key =
      if other = storageKey then none else ext.childStorage other (info other) key := by
  have listed : key ∈ ext.backend.keysInChildStorage storageKey (info storageKey) ↔
      key ∈ ext.backend.child storageKey (info storageKey) := by
    simp [Backend.keysInChildStorage, Finmap.mem_keys]
  rw [killChildStorage, childStorage, childStorage_foldl_setChildStorage,
    childStorage_clearChildStorage]
  by_cases same : other = storageKey
  · subst same
    simp only [listed, true_and, if_true]
    exact getD_cleared _ _ _
  · simp [same, childStorage]

theorem storage_foldl_setChildStorage (keys : List StorageKey) (overlay : OverlayedChanges)
    (storageKey : StorageKey) (childInfo : ChildInfo) :
    (keys.foldl (fun overlay key => overlay.setChildStorage storageKey childInfo key none)
      overlay).storage = overlay.storage :=
  foldlRecOn (motive := fun next : OverlayedChanges => next.storage = overlay.storage) keys _ rfl
    fun _ kept _ _ => kept

theorem childStorage_clearPrefix (stem : StorageKey) :
    (ext.clearPrefix stem).childStorage = ext.childStorage := by
  unfold clearPrefix
  split
  · rfl
  · exact foldlRecOn (motive := fun next : OverlayedChanges =>
      ({ ext with overlay := next } : Ext).childStorage = ext.childStorage) _ _ rfl
      fun _ kept _ _ => kept

theorem children_withChild (map : FlatMap) (storageKey : StorageKey)
    (values : StorageKey → Option StorageValue) (other key : StorageKey) :
    (map.withChild storageKey values).children other key =
      if other = storageKey then values key else map.children other key := by
  unfold FlatMap.withChild
  by_cases same : other = storageKey
  · subst same
    simp
  · simp [same]

/-- **Each operation changes the content read as the reference says.** -/
theorem view_step (op : Op) (changes : op ≠ .discardProspective) :
    (ext.step info op).view info = (ext.view info).step op := by
  cases op with
  | placeStorage key value =>
    apply FlatMap.ext
    · funext other
      refine (storage_placeStorage ext key value other).trans ?_
      cases refused : isChildStorageKey key with
      | true => simp [FlatMap.step, refused, view]
      | false => simp [FlatMap.step, refused, view, Function.update_apply]
    · cases refused : isChildStorageKey key with
      | true => simp [FlatMap.step, refused, view, step, placeStorage]
      | false =>
        simp only [FlatMap.step, refused, view, step, placeStorage]
        rfl
  | placeChildStorage storageKey key value =>
    apply FlatMap.ext
    · rfl
    · funext other otherKey
      refine (childStorage_placeChildStorage ext _ _ _ key value other otherKey).trans ?_
      rw [FlatMap.step, children_withChild]
      by_cases same : other = storageKey
      · subst same
        simp [Function.update_apply, view]
      · simp [same, view]
  | killChildStorage storageKey =>
    apply FlatMap.ext
    · funext key
      exact congrArg (Option.getD · _) (congrFun (storage_foldl_setChildStorage _ _ _ _) key)
    · funext other key
      refine (childStorage_killChildStorage info ext storageKey other key).trans ?_
      rw [FlatMap.step, children_withChild]
      rfl
  | clearPrefix stem =>
    apply FlatMap.ext
    · funext key
      refine (storage_clearPrefix ext stem key).trans ?_
      cases refused : isChildStorageKey stem with
      | true => simp [FlatMap.step, refused, view]
      | false => simp [FlatMap.step, refused, view, FlatMap.delete]
    · have kept : ((ext.step info (.clearPrefix stem)).view info).children =
          (ext.view info).children := by
        funext other
        simp only [view, step, childStorage_clearPrefix]
      rw [kept]
      cases refused : isChildStorageKey stem <;> simp [FlatMap.step, refused]
  | clearChildPrefix storageKey stem =>
    apply FlatMap.ext
    · funext key
      exact congrArg (Option.getD · _) (congrFun (storage_foldl_setChildStorage _ _ _ _) key)
    · funext other key
      refine (childStorage_clearChildPrefix info ext storageKey stem other key).trans ?_
      rw [FlatMap.step, children_withChild]
      by_cases same : other = storageKey
      · subst same
        simp [FlatMap.delete, view]
      · simp [same, view]
  | commitProspective =>
    apply FlatMap.ext
    · funext key
      exact congrArg (Option.getD · _) (storage_commitProspective ext.overlay key)
    · funext other key
      exact congrArg (Option.getD · _) (childStorage_commitProspective ext.overlay other key)
  | discardProspective => exact absurd rfl changes

theorem discardProspective_step (op : Op) (keeps : op ≠ .commitProspective) :
    (ext.step info op).discardProspective = ext.discardProspective := by
  have loop (set : OverlayedChanges → StorageKey → OverlayedChanges)
      (same : ∀ overlay key, (set overlay key).discardProspective = overlay.discardProspective)
      (keys : List StorageKey) (overlay : OverlayedChanges) :
      ({ ext with overlay := keys.foldl set overlay } : Ext).discardProspective =
        ({ ext with overlay } : Ext).discardProspective :=
    foldlRecOn (motive := fun next : OverlayedChanges =>
      ({ ext with overlay := next } : Ext).discardProspective = _) keys set rfl
        fun next kept key _ =>
        (congrArg (fun overlay => { ext with overlay }) (same next key)).trans kept
  cases op with
  | placeStorage key value =>
    cases refused : isChildStorageKey key <;> simp only [step, placeStorage, refused] <;> rfl
  | placeChildStorage storageKey key value => rfl
  | killChildStorage storageKey | clearChildPrefix storageKey _ =>
    exact loop (fun overlay key => overlay.setChildStorage storageKey _ key none)
      (fun _ _ => rfl) _ _
  | clearPrefix stem =>
    cases refused : isChildStorageKey stem with
    | true => simp only [step, clearPrefix, refused, if_true]
    | false =>
      rw [step, clearPrefix, if_neg (by simp [refused])]
      exact loop (fun overlay key => overlay.setStorage key none) (fun _ _ => rfl) _ _
  | commitProspective => exact absurd rfl keeps
  | discardProspective => rfl

theorem discardProspective_commitProspective :
    ext.commitProspective.discardProspective = ext.commitProspective := by
  unfold discardProspective OverlayedChanges.discardProspective commitProspective
  rw [← prospective_commitProspective ext.overlay]

/-- **The externalities refine the transactional map.** -/
theorem transactional_step (op : Op) :
    (ext.step info op).transactional info = (ext.transactional info).step op := by
  by_cases committed : op = .commitProspective
  · subst committed
    have current := view_step info ext .commitProspective (by decide)
    apply Transactional.ext
    · exact current
    · refine Eq.trans ?_ current
      exact congrArg (view info) (discardProspective_commitProspective ext)
  · have saved := congrArg (view info) (discardProspective_step info ext op committed)
    by_cases discarded : op = .discardProspective
    · subst discarded
      rfl
    · have current := view_step info ext op discarded
      cases op with
      | commitProspective => exact absurd rfl committed
      | discardProspective => exact absurd rfl discarded
      | _ => exact Transactional.ext current saved

end

/-- **A run of the externalities is a run of the reference.** -/
theorem transactional_run (ops : List Op) (ext : Ext) :
    (ops.foldl (step info) ext).transactional info =
      ops.foldl Transactional.step (ext.transactional info) :=
  (foldl_hom _ fun ext op => (transactional_step info ext op).symm).symm

end Ext

/-! ## The storage of a block -/

variable (info : StorageKey → ChildInfo)

/-- The content of a backend as a flat map. -/
def Backend.flat (backend : Backend) : FlatMap where
  top := backend.storage
  children storageKey := backend.childStorage storageKey (info storageKey)

theorem transactional_start (backend : Backend) (collectExtrinsics : Bool) :
    ({ overlay := { collectExtrinsics }, backend } : Ext).transactional info =
      { current := backend.flat info, saved := backend.flat info } := by
  have unchanged : ({ overlay := { collectExtrinsics }, backend } : Ext).view info =
      backend.flat info := by
    apply FlatMap.ext
    · funext key
      simp [Ext.view, Ext.storage, OverlayedChanges.storage, Backend.flat]
    · funext storageKey key
      simp [Ext.view, Ext.childStorage, childStorage_eq, Backend.flat]
  exact Transactional.ext unchanged unchanged

/-- **The storage is a flat transactional map.** Over any backend, after any operations, the
reads and existence checks answer as the reference map, a discard goes back to the content of
the last commit, and iteration from any key lists exactly the live keys above it, in order. -/
theorem ext_behaves_like_transactional_map (backend : Backend) (collectExtrinsics : Bool)
    (ops : List Op) :
    let ext := ops.foldl (Ext.step info) { overlay := { collectExtrinsics }, backend }
    let reference := ops.foldl Transactional.step
      { current := backend.flat info, saved := backend.flat info }
    (∀ key, ext.storage key = reference.current.top key ∧
      ext.existsStorage key = (reference.current.top key).isSome) ∧
    (∀ storageKey key,
      ext.childStorage storageKey (info storageKey) key =
        reference.current.children storageKey key ∧
      ext.existsChildStorage storageKey (info storageKey) key =
        (reference.current.children storageKey key).isSome) ∧
    (∀ key, ext.discardProspective.storage key = reference.saved.top key) ∧
    (∀ storageKey key, ext.discardProspective.childStorage storageKey (info storageKey) key =
      reference.saved.children storageKey key) ∧
    (∀ key, ∃ listed, Enumerates ext.nextStorageKey key listed ∧ listed.Pairwise (· < ·) ∧
      ∀ other, other ∈ listed ↔ key < other ∧ reference.current.top other ≠ none) ∧
    ∀ storageKey key, ∃ listed,
      Enumerates (ext.nextChildStorageKey storageKey (info storageKey)) key listed ∧
      listed.Pairwise (· < ·) ∧
      ∀ other, other ∈ listed ↔
        key < other ∧ reference.current.children storageKey other ≠ none := by
  intro ext reference
  have refines : ext.transactional info = reference := by
    rw [Ext.transactional_run, transactional_start]
  have current : ext.view info = reference.current := congrArg Transactional.current refines
  have saved : ext.discardProspective.view info = reference.saved :=
    congrArg Transactional.saved refines
  rw [← current, ← saved]
  refine ⟨fun key => ⟨rfl, ?_⟩, fun storageKey key => ⟨rfl, ?_⟩, fun key => rfl,
    fun storageKey key => rfl, fun key => nextKey_enumerates _ _ _ key, fun storageKey key => ?_⟩
  · simp only [Ext.view, Ext.existsStorage, Ext.storage]
    cases ext.overlay.storage key <;> rfl
  · simp only [Ext.view, Ext.existsChildStorage, Ext.childStorage]
    cases ext.overlay.childStorage storageKey key <;> rfl
  obtain ⟨listed, lists, ascending, live⟩ := nextKey_enumerates
    (ext.backend.child storageKey (info storageKey)) (ext.overlay.prospective.child storageKey)
    (ext.overlay.committed.child storageKey) key
  refine ⟨listed, lists, ascending, fun other => ?_⟩
  simp only [live, Ext.view, Ext.childStorage, childStorage_eq]
  rfl

end Brace.StateMachine
