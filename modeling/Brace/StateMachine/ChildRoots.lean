import Brace.StateMachine.ReferenceMap

/-!
# The roots of the child tries in the top trie

The root of a child trie is stored in the top trie under a key that starts with
`:child_storage:`. The runtime must not write such keys: `place_storage` refuses a key of that
form, and `clear_prefix` a prefix of that form. A clear also reaches the keys that are longer
than its prefix, so the prefixes that are themselves the beginning of `:child_storage:`, which
are not refused, clear the roots.
-/

namespace Brace.StateMachine

open Brace.Lib OverlayedChanges

theorem startsWith_iff {key stem : StorageKey} : startsWith key stem = true ↔ stem <+: key :=
  List.isPrefixOf_iff_prefix

variable {stem root : StorageKey}

theorem startsWith_childStorageKeyPrefix
    (accepted : isChildStorageKey stem = false) (isRoot : isChildStorageKey root = true)
    (reached : startsWith root stem = true) : startsWith childStorageKeyPrefix stem = true := by
  rw [isChildStorageKey, startsWith_iff] at isRoot
  rw [startsWith_iff] at reached ⊢
  rcases List.prefix_or_prefix_of_prefix reached isRoot with shorter | longer
  · exact shorter
  · rw [isChildStorageKey, startsWith_iff.mpr longer] at accepted
    cases accepted

/-- **Which top-level writes keep the child roots.** A write keeps all of them. A clear does so
exactly when it is refused, or its prefix does not begin `:child_storage:`, or there is no child
root with a value. -/
theorem child_roots_kept_iff (ext : Ext) (key : StorageKey) (value : Option StorageValue)
    (stem : StorageKey) :
    (∀ root, isChildStorageKey root = true →
      (ext.placeStorage key value).storage root = ext.storage root) ∧
    ((∀ root, isChildStorageKey root = true →
        (ext.clearPrefix stem).storage root = ext.storage root) ↔
      isChildStorageKey stem = true ∨ startsWith childStorageKeyPrefix stem = false ∨
        ∀ root, isChildStorageKey root = true → ext.storage root = none) := by
  constructor
  · intro root isRoot
    rw [Ext.storage_placeStorage, if_neg]
    rintro ⟨accepted, rfl⟩
    rw [isRoot] at accepted
    cases accepted
  constructor
  · intro kept
    cases refused : isChildStorageKey stem with
    | true => exact .inl rfl
    | false =>
      cases short : startsWith childStorageKeyPrefix stem with
      | false => exact .inr (.inl rfl)
      | true =>
        refine .inr (.inr fun root isRoot => ?_)
        rw [← kept root isRoot, Ext.storage_clearPrefix, if_pos ⟨refused, startsWith_iff.mpr
            ((startsWith_iff.mp short).trans (startsWith_iff.mp isRoot))⟩]
  · intro safe root isRoot
    rw [Ext.storage_clearPrefix]
    split
    · rename_i reached
      obtain ⟨accepted, reached⟩ := reached
      rcases safe with refused | other | absent
      · rw [refused] at accepted
        cases accepted
      · rw [startsWith_childStorageKeyPrefix accepted isRoot reached] at other
        cases other
      · exact (absent root isRoot).symm
    · rfl

/-- A backend with one child trie, whose root is `[1]`. -/
def oneChildBackend : Backend where
  top := Finmap.insert (bytes ":child_storage:default:a") (bytes "\x01") ∅
  children := ∅

/-- The prefix `:` is accepted, and its clear deletes the root of the child trie. -/
theorem child_root_cleared :
    let ext : Ext := { overlay := { collectExtrinsics := false }, backend := oneChildBackend }
    let root := bytes ":child_storage:default:a"
    isChildStorageKey root = true ∧ ext.storage root = some [1] ∧
      (ext.clearPrefix (bytes ":")).storage root = none := by
  decide +kernel

end Brace.StateMachine
