import Brace.Lib.HashMap
import Brace.Lib.Run

/-!
# Owners of session keys

`set_keys` and `purge_keys` of `frame/session`. The owners are checked and written type by type, so
that a call that meets a key of another validator has already written the owners of the types
before it. The two maps agree in every run without such a call (`one_owner`).
-/

namespace Brace.Session

open Brace.Lib HashMap Option Finmap

/-- `Error` -/
inductive Error where
  | invalidProof
  | noAssociatedValidatorId
  | duplicatedKey
  | noKeys

/-- `NextKeys` and `KeyOwner`. The keys of a validator are given by `get_raw`. -/
structure State (Id Key V : Type) where
  nextKeys : HashMap V (Id → Key) := ∅
  keyOwner : HashMap (Id × Key) V := ∅

inductive Call (Id Key A : Type) where
  | setKeys (account : A) (keys : Id → Key) (proofIsValid : Bool)
  | purgeKeys (account : A)

variable {Id Key V A : Type} [DecidableEq Id] [DecidableEq Key] [DecidableEq V]

/-- The owners after a type of key that passed the check of `inner_set_keys`. -/
def setOwner (who : V) (keys : Id → Key) (oldKeys : Option (Id → Key))
    (owners : HashMap (Id × Key) V) (id : Id) : HashMap (Id × Key) V :=
  match oldKeys with
  | some old =>
    if keys id = old id then owners
    else insert (id, keys id) who (erase (id, old id) owners)
  | none => insert (id, keys id) who owners

/-- The loop of `inner_set_keys` over the types of keys. -/
def setOwners (who : V) (keys : Id → Key) (oldKeys : Option (Id → Key)) :
    HashMap (Id × Key) V → List Id → HashMap (Id × Key) V × Except Error Unit
  | owners, [] => (owners, .ok ())
  | owners, id :: rest =>
    if (lookup (id, keys id) owners).all (· = who) then
      setOwners who keys oldKeys (setOwner who keys oldKeys owners id) rest
    else (owners, .error .duplicatedKey)

namespace State

variable (keyIds : List Id) (validatorIdOf : A → Option V)

variable (state : State Id Key V)

/-- `inner_set_keys` -/
def innerSetKeys (who : V) (keys : Id → Key) : State Id Key V × Except Error Unit :=
  match setOwners who keys (lookup who state.nextKeys) state.keyOwner keyIds with
  | (keyOwner, .error error) => ({ state with keyOwner }, .error error)
  | (keyOwner, .ok _) => (⟨insert who keys state.nextKeys, keyOwner⟩, .ok ())

/-- `do_purge_keys` -/
def purgeKeys (who : V) : State Id Key V × Except Error Unit :=
  match lookup who state.nextKeys with
  | none => (state, .error .noKeys)
  | some old => (⟨erase who state.nextKeys,
      state.keyOwner.eraseAll (keyIds.map fun id => (id, old id))⟩, .ok ())

/-- `set_keys` and `purge_keys` -/
def call : Call Id Key A → State Id Key V × Except Error Unit
  | .setKeys account keys proofIsValid =>
    if proofIsValid then
      match validatorIdOf account with
      | none => (state, .error .noAssociatedValidatorId)
      | some who => state.innerSetKeys keyIds who keys
    else (state, .error .invalidProof)
  | .purgeKeys account =>
    match validatorIdOf account with
    | none => (state, .error .noAssociatedValidatorId)
    | some who => state.purgeKeys keyIds who

/-- A call, whatever it returns. -/
def step (op : Call Id Key A) : Except Empty (State Id Key V) :=
  .ok (state.call keyIds validatorIdOf op).1

/-- The owner of a key is the validator whose next keys have it. -/
def OneOwner : Prop :=
  ∀ id ∈ keyIds, ∀ key v, lookup (id, key) state.keyOwner = some v ↔
    (lookup v state.nextKeys).map (· id) = some key

/-- Another validator owns a key. -/
def taken (who : V) (keys : Id → Key) (id : Id) : Bool :=
  !(lookup (id, keys id) state.keyOwner).all (· = who)

/-- A key of another validator comes before any key that changes. -/
def takenFirst (state : State Id Key V) (who : V) (keys : Id → Key) : List Id → Bool
  | [] => false
  | id :: rest => state.taken who keys id ||
      decide ((lookup who state.nextKeys).map (· id) = some (keys id)) &&
        state.takenFirst who keys rest

/-- No key of a call with a valid proof is owned by another validator, or one is before any key that
changes. -/
def Checked : Call Id Key A → Prop
  | .setKeys account keys proofIsValid => proofIsValid = true → ∀ who ∈ validatorIdOf account,
      (∀ id ∈ keyIds, state.taken who keys id = false) ∨ state.takenFirst who keys keyIds = true
  | .purgeKeys _ => True

end State

/-! ## The loop -/

section

variable {who : V} {keys : Id → Key} {oldKeys : Option (Id → Key)} {owners : HashMap (Id × Key) V}

omit [DecidableEq V] in
/-- The owners after one type of key: the key has the owner and the old key has none. -/
theorem lookup_setOwner {id : Id} (kept : oldKeys.map (· id) = some (keys id) →
      owners.lookup (id, keys id) = some who) (other : Id) (key : Key) :
    (setOwner who keys oldKeys owners id).lookup (other, key) =
      if other = id ∧ key = keys id then some who
      else if other = id ∧ oldKeys.map (· id) = some key then none
      else owners.lookup (other, key) := by
  cases oldKeys with
  | none => simp [setOwner, lookup_insert_eq]
  | some old =>
    simp only [setOwner, map_some, some.injEq] at kept ⊢
    split
    · grind
    · simp only [lookup_insert_eq, lookup_erase_eq, Prod.mk.injEq, eq_comm]

/-- The owners after a loop that meets no key of another validator. -/
theorem setOwners_ok (ids : List Id)
    (free : ∀ id ∈ ids, (owners.lookup (id, keys id)).all (· = who) = true)
    (kept : ∀ id ∈ ids, oldKeys.map (· id) = some (keys id) →
      owners.lookup (id, keys id) = some who) :
    ∃ after, setOwners who keys oldKeys owners ids = (after, .ok ()) ∧ ∀ id key,
      after.lookup (id, key) = if id ∈ ids ∧ key = keys id then some who
        else if id ∈ ids ∧ oldKeys.map (· id) = some key then none
        else owners.lookup (id, key) := by
  induction ids generalizing owners with
  | nil => exact ⟨owners, rfl, by simp⟩
  | cons first rest ih =>
    have next := lookup_setOwner (kept first List.mem_cons_self)
    obtain ⟨after, ran, lookups⟩ := @ih (setOwner who keys oldKeys owners first)
      (by grind) (by grind)
    refine ⟨after, ?_, fun id key => ?_⟩
    · rw [setOwners, if_pos (free first List.mem_cons_self), ran]
    · rw [lookups, next]
      by_cases same : id = first
      · subst same
        by_cases listed : id ∈ rest
        · simp only [listed, true_and, List.mem_cons_self]
          split_ifs <;> rfl
        · simp [listed]
      · simp [same]

end

namespace State

variable {keyIds : List Id} {validatorIdOf : A → Option V} {state : State Id Key V}

variable {who : V} {keys : Id → Key}

theorem setOwners_refused (ids : List Id) (first : state.takenFirst who keys ids = true) :
    setOwners who keys (state.nextKeys.lookup who) state.keyOwner ids =
      (state.keyOwner, .error .duplicatedKey) := by
  induction ids with
  | nil => cases first
  | cons id rest ih =>
    rw [setOwners]
    split
    · rename_i free
      simp only [takenFirst, taken, free, Bool.not_true, Bool.false_or, Bool.and_eq_true,
        decide_eq_true_eq, map_eq_some_iff] at first
      obtain ⟨⟨old, is_old, same⟩, later⟩ := first
      rw [is_old, setOwner, if_pos same.symm, ← is_old, ih later]
    · rfl

variable (one : state.OneOwner keyIds)

include one

theorem OneOwner.setKeys (free : ∀ id ∈ keyIds, state.taken who keys id = false) :
    ∃ after, state.innerSetKeys keyIds who keys = (after, .ok ()) ∧ after.OneOwner keyIds := by
  obtain ⟨after, ran, lookups⟩ := setOwners_ok keyIds
    (fun id mem => by simpa [taken] using free id mem)
    (fun id mem same => (one id mem _ who).mpr same)
  refine ⟨⟨state.nextKeys.insert who keys, after⟩, by rw [innerSetKeys, ran], ?_⟩
  intro id mem key v
  have mine := one id mem key who
  have theirs := one id mem key v
  have others := free id mem
  rw [lookups, lookup_insert_eq]
  grind [taken]

theorem OneOwner.purgeKeys {old : Id → Key} (found : state.nextKeys.lookup who = some old) :
    OneOwner keyIds ⟨state.nextKeys.erase who,
      state.keyOwner.eraseAll (keyIds.map fun id => (id, old id))⟩ := by
  intro id mem key v
  have mine := one id mem key who
  have theirs := one id mem key v
  have listed : (id, key) ∈ (keyIds.map fun id => (id, old id)) ↔ old id = key := by
    grind
  rw [lookup_eraseAll, lookup_erase_eq]
  grind

/-- **A call keeps the maps in agreement, and changes nothing when it fails.** -/
theorem OneOwner.call (op : Call Id Key A) (checked : state.Checked keyIds validatorIdOf op) :
    (state.call keyIds validatorIdOf op).1.OneOwner keyIds ∧
      ∀ error, (state.call keyIds validatorIdOf op).2 = .error error →
        (state.call keyIds validatorIdOf op).1 = state := by
  cases op with
  | setKeys account keys proofIsValid =>
    simp only [State.call]
    split
    · rename_i proven
      split
      · exact ⟨one, fun _ _ => rfl⟩
      · rename_i who is_who
        rcases checked proven who is_who with free | first
        · obtain ⟨after, ran, kept⟩ := one.setKeys free
          rw [ran]
          exact ⟨kept, fun _ failed => nomatch failed⟩
        · rw [innerSetKeys, setOwners_refused keyIds first]
          exact ⟨one, fun _ _ => rfl⟩
    · exact ⟨one, fun _ _ => rfl⟩
  | purgeKeys account =>
    simp only [State.call]
    split
    · exact ⟨one, fun _ _ => rfl⟩
    · unfold State.purgeKeys
      split
      · exact ⟨one, fun _ _ => rfl⟩
      · rename_i found
        exact ⟨one.purgeKeys found, fun _ failed => nomatch failed⟩

end State

/-- **Each key has one owner, the validator whose next keys have it, and a failing call changes
nothing**, in every run whose calls meet a key of another validator before any key that changes. -/
theorem one_owner (keyIds : List Id) (validatorIdOf : A → Option V) {state : State Id Key V}
    (reached : Reachable (State.step keyIds validatorIdOf) (State.Checked keyIds validatorIdOf) {}
      state) :
    state.OneOwner keyIds ∧
      (∀ id ∈ keyIds, ∀ v w key, (lookup v state.nextKeys).map (· id) = some key →
        (lookup w state.nextKeys).map (· id) = some key → v = w) ∧
      ∀ op, state.Checked keyIds validatorIdOf op →
        ∀ error, (state.call keyIds validatorIdOf op).2 = .error error →
          (state.call keyIds validatorIdOf op).1 = state := by
  have one : state.OneOwner keyIds := by
    refine reached.invariant (fun id _ key v => by simp) ?_
    rintro state op next one checked ⟨⟩
    exact (one.call op checked).1
  refine ⟨one, fun id mem v w key first second => ?_, fun op checked => (one.call op checked).2⟩
  rw [← one id mem] at first second
  exact some.inj (first.symm.trans second)

/-- Two validators set their keys, and the call of the second one for a key of the first one fails
and changes nothing. -/
theorem one_owner_set : ∃ state : State Bool Nat Nat,
    lookup (true, 7) state.keyOwner = some 1 ∧ lookup (true, 8) state.keyOwner = some 2 ∧
      state.OneOwner [false, true] ∧
      let last := state.call [false, true] some (.setKeys 2 (fun id => bif id then 9 else 7) true)
      last.2 = .error .duplicatedKey ∧ last.1 = state := by
  let first : State Bool Nat Nat :=
    (State.call [false, true] some {} (.setKeys 1 (fun _ => 7) true)).1
  have fresh : State.Checked [false, true] some ({} : State Bool Nat Nat)
      (.setKeys 1 (fun _ => 7) true) := by
    rintro - who ⟨⟩
    exact .inl (by decide +kernel)
  have other : State.Checked [false, true] some first (.setKeys 2 (fun _ => 8) true) := by
    rintro - who ⟨⟩
    exact .inl (by decide +kernel)
  obtain ⟨one, -, failing⟩ :=
    one_owner [false, true] some (.tail (.tail .refl fresh rfl) other rfl)
  refine ⟨_, by decide +kernel, by decide +kernel, one, rfl, failing _ ?_ .duplicatedKey rfl⟩
  rintro - who ⟨⟩
  exact .inr (by decide +kernel)

/-- A call that fails at the second type of key leaves its key of the first type owned. -/
theorem owner_without_keys : let first : State Bool Nat Nat :=
      (State.call [false, true] some {} (.setKeys 1 (fun _ => 7) true)).1
    let second := first.call [false, true] some (.setKeys 2 (fun id => bif id then 7 else 8) true)
    second.2 = .error .duplicatedKey ∧ lookup (false, 8) second.1.keyOwner = some 2 ∧
      (lookup 2 second.1.nextKeys).isNone ∧
      lookup (false, 8) first.keyOwner = none :=
  ⟨rfl, by decide +kernel, by decide +kernel, by decide +kernel⟩

end Brace.Session
