import Brace.Lib.Run

/-!
# The size of the state cache

Model of `LRUMap` in `client/db/src/storage_cache.rs`. Sizes are natural numbers, and a subtraction
below zero is a fault.

The entries of the linked hash map are listed from the least to the most recently used. Of that
library the model uses that there is at most one entry for equal keys; that `remove` drops it and
returns its value; that `insert` on an occupied entry replaces the value, keeps the stored copy of
the key and makes the entry the most recently used one, as `get_refresh` does; that a vacant entry
is inserted at the back; and that `pop_front` drops the least recently used entry.

`remove` subtracts the size of the key it is given, not of the key stored. Byte vectors of equal
bytes may have different capacities, so the total is exact only as long as every key removed has
the size of its stored copy (`used_exact_iff`).
-/

namespace Brace.Client

open Brace.Lib List

/-- `EstimateSize` -/
class EstimateSize (α : Type) where
  estimateSize : α → Nat

export EstimateSize (estimateSize)

/-- `Vec<u8>`, with the number of bytes allocated. -/
structure Vec where
  bytes : List UInt8
  capacity : Nat
  enough : bytes.length ≤ capacity

/-- Vectors are equal when their bytes are. -/
instance : BEq Vec := ⟨fun left right => left.bytes == right.bytes⟩

instance : EstimateSize Vec := ⟨Vec.capacity⟩

instance : EstimateSize (Option Vec) := ⟨fun value => (value.map Vec.capacity).getD 0⟩

instance {T : Type} [EstimateSize T] : EstimateSize (T × T) :=
  ⟨fun pair => estimateSize pair.1 + estimateSize pair.2⟩

/-- `LRUMap` -/
structure LRUMap (K V : Type) where
  map : List (K × V)
  usedSize : Nat
  limit : Nat

namespace LRUMap

variable {K V : Type} [BEq K] [EstimateSize K] [EstimateSize V]

variable (lru : LRUMap K V)

/-- `LRUMap::remove` -/
def remove (k : K) : Except Underflow (LRUMap K V) :=
  match lru.map.find? (·.1 == k) with
  | none => .ok lru
  | some (_, v) => do
    let used ← subtract lru.usedSize (estimateSize k)
    let used ← subtract used (estimateSize v)
    return { lru with map := lru.map.eraseP (·.1 == k), usedSize := used }

/-- The loop of `LRUMap::add` that drops the oldest entries while the total is over the limit. -/
def evict (limit used : Nat) : List (K × V) → Except Underflow (LRUMap K V)
  | [] => .ok ⟨[], used, limit⟩
  | (k, v) :: rest =>
    if limit < used then do
      let used ← subtract used (estimateSize k)
      let used ← subtract used (estimateSize v)
      evict limit used rest
    else .ok ⟨(k, v) :: rest, used, limit⟩

/-- `LRUMap::add` -/
def add (k : K) (v : V) : Except Underflow (LRUMap K V) :=
  match lru.map.find? (·.1 == k) with
  | some (stored, old) => do
    let used ← subtract (lru.usedSize + estimateSize v) (estimateSize old)
    evict lru.limit used (lru.map.eraseP (·.1 == k) ++ [(stored, v)])
  | none =>
    evict lru.limit (lru.usedSize + estimateSize v + estimateSize k) (lru.map ++ [(k, v)])

/-- `LRUMap::get`, which makes the entry the most recently used one. -/
def get (k : K) : LRUMap K V × Option V :=
  match lru.map.find? (·.1 == k) with
  | none => (lru, none)
  | some entry => ({ lru with map := lru.map.eraseP (·.1 == k) ++ [entry] }, some entry.2)

/-- `LRUMap::clear` -/
def clear : LRUMap K V :=
  { lru with map := [], usedSize := 0 }

inductive Call (K V : Type)
  | add (k : K) (v : V)
  | get (k : K)
  | remove (k : K)
  | clear

def step : Call K V → Except Underflow (LRUMap K V)
  | .add k v => lru.add k v
  | .get k => .ok (lru.get k).1
  | .remove k => lru.remove k
  | .clear => .ok lru.clear

/-- The estimated size of the entries. -/
def sizes (map : List (K × V)) : Nat :=
  (map.map fun entry => estimateSize entry.1 + estimateSize entry.2).sum

/-- The total is the size of the entries. -/
def Exact : Prop :=
  lru.usedSize = sizes lru.map

/-- A key to be removed has the size of its stored copy. -/
def Sized : Call K V → Prop
  | .remove k => ∀ entry, lru.map.find? (·.1 == k) = some entry →
      estimateSize k = estimateSize entry.1
  | _ => True

variable {lru next : LRUMap K V} {map : List (K × V)} {entry : K × V} {k : K} {limit used : Nat}

theorem sizes_eraseP (found : map.find? (·.1 == k) = some entry) :
    sizes map =
      sizes (map.eraseP (·.1 == k)) + (estimateSize entry.1 + estimateSize entry.2) := by
  obtain ⟨equal, before, after, rfl, others⟩ := find?_eq_some_iff_append.mp found
  rw [eraseP_append_right _ fun other mem => by simpa using others other mem]
  simp only [sizes, eraseP_cons, equal, cond_true, map_append, map_cons, sum_append, sum_cons]
  omega

omit [BEq K] in
theorem sizes_concat (map : List (K × V)) (k : K) (v : V) :
    sizes (map ++ [(k, v)]) = sizes map + (estimateSize k + estimateSize v) := by
  simp [sizes]

omit [BEq K] in
theorem evict_exact (limit : Nat) (exact : used = sizes map) :
    ∃ next, evict limit used map = .ok next ∧ next.Exact ∧ next.usedSize ≤ next.limit := by
  induction map generalizing used with
  | nil => exact ⟨_, rfl, exact, exact ▸ Nat.zero_le _⟩
  | cons entry rest ih =>
    unfold evict
    split
    · have total : used = estimateSize entry.1 + estimateSize entry.2 + sizes rest := exact
      rw [subtract, if_pos (by omega), ok_bind, subtract, if_pos (by omega), ok_bind]
      exact ih (by omega)
    · rename_i within
      exact ⟨_, rfl, exact, Nat.le_of_not_lt within⟩

theorem add_exact (exact : lru.Exact) (k : K) (v : V) :
    ∃ next, lru.add k v = .ok next ∧ next.Exact ∧ next.usedSize ≤ next.limit := by
  unfold Exact at exact
  unfold add
  split
  · rename_i stored old found
    have total : sizes lru.map = _ + (estimateSize stored + estimateSize old) := sizes_eraseP found
    rw [subtract, if_pos (by omega), ok_bind]
    exact evict_exact lru.limit (by rw [sizes_concat]; omega)
  · exact evict_exact lru.limit (by rw [sizes_concat]; omega)

theorem get_exact (exact : lru.Exact) (k : K) : (lru.get k).1.Exact := by
  unfold get
  split
  · exact exact
  · rename_i entry found
    exact exact.trans ((sizes_eraseP found).trans (sizes_concat _ _ _).symm)

theorem remove_exact_iff (exact : lru.Exact) (k : K) :
    (∃ next, lru.remove k = .ok next ∧ next.Exact) ↔ lru.Sized (.remove k) := by
  unfold Exact at exact
  simp only [remove, Sized]
  cases found : lru.map.find? (·.1 == k) with
  | none => simpa [Exact] using exact
  | some entry =>
    have total := sizes_eraseP found
    simp only [bind_eq_ok, subtract_eq_ok, Option.some.injEq, forall_eq']
    constructor
    · rintro ⟨next, ⟨left, ⟨first, rfl⟩, last, ⟨second, rfl⟩, returned⟩, after⟩
      obtain rfl := Except.ok.inj returned
      simp only [Exact] at after
      omega
    · intro same
      refine ⟨_, ⟨_, ⟨by omega, rfl⟩, _, ⟨by omega, rfl⟩, rfl⟩, ?_⟩
      simp only [Exact]
      omega

/-- **The accounting of the cache.** As long as every key removed has the size of its stored
copy, the total is the size of the entries; and then the next call returns with an exact total,
within the limit after `add`, just when it keeps to that rule too. -/
theorem used_exact_iff {lru : LRUMap K V} (reached : Reachable step Sized ⟨[], 0, limit⟩ lru)
    (call : Call K V) :
    lru.usedSize = sizes lru.map ∧
    ((∃ next, lru.step call = .ok next ∧ next.usedSize = sizes next.map ∧
      ∀ k v, call = .add k v → next.usedSize ≤ next.limit) ↔ lru.Sized call) := by
  have steps : ∀ lru : LRUMap K V, lru.Exact → ∀ call,
      ((∃ next, lru.step call = .ok next ∧ next.Exact ∧
        ∀ k v, call = .add k v → next.usedSize ≤ next.limit) ↔ lru.Sized call) := by
    rintro lru exact (⟨k, v⟩ | k | k | _)
    · obtain ⟨next, ran, after, within⟩ := add_exact exact k v
      exact iff_of_true ⟨next, ran, after, fun _ _ _ => within⟩ trivial
    · exact iff_of_true ⟨_, rfl, get_exact exact k, nofun⟩ trivial
    · simpa [step] using remove_exact_iff exact k
    · exact iff_of_true ⟨_, rfl, rfl, nofun⟩ trivial
  have empty : Exact (⟨[], 0, limit⟩ : LRUMap K V) := rfl
  have exact : lru.Exact := reached.invariant empty fun lru call next exact sized ran => by
    obtain ⟨_, returned, after, -⟩ := (steps lru exact call).mpr sized
    exact Except.ok.inj (returned.symm.trans ran) ▸ after
  exact ⟨exact, steps lru exact call⟩

/-- A key of one byte, with room for more. -/
def oneByte (spare : Nat) : Vec :=
  ⟨[1], 1 + spare, Nat.le_add_right 1 spare⟩

/-- A key is added and removed. -/
theorem used_exact_removed : ∃ lru next : LRUMap Vec (Option Vec),
    Reachable step Sized ⟨[], 0, 9⟩ lru ∧ lru.step (.remove (oneByte 3)) = .ok next ∧
      next.usedSize = sizes next.map := by
  have reached : Reachable (step (K := Vec) (V := Option Vec)) Sized ⟨[], 0, 9⟩
      ⟨[(oneByte 3, none)], 4, 9⟩ :=
    .tail .refl (show Sized _ (.add (oneByte 3) none) from trivial) rfl
  obtain ⟨next, ran, after, -⟩ := (used_exact_iff reached (.remove (oneByte 3))).2.mpr
    fun entry found => by rw [← Option.some.inj found]
  exact ⟨_, next, reached, ran, after⟩

/-- A key stored with a capacity of four and removed with a capacity of one leaves three bytes
counted in the empty map; stored with one and removed with four, the total underflows. -/
theorem remove_counts_other_copy :
    (do
      let lru ← add ⟨[], 0, 9⟩ (oneByte 3) (none : Option Vec)
      lru.remove (oneByte 0)) = .ok ⟨[], 3, 9⟩ ∧
    (do
      let lru ← add ⟨[], 0, 9⟩ (oneByte 0) (none : Option Vec)
      lru.remove (oneByte 3)) = .error .underflow :=
  ⟨rfl, rfl⟩

end LRUMap

end Brace.Client
