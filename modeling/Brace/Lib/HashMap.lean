import Mathlib

/-!
# Finite maps with extensional equality

A hash map of the source is a finite map: two maps are equal when every lookup agrees, and
no iteration order is observable. Mathlib's `Finmap` is that type; this module adds the
conditional form of its two updates, the bulk updates of a database batch, the `retain`
filter, and sums over the entries.
-/

namespace Brace.Lib

open List Finmap

/-- A finite map from keys to values. -/
abbrev HashMap (Key Value : Type) := Finmap fun _ : Key => Value

namespace HashMap

variable {Key Value : Type} [DecidableEq Key]

section

variable (table : HashMap Key Value)

theorem lookup_insert_eq (key other : Key) (value : Value) :
    (table.insert key value).lookup other =
      if other = key then some value else table.lookup other := by
  by_cases same : other = key
  · subst same
    simp
  · simp [same, lookup_insert_of_ne]

theorem lookup_erase_eq (key other : Key) :
    (table.erase key).lookup other =
      if other = key then none else table.lookup other := by
  by_cases same : other = key
  · subst same
    simp
  · simp [same, lookup_erase_ne]

theorem mem_iff_lookup_ne (key : Key) : key ∈ table ↔ table.lookup key ≠ none := by
  rw [Ne, lookup_eq_none, not_not]

end

variable {table : HashMap Key Value} {key : Key} {value : Value}

omit [DecidableEq Key] in
theorem le_card_keys {count : Nat} (key : Nat → Key) (injective : Function.Injective key)
    (stored : ∀ index < count, key index ∈ table) : count ≤ table.keys.card :=
  Finset.le_card_of_inj_on_range key (fun index low => mem_keys.mpr (stored index low))
    fun _ _ _ _ same => injective same

variable (table : HashMap Key Value)

theorem erase_of_not_mem (key : Key) (absent : key ∉ table) : table.erase key = table := by
  apply ext_lookup
  intro other
  rw [lookup_erase_eq]
  split
  · rename_i same
    rw [same, lookup_eq_none.mpr absent]
  · rfl

theorem erase_insert {key : Key} (value : Value)
    (absent : key ∉ table) : (table.insert key value).erase key = table := by
  apply ext_lookup
  intro other
  rw [lookup_erase_eq, lookup_insert_eq]
  split
  · rename_i same
    rw [same, lookup_eq_none.mpr absent]
  · rfl

/-! ## Batches -/

/-- Insert every entry of a batch, in order. -/
def insertAll (entries : List (Key × Value)) : HashMap Key Value :=
  entries.foldl (fun table entry => table.insert entry.1 entry.2) table

/-- Erase every key of a batch, in order. -/
def eraseAll (keys : List Key) : HashMap Key Value :=
  keys.foldl (fun table key => table.erase key) table

section

variable (entries : List (Key × Value))

theorem lookup_insertAll_of_not_mem (key : Key) (absent : key ∉ entries.map Prod.fst) :
    (insertAll table entries).lookup key = table.lookup key := by
  induction entries generalizing table with
  | nil => rfl
  | cons entry rest ih =>
    simp only [map_cons, mem_cons, not_or] at absent
    change (insertAll (table.insert entry.1 entry.2) rest).lookup key = _
    rw [ih _ absent.2, lookup_insert_eq, if_neg absent.1]

theorem mem_insertAll (key : Key) :
    key ∈ insertAll table entries ↔ key ∈ entries.map Prod.fst ∨ key ∈ table := by
  induction entries generalizing table with
  | nil => simp [insertAll]
  | cons entry rest ih =>
    change key ∈ insertAll (table.insert entry.1 entry.2) rest ↔ _
    rw [ih, mem_insert, map_cons, mem_cons]
    tauto

theorem mem_of_lookup_insertAll (found : (insertAll table entries).lookup key = some value) :
    (key, value) ∈ entries ∨ table.lookup key = some value := by
  induction entries generalizing table with
  | nil => exact .inr found
  | cons entry rest ih =>
    rcases ih _ found with later | stored
    · exact .inl (mem_cons_of_mem _ later)
    · rw [lookup_insert_eq] at stored
      split at stored
      · rename_i same
        cases stored
        subst same
        exact .inl mem_cons_self
      · exact .inr stored

end

theorem lookup_insertAll_same (keys : List Key) (value : Value)
    (key : Key) : (insertAll table (keys.map fun name => (name, value))).lookup key =
      if key ∈ keys then some value else table.lookup key := by
  induction keys generalizing table with
  | nil => rfl
  | cons first rest ih =>
    change (insertAll (table.insert first value) (rest.map _)).lookup key = _
    rw [ih, lookup_insert_eq]
    by_cases here : key = first <;> by_cases later : key ∈ rest <;> simp [here, later]

theorem lookup_eraseAll (keys : List Key) (key : Key) :
    (eraseAll table keys).lookup key =
      if key ∈ keys then none else table.lookup key := by
  induction keys generalizing table with
  | nil => simp [eraseAll]
  | cons first rest ih =>
    change (eraseAll (table.erase first) rest).lookup key = _
    rw [ih, lookup_erase_eq]
    by_cases inRest : key ∈ rest
    · simp [inRest]
    · by_cases same : key = first <;> simp [inRest, same]

theorem mem_eraseAll (keys : List Key) (key : Key) :
    key ∈ eraseAll table keys ↔ key ∈ table ∧ key ∉ keys := by
  rw [mem_iff_lookup_ne, lookup_eraseAll, mem_iff_lookup_ne]
  by_cases named : key ∈ keys <;> simp [named]

/-! ## Retaining the entries that pass a test -/

/-- Keep the entries whose value passes a test. -/
def retain (table : HashMap Key Value) (test : Value → Bool) : HashMap Key Value :=
  ⟨table.entries.filter fun entry => test entry.2,
    Multiset.nodup_keys.mp (Multiset.nodup_of_le
      (Multiset.map_le_map (Multiset.filter_le _ _)) (Multiset.nodup_keys.mpr table.nodupKeys))⟩

theorem lookup_retain (test : Value → Bool) (key : Key) :
    (table.retain test).lookup key = (table.lookup key).filter test := by
  refine Option.ext fun value => ?_
  rw [Option.filter_eq_some_iff, Finmap.lookup_eq_some_iff, Finmap.lookup_eq_some_iff]
  simp [retain]

/-- Keep the entries whose key passes a test. -/
def retainKeys (table : HashMap Key Value) (test : Key → Bool) : HashMap Key Value :=
  ⟨table.entries.filter fun entry => test entry.1,
    Multiset.nodup_keys.mp (Multiset.nodup_of_le
      (Multiset.map_le_map (Multiset.filter_le _ _)) (Multiset.nodup_keys.mpr table.nodupKeys))⟩

/-! ## Sums over the entries -/

/-- The sum of a weight over the values of a map. -/
def total (table : HashMap Key Value) (weight : Value → Nat) : Nat :=
  ∑ key ∈ table.keys, ((Finmap.lookup key table).map weight).getD 0

variable (weight : Value → Nat)

theorem total_empty : total (∅ : HashMap Key Value) weight = 0 := by
  simp [total]

theorem total_insert (key : Key) (value : Value) (absent : key ∉ table) :
    total (table.insert key value) weight = total table weight + weight value := by
  have keys : (table.insert key value).keys = insert key table.keys := by
    ext other
    simp [Finmap.mem_keys]
  have outside : key ∉ table.keys := by rwa [Finmap.mem_keys]
  unfold total
  rw [keys, Finset.sum_insert outside, Nat.add_comm]
  congr 1
  · apply Finset.sum_congr rfl
    intro other mem
    have ne : other ≠ key := fun same => outside (same ▸ mem)
    rw [lookup_insert_eq, if_neg ne]
  · simp

theorem total_erase (key : Key) (value : Value) (stored : table.lookup key = some value) :
    total (table.erase key) weight + weight value = total table weight := by
  have rebuilt : (table.erase key).insert key value = table := by
    apply ext_lookup
    intro other
    rw [lookup_insert_eq, lookup_erase_eq]
    split
    · rename_i same
      rw [same, stored]
    · rfl
  have absent : key ∉ table.erase key := notMem_erase_self
  conv_rhs => rw [← rebuilt]
  rw [total_insert _ _ _ _ absent]

theorem total_mono {smaller larger : HashMap Key Value}
    (below : ∀ key value, smaller.lookup key = some value →
      ∃ other, larger.lookup key = some other ∧ weight value ≤ weight other) :
    total smaller weight ≤ total larger weight := by
  have keys : smaller.keys ⊆ larger.keys := by
    intro key mem
    obtain ⟨value, stored⟩ := mem_iff.mp (mem_keys.mp mem)
    obtain ⟨other, found, -⟩ := below key value stored
    exact mem_keys.mpr (mem_iff.mpr ⟨other, found⟩)
  calc total smaller weight
      ≤ ∑ key ∈ smaller.keys, ((larger.lookup key).map weight).getD 0 := by
        apply Finset.sum_le_sum
        intro key mem
        obtain ⟨value, stored⟩ := mem_iff.mp (mem_keys.mp mem)
        obtain ⟨other, found, light⟩ := below key value stored
        simpa [stored, found] using light
    _ ≤ total larger weight := Finset.sum_le_sum_of_subset keys

theorem le_total (stored : table.lookup key = some value) : weight value ≤ total table weight := by
  have rest := total_erase table weight key value stored
  omega

theorem total_ne_zero_iff :
    total table weight ≠ 0 ↔
      ∃ key value, table.lookup key = some value ∧ weight value ≠ 0 := by
  rw [total, Ne, Finset.sum_eq_zero_iff, not_forall]
  constructor
  · rintro ⟨key, heavy⟩
    rw [Classical.not_imp] at heavy
    cases stored : table.lookup key with
    | none => simp [stored] at heavy
    | some value => exact ⟨key, value, stored, by simpa [stored] using heavy.2⟩
  · rintro ⟨key, value, stored, heavy⟩
    refine ⟨key, fun zero => heavy ?_⟩
    have present : key ∈ table.keys := mem_keys.mpr (mem_iff.mpr ⟨value, stored⟩)
    simpa [stored] using zero present

end HashMap

end Brace.Lib
