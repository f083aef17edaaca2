import Brace.Lib.HashMap
import Brace.Lib.Iteration

/-!
# Ordered maps: entries in ascending order and the next key

A `BTreeMap` is a finite map whose keys are ordered. Its observable order is that of its
entries (`entries`) and of the first key after a given one (`nextAbove`). The module gives the
effect of a loop that updates one map at the keys of another (`lookup_alterFrom`), and the two
rules for a search of the next key: what it is above several sources (`IsNext`), and that
following it from any key lists the live keys in ascending order (`enumerates_of_isNext`).
-/

namespace Brace.Lib

open List

/-! ## Updates at the keys of another map -/

namespace HashMap

variable {Key Value Item : Type} [DecidableEq Key]

/-- `entry(key)` with an update of what is found there. -/
def alter (table : HashMap Key Value) (key : Key) (change : Option Value → Value) :
    HashMap Key Value :=
  Finmap.insert key (change (Finmap.lookup key table)) table

theorem lookup_alter (table : HashMap Key Value) (key other : Key) (change : Option Value → Value) :
    (alter table key change).lookup other =
      if other = key then some (change (table.lookup other))
      else table.lookup other := by
  rw [alter, lookup_insert_eq]
  split
  · rename_i same
    rw [same]
  · rfl

section

variable (updates : List (Key × Item)) (table : HashMap Key Value)
  (change : Item → Option Value → Value) (key : Key)

theorem lookup_foldl_alter_of_not_mem (absent : key ∉ updates.map Prod.fst) :
    (updates.foldl (fun table entry => alter table entry.1 (change entry.2))
      table).lookup key = table.lookup key := by
  induction updates generalizing table with
  | nil => rfl
  | cons entry rest ih =>
    simp only [map_cons, mem_cons, not_or] at absent
    rw [foldl_cons, ih _ absent.2, lookup_alter, if_neg absent.1]

theorem lookup_foldl_alter_of_mem (item : Item) (distinct : (updates.map Prod.fst).Nodup)
    (named : (key, item) ∈ updates) :
    (updates.foldl (fun table entry => alter table entry.1 (change entry.2))
      table).lookup key = some (change item (table.lookup key)) := by
  induction updates generalizing table with
  | nil => cases named
  | cons entry rest ih =>
    obtain ⟨fresh, distinctRest⟩ := nodup_cons.mp (map_cons ▸ distinct)
    rw [foldl_cons]
    rcases mem_cons.mp named with first | later
    · subst first
      rw [lookup_foldl_alter_of_not_mem _ _ _ _ fresh, lookup_alter, if_pos rfl]
    · have ne : key ≠ entry.1 := by
        intro same
        exact fresh (same ▸ mem_map.mpr ⟨_, later, rfl⟩)
      rw [ih _ distinctRest later, lookup_alter, if_neg ne]

end

variable [LinearOrder Key]

/-- The entries of a map in the order of their keys. -/
def entries (table : HashMap Key Value) : List (Key × Value) :=
  (table.keys.sort (· ≤ ·)).filterMap fun key => (Finmap.lookup key table).map (Prod.mk key)

/-- A loop over the entries of `source` that updates `table` at the keys that pass a test. -/
def alterFrom (table : HashMap Key Value) (source : HashMap Key Item) (test : Key → Bool)
    (change : Item → Option Value → Value) : HashMap Key Value :=
  ((entries source).filter fun entry => test entry.1).foldl
    (fun table entry => alter table entry.1 (change entry.2)) table

variable (table : HashMap Key Value)

theorem mem_entries (key : Key) (value : Value) :
    (key, value) ∈ entries table ↔ table.lookup key = some value := by
  simp only [entries, mem_filterMap, Finset.mem_sort, Finmap.mem_keys, Option.map_eq_some_iff,
    Prod.mk.injEq]
  constructor
  · rintro ⟨other, -, found, stored, rfl, rfl⟩
    exact stored
  · intro stored
    exact ⟨key, Finmap.mem_of_lookup_eq_some stored, value, stored, rfl, rfl⟩

theorem entries_sublist :
    List.Sublist ((entries table).map Prod.fst) (table.keys.sort (· ≤ ·)) := by
  unfold entries
  generalize table.keys.sort (· ≤ ·) = keys
  induction keys with
  | nil => exact List.Sublist.refl _
  | cons key rest ih =>
    cases stored : table.lookup key with
    | none => simpa [stored] using ih.cons key
    | some value => simpa [stored] using ih.cons_cons key

theorem nodup_entries : ((entries table).map Prod.fst).Nodup :=
  (Finset.sort_nodup _ _).sublist (entries_sublist table)

/-- **The updates from another map, read at any key.** -/
theorem lookup_alterFrom (source : HashMap Key Item)
    (test : Key → Bool) (change : Item → Option Value → Value) (key : Key) :
    (alterFrom table source test change).lookup key =
      match source.lookup key with
      | some item =>
        if test key then some (change item (table.lookup key)) else table.lookup key
      | none => table.lookup key := by
  have distinct : (((entries source).filter fun entry => test entry.1).map Prod.fst).Nodup :=
    (nodup_entries source).sublist (List.Sublist.map _ filter_sublist)
  have absent (out : ∀ item, source.lookup key = some item → test key = false) :
      (alterFrom table source test change).lookup key = table.lookup key := by
    apply lookup_foldl_alter_of_not_mem
    intro named
    obtain ⟨⟨_, item⟩, mem, rfl⟩ := mem_map.mp named
    obtain ⟨stored, passes⟩ := mem_filter.mp mem
    have fails := out item ((mem_entries source _ item).mp stored)
    simp_all
  cases stored : source.lookup key with
  | none => exact absent fun item found => by rw [stored] at found; cases found
  | some item =>
    cases passes : test key with
    | false => exact absent fun _ _ => passes
    | true =>
      have named : (key, item) ∈ (entries source).filter fun entry => test entry.1 :=
        mem_filter.mpr ⟨(mem_entries source key item).mpr stored, passes⟩
      exact lookup_foldl_alter_of_mem _ table change key item distinct named

end HashMap

/-! ## The next key -/

section NextKey

variable {Key : Type} [LinearOrder Key] {live : Key → Prop} {key : Key}

/-- The keys of a finite set after a given one. -/
def above (keys : Finset Key) (key : Key) : Finset Key :=
  keys.filter (key < ·)

variable {keys : Finset Key} {other : Key} {result : Option Key} {second : Key → Prop}

@[simp] theorem mem_above : other ∈ above keys key ↔ other ∈ keys ∧ key < other :=
  Finset.mem_filter

/-- The first key of a finite set after a given one. -/
def nextAbove (keys : Finset Key) (key : Key) : Option Key :=
  (above keys key).min

/-- The result of a search is the least live key above `key`, or there is none. -/
def IsNext (live : Key → Prop) (key : Key) : Option Key → Prop
  | some next => live next ∧ key < next ∧ ∀ other, live other → key < other → next ≤ other
  | none => ∀ other, live other → other ≤ key

theorem nextAbove_isNext (keys : Finset Key) (key : Key) :
    IsNext (· ∈ keys) key (nextAbove keys key) := by
  cases found : nextAbove keys key with
  | none =>
    intro other mem
    by_contra beyond
    have empty : above keys key = ∅ := Finset.min_eq_top.mp found
    exact Finset.notMem_empty other (empty ▸ mem_above.mpr ⟨mem, not_le.mp beyond⟩)
  | some next =>
    have member := mem_above.mp (Finset.mem_of_min found)
    refine ⟨member.1, member.2, fun other mem after => ?_⟩
    exact Finset.min_le_of_eq (mem_above.mpr ⟨mem, after⟩) found

theorem IsNext.ahead (found : IsNext live key result)
    (alive : live other) (after : key < other) : ∃ next, result = some next ∧ next ≤ other := by
  cases result with
  | none => exact absurd (found other alive) (not_le.mpr after)
  | some next => exact ⟨next, rfl, found.2.2 other alive after⟩

theorem IsNext.or {next : Key} (found : IsNext live key (some next))
    (other : IsNext second key result) (smaller : ∀ later, result = some later → next ≤ later) :
    IsNext (fun name => live name ∨ second name) key (some next) := by
  refine ⟨.inl found.1, found.2.1, fun name alive after => ?_⟩
  rcases alive with here | there
  · exact found.2.2 name here after
  · obtain ⟨later, result, before⟩ := other.ahead there after
    exact (smaller later result).trans before

theorem IsNext.congr (same : ∀ other, key < other → (live other ↔ second other))
    (found : IsNext live key result) : IsNext second key result := by
  cases result with
  | none =>
    intro other alive
    by_contra after
    exact after (found other ((same other (not_le.mp after)).mpr alive))
  | some next =>
    exact ⟨(same next found.2.1).mp found.1, found.2.1, fun other alive after =>
      found.2.2 other ((same other after).mpr alive) after⟩

theorem IsNext.or_of_none (found : IsNext live key none) (other : IsNext second key result) :
    IsNext (fun name => live name ∨ second name) key result :=
  other.congr fun name after => (or_iff_right fun here => not_le.mpr after (found name here)).symm

theorem IsNext.skip {later : Key} (forward : key < later)
    (passes : ∀ other, live other → key < other → later < other)
    (found : IsNext live later result) : IsNext live key result := by
  cases result with
  | none =>
    intro other alive
    by_contra above
    exact absurd (found other alive) (not_le.mpr (passes other alive (not_le.mp above)))
  | some next =>
    obtain ⟨alive, after, least⟩ := found
    exact ⟨alive, forward.trans after, fun other lives above =>
      least other lives (passes other lives above)⟩

theorem card_above_lt {following : Key} (member : following ∈ keys) (after : key < following) :
    (above keys following).card < (above keys key).card := by
  apply Finset.card_lt_card
  refine ⟨fun other mem => ?_, fun subset => ?_⟩
  · obtain ⟨present, beyond⟩ := mem_above.mp mem
    exact mem_above.mpr ⟨present, after.trans beyond⟩
  · have itself := subset (mem_above.mpr ⟨member, after⟩)
    exact absurd (mem_above.mp itself).2 (lt_irrefl _)

/-- Following `next` from a key passes through the listed keys and ends. -/
inductive Enumerates (next : Key → Option Key) : Key → List Key → Prop
  | done {key : Key} : next key = none → Enumerates next key []
  | more {key following : Key} {rest : List Key} : next key = some following →
      Enumerates next following rest → Enumerates next key (following :: rest)

/-- **Following the next key lists the live keys.** From any key the search ends, and it has
passed through exactly the live keys above the key, in ascending order. -/
theorem enumerates_of_isNext (next : Key → Option Key) (keys : Finset Key)
    (covered : ∀ key, live key → key ∈ keys) (searches : ∀ key, IsNext live key (next key))
    (key : Key) :
    ∃ listed, Enumerates next key listed ∧ listed.Pairwise (· < ·) ∧
      ∀ other, other ∈ listed ↔ key < other ∧ live other := by
  -- The keys above the current one become fewer with every step.
  induction count : (above keys key).card using Nat.strong_induction_on generalizing key with
  | _ size ih =>
    have search := searches key
    cases found : next key with
    | none =>
      rw [found] at search
      refine ⟨[], .done found, List.Pairwise.nil, fun other => ?_⟩
      simp only [not_mem_nil, false_iff, not_and]
      intro above alive
      exact absurd (search other alive) (not_le.mpr above)
    | some following =>
      rw [found] at search
      obtain ⟨alive, after, least⟩ := search
      have fewer : (above keys following).card < size :=
        count ▸ card_above_lt (covered following alive) after
      obtain ⟨rest, goes, ascending, lists⟩ := ih _ fewer following rfl
      refine ⟨following :: rest, .more found goes, ?_, fun other => ?_⟩
      · exact pairwise_cons.mpr ⟨fun other mem => ((lists other).mp mem).1, ascending⟩
      · rw [mem_cons, lists]
        constructor
        · rintro (rfl | ⟨above, lives⟩)
          · exact ⟨after, alive⟩
          · exact ⟨after.trans above, lives⟩
        · rintro ⟨above, lives⟩
          rcases (least other lives above).eq_or_lt with same | beyond
          · exact .inl same.symm
          · exact .inr ⟨beyond, lives⟩

end NextKey

end Brace.Lib
