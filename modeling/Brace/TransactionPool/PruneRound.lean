import Brace.TransactionPool.ReadyGraph

/-!
# One round of a pruning

A round takes out the provider of a tag. It removes the transaction from the lists of its
providers, raises the offsets of its dependents, adds to `best` those that it unblocks and clears
its tags (`PrunedOne`), but it does not remove the transaction from `best`. So a round keeps a
queue live, and it keeps the graph up to a stale reference.
-/

namespace Brace.TransactionPool.ReadyTransactions

open Brace.Lib List Finmap HashMap ReadyTx

variable {H T : Type} [DecidableEq H] [DecidableEq T]

/-! ## The providers of a pruned transaction -/

theorem eq_nil_of_count {α : Type} [DecidableEq α] {list : List α}
    (none : ∀ value, list.count value = 0) : list = [] :=
  eq_nil_iff_forall_not_mem.mpr fun value => count_eq_zero.mp (none value)

theorem count_iterate_removeItem {α : Type} [DecidableEq α] (item value : α) (times : Nat)
    (items : List α) : ((removeItem item)^[times] items).count value =
      items.count value - if value = item then times else 0 := by
  induction times generalizing items with
  | zero => simp
  | succ times ih =>
    rw [Function.iterate_succ_apply, ih, (removeItem_perm item items).count_eq, count_erase]
    by_cases own : value = item
    · simp [own]
      omega
    · simp [own, Ne.symm own]

variable {other : H} {state : HashMap H (ReadyTx H T) × List (TransactionRef H T)}

variable (hash : H)

variable (providedTags : HashMap T H)

variable (tags : List T)

theorem findPrevious_counts (state : HashMap H (ReadyTx H T) × List T) {after : ReadyTx H T}
    (found : (tags.foldl (findPrevious hash providedTags) state).1.lookup other = some after) :
    ∃ before, state.1.lookup other = some before ∧
      after.transaction = before.transaction ∧ after.requiresOffset = before.requiresOffset ∧
      ∀ name, after.unlocks.count name = before.unlocks.count name -
        if name = hash then tags.countP fun tag => providedTags.lookup tag = some other
        else 0 := by
  rw [findPrevious_fst, forget_lookup, Option.map_eq_some_iff] at found
  obtain ⟨before, stored, rfl⟩ := found
  exact ⟨before, stored, rfl, rfl, fun name => count_iterate_removeItem hash name _ _⟩

theorem findPrevious_empty {state : HashMap H (ReadyTx H T) × List T} {before : ReadyTx H T}
    (stored : state.1.lookup other = some before) (empty : before.unlocks = []) :
    ∃ after, (tags.foldl (findPrevious hash providedTags) state).1.lookup other =
      some after ∧ after.transaction = before.transaction ∧ after.unlocks = [] := by
  rw [findPrevious_fst, forget_lookup, stored]
  refine ⟨_, rfl, rfl, ?_⟩
  dsimp only
  rw [empty, Function.iterate_fixed rfl]

theorem findPrevious_pushed (state : HashMap H (ReadyTx H T) × List T) (tag name : T) :
    name ∈ (findPrevious hash providedTags state tag).2 ↔ name ∈ state.2 ∨
      ∃ other after, providedTags.lookup tag = some other ∧
        (findPrevious hash providedTags state tag).1.lookup other = some after ∧
        after.unlocks = [] ∧ name ∈ after.provides := by
  cases mapped : providedTags.lookup tag with
  | none => simp [findPrevious, mapped]
  | some previous =>
    cases stored : state.1.lookup previous with
    | none => simp [findPrevious, mapped, stored]
    | some queued =>
      simp only [findPrevious, mapped, stored, Option.some.injEq, exists_and_left, exists_eq_left',
        lookup_insert]
      split
      · rename_i empty
        simp [empty, provides]
      · rename_i some
        simp [some]

theorem mem_findPrevious (state : HashMap H (ReadyTx H T) × List T) (name : T) :
    name ∈ (tags.foldl (findPrevious hash providedTags) state).2 ↔ name ∈ state.2 ∨
      ∃ tag ∈ tags, ∃ other after, providedTags.lookup tag = some other ∧
        (tags.foldl (findPrevious hash providedTags) state).1.lookup other = some after ∧
        after.unlocks = [] ∧ name ∈ after.provides := by
  induction tags generalizing state with
  | nil => simp
  | cons first rest ih =>
    rw [foldl_cons, ih, findPrevious_pushed]
    constructor
    · rintro ((earlier | ⟨other, middle, mapped, stored, empty, own⟩) |
        ⟨tag, mem, other, after, mapped, stored, empty, own⟩)
      · exact .inl earlier
      · obtain ⟨after, present, same, none⟩ :=
          findPrevious_empty hash providedTags rest stored empty
        refine .inr ⟨first, mem_cons_self, other, after, mapped, present, none, ?_⟩
        rwa [provides, same]
      · exact .inr ⟨tag, mem_cons_of_mem _ mem, other, after, mapped, stored, empty, own⟩
    · rintro (earlier | ⟨tag, mem, other, after, mapped, stored, empty, own⟩)
      · exact .inl (.inl earlier)
      · by_cases later : ∃ tag ∈ rest, providedTags.lookup tag = some other
        · obtain ⟨again, member, same⟩ := later
          exact .inr ⟨again, member, other, after, same, stored, empty, own⟩
        · -- no later tag changes the list, so it was empty after the first tag
          have here : tag = first := by
            by_contra ne
            exact later ⟨tag, (mem_cons.mp mem).resolve_left ne, mapped⟩
          subst here
          obtain ⟨middle, present, same, -, counts⟩ :=
            findPrevious_counts hash providedTags rest _ stored
          have untouched : (rest.countP fun tag => providedTags.lookup tag = some other) =
              0 := by
            rw [countP_eq_zero]
            intro again member same
            exact later ⟨again, member, of_decide_eq_true same⟩
          refine .inl (.inr ⟨other, middle, mapped, present, eq_nil_of_count fun value => ?_, ?_⟩)
          · have counted := counts value
            rw [empty, untouched, ite_self, Nat.sub_zero] at counted
            exact counted.symm
          · rwa [provides, ← same]

/-! ## The transactions that a pruned one unlocks -/

/-- The reference has its last requirements satisfied by the unlocking of a list of hashes. -/
def Completed (hashes : List H) (ready : HashMap H (ReadyTx H T)) (ref : TransactionRef H T) :
    Prop :=
  ∃ hash queued, Finmap.lookup hash ready = some queued ∧ queued.transaction = ref ∧
    queued.requiresOffset < queued.requires.length ∧
    queued.requires.length ≤ queued.requiresOffset + hashes.count hash

omit [DecidableEq T] in
theorem completed_cons {hash : H}
    {queued : ReadyTx H T} (stored : state.1.lookup hash = some queued) (rest : List H)
    (ref : TransactionRef H T) : Completed (hash :: rest) state.1 ref ↔
      (ref = queued.transaction ∧ queued.requiresOffset + 1 = queued.requires.length) ∨
        Completed rest (unlock state hash).1 ref := by
  have next : ∀ other, (unlock state hash).1.lookup other =
      (state.1.lookup other).map fun queued =>
        { queued with requiresOffset := queued.requiresOffset + [hash].count other } :=
    unlock_lookup [hash] state
  constructor
  · rintro ⟨other, before, found, same, below, above⟩
    by_cases here : other = hash
    · subst here
      obtain rfl := Option.some.inj (stored.symm.trans found)
      rw [count_cons_self] at above
      by_cases full : queued.requiresOffset + 1 = queued.requires.length
      · exact .inl ⟨same.symm, full⟩
      · refine .inr ⟨other, { queued with requiresOffset := queued.requiresOffset + 1 }, ?_, same,
          ?_, ?_⟩
        · rw [next, stored, count_singleton_self]
          rfl
        · simp only [requires] at below full ⊢
          omega
        · simp only [requires] at above ⊢
          omega
    · rw [count_cons_of_ne (Ne.symm here)] at above
      refine .inr ⟨other, before, ?_, same, below, above⟩
      rw [next, found, count_cons_of_ne (Ne.symm here)]
      rfl
  · rintro (⟨rfl, full⟩ | ⟨other, after, found, same, below, above⟩)
    · refine ⟨hash, queued, stored, rfl, by omega, ?_⟩
      rw [count_cons_self]
      omega
    · rw [next, Option.map_eq_some_iff] at found
      obtain ⟨before, present, rfl⟩ := found
      refine ⟨other, before, present, same, ?_, ?_⟩
      · simp only [requires] at below ⊢
        omega
      · rw [count_cons]
        simp only [requires, count_cons, count_nil] at above ⊢
        omega

omit [DecidableEq T] in
/-- The loop over the unlocked transactions adds the completed ones to `best`. -/
theorem mem_unlock (hashes : List H)
    (sameQueued : ∀ left right hash other, refAt state.1 hash = some left →
      refAt state.1 other = some right → left.insertionId = right.insertionId → left = right)
    (sameBest : ∀ left hash right, left ∈ state.2 → refAt state.1 hash = some right →
      left.insertionId = right.insertionId → left = right) (ref : TransactionRef H T) :
    ref ∈ (hashes.foldl unlock state).2 ↔ ref ∈ state.2 ∨ Completed hashes state.1 ref := by
  induction hashes generalizing state with
  | nil =>
    rw [foldl_nil, iff_self_or]
    rintro ⟨hash, queued, -, -, below, above⟩
    simp at above
    omega
  | cons hash rest ih =>
    rw [foldl_cons]
    cases stored : state.1.lookup hash with
    | none =>
      have same : unlock state hash = state := by simp [unlock, stored]
      rw [same, ih sameQueued sameBest]
      apply or_congr_right
      refine exists_congr fun other => exists_congr fun queued => and_congr_right fun found => ?_
      have ne : other ≠ hash := by
        rintro rfl
        rw [stored] at found
        cases found
      rw [count_cons_of_ne (Ne.symm ne)]
    | some queued =>
      have found := refAt_of_lookup stored
      have refs : refAt (unlock state hash).1 = refAt state.1 := refAt_unlock [hash] state
      have added : ∀ ref, ref ∈ (unlock state hash).2 ↔ ref ∈ state.2 ∨
          (ref = queued.transaction ∧ queued.requiresOffset + 1 = queued.requires.length) := by
        intro ref
        simp only [unlock, stored]
        split
        · rename_i full
          rw [OrderedSet.mem_insert, or_comm, and_iff_left full]
          intro other mem same
          exact sameBest other hash queued.transaction mem found
            (TransactionRef.insertionId_eq_of_cmp same).symm
        · rename_i more
          simp [more]
      rw [ih, added, or_assoc]
      · exact or_congr_right (completed_cons stored rest ref).symm
      · rw [refs]
        exact sameQueued
      · intro left other right mem present ids
        rw [refs] at present
        rcases (added left).mp mem with earlier | ⟨rfl, -⟩
        · exact sameBest left other right earlier present ids
        · exact sameQueued _ right hash other found present ids

/-! ## One pruned transaction -/

/-- What the queue is after one round that prunes the provider of a tag. -/
structure PrunedOne (queue after : ReadyTransactions H T) (pruned : H) : Prop where
  insertionId : after.insertionId = queue.insertionId
  refs : ∀ other, refAt after.ready other =
    if other = pruned then none else refAt queue.ready other
  provided : ∀ tag hash, Finmap.lookup tag after.providedTags = some hash ↔
    Finmap.lookup tag queue.providedTags = some hash ∧ hash ≠ pruned
  left : ∀ hash tx, Finmap.lookup hash after.ready = some tx → ∃ before,
    Finmap.lookup hash queue.ready = some before ∧ tx.transaction = before.transaction ∧
    tx.requiresOffset = before.requiresOffset +
      links queue.providedTags queue.ready hash pruned ∧
    ∀ name, tx.unlocks.count name = if name = pruned then 0 else before.unlocks.count name
  best : ∀ ref, ref ∈ after.best ↔ ref ∈ queue.best ∨ ∃ hash before, hash ≠ pruned ∧
    Finmap.lookup hash queue.ready = some before ∧ before.transaction = ref ∧
    before.requiresOffset < before.requires.length ∧
    before.requires.length ≤ before.requiresOffset +
      links queue.providedTags queue.ready hash pruned

namespace PrunedOne

variable {queue after : ReadyTransactions H T} {pruned : H}

variable {hash : H} {ref : TransactionRef H T}

section

variable (one : PrunedOne queue after pruned)

include one

theorem of_refAt (found : refAt after.ready hash = some ref) :
    refAt queue.ready hash = some ref ∧ hash ≠ pruned := by
  rw [one.refs] at found
  split at found
  · cases found
  · rename_i ne
    exact ⟨found, ne⟩

theorem unmapped_iff (tag : T) :
    after.providedTags.lookup tag = none ↔
      queue.providedTags.lookup tag = none ∨
        queue.providedTags.lookup tag = some pruned := by
  rw [Option.eq_none_iff_forall_ne_some]
  simp only [ne_eq, one.provided, not_and, not_not]
  cases mapped : queue.providedTags.lookup tag with
  | none => simp
  | some provider => simp

theorem count_unmapped (tags : List T) :
    (tags.countP fun tag => after.providedTags.lookup tag = none) =
      (tags.countP fun tag => queue.providedTags.lookup tag = none) +
        tags.countP fun tag => queue.providedTags.lookup tag = some pruned := by
  induction tags with
  | nil => rfl
  | cons tag rest ih =>
    have head := one.unmapped_iff tag
    simp only [countP_cons, decide_eq_true_eq]
    rw [ih, if_congr head rfl rfl]
    cases mapped : queue.providedTags.lookup tag with
    | none => simp [Nat.add_right_comm]
    | some provider => simp [Nat.add_assoc]

end

theorem unblocked_iff_offset {tx : ReadyTx H T}
    (stored : queue.ready.lookup tx.transaction.transaction.hash = some tx)
    (offset : tx.requiresOffset =
      tx.requires.countP fun tag => queue.providedTags.lookup tag = none) :
    queue.Unblocked tx.transaction ↔ tx.requires.length ≤ tx.requiresOffset := by
  have full := countP_eq_length (l := tx.requires)
    (p := fun tag => decide (queue.providedTags.lookup tag = none))
  simp only [decide_eq_true_eq] at full
  have found := refAt_of_lookup stored
  rw [Unblocked, and_iff_right found]
  change (∀ tag ∈ tx.requires, _) ↔ _
  rw [← full, offset]
  exact ⟨fun equal => equal.ge, fun above => le_antisymm countP_le_length above⟩

theorem mem_best (live : Live queue) (one : PrunedOne queue after pruned)
    (offset : ∀ hash tx, after.ready.lookup hash = some tx → tx.requiresOffset =
      tx.requires.countP fun tag => after.providedTags.lookup tag = none)
    (ref : TransactionRef H T) :
    ref ∈ after.best ↔ ref ∈ queue.best ∨ after.Unblocked ref ∧ ¬ queue.Unblocked ref := by
  rw [one.best]
  apply or_congr_right
  have offsets : ∀ tx before, after.ready.lookup tx.transaction.transaction.hash = some tx →
      queue.ready.lookup tx.transaction.transaction.hash = some before →
      tx.transaction = before.transaction ∧ tx.requiresOffset = before.requiresOffset +
        links queue.providedTags queue.ready tx.transaction.transaction.hash pruned := by
    intro tx before stored found
    obtain ⟨again, there, same, raised, -⟩ := one.left _ tx stored
    obtain rfl := Option.some.inj (found.symm.trans there)
    exact ⟨same, raised⟩
  constructor
  · rintro ⟨hash, before, ne, found, rfl, below, above⟩
    have present := refAt_of_lookup found
    obtain rfl := live.provided.hash hash _ present
    have left := one.refs before.transaction.transaction.hash
    rw [if_neg ne, present] at left
    obtain ⟨tx, stored, same⟩ := lookup_of_refAt left
    rw [← same] at stored
    obtain ⟨-, raised⟩ := offsets tx before stored (by rw [same]; exact found)
    constructor
    · rw [← same, unblocked_iff_offset stored (offset _ tx stored), raised, same]
      rw [requires] at above ⊢
      rwa [same]
    · rw [unblocked_iff_offset found (live.offset _ before found)]
      omega
  · rintro ⟨free, blocked⟩
    obtain ⟨tx, stored, rfl⟩ := lookup_of_refAt free.1
    obtain ⟨present, ne⟩ := one.of_refAt free.1
    obtain ⟨before, found, same⟩ := lookup_of_refAt present
    obtain ⟨-, raised⟩ := offsets tx before stored found
    refine ⟨_, before, ne, found, same, ?_, ?_⟩
    · rw [← same] at blocked found
      rw [unblocked_iff_offset found (live.offset _ before found)] at blocked
      omega
    · rw [unblocked_iff_offset stored (offset _ tx stored), raised] at free
      rw [requires] at free ⊢
      rwa [same]

theorem unblocked (one : PrunedOne queue after pruned) (free : queue.Unblocked ref)
    (ne : ref.transaction.hash ≠ pruned) : after.Unblocked ref := by
  refine ⟨by rw [one.refs, if_neg ne, free.1], fun tag required => ?_⟩
  exact (one.unmapped_iff tag).mpr (.inl (free.2 tag required))

theorem of_mem (one : PrunedOne queue after pruned) (queued : hash ∈ after.ready) :
    hash ∈ queue.ready ∧ hash ≠ pruned := by
  obtain ⟨tx, stored⟩ := mem_iff.mp queued
  have found := refAt_of_lookup stored
  exact (one.of_refAt found).imp_left mem_of_refAt

theorem offset (live : Live queue) (one : PrunedOne queue after pruned) (hash : H)
    (tx : ReadyTx H T) (stored : after.ready.lookup hash = some tx) : tx.requiresOffset =
      tx.requires.countP fun tag => after.providedTags.lookup tag = none := by
  obtain ⟨before, found, same, raised, -⟩ := one.left hash tx stored
  rw [raised, live.offset hash before found, one.count_unmapped, links, refAt, found,
    requires, requires, same]
  rfl

/-- **One round** keeps a queue live. -/
theorem live (live : Live queue) (one : PrunedOne queue after pruned)
    (provided : Provided ∅ after.providedTags after.ready) : Live after := by
  have added := one.mem_best live (one.offset live)
  refine ⟨provided, ?_, ?_, ?_, ?_, ?_, ?_, one.offset live, ?_⟩
  · exact fun hash ref found => live.apart hash ref (one.of_refAt found).1
  · intro hash ref found
    rw [one.insertionId]
    exact live.queuedIds hash ref (one.of_refAt found).1
  · intro ref mem
    rw [one.insertionId]
    rcases (added ref).mp mem with earlier | ⟨⟨found, -⟩, -⟩
    · exact live.bestIds ref earlier
    · exact live.queuedIds _ ref (one.of_refAt found).1
  · intro left right hash other leftFound rightFound
    exact live.sameQueued left right hash other (one.of_refAt leftFound).1
      (one.of_refAt rightFound).1
  · intro left hash right mem found
    rcases (added left).mp mem with earlier | ⟨⟨present, -⟩, -⟩
    · exact live.sameBest left hash right earlier (one.of_refAt found).1
    · exact live.sameQueued left right _ hash (one.of_refAt present).1 (one.of_refAt found).1
  · intro hash tx stored other queued
    obtain ⟨before, found, same, -, counts⟩ := one.left hash tx stored
    obtain ⟨-, ne⟩ := one.of_mem (mem_of_lookup_eq_some stored)
    obtain ⟨earlier, here⟩ := one.of_mem queued
    rw [counts, if_neg here, live.unlocks hash before found other earlier, links, links, one.refs,
      if_neg here]
    congr 2
    funext ref
    apply countP_congr
    intro tag _
    simp [one.provided, ne]
  · intro ref queued
    obtain ⟨earlier, ne⟩ := one.of_mem queued
    rw [added, live.best ref earlier]
    constructor
    · rintro (free | ⟨free, -⟩)
      · exact one.unblocked free ne
      · exact free
    · intro free
      by_cases before : queue.Unblocked ref
      · exact .inl before
      · exact .inr ⟨free, before⟩

/-- **One round** keeps the graph, up to the pruned transaction itself, which stays in `best`
when it was there. -/
theorem graph {stale : TransactionRef H T → Prop} (graph : Graph stale queue)
    (gone : ∀ ref, stale ref → ref.transaction.hash ∉ queue.ready)
    (one : PrunedOne queue after pruned) (provided : Provided ∅ after.providedTags after.ready) :
    Graph (fun ref => (refAt queue.ready pruned = some ref ∧ queue.Unblocked ref) ∨ stale ref)
      after where
  toLive := one.live graph.toLive provided
  listed hash tx stored other mem := by
    obtain ⟨before, found, -, -, counts⟩ := one.left hash tx stored
    rw [← count_pos_iff, counts] at mem
    split at mem
    · cases mem
    · rename_i ne
      obtain ⟨entry, there⟩ := mem_iff.mp
        (graph.listed hash before found other (count_pos_iff.mp mem))
      have present : refAt after.ready other = some entry.transaction := by
        rw [one.refs, if_neg ne, refAt, there]
        rfl
      exact mem_of_refAt present
  left ref absent := by
    have blocked : ¬ (after.Unblocked ref ∧ ¬ queue.Unblocked ref) :=
      fun new => absent (mem_of_refAt new.1.1)
    rw [one.mem_best graph.toLive (one.offset graph.toLive), or_iff_left blocked]
    by_cases queued : ref.transaction.hash ∈ queue.ready
    · rw [graph.best ref queued, or_iff_left fun old => gone ref old queued]
      constructor
      · intro free
        by_cases here : ref.transaction.hash = pruned
        · exact ⟨here ▸ free.1, free⟩
        · exact absurd (mem_of_refAt (one.unblocked free here).1) absent
      · exact And.right
    · rw [graph.left ref queued, or_iff_right]
      exact fun new => queued (mem_of_refAt new.2.1)

end PrunedOne

section Round

variable {queue : ReadyTransactions H T} (live : Live queue) {tag : T} {pruned : H}
  {tx : ReadyTx H T}
  (mapped : Finmap.lookup tag queue.providedTags = some pruned)
  (stored : Finmap.lookup pruned queue.ready = some tx)

include live mapped stored

theorem lookup_erase_required {required : T} (mem : required ∈ tx.requires) :
    (queue.providedTags.erase tag).lookup required =
      queue.providedTags.lookup required := by
  obtain ⟨ref, found, own⟩ := live.mapped_iff.mp mapped
  have apart := live.apart pruned ref found
  rw [refAt, stored] at found
  obtain rfl := Option.some.inj found
  rw [lookup_erase_eq, if_neg]
  rintro rfl
  exact apart required mem own

/-- What the queue is between the two loops of a round: the pruned transaction is gone, also from
the lists of its providers. -/
theorem findPrevious_live {other : H} {after : ReadyTx H T}
    (found : Finmap.lookup other (tx.requires.foldl
      (findPrevious pruned (queue.providedTags.erase tag))
        (queue.ready.erase pruned, [])).1 = some after) :
    other ≠ pruned ∧ ∃ before, queue.ready.lookup other = some before ∧
      after.transaction = before.transaction ∧ after.requiresOffset = before.requiresOffset ∧
      ∀ name, after.unlocks.count name =
        if name = pruned then 0 else before.unlocks.count name := by
  obtain ⟨before, present, same, offset, counts⟩ := findPrevious_counts _ _ _ _ found
  rw [lookup_erase_eq] at present
  split at present
  · cases present
  · rename_i ne
    refine ⟨ne, before, present, same, offset, fun name => ?_⟩
    rw [counts]
    split
    · rename_i here
      rw [here, live.unlocks other before present pruned (mem_of_lookup_eq_some stored),
        links, refAt, stored]
      refine Nat.sub_eq_zero_of_le (le_of_eq (countP_congr fun name mem => ?_))
      rw [lookup_erase_required live mapped stored mem]
    · exact Nat.sub_zero _

theorem pruneNext_prunedOne (removed : List (Transaction H T)) :
    ∃ next pushed, pruneNext (queue, removed) tag = .ok (next, pushed) ∧
      PrunedOne queue next.1 pruned ∧
      ∀ name, name ∈ pushed ↔ ∃ other after, queue.Depends pruned other ∧
        next.1.ready.lookup other = some after ∧ after.unlocks = [] ∧
        name ∈ after.provides := by
  let left := tx.requires.foldl (findPrevious pruned (queue.providedTags.erase tag))
    (queue.ready.erase pruned, [])
  have refs : ∀ other, refAt left.1 other =
      if other = pruned then none else refAt queue.ready other := by
    intro other
    rw [findPrevious_fst, refAt_forget, refAt_erase]
  have earlier : Within left.1 queue.ready :=
    fun _ _ found => refAt_of_gone refs found
  have raised := unlock_lookup tx.unlocks (left.1, queue.best)
  refine ⟨_, _, pruneNext_eq live.provided mapped stored, ⟨rfl, ?_, ?_, ?_, ?_⟩, ?_⟩
  · intro other
    rw [refAt_unlock]
    exact refs other
  · intro name hash
    have own : name ∈ tx.provides ↔ queue.providedTags.lookup name = some pruned := by
      rw [live.mapped_iff, Provides, refAt, stored]
      simp [provides]
    rw [lookup_pruned live.provided mapped stored]
    split
    · rename_i mem
      rw [own.mp mem]
      simp [eq_comm]
    · rename_i outside
      rw [iff_self_and]
      rintro there rfl
      exact outside (own.mpr there)
  · intro hash after found
    rw [raised, Option.map_eq_some_iff] at found
    obtain ⟨between, there, rfl⟩ := found
    obtain ⟨-, before, present, same, offset, counts⟩ :=
      findPrevious_live live mapped stored there
    refine ⟨before, present, same, ?_, counts⟩
    rw [← live.unlocks pruned tx stored hash (mem_of_lookup_eq_some present), ← offset]
  · intro ref
    rw [mem_unlock tx.unlocks]
    · apply or_congr_right
      constructor
      · rintro ⟨hash, between, there, rfl, below, above⟩
        obtain ⟨ne, before, present, same, offset, -⟩ :=
          findPrevious_live live mapped stored there
        rw [live.unlocks pruned tx stored hash (mem_of_lookup_eq_some present)] at above
        rw [requires, same, offset] at below above
        exact ⟨hash, before, ne, present, same.symm, below, above⟩
      · rintro ⟨hash, before, ne, present, rfl, below, above⟩
        have found : refAt left.1 hash = some before.transaction := by
          rw [refs, if_neg ne, refAt, present]
          rfl
        obtain ⟨between, there, same⟩ := lookup_of_refAt found
        obtain ⟨-, again, here, -, offset, -⟩ := findPrevious_live live mapped stored there
        obtain rfl := Option.some.inj (present.symm.trans here)
        refine ⟨hash, between, there, same, ?_, ?_⟩
        · rwa [requires, same, offset]
        · rwa [requires, same, offset,
            live.unlocks pruned tx stored hash (mem_of_lookup_eq_some present)]
    · intro one two hash other first second
      exact live.sameQueued one two hash other (earlier hash one first) (earlier other two second)
    · intro one hash two mem found
      exact live.sameBest one hash two mem (earlier hash two found)
  · intro name
    -- The map is read without the tag, which no transaction requires of itself.
    have depends : ∀ other, queue.Depends pruned other ↔ ∃ required ∈ tx.requires,
        (queue.providedTags.erase tag).lookup required = some other := by
      intro other
      rw [Depends, refAt, stored]
      simp only [Option.map_some, Option.some.injEq, exists_eq_left']
      refine exists_congr fun required => and_congr_right fun mem => ?_
      rw [lookup_erase_required live mapped stored mem, live.mapped_iff]
    simp only [mem_reverse, mem_findPrevious, not_mem_nil, false_or, depends]
    constructor
    · rintro ⟨required, mem, other, between, provider, there, empty, own⟩
      have found := raised other
      rw [there] at found
      exact ⟨other, _, ⟨required, mem, provider⟩, found, empty, own⟩
    · rintro ⟨other, after, ⟨required, mem, provider⟩, found, empty, own⟩
      rw [raised, Option.map_eq_some_iff] at found
      obtain ⟨between, there, rfl⟩ := found
      exact ⟨required, mem, other, between, provider, there, empty, own⟩

end Round

end Brace.TransactionPool.ReadyTransactions
