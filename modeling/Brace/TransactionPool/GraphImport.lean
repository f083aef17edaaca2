import Brace.TransactionPool.GraphRemoval

/-!
# Import into the dependency graph

An import that is not refused removes the transactions it replaces and inserts the new one, with
the lists of the replaced ones as its own list (`Inserted`). The graph stays exact when the
replaced transactions have no provider in the queue, lose no tag that another transaction
depends on, and no transaction in the queue waits for a tag that only the new one provides
(`Fits`), and only then: a provider keeps naming the replaced transaction, the new transaction
names dependents that were removed, and nothing tells a queued transaction of a later provider.
-/

namespace Brace.TransactionPool.ReadyTransactions

open Brace.Lib List Finmap HashMap Option

variable {H T : Type} [DecidableEq H] [DecidableEq T]

/-! ## Insertion -/

/-- The tables after the insertion of a transaction. -/
structure Placed (tx : Transaction H T) (unlocks : List H) (before after : ReadyTransactions H T) :
    Prop where
  own : Finmap.lookup tx.hash after.ready = some
    { transaction := ⟨tx, before.insertionId⟩, unlocks
      requiresOffset := tx.requires.countP fun tag => Finmap.lookup tag before.providedTags = none }
  others : ∀ hash, hash ≠ tx.hash → Finmap.lookup hash after.ready =
    (Finmap.lookup hash before.ready).map fun queued => { queued with
      unlocks := queued.unlocks ++ List.replicate (tx.requires.countP fun tag =>
        Finmap.lookup tag before.providedTags = some hash) tx.hash }
  provided : ∀ tag, Finmap.lookup tag after.providedTags =
    if tag ∈ tx.provides then some tx.hash else Finmap.lookup tag before.providedTags

/-- The queue after the insertion of a transaction. -/
structure Inserted (tx : Transaction H T) (unlocks : List H)
    (before after : ReadyTransactions H T) : Prop extends Placed tx unlocks before after where
  best : ∀ ref, ref ∈ after.best ↔ ref ∈ before.best ∨ (ref = ⟨tx, before.insertionId⟩ ∧
    ∀ tag ∈ tx.requires, Finmap.lookup tag before.providedTags = none)
  insertionId : after.insertionId = before.insertionId

/-- What the loop over the required tags computes, when their providers are queued. -/
theorem link_eq {providedTags : HashMap T H} {hash : H} {tags : List T} {start last : Linking H T}
    (looped : tags.foldlM (link providedTags hash) start = .ok last) :
    (∀ other, last.ready.lookup other = (start.ready.lookup other).map fun queued =>
      { queued with unlocks := queued.unlocks ++ List.replicate (tags.countP fun tag =>
          providedTags.lookup tag = some other) hash }) ∧
      last.requiresOffset = start.requiresOffset +
        tags.countP (fun tag => providedTags.lookup tag = none) ∧
      (last.goesToBest = true ↔ start.goesToBest = true ∧
        ∀ tag ∈ tags, providedTags.lookup tag = none) ∧
      ∀ tag ∈ tags, ∀ other, providedTags.lookup tag = some other → other ∈ start.ready := by
  induction tags generalizing start with
  | nil =>
    obtain rfl := Except.ok.inj looped
    simp
  | cons tag rest ih =>
    rw [foldlM_cons, bind_eq_ok] at looped
    obtain ⟨next, returned, later⟩ := looped
    obtain ⟨readies, offset, best, queued⟩ := ih later
    unfold link at returned
    split at returned
    · rename_i unmapped
      obtain rfl := Except.ok.inj returned
      refine ⟨fun other => ?_, ?_, ?_, fun name mem other found => ?_⟩
      · rw [readies, countP_cons_of_neg (by simp [unmapped])]
      · rw [offset, countP_cons_of_pos (by simp [unmapped])]
        dsimp only
        omega
      · rw [best]
        simp [unmapped]
      · rcases mem_cons.mp mem with rfl | after
        · cases unmapped.symm.trans found
        · exact queued name after other found
    · rename_i provider mapped
      split at returned
      · cases returned
      · rename_i tx stored
        obtain rfl := Except.ok.inj returned
        refine ⟨fun other => ?_, ?_, ?_, fun name mem other found => ?_⟩
        · rw [readies, lookup_insert_eq]
          by_cases same : other = provider
          · subst same
            rw [if_pos rfl, stored, countP_cons_of_pos (by simp [mapped]), replicate_succ]
            simp
          · rw [if_neg same, countP_cons_of_neg]
            simp [mapped, Ne.symm same]
        · rw [offset, countP_cons_of_neg (by simp [mapped])]
        · rw [best]
          simp [mapped]
        · have here := mem_of_lookup_eq_some stored
          rcases mem_cons.mp mem with rfl | after
          · exact some.inj (mapped.symm.trans found) ▸ here
          · exact ((mem_insert.mp (queued name after other found)).elim (· ▸ here) id)

section

variable {queue after : ReadyTransactions H T} {tx : Transaction H T} {unlocks : List H}
  (returned : queue.insertReady tx unlocks = .ok after)

include returned

theorem insertReady_placed : Placed tx unlocks queue after := by
  rw [insertReady, bind_eq_ok] at returned
  obtain ⟨linking, looped, built⟩ := returned
  obtain ⟨readies, offset, -⟩ := link_eq looped
  obtain rfl := Except.ok.inj built
  rw [Nat.zero_add] at offset
  refine ⟨?_, fun hash differs => ?_, fun tag => ?_⟩
  · rw [lookup_insert, offset]
  · rw [lookup_insert_eq, if_neg differs, readies]
  · exact lookup_insertAll_same _ _ _ _

theorem insertReady_inserted (fresh : ∀ ref ∈ queue.best, ref.insertionId < queue.insertionId) :
    Inserted tx unlocks queue after := by
  have placed := insertReady_placed returned
  rw [insertReady, bind_eq_ok] at returned
  obtain ⟨linking, looped, built⟩ := returned
  obtain ⟨-, -, best, -⟩ := link_eq looped
  obtain rfl := Except.ok.inj built
  have unique : ∀ other ∈ queue.best,
      TransactionRef.cmp ⟨tx, queue.insertionId⟩ other = .eq → other = ⟨tx, queue.insertionId⟩ := by
    intro other mem same
    have ids := TransactionRef.insertionId_eq_of_cmp same
    have lower := fresh other mem
    dsimp only at ids
    omega
  refine ⟨placed, fun ref => ?_, rfl⟩
  dsimp only
  split
  · rename_i goes
    have free := (best.mp goes).2
    rw [OrderedSet.mem_insert unique, and_iff_left free, or_comm]
  · rename_i stays
    have blocked : ¬ ∀ tag ∈ tx.requires, queue.providedTags.lookup tag = none :=
      fun free => stays (best.mpr ⟨rfl, free⟩)
    rw [iff_self_or]
    exact fun new => absurd new.2 blocked

end

section

variable {tx : Transaction H T} {unlocks : List H} {before after : ReadyTransactions H T}

variable (placed : Placed tx unlocks before after)

include placed

theorem Placed.refAt_own : refAt after.ready tx.hash = some ⟨tx, before.insertionId⟩ := by
  rw [refAt, placed.own]
  rfl

theorem Placed.refAt_others {hash : H} (differs : hash ≠ tx.hash) :
    refAt after.ready hash = refAt before.ready hash := by
  rw [refAt, placed.others hash differs, refAt, Option.map_map]
  rfl

end

/-! ## Replacement -/

variable (queue : ReadyTransactions H T)

/-- The transaction would replace the queued one. -/
def Replaces (tx : Transaction H T) (hash : H) : Prop :=
  ∃ tag ∈ tx.provides, queue.Provides tag hash

def priorityAt (hash : H) : Nat :=
  ((Finmap.lookup hash queue.ready).map (·.transaction.transaction.priority.toNat)).getD 0

/-- The priorities of the transactions to replace add up to at least the new one. -/
def Refused (tx : Transaction H T) : Prop :=
  queue.replaceHashes tx ≠ ∅ ∧
    tx.priority.toNat ≤ ∑ hash ∈ queue.replaceHashes tx, queue.priorityAt hash

omit [DecidableEq H] [DecidableEq T] in
theorem foldl_saturatingAdd (replaced : List (ReadyTx H T)) (start : UInt64) :
    (replaced.foldl (fun total tx =>
      saturatingAdd total tx.transaction.transaction.priority) start).toNat =
      min (start.toNat + (replaced.map fun tx => tx.transaction.transaction.priority.toNat).sum)
        (2 ^ 64 - 1) := by
  induction replaced generalizing start with
  | nil =>
    have bound := start.toNat_lt
    simp
    omega
  | cons tx rest ih =>
    have once : (saturatingAdd start tx.transaction.transaction.priority).toNat =
        min (start.toNat + tx.transaction.transaction.priority.toNat) (2 ^ 64 - 1) := by
      rw [saturatingAdd, UInt64.toNat_ofNat_of_lt']
      have bound : 2 ^ 64 = UInt64.size := rfl
      omega
    rw [foldl_cons, ih, once, map_cons, sum_cons]
    omega

theorem sum_map_filterMap {α β : Type} {values : α → Option β} (weight : β → Nat)
    (keys : List α) : ((keys.filterMap values).map weight).sum =
      (keys.map fun key => ((values key).map weight).getD 0).sum := by
  induction keys with
  | nil => rfl
  | cons key rest ih =>
    cases found : values key with
    | none => simp [found, ih]
    | some value => simp [found, ih]

variable (order : Order H T)

/-- The hashes that a transaction replaces, in the order of their visit. -/
def replacedList (queue : ReadyTransactions H T) (tx : Transaction H T) : List H :=
  order.replaced.list tx.hash (queue.replaceHashes tx)

/-- The transactions unlocked by the ones that a transaction replaces. -/
def replacedUnlocks (queue : ReadyTransactions H T) (tx : Transaction H T) : List H :=
  ((queue.replacedList order tx).filterMap fun hash =>
    Finmap.lookup hash queue.ready).flatMap (·.unlocks)

theorem replacePrevious_outcome (queue : ReadyTransactions H T) (tx : Transaction H T) :
    (queue.Refused tx ∧ ∃ error, replacePrevious order queue tx = .ok (queue, .error error)) ∨
      (¬ queue.Refused tx ∧ queue.replaceHashes tx = ∅ ∧
        replacePrevious order queue tx = .ok (queue, .ok ([], []))) ∨
      (¬ queue.Refused tx ∧ queue.replaceHashes tx ≠ ∅ ∧ replacePrevious order queue tx =
        queue.removeSubtreeWithTagFilter (queue.replacedList order tx) (some tx.provides.toFinset)
          >>= fun result => .ok (result.1, .ok (result.2, queue.replacedUnlocks order tx))) := by
  let replaced := (order.replaced.list tx.hash (queue.replaceHashes tx)).filterMap fun hash =>
    queue.ready.lookup hash
  unfold replacePrevious
  by_cases nothing : queue.replaceHashes tx = ∅
  · rw [if_pos nothing]
    exact .inr (.inl ⟨fun refused => refused.1 nothing, nothing, rfl⟩)
  · have total : (replaced.foldl (fun total tx =>
        saturatingAdd total tx.transaction.transaction.priority) 0).toNat =
          min (∑ hash ∈ queue.replaceHashes tx, queue.priorityAt hash) (2 ^ 64 - 1) := by
      rw [foldl_saturatingAdd, sum_map_filterMap, ← order.replaced.sum_list tx.hash,
        UInt64.toNat_zero, Nat.zero_add]
      rfl
    have refuses : replaced.foldl (fun total tx =>
        saturatingAdd total tx.transaction.transaction.priority) 0 ≥ tx.priority ↔
          queue.Refused tx := by
      have bound := tx.priority.toNat_lt
      rw [ge_iff_le, UInt64.le_iff_toNat_le, total, Refused, and_iff_right nothing]
      omega
    rw [if_neg nothing]
    dsimp only
    by_cases low : queue.Refused tx
    · rw [if_pos (refuses.mpr low)]
      exact .inl ⟨low, _, rfl⟩
    · rw [if_neg (fun below => low (refuses.mp below))]
      exact .inr (.inr ⟨low, nothing, rfl⟩)

theorem replacePrevious_cases {queue : ReadyTransactions H T} (live : Live queue)
    (tx : Transaction H T) :
    ((∃ error, replacePrevious order queue tx = .ok (queue, .error error)) ∧ queue.Refused tx) ∨
      ∃ after removed, replacePrevious order queue tx =
          .ok (after, .ok (removed, queue.replacedUnlocks order tx)) ∧ ¬ queue.Refused tx ∧
        Cut tx.provides.toFinset (Removed queue tx.provides.toFinset
          (queue.replacedList order tx)) queue after := by
  rcases replacePrevious_outcome order queue tx with ⟨low, refused⟩ | ⟨high, nothing, returned⟩ |
    ⟨high, -, called⟩
  · exact .inl ⟨refused, low⟩
  · have none : queue.replacedList order tx = [] := by
      refine eq_nil_iff_forall_not_mem.mpr fun hash mem => ?_
      rw [replacedList, order.replaced.mem_list, nothing] at mem
      exact absurd mem (Finset.notMem_empty hash)
    have kept : ∀ hash, ¬ Removed queue tx.provides.toFinset
      (queue.replacedList order tx) hash := by
      intro hash removed
      induction removed with
      | root given => exact absurd (none ▸ given) not_mem_nil
      | dependent _ _ _ _ ih => exact ih
    refine .inr ⟨queue, [], ?_, high, ?_⟩
    · rw [returned, replacedUnlocks, none]
      rfl
    · refine ⟨fun _ _ => rfl, fun hash removed => absurd removed (kept hash), ?_, ?_, rfl⟩
      · exact fun tag hash => (and_iff_left (.inr (kept hash))).symm
      · exact fun ref => (and_iff_left (kept _)).symm
  · obtain ⟨after, removed, returned, cut⟩ := removeSubtreeWithTagFilter_cut live
      (queue.replacedList order tx) (some tx.provides.toFinset)
    refine .inr ⟨after, removed, ?_, high, cut⟩
    rw [called, returned, ok_bind]

/-! ## Import into a live queue -/

/-- Neither the list of a queued transaction nor `best` names the hash. -/
def Forgotten (hash : H) : Prop :=
  (∀ other tx, Finmap.lookup other queue.ready = some tx → hash ∉ tx.unlocks) ∧
    ∀ ref ∈ queue.best, ref.transaction.hash ≠ hash

variable (tx : Transaction H T)

/-- A transaction that stays requires no tag that only the new transaction provides. -/
def Timely : Prop :=
  ∀ hash ref, refAt queue.ready hash = some ref → ¬ queue.Replaces tx hash →
    ∀ tag ∈ ref.transaction.requires, tag ∈ tx.provides → ∃ provider, queue.Provides tag provider

/-- The import takes the queued transaction out of the queue. -/
abbrev Displaced (queue : ReadyTransactions H T) (tx : Transaction H T) (hash : H) : Prop :=
  Removed queue tx.provides.toFinset (queue.replacedList order tx) hash

/-- A new transaction is imported into a live queue: the replaced transactions are cut out of the
queue and the new one is inserted. -/
structure Importing (order : Order H T) (tx : Transaction H T)
    (queue middle after : ReadyTransactions H T) : Prop where
  live : Live queue
  apart : tx.Apart
  repeats : tx.RepeatsAlone
  fresh : tx.hash ∉ queue.ready
  queuedIds : ∀ hash ref, refAt queue.ready hash = some ref → ref.insertionId < queue.insertionId
  bestIds : ∀ ref ∈ queue.best, ref.insertionId < queue.insertionId
  cut : Cut tx.provides.toFinset
    (Removed queue tx.provides.toFinset (queue.replacedList order tx)) queue middle
  inserted : Inserted tx (queue.replacedUnlocks order tx) middle after

theorem countP_lt_countP {α : Type} {strong weak : α → Bool} {list : List α}
    (implies : ∀ value ∈ list, strong value = true → weak value = true) {value : α}
    (mem : value ∈ list) (holds : weak value = true) (fails : strong value = false) :
    list.countP strong < list.countP weak := by
  obtain ⟨before, after, rfl⟩ := append_of_mem mem
  have first := countP_mono_left fun other member =>
    implies other (mem_append_left (value :: after) member)
  have last := countP_mono_left fun other member =>
    implies other (mem_append_right before (mem_cons_of_mem value member))
  rw [countP_append, countP_append, countP_cons_of_pos holds, countP_cons_of_neg (by simp [fails])]
  omega

theorem countP_exists_eq_sum {providedTags : HashMap T H} (tags : List T) (set : Finset H) :
    (tags.countP fun tag => ∃ hash ∈ set, providedTags.lookup tag = some hash) =
      ∑ hash ∈ set, tags.countP fun tag => providedTags.lookup tag = some hash := by
  induction tags with
  | nil => simp
  | cons tag rest ih =>
    simp only [countP_cons, ih, Finset.sum_add_distrib, Nat.add_left_cancel_iff, decide_eq_true_eq]
    cases mapped : providedTags.lookup tag with
    | none => simp
    | some hash => simp [Finset.sum_ite_eq]

theorem importTransaction_cases {order : Order H T} {queue after : ReadyTransactions H T}
    (live : Live queue) {tx : WaitingTransaction H T}
    {outcome : Except (Error H) (List (Transaction H T))}
    (returned : queue.importTransaction order tx = .ok (after, outcome)) :
    (queue.Refused tx.transaction ∧
        after = { queue with insertionId := queue.insertionId + 1 }) ∨
      ¬ queue.Refused tx.transaction ∧ (tx.transaction.Apart → tx.transaction.RepeatsAlone →
        ∃ middle, Importing order tx.transaction
          { queue with insertionId := queue.insertionId + 1 } middle after) := by
  let started := { queue with insertionId := queue.insertionId + 1 }
  have begun : Live started := live.bump
  unfold importTransaction at returned
  split at returned
  · cases returned
  · split at returned
    · cases returned
    · rename_i fresh
      rcases replacePrevious_cases order begun tx.transaction with
        ⟨⟨error, refused⟩, low⟩ | ⟨middle, removed, replaced, high, cut⟩
      · rw [refused, ok_bind] at returned
        obtain ⟨rfl, -⟩ := ok_pair_inj returned
        exact .inl ⟨low, rfl⟩
      · rw [replaced, ok_bind] at returned
        obtain ⟨last, inserting, ended⟩ := bind_eq_ok.mp returned
        obtain ⟨rfl, -⟩ := ok_pair_inj ended
        have bestIds : ∀ ref ∈ started.best, ref.insertionId < started.insertionId :=
          fun ref mem => Nat.lt_succ_of_le (live.bestIds ref mem)
        have inserted := insertReady_inserted inserting fun ref mem => by
          rw [cut.insertionId]
          exact bestIds ref ((cut.best ref).mp mem).1
        exact .inr ⟨high, fun apart repeats => ⟨middle, begun, apart, repeats, fresh,
          fun hash ref found => Nat.lt_succ_of_le (live.queuedIds hash ref found), bestIds, cut,
          inserted⟩⟩

/-- The transaction fits into the queue without leaving a wrong index. -/
structure Fits : Prop where
  /-- A replaced transaction has no provider that would keep naming it. -/
  providerless : ∀ hash, queue.Replaces tx hash → ∀ provider, ¬ queue.Depends hash provider
  /-- A replaced transaction whose tags are not all provided again has no dependents. -/
  covers : ∀ hash, queue.Replaces tx hash → ∀ tag, queue.Provides tag hash →
    tag ∉ tx.provides → ∀ other, ¬ queue.Depends other hash
  /-- A transaction that stays requires no tag that only the new transaction provides. -/
  timely : queue.Timely tx

namespace Importing

variable {order : Order H T} {tx : Transaction H T} {queue middle after : ReadyTransactions H T}

theorem removed_dependent {hash provider : H} {ref : TransactionRef H T}
    (found : refAt queue.ready hash = some ref)
    {tag : T} (required : tag ∈ ref.transaction.requires) (provides : queue.Provides tag provider)
    (foreign : tag ∉ tx.provides) (removed : queue.Displaced order tx provider) :
    queue.Displaced order tx hash :=
  removed.dependent provides (fun own => foreign (mem_toFinset.mp own))
    ⟨ref, found, tag, required, provides⟩

variable {hash provider other : H} {ref : TransactionRef H T} {tag : T} {queued : ReadyTx H T}
  (importing : Importing order tx queue middle after)

include importing

theorem mem_replaceHashes_iff (hash : H) :
    hash ∈ queue.replaceHashes tx ↔ queue.Replaces tx hash := by
  rw [mem_replaceHashes]
  exact exists_congr fun tag => and_congr_right fun _ => importing.live.mapped_iff

theorem removed_of_replaces (replaces : queue.Replaces tx hash) :
    queue.Displaced order tx hash := by
  obtain ⟨tag, -, ref, found, -⟩ := id replaces
  obtain ⟨queued, stored, -⟩ := lookup_of_refAt found
  refine .root ?_ (mem_of_lookup_eq_some stored)
  exact (order.replaced.mem_list _ _ _).mpr ((importing.mem_replaceHashes_iff hash).mpr replaces)

theorem replaces_or_follows (removed : queue.Displaced order tx hash) :
    queue.Replaces tx hash ∨ ∃ first dependent tag, queue.Replaces tx first ∧
      queue.Provides tag first ∧ tag ∉ tx.provides ∧ queue.Depends dependent first ∧
      queue.Displaced order tx dependent := by
  induction removed with
  | root given _ =>
    exact .inl ((importing.mem_replaceHashes_iff _).mp ((order.replaced.mem_list _ _ _).mp given))
  | @dependent hash other tag removed provides dropped depends ih =>
    rcases ih with replaces | follows
    · refine .inr ⟨hash, other, tag, replaces, provides, ?_, depends, ?_⟩
      · exact fun mem => dropped (mem_toFinset.mpr mem)
      · exact removed.dependent provides dropped depends
    · exact .inr follows

theorem removed_iff (covers : ∀ hash, queue.Replaces tx hash → ∀ tag, queue.Provides tag hash →
      tag ∉ tx.provides → ∀ other, ¬ queue.Depends other hash) (hash : H) :
    queue.Displaced order tx hash ↔ queue.Replaces tx hash := by
  refine ⟨fun removed => ?_, importing.removed_of_replaces⟩
  rcases importing.replaces_or_follows removed with
    replaces | ⟨first, dependent, tag, replaces, provides, dropped, depends, -⟩
  · exact replaces
  · exact absurd depends (covers first replaces tag provides dropped dependent)

theorem count_replacedUnlocks (queued : other ∈ queue.ready) :
    (queue.replacedUnlocks order tx).count other = ∑ hash ∈ queue.replaceHashes tx,
      links queue.providedTags queue.ready other hash := by
  rw [replacedUnlocks, count_flatMap]
  change (List.map (fun queued : ReadyTx H T => queued.unlocks.count other) _).sum = _
  rw [sum_map_filterMap, replacedList, order.replaced.sum_list tx.hash]
  apply Finset.sum_congr rfl
  intro hash mem
  obtain ⟨tag, -, ref, found, -⟩ := (importing.mem_replaceHashes_iff hash).mp mem
  obtain ⟨replaced, stored, -⟩ := lookup_of_refAt found
  rw [stored]
  exact importing.live.unlocks hash replaced stored other queued

theorem mem_replacedUnlocks (mem : other ∈ queue.replacedUnlocks order tx) :
    ∃ hash queued, queue.Replaces tx hash ∧
      queue.ready.lookup hash = some queued ∧ other ∈ queued.unlocks := by
  obtain ⟨queued, listed, named⟩ := mem_flatMap.mp mem
  obtain ⟨hash, given, stored⟩ := mem_filterMap.mp listed
  have replaces := (importing.mem_replaceHashes_iff hash).mp
    ((order.replaced.mem_list _ _ _).mp given)
  exact ⟨hash, queued, replaces, stored, named⟩

theorem lookup_own (required : tag ∈ tx.requires) :
    after.providedTags.lookup tag = middle.providedTags.lookup tag := by
  rw [importing.inserted.provided, if_neg (importing.apart tag required)]

theorem ne_of_provides (provides : queue.Provides tag hash) : hash ≠ tx.hash := by
  obtain ⟨ref, found, -⟩ := provides
  exact fun same => importing.fresh (same ▸ mem_of_refAt found)

section Staying

variable (timely : queue.Timely tx) (found : refAt queue.ready hash = some ref)
  (stays : ¬ queue.Displaced order tx hash) (required : tag ∈ ref.transaction.requires)

include timely found stays required

theorem lookup_required :
    after.providedTags.lookup tag = (queue.providedTags.lookup tag).map fun provider =>
      if provider ∈ queue.replaceHashes tx then tx.hash else provider := by
  rw [importing.inserted.provided]
  cases mapped : queue.providedTags.lookup tag with
  | none =>
    have foreign : tag ∉ tx.provides := by
      intro own
      exact importing.live.unmapped_iff.mp mapped (timely hash ref found
        (fun replaces => stays (importing.removed_of_replaces replaces)) tag required own)
    rw [if_neg foreign, map_none, eq_none_iff_forall_ne_some]
    intro provider still
    have before := ((importing.cut.provided tag provider).mp still).1
    rw [mapped] at before
    cases before
  | some provider =>
    have provides := importing.live.mapped_iff.mp mapped
    rw [map_some]
    by_cases replaced : queue.Replaces tx provider
    · have own : tag ∈ tx.provides := by
        by_contra foreign
        exact stays (removed_dependent found required provides foreign
          (importing.removed_of_replaces replaced))
      rw [if_pos own, if_pos ((importing.mem_replaceHashes_iff provider).mpr replaced)]
    · have foreign : tag ∉ tx.provides := fun own => replaced ⟨tag, own, provides⟩
      rw [if_neg foreign, if_neg (fun mem =>
        replaced ((importing.mem_replaceHashes_iff provider).mp mem)), importing.cut.provided]
      exact ⟨mapped, .inr fun removed =>
        stays (removed_dependent found required provides foreign removed)⟩

theorem lookup_eq_some_iff (kept : ¬ queue.Replaces tx provider)
    (differs : provider ≠ tx.hash) : after.providedTags.lookup tag = some provider ↔
      queue.providedTags.lookup tag = some provider := by
  rw [importing.lookup_required timely found stays required, map_eq_some_iff]
  constructor
  · rintro ⟨before, mapped, same⟩
    split at same
    · exact absurd same.symm differs
    · rw [mapped, same]
  · intro mapped
    refine ⟨provider, mapped, if_neg fun mem => kept ?_⟩
    exact (importing.mem_replaceHashes_iff provider).mp mem

theorem lookup_eq_own_iff : after.providedTags.lookup tag = some tx.hash ↔
    ∃ provider ∈ queue.replaceHashes tx, queue.providedTags.lookup tag = some provider := by
  rw [importing.lookup_required timely found stays required, map_eq_some_iff]
  constructor
  · rintro ⟨before, mapped, same⟩
    split at same
    · rename_i mem
      exact ⟨before, mem, mapped⟩
    · exact absurd same (importing.ne_of_provides (importing.live.mapped_iff.mp mapped))
  · rintro ⟨provider, mem, mapped⟩
    exact ⟨provider, mapped, if_pos mem⟩

theorem lookup_eq_none_iff :
    after.providedTags.lookup tag = none ↔ queue.providedTags.lookup tag = none := by
  rw [importing.lookup_required timely found stays required, map_eq_none_iff]

end Staying

/-- A reference after the import: the new one, or one that stayed. -/
theorem refAt_cases (found : refAt after.ready hash = some ref) :
    (hash = tx.hash ∧ ref = ⟨tx, queue.insertionId⟩) ∨
      (hash ≠ tx.hash ∧ refAt queue.ready hash = some ref ∧
        ¬ queue.Displaced order tx hash) := by
  by_cases own : hash = tx.hash
  · subst own
    rw [importing.inserted.toPlaced.refAt_own, importing.cut.insertionId] at found
    exact .inl ⟨rfl, (some.inj found).symm⟩
  · rw [importing.inserted.toPlaced.refAt_others own] at found
    exact .inr ⟨own, importing.cut.of_refAt found⟩

theorem refAt_stays (found : refAt queue.ready hash = some ref)
    (stays : ¬ queue.Displaced order tx hash) :
    refAt after.ready hash = some ref ∧ hash ≠ tx.hash := by
  have differs : hash ≠ tx.hash := fun same => importing.fresh (same ▸ mem_of_refAt found)
  exact ⟨by rw [importing.inserted.toPlaced.refAt_others differs, importing.cut.refAt_left stays,
    found], differs⟩

theorem links_new (provider : H) :
    links after.providedTags after.ready tx.hash provider =
      tx.requires.countP fun tag => middle.providedTags.lookup tag = some provider := by
  rw [links, importing.inserted.toPlaced.refAt_own, map_some, getD_some]
  apply countP_congr
  intro tag required
  rw [importing.lookup_own required]

section

variable (timely : queue.Timely tx) (differs : other ≠ tx.hash)
  (stays : ¬ queue.Displaced order tx other)

include timely differs stays

theorem links_staying (kept : ¬ queue.Replaces tx provider) (foreign : provider ≠ tx.hash) :
    links after.providedTags after.ready other provider =
      links queue.providedTags queue.ready other provider := by
  rw [links, importing.inserted.toPlaced.refAt_others differs, importing.cut.refAt_left stays,
    links]
  cases found : refAt queue.ready other with
  | none => rfl
  | some ref =>
    simp only [map_some, getD_some]
    apply countP_congr
    intro tag required
    rw [decide_eq_true_eq, decide_eq_true_eq]
    exact importing.lookup_eq_some_iff timely found stays required kept foreign

theorem links_own :
    links after.providedTags after.ready other tx.hash =
      ∑ hash ∈ queue.replaceHashes tx, links queue.providedTags queue.ready other hash := by
  rw [links, importing.inserted.toPlaced.refAt_others differs, importing.cut.refAt_left stays]
  cases found : refAt queue.ready other with
  | none => simp [links, found]
  | some ref =>
    simp only [links, found, map_some, getD_some]
    rw [← countP_exists_eq_sum]
    apply countP_congr
    intro tag required
    rw [decide_eq_true_eq, decide_eq_true_eq]
    exact importing.lookup_eq_own_iff timely found stays required

end

theorem lookup_others (differs : hash ≠ tx.hash) (stored : after.ready.lookup hash = some queued) :
    ¬ queue.Displaced order tx hash ∧
      ∃ before, queue.ready.lookup hash = some before ∧ queued = { before with
        unlocks := before.unlocks ++ List.replicate (tx.requires.countP fun tag =>
          middle.providedTags.lookup tag = some hash) tx.hash } := by
  rw [importing.inserted.others hash differs] at stored
  obtain ⟨before, there, rfl⟩ := map_eq_some_iff.mp stored
  obtain ⟨present, stays⟩ := importing.cut.of_lookup there
  exact ⟨stays, before, present, rfl⟩

theorem unlocks (timely : queue.Timely tx) (forgotten : queue.Forgotten tx.hash)
    (stored : after.ready.lookup hash = some queued) (there : other ∈ after.ready) :
    queued.unlocks.count other = links after.providedTags after.ready other hash := by
  have before : other ≠ tx.hash → other ∈ queue.ready ∧
      ¬ queue.Displaced order tx other := by
    intro differs
    obtain ⟨entry, listed⟩ := mem_iff.mp there
    obtain ⟨stays, earlier, present, -⟩ := importing.lookup_others differs listed
    exact ⟨mem_of_lookup_eq_some present, stays⟩
  by_cases own : hash = tx.hash
  · subst own
    obtain rfl := some.inj (importing.inserted.own.symm.trans stored)
    by_cases itself : other = tx.hash
    · subst itself
      have unnamed : tx.hash ∉ queue.replacedUnlocks order tx := by
        intro mem
        obtain ⟨name, entry, -, present, named⟩ := importing.mem_replacedUnlocks mem
        exact forgotten.1 name entry present named
      rw [count_eq_zero_of_not_mem unnamed, importing.links_new, eq_comm, countP_eq_zero]
      intro tag required mapped
      have before := ((importing.cut.provided tag tx.hash).mp (of_decide_eq_true mapped)).1
      exact importing.ne_of_provides (importing.live.mapped_iff.mp before) rfl
    · obtain ⟨present, stays⟩ := before itself
      rw [importing.count_replacedUnlocks present, importing.links_own timely itself stays]
  · obtain ⟨remains, entry, present, rfl⟩ := importing.lookup_others own stored
    have kept := fun replaced => remains (importing.removed_of_replaces replaced)
    rw [count_append, count_replicate]
    by_cases itself : other = tx.hash
    · subst itself
      rw [count_eq_zero_of_not_mem (forgotten.1 hash entry present), importing.links_new,
        beq_self_eq_true, if_pos rfl, Nat.zero_add]
    · obtain ⟨earlier, stays⟩ := before itself
      rw [importing.live.unlocks hash entry present other earlier,
        importing.links_staying timely itself stays kept own, if_neg]
      · rfl
      · simpa using Ne.symm itself

theorem provided : Provided ∅ after.providedTags after.ready where
  hash hash ref found := by
    rcases importing.refAt_cases found with ⟨rfl, rfl⟩ | ⟨-, before, -⟩
    · rfl
    · exact importing.live.provided.hash hash ref before
  repeats hash ref found := by
    rcases importing.refAt_cases found with ⟨-, rfl⟩ | ⟨-, before, -⟩
    · exact importing.repeats
    · exact importing.live.provided.repeats hash ref before
  provided tag _ hash := by
    rw [importing.inserted.provided]
    split
    · rename_i own
      constructor
      · intro here
        obtain rfl := some.inj here
        exact ⟨_, importing.inserted.toPlaced.refAt_own, own⟩
      · rintro ⟨ref, found, mem⟩
        rcases importing.refAt_cases found with ⟨rfl, -⟩ | ⟨-, before, stays⟩
        · rfl
        · exact absurd (importing.removed_of_replaces ⟨tag, own, ref, before, mem⟩) stays
    · rename_i foreign
      rw [importing.cut.provided, importing.live.mapped_iff]
      constructor
      · rintro ⟨⟨ref, before, mem⟩, kept⟩
        have stays := kept.resolve_left fun own => foreign (mem_toFinset.mp own)
        exact ⟨ref, (importing.refAt_stays before stays).1, mem⟩
      · rintro ⟨ref, found, mem⟩
        rcases importing.refAt_cases found with ⟨rfl, rfl⟩ | ⟨-, before, stays⟩
        · exact absurd mem foreign
        · exact ⟨⟨ref, before, mem⟩, .inr stays⟩

theorem best (timely : queue.Timely tx) (forgotten : queue.Forgotten tx.hash)
    (queued : ref.transaction.hash ∈ after.ready) : ref ∈ after.best ↔ after.Unblocked ref := by
  rw [importing.inserted.best, importing.cut.best, importing.cut.insertionId]
  constructor
  · rintro (⟨mem, stays⟩ | ⟨rfl, free⟩)
    · have differs := forgotten.2 ref mem
      obtain ⟨entry, listed⟩ := mem_iff.mp queued
      obtain ⟨-, earlier, present, -⟩ := importing.lookup_others differs listed
      obtain ⟨found, free⟩ :=
        (importing.live.best ref (mem_of_lookup_eq_some present)).mp mem
      refine ⟨(importing.refAt_stays found stays).1, fun tag required => ?_⟩
      exact (importing.lookup_eq_none_iff timely found stays required).mpr (free tag required)
    · refine ⟨importing.cut.insertionId ▸ importing.inserted.toPlaced.refAt_own,
        fun tag required => ?_⟩
      rw [importing.lookup_own required]
      exact free tag required
  · rintro ⟨found, free⟩
    rcases importing.refAt_cases found with ⟨-, rfl⟩ | ⟨-, before, stays⟩
    · refine .inr ⟨rfl, fun tag required => ?_⟩
      rw [← importing.lookup_own required]
      exact free tag required
    · refine .inl ⟨(importing.live.best ref (mem_of_refAt before)).mpr
        ⟨before, fun tag required => ?_⟩, stays⟩
      exact (importing.lookup_eq_none_iff timely before stays required).mp (free tag required)

/-- **A timely transaction with a forgotten hash keeps a queue live.** -/
theorem live_after (timely : queue.Timely tx) (forgotten : queue.Forgotten tx.hash) :
    Live after where
  provided := importing.provided
  apart hash ref found := by
    rcases importing.refAt_cases found with ⟨-, rfl⟩ | ⟨-, before, -⟩
    · exact importing.apart
    · exact importing.live.apart hash ref before
  queuedIds hash ref found := by
    rw [importing.inserted.insertionId, importing.cut.insertionId]
    rcases importing.refAt_cases found with ⟨-, rfl⟩ | ⟨-, before, -⟩
    · exact le_rfl
    · exact (importing.queuedIds hash ref before).le
  bestIds ref mem := by
    rw [importing.inserted.insertionId, importing.cut.insertionId]
    rcases (importing.inserted.best ref).mp mem with earlier | ⟨rfl, -⟩
    · exact (importing.bestIds ref ((importing.cut.best ref).mp earlier).1).le
    · exact importing.cut.insertionId.le
  sameQueued left right hash other leftFound rightFound ids := by
    rcases importing.refAt_cases leftFound with ⟨-, rfl⟩ | ⟨-, leftBefore, -⟩ <;>
      rcases importing.refAt_cases rightFound with ⟨-, rfl⟩ | ⟨-, rightBefore, -⟩
    · rfl
    · exact absurd ids (importing.queuedIds other right rightBefore).ne'
    · exact absurd ids (importing.queuedIds hash left leftBefore).ne
    · exact importing.live.sameQueued left right hash other leftBefore rightBefore ids
  sameBest left hash right mem rightFound ids := by
    rcases (importing.inserted.best left).mp mem with earlier | ⟨rfl, -⟩ <;>
      rcases importing.refAt_cases rightFound with ⟨-, rfl⟩ | ⟨-, rightBefore, -⟩
    · exact absurd ids (importing.bestIds left ((importing.cut.best left).mp earlier).1).ne
    · exact importing.live.sameBest left hash right ((importing.cut.best left).mp earlier).1
        rightBefore ids
    · rw [importing.cut.insertionId]
    · rw [importing.cut.insertionId] at ids
      exact absurd ids (importing.queuedIds hash right rightBefore).ne'
  unlocks hash queued stored other there := importing.unlocks timely forgotten stored there
  offset hash queued stored := by
    by_cases own : hash = tx.hash
    · subst own
      obtain rfl := some.inj (importing.inserted.own.symm.trans stored)
      apply countP_congr
      intro tag required
      rw [importing.lookup_own required]
    · obtain ⟨stays, before, there, rfl⟩ := importing.lookup_others own stored
      have found := refAt_of_lookup there
      change before.requiresOffset = before.requires.countP _
      rw [importing.live.offset hash before there]
      apply countP_congr
      intro tag required
      rw [decide_eq_true_eq, decide_eq_true_eq]
      exact (importing.lookup_eq_none_iff timely found stays required).symm
  best ref queued := importing.best timely forgotten queued

/-! ## When the graph stays exact -/

theorem forgotten (graph : Graph (fun _ => False) queue) : queue.Forgotten tx.hash := by
  constructor
  · intro other entry stored named
    exact importing.fresh (graph.listed other entry stored tx.hash named)
  · intro ref mem same
    have free := (graph.mem_best mem).resolve_right id
    exact importing.fresh (same ▸ mem_of_refAt free.1)

theorem mem_stays (queued : hash ∈ queue.ready)
    (stays : ¬ queue.Displaced order tx hash) : hash ∈ after.ready := by
  obtain ⟨entry, stored⟩ := mem_iff.mp queued
  have found := refAt_of_lookup stored
  exact mem_of_refAt (importing.refAt_stays found stays).1

/-- **A fitting transaction keeps the graph.** -/
theorem graph_after (graph : Graph (fun _ => False) queue) (fits : queue.Fits tx) :
    Graph (fun _ => False) after where
  toLive := importing.live_after fits.timely (importing.forgotten graph)
  listed hash queued stored other mem := by
    -- a removed transaction is a replaced one, and depends on nothing
    have remains : ∀ provider, queue.Depends other provider → other ∈ after.ready := by
      intro provider depends
      refine importing.mem_stays depends.mem_dependent fun removed => ?_
      exact fits.providerless other ((importing.removed_iff fits.covers other).mp removed) provider
        depends
    by_cases own : hash = tx.hash
    · subst own
      obtain rfl := some.inj (importing.inserted.own.symm.trans stored)
      obtain ⟨name, entry, -, present, named⟩ := importing.mem_replacedUnlocks mem
      exact remains name ((graph.mem_unlocks_iff present).mp named)
    · obtain ⟨-, before, there, rfl⟩ := importing.lookup_others own stored
      rcases mem_append.mp mem with named | new
      · exact remains hash ((graph.mem_unlocks_iff there).mp named)
      · rw [eq_of_mem_replicate new]
        exact mem_of_refAt importing.inserted.toPlaced.refAt_own
  left ref absent := by
    rw [iff_false, importing.inserted.best, importing.cut.best]
    rintro (⟨mem, stays⟩ | ⟨rfl, -⟩)
    · have free := (graph.mem_best mem).resolve_right id
      exact absent (importing.mem_stays (mem_of_refAt free.1) stays)
    · exact absent (mem_of_refAt importing.inserted.toPlaced.refAt_own)

theorem not_removed_of_depends {dependent provider : H} (known : dependent ∈ queue.ready)
    (depends : after.Depends dependent provider) : ¬ queue.Displaced order tx dependent := by
  obtain ⟨ref, found, -⟩ := depends
  rcases importing.refAt_cases found with ⟨rfl, -⟩ | ⟨-, -, stays⟩
  · exact absurd known importing.fresh
  · exact stays

theorem not_removed_of_replaces (exact : after.Exact) {first dependent : H}
    (replaces : queue.Replaces tx first) (depends : queue.Depends dependent first) :
    ¬ queue.Displaced order tx dependent := by
  have named : dependent ∈ queue.replacedUnlocks order tx := by
    rw [← count_pos_iff, importing.count_replacedUnlocks depends.mem_dependent]
    refine Finset.sum_pos' (fun _ _ => Nat.zero_le _) ⟨first, ?_, ?_⟩
    · exact (importing.mem_replaceHashes_iff first).mpr replaces
    · exact (importing.live.depends_iff dependent first).mp depends
  exact importing.not_removed_of_depends depends.mem_dependent
    ((exact.unlocks _ _ importing.inserted.own dependent).mp named)

theorem removed_provider (exact : after.Exact) (removed : queue.Displaced order tx hash)
    (depends : queue.Depends hash provider) : queue.Displaced order tx provider := by
  by_contra stays
  obtain ⟨queued, stored⟩ := mem_iff.mp depends.mem_provider
  have differs : provider ≠ tx.hash := fun same => importing.fresh (same ▸ depends.mem_provider)
  have named := (importing.live.mem_unlocks stored depends.mem_dependent).mpr depends
  have kept := importing.inserted.others provider differs
  rw [importing.cut.left provider stays, stored] at kept
  have again := (exact.unlocks provider _ kept hash).mp (mem_append_left _ named)
  exact importing.not_removed_of_depends depends.mem_dependent again removed

/-- **Only a fitting transaction keeps the graph.** -/
theorem fits_of_exact (exact : after.Exact) : queue.Fits tx := by
  have covers : ∀ hash, queue.Replaces tx hash → ∀ tag, queue.Provides tag hash →
      tag ∉ tx.provides → ∀ other, ¬ queue.Depends other hash := by
    intro hash replaces tag provides foreign other depends
    apply importing.not_removed_of_replaces exact replaces depends
    exact (importing.removed_of_replaces replaces).dependent provides
      (fun own => foreign (mem_toFinset.mp own)) depends
  refine ⟨fun hash replaces provider depends => ?_, covers, ?_⟩
  · have removed := importing.removed_of_replaces replaces
    have above := importing.removed_provider exact removed depends
    exact importing.not_removed_of_replaces exact
      ((importing.removed_iff covers provider).mp above) depends removed
  · intro hash ref found kept tag required own
    by_contra late
    have stays := fun removed => kept ((importing.removed_iff covers hash).mp removed)
    obtain ⟨still, differs⟩ := importing.refAt_stays found stays
    obtain ⟨queued, stored, same⟩ := lookup_of_refAt still
    obtain ⟨-, before, there, rfl⟩ := importing.lookup_others differs stored
    have mapped : ∀ name, (¬ ∃ provider, after.Provides name provider) ↔
        after.providedTags.lookup name = none := by
      intro name
      rw [eq_none_iff_forall_ne_some, not_exists]
      exact forall_congr' fun provider => not_congr (exact.provided name provider).symm
    -- the tag was missing before and is provided now, and no other tag went missing
    have fewer : (ref.transaction.requires.countP fun name =>
        after.providedTags.lookup name = none) <
          ref.transaction.requires.countP fun name =>
            queue.providedTags.lookup name = none := by
      refine countP_lt_countP (fun name needed missing => ?_) required ?_ ?_
      · rw [decide_eq_true_eq] at missing ⊢
        by_contra provided
        obtain ⟨provider, before⟩ := ne_none_iff_exists'.mp provided
        have provides := importing.live.mapped_iff.mp before
        rw [importing.inserted.provided] at missing
        split at missing
        · cases missing
        · rename_i foreign
          have gone : queue.Displaced order tx provider := by
            by_contra remains
            rw [(importing.cut.provided name provider).mpr ⟨before, .inr remains⟩] at missing
            cases missing
          exact covers provider ((importing.removed_iff covers provider).mp gone) name provides
            foreign hash ⟨ref, found, name, needed, provides⟩
      · rw [decide_eq_true_eq, importing.live.unmapped_iff]
        exact late
      · rw [decide_eq_false_iff_not, importing.inserted.provided, if_pos own]
        exact some_ne_none _
    have counted := exact.offset hash _ stored
    simp only [mapped] at counted
    rw [importing.live.offset hash before there, ReadyTx.requires, ReadyTx.requires] at counted
    rw [← same] at fewer
    exact absurd counted fewer.ne'

end Importing

/-- **Import.** The graph stays exact when the transaction is refused or fits, and only then. -/
theorem importTransaction_exact_iff {order : Order H T} {queue after : ReadyTransactions H T}
    (graph : Graph (fun _ => False) queue) {tx : WaitingTransaction H T}
    (tagged : tx.transaction.WellTagged) {outcome : Except (Error H) (List (Transaction H T))}
    (returned : queue.importTransaction order tx = .ok (after, outcome)) :
    (after.Exact ↔ queue.Refused tx.transaction ∨ queue.Fits tx.transaction) ∧
      (queue.Refused tx.transaction ∨ queue.Fits tx.transaction →
        Graph (fun _ => False) after) := by
  rcases importTransaction_cases graph.toLive returned with ⟨low, rfl⟩ | ⟨high, accepted⟩
  · exact ⟨⟨fun _ => .inl low, fun _ => graph.bump.exact⟩, fun _ => graph.bump⟩
  · obtain ⟨middle, importing⟩ := accepted tagged.2.2 tagged.repeatsAlone
    have keeps : queue.Refused tx.transaction ∨ queue.Fits tx.transaction →
        Graph (fun _ => False) after := fun allowed =>
      importing.graph_after graph.bump { allowed.resolve_left high with }
    exact ⟨⟨fun exact => .inr { importing.fits_of_exact exact with },
      fun allowed => (keeps allowed).exact⟩, keeps⟩

end Brace.TransactionPool.ReadyTransactions
