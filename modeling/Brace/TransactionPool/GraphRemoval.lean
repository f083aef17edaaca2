import Brace.TransactionPool.ReadyGraph

/-!
# Removal from the dependency graph

A removal takes out the given transactions and, unless the tags are kept, all that depend on
them (`Removed`), and leaves every other entry as it is (`Cut`). In particular it leaves the
removed transactions in the lists of the providers that stay: the loop that should remove them
there looks for the hash of the provider, which is never in its own list. So the graph stays
exact when every provider of a removed transaction is removed as well, and only then.
-/

namespace Brace.TransactionPool.ReadyTransactions

open Brace.Lib List Finmap HashMap

variable {H T : Type} [DecidableEq H] [DecidableEq T]

/-- The queue after some transactions are gone, with the mapping of some tags kept. -/
structure Cut (kept : Finset T) (gone : H → Prop) (before after : ReadyTransactions H T) :
    Prop where
  left : ∀ hash, ¬ gone hash → Finmap.lookup hash after.ready = Finmap.lookup hash before.ready
  removed : ∀ hash, gone hash → Finmap.lookup hash after.ready = none
  provided : ∀ tag hash, Finmap.lookup tag after.providedTags = some hash ↔
    Finmap.lookup tag before.providedTags = some hash ∧ (tag ∈ kept ∨ ¬ gone hash)
  best : ∀ ref, ref ∈ after.best ↔ ref ∈ before.best ∧ ¬ gone ref.transaction.hash
  insertionId : after.insertionId = before.insertionId

/-- The transactions that a removal takes out: the queued ones of the given ones, and the
dependents of those that lose a tag. -/
inductive Removed (queue : ReadyTransactions H T) (kept : Finset T) (roots : List H) : H → Prop
  | root {hash : H} : hash ∈ roots → hash ∈ queue.ready → Removed queue kept roots hash
  | dependent {hash other : H} {tag : T} : Removed queue kept roots hash →
      queue.Provides tag hash → tag ∉ kept → queue.Depends other hash →
        Removed queue kept roots other

variable {queue current after : ReadyTransactions H T} {kept : Finset T}
  {roots done rest hashes : List H} {hash : H} {tagFilter : Option (Finset T)} {tx : ReadyTx H T}
  {removed : List (Transaction H T)}

theorem forgetUnlock_nothing (providedTags : HashMap T H) (tags : List T)
    {ready : HashMap H (ReadyTx H T)}
    (apart : ∀ hash tx, ready.lookup hash = some tx → hash ∉ tx.unlocks) :
    tags.foldl (forgetUnlock providedTags) ready = ready := by
  refine ext_lookup fun other => ?_
  rw [forgetUnlock_eq, forget_lookup]
  cases stored : ready.lookup other with
  | none => rfl
  | some tx =>
    rw [Option.map_some, id, Function.iterate_fixed (removeItem_of_not_mem (apart other tx stored))]

theorem Cut.of_lookup {gone : H → Prop} (cut : Cut kept gone queue after)
    (stored : after.ready.lookup hash = some tx) :
    queue.ready.lookup hash = some tx ∧ ¬ gone hash := by
  by_cases removed : gone hash
  · rw [cut.removed hash removed] at stored
    cases stored
  · exact ⟨cut.left hash removed ▸ stored, removed⟩

theorem removeNext_cut (live : Live queue) {state : ReadyTransactions H T × List (Transaction H T)}
    (cut : Cut (tagFilter.getD ∅) (· ∈ done) queue state.1)
    (stored : state.1.ready.lookup hash = some tx) :
    ∃ next, removeNext tagFilter state hash =
        .ok (next, if invalidated tagFilter tx = [] then [] else tx.unlocks.reverse) ∧
      Cut (tagFilter.getD ∅) (· ∈ hash :: done) queue next.1 := by
  have found := refAt_of_lookup (cut.of_lookup stored).1
  have named : tx.transaction.transaction.hash = hash := live.provided.hash _ _ found
  have apart : ∀ other found, (state.1.ready.erase hash).lookup other = some found →
      other ∉ found.unlocks := by
    intro other found present mem
    rw [lookup_erase_eq] at present
    split at present
    · cases present
    · have earlier := (cut.of_lookup present).1
      exact live.not_depends_self other
        ((live.mem_unlocks earlier (mem_of_lookup_eq_some earlier)).mp mem)
  have same : ∀ ref ∈ queue.best, TransactionRef.cmp tx.transaction ref = .eq ↔
      ref.transaction.hash = hash := by
    intro ref mem
    constructor
    · intro equal
      have ids := TransactionRef.insertionId_eq_of_cmp equal
      rw [live.sameBest ref hash tx.transaction mem found ids.symm, named]
    · intro equal
      have again := ((live.best ref (equal ▸ mem_of_refAt found)).mp mem).1
      rw [equal, found] at again
      rw [Option.some.inj again]
      exact TransactionRef.cmp_self ref
  simp only [removeNext, stored, forgetUnlock_nothing _ _ apart]
  refine ⟨_, rfl, ⟨?_, ?_, ?_, ?_, cut.insertionId⟩⟩
  · intro other away
    rw [mem_cons, not_or] at away
    rw [lookup_erase_eq, if_neg away.1, cut.left other away.2]
  · intro other mem
    rw [lookup_erase_eq]
    rcases mem_cons.mp mem with equal | earlier
    · rw [if_pos equal]
    · rw [cut.removed other earlier]
      exact ite_self none
  · intro tag other
    rw [lookup_eraseAll]
    have lost : tag ∈ invalidated tagFilter tx ↔
        queue.providedTags.lookup tag = some hash ∧ tag ∉ tagFilter.getD ∅ := by
      rw [mem_invalidated, live.mapped_iff, Provides, found]
      simp only [Option.some.injEq, exists_eq_left', ReadyTx.provides]
    have before := cut.provided tag other
    rw [mem_cons, not_or]
    by_cases mem : tag ∈ invalidated tagFilter tx
    · obtain ⟨mapped, dropped⟩ := lost.mp mem
      rw [if_pos mem, mapped]
      simp only [reduceCtorEq, Option.some.injEq, false_iff, not_and, not_or, not_not]
      intro equal
      exact ⟨dropped, fun ne => absurd equal.symm ne⟩
    · rw [if_neg mem, before]
      apply and_congr_right
      intro mapped
      have keeps : other = hash → tag ∈ tagFilter.getD ∅ := by
        intro equal
        by_contra dropped
        exact mem (lost.mpr ⟨equal ▸ mapped, dropped⟩)
      tauto
  · intro ref
    rw [OrderedSet.mem_remove, cut.best, mem_cons]
    constructor
    · rintro ⟨⟨mem, earlier⟩, ne⟩
      exact ⟨mem, fun gone => gone.elim (fun equal => ne ((same ref mem).mpr equal)) earlier⟩
    · rintro ⟨mem, away⟩
      exact ⟨⟨mem, fun earlier => away (.inr earlier)⟩,
        fun equal => away (.inl ((same ref mem).mp equal))⟩

/-- The invariant of a removal from a graph: what is done and what is on the stack has to be
removed, and covers the given transactions and the dependents of what is done. -/
structure Removing (queue : ReadyTransactions H T) (kept : Finset T) (roots done stack : List H)
    (current : ReadyTransactions H T) : Prop where
  cut : Cut kept (· ∈ done) queue current
  doneSound : ∀ hash ∈ done, Removed queue kept roots hash
  stackSound : ∀ hash ∈ stack, hash ∈ queue.ready → Removed queue kept roots hash
  rootsCovered : ∀ hash ∈ roots, hash ∈ queue.ready → hash ∈ done ∨ hash ∈ stack
  dependentsCovered : ∀ hash ∈ done, ∀ tag, queue.Provides tag hash → tag ∉ kept →
    ∀ other, queue.Depends other hash → other ∈ done ∨ other ∈ stack

theorem Removing.skip (removing : Removing queue kept roots done (hash :: rest) current)
    (absent : current.ready.lookup hash = none) : Removing queue kept roots done rest current := by
  have covered : ∀ other ∈ queue.ready, other ∈ done ∨ other ∈ hash :: rest →
      other ∈ done ∨ other ∈ rest := by
    intro other queued covered
    by_cases finished : other ∈ done
    · exact .inl finished
    · have mem := covered.resolve_left finished
      refine .inr ((mem_cons.mp mem).resolve_left ?_)
      rintro rfl
      rw [removing.cut.left other finished] at absent
      exact lookup_eq_none.mp absent queued
  exact ⟨removing.cut, removing.doneSound,
    fun other mem => removing.stackSound other (mem_cons_of_mem _ mem),
    fun other given queued => covered other queued (removing.rootsCovered other given queued),
    fun other finished tag provides dropped next depends => covered next depends.mem_dependent
      (removing.dependentsCovered other finished tag provides dropped next depends)⟩

theorem Removing.take {next : ReadyTransactions H T} (live : Live queue)
    (removing : Removing queue (tagFilter.getD ∅) roots done (hash :: rest) current)
    (stored : current.ready.lookup hash = some tx)
    (cut : Cut (tagFilter.getD ∅) (· ∈ hash :: done) queue next) :
    Removing queue (tagFilter.getD ∅) roots (hash :: done)
      ((if invalidated tagFilter tx = [] then [] else tx.unlocks.reverse) ++ rest) next := by
  have queued := (removing.cut.of_lookup stored).1
  have removed : Removed queue (tagFilter.getD ∅) roots hash :=
    removing.stackSound hash mem_cons_self (mem_of_lookup_eq_some queued)
  have provides : ∀ tag, queue.Provides tag hash ↔ tag ∈ tx.provides := by
    intro tag
    rw [Provides, refAt, queued]
    simp [ReadyTx.provides]
  have shift : ∀ other pushed, other ∈ done ∨ other ∈ hash :: rest →
      other ∈ hash :: done ∨ other ∈ pushed ++ rest := by
    intro other pushed covered
    rw [mem_cons] at covered ⊢
    rw [mem_append]
    tauto
  refine ⟨cut, ?_, ?_, ?_, ?_⟩
  · intro other mem
    rcases mem_cons.mp mem with rfl | earlier
    · exact removed
    · exact removing.doneSound other earlier
  · intro other mem present
    rcases mem_append.mp mem with pushed | earlier
    · split at pushed
      · exact absurd pushed not_mem_nil
      · rename_i some
        obtain ⟨tag, lost⟩ := exists_mem_of_ne_nil _ some
        obtain ⟨own, dropped⟩ := mem_invalidated.mp lost
        exact removed.dependent ((provides tag).mpr own) dropped
          ((live.mem_unlocks queued present).mp (mem_reverse.mp pushed))
    · exact removing.stackSound other (mem_cons_of_mem _ earlier) present
  · exact fun other given present => shift other _ (removing.rootsCovered other given present)
  · intro other mem tag own dropped next depends
    rcases mem_cons.mp mem with rfl | earlier
    · have lost := mem_invalidated.mpr ⟨(provides tag).mp own, dropped⟩
      rw [if_neg (ne_nil_of_mem lost)]
      refine .inr (mem_append_left _ (mem_reverse.mpr ?_))
      exact (live.mem_unlocks queued depends.mem_dependent).mpr depends
    · exact shift next _ (removing.dependentsCovered other earlier tag own dropped next depends)

/-- **Removal.** A removal from a graph takes out exactly the transactions that have to be
removed and changes nothing else. -/
theorem removeSubtreeWithTagFilter_cut
    (live : Live queue) (toRemove : List H) (tagFilter : Option (Finset T)) :
    ∃ after removed, queue.removeSubtreeWithTagFilter toRemove tagFilter = .ok (after, removed) ∧
      Cut (tagFilter.getD ∅) (Removed queue (tagFilter.getD ∅) toRemove) queue after := by
  let kept := tagFilter.getD ∅
  let inv := fun (state : ReadyTransactions H T × List (Transaction H T)) (stack : List H) =>
    ∃ done, Removing queue kept toRemove done stack state.1
  have partly : Provided kept queue.providedTags queue.ready := live.provided.partly
  have start : inv (queue, []) toRemove.reverse := by
    refine ⟨[], ⟨⟨fun _ _ => rfl, ?_, ?_, ?_, rfl⟩, ?_, ?_, ?_, ?_⟩⟩
    · exact fun hash mem => absurd mem not_mem_nil
    · simp
    · simp
    · exact fun hash mem => absurd mem not_mem_nil
    · exact fun hash mem queued => .root (mem_reverse.mp mem) queued
    · exact fun hash mem _ => .inr (mem_reverse.mpr mem)
    · exact fun hash mem => absurd mem not_mem_nil
  obtain ⟨after, removed, ended, -, done, removing⟩ :=
    removeSubtreeWithTagFilter_rule partly start
      (fun state hash rest ⟨done, removing⟩ absent => ⟨done, removing.skip absent⟩) (by
        rintro state hash rest tx next pushed ⟨done, removing⟩ stored ran - - -
        obtain ⟨other, again, cut⟩ := removeNext_cut live removing.cut stored
        obtain ⟨rfl, rfl⟩ := ok_pair_inj (ran.symm.trans again)
        exact ⟨hash :: done, removing.take live stored cut⟩)
  have all : ∀ hash, Removed queue kept toRemove hash ↔ hash ∈ done := by
    intro hash
    constructor
    · intro gone
      induction gone with
      | root given queued =>
        exact (removing.rootsCovered _ given queued).resolve_right not_mem_nil
      | dependent _ own dropped depends ih =>
        exact (removing.dependentsCovered _ ih _ own dropped _ depends).resolve_right
          not_mem_nil
    · exact removing.doneSound hash
  have same : Removed queue kept toRemove = (· ∈ done) := funext fun hash => propext (all hash)
  refine ⟨after, removed, ended, ?_⟩
  change Cut kept (Removed queue kept toRemove) queue after
  rw [same]
  exact removing.cut

/-! ## When the graph stays exact -/

namespace Cut

variable {queue after : ReadyTransactions H T} {kept : Finset T} {gone : H → Prop}

variable {hash : H} {ref : TransactionRef H T}

section

variable (cut : Cut kept gone queue after)

include cut

theorem refAt_left (stays : ¬ gone hash) : refAt after.ready hash = refAt queue.ready hash := by
  rw [refAt, cut.left hash stays, refAt]

theorem of_refAt (found : refAt after.ready hash = some ref) :
    refAt queue.ready hash = some ref ∧ ¬ gone hash := by
  obtain ⟨tx, stored, rfl⟩ := lookup_of_refAt found
  exact (cut.of_lookup stored).imp_left refAt_of_lookup

theorem of_mem (queued : hash ∈ after.ready) : hash ∈ queue.ready ∧ ¬ gone hash := by
  obtain ⟨tx, stored⟩ := mem_iff.mp queued
  exact (cut.of_lookup stored).imp_left mem_of_lookup_eq_some

end

theorem lookup_required (live : Live queue) (cut : Cut ∅ gone queue after)
    (closed : ∀ hash other, gone hash → queue.Depends other hash → gone other)
    (found : refAt after.ready hash = some ref) {tag : T}
    (required : tag ∈ ref.transaction.requires) :
    after.providedTags.lookup tag = queue.providedTags.lookup tag := by
  obtain ⟨before, stays⟩ := cut.of_refAt found
  apply Option.ext
  intro provider
  rw [cut.provided, and_iff_left_iff_imp]
  intro mapped
  refine .inr fun removed => stays (closed provider hash removed ?_)
  exact ⟨ref, before, tag, required, live.mapped_iff.mp mapped⟩

theorem live (live : Live queue) (cut : Cut ∅ gone queue after)
    (downward : ∀ hash other, gone hash → queue.Depends other hash → gone other) : Live after where
  provided := by
    refine ⟨fun hash ref found => live.provided.hash hash ref (cut.of_refAt found).1,
      fun hash ref found => live.provided.repeats hash ref (cut.of_refAt found).1, ?_⟩
    intro tag _ hash
    rw [cut.provided, live.mapped_iff, Provides]
    simp only [Finset.notMem_empty, false_or]
    constructor
    · rintro ⟨⟨ref, found, own⟩, stays⟩
      exact ⟨ref, (cut.refAt_left stays).trans found, own⟩
    · rintro ⟨ref, found, own⟩
      obtain ⟨before, stays⟩ := cut.of_refAt found
      exact ⟨⟨ref, before, own⟩, stays⟩
  apart hash ref found := live.apart hash ref (cut.of_refAt found).1
  queuedIds hash ref found := by
    rw [cut.insertionId]
    exact live.queuedIds hash ref (cut.of_refAt found).1
  bestIds ref mem := by
    rw [cut.insertionId]
    exact live.bestIds ref ((cut.best ref).mp mem).1
  sameQueued left right hash other leftFound rightFound :=
    live.sameQueued left right hash other (cut.of_refAt leftFound).1 (cut.of_refAt rightFound).1
  sameBest left hash right mem found :=
    live.sameBest left hash right ((cut.best left).mp mem).1 (cut.of_refAt found).1
  unlocks hash tx stored other queued := by
    obtain ⟨before, stays⟩ := cut.of_lookup stored
    have remains := cut.of_mem queued
    rw [live.unlocks hash tx before other remains.1, links, links, cut.refAt_left remains.2]
    congr 2
    funext ref
    apply countP_congr
    intro tag _
    simp [cut.provided, stays]
  offset hash tx stored := by
    rw [live.offset hash tx (cut.of_lookup stored).1]
    apply countP_congr
    intro tag required
    rw [cut.lookup_required live downward (refAt_of_lookup stored) required]
  best ref queued := by
    obtain ⟨before, stays⟩ := cut.of_mem queued
    rw [cut.best, live.best ref before, and_iff_left stays, Unblocked, Unblocked,
      cut.refAt_left stays]
    apply and_congr_right
    intro found
    refine forall_congr' fun tag => forall_congr' fun required => ?_
    rw [cut.lookup_required live downward ((cut.refAt_left stays).trans found) required]

theorem graph (graph : Graph (fun _ => False) queue) (cut : Cut ∅ gone queue after)
    (downward : ∀ hash other, gone hash → queue.Depends other hash → gone other)
    (upward : ∀ hash provider, gone hash → queue.Depends hash provider → gone provider) :
    Graph (fun _ => False) after where
  toLive := cut.live graph.toLive downward
  listed hash tx stored other mem := by
    obtain ⟨before, stays⟩ := cut.of_lookup stored
    have depends := (graph.mem_unlocks_iff before).mp mem
    -- a removed dependent would have taken the provider with it
    have remains : ¬ gone other := fun removed => stays (upward other hash removed depends)
    rw [mem_iff, cut.left other remains]
    exact mem_iff.mp depends.mem_dependent
  left ref absent := by
    rw [iff_false, cut.best]
    rintro ⟨mem, stays⟩
    have free := (graph.mem_best mem).resolve_right id
    exact absent (mem_of_refAt ((cut.refAt_left stays).trans free.1))

theorem not_depends_of_exact (graph : Graph (fun _ => False) queue)
    (cut : Cut kept gone queue after) (exact : after.Exact) {provider : H} (removed : gone hash)
    (depends : queue.Depends hash provider) : gone provider := by
  by_contra stays
  obtain ⟨tx, stored⟩ := mem_iff.mp depends.mem_provider
  have named := (graph.mem_unlocks_iff stored).mpr depends
  rw [← cut.left provider stays] at stored
  obtain ⟨ref, found, -⟩ := (exact.unlocks provider tx stored hash).mp named
  exact (cut.of_refAt found).2 removed

end Cut

omit [DecidableEq T] in
theorem Removed.downward {other : H} (removed : Removed queue ∅ hashes hash)
    (depends : queue.Depends other hash) : Removed queue ∅ hashes other := by
  obtain ⟨-, -, tag, -, provides⟩ := id depends
  exact removed.dependent provides (Finset.notMem_empty tag) depends

/-- **Removal of a subtree** keeps a queue live. -/
theorem removeSubtree_live (live : Live queue)
    (ran : queue.removeSubtree hashes = .ok (after, removed)) : Live after := by
  obtain ⟨other, list, again, cut⟩ := removeSubtreeWithTagFilter_cut live hashes none
  obtain ⟨rfl, -⟩ := ok_pair_inj (ran.symm.trans again)
  exact cut.live live fun hash other gone depends => gone.downward depends

/-- A removal that leaves no provider of a removed transaction. -/
def RemovesProviders (queue : ReadyTransactions H T) (hashes : List H) : Prop :=
  ∀ hash provider, Removed queue ∅ hashes hash → queue.Depends hash provider →
    Removed queue ∅ hashes provider

/-- **Removal of a subtree.** The graph stays exact when no provider of a removed transaction is
left, and only then. -/
theorem removeSubtree_exact_iff (graph : Graph (fun _ => False) queue)
    (ran : queue.removeSubtree hashes = .ok (after, removed)) :
    (after.Exact ↔ queue.RemovesProviders hashes) ∧
      (queue.RemovesProviders hashes → Graph (fun _ => False) after) := by
  obtain ⟨other, list, again, cut⟩ := removeSubtreeWithTagFilter_cut graph.toLive hashes none
  obtain ⟨rfl, -⟩ := ok_pair_inj (ran.symm.trans again)
  have keeps : queue.RemovesProviders hashes → Graph (fun _ => False) after :=
    fun upward => cut.graph graph (fun hash other gone depends => gone.downward depends) upward
  refine ⟨⟨fun exact hash provider removed depends => ?_, fun upward => (keeps upward).exact⟩,
    keeps⟩
  exact cut.not_depends_of_exact graph exact removed depends

end Brace.TransactionPool.ReadyTransactions
