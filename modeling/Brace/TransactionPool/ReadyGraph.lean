import Brace.TransactionPool.ProvidedTags

/-!
# The dependency graph of the ready queue

`Exact` says what the indexes of the source are for: `provided_tags` names the queued provider of
each tag, `unlocks` the queued transactions that require a tag of the transaction,
`requires_offset` counts the required tags that nothing in the queue provides, and `best` holds the
transactions with no provider in the queue.

Its inductive form has two parts. `Live` is about the queued transactions alone: each stands in the
list of a queued provider once for each required tag, and the references in `best` are told apart
by their insertion ids. `Graph` adds that the indexes name nothing else, up to a set of stale
references in `best`, which pruning leaves behind.
-/

namespace Brace.TransactionPool

open Brace.Lib

variable {H T : Type} [DecidableEq H] [DecidableEq T]

variable (tx : Transaction H T)

/-- No tag is both required and provided. -/
def Transaction.Apart : Prop :=
  ∀ tag ∈ tx.requires, tag ∉ tx.provides

instance : Decidable tx.Apart :=
  inferInstanceAs (Decidable (∀ tag ∈ tx.requires, tag ∉ tx.provides))

/-- No tag is required twice, provided twice, or both required and provided. -/
def Transaction.WellTagged : Prop :=
  tx.requires.Nodup ∧ tx.provides.Nodup ∧ tx.Apart

instance : Decidable tx.WellTagged :=
  inferInstanceAs (Decidable (_ ∧ _ ∧ _))

omit [DecidableEq H] in
theorem Transaction.WellTagged.repeatsAlone {tx : Transaction H T} (tagged : tx.WellTagged) :
    tx.RepeatsAlone := by
  intro tag _ twice
  have once := List.nodup_iff_count_le_one.mp tagged.2.1 tag
  omega

theorem removeItem_of_not_mem {α : Type} [DecidableEq α] {item : α} {items : List α}
    (absent : item ∉ items) : removeItem item items = items := by
  induction items with
  | nil => rfl
  | cons head rest ih =>
    rw [List.mem_cons, not_or] at absent
    rw [removeItem, if_neg (Ne.symm absent.1), ih absent.2]

section

omit [DecidableEq H] [DecidableEq T]

theorem TransactionRef.insertionId_eq_of_cmp {left right : TransactionRef H T}
    (same : left.cmp right = .eq) : left.insertionId = right.insertionId := by
  rw [TransactionRef.cmp, Ordering.then_eq_eq] at same
  exact (Nat.compare_eq_eq.mp same.2).symm

theorem TransactionRef.cmp_self (ref : TransactionRef H T) : ref.cmp ref = .eq := by
  simp [TransactionRef.cmp]

end

namespace ReadyTransactions

/-! ## Exactness -/

variable (queue : ReadyTransactions H T)

/-- The queued transaction provides the tag. -/
def Provides (tag : T) (hash : H) : Prop :=
  ∃ ref, refAt queue.ready hash = some ref ∧ tag ∈ ref.transaction.provides

/-- The queued transaction requires a tag that the provider provides in the queue. -/
def Depends (dependent provider : H) : Prop :=
  ∃ ref, refAt queue.ready dependent = some ref ∧
    ∃ tag ∈ ref.transaction.requires, queue.Provides tag provider

open Classical in
/-- The three indexes of the queue are exact. -/
structure Exact (queue : ReadyTransactions H T) : Prop where
  provided : ∀ tag hash, Finmap.lookup tag queue.providedTags = some hash ↔
    queue.Provides tag hash
  unlocks : ∀ hash tx, Finmap.lookup hash queue.ready = some tx → ∀ other,
    other ∈ tx.unlocks ↔ queue.Depends other hash
  offset : ∀ hash tx, Finmap.lookup hash queue.ready = some tx →
    tx.requiresOffset = tx.requires.countP fun tag => ¬ ∃ provider, queue.Provides tag provider
  best : ∀ ref, ref ∈ queue.best ↔ refAt queue.ready ref.transaction.hash = some ref ∧
    ∀ provider, ¬ queue.Depends ref.transaction.hash provider

/-! ## The inductive form -/

/-- How many tags of the queued dependent are mapped to the provider. -/
def links (providedTags : HashMap T H) (ready : HashMap H (ReadyTx H T))
    (dependent provider : H) : Nat :=
  ((refAt ready dependent).map fun ref =>
    ref.transaction.requires.countP fun tag =>
      Finmap.lookup tag providedTags = some provider).getD 0

/-- The reference is queued and none of its required tags is mapped. -/
def Unblocked (ref : TransactionRef H T) : Prop :=
  refAt queue.ready ref.transaction.hash = some ref ∧
    ∀ tag ∈ ref.transaction.requires, Finmap.lookup tag queue.providedTags = none

/-- The indexes are exact with multiplicities in what they say about queued transactions. -/
structure Live (queue : ReadyTransactions H T) : Prop where
  provided : Provided ∅ queue.providedTags queue.ready
  apart : ∀ hash ref, refAt queue.ready hash = some ref → ref.transaction.Apart
  queuedIds : ∀ hash ref, refAt queue.ready hash = some ref → ref.insertionId ≤ queue.insertionId
  bestIds : ∀ ref ∈ queue.best, ref.insertionId ≤ queue.insertionId
  sameQueued : ∀ left right hash other, refAt queue.ready hash = some left →
    refAt queue.ready other = some right → left.insertionId = right.insertionId → left = right
  sameBest : ∀ left hash right, left ∈ queue.best → refAt queue.ready hash = some right →
    left.insertionId = right.insertionId → left = right
  unlocks : ∀ hash tx, Finmap.lookup hash queue.ready = some tx → ∀ other ∈ queue.ready,
    tx.unlocks.count other = links queue.providedTags queue.ready other hash
  offset : ∀ hash tx, Finmap.lookup hash queue.ready = some tx →
    tx.requiresOffset = tx.requires.countP fun tag => Finmap.lookup tag queue.providedTags = none
  best : ∀ ref, ref.transaction.hash ∈ queue.ready → (ref ∈ queue.best ↔ queue.Unblocked ref)

/-- The indexes are exact with multiplicities, except for stale references in `best`. -/
structure Graph (stale : TransactionRef H T → Prop) (queue : ReadyTransactions H T) : Prop
    extends Live queue where
  listed : ∀ hash tx, Finmap.lookup hash queue.ready = some tx → ∀ other ∈ tx.unlocks,
    other ∈ queue.ready
  left : ∀ ref, ref.transaction.hash ∉ queue.ready → (ref ∈ queue.best ↔ stale ref)

omit [DecidableEq T] in
theorem mem_of_refAt {ready : HashMap H (ReadyTx H T)} {hash : H} {ref : TransactionRef H T}
    (found : refAt ready hash = some ref) : hash ∈ ready := by
  obtain ⟨tx, stored, -⟩ := lookup_of_refAt found
  exact Finmap.mem_of_lookup_eq_some stored

variable {queue : ReadyTransactions H T} {dependent provider : H}

omit [DecidableEq T] in
theorem Depends.mem_dependent
    (depends : queue.Depends dependent provider) : dependent ∈ queue.ready := by
  obtain ⟨ref, found, -⟩ := depends
  exact mem_of_refAt found

omit [DecidableEq T] in
theorem Depends.mem_provider
    (depends : queue.Depends dependent provider) : provider ∈ queue.ready := by
  obtain ⟨ref, found, tag, -, other, again, -⟩ := depends
  exact mem_of_refAt again

namespace Live

variable {queue : ReadyTransactions H T}

section

variable (live : Live queue)

include live

variable {tag : T} {hash other : H}

theorem mapped_iff : queue.providedTags.lookup tag = some hash ↔ queue.Provides tag hash :=
  live.provided.mapped_iff

theorem unmapped_iff :
    queue.providedTags.lookup tag = none ↔ ¬ ∃ provider, queue.Provides tag provider := by
  rw [Option.eq_none_iff_forall_ne_some, not_exists]
  exact forall_congr' fun hash => not_congr live.mapped_iff

theorem provider_unique (one : queue.Provides tag hash)
    (two : queue.Provides tag other) : hash = other :=
  Option.mem_unique (live.mapped_iff.mpr one) (live.mapped_iff.mpr two)

theorem depends_iff (dependent provider : H) :
    queue.Depends dependent provider ↔
      0 < links queue.providedTags queue.ready dependent provider := by
  unfold Depends links
  cases found : refAt queue.ready dependent with
  | none => simp
  | some ref =>
    simp only [Option.some.injEq, exists_eq_left', Option.map_some, Option.getD_some,
      List.countP_pos_iff, decide_eq_true_eq, live.mapped_iff]

theorem mem_unlocks {tx : ReadyTx H T} (stored : queue.ready.lookup hash = some tx)
    (queued : other ∈ queue.ready) : other ∈ tx.unlocks ↔ queue.Depends other hash := by
  rw [live.depends_iff, ← live.unlocks hash tx stored other queued, List.count_pos_iff]

theorem not_depends_self (hash : H) : ¬ queue.Depends hash hash := by
  rintro ⟨ref, found, tag, required, other, again, provided⟩
  obtain rfl := Option.some.inj (found.symm.trans again)
  exact live.apart hash ref found tag required provided

theorem unblocked_iff (ref : TransactionRef H T) :
    queue.Unblocked ref ↔ refAt queue.ready ref.transaction.hash = some ref ∧
      ∀ provider, ¬ queue.Depends ref.transaction.hash provider := by
  apply and_congr_right
  intro found
  constructor
  · rintro free provider ⟨other, again, tag, required, provided⟩
    obtain rfl := Option.some.inj (found.symm.trans again)
    exact live.unmapped_iff.mp (free tag required) ⟨provider, provided⟩
  · intro free tag required
    rw [live.unmapped_iff]
    rintro ⟨provider, provided⟩
    exact free provider ⟨ref, found, tag, required, provided⟩

theorem bump : Live { queue with insertionId := queue.insertionId + 1 } :=
  ⟨live.provided, live.apart,
    fun hash ref found => (live.queuedIds hash ref found).trans (Nat.le_succ _),
    fun ref mem => (live.bestIds ref mem).trans (Nat.le_succ _), live.sameQueued,
    live.sameBest, live.unlocks, live.offset, live.best⟩

end

end Live

namespace Graph

variable {stale : TransactionRef H T → Prop} {queue : ReadyTransactions H T}

theorem mem_unlocks_iff (graph : Graph stale queue) {hash other : H} {tx : ReadyTx H T}
    (stored : queue.ready.lookup hash = some tx) :
    other ∈ tx.unlocks ↔ queue.Depends other hash := by
  constructor
  · intro mem
    exact (graph.mem_unlocks stored (graph.listed hash tx stored other mem)).mp mem
  · intro depends
    exact (graph.mem_unlocks stored depends.mem_dependent).mpr depends

theorem mem_best (graph : Graph stale queue) {ref : TransactionRef H T} (mem : ref ∈ queue.best) :
    queue.Unblocked ref ∨ stale ref := by
  by_cases queued : ref.transaction.hash ∈ queue.ready
  · exact .inl ((graph.best ref queued).mp mem)
  · exact .inr ((graph.left ref queued).mp mem)

theorem exact (graph : Graph (fun _ => False) queue) : queue.Exact where
  provided _ _ := graph.mapped_iff
  unlocks hash tx stored other := graph.mem_unlocks_iff stored
  offset hash tx stored := by
    rw [graph.offset hash tx stored]
    congr 1
    funext tag
    exact decide_eq_decide.mpr graph.unmapped_iff
  best ref := by
    rw [← graph.unblocked_iff]
    constructor
    · exact fun mem => (graph.mem_best mem).resolve_right id
    · exact fun free => (graph.best ref (mem_of_refAt free.1)).mpr free

theorem bump (graph : Graph stale queue) :
    Graph stale { queue with insertionId := queue.insertionId + 1 } :=
  ⟨graph.toLive.bump, graph.listed, graph.left⟩

end Graph

theorem graph_empty : Graph (fun _ => False) ({} : ReadyTransactions H T) where
  provided := provided_empty
  apart hash ref found := by simp [refAt] at found
  queuedIds hash ref found := by simp [refAt] at found
  bestIds ref mem := absurd mem List.not_mem_nil
  sameQueued left right hash other found := by simp [refAt] at found
  sameBest left hash right mem := absurd mem List.not_mem_nil
  unlocks hash tx stored := by simp at stored
  offset hash tx stored := by simp at stored
  best ref := by simp [Unblocked, refAt]
  listed hash tx stored := by simp at stored
  left ref := by simp

end ReadyTransactions

end Brace.TransactionPool
