import Brace.TransactionPool.GraphImport
import Brace.TransactionPool.NeverPanics
import Brace.TransactionPool.SatisfyTags

/-!
# Promotions

When tags are satisfied, waiting transactions move to the ready queue, and the tags they provide
satisfy others. The transactions that can move are known beforehand (`Promotable`). `Promoting`
says what holds in the middle of these moves, whatever they displace: every ready transaction was
ready at the start or could move, and what was in the pool is still there, is about to move, or was
reported as dropped. `promotions` carries this, and anything else that a round keeps, through the
loop of `import_to_ready`. When no promotion meets a tag that is taken (`Quiet`), every promotion
succeeds and replaces nothing (`QuietStep`).
-/

namespace Brace.TransactionPool

open Brace.Lib ReadyTransactions FutureTransactions List

variable {H T : Type} [DecidableEq H] [DecidableEq T]

namespace ReadyTransactions

/-! ## The outcomes of an import into the ready queue -/

variable {queue after before : ReadyTransactions H T} {toRemove unlocks : List H}
  {tagFilter : Option (Finset T)} {removed : List (Transaction H T)} {hash : H}
  {ref : TransactionRef H T} {tx : Transaction H T}

section

variable (returned : queue.removeSubtreeWithTagFilter toRemove tagFilter = .ok (after, removed))

include returned

theorem removeSubtreeWithTagFilter_reports :
    (∀ hash ref, refAt queue.ready hash = some ref →
      refAt after.ready hash = some ref ∨ ref.transaction ∈ removed) ∧
    ∀ tx ∈ removed, ∃ hash ref, refAt queue.ready hash = some ref ∧ ref.transaction = tx ∧
      refAt after.ready hash = none := by
  let inv := fun state : ReadyTransactions H T × List (Transaction H T) =>
    Within state.1.ready queue.ready ∧
    (∀ hash ref, refAt queue.ready hash = some ref →
      refAt state.1.ready hash = some ref ∨ ref.transaction ∈ state.2) ∧
    ∀ tx ∈ state.2, ∃ hash ref, refAt queue.ready hash = some ref ∧ ref.transaction = tx ∧
      refAt state.1.ready hash = none
  have kept : inv (after, removed) := by
    refine worklist_invariant inv ?_ ⟨fun _ _ found => found, fun _ _ => .inl, by simp⟩ returned
    rintro state task next pushed ⟨fewer, reported, sound⟩ called
    unfold removeNext at called
    split at called
    · cases called
      exact ⟨fewer, reported, sound⟩
    · rename_i queued stored
      cases called
      have own := refAt_of_lookup stored
      have refs : ∀ providedTags hash, refAt (queued.requires.foldl (forgetUnlock providedTags)
          (state.1.ready.erase task)) hash =
            if hash = task then none else refAt state.1.ready hash :=
        fun _ hash => by rw [forgetUnlock_eq, refAt_forget, refAt_erase]
      refine ⟨fun hash ref found => ?_, fun hash ref found => ?_, fun tx mem => ?_⟩
      · exact fewer hash ref (refAt_of_gone (refs _) found)
      · rcases reported hash ref found with still | listed
        · by_cases same : hash = task
          · subst same
            obtain rfl := Option.some.inj (own.symm.trans still)
            exact .inr (mem_append_right _ (mem_singleton_self _))
          · exact .inl ((refs _ hash).trans ((if_neg same).trans still))
        · exact .inr (mem_append_left _ listed)
      · rcases mem_append.mp mem with before | now
        · obtain ⟨hash, ref, found, same, gone⟩ := sound tx before
          exact ⟨hash, ref, found, same,
            eq_none_of_earlier (fun _ => refAt_of_gone (refs _)) gone⟩
        · obtain rfl := mem_singleton.mp now
          exact ⟨task, queued.transaction, fewer _ _ own, rfl, (refs _ task).trans (if_pos rfl)⟩
  exact kept.2

end

theorem importTransaction_refused (order : Order H T)
    {tx : WaitingTransaction H T} (ready : tx.isReady = true)
    (fresh : refAt queue.ready tx.transaction.hash = none)
    (refused : queue.Refused tx.transaction) :
    ∃ error, queue.importTransaction order tx =
      .ok ({ queue with insertionId := queue.insertionId + 1 }, .error error) := by
  rcases replacePrevious_outcome order { queue with insertionId := queue.insertionId + 1 }
    tx.transaction with ⟨-, error, returned⟩ | ⟨high, -⟩ | ⟨high, -⟩
  · refine ⟨error, ?_⟩
    simp only [ReadyTransactions.importTransaction, ready, refAt_eq_none.mp fresh,
      not_true_eq_false, if_false, returned, ok_bind]
  · exact absurd refused high
  · exact absurd refused high

/-- An import that is not refused: the queue after the replacement and the queue at the end, with
the transactions reported as replaced. -/
structure Accepted (order : Order H T) (tx : Transaction H T)
    (queue middle after : ReadyTransactions H T) (unlocks : List H)
    (removed : List (Transaction H T)) : Prop where
  replaced : replacePrevious order { queue with insertionId := queue.insertionId + 1 } tx =
    .ok (middle, .ok (removed, unlocks))
  placed : Placed tx unlocks middle after
  fewer : ∀ hash ref, refAt middle.ready hash = some ref → refAt queue.ready hash = some ref
  reported : ∀ hash ref, refAt queue.ready hash = some ref →
    refAt middle.ready hash = some ref ∨ ref.transaction ∈ removed
  queued : ∀ other ∈ removed, ∃ hash ref, refAt queue.ready hash = some ref ∧
    ref.transaction = other ∧ refAt middle.ready hash = none

theorem Accepted.others {order : Order H T} {middle : ReadyTransactions H T}
    (accepted : Accepted order tx queue middle after unlocks removed)
    (provided : Provided ∅ queue.providedTags queue.ready)
    (fresh : refAt queue.ready tx.hash = none) : ∀ other ∈ removed, other.hash ≠ tx.hash := by
  intro other mem same
  obtain ⟨hash, ref, found, rfl, -⟩ := accepted.queued other mem
  rw [← same, provided.hash hash ref found, found] at fresh
  cases fresh

theorem replacePrevious_accepted (order : Order H T) (queue : ReadyTransactions H T)
    (provided : Provided ∅ queue.providedTags queue.ready) (accepted : ¬ queue.Refused tx) :
    ∃ middle removed unlocks, replacePrevious order queue tx =
      .ok (middle, .ok (removed, unlocks)) ∧ Within middle.ready queue.ready ∧
      (∀ hash ref, refAt queue.ready hash = some ref →
        refAt middle.ready hash = some ref ∨ ref.transaction ∈ removed) ∧
      ∀ other ∈ removed, ∃ hash ref, refAt queue.ready hash = some ref ∧
        ref.transaction = other ∧ refAt middle.ready hash = none := by
  obtain ⟨middle, outcome, returned, fewer, -⟩ := replacePrevious_returns order queue provided tx
  rcases replacePrevious_outcome order queue tx with ⟨refused, -⟩ | ⟨-, -, untouched⟩ |
    ⟨-, -, called⟩
  · exact absurd refused accepted
  · exact ⟨queue, [], [], untouched, fun _ _ found => found, fun _ _ found => .inl found, by simp⟩
  · rw [called, bind_eq_ok] at returned
    obtain ⟨⟨left, removed⟩, removes, same⟩ := returned
    obtain ⟨rfl, rfl⟩ := ok_pair_inj same
    refine ⟨left, removed, queue.replacedUnlocks order tx, ?_, fewer,
      removeSubtreeWithTagFilter_reports removes⟩
    rw [called, removes, ok_bind]

/-- The outcome of an import into the ready queue. A refused one only takes an insertion id. -/
inductive Outcome (order : Order H T) (tx : Transaction H T) (queue : ReadyTransactions H T) :
    ReadyTransactions H T → Except (Error H) (List (Transaction H T)) → Prop
  | refused (error : Error H) (low : queue.Refused tx) :
      Outcome order tx queue { queue with insertionId := queue.insertionId + 1 } (.error error)
  | accepted {middle after : ReadyTransactions H T} {unlocks : List H}
      {removed : List (Transaction H T)} (high : ¬ queue.Refused tx)
      (accepted : Accepted order tx queue middle after unlocks removed) :
      Outcome order tx queue after (.ok removed)

/-- The queue after the import of a transaction that replaces nothing. -/
def Joined (tx : Transaction H T) (queue after : ReadyTransactions H T) : Prop :=
  Placed tx [] { queue with insertionId := queue.insertionId + 1 } after

section

variable (order : Order H T) (provided : Provided ∅ queue.providedTags queue.ready)
  {tx : WaitingTransaction H T} (ready : tx.isReady = true)
  (fresh : refAt queue.ready tx.transaction.hash = none) (safe : tx.transaction.Safe)

include provided ready fresh safe

theorem importTransaction_outcome :
    ∃ after result, queue.importTransaction order tx = .ok (after, result) ∧
      Outcome order tx.transaction queue after result := by
  by_cases low : queue.Refused tx.transaction
  · obtain ⟨error, returned⟩ := importTransaction_refused order ready fresh low
    exact ⟨_, _, returned, .refused error low⟩
  · obtain ⟨middle, removed, unlocks, replaced, fewer, reported, queued⟩ := replacePrevious_accepted
      order { queue with insertionId := queue.insertionId + 1 } provided low
    obtain ⟨after, result, imported, -⟩ := importTransaction_returns order provided ready fresh safe
    refine ⟨after, result, imported, ?_⟩
    simp only [ReadyTransactions.importTransaction, ready, refAt_eq_none.mp fresh,
      not_true_eq_false, if_false, replaced, ok_bind] at imported
    obtain ⟨last, inserted, same⟩ := bind_eq_ok.mp imported
    obtain ⟨rfl, rfl⟩ := ok_pair_inj same
    exact .accepted low ⟨replaced, insertReady_placed inserted, fewer, reported, queued⟩

end

variable {order : Order H T} {result : Except (Error H) (List (Transaction H T))}

theorem Outcome.joined (outcome : Outcome order tx queue after result)
    (nothing : queue.replaceHashes tx = ∅) : result = .ok [] ∧ Joined tx queue after := by
  cases outcome with
  | refused error low => exact absurd nothing low.1
  | accepted high accepted =>
    have untouched : replacePrevious order { queue with insertionId := queue.insertionId + 1 } tx =
        .ok (_, .ok ([], [])) := if_pos nothing
    obtain ⟨rfl, same⟩ := ok_pair_inj (untouched.symm.trans accepted.replaced)
    obtain ⟨rfl, rfl⟩ := ok_pair_inj same
    exact ⟨rfl, accepted.placed⟩

end ReadyTransactions

namespace FutureTransactions

/-! ## The transactions that can be promoted -/

variable (future : FutureTransactions H T)

/-- The tags that are available once the given ones are: the given ones, and the ones provided by
a waiting transaction that misses only available tags. -/
inductive Satisfiable (given : T → Prop) : T → Prop
  | given {tag : T} : given tag → Satisfiable given tag
  | promoted {hash : H} {tx : WaitingTransaction H T} {tag : T} :
      Finmap.lookup hash future.waiting = some tx →
      (∀ missing ∈ tx.missingTags, Satisfiable given missing) →
      tag ∈ tx.transaction.provides → Satisfiable given tag

/-- A waiting transaction that the given tags can promote. -/
def Promotable (given : T → Prop) (tx : WaitingTransaction H T) : Prop :=
  Finmap.lookup tx.transaction.hash future.waiting = some tx ∧
    ∀ tag ∈ tx.missingTags, future.Satisfiable given tag

/-- The transaction waits and misses only available tags. -/
def Opens (available : T → Prop) (tx : Transaction H T) : Prop :=
  ∃ waiting, Finmap.lookup tx.hash future.waiting = some waiting ∧ waiting.transaction = tx ∧
    ∀ tag ∈ waiting.missingTags, available tag

end FutureTransactions

namespace BasePool

/-- No transaction that the given tags can promote provides a tag of a ready transaction, one of
some further tags, or a tag of another such transaction. -/
structure Quiet (pool : BasePool H T) (given : T → Prop) (own : List T) : Prop where
  free : ∀ tx, pool.future.Promotable given tx → ∀ tag ∈ tx.transaction.provides,
    tag ∉ pool.ready.providedTags ∧ tag ∉ own
  distinct : ∀ tx other, pool.future.Promotable given tx → pool.future.Promotable given other →
    tx ≠ other → ∀ tag ∈ tx.transaction.provides, tag ∉ other.transaction.provides

/-- The transaction is in one of the two queues. -/
def Held (future : FutureTransactions H T) (ready : ReadyTransactions H T) (tx : Transaction H T) :
    Prop :=
  (∃ ref, refAt ready.ready tx.hash = some ref ∧ ref.transaction = tx) ∨
    ∃ waiting, Finmap.lookup tx.hash future.waiting = some waiting ∧ waiting.transaction = tx

/-- The transactions that may enter the ready queue: some given ones, and the waiting ones that
miss only available tags. -/
def Enters (pool : BasePool H T) (available : T → Prop) (own : List (Transaction H T))
    (tx : Transaction H T) : Prop :=
  tx ∈ own ∨ pool.future.Opens available tx

/-- The queues in the middle of promotions that began in some pool: the transactions still
waiting miss what they missed except available tags, the pending ones and the ready ones that
were not there before may enter, and what was in the pool is there, pending or dropped. -/
structure Promoting (start : BasePool H T) (available : T → Prop) (own : List (Transaction H T))
    (Dropped : Transaction H T → Prop) (future : FutureTransactions H T)
    (ready : ReadyTransactions H T) (pending : List (WaitingTransaction H T)) : Prop where
  consistent : Consistent future ready pending
  waits : ∀ hash tx, Finmap.lookup hash future.waiting = some tx →
    ∃ old, Finmap.lookup hash start.future.waiting = some old ∧
      old.transaction = tx.transaction ∧ tx.missingTags ⊆ old.missingTags ∧
        ∀ tag ∈ old.missingTags, tag ∈ tx.missingTags ∨ available tag
  opens : ∀ tx ∈ pending, start.future.Opens available tx.transaction
  joined : ∀ hash ref, refAt ready.ready hash = some ref →
    refAt start.ready.ready hash = some ref ∨ start.Enters available own ref.transaction
  present : ∀ tx, Held start.future start.ready tx →
    Held future ready tx ∨ (∃ other ∈ pending, other.transaction = tx) ∨ Dropped tx

variable {start : BasePool H T} {available : T → Prop} {own : List (Transaction H T)}
  {Dropped More : Transaction H T → Prop} {future : FutureTransactions H T}
  {ready : ReadyTransactions H T} {pending : List (WaitingTransaction H T)}

theorem Promoting.initial (consistent : start.AtRest) (available : T → Prop)
    (own : List (Transaction H T)) (Dropped : Transaction H T → Prop) :
    Promoting start available own Dropped start.future start.ready [] where
  consistent := consistent
  waits _ tx stored := ⟨tx, stored, rfl, Finset.Subset.refl _, fun _ mem => .inl mem⟩
  opens _ mem := absurd mem List.not_mem_nil
  joined _ _ found := .inl found
  present _ held := .inl held

section

variable (promoting : Promoting start available own Dropped future ready pending)

include promoting

theorem Promoting.mono {wider : T → Prop} (widens : ∀ tag, available tag → wider tag)
    (drops : ∀ tx, Dropped tx → More tx) : Promoting start wider own More future ready pending := by
  have opens : ∀ tx, start.future.Opens available tx → start.future.Opens wider tx := by
    rintro tx ⟨waiting, stored, same, missing⟩
    exact ⟨waiting, stored, same, fun tag mem => widens tag (missing tag mem)⟩
  refine ⟨promoting.consistent, fun hash tx stored => ?_,
    fun tx mem => opens _ (promoting.opens tx mem),
    fun hash ref found => (promoting.joined hash ref found).imp_right (Or.imp_right (opens _)),
    fun tx held => (promoting.present tx held).imp_right (Or.imp_right (drops tx))⟩
  obtain ⟨old, before, same, fewer, missing⟩ := promoting.waits hash tx stored
  exact ⟨old, before, same, fewer, fun tag mem => (missing tag mem).imp_right (widens tag)⟩

theorem Promoting.perm {other : List (WaitingTransaction H T)} (perm : pending.Perm other) :
    Promoting start available own Dropped future ready other where
  consistent := promoting.consistent.perm perm
  __ := promoting
  opens tx mem := promoting.opens tx (perm.mem_iff.mpr mem)
  present tx held := by
    refine (promoting.present tx held).imp_right (Or.imp_left ?_)
    rintro ⟨found, mem, same⟩
    exact ⟨found, perm.mem_iff.mp mem, same⟩

/-- Available tags are satisfied: the transactions handed out may enter. -/
theorem Promoting.satisfyTags (order : Order H T) (tags : List T)
    (given : ∀ tag ∈ tags, available tag) :
    ∃ after unlocked, future.satisfyTags order tags = .ok (after, unlocked) ∧
      Satisfied tags.toFinset future after unlocked ∧
      Promoting start available own Dropped after ready (unlocked ++ pending) ∧
      unlocked.length + after.len = future.len := by
  obtain ⟨after, unlocked, returned, consistent, counted⟩ :=
    promoting.consistent.satisfyTags order tags
  have satisfied := satisfyTags_satisfied promoting.consistent.indexed returned
  refine ⟨after, unlocked, returned, satisfied,
    ⟨consistent, fun hash tx stored => ?_, fun tx mem => ?_, promoting.joined,
      fun tx held => ?_⟩, counted⟩
  · rw [satisfied.waiting] at stored
    obtain ⟨middle, before, stays⟩ := Option.bind_eq_some_iff.mp stored
    obtain ⟨old, first, same, fewer, missing⟩ := promoting.waits hash middle before
    obtain rfl := leftOver_eq_some stays
    refine ⟨old, first, same, Finset.sdiff_subset.trans fewer, fun tag mem => ?_⟩
    rcases missing tag mem with still | soon
    · by_cases now : tag ∈ tags
      · exact .inr (given tag now)
      · exact .inl (Finset.mem_sdiff.mpr ⟨still, fun listed => now (mem_toFinset.mp listed)⟩)
    · exact .inr soon
  · rcases mem_append.mp mem with new | old
    · obtain ⟨hash, middle, before, gone, rfl⟩ := (satisfied.unlocked tx).mp new
      obtain ⟨old, first, same, -, missing⟩ := promoting.waits hash middle before
      have named := promoting.consistent.indexed.hash hash middle before
      refine ⟨old, by rw [named, first], same, fun tag mem => ?_⟩
      rcases missing tag mem with still | soon
      · exact given tag (mem_toFinset.mp (subset_of_leftOver_eq_none gone still))
      · exact soon
    · exact promoting.opens tx old
  · rcases promoting.present tx held with (there | ⟨left, waits, same⟩) | ⟨other, mem, same⟩ | gone
    · exact .inl (.inl there)
    · cases stays : leftOver tags.toFinset left with
      | none =>
        refine .inr (.inl ⟨{ left with missingTags := ∅ }, mem_append_left _ ?_, same⟩)
        exact (satisfied.unlocked _).mpr ⟨tx.hash, left, waits, stays, rfl⟩
      | some rest =>
        refine .inl (.inr ⟨rest, ?_, by rw [leftOver_eq_some stays, same]⟩)
        rw [satisfied.waiting, waits]
        exact stays
    · exact .inr (.inl ⟨other, mem_append_right _ mem, same⟩)
    · exact .inr (.inr gone)

end

/-- What an import into the ready queue drops: the replaced transactions, or the refused one. -/
def droppedBy (tx : Transaction H T) :
    Except (Error H) (List (Transaction H T)) → List (Transaction H T)
  | .ok removed => removed
  | .error _ => [tx]

variable {order : Order H T} {after : ReadyTransactions H T}
  {result : Except (Error H) (List (Transaction H T))}

theorem Promoting.enter {tx : Transaction H T} {rest : List (WaitingTransaction H T)}
    (promoting : Promoting start available own Dropped future ready pending)
    (outcome : Outcome order tx ready after result) (fresh : refAt ready.ready tx.hash = none)
    (enters : start.Enters available own tx) (consistent : Consistent future after rest)
    (left : ∀ other ∈ rest, other ∈ pending)
    (taken : ∀ other ∈ pending, other ∈ rest ∨ other.transaction = tx) :
    Promoting start available own (fun other => Dropped other ∨ other ∈ droppedBy tx result) future
      after rest where
  consistent := consistent
  waits := promoting.waits
  opens other mem := promoting.opens other (left other mem)
  joined hash ref found := by
    cases outcome with
    | refused error low => exact promoting.joined hash ref found
    | accepted high accepted =>
      by_cases here : hash = tx.hash
      · rw [here, accepted.placed.refAt_own] at found
        obtain rfl := Option.some.inj found
        exact .inr enters
      · rw [accepted.placed.refAt_others here] at found
        exact promoting.joined hash ref (accepted.fewer hash ref found)
  present other held := by
    rcases promoting.present other held with (⟨ref, found, same⟩ | waits) |
      ⟨moved, mem, same⟩ | gone
    · cases outcome with
      | refused error low => exact .inl (.inl ⟨ref, found, same⟩)
      | accepted high accepted =>
        rcases accepted.reported _ ref found with stays | removed
        · refine .inl (.inl ⟨ref, ?_, same⟩)
          rw [accepted.placed.refAt_others (ne_of_refAt fresh found), stays]
        · exact .inr (.inr (.inr (same ▸ removed)))
    · exact .inl (.inr waits)
    · rcases taken moved mem with later | now
      · exact .inr (.inl ⟨moved, later, same⟩)
      · obtain rfl := now.symm.trans same
        cases outcome with
        | refused error low => exact .inr (.inr (.inr (mem_singleton_self _)))
        | accepted high accepted => exact .inl (.inl ⟨_, accepted.placed.refAt_own, rfl⟩)
    · exact .inr (.inr (.inl gone))

/-! ## The loop of `import_to_ready` -/

/-- The two calls of one round of `import_to_ready`. -/
structure Round (order : Order H T) (tx : WaitingTransaction H T) (future : FutureTransactions H T)
    (ready : ReadyTransactions H T) (afterFuture : FutureTransactions H T)
    (unlocked : List (WaitingTransaction H T)) (afterReady : ReadyTransactions H T)
    (result : Except (Error H) (List (Transaction H T))) : Prop where
  satisfied : Satisfied tx.transaction.provides.toFinset future afterFuture unlocked
  fresh : refAt ready.ready tx.transaction.hash = none
  outcome : Outcome order tx.transaction ready afterReady result

/-- The variables of the loop after a round. -/
def Promotion.record (state : Promotion H T) (hash : H) (future : FutureTransactions H T)
    (ready : ReadyTransactions H T) : Except (Error H) (List (Transaction H T)) → Promotion H T
  | .ok replaced => { state with
      future, ready, promoted := state.promoted ++ [hash], removed := state.removed ++ replaced }
  | .error _ => { state with future, ready, failed := state.failed ++ [hash] }

/-- What the loop has dropped so far. -/
def Promotion.Drops (state : Promotion H T) (tx : Transaction H T) : Prop :=
  tx.hash ∈ state.failed ∨ tx ∈ state.removed

section

variable (closed : ∀ tx, start.future.Opens available tx → ∀ tag ∈ tx.provides, available tag)

include closed

theorem Promoting.round (order : Order H T) {tx : WaitingTransaction H T}
    (promoting : Promoting start available own Dropped future ready (tx :: pending)) :
    ∃ afterFuture unlocked afterReady result,
      future.satisfyTags order tx.transaction.provides = .ok (afterFuture, unlocked) ∧
      ready.importTransaction order tx = .ok (afterReady, result) ∧
      Round order tx future ready afterFuture unlocked afterReady result ∧
      Promoting start available own
        (fun other => Dropped other ∨ other ∈ droppedBy tx.transaction result)
        afterFuture afterReady (unlocked.reverse ++ pending) ∧
      unlocked.length + afterFuture.len = future.len := by
  have opens := promoting.opens tx mem_cons_self
  obtain ⟨isReady, safe⟩ := promoting.consistent.pendingReady tx mem_cons_self
  have fresh := (promoting.consistent.pendingApart tx mem_cons_self).2
  obtain ⟨afterFuture, unlocked, returned, satisfied, moved, counted⟩ :=
    promoting.satisfyTags order _ (closed _ opens)
  obtain ⟨afterReady, result, imported, outcome⟩ := importTransaction_outcome order
    promoting.consistent.provided isReady fresh safe
  obtain ⟨same, again, twice, consistent⟩ :=
    (moved.perm perm_middle).consistent.importTransaction order
  obtain ⟨rfl, rfl⟩ := ok_pair_inj (imported.symm.trans twice)
  refine ⟨afterFuture, unlocked, afterReady, result, returned, imported,
    ⟨satisfied, fresh, outcome⟩, ?_, counted⟩
  refine Promoting.perm ?_ ((reverse_perm unlocked).symm.append_right pending)
  refine (moved.perm perm_middle).enter outcome fresh (.inr opens) consistent
    (fun other mem => mem_cons_of_mem _ mem) fun other mem => ?_
  rcases mem_cons.mp mem with rfl | later
  · exact .inr rfl
  · exact .inl later

variable (Keeps : Promotion H T → List (WaitingTransaction H T) → Prop)
  (step : ∀ {Dropped state tx rest future unlocked ready result},
    Promoting start available own Dropped state.future state.ready (tx :: rest) →
    Keeps state (tx :: rest) →
    Round order tx state.future state.ready future unlocked ready result →
    Consistent future ready (unlocked.reverse ++ rest) →
      Keeps (state.record tx.transaction.hash future ready result) (unlocked.reverse ++ rest))

include step

/-- **The loop of promotions.** It returns, accounts for what was in the pool, and keeps what its
rounds keep. -/
theorem promotions (state : Promotion H T) {stack : List (WaitingTransaction H T)} {rounds : Nat}
    (promoting : Promoting start available own (fun tx => Dropped tx ∨ state.Drops tx) state.future
      state.ready (stack ++ pending))
    (keeps : Keeps state (stack ++ pending)) (enough : stack.length + state.future.len ≤ rounds) :
    ∃ last, worklist (promoteNext order) rounds state stack = .ok last ∧
      Promoting start available own (fun tx => Dropped tx ∨ last.Drops tx) last.future last.ready
        pending ∧ Keeps last pending := by
  let inv := fun (now : Promotion H T) (tasks : List (WaitingTransaction H T)) =>
    Promoting start available own (fun tx => Dropped tx ∨ now.Drops tx) now.future now.ready
      (tasks ++ pending) ∧ Keeps now (tasks ++ pending)
  have round : ∀ now tx rest, inv now (tx :: rest) → ∃ next pushed,
      promoteNext order now tx = .ok (next, pushed) ∧ inv next (pushed ++ rest) ∧
        pushed.length + next.future.len ≤ now.future.len := by
    rintro now tx rest ⟨promoting, keeps⟩
    obtain ⟨future, unlocked, ready, result, satisfied, imported, done, left, counted⟩ :=
      promoting.round closed order
    have kept := step promoting keeps done left.consistent
    refine ⟨now.record tx.transaction.hash future ready result, unlocked.reverse, ?_, ⟨?_, ?_⟩, ?_⟩
    · simp only [promoteNext, satisfied, ok_bind, imported]
      cases result with
      | ok removed | error error => rfl
    · rw [append_assoc]
      cases result with
      | ok removed =>
        refine left.mono (fun _ given => given) ?_
        rintro other ((early | failed | listed) | removed)
        · exact .inl early
        · exact .inr (.inl failed)
        · exact .inr (.inr (mem_append_left _ listed))
        · exact .inr (.inr (mem_append_right _ removed))
      | error error =>
        refine left.mono (fun _ given => given) ?_
        rintro other ((early | failed | listed) | refused)
        · exact .inl early
        · exact .inr (.inl (mem_append_left _ failed))
        · exact .inr (.inr listed)
        · rw [droppedBy, mem_singleton] at refused
          exact .inr (.inl (mem_append_right _ (mem_singleton.mpr (congrArg _ refused))))
    · rwa [append_assoc]
    · cases result with
      | ok removed | error error =>
        rw [length_reverse]
        exact counted.le
  exact worklist_returns round ⟨promoting, keeps⟩ enough

theorem importToReady_promotes {pool : BasePool H T} {tx : WaitingTransaction H T}
    {unlocked : List (WaitingTransaction H T)} {replaced : List (Transaction H T)}
    (satisfied : pool.future.satisfyTags order tx.transaction.provides = .ok (future, unlocked))
    (imported : pool.ready.importTransaction order tx = .ok (ready, .ok replaced))
    (promoting : Promoting start available own (fun other => Dropped other ∨ other ∈ replaced)
      future ready (unlocked.reverse ++ pending))
    (keeps : Keeps { future, ready, removed := replaced } (unlocked.reverse ++ pending)) :
    ∃ last, Promoting start available own (fun other => Dropped other ∨ last.Drops other)
        last.future last.ready pending ∧ Keeps last pending ∧
      (if ∃ other ∈ last.removed, other.hash = tx.transaction.hash then
        ∃ left removed, last.ready.removeSubtree last.promoted = .ok (left, removed) ∧
          pool.importToReady order tx =
            .ok ({ pool with future := last.future, ready := left }, .error .cycleDetected)
      else pool.importToReady order tx =
        .ok ({ pool with future := last.future, ready := last.ready },
          .ok (.ready tx.transaction.hash last.promoted last.failed last.removed))) := by
  obtain ⟨last, ended, left, kept⟩ :=
    promotions closed Keeps step { future, ready, removed := replaced }
    (promoting.mono (fun _ given => given) fun other => Or.imp_right .inr) keeps
    (le_of_eq (by rw [length_reverse]))
  have found : (last.removed.any (·.hash = tx.transaction.hash) = true) ↔
      ∃ other ∈ last.removed, other.hash = tx.transaction.hash := by
    simp
  refine ⟨last, left, kept, ?_⟩
  split
  · rename_i cycle
    obtain ⟨rest, removed, ran, -⟩ :=
      ReadyTransactions.removeSubtree_returns left.consistent.provided last.promoted
    refine ⟨rest, removed, ran, ?_⟩
    simp only [importToReady, satisfied, ok_bind, imported, ended, if_pos (found.mpr cycle), ran]
  · rename_i apart
    simp only [importToReady, satisfied, ok_bind, imported, ended, if_neg (mt found.mp apart)]

end

/-! ## Quiet promotions -/

/-- One round of promotion that replaces nothing. -/
structure QuietStep (tx : WaitingTransaction H T) (future : FutureTransactions H T)
    (ready : ReadyTransactions H T) (afterFuture : FutureTransactions H T)
    (unlocked : List (WaitingTransaction H T)) (afterReady : ReadyTransactions H T) : Prop where
  satisfied : Satisfied tx.transaction.provides.toFinset future afterFuture unlocked
  fresh : refAt ready.ready tx.transaction.hash = none
  joined : Joined tx.transaction ready afterReady

variable {given : T → Prop}

omit [DecidableEq T] in
theorem Satisfiable.closed (future : FutureTransactions H T) {tx : Transaction H T}
    (opens : future.Opens (future.Satisfiable given) tx) :
    ∀ tag ∈ tx.provides, future.Satisfiable given tag := by
  obtain ⟨waiting, stored, rfl, missing⟩ := opens
  exact fun tag mem => .promoted stored missing mem

/-- A pending transaction replaces nothing when promotions are quiet. -/
theorem Promoting.quietStep {tags : List T} {tx : WaitingTransaction H T}
    {afterFuture : FutureTransactions H T} {unlocked : List (WaitingTransaction H T)}
    (promoting : Promoting start (start.future.Satisfiable given) own Dropped future ready
      (tx :: pending)) (quiet : start.Quiet given tags) (begun : start.AtRest)
    (owned : ∀ other ∈ own, ∀ tag ∈ other.provides, tag ∈ tags)
    (round : Round order tx future ready afterFuture unlocked after result) :
    result = .ok [] ∧ QuietStep tx future ready afterFuture unlocked after := by
  obtain ⟨old, stored, same, missing⟩ := promoting.opens tx mem_cons_self
  have promotable : start.future.Promotable given old := ⟨by rw [same, stored], missing⟩
  have nothing : ready.replaceHashes tx.transaction = ∅ := by
    apply Finset.eq_empty_iff_forall_notMem.mpr
    intro hash member
    obtain ⟨tag, mem, mapped⟩ := mem_replaceHashes.mp member
    obtain ⟨ref, found, provides⟩ := promoting.consistent.provided.mapped_iff.mp mapped
    rw [← same] at mem
    rcases promoting.joined hash ref found with before | new | ⟨other, stored', equal, soon⟩
    · have taken := begun.provided.mem_iff.mpr ⟨hash, ref, before, provides⟩
      exact (quiet.free old promotable tag mem).1 taken
    · exact (quiet.free old promotable tag mem).2 (owned _ new tag provides)
    · by_cases self : old = other
      · have hashes : tx.transaction.hash = hash := by
          rw [← same, self, equal]
          exact promoting.consistent.provided.hash hash ref found
        have absent := round.fresh
        rw [hashes, found] at absent
        cases absent
      · exact quiet.distinct old other promotable ⟨by rw [equal, stored'], soon⟩ self tag mem
          (equal ▸ provides)
  obtain ⟨done, joined⟩ := round.outcome.joined nothing
  exact ⟨done, round.satisfied, round.fresh, joined⟩

end BasePool

end Brace.TransactionPool
