import Brace.TransactionPool.BasePool
import Brace.TransactionPool.FutureIndex
import Brace.TransactionPool.ProvidedTags

/-!
# The base pool returns on safe transactions

The pool is consistent when the future queue is indexed, the provided tags of the ready queue are
exact, and the two queues and the transactions on the way from one to the other have no hash in
common. Every operation of a consistent pool returns and leaves it consistent, as long as the
transactions it has met are safe (`Transaction.Safe`).
-/

namespace Brace.TransactionPool

open Brace.Lib ReadyTransactions FutureTransactions List Finmap HashMap

variable {H T : Type} [DecidableEq H] [DecidableEq T]

namespace BasePool

/-- The two queues are consistent, with some transactions still on the way to the ready queue. -/
structure Consistent (future : FutureTransactions H T) (ready : ReadyTransactions H T)
    (pending : List (WaitingTransaction H T)) : Prop where
  indexed : future.Indexed
  provided : Provided ∅ ready.providedTags ready.ready
  safe : ∀ hash tx, Finmap.lookup hash future.waiting = some tx → tx.transaction.Safe
  apart : ∀ hash ∈ future.waiting, refAt ready.ready hash = none
  pendingReady : ∀ tx ∈ pending, tx.isReady = true ∧ tx.transaction.Safe
  pendingApart : ∀ tx ∈ pending, tx.transaction.hash ∉ future.waiting ∧
    refAt ready.ready tx.transaction.hash = none
  nodup : (pending.map (·.transaction.hash)).Nodup

/-- The two queues are consistent and nothing is on the way. -/
abbrev AtRest (pool : BasePool H T) : Prop := Consistent pool.future pool.ready []

variable {future : FutureTransactions H T} {ready : ReadyTransactions H T}
  {pending : List (WaitingTransaction H T)} {tx : WaitingTransaction H T} {pool : BasePool H T}
  {order : Order H T} {hash : H}

section

variable (consistent : Consistent future ready pending)

include consistent

theorem Consistent.perm {other : List (WaitingTransaction H T)} (perm : pending.Perm other) :
    Consistent future ready other where
  __ := consistent
  pendingReady tx mem := consistent.pendingReady tx (perm.mem_iff.mpr mem)
  pendingApart tx mem := consistent.pendingApart tx (perm.mem_iff.mpr mem)
  nodup := ((perm.map _).nodup_iff).mp consistent.nodup

theorem Consistent.shrink {after : ReadyTransactions H T}
    (provided : Provided ∅ after.providedTags after.ready)
    (fewer : Within after.ready ready.ready) :
    Consistent future after pending := by
  have absent : ∀ hash, refAt ready.ready hash = none → refAt after.ready hash = none :=
    fun hash => eq_none_of_earlier (fewer hash)
  exact ⟨consistent.indexed, provided, consistent.safe,
    fun hash mem => absent hash (consistent.apart hash mem), consistent.pendingReady,
    fun tx mem => ⟨(consistent.pendingApart tx mem).1,
      absent _ (consistent.pendingApart tx mem).2⟩, consistent.nodup⟩

theorem Consistent.satisfyTags (order : Order H T) (tags : List T) :
    ∃ after unlocked, future.satisfyTags order tags = .ok (after, unlocked) ∧
      Consistent after ready (unlocked ++ pending) ∧
      unlocked.length + after.len = future.len := by
  obtain ⟨after, unlocked, ran, indexed, moved⟩ :=
    satisfyTags_returns order consistent.indexed tags
  refine ⟨after, unlocked, ran, ⟨indexed, consistent.provided, ?_, ?_, ?_, ?_, ?_⟩, moved.count⟩
  · intro hash tx stored
    obtain ⟨old, before, same⟩ := moved.kept hash tx stored
    exact same ▸ consistent.safe hash old before
  · intro hash mem
    obtain ⟨tx, stored⟩ := mem_iff.mp mem
    obtain ⟨old, before, -⟩ := moved.kept hash tx stored
    exact consistent.apart hash (mem_of_lookup_eq_some before)
  · intro tx mem
    rcases mem_append.mp mem with new | old
    · obtain ⟨waiting, before, same⟩ := moved.moved tx new
      exact ⟨moved.ready tx new, same ▸ consistent.safe _ waiting before⟩
    · exact consistent.pendingReady tx old
  · intro tx mem
    rcases mem_append.mp mem with new | old
    · obtain ⟨waiting, before, -⟩ := moved.moved tx new
      exact ⟨moved.gone tx new, consistent.apart _ (mem_of_lookup_eq_some before)⟩
    · refine ⟨fun still => ?_, (consistent.pendingApart tx old).2⟩
      obtain ⟨waiting, stored⟩ := mem_iff.mp still
      obtain ⟨earlier, before, -⟩ := moved.kept _ waiting stored
      exact (consistent.pendingApart tx old).1 (mem_of_lookup_eq_some before)
  · rw [map_append, nodup_append]
    refine ⟨moved.nodup, consistent.nodup, ?_⟩
    intro left leftInside right rightInside same
    obtain ⟨new, newInside, rfl⟩ := mem_map.mp leftInside
    obtain ⟨old, oldInside, rfl⟩ := mem_map.mp rightInside
    obtain ⟨waiting, before, -⟩ := moved.moved new newInside
    rw [same] at before
    exact (consistent.pendingApart old oldInside).1 (mem_of_lookup_eq_some before)

end

theorem Consistent.importTransaction (consistent : Consistent future ready (tx :: pending))
    (order : Order H T) :
    ∃ after outcome, ready.importTransaction order tx = .ok (after, outcome) ∧
      Consistent future after pending := by
  obtain ⟨isReady, safe⟩ := consistent.pendingReady tx mem_cons_self
  obtain ⟨outside, fresh⟩ := consistent.pendingApart tx mem_cons_self
  obtain ⟨differ, nodup⟩ := nodup_cons.mp consistent.nodup
  obtain ⟨after, outcome, ran, provided, earlier⟩ :=
    importTransaction_returns order consistent.provided isReady fresh safe
  have absent : ∀ hash, hash ≠ tx.transaction.hash → refAt ready.ready hash = none →
      refAt after.ready hash = none := by
    intro hash ne
    exact eq_none_of_earlier fun ref found => (earlier hash ref found).resolve_left ne
  refine ⟨after, outcome, ran, ⟨consistent.indexed, provided, consistent.safe, ?_, ?_, ?_, nodup⟩⟩
  · intro hash mem
    exact absent hash (fun same => outside (same ▸ mem)) (consistent.apart hash mem)
  · exact fun other mem => consistent.pendingReady other (mem_cons_of_mem _ mem)
  · intro other mem
    obtain ⟨elsewhere, free⟩ := consistent.pendingApart other (mem_cons_of_mem _ mem)
    refine ⟨elsewhere, absent _ (fun same => differ ?_) free⟩
    exact mem_map.mpr ⟨other, mem, same⟩

/-! ## Promotion -/

section

variable (order : Order H T)

theorem promoteNext_returns {state : Promotion H T}
    (consistent : Consistent state.future state.ready (tx :: pending)) :
    ∃ next pushed, promoteNext order state tx = .ok (next, pushed) ∧
      Consistent next.future next.ready (pushed ++ pending) ∧
      pushed.length + next.future.len ≤ state.future.len := by
  obtain ⟨future, unlocked, satisfied, moved, counted⟩ :=
    consistent.satisfyTags order tx.transaction.provides
  obtain ⟨ready, outcome, imported, after⟩ :=
    (moved.perm perm_middle).importTransaction order
  have left := after.perm ((reverse_perm unlocked).symm.append_right pending)
  simp only [promoteNext, satisfied, ok_bind, imported]
  cases outcome with
  | ok replaced | error error =>
    exact ⟨_, _, rfl, left, by rw [length_reverse]; exact counted.le⟩

theorem importToReady_returns (consistent : Consistent pool.future pool.ready (tx :: pending)) :
    ∃ after outcome, pool.importToReady order tx = .ok (after, outcome) ∧
      Consistent after.future after.ready pending := by
  obtain ⟨future, unlocked, satisfied, moved, -⟩ :=
    consistent.satisfyTags order tx.transaction.provides
  obtain ⟨ready, outcome, imported, after⟩ :=
    (moved.perm perm_middle).importTransaction order
  simp only [importToReady, satisfied, ok_bind, imported]
  cases outcome with
  | error error =>
    refine ⟨_, _, rfl, ⟨after.indexed, after.provided, after.safe, after.apart, ?_, ?_, ?_⟩⟩
    · exact fun other mem => after.pendingReady other (mem_append_right _ mem)
    · exact fun other mem => after.pendingApart other (mem_append_right _ mem)
    · have both := after.nodup
      rw [map_append] at both
      exact (nodup_append.mp both).2.1
  | ok replaced =>
    let inv := fun (state : Promotion H T) (stack : List (WaitingTransaction H T)) =>
      Consistent state.future state.ready (stack ++ pending)
    have start : inv { future, ready, removed := replaced } unlocked.reverse :=
      after.perm ((reverse_perm unlocked).symm.append_right pending)
    have round : ∀ state other rest, inv state (other :: rest) → ∃ next pushed,
        promoteNext order state other = .ok (next, pushed) ∧ inv next (pushed ++ rest) ∧
          pushed.length + next.future.len ≤ state.future.len := by
      intro state other rest kept
      have top : Consistent state.future state.ready (other :: (rest ++ pending)) := kept
      obtain ⟨next, pushed, ran, left, counted⟩ := promoteNext_returns order top
      exact ⟨next, pushed, ran, by rwa [← append_assoc] at left, counted⟩
    obtain ⟨last, ended, kept⟩ := worklist_returns
      round start (le_of_eq (by rw [length_reverse]))
    simp only [ended, ok_bind]
    split
    · obtain ⟨left, removed, ran, provided, -, fewer⟩ :=
        removeSubtree_returns kept.provided last.promoted
      simp only [ran, ok_bind]
      exact ⟨_, _, rfl, kept.shrink provided fewer⟩
    · exact ⟨_, _, rfl, kept⟩

theorem AtRest.pend (consistent : pool.AtRest) (ready : tx.isReady = true)
    (safe : tx.transaction.Safe) (notWaiting : tx.transaction.hash ∉ pool.future.waiting)
    (notReady : tx.transaction.hash ∉ pool.ready.ready) :
    Consistent pool.future pool.ready [tx] where
  __ := consistent
  pendingReady _ mem := List.mem_singleton.mp mem ▸ ⟨ready, safe⟩
  pendingApart _ mem := List.mem_singleton.mp mem ▸ ⟨notWaiting, refAt_eq_none.mpr notReady⟩
  nodup := List.nodup_singleton _

/-- The transaction is new and has all its requirements, so an import takes it to the ready
queue. -/
def Admits (pool : BasePool H T) (tx : Transaction H T) : Prop :=
  tx.hash ∉ pool.future.waiting ∧ tx.hash ∉ pool.ready.ready ∧
    ∀ tag ∈ tx.requires, tag ∈ pool.ready.providedTags ∨
      ∃ pruned ∈ pool.recentlyPruned.toList, tag ∈ pruned

omit [DecidableEq H] in
theorem isReady_new {tx : Transaction H T} {provided : HashMap T H} {pruned : List (Finset T)}
    (now : Nat) : (WaitingTransaction.new tx provided pruned now).isReady = true ↔
      ∀ tag ∈ tx.requires, tag ∈ provided ∨ ∃ tags ∈ pruned, tag ∈ tags := by
  simp [WaitingTransaction.isReady, WaitingTransaction.new, or_iff_not_imp_left]

variable {tx : Transaction H T} (now : Nat)

theorem importTransaction_admitted (admits : pool.Admits tx) :
    ∃ waiting, waiting.transaction = tx ∧ waiting.isReady = true ∧
      waiting = .new tx pool.ready.providedTags pool.recentlyPruned.toList now ∧
      pool.importTransaction order tx now = pool.importToReady order waiting := by
  obtain ⟨notWaiting, notReady, available⟩ := admits
  have ready := (isReady_new now).mpr available
  refine ⟨_, rfl, ready, rfl, ?_⟩
  simp [BasePool.importTransaction, FutureTransactions.contains, ReadyTransactions.contains,
    notWaiting, notReady, ready]

/-- The import of a transaction that is not admitted returns an error and leaves the pool, or
puts the transaction in the future queue. -/
theorem importTransaction_not_admitted (indexed : pool.future.Indexed)
    (refused : ¬ pool.Admits tx) :
    (∃ error, pool.importTransaction order tx now = .ok (pool, .error error)) ∨
      ∃ waiting future, waiting.transaction = tx ∧ tx.hash ∉ pool.future.waiting ∧
        tx.hash ∉ pool.ready.ready ∧
        waiting = .new tx pool.ready.providedTags pool.recentlyPruned.toList now ∧
        waiting.isReady = false ∧ future.Indexed ∧
        future.waiting = pool.future.waiting.insert tx.hash waiting ∧
        pool.importTransaction order tx now =
          .ok ({ pool with future }, .ok (.future tx.hash)) := by
  unfold BasePool.importTransaction
  split
  · exact .inl ⟨_, rfl⟩
  · rename_i known
    simp only [FutureTransactions.contains, ReadyTransactions.contains, Bool.or_eq_true,
      decide_eq_true_eq, not_or] at known
    obtain ⟨notWaiting, notReady⟩ := known
    have missing : (WaitingTransaction.new tx pool.ready.providedTags
        pool.recentlyPruned.toList now).isReady = false := by
      rw [← Bool.not_eq_true]
      exact fun ready => refused ⟨notWaiting, notReady, (isReady_new now).mp ready⟩
    dsimp only
    rw [if_pos (by rw [missing]; exact Bool.false_ne_true)]
    split
    · exact .inl ⟨_, rfl⟩
    · obtain ⟨future, imported, indexed, waiting⟩ :=
        FutureTransactions.importTransaction_returns order indexed missing notWaiting
      refine .inr ⟨_, future, rfl, notWaiting, notReady, rfl, missing, indexed, waiting, ?_⟩
      rw [imported, ok_bind]

theorem importTransaction_returns (consistent : pool.AtRest) (safe : tx.Safe) :
    ∃ after outcome, pool.importTransaction order tx now = .ok (after, outcome) ∧
      after.AtRest := by
  by_cases admits : pool.Admits tx
  · obtain ⟨waiting, rfl, ready, -, goes⟩ := importTransaction_admitted order now admits
    rw [goes]
    exact importToReady_returns order (consistent.pend ready safe admits.1 admits.2.1)
  · rcases importTransaction_not_admitted order now consistent.indexed admits with
      ⟨error, ran⟩ | ⟨added, future, rfl, -, notReady, -, -, indexed, waiting, ran⟩
    · exact ⟨pool, _, ran, consistent⟩
    · refine ⟨_, _, ran, ⟨indexed, consistent.provided, ?_, ?_, by simp, by simp, by simp⟩⟩
      · intro hash found stored
        rw [waiting, lookup_insert_eq] at stored
        split at stored
        · rw [← Option.some.inj stored]
          exact safe
        · exact consistent.safe hash found stored
      · intro hash mem
        rw [waiting, mem_insert] at mem
        rcases mem with rfl | before
        · exact refAt_eq_none.mpr notReady
        · exact consistent.apart hash before

/-! ## Removal and limits -/

/-- `remove_subtree` returns and takes the given transactions out of both queues. -/
theorem removeSubtree_returns (hashes : List H) (consistent : pool.AtRest) :
    ∃ after removed, pool.removeSubtree order hashes = .ok (after, removed) ∧
      after.AtRest ∧
      (∀ hash ∈ hashes, refAt after.ready.ready hash = none) ∧
      Within after.ready.ready pool.ready.ready ∧
      after.future.waiting = pool.future.waiting.eraseAll hashes := by
  obtain ⟨ready, removed, ran, provided, gone, fewer⟩ :=
    ReadyTransactions.removeSubtree_returns consistent.provided hashes
  obtain ⟨indexed, waiting⟩ := remove_indexed order consistent.indexed hashes
  have shrunk := consistent.shrink provided fewer
  have safe : ∀ hash tx, (pool.future.remove order hashes).1.waiting.lookup hash = some tx →
      tx.transaction.Safe := by
    intro hash tx stored
    rw [waiting, lookup_eraseAll] at stored
    split at stored
    · cases stored
    · exact consistent.safe hash tx stored
  have apart : ∀ hash ∈ (pool.future.remove order hashes).1.waiting,
      refAt ready.ready hash = none := by
    intro hash mem
    rw [waiting, mem_eraseAll] at mem
    exact shrunk.apart hash mem.1
  rw [BasePool.removeSubtree, ran, ok_bind]
  exact ⟨_, _, rfl, ⟨indexed, provided, safe, apart, by simp, by simp, by simp⟩, gone, fewer,
    waiting⟩

/-- What a removal of one transaction does to the two queues. -/
structure Removes (hash : H) (pool after : BasePool H T) : Prop where
  gone : refAt after.ready.ready hash = none
  fewer : ∀ other ref, refAt after.ready.ready other = some ref →
    refAt pool.ready.ready other = some ref
  waiting : after.future.waiting = Finmap.erase hash pool.future.waiting

/-- A loop of `enforce_limits` returns. Its bound is enough: it ends only when the limit holds
or no transaction is left. -/
theorem enforceLimit_returns {exceeded : BasePool H T → Bool} {worst : BasePool H T → Option H}
    {size : BasePool H T → Nat} (shrinks : ∀ pool hash, pool.AtRest → worst pool = some hash →
      0 < size pool ∧ ∀ after, Removes hash pool after → size after < size pool) {rounds : Nat}
    (removed : List (Transaction H T)) (consistent : pool.AtRest) (enough : size pool ≤ rounds) :
    ∃ after more, enforceLimit order exceeded worst rounds (pool, removed) = .ok (after, more) ∧
      after.AtRest ∧ (exceeded after = false ∨ worst after = none) := by
  induction rounds generalizing pool removed with
  | zero =>
    refine ⟨pool, removed, rfl, consistent, .inr ?_⟩
    cases found : worst pool with
    | none => rfl
    | some hash =>
      have pos := (shrinks pool hash consistent found).1
      omega
  | succ rounds ih =>
    unfold enforceLimit
    split
    · cases found : worst pool with
      | none => exact ⟨pool, removed, rfl, consistent, .inr found⟩
      | some hash =>
        obtain ⟨next, more, ran, kept, gone, fewer, waiting⟩ :=
          removeSubtree_returns order [hash] consistent
        have smaller := (shrinks pool hash consistent found).2 next
          ⟨gone hash mem_cons_self, fewer, waiting⟩
        simp only [ran, ok_bind]
        exact ih (removed ++ more) kept (by omega)
    · rename_i within
      exact ⟨pool, removed, rfl, consistent, .inl (Bool.not_eq_true _ ▸ within)⟩

theorem enforceLimit_invariant {exceeded : BasePool H T → Bool} {worst : BasePool H T → Option H}
    (Inv : BasePool H T × List (Transaction H T) → Prop)
    (removal : ∀ pool removed hash next more, Inv (pool, removed) → worst pool = some hash →
      pool.removeSubtree order [hash] = .ok (next, more) → Inv (next, removed ++ more))
    {rounds : Nat} {state last} (start : Inv state)
    (ran : enforceLimit order exceeded worst rounds state = .ok last) : Inv last := by
  fun_induction enforceLimit order exceeded worst rounds state with
  | case1 | case2 | case4 => exact Except.ok.inj ran ▸ start
  | case3 rounds pool removed full hash found ih =>
    obtain ⟨⟨next, more⟩, called, later⟩ := bind_eq_ok.mp ran
    exact ih next more (removal pool removed hash next more start found called) later

end

theorem foldl_choice {α R : Type} {f : Option R → α → Option R} {view : α → R}
    (chooses : ∀ minimal current,
      f minimal current = some (view current) ∨ f minimal current = minimal)
    {values : List α} {start : Option R} {chosen : R} (found : values.foldl f start = some chosen) :
    (∃ value ∈ values, view value = chosen) ∨ start = some chosen := by
  induction values generalizing start with
  | nil => exact .inr found
  | cons first rest ih =>
    rcases ih found with ⟨value, later, same⟩ | now
    · exact .inl ⟨value, mem_cons_of_mem _ later, same⟩
    · rcases chooses start first with here | before
      · exact .inl ⟨first, mem_cons_self, Option.some.inj (here.symm.trans now)⟩
      · exact .inr (before ▸ now)

theorem mem_of_worstReady (consistent : pool.AtRest) (found : worstReady order pool = some hash) :
    hash ∈ pool.ready.ready := by
  obtain ⟨ref, folded, rfl⟩ := Option.map_eq_some_iff.mp found
  rcases foldl_choice (fun | none, _ => .inl rfl | some _, _ => ite_eq_or_eq _ _ _) folded with
    ⟨tx, mem, rfl⟩ | start
  · obtain ⟨name, -, stored⟩ := mem_filterMap.mp mem
    have named := consistent.provided.hash name tx.transaction (by rw [refAt, stored]; rfl)
    rw [named]
    exact mem_of_lookup_eq_some stored
  · cases start

theorem mem_of_worstFuture (consistent : pool.AtRest) (found : worstFuture order pool = some hash) :
    hash ∈ pool.future.waiting := by
  obtain ⟨chosen, folded, rfl⟩ := Option.map_eq_some_iff.mp found
  rcases foldl_choice (fun | none, _ => .inl rfl | some _, _ => ite_eq_or_eq _ _ _) folded with
    ⟨tx, mem, rfl⟩ | start
  · obtain ⟨name, -, stored⟩ := mem_filterMap.mp mem
    rw [consistent.indexed.hash name tx stored]
    exact mem_of_lookup_eq_some stored
  · cases start

theorem enforceLimits_returns (order : Order H T) (ready future : Limit)
    (consistent : pool.AtRest) :
    ∃ after removed, pool.enforceLimits order ready future = .ok (after, removed) ∧
      after.AtRest := by
  have readyShrinks : ∀ pool hash, pool.AtRest →
      worstReady order pool = some hash → 0 < pool.ready.len ∧
        ∀ after, Removes hash pool after → after.ready.len < pool.ready.len := by
    intro pool hash consistent found
    have mem := Finmap.mem_keys.mpr (mem_of_worstReady consistent found)
    refine ⟨Finset.card_pos.mpr ⟨hash, mem⟩, fun after removes => ?_⟩
    apply Finset.card_lt_card
    refine Finset.ssubset_iff_of_subset ?_ |>.mpr ⟨hash, mem, ?_⟩
    · intro other member
      rw [Finmap.mem_keys] at member ⊢
      by_contra absent
      have before := eq_none_of_earlier (removes.fewer other) (refAt_eq_none.mpr absent)
      exact refAt_eq_none.mp before member
    · rw [Finmap.mem_keys]
      exact refAt_eq_none.mp removes.gone
  have futureShrinks : ∀ pool hash, pool.AtRest →
      worstFuture order pool = some hash → 0 < pool.future.len ∧
        ∀ after, Removes hash pool after → after.future.len < pool.future.len := by
    intro pool hash consistent found
    have mem := Finmap.mem_keys.mpr (mem_of_worstFuture consistent found)
    refine ⟨Finset.card_pos.mpr ⟨hash, mem⟩, fun after removes => ?_⟩
    rw [FutureTransactions.len, removes.waiting, Finmap.keys_erase]
    exact Finset.card_lt_card (Finset.erase_ssubset mem)
  obtain ⟨middle, removed, first, between, -⟩ := enforceLimit_returns order
    readyShrinks [] consistent le_rfl
  obtain ⟨after, all, second, kept, -⟩ := enforceLimit_returns order
    futureShrinks removed between le_rfl
  refine ⟨after, all, ?_, kept⟩
  rw [enforceLimits, first, ok_bind]
  exact second

/-! ## Pruning -/

theorem pruneTag_returns (order : Order H T) {state : Pruning H T} (tag : T)
    (consistent : Consistent state.future state.ready state.toImport) :
    ∃ next, pruneTag order state tag = .ok next ∧
      Consistent next.future next.ready next.toImport := by
  obtain ⟨future, unlocked, satisfied, moved, -⟩ := consistent.satisfyTags order [tag]
  obtain ⟨ready, pruned, ran, provided, fewer⟩ := pruneTags_returns moved.provided tag
  simp only [pruneTag, satisfied, ok_bind, ran]
  exact ⟨_, rfl, (moved.perm perm_append_comm).shrink provided fewer⟩

/-- `prune_tags` returns when each of its two loops keeps an invariant, and the second one starts
where the first one ends. -/
theorem pruneTags_loops {order : Order H T} {tags : List T} (Pruned : Pruning H T → Prop)
    (Promoted : Pruning H T → BasePool H T × PruneStatus H T → List (WaitingTransaction H T) →
      Prop) (start : Pruned { future := pool.future, ready := pool.ready })
    (prune : ∀ state, ∀ tag ∈ tags, Pruned state →
      ∃ next, pruneTag order state tag = .ok next ∧ Pruned next)
    (between : ∀ state, Pruned state → Promoted state
      ({ pool with
          future := state.future
          ready := state.ready
          recentlyPruned := pool.remember state.recentlyPruned
          recentlyPrunedIndex := pool.recentlyPrunedIndex + 1 }, { pruned := state.pruned })
      state.toImport)
    (promote : ∀ state now tx rest, Promoted state now (tx :: rest) →
      ∃ next, promoteOne order now tx = .ok next ∧ Promoted state next rest) :
    ∃ state after status, pool.pruneTags order tags = .ok (after, status) ∧ Pruned state ∧
      Promoted state (after, status) [] := by
  obtain ⟨state, first, kept⟩ := foldlM_list (fun state _ => Pruned state) tags start
    fun state tag mem _ => prune state tag mem
  obtain ⟨last, second, done⟩ := foldlM_list (Promoted state) state.toImport (between state kept)
    fun now tx _ => promote state now tx
  refine ⟨state, last.1, last.2, ?_, kept, done⟩
  rw [BasePool.pruneTags, first, ok_bind]
  exact second

theorem pruneTags_returns (order : Order H T) (tags : List T) (consistent : pool.AtRest) :
    ∃ after status, pool.pruneTags order tags = .ok (after, status) ∧
      after.AtRest := by
  obtain ⟨-, after, status, ran, -, kept⟩ := pruneTags_loops
    (fun state => Consistent state.future state.ready state.toImport)
    (fun _ now rest => Consistent now.1.future now.1.ready rest) consistent
    (fun _ tag _ => pruneTag_returns order tag) (fun _ kept => kept)
    fun _ _ _ _ consistent => by
      obtain ⟨after, outcome, ran, kept⟩ := importToReady_returns order consistent
      simp only [promoteOne, ran, ok_bind]
      cases outcome with
      | ok imported | error error => exact ⟨_, rfl, kept⟩
  exact ⟨after, status, ran, kept⟩

/-! ## Runs -/

inductive Op (H T : Type)
  | importTransaction (order : Order H T) (tx : Transaction H T) (now : Nat)
  | removeSubtree (order : Order H T) (hashes : List H)
  | pruneTags (order : Order H T) (tags : List T)
  | enforceLimits (order : Order H T) (ready future : Limit)
  | clearFuture (order : Order H T)

/-- One operation, without its result. -/
def step (pool : BasePool H T) : Op H T → Except Panic (BasePool H T)
  | .importTransaction order tx now => (·.1) <$> pool.importTransaction order tx now
  | .removeSubtree order hashes => (·.1) <$> pool.removeSubtree order hashes
  | .pruneTags order tags => (·.1) <$> pool.pruneTags order tags
  | .enforceLimits order ready future => (·.1) <$> pool.enforceLimits order ready future
  | .clearFuture order => .ok (pool.clearFuture order).1

variable (allowed : Transaction H T → Prop)

/-- The transactions that an operation brings satisfy a condition. -/
def Op.Brings : Op H T → Prop
  | .importTransaction _ tx _ => allowed tx
  | _ => True

instance [DecidablePred allowed] (op : Op H T) : Decidable (op.Brings allowed) :=
  match op with
  | .importTransaction _ tx _ => inferInstanceAs (Decidable (allowed tx))
  | .removeSubtree .. | .pruneTags .. | .enforceLimits .. | .clearFuture _ =>
    inferInstanceAs (Decidable True)

/-- **Safe step.** An operation of a consistent pool that brings no unsafe transaction returns. -/
theorem step_returns {op : Op H T} (consistent : pool.AtRest) (safe : op.Brings Transaction.Safe) :
    ∃ next, step pool op = .ok next ∧ next.AtRest := by
  cases op with
  | importTransaction order tx now =>
    obtain ⟨after, outcome, ran, kept⟩ :=
      importTransaction_returns order now consistent safe
    exact ⟨after, by rw [step, ran]; rfl, kept⟩
  | removeSubtree order hashes =>
    obtain ⟨after, removed, ran, kept, -⟩ := removeSubtree_returns order hashes consistent
    exact ⟨after, by rw [step, ran]; rfl, kept⟩
  | pruneTags order tags =>
    obtain ⟨after, status, ran, kept⟩ := pruneTags_returns order tags consistent
    exact ⟨after, by rw [step, ran]; rfl, kept⟩
  | enforceLimits order ready future =>
    obtain ⟨after, removed, ran, kept⟩ := enforceLimits_returns order ready future consistent
    exact ⟨after, by rw [step, ran]; rfl, kept⟩
  | clearFuture order =>
    refine ⟨_, rfl, ⟨indexed_empty, consistent.provided, ?_, ?_, by simp, by simp, by simp⟩⟩
    · intro hash tx stored
      cases stored
    · intro hash mem
      exact absurd mem notMem_empty

theorem consistent_new (reject : Bool) :
    Consistent (new reject : BasePool H T).future (new reject : BasePool H T).ready [] where
  indexed := indexed_empty
  provided := provided_empty
  safe hash tx stored := nomatch stored
  apart hash mem := absurd mem Finmap.notMem_empty
  pendingReady := by simp
  pendingApart := by simp
  nodup := List.nodup_nil

theorem consistent_of_reachable {reject : Bool}
    (reached : Reachable step (fun _ op => op.Brings Transaction.Safe) (new reject) pool) :
    pool.AtRest := by
  let inv := fun pool : BasePool H T => pool.AtRest
  have kept : inv pool := by
    refine reached.invariant (consistent_new reject) ?_
    intro state op next consistent allowed ran
    obtain ⟨after, stepped, kept⟩ := step_returns consistent allowed
    obtain rfl := Except.ok.inj (stepped.symm.trans ran)
    exact kept
  exact kept

end BasePool

end Brace.TransactionPool
