import Brace.TransactionPool.Reports

/-!
# Ready means ready

A ready transaction should have each of its required tags provided by another ready one or pruned
before, and a waiting one should miss something, and nothing that a ready one provides. Both hold
in the runs whose steps are named by `KeepsReady`. The first half needs more than the missing tags
that the future queue keeps: a waiting transaction no longer misses a tag whose provider has left
the pool since. `Settled` is the joint invariant of the two queues.
-/

namespace Brace.TransactionPool.BasePool

open Brace.Lib ReadyTransactions FutureTransactions List Finmap

variable {H T : Type} [DecidableEq H] [DecidableEq T]

/-- The two queues say what they should, given the tags pruned so far. -/
structure ReadyMeansReady (pruned : Finset T) (pool : BasePool H T) : Prop where
  ready : ∀ hash ref, refAt pool.ready.ready hash = some ref → ∀ tag ∈ ref.transaction.requires,
    tag ∈ pruned ∨ ∃ other, other ≠ hash ∧ pool.ready.Provides tag other
  future : ∀ hash tx, Finmap.lookup hash pool.future.waiting = some tx → tx.missingTags ≠ ∅ ∧
    ∀ tag ∈ tx.missingTags, ∀ other, ¬ pool.ready.Provides tag other

/-! ## The joint invariant -/

variable (pruned : T → Prop)

/-- Each required tag is missing, was pruned, or is provided by a ready transaction. -/
def Grounded (ready : ReadyTransactions H T) (tx : WaitingTransaction H T) : Prop :=
  ∀ tag ∈ tx.transaction.requires, tag ∈ tx.missingTags ∨ pruned tag ∨ tag ∈ ready.providedTags

/-- The joint invariant of the two queues and the transactions on the way between them. -/
structure Settled (future : FutureTransactions H T) (ready : ReadyTransactions H T)
    (pending : List (WaitingTransaction H T)) : Prop where
  supported : Supported pruned ready.ready
  grounded : ∀ hash tx, Finmap.lookup hash future.waiting = some tx → Grounded pruned ready tx
  pendingGrounded : ∀ tx ∈ pending, Grounded pruned ready tx
  missing : ∀ hash tx, Finmap.lookup hash future.waiting = some tx → tx.missingTags ≠ ∅ ∧
    ∀ tag ∈ tx.missingTags, tag ∉ ready.providedTags

/-- The joint invariant with nothing on the way. -/
abbrev SettledFor (pool : BasePool H T) : Prop :=
  Settled pruned pool.future pool.ready []

variable {pruned : T → Prop} {future after : FutureTransactions H T}
  {ready next : ReadyTransactions H T} {pending : List (WaitingTransaction H T)}

variable {tags : List T} {unlocked : List (WaitingTransaction H T)} {tx : Transaction H T}
  {pool : BasePool H T} {waiting : WaitingTransaction H T} {hashes : List H} {order : Order H T}
  {removed : List (Transaction H T)}

/-- Tags are satisfied and the ready queue changes: the invariant is kept when the satisfied tags
are available afterwards, together with the provided tags that a waiting transaction requires. -/
theorem Settled.advance (settled : Settled pruned future ready pending) {tags : Finset T}
    {rest : List (WaitingTransaction H T)} (satisfied : Satisfied tags future after unlocked)
    (supported : Supported pruned next.ready)
    (available : ∀ tag ∈ tags, pruned tag ∨ tag ∈ next.providedTags)
    (stays : ∀ tx, (∃ hash, future.waiting.lookup hash = some tx) ∨ tx ∈ rest →
      ∀ tag ∈ tx.transaction.requires, tag ∈ ready.providedTags →
        pruned tag ∨ tag ∈ next.providedTags)
    (new : ∀ tag ∈ next.providedTags, tag ∈ ready.providedTags ∨ tag ∈ tags)
    (fewer : ∀ tx ∈ rest, tx ∈ pending) : Settled pruned after next (unlocked ++ rest) where
  supported := supported
  grounded hash tx stored := by
    rw [satisfied.waiting] at stored
    obtain ⟨old, before, left⟩ := Option.bind_eq_some_iff.mp stored
    obtain rfl := leftOver_eq_some left
    intro tag required
    rcases settled.grounded hash old before tag required with missing | known | provided
    · by_cases given : tag ∈ tags
      · exact .inr (available tag given)
      · exact .inl (Finset.mem_sdiff.mpr ⟨missing, given⟩)
    · exact .inr (.inl known)
    · exact .inr (stays old (.inl ⟨hash, before⟩) tag required provided)
  pendingGrounded tx mem := by
    rcases mem_append.mp mem with moved | later
    · obtain ⟨hash, old, before, gone, rfl⟩ := (satisfied.unlocked tx).mp moved
      intro tag required
      rcases settled.grounded hash old before tag required with missing | known | provided
      · exact .inr (available tag (subset_of_leftOver_eq_none gone missing))
      · exact .inr (.inl known)
      · exact .inr (stays old (.inl ⟨hash, before⟩) tag required provided)
    · intro tag required
      rcases settled.pendingGrounded tx (fewer tx later) tag required with
        missing | known | provided
      · exact .inl missing
      · exact .inr (.inl known)
      · exact .inr (stays tx (.inr later) tag required provided)
  missing hash tx stored := by
    rw [satisfied.waiting] at stored
    obtain ⟨old, before, left⟩ := Option.bind_eq_some_iff.mp stored
    obtain ⟨some, apart⟩ := settled.missing hash old before
    obtain rfl := leftOver_eq_some left
    refine ⟨fun nothing => ?_, fun tag mem provided => ?_⟩
    · rw [leftOver, if_pos ⟨some, Finset.sdiff_eq_empty_iff_subset.mp nothing⟩] at left
      cases left
    · obtain ⟨missing, other⟩ := Finset.mem_sdiff.mp mem
      exact (new tag provided).elim (apart tag missing) other

omit [DecidableEq T] in
theorem Settled.perm {other : List (WaitingTransaction H T)}
    (settled : Settled pruned future ready pending) (perm : pending.Perm other) :
    Settled pruned future ready other where
  __ := settled
  pendingGrounded tx mem := settled.pendingGrounded tx (perm.mem_iff.mpr mem)

theorem Settled.quietStep {tx : WaitingTransaction H T}
    (consistent : Consistent future ready (tx :: pending))
    (settled : Settled pruned future ready (tx :: pending))
    (quietly : QuietStep tx future ready after unlocked next) :
    Settled pruned after next (unlocked.reverse ++ pending) := by
  have provided := Placed.provided quietly.joined
  have nothing : tx.missingTags = ∅ :=
    of_decide_eq_true (consistent.pendingReady tx mem_cons_self).1
  have required : ∀ tag ∈ tx.transaction.requires, pruned tag ∨ tag ∈ ready.providedTags := by
    intro tag inside
    rcases settled.pendingGrounded tx mem_cons_self tag inside with missing | other
    · rw [nothing] at missing
      exact absurd missing (Finset.notMem_empty tag)
    · exact other
  have mem : ∀ tag, tag ∈ next.providedTags ↔
      tag ∈ tx.transaction.provides ∨ tag ∈ ready.providedTags := by
    intro tag
    rw [HashMap.mem_iff_lookup_ne, provided, HashMap.mem_iff_lookup_ne]
    split
    · rename_i own
      simp [own]
    · rename_i other
      simp [other]
  have supported := quietly.joined.supported consistent.provided quietly.fresh settled.supported
    required
  refine Settled.perm (settled.advance quietly.satisfied supported ?_ ?_ ?_
    fun other inside => mem_cons_of_mem _ inside)
    ((reverse_perm unlocked).symm.append_right pending)
  · exact fun tag inside => .inr ((mem tag).mpr (.inl (mem_toFinset.mp inside)))
  · exact fun other _ tag _ before => .inr ((mem tag).mpr (.inr before))
  · exact fun tag inside => ((mem tag).mp inside).symm.imp_right mem_toFinset.mpr

section

variable {start : BasePool H T} {given : T → Prop} {own : List (Transaction H T)}
  {Dropped : Transaction H T → Prop} (begun : start.AtRest) (quiet : start.Quiet given tags)
  (owned : ∀ other ∈ own, ∀ tag ∈ other.provides, tag ∈ tags)

include begun quiet owned

theorem importToReady_settled
    (satisfied : pool.future.satisfyTags order waiting.transaction.provides =
      .ok (future, unlocked))
    (imported : pool.ready.importTransaction order waiting = .ok (ready, .ok removed))
    (promoting : Promoting start (start.future.Satisfiable given) own
      (fun other => Dropped other ∨ other ∈ removed) future ready (unlocked.reverse ++ pending))
    (settled : Settled pruned future ready (unlocked.reverse ++ pending))
    (others : ∀ other ∈ removed, other.hash ≠ waiting.transaction.hash) :
    ∃ lastFuture lastReady imported, pool.importToReady order waiting =
        .ok ({ pool with future := lastFuture, ready := lastReady }, .ok imported) ∧
      Promoting start (start.future.Satisfiable given) own (fun _ => True) lastFuture lastReady
        pending ∧ Settled pruned lastFuture lastReady pending := by
  let keeps := fun (state : Promotion H T) (pending : List (WaitingTransaction H T)) =>
    Settled pruned state.future state.ready pending ∧ state.removed = removed
  obtain ⟨last, ended, ⟨kept, same⟩, returned⟩ := importToReady_promotes
    (fun tx => Satisfiable.closed start.future) keeps (by
      rintro _ state tx rest future unlocked ready result promoting ⟨settled, same⟩ round -
      obtain ⟨rfl, quietly⟩ := promoting.quietStep quiet begun owned round
      exact ⟨settled.quietStep promoting.consistent quietly, by simp [Promotion.record, same]⟩)
    satisfied imported promoting ⟨settled, rfl⟩
  have apart : ¬ ∃ other ∈ last.removed, other.hash = waiting.transaction.hash := by
    rintro ⟨other, mem, hash⟩
    exact others other (same ▸ mem) hash
  rw [if_neg apart] at returned
  exact ⟨_, _, _, returned, ended.mono (fun _ given => given) fun _ _ => trivial, kept⟩

end

/-! ## The steps that keep it -/

variable (pool)

/-- The transactions that a removal from the given ones may visit provide no tag, outside the kept
ones, that a waiting transaction other than the exempt ones requires. -/
def Spares (roots : H → Prop) (kept : List T) (exempt : List H) : Prop :=
  ∀ hash, Below pool.ready.ready roots hash → ∀ ref, refAt pool.ready.ready hash = some ref →
    ∀ tag ∈ ref.transaction.provides, tag ∉ kept →
      ∀ other waiting, Finmap.lookup other pool.future.waiting = some waiting → other ∉ exempt →
        tag ∉ waiting.transaction.requires

/-- An import that keeps ready transactions ready: when it is refused, nothing waits for its tags;
otherwise the promotions are quiet, and the transactions that it may displace provide no tag that
the new transaction or a waiting one requires. -/
def ImportKeepsReady (tx : Transaction H T) : Prop :=
  pool.Admits tx → (pool.ready.Refused tx → pool.Unwanted tx.provides) ∧
    (¬ pool.ready.Refused tx → pool.Quiet (· ∈ tx.provides) tx.provides ∧
      pool.Spares (· ∈ pool.ready.replaceHashes tx) tx.provides [] ∧
      ∀ hash, Below pool.ready.ready (· ∈ pool.ready.replaceHashes tx) hash → ∀ ref,
        refAt pool.ready.ready hash = some ref → ∀ tag ∈ ref.transaction.provides,
          tag ∉ tx.requires)

/-- A prune that keeps ready transactions ready: the promotions are quiet, and the tags given
include every tag of the transactions that it may take out. -/
def PruneKeepsReady (tags : List T) : Prop :=
  pool.Quiet (· ∈ tags) [] ∧
    ∀ hash, Upstream pool.ready (· ∈ tags) hash → ∀ ref, refAt pool.ready.ready hash = some ref →
      ∀ tag ∈ ref.transaction.provides, tag ∈ tags

/-- The operation keeps ready transactions ready. -/
def KeepsReady : Op H T → Prop
  | .importTransaction _ tx _ => pool.ImportKeepsReady tx
  | .removeSubtree _ hashes => pool.Spares (· ∈ hashes) [] hashes
  | .pruneTags _ tags => pool.PruneKeepsReady tags
  | .enforceLimits _ ready _ => ready.isExceeded pool.ready.len pool.ready.bytes = false ∨
      pool.Spares (fun _ => True) [] []
  | .clearFuture _ => True

variable {pool}

/-- The tags that an operation prunes. -/
def Op.prunedTags : Op H T → List T
  | .pruneTags _ tags => tags
  | _ => []

/-- One operation, with a record of the tags pruned so far. -/
def recordedStep (state : BasePool H T × Finset T) (op : Op H T) :
    Except Panic (BasePool H T × Finset T) := do
  let pool ← step state.1 op
  .ok (pool, state.2 ∪ op.prunedTags.toFinset)

/-- The tags that the pool remembers as pruned were pruned. -/
def Remembers (pruned : T → Prop) (pool : BasePool H T) : Prop :=
  ∀ tags ∈ pool.recentlyPruned.toList, ∀ tag ∈ tags, pruned tag

/-! ## Import -/

theorem Settled.congr {other : BasePool H T} (settled : pool.SettledFor pruned)
    (same : SameQueues pool other) : other.SettledFor pruned where
  supported := same.ready ▸ settled.supported
  grounded hash tx stored tag required := by
    rw [same.waiting] at stored
    rw [same.provided]
    exact settled.grounded hash tx stored tag required
  pendingGrounded tx mem := absurd mem not_mem_nil
  missing hash tx stored := by
    rw [same.waiting] at stored
    rw [same.provided]
    exact settled.missing hash tx stored

theorem accepted_import_settled (order : Order H T) (consistent : pool.AtRest)
    (settled : pool.SettledFor pruned) (remembers : pool.Remembers pruned)
    (admits : pool.Admits waiting.transaction) (isReady : waiting.isReady = true)
    (safe : waiting.transaction.Safe) (accepted : ¬ pool.ready.Refused waiting.transaction)
    (keeps : pool.ImportKeepsReady waiting.transaction) :
    ∃ future ready outcome, pool.importToReady order waiting =
        .ok ({ pool with future, ready }, outcome) ∧ Settled pruned future ready [] := by
  obtain ⟨quiet, spares, apart⟩ := (keeps admits).2 accepted
  obtain ⟨future, unlocked, middle, ready, unlocks, removed, satisfied, imported, took, accept,
    promoting⟩ := Promoting.accept order consistent admits isReady safe accepted
  have fresh := refAt_eq_none.mpr admits.2.1
  have supported := accept.supported consistent.provided safe fresh settled.supported (by
      intro tag required
      rcases admits.2.2 tag required with provided | ⟨tags, remembered, mem⟩
      · obtain ⟨provider, ref, found, gives⟩ := consistent.provided.mem_iff.mp provided
        exact .inr ⟨provider, ⟨ref, found, gives⟩, fun below =>
          apart provider below ref found tag gives required⟩
      · exact .inl (remembers tags remembered tag mem))
  have own : ∀ tag ∈ waiting.transaction.provides, tag ∈ ready.providedTags := by
    intro tag mem
    rw [HashMap.mem_iff_lookup_ne, accept.placed.provided, if_pos mem]
    exact Option.some_ne_none _
  have start : Settled pruned future ready (unlocked ++ []) := by
    refine settled.advance took supported ?_ ?_ ?_ (fun tx mem => mem)
    · exact fun tag mem => .inr (own tag (mem_toFinset.mp mem))
    · rintro tx (⟨hash, stored⟩ | mem) tag required provided
      · obtain ⟨provider, ref, found, gives⟩ := consistent.provided.mem_iff.mp provided
        by_cases here : tag ∈ waiting.transaction.provides
        · exact .inr (own tag here)
        · have outside : ¬ Below pool.ready.ready
              (· ∈ pool.ready.replaceHashes waiting.transaction) provider := fun below =>
            spares provider below ref found tag gives here hash tx stored not_mem_nil required
          have ne := ne_of_refAt fresh found
          have still : refAt ready.ready provider = some ref := by
            rw [accept.placed.refAt_others ne, accept.untouched consistent.provided outside, found]
          exact .inr (promoting.consistent.provided.mem_iff.mpr ⟨provider, ref, still, gives⟩)
      · exact absurd mem not_mem_nil
    · intro tag mem
      obtain ⟨provider, ref, found, gives⟩ := promoting.consistent.provided.mem_iff.mp mem
      by_cases here : provider = waiting.transaction.hash
      · rw [here, accept.placed.refAt_own] at found
        obtain rfl := Option.some.inj found
        exact .inr (mem_toFinset.mpr gives)
      · rw [accept.placed.refAt_others here] at found
        exact .inl (consistent.provided.mem_iff.mpr
          ⟨provider, ref, accept.fewer provider ref found, gives⟩)
  have others : ∀ other ∈ removed, other.hash ≠ waiting.transaction.hash :=
    accept.others consistent.provided fresh
  obtain ⟨lastFuture, lastReady, outcome, ran, -, kept⟩ := importToReady_settled consistent quiet
    (by simp) satisfied imported promoting
    (start.perm ((reverse_perm unlocked).symm.append_right [])) others
  exact ⟨lastFuture, lastReady, _, ran, kept⟩

theorem Settled.wait (settled : pool.SettledFor pruned)
    (remembers : pool.Remembers pruned) {now : Nat} (isNew : waiting =
      WaitingTransaction.new tx pool.ready.providedTags pool.recentlyPruned.toList now)
    (notReady : waiting.isReady = false)
    (stored : future.waiting = pool.future.waiting.insert tx.hash waiting) :
    Settled pruned future pool.ready [] := by
  have lookup : ∀ hash found, future.waiting.lookup hash = some found →
      found = waiting ∨ pool.future.waiting.lookup hash = some found := by
    intro hash found there
    rw [stored, HashMap.lookup_insert_eq] at there
    split at there
    · exact .inl (Option.some.inj there).symm
    · exact .inr there
  have missing : ∀ tag, tag ∈ waiting.missingTags ↔ tag ∈ tx.requires ∧
      tag ∉ pool.ready.providedTags ∧ ∀ tags ∈ pool.recentlyPruned.toList, tag ∉ tags := by
    intro tag
    rw [isNew]
    generalize pool.recentlyPruned.toList = recent
    simp [WaitingTransaction.new]
  refine ⟨settled.supported, fun hash found there tag required => ?_, by simp,
    fun hash found there => ?_⟩
  · rcases lookup hash found there with rfl | before
    · rw [isNew] at required
      by_cases provided : tag ∈ pool.ready.providedTags
      · exact .inr (.inr provided)
      · by_cases recent : ∃ tags ∈ pool.recentlyPruned.toList, tag ∈ tags
        · obtain ⟨tags, remembered, mem⟩ := recent
          exact .inr (.inl (remembers tags remembered tag mem))
        · refine .inl ((missing tag).mpr ⟨required, provided, fun tags mem listed => ?_⟩)
          exact recent ⟨tags, mem, listed⟩
    · exact settled.grounded hash found before tag required
  · rcases lookup hash found there with rfl | before
    · refine ⟨fun nothing => ?_, fun tag mem => ((missing tag).mp mem).2.1⟩
      rw [WaitingTransaction.isReady, nothing] at notReady
      cases notReady
    · exact settled.missing hash found before

theorem import_settled (order : Order H T) (now : Nat) (consistent : pool.AtRest)
    (settled : pool.SettledFor pruned) (remembers : pool.Remembers pruned)
    (safe : tx.Safe) (keeps : pool.ImportKeepsReady tx) :
    ∃ after outcome, pool.importTransaction order tx now = .ok (after, outcome) ∧
      after.SettledFor pruned ∧ after.recentlyPruned = pool.recentlyPruned := by
  by_cases admits : pool.Admits tx
  · by_cases refused : pool.ready.Refused tx
    · obtain ⟨future, ready, error, ran, same⟩ :=
        refused_import_sameQueues_iff order now consistent admits refused
      exact ⟨_, .error error, ran, settled.congr (same.mpr ((keeps admits).1 refused)), rfl⟩
    · obtain ⟨waiting, rfl, isReady, -, goes⟩ := importTransaction_admitted order now admits
      obtain ⟨future, ready, outcome, ran, kept⟩ := accepted_import_settled order consistent
        settled remembers admits isReady safe refused keeps
      exact ⟨_, outcome, goes.trans ran, kept, rfl⟩
  · rcases importTransaction_not_admitted order now consistent.indexed admits with
      ⟨error, ran⟩ | ⟨waiting, future, -, -, -, isNew, notReady, -, stored, ran⟩
    · exact ⟨pool, .error error, ran, settled, rfl⟩
    · exact ⟨_, _, ran, settled.wait remembers isNew notReady stored, rfl⟩

/-! ## Removal -/

omit [DecidableEq T] in
/-- A ready queue that only loses transactions, and a future queue that does too. -/
theorem Settled.shrink (settled : Settled pruned future ready pending)
    (supported : Supported pruned next.ready)
    (fewer : ∀ hash tx, after.waiting.lookup hash = some tx →
      future.waiting.lookup hash = some tx)
    (stays : ∀ hash tx, after.waiting.lookup hash = some tx →
      ∀ tag ∈ tx.transaction.requires, tag ∈ ready.providedTags →
        pruned tag ∨ tag ∈ next.providedTags)
    (earlier : ∀ tag ∈ next.providedTags, tag ∈ ready.providedTags) :
    Settled pruned after next [] where
  supported := supported
  grounded hash tx stored tag required := by
    rcases settled.grounded hash tx (fewer hash tx stored) tag required with missing | known |
      provided
    · exact .inl missing
    · exact .inr (.inl known)
    · exact .inr (stays hash tx stored tag required provided)
  pendingGrounded tx mem := absurd mem not_mem_nil
  missing hash tx stored := by
    obtain ⟨some, apart⟩ := settled.missing hash tx (fewer hash tx stored)
    exact ⟨some, fun tag mem provided => apart tag mem (earlier tag provided)⟩

theorem removeSubtree_settled (order : Order H T) (consistent : pool.AtRest)
    (settled : pool.SettledFor pruned) (spares : pool.Spares (· ∈ hashes) [] hashes) :
    ∃ after removed, pool.removeSubtree order hashes = .ok (after, removed) ∧
      after.SettledFor pruned ∧ after.recentlyPruned = pool.recentlyPruned := by
  obtain ⟨ready, removed, ran, supported, untouched⟩ :=
    removeSubtree_supported settled.supported consistent.provided hashes
  obtain ⟨last, list, again, provided, -, fewer⟩ :=
    ReadyTransactions.removeSubtree_returns consistent.provided hashes
  obtain ⟨rfl, rfl⟩ := ok_pair_inj (ran.symm.trans again)
  obtain ⟨-, waiting⟩ := remove_indexed order consistent.indexed hashes
  have left : ∀ hash tx, (pool.future.remove order hashes).1.waiting.lookup hash = some tx →
      hash ∉ hashes ∧ pool.future.waiting.lookup hash = some tx := by
    intro hash tx stored
    rw [waiting, HashMap.lookup_eraseAll] at stored
    split at stored
    · cases stored
    · rename_i outside
      exact ⟨outside, stored⟩
  refine ⟨{ pool with ready, future := (pool.future.remove order hashes).1 }, _,
    by rw [BasePool.removeSubtree, ran, ok_bind], ?_, rfl⟩
  refine settled.shrink supported (fun hash tx stored => (left hash tx stored).2) ?_ ?_
  · intro hash tx stored tag required mem
    obtain ⟨exempt, before⟩ := left hash tx stored
    obtain ⟨provider, ref, found, gives⟩ := consistent.provided.mem_iff.mp mem
    have outside : ¬ Below pool.ready.ready (· ∈ hashes) provider := fun below =>
      spares provider below ref found tag gives not_mem_nil hash tx before exempt required
    exact .inr (provided.mem_iff.mpr ⟨provider, ref, (untouched provider outside).trans found,
      gives⟩)
  · intro tag mem
    obtain ⟨provider, ref, found, gives⟩ := provided.mem_iff.mp mem
    exact consistent.provided.mem_iff.mpr ⟨provider, ref, fewer provider ref found, gives⟩

theorem Spares.removeSubtree {after : BasePool H T}
    (consistent : pool.AtRest) (spares : pool.Spares (fun _ => True) [] [])
    (ran : pool.removeSubtree order hashes = .ok (after, removed)) :
    after.Spares (fun _ => True) [] [] := by
  obtain ⟨next, list, again, -, -, fewer, waiting⟩ := removeSubtree_returns order hashes consistent
  obtain ⟨rfl, rfl⟩ := ok_pair_inj (ran.symm.trans again)
  intro hash _ ref found tag gives outside other tx stored exempt
  rw [waiting, HashMap.lookup_eraseAll] at stored
  split at stored
  · cases stored
  · exact spares hash (.root trivial) ref (fewer hash ref found) tag gives outside other tx stored
      exempt

theorem enforceLimit_settled {exceeded : BasePool H T → Bool} {worst : BasePool H T → Option H}
    (Good : BasePool H T → Prop) (removal : ∀ pool hash, pool.AtRest → Good pool →
      worst pool = some hash → pool.Spares (· ∈ [hash]) [] [hash] ∧
        ∀ after removed, pool.removeSubtree order [hash] = .ok (after, removed) → Good after)
    {rounds : Nat} {after : BasePool H T} {all : List (Transaction H T)} (consistent : pool.AtRest)
    (good : Good pool) (settled : pool.SettledFor pruned)
    (ran : enforceLimit order exceeded worst rounds (pool, removed) = .ok (after, all)) :
    after.AtRest ∧ after.SettledFor pruned ∧
      after.recentlyPruned = pool.recentlyPruned := by
  refine (enforceLimit_invariant order (fun state => Good state.1 ∧ state.1.AtRest ∧
    state.1.SettledFor pruned ∧ state.1.recentlyPruned = pool.recentlyPruned) ?_
    ⟨good, consistent, settled, rfl⟩ ran).2
  rintro now _ hash next more ⟨good, consistent, settled, recent⟩ found called
  obtain ⟨spares, goes⟩ := removal now hash consistent good found
  obtain ⟨one, list, first, kept, same⟩ := removeSubtree_settled order consistent settled spares
  obtain ⟨rfl, rfl⟩ := ok_pair_inj (called.symm.trans first)
  obtain ⟨two, names, second, still, -⟩ := removeSubtree_returns order [hash] consistent
  obtain ⟨rfl, rfl⟩ := ok_pair_inj (called.symm.trans second)
  exact ⟨goes next more called, still, kept, same.trans recent⟩

omit [DecidableEq T] in
theorem spares_of_absent {hash : H} (absent : hash ∉ pool.ready.ready) :
    pool.Spares (· ∈ [hash]) [] [hash] := by
  have only : ∀ other, Below pool.ready.ready (· ∈ [hash]) other → other = hash := by
    intro other below
    induction below with
    | root given => exact mem_singleton.mp given
    | listed _ listed ih =>
      obtain ⟨tx, stored, -⟩ := listed
      exact absurd (mem_of_lookup_eq_some (ih ▸ stored)) absent
  intro other below ref found
  rw [only other below, refAt_eq_none.mpr absent] at found
  cases found

/-- `enforce_limits` keeps the invariant, when the ready queue is within its limit or the waiting
transactions require no provided tag. -/
theorem enforceLimits_settled {after : BasePool H T} {readyLimit futureLimit : Limit}
    (consistent : pool.AtRest) (settled : pool.SettledFor pruned)
    (keeps : readyLimit.isExceeded pool.ready.len pool.ready.bytes = false ∨
      pool.Spares (fun _ => True) [] [])
    (ran : pool.enforceLimits order readyLimit futureLimit = .ok (after, removed)) :
    after.SettledFor pruned ∧ after.recentlyPruned = pool.recentlyPruned := by
  obtain ⟨⟨middle, some⟩, first, second⟩ := bind_eq_ok.mp ran
  have between : middle.AtRest ∧
      middle.SettledFor pruned ∧ middle.recentlyPruned = pool.recentlyPruned := by
    rcases keeps with within | spares
    · have untouched : middle = pool := by
        cases size : pool.ready.len with
        | zero =>
          rw [size] at first
          exact (ok_pair_inj first).1.symm
        | succ count =>
          rw [size, enforceLimit, within] at first
          exact (ok_pair_inj first).1.symm
      rw [untouched]
      exact ⟨consistent, settled, rfl⟩
    · refine enforceLimit_settled (fun pool => pool.Spares (fun _ => True) [] []) ?_ consistent
        spares settled first
      intro pool hash consistent spares _
      refine ⟨fun other _ ref found tag gives outside name tx stored _ => ?_,
        fun after removed called => spares.removeSubtree consistent called⟩
      exact spares other (.root trivial) ref found tag gives outside name tx stored not_mem_nil
  obtain ⟨consistent, settled, recent⟩ := between
  obtain ⟨-, kept, same⟩ := enforceLimit_settled (fun _ => True) (by
    intro pool hash consistent _ found
    refine ⟨spares_of_absent ?_, fun _ _ _ => trivial⟩
    exact refAt_eq_none.mp (consistent.apart hash (mem_of_worstFuture consistent found)))
    consistent trivial settled second
  exact ⟨kept, same.trans recent⟩

/-! ## Pruning -/

/-- The first loop of `prune_tags`, with the invariant of both queues. -/
structure ClearedSoFar (pruned : T → Prop) (pool : BasePool H T) (tags : List T)
    (state : Pruning H T) : Prop where
  soFar : PrunedSoFar pool tags state
  clearing : Clearing pruned pool.ready (· ∈ tags) state.ready []
  settled : Settled pruned state.future state.ready state.toImport
  recent : ∀ tag ∈ state.recentlyPruned, tag ∈ tags

theorem pruneTag_clearedSoFar (order : Order H T) (consistent : pool.AtRest)
    (keeps : pool.PruneKeepsReady tags) (known : ∀ tag ∈ tags, pruned tag) {state : Pruning H T}
    {tag : T} (given : tag ∈ tags) (before : ClearedSoFar pruned pool tags state) :
    ∃ next, pruneTag order state tag = .ok next ∧ ClearedSoFar pruned pool tags next := by
  obtain ⟨next, pruneOne, soFar⟩ := pruneTag_prunedSoFar order given before.soFar
  obtain ⟨future, unlocked, ran, satisfied, moved, -⟩ :=
    before.soFar.promoting.satisfyTags order [tag]
      (fun other mem => mem_singleton.mp mem ▸ given)
  have covered : ∀ hash, Upstream pool.ready (· ∈ tags) hash → ∀ ref,
      refAt pool.ready.ready hash = some ref → ∀ tag ∈ ref.transaction.provides, pruned tag :=
    fun hash above ref found tag gives => known tag (keeps.2 hash above ref found tag gives)
  obtain ⟨ready, removed, called, provided, fewer, clearing⟩ := pruneTags_clearing
    consistent.provided covered before.clearing moved.consistent.provided given
  have built := pruneOne
  simp only [pruneTag, ran, ok_bind, called] at built
  obtain rfl := Except.ok.inj built
  refine ⟨_, pruneOne, soFar, clearing, ?_, fun other mem => ?_⟩
  · refine Settled.perm (before.settled.advance satisfied clearing.supported ?_ ?_ ?_
      fun tx mem => mem) perm_append_comm
    · intro other mem
      rw [mem_toFinset, List.mem_singleton] at mem
      exact .inl (known other (mem ▸ given))
    · intro tx _ other required mem
      obtain ⟨provider, ref, found, gives⟩ := moved.consistent.provided.mem_iff.mp mem
      have first := before.clearing.fewer provider ref found
      rcases clearing.gone provider ref first with there | above
      · exact .inr (provided.mem_iff.mpr ⟨provider, ref, there, gives⟩)
      · exact .inl (covered provider above ref first other gives)
    · intro other mem
      obtain ⟨provider, ref, found, gives⟩ := provided.mem_iff.mp mem
      exact .inl (moved.consistent.provided.mem_iff.mpr
        ⟨provider, ref, fewer provider ref found, gives⟩)
  · rcases Finset.mem_insert.mp mem with rfl | earlier
    · exact given
    · exact before.recent other earlier

theorem prune_settled (order : Order H T) (consistent : pool.AtRest)
    (settled : pool.SettledFor pruned) (keeps : pool.PruneKeepsReady tags)
    (known : ∀ tag ∈ tags, pruned tag) :
    ∃ after status recent, pool.pruneTags order tags = .ok (after, status) ∧
      after.SettledFor pruned ∧
      after.recentlyPruned = pool.remember recent ∧
      ∀ tag ∈ recent, tag ∈ tags := by
  have start : ClearedSoFar pruned pool tags { future := pool.future, ready := pool.ready } :=
    ⟨.initial consistent tags, ⟨fun _ _ found => found, settled.supported, by simp,
      fun _ _ found => .inl found⟩, settled, by simp⟩
  obtain ⟨state, after, status, ran, cleared, -, final, same⟩ := pruneTags_loops
    (ClearedSoFar pruned pool tags) (fun state now rest =>
      Promoting pool (pool.future.Satisfiable (· ∈ tags)) [] (fun _ => True) now.1.future
        now.1.ready rest ∧ Settled pruned now.1.future now.1.ready rest ∧
        now.1.recentlyPruned = pool.remember state.recentlyPruned) start
    (fun state tag mem => pruneTag_clearedSoFar order consistent keeps known mem)
    (fun state cleared => ⟨cleared.soFar.promoting.mono (fun _ => .given) fun _ _ => trivial,
      cleared.settled, rfl⟩) (by
      rintro _ now tx rest ⟨promoting, settled, same⟩
      obtain ⟨future, unlocked, ready, result, satisfied, imported, round, left, -⟩ :=
        promoting.round (fun _ => Satisfiable.closed pool.future) order
      obtain ⟨rfl, quietly⟩ := promoting.quietStep keeps.1 consistent (by simp) round
      obtain ⟨_, _, promoted, ran, ended, kept⟩ :=
        importToReady_settled consistent keeps.1 (by simp)
        satisfied imported left (settled.quietStep promoting.consistent quietly) (by simp)
      simp only [promoteOne, ran, ok_bind]
      exact ⟨_, rfl, ended, kept, same⟩)
  exact ⟨after, status, state.recentlyPruned, ran, final, same, cleared.recent⟩

/-! ## Runs -/

theorem Settled.readyMeansReady {pruned : Finset T} (consistent : pool.AtRest)
    (settled : pool.SettledFor (· ∈ pruned)) : ReadyMeansReady pruned pool where
  ready hash ref found tag required := by
    refine (settled.supported hash ref found tag required).imp_right ?_
    rintro ⟨provider, ref', ne, there, gives, -⟩
    exact ⟨provider, ne, ref', there, gives⟩
  future hash tx stored := by
    obtain ⟨some, apart⟩ := settled.missing hash tx stored
    refine ⟨some, fun tag mem other provides => apart tag mem ?_⟩
    exact consistent.provided.mem_iff.mpr ⟨other, provides⟩

/-- The state of a recorded run. -/
structure Kept (state : BasePool H T × Finset T) : Prop where
  consistent : Consistent state.1.future state.1.ready []
  settled : Settled (· ∈ state.2) state.1.future state.1.ready []
  remembers : state.1.Remembers (· ∈ state.2)

omit [DecidableEq T] in
theorem Settled.mono {more : T → Prop} (settled : Settled pruned future ready pending)
    (known : ∀ tag, pruned tag → more tag) : Settled more future ready pending where
  supported hash ref found tag required :=
    (settled.supported hash ref found tag required).imp_left (known tag)
  grounded hash tx stored tag required :=
    (settled.grounded hash tx stored tag required).imp_right (Or.imp_left (known tag))
  pendingGrounded tx mem tag required :=
    (settled.pendingGrounded tx mem tag required).imp_right (Or.imp_left (known tag))
  missing := settled.missing

theorem kept_step {state next : BasePool H T × Finset T} {op : Op H T} (kept : Kept state)
    (safe : op.Brings Transaction.Safe) (keeps : state.1.KeepsReady op)
    (ran : recordedStep state op = .ok next) : Kept next := by
  obtain ⟨pool, stepped, built⟩ := bind_eq_ok.mp ran
  obtain rfl := Except.ok.inj built
  obtain ⟨same, again, consistent⟩ := step_returns kept.consistent safe
  obtain rfl := Except.ok.inj (stepped.symm.trans again)
  have widens : ∀ tag, tag ∈ state.2 → tag ∈ state.2 ∪ op.prunedTags.toFinset :=
    fun tag mem => Finset.mem_union_left _ mem
  suffices both : pool.SettledFor (· ∈ state.2 ∪ op.prunedTags.toFinset) ∧
      pool.Remembers (· ∈ state.2 ∪ op.prunedTags.toFinset) from ⟨consistent, both.1, both.2⟩
  have unchanged : pool.SettledFor (· ∈ state.2) →
      pool.recentlyPruned = state.1.recentlyPruned →
      pool.SettledFor (· ∈ state.2 ∪ op.prunedTags.toFinset) ∧
        pool.Remembers (· ∈ state.2 ∪ op.prunedTags.toFinset) := by
    refine fun settled same => ⟨settled.mono widens, fun tags mem tag listed => ?_⟩
    rw [same] at mem
    exact widens tag (kept.remembers tags mem tag listed)
  cases op with
  | importTransaction order tx now =>
    obtain ⟨result, called⟩ := map_fst_eq_ok.mp stepped
    obtain ⟨after, outcome, again, settled, same⟩ :=
      import_settled order now kept.consistent kept.settled kept.remembers safe keeps
    obtain ⟨rfl, -⟩ := ok_pair_inj (called.symm.trans again)
    exact unchanged settled same
  | removeSubtree order hashes =>
    obtain ⟨result, called⟩ := map_fst_eq_ok.mp stepped
    obtain ⟨after, removed, again, settled, same⟩ :=
      removeSubtree_settled order kept.consistent kept.settled keeps
    obtain ⟨rfl, -⟩ := ok_pair_inj (called.symm.trans again)
    exact unchanged settled same
  | pruneTags order tags =>
    obtain ⟨result, called⟩ := map_fst_eq_ok.mp stepped
    obtain ⟨after, status, recent, again, settled, same, given⟩ := prune_settled order
      kept.consistent (kept.settled.mono widens) keeps
      (fun tag mem => Finset.mem_union_right _ (mem_toFinset.mpr mem))
    obtain ⟨rfl, -⟩ := ok_pair_inj (called.symm.trans again)
    refine ⟨settled, fun names mem tag listed => ?_⟩
    rw [same, Vector.mem_toList_iff] at mem
    rcases Vector.mem_or_eq_of_mem_set mem with before | now
    · exact widens tag (kept.remembers names (Vector.mem_toList_iff.mpr before) tag listed)
    · exact Finset.mem_union_right _ (mem_toFinset.mpr (given tag (now ▸ listed)))
  | enforceLimits order ready future =>
    obtain ⟨result, called⟩ := map_fst_eq_ok.mp stepped
    obtain ⟨settled, same⟩ := enforceLimits_settled kept.consistent kept.settled keeps called
    exact unchanged settled same
  | clearFuture order =>
    obtain rfl := Except.ok.inj stepped
    refine unchanged ⟨kept.settled.supported, ?_, by simp, ?_⟩ rfl
    · intro hash tx stored
      cases stored
    · intro hash tx stored
      cases stored

/-- **Ready means ready.** In every state that a run reaches by steps that keep ready transactions
ready, both queues say what they should. -/
theorem readyMeansReady_of_keepsReady {reject : Bool} {state : BasePool H T × Finset T}
    (reached : Reachable recordedStep (fun state op => op.Brings Transaction.Safe ∧
      state.1.KeepsReady op) (new reject, ∅) state) : ReadyMeansReady state.2 state.1 := by
  have kept : Kept state := by
    refine reached.invariant ⟨consistent_new reject, ⟨?_, ?_, by simp, ?_⟩, ?_⟩ ?_
    · intro hash ref found
      simp [new, refAt] at found
    · intro hash tx stored
      cases stored
    · intro hash tx stored
      cases stored
    · intro tags mem tag listed
      simp [new] at mem
      simp [mem] at listed
    · exact fun state op next kept allowed ran => kept_step kept allowed.1 allowed.2 ran
  exact kept.settled.readyMeansReady kept.consistent

/-- `waitingTransfer` is ready after the import of `unlockingTransfer`, and ready means ready. -/
theorem readyMeansReady_unlocking : ∃ state : BasePool Nat Nat × Finset Nat,
    Reachable recordedStep (fun state op => op.Brings Transaction.Safe ∧ state.1.KeepsReady op)
      (new false, ∅) state ∧ 2 ∈ state.1.ready.ready ∧ ReadyMeansReady state.2 state.1 := by
  have returns : ((recordedStep (new false, ∅)
      (.importTransaction (.sorted Nat Nat) waitingTransfer 0)).toOption.any fun first =>
        decide (first.1.ready.providedTags = ∅ ∧ first.1.future.waiting.keys = {2} ∧
          (first.1.future.waiting.lookup 2).all
            (fun waiting => waiting.transaction = waitingTransfer) = true) &&
        (recordedStep first (.importTransaction (.sorted Nat Nat) unlockingTransfer 0)).toOption.any
          fun second => decide (2 ∈ second.1.ready.ready)) = true := by
    decide +kernel
  obtain ⟨first, imported, found⟩ := exists_ok_of_any returns
  obtain ⟨shape, later⟩ := Bool.and_eq_true_iff.mp found
  obtain ⟨empty, keys, only⟩ := of_decide_eq_true shape
  obtain ⟨second, promoted, present⟩ := exists_ok_of_any later
  obtain ⟨nothing, quiet⟩ := quiet_unlocking keys only empty
  have nobody : ∀ hash, ¬ Below first.1.ready.ready
      (· ∈ first.1.ready.replaceHashes unlockingTransfer) hash := by
    intro hash below
    induction below with
    | root given => exact absurd (nothing ▸ given) (Finset.notMem_empty _)
    | listed _ _ ih => exact ih
  have waits : (new false : BasePool Nat Nat).ImportKeepsReady waitingTransfer := by
    rintro ⟨-, -, available⟩
    rcases available 7 mem_cons_self with provided | ⟨tags, recent, mem⟩
    · exact absurd provided notMem_empty
    · simp [new] at recent
      simp [recent] at mem
  have keeps : first.1.ImportKeepsReady unlockingTransfer := fun _ =>
    ⟨fun refused => absurd nothing refused.1, fun _ => ⟨quiet,
      fun hash below => absurd below (nobody hash), fun hash below => absurd below (nobody hash)⟩⟩
  let guard := fun (state : BasePool Nat Nat × Finset Nat) (op : Op Nat Nat) =>
    op.Brings Transaction.Safe ∧ state.1.KeepsReady op
  have early : guard (new false, ∅) (.importTransaction (.sorted Nat Nat) waitingTransfer 0) :=
    ⟨show waitingTransfer.Safe by decide, waits⟩
  have late : guard first (.importTransaction (.sorted Nat Nat) unlockingTransfer 0) :=
    ⟨show unlockingTransfer.Safe by decide, keeps⟩
  have reached : Reachable recordedStep guard (new false, ∅) second :=
    (Reachable.tail .refl early imported).tail late promoted
  exact ⟨second, reached, of_decide_eq_true present, readyMeansReady_of_keepsReady reached⟩

/-- A transaction that requires the tags of `unlockingTransfer` and `valuableTransfer`. -/
def dependentTransfer : Transaction Nat Nat :=
  { bytes := 1, hash := 6, priority := 1, validTill := 64, requires := [7, 8], provides := [10] }

/-- **Ready and not ready.** `dependentTransfer` waits for `valuableTransfer` only, since
`unlockingTransfer` is there; it is promoted after that one has been removed, and then nothing
provides one of its tags and nothing was pruned. -/
theorem ready_without_provider : ∃ state : BasePool Nat Nat × Finset Nat,
    Reachable recordedStep (fun _ op => op.Brings Transaction.Safe) (new false, ∅) state ∧
      6 ∈ state.1.ready.ready ∧ state.2 = ∅ ∧ ¬ ReadyMeansReady state.2 state.1 := by
  refine exists_reachable_of_found [.importTransaction (.sorted Nat Nat) unlockingTransfer 0,
      .importTransaction (.sorted Nat Nat) dependentTransfer 0,
        .removeSubtree (.sorted Nat Nat) [3],
      .importTransaction (.sorted Nat Nat) valuableTransfer 0]
    (fun state => state.2 = ∅ ∧
      (refAt state.1.ready.ready 6).any (fun ref => 7 ∈ ref.transaction.requires) = true ∧
      ∀ hash ∈ state.1.ready.ready.keys, (refAt state.1.ready.ready hash).all
        (fun ref => 7 ∉ ref.transaction.provides) = true)
    (by decide +kernel) fun state _ ⟨empty, requires, nobody⟩ => ?_
  rw [Option.any_eq_true] at requires
  obtain ⟨ref, found, required⟩ := requires
  refine ⟨mem_of_refAt found, empty, fun ready => ?_⟩
  rcases ready.ready 6 ref found 7 (of_decide_eq_true required) with pruned | ⟨other, -, provides⟩
  · rw [empty] at pruned
    exact absurd pruned (Finset.notMem_empty 7)
  · obtain ⟨provider, there, gives⟩ := provides
    have none := nobody other (mem_keys.mpr (mem_of_refAt there))
    rw [there] at none
    exact of_decide_eq_true none gives

end Brace.TransactionPool.BasePool
