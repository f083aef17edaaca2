import Brace.TransactionPool.Support

/-!
# What an import reports to its caller

A caller learns from the lists that an operation returns which transactions left the pool. The
limits report everything that they remove, and so does every import that returns `Ok`. What it
reports as promoted is ready unless it is reported as removed too, which does not happen when no
promotion displaces the new transaction, another promotion or its support (`Undisturbed`).
A refused import leaves the queues as they were exactly when no waiting transaction misses
a tag of the new one: `import_to_ready` satisfies these tags before it knows that the import is
refused, and drops the transactions it took out of the future queue.
-/

namespace Brace.TransactionPool

open Brace.Lib ReadyTransactions FutureTransactions List

variable {H T : Type} [DecidableEq H] [DecidableEq T]

/-- The transaction is reported as dropped by an import. -/
def Imported.Drops (tx : Transaction H T) : Imported H T → Prop
  | .ready _ _ failed removed => tx.hash ∈ failed ∨ tx ∈ removed
  | .future _ => False

/-- The transactions that an import reports as moved to the ready queue. -/
def Imported.entered : Imported H T → List H
  | .ready hash promoted _ _ => hash :: promoted
  | .future _ => []

/-- The first transaction has the higher priority and provides a tag of the second one. -/
def Transaction.Outbids (tx other : Transaction H T) : Prop :=
  other.priority < tx.priority ∧ ∃ tag ∈ tx.provides, tag ∈ other.provides

namespace BasePool

variable (pool : BasePool H T)

variable (before after : BasePool H T)

/-- The two queues are as they were; only the number of insertions may differ. -/
structure SameQueues : Prop where
  waiting : after.future.waiting = before.future.waiting
  wanted : ∀ tag, after.future.wantedBy tag = before.future.wantedBy tag
  ready : after.ready.ready = before.ready.ready
  provided : after.ready.providedTags = before.ready.providedTags
  best : after.ready.best = before.ready.best

/-- No waiting transaction misses one of the tags. -/
def Unwanted (tags : List T) : Prop :=
  ∀ hash tx, Finmap.lookup hash pool.future.waiting = some tx → ∀ tag ∈ tags, tag ∉ tx.missingTags

/-- No promotion displaces another transaction that enters, or its support: it outbids no such
transaction, and no ready transaction whose dependents, direct or not, list it or provide a tag
that it requires. -/
structure Undisturbed (available : T → Prop) (own : List (Transaction H T)) : Prop where
  rivals : ∀ tx other, pool.future.Opens available tx → pool.Enters available own other →
    other ≠ tx → ¬ tx.Outbids other
  support : ∀ tx hash ref, pool.future.Opens available tx →
    refAt pool.ready.ready hash = some ref → tx.Outbids ref.transaction →
    ∀ below, Below pool.ready.ready (· = hash) below →
    ∀ other, pool.Enters available own other → other ≠ tx → other.hash ≠ below ∧
      ∀ lost, refAt pool.ready.ready below = some lost → ∀ tag ∈ lost.transaction.provides,
        tag ∉ other.requires

variable {hash : H} {tx : Transaction H T} {order : Order H T} {pool after : BasePool H T}
  {removed : List (Transaction H T)} {waiting : WaitingTransaction H T}

/-- The transaction neither waits nor is pending. -/
structure Passed (future : FutureTransactions H T) (pending : List (WaitingTransaction H T))
    (hash : H) : Prop where
  waits : hash ∉ future.waiting
  pends : ∀ tx ∈ pending, tx.transaction.hash ≠ hash

variable {start : BasePool H T} {available : T → Prop} {own : List (Transaction H T)}
  {future afterFuture : FutureTransactions H T}
  {ready middle afterReady before : ReadyTransactions H T} {entered unlocks : List H}
  {pending rest unlocked later : List (WaitingTransaction H T)} {replaced : List (Transaction H T)}
  {ref : TransactionRef H T}

theorem Consistent.passed (consistent : Consistent future ready pending)
    (found : refAt ready.ready hash = some ref) : Passed future pending hash where
  waits mem := by
    rw [consistent.apart hash mem] at found
    cases found
  pends tx mem same := by
    rw [← same, (consistent.pendingApart tx mem).2] at found
    cases found

theorem Passed.satisfied {tags : Finset T} (indexed : future.Indexed)
    (satisfied : Satisfied tags future afterFuture unlocked)
    (left : ∀ tx ∈ rest, tx ∈ pending) (passed : Passed future pending hash) :
    Passed afterFuture (unlocked.reverse ++ rest) hash where
  waits mem := by
    obtain ⟨tx, stored⟩ := Finmap.mem_iff.mp mem
    rw [satisfied.waiting, Finmap.lookup_eq_none.mpr passed.waits] at stored
    cases stored
  pends tx mem same := by
    rcases mem_append.mp mem with new | old
    · obtain ⟨waits, old, stored, -, rfl⟩ := (satisfied.unlocked tx).mp (mem_reverse.mp new)
      rw [← same, indexed.hash waits old stored] at passed
      exact passed.waits (Finmap.mem_of_lookup_eq_some stored)
    · exact passed.pends tx (left tx old) same

/-- What entered is ready or was removed again, and what was removed is gone. -/
structure Ledger (entered : List H) (removed : List (Transaction H T))
    (future : FutureTransactions H T) (ready : ReadyTransactions H T)
    (pending : List (WaitingTransaction H T)) : Prop where
  entered : ∀ hash ∈ entered, hash ∈ ready.ready ∨ ∃ tx ∈ removed, tx.hash = hash
  gone : ∀ tx ∈ removed, refAt ready.ready tx.hash = none ∧ Passed future pending tx.hash

/-- The ready queue in the middle of promotions that displace nothing that enters: the ready
transactions of the start list what they did and what entered and requires their tags, and what
entered stays. -/
structure Undisplaced (start : BasePool H T) (available : T → Prop)
    (own : List (Transaction H T)) (before : ReadyTransactions H T) (entered : List H)
    (future : FutureTransactions H T) (ready : ReadyTransactions H T)
    (pending : List (WaitingTransaction H T)) : Prop where
  links : ∀ provider dependent ref, provider ≠ dependent →
    refAt start.ready.ready provider = some ref → refAt ready.ready provider = some ref →
    Lists ready.ready provider dependent → Lists start.ready.ready provider dependent ∨
      ∃ other, start.Enters available own other ∧ other.hash = dependent ∧
        (∃ tag ∈ other.requires, tag ∈ ref.transaction.provides) ∧ Passed future pending dependent
  stays : ∀ hash ref, refAt before.ready hash = some ref →
    start.Enters available own ref.transaction → refAt ready.ready hash = some ref
  entered : ∀ hash ∈ entered, ∃ ref, refAt ready.ready hash = some ref ∧
    start.Enters available own ref.transaction

section

variable (passes : ∀ hash, Passed future pending hash → Passed afterFuture later hash)

include passes

omit [DecidableEq T] in
theorem Ledger.pass (ledger : Ledger entered removed future ready pending)
    (same : afterReady.ready = ready.ready) :
    Ledger entered removed afterFuture afterReady later where
  entered := same ▸ ledger.entered
  gone tx mem := by
    rw [same]
    exact (ledger.gone tx mem).imp_right (passes _)

omit [DecidableEq T] in
theorem Undisplaced.pass
    (undisplaced : Undisplaced start available own before entered future ready pending)
    (same : afterReady.ready = ready.ready) :
    Undisplaced start available own before entered afterFuture afterReady later where
  links provider dependent ref := by
    rw [same]
    intro ne first now listed
    refine (undisplaced.links provider dependent ref ne first now listed).imp_right ?_
    rintro ⟨other, enters, named, shares, passed⟩
    exact ⟨other, enters, named, shares, passes _ passed⟩
  stays := same ▸ undisplaced.stays
  entered := same ▸ undisplaced.entered

variable (consistent : Consistent future ready pending)
  (accepted : Accepted order tx ready middle afterReady unlocks replaced)
  (fresh : refAt ready.ready tx.hash = none)

include consistent accepted fresh

theorem Ledger.accept (ledger : Ledger entered removed future ready pending)
    (new : ∀ other ∈ removed, other.hash ≠ tx.hash) :
    Ledger (entered ++ [tx.hash]) (removed ++ replaced) afterFuture afterReady later where
  entered hash mem := by
    rcases mem_append.mp mem with old | now
    · rcases ledger.entered hash old with there | ⟨other, gone, same⟩
      · obtain ⟨ref, found⟩ := Option.ne_none_iff_exists'.mp
          (mt refAt_eq_none.mp (not_not_intro there))
        rcases accepted.reported hash ref found with stays | gone
        · rw [← accepted.placed.refAt_others (ne_of_refAt fresh found)] at stays
          exact .inl (mem_of_refAt stays)
        · exact .inr ⟨_, mem_append_right _ gone, consistent.provided.hash hash ref found⟩
      · exact .inr ⟨other, mem_append_left _ gone, same⟩
    · rw [mem_singleton.mp now]
      exact .inl (mem_of_refAt accepted.placed.refAt_own)
  gone other mem := by
    rcases mem_append.mp mem with old | now
    · obtain ⟨absent, passed⟩ := ledger.gone other old
      rw [accepted.placed.refAt_others (new other old)]
      exact ⟨eq_none_of_earlier (accepted.fewer other.hash) absent, passes _ passed⟩
    · obtain ⟨hash, ref, found, rfl, absent⟩ := accepted.queued other now
      rw [consistent.provided.hash hash ref found,
        accepted.placed.refAt_others (ne_of_refAt fresh found)]
      exact ⟨absent, passes _ (consistent.passed found)⟩

/-- A transaction that enters is accepted and takes out nothing that entered. -/
theorem Undisplaced.accept
    (undisplaced : Undisplaced start available own before entered future ready pending)
    (safe : tx.Safe) (enters : start.Enters available own tx)
    (new : refAt start.ready.ready tx.hash = none)
    (next : Consistent afterFuture afterReady later)
    (outside : ∀ hash ref, refAt ready.ready hash = some ref →
      start.Enters available own ref.transaction →
        ¬ Below ready.ready (· ∈ ready.replaceHashes tx) hash) :
    Undisplaced start available own before (entered ++ [tx.hash]) afterFuture afterReady later := by
  have stays : ∀ hash ref, refAt ready.ready hash = some ref →
      start.Enters available own ref.transaction → refAt afterReady.ready hash = some ref := by
    intro hash ref found joins
    rw [accepted.placed.refAt_others (ne_of_refAt fresh found),
      accepted.untouched consistent.provided (outside hash ref found joins), found]
  refine ⟨fun provider dependent ref apart first now listed => ?_,
    fun hash ref found joins => stays hash ref (undisplaced.stays hash ref found joins) joins,
    fun hash mem => ?_⟩
  · have ne : provider ≠ tx.hash := ne_of_refAt new first
    rw [accepted.placed.refAt_others ne] at now
    have there := accepted.fewer provider ref now
    rcases accepted.lists consistent.provided safe ne apart listed with old |
      ⟨rfl, tag, needs, same, found, gives⟩
    · refine (undisplaced.links provider dependent ref apart first there old).imp_right ?_
      rintro ⟨other, joins, named, shares, passed⟩
      exact ⟨other, joins, named, shares, passes _ passed⟩
    · obtain rfl := Option.some.inj (there.symm.trans found)
      exact .inr ⟨tx, enters, rfl, ⟨tag, needs, gives⟩,
        next.passed accepted.placed.refAt_own⟩
  · rcases mem_append.mp mem with old | last
    · obtain ⟨ref, found, joins⟩ := undisplaced.entered hash old
      exact ⟨ref, stays hash ref found joins, joins⟩
    · rw [mem_singleton.mp last]
      exact ⟨_, accepted.placed.refAt_own, enters⟩

end

theorem outbids_of_mem_replaceHashes (provided : Provided ∅ ready.providedTags ready.ready)
    (high : ¬ ready.Refused tx) (member : hash ∈ ready.replaceHashes tx) :
    ∃ ref, refAt ready.ready hash = some ref ∧ tx.Outbids ref.transaction := by
  obtain ⟨tag, mem, mapped⟩ := mem_replaceHashes.mp member
  obtain ⟨ref, found, provides⟩ := provided.mapped_iff.mp mapped
  refine ⟨ref, found, ?_, tag, mem, provides⟩
  obtain ⟨queued, stored, rfl⟩ := Option.map_eq_some_iff.mp found
  have own : ready.priorityAt hash = queued.transaction.transaction.priority.toNat := by
    rw [priorityAt, stored]
    rfl
  have single := Finset.single_le_sum (fun other _ => Nat.zero_le (ready.priorityAt other)) member
  rw [Refused, not_and, not_le] at high
  rw [UInt64.lt_iff_toNat_lt, ← own]
  exact single.trans_lt (high (Finset.ne_empty_of_mem member))

/-- **What an undisturbed promotion takes out.** Nothing that entered is below the transactions
that it replaces. -/
theorem Undisturbed.outside {tx : WaitingTransaction H T}
    (undisturbed : start.Undisturbed available own)
    (promoting : Promoting start available own Dropped future ready pending)
    (undisplaced : Undisplaced start available own before entered future ready pending)
    (mem : tx ∈ pending) (high : ¬ ready.Refused tx.transaction) (hash : H)
    (ref : TransactionRef H T) (found : refAt ready.ready hash = some ref)
    (enters : start.Enters available own ref.transaction) :
    ¬ Below ready.ready (· ∈ ready.replaceHashes tx.transaction) hash := by
  have opens := promoting.opens tx mem
  have provided := promoting.consistent.provided
  have differs : ∀ hash ref, refAt ready.ready hash = some ref →
      ref.transaction ≠ tx.transaction := by
    intro hash ref found same
    have named := provided.hash hash ref found
    rw [same] at named
    exact (promoting.consistent.passed found).pends tx mem named
  -- a walk along the lists stays among the dependents of an outbid transaction of the start
  have origin : ∀ hash, Below ready.ready (· ∈ ready.replaceHashes tx.transaction) hash →
      ∃ root ref, refAt start.ready.ready root = some ref ∧
        tx.transaction.Outbids ref.transaction ∧ Below start.ready.ready (· = root) hash := by
    intro hash below
    induction below with
    | @root root member =>
      obtain ⟨ref, there, outbids⟩ := outbids_of_mem_replaceHashes provided high member
      rcases promoting.joined root ref there with first | new
      · exact ⟨root, ref, first, outbids, .root rfl⟩
      · exact absurd outbids (undisturbed.rivals _ _ opens new (differs root ref there))
    | @listed provider dependent _ listed ih =>
      obtain ⟨root, ref, first, outbids, below⟩ := ih
      have safe := undisturbed.support _ root ref opens first outbids provider below
      refine ⟨root, ref, first, outbids, ?_⟩
      by_cases same : provider = dependent
      · exact same ▸ below
      obtain ⟨queued, stored, -⟩ := id listed
      have now := refAt_of_lookup stored
      rcases promoting.joined provider _ now with old | new
      · rcases undisplaced.links provider dependent _ same old now listed with before |
          ⟨other, joins, rfl, ⟨tag, needs, gives⟩, passed⟩
        · exact below.listed before
        · have ne : other ≠ tx.transaction := fun equal => passed.pends tx mem (equal ▸ rfl)
          exact absurd needs ((safe other joins ne).2 _ old tag gives)
      · exact absurd (provided.hash provider _ now) (safe _ new (differs provider _ now)).1
  intro below
  obtain ⟨root, outbid, first, outbids, under⟩ := origin hash below
  exact (undisturbed.support _ root outbid opens first outbids hash under _ enters
    (differs hash ref found)).1 (provided.hash hash ref found)

/-! ## Import -/

/-- What the loop of `import_to_ready` keeps after the import of the given transaction. -/
structure Accounted (start : BasePool H T) (available : T → Prop) (own : List (Transaction H T))
    (before : ReadyTransactions H T) (hash : H) (state : Promotion H T)
    (pending : List (WaitingTransaction H T)) : Prop where
  ledger : Ledger (hash :: state.promoted) state.removed state.future state.ready pending
  moved : ∀ other ∈ state.promoted,
    other ∈ start.future.waiting ∧ other ∉ state.future.waiting
  first : state.promoted = [] → ∀ tx ∈ state.removed, tx.hash ≠ hash
  undisplaced : start.Undisturbed available own → Undisplaced start available own before
    (hash :: state.promoted) state.future state.ready pending

theorem Accounted.initial
    (passes : ∀ hash, Passed future pending hash → Passed afterFuture later hash)
    (consistent : Consistent future ready pending)
    (accepted : Accepted order tx ready middle afterReady unlocks replaced)
    (fresh : refAt ready.ready tx.hash = none) (safe : tx.Safe)
    (enters : start.Enters available own tx) (new : refAt start.ready.ready tx.hash = none)
    (next : Consistent afterFuture afterReady later)
    (undisplaced : start.Undisturbed available own →
      Undisplaced start available own before [] future ready pending)
    (outside : start.Undisturbed available own → ∀ hash ref, refAt ready.ready hash = some ref →
      start.Enters available own ref.transaction →
        ¬ Below ready.ready (· ∈ ready.replaceHashes tx) hash) :
    Accounted start available own before tx.hash
      { future := afterFuture, ready := afterReady, removed := replaced } later := by
  have empty : Ledger [] [] future ready pending := ⟨by simp, by simp⟩
  exact ⟨empty.accept passes consistent accepted fresh (by simp), by simp,
    fun _ => accepted.others consistent.provided fresh, fun undisturbed =>
      (undisplaced undisturbed).accept passes consistent accepted fresh safe enters new next
        (outside undisturbed)⟩

theorem Accounted.round {state : Promotion H T} {tx : WaitingTransaction H T}
    {result : Except (Error H) (List (Transaction H T))} (begun : start.AtRest)
    (promoting : Promoting start available own Dropped state.future state.ready (tx :: rest))
    (accounted : Accounted start available own before hash state (tx :: rest))
    (round : Round order tx state.future state.ready afterFuture unlocked afterReady result)
    (next : Consistent afterFuture afterReady (unlocked.reverse ++ rest)) :
    Accounted start available own before hash
      (state.record tx.transaction.hash afterFuture afterReady result)
      (unlocked.reverse ++ rest) := by
  have opens := promoting.opens tx mem_cons_self
  obtain ⟨old, stored, -⟩ := id opens
  have waited := Finmap.mem_of_lookup_eq_some stored
  have passes : ∀ hash, Passed state.future (tx :: rest) hash →
      Passed afterFuture (unlocked.reverse ++ rest) hash := fun hash =>
    Passed.satisfied promoting.consistent.indexed round.satisfied fun _ => mem_cons_of_mem _
  have leaves : ∀ hash ∉ state.future.waiting, hash ∉ afterFuture.waiting := by
    intro hash absent mem
    obtain ⟨left, stored⟩ := Finmap.mem_iff.mp mem
    rw [round.satisfied.waiting, Finmap.lookup_eq_none.mpr absent] at stored
    cases stored
  cases round.outcome with
  | refused error low =>
    exact ⟨accounted.ledger.pass passes rfl, fun other mem => (accounted.moved other mem).imp_right
      (leaves other), accounted.first, fun undisturbed =>
      (accounted.undisplaced undisturbed).pass passes rfl⟩
  | accepted high accepted =>
    refine ⟨accounted.ledger.accept passes promoting.consistent accepted round.fresh
      fun other mem same => (accounted.ledger.gone other mem).2.pends tx mem_cons_self same.symm,
      fun other mem => ?_, fun nothing => absurd nothing (append_ne_nil_of_right_ne_nil _
        (cons_ne_nil _ _)), fun undisturbed => ?_⟩
    · rcases mem_append.mp mem with before | now
      · exact (accounted.moved other before).imp_right (leaves other)
      · rw [mem_singleton.mp now]
        exact ⟨waited, leaves _ (promoting.consistent.pendingApart tx mem_cons_self).1⟩
    · have undisplaced := accounted.undisplaced undisturbed
      exact undisplaced.accept passes promoting.consistent accepted round.fresh
        (promoting.consistent.pendingReady tx mem_cons_self).2 (.inr opens)
        (begun.apart _ waited) next
        (undisturbed.outside promoting undisplaced mem_cons_self high)

section

variable (order : Order H T)

/-- **Refused import.** The queues stay as they were exactly when no waiting transaction misses a
tag of the refused one. -/
theorem refused_import_sameQueues_iff (now : Nat) (consistent : pool.AtRest)
    (admits : pool.Admits tx) (refused : pool.ready.Refused tx) :
    ∃ future ready error, pool.importTransaction order tx now =
        .ok ({ pool with future, ready }, .error error) ∧
      (SameQueues pool { pool with future, ready } ↔ pool.Unwanted tx.provides) := by
  obtain ⟨waiting, rfl, ready, -, goes⟩ := importTransaction_admitted order now admits
  obtain ⟨future, unlocked, ran, indexed, -⟩ :=
    satisfyTags_returns order consistent.indexed waiting.transaction.provides
  have satisfied := satisfyTags_satisfied consistent.indexed ran
  obtain ⟨error, imported⟩ := ReadyTransactions.importTransaction_refused order ready
    (refAt_eq_none.mpr admits.2.1) refused
  refine ⟨future, { pool.ready with insertionId := pool.ready.insertionId + 1 }, error, ?_, ?_⟩
  · rw [goes]
    simp only [importToReady, ran, ok_bind, imported]
  · constructor
    · intro same hash tx stored tag mem missing
      have left := satisfied.waiting hash
      rw [same.waiting, stored, Option.bind_some] at left
      have fewer := leftOver_eq_some left.symm
      rw [fewer] at missing
      exact (Finset.mem_sdiff.mp missing).2 (mem_toFinset.mpr mem)
    · intro unwanted
      have same : future.waiting = pool.future.waiting := by
        apply Finmap.ext_lookup
        intro hash
        rw [satisfied.waiting]
        cases stored : pool.future.waiting.lookup hash with
        | none => rfl
        | some tx =>
          apply leftOver_of_disjoint
          intro tag missing mem
          exact unwanted hash tx stored tag (mem_toFinset.mp mem) missing
      refine ⟨same, fun tag => Finset.ext fun hash => ?_, rfl, rfl, rfl⟩
      rw [indexed.wanted, consistent.indexed.wanted, Misses, Misses, same]

theorem Promoting.accept (consistent : pool.AtRest)
    (admits : pool.Admits waiting.transaction) (isReady : waiting.isReady = true)
    (safe : waiting.transaction.Safe) (high : ¬ pool.ready.Refused waiting.transaction) :
    ∃ future unlocked middle ready unlocks replaced,
      pool.future.satisfyTags order waiting.transaction.provides = .ok (future, unlocked) ∧
      pool.ready.importTransaction order waiting = .ok (ready, .ok replaced) ∧
      Satisfied waiting.transaction.provides.toFinset pool.future future unlocked ∧
      Accepted order waiting.transaction pool.ready middle ready unlocks replaced ∧
      Promoting pool (pool.future.Satisfiable (· ∈ waiting.transaction.provides))
        [waiting.transaction] (fun other => False ∨ other ∈ replaced) future ready
        (unlocked.reverse ++ []) := by
  have begun := Promoting.initial consistent
    (pool.future.Satisfiable (· ∈ waiting.transaction.provides)) [waiting.transaction]
    fun _ => False
  obtain ⟨future, unlocked, ran, satisfied, promoting, -⟩ :=
    begun.satisfyTags order _ (fun tag mem => .given mem)
  have fresh := refAt_eq_none.mpr admits.2.1
  obtain ⟨ready, result, imported, outcome⟩ :=
    importTransaction_outcome order consistent.provided isReady fresh safe
  obtain ⟨same, moved, again, pending, -⟩ :=
    (consistent.pend isReady safe admits.1 admits.2.1).satisfyTags order
      waiting.transaction.provides
  obtain ⟨rfl, rfl⟩ := ok_pair_inj (ran.symm.trans again)
  obtain ⟨last, _, twice, kept⟩ :=
    (pending.perm (perm_append_singleton _ _)).importTransaction order
  obtain ⟨rfl, -⟩ := ok_pair_inj (imported.symm.trans twice)
  rw [append_nil] at promoting
  have entered := promoting.enter outcome fresh (.inl (mem_singleton_self _)) kept
    (fun _ mem => mem) fun _ mem => .inl mem
  cases outcome with
  | refused error low => exact absurd low high
  | accepted _ accepted =>
    refine ⟨future, unlocked, _, ready, _, _, ran, imported, satisfied, accepted, ?_⟩
    rw [append_nil]
    exact entered.perm (reverse_perm unlocked).symm

end

end BasePool

end Brace.TransactionPool
