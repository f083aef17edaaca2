import Brace.Lib.Acyclic
import Brace.TransactionPool.ReadyGraph

/-!
# The iterator over the ready transactions

Model of `ReadyTransactions::get` and `BestIterator`: the iterator takes the greatest reference of
its own copy of `best`, skips it when its hash is not in the queue, and counts for each
transaction that it unlocks the required tags satisfied so far; one with enough moves to `best`.

From a live queue without cycles (`drains_inOrder`) the iterator yields every queued transaction
once, after its providers, and each time the greatest one whose providers were all yielded. The
invariant (`Iterating`) says that the count of a waiting transaction is the number of its required
tags that nothing in the queue provides or that a yielded transaction provides.
-/

namespace Brace.TransactionPool

open Brace.Lib List Finmap HashMap TransactionRef

variable {H T : Type} [DecidableEq H] [DecidableEq T]

instance : Std.TransCmp (cmp (H := H) (T := T)) :=
  inferInstanceAs (Std.TransCmp (compareLex
    (compareLex (compareOn fun ref : TransactionRef H T => ref.transaction.priority)
      fun left right => compareOn (fun ref => ref.transaction.validTill) right left)
    fun left right => compareOn (·.insertionId) right left))

/-- `BestIterator` -/
structure BestIterator (H T : Type) where
  all : HashMap H (ReadyTx H T)
  awaiting : HashMap H (Nat × TransactionRef H T) := ∅
  best : List (TransactionRef H T)

namespace BestIterator

variable (iterator : BestIterator H T)

/-- `best_or_awaiting`: depending on the number of satisfied requirements the reference goes to
the best set or to the awaiting ones. -/
def bestOrAwaiting (satisfied : Nat) (ref : TransactionRef H T) : BestIterator H T :=
  if satisfied ≥ ref.transaction.requires.length then
    { iterator with best := OrderedSet.insert cmp ref iterator.best }
  else
    { iterator with
      awaiting := Finmap.insert ref.transaction.hash (satisfied, ref) iterator.awaiting }

/-- One transaction that the yielded one unlocks. -/
def unlocked (hash : H) : BestIterator H T :=
  match Finmap.lookup hash iterator.awaiting with
  -- first check local awaiting transactions
  | some (satisfied, ref) =>
    bestOrAwaiting { iterator with awaiting := Finmap.erase hash iterator.awaiting }
      (satisfied + 1) ref
  -- then get from the pool
  | none =>
    match Finmap.lookup hash iterator.all with
    | some next => iterator.bestOrAwaiting (next.requiresOffset + 1) next.transaction
    | none => iterator

/-- The loop of `next`, over the best set from its greatest element on. -/
def nextIn (iterator : BestIterator H T) :
    List (TransactionRef H T) → Option (Transaction H T × BestIterator H T)
  | [] => none
  | best :: rest =>
    match Finmap.lookup best.transaction.hash iterator.all with
    | some ready =>
      some (best.transaction, ready.unlocks.foldl unlocked { iterator with best := rest.reverse })
    -- the transaction is not in all, maybe it was removed in the meantime
    | none => nextIn iterator rest

/-- `next` -/
def next : Option (Transaction H T × BestIterator H T) :=
  iterator.nextIn iterator.best.reverse

variable {iterator : BestIterator H T} {refs : List (TransactionRef H T)}

omit [DecidableEq T] in
theorem mem_of_nextIn_eq_none
    (ended : iterator.nextIn refs = none) : ∀ ref ∈ refs, ref.transaction.hash ∉ iterator.all := by
  induction refs with
  | nil => exact fun ref mem => absurd mem not_mem_nil
  | cons best rest ih =>
    unfold nextIn at ended
    split at ended
    · cases ended
    · rename_i absent
      intro ref mem
      rcases mem_cons.mp mem with rfl | later
      · exact lookup_eq_none.mp absent
      · exact ih ended ref later

omit [DecidableEq T] in
theorem exists_of_nextIn_eq_some {after : BestIterator H T} {tx : Transaction H T}
    (taken : iterator.nextIn refs = some (tx, after)) :
    ∃ skipped best rest ready, refs = skipped ++ best :: rest ∧
      (∀ ref ∈ skipped, ref.transaction.hash ∉ iterator.all) ∧
      iterator.all.lookup best.transaction.hash = some ready ∧ best.transaction = tx ∧
      ready.unlocks.foldl unlocked { iterator with best := rest.reverse } = after := by
  induction refs with
  | nil => cases taken
  | cons best rest ih =>
    unfold nextIn at taken
    split at taken
    · rename_i ready found
      obtain ⟨same, ended⟩ := Prod.mk.inj (Option.some.inj taken)
      exact ⟨[], best, rest, ready, rfl, fun ref mem => absurd mem not_mem_nil, found, same, ended⟩
    · rename_i absent
      obtain ⟨skipped, other, left, ready, split, missing, found, same, ended⟩ := ih taken
      refine ⟨best :: skipped, other, left, ready, by rw [split]; rfl, ?_, found, same, ended⟩
      intro ref mem
      rcases mem_cons.mp mem with rfl | later
      · exact lookup_eq_none.mp absent
      · exact missing ref later

/-- What an iterator yields until it ends. -/
inductive Drains : BestIterator H T → List (Transaction H T) → Prop
  | done {iterator : BestIterator H T} : iterator.next = none → Drains iterator []
  | yields {iterator after : BestIterator H T} {tx : Transaction H T}
      {rest : List (Transaction H T)} : iterator.next = some (tx, after) → Drains after rest →
        Drains iterator (tx :: rest)

/-- Take so many transactions from an iterator, if it ends with them. -/
def drain : Nat → BestIterator H T → Option (List (Transaction H T))
  | 0, _ => none
  | rounds + 1, iterator =>
    match iterator.next with
    | none => some []
    | some (tx, after) => (drain rounds after).map (tx :: ·)

omit [DecidableEq T] in
theorem Drains.unique {first second : List (Transaction H T)} (drains : Drains iterator first)
    (again : Drains iterator second) : first = second := by
  induction drains generalizing second with
  | done ended =>
    cases again with
    | done => rfl
    | yields next => exact absurd (ended.symm.trans next) (by simp)
  | yields next _ ih =>
    cases again with
    | done ended => exact absurd (ended.symm.trans next) (by simp)
    | yields taken rest =>
      obtain ⟨rfl, rfl⟩ := Prod.mk.inj (Option.some.inj (next.symm.trans taken))
      rw [ih rest]

omit [DecidableEq T] in
theorem drains_of_drain {rounds : Nat} {yielded : List (Transaction H T)}
    (taken : iterator.drain rounds = some yielded) : Drains iterator yielded := by
  induction rounds generalizing iterator yielded with
  | zero => cases taken
  | succ rounds ih =>
    unfold drain at taken
    split at taken
    · rename_i ended
      obtain rfl := Option.some.inj taken
      exact .done ended
    · rename_i tx after next
      obtain ⟨rest, later, rfl⟩ := Option.map_eq_some_iff.mp taken
      exact .yields next (ih later)

end BestIterator

namespace ReadyTransactions

variable (queue : ReadyTransactions H T)

/-- `get` -/
def get : BestIterator H T :=
  { all := queue.ready, best := queue.best }

/-! ## The order -/

/-- All providers of the transaction in the queue are among the yielded ones. -/
def Eligible (yielded : List H) (hash : H) : Prop :=
  ∀ provider, queue.Depends hash provider → provider ∈ yielded

/-- The list has every queued transaction once, after all its providers, and in each place the
greatest of the transactions that are left and have all their providers before it. -/
structure InOrder (queue : ReadyTransactions H T) (yielded : List (Transaction H T)) : Prop where
  once : (yielded.map (·.hash)).Nodup
  every : ∀ tx, tx ∈ yielded ↔ ∃ ref, refAt queue.ready tx.hash = some ref ∧ ref.transaction = tx
  greatest : ∀ before tx after, yielded = before ++ tx :: after →
    queue.Eligible (before.map (·.hash)) tx.hash ∧
      ∃ ref, refAt queue.ready tx.hash = some ref ∧ ∀ hash other,
        refAt queue.ready hash = some other → hash ≠ tx.hash → hash ∉ before.map (·.hash) →
          queue.Eligible (before.map (·.hash)) hash → other.cmp ref = .lt

/-! ## What is satisfied -/

/-- How many required tags of a queued transaction nothing in the queue provides, or a transaction
of the list. -/
def satisfied (done : List H) (tx : ReadyTx H T) : Nat :=
  tx.requires.countP fun tag => (Finmap.lookup tag queue.providedTags).all (· ∈ done)

variable {queue : ReadyTransactions H T} {hash : H} {tx : ReadyTx H T} {done : List H}

theorem satisfied_nil (live : Live queue) (stored : queue.ready.lookup hash = some tx) :
    queue.satisfied [] tx = tx.requiresOffset := by
  rw [live.offset hash tx stored, satisfied]
  apply countP_congr
  intro tag _
  cases queue.providedTags.lookup tag <;> simp

theorem satisfied_cons {provider : H} (new : provider ∉ done)
    (stored : queue.ready.lookup hash = some tx) :
    queue.satisfied (provider :: done) tx =
      queue.satisfied done tx + links queue.providedTags queue.ready hash provider := by
  rw [links, refAt, stored]
  change _ = _ + tx.requires.countP _
  unfold satisfied
  induction tx.requires with
  | nil => rfl
  | cons tag rest ih =>
    simp only [countP_cons, ih]
    cases queue.providedTags.lookup tag with
    | none =>
      simp
      omega
    | some other =>
      by_cases same : other = provider
      · subst same
        simp [new]
        omega
      · simp [same]
        omega

theorem length_le_satisfied_iff (live : Live queue) (done : List H)
    (stored : queue.ready.lookup hash = some tx) :
    tx.requires.length ≤ queue.satisfied done tx ↔ queue.Eligible done hash := by
  have full : tx.requires.length ≤ queue.satisfied done tx ↔
      queue.satisfied done tx = tx.requires.length :=
    ⟨fun above => le_antisymm countP_le_length above, fun equal => equal.ge⟩
  have found := refAt_of_lookup stored
  rw [full, satisfied, countP_eq_length]
  constructor
  · rintro all provider ⟨ref, again, tag, required, provides⟩
    obtain rfl := Option.some.inj (found.symm.trans again)
    have mem := all tag required
    rw [live.mapped_iff.mpr provides] at mem
    simpa using mem
  · intro eligible tag required
    cases mapped : queue.providedTags.lookup tag with
    | none => rfl
    | some provider =>
      have provides := live.mapped_iff.mp mapped
      simpa using eligible provider ⟨_, found, tag, required, provides⟩

/-! ## The state of the iterator -/

/-- The state of the iterator while it counts what the last yielded transaction unlocks: the
counts are the satisfied tags for what was yielded before, and the unlocks counted since. -/
structure Iterating (queue : ReadyTransactions H T) (done yielded counted : List H)
    (iterator : BestIterator H T) : Prop where
  all : iterator.all = queue.ready
  sorted : OrderedSet.Sorted cmp iterator.best
  known : ∀ ref ∈ iterator.best, ref ∈ queue.best ∨ ∃ hash, refAt queue.ready hash = some ref
  absent : ∀ hash, Finmap.lookup hash queue.ready = none →
    Finmap.lookup hash iterator.awaiting = none
  awaiting : ∀ hash tx, Finmap.lookup hash queue.ready = some tx →
    Finmap.lookup hash iterator.awaiting =
      if tx.requiresOffset < queue.satisfied done tx + counted.count hash ∧
          queue.satisfied done tx + counted.count hash < tx.requires.length then
        some (queue.satisfied done tx + counted.count hash, tx.transaction)
      else none
  best : ∀ hash tx, Finmap.lookup hash queue.ready = some tx →
    (tx.transaction ∈ iterator.best ↔ hash ∉ yielded ∧
      tx.requires.length ≤ queue.satisfied done tx + counted.count hash)

theorem offset_le_satisfied (live : Live queue) (done : List H)
    (stored : queue.ready.lookup hash = some tx) : tx.requiresOffset ≤ queue.satisfied done tx := by
  rw [← satisfied_nil live stored]
  apply countP_mono_left
  intro tag _ before
  cases mapped : queue.providedTags.lookup tag with
  | none => rfl
  | some provider =>
    rw [mapped] at before
    simp at before

namespace Iterating

variable {queue : ReadyTransactions H T} {done yielded counted : List H}
  {iterator : BestIterator H T}

theorem start (live : Live queue) (sorted : OrderedSet.Sorted cmp queue.best) :
    Iterating queue [] [] [] queue.get where
  all := rfl
  sorted := sorted
  known ref mem := .inl mem
  absent hash _ := Finmap.lookup_empty hash
  awaiting hash tx stored := by
    rw [satisfied_nil live stored]
    simp [get]
  best hash tx stored := by
    have found := refAt_of_lookup stored
    have named := live.provided.hash hash _ found
    have queued : tx.transaction.transaction.hash ∈ queue.ready := by
      rw [named]
      exact mem_of_refAt found
    rw [count_nil, Nat.add_zero, length_le_satisfied_iff live [] stored]
    change tx.transaction ∈ queue.best ↔ _
    rw [live.best _ queued, live.unblocked_iff, named]
    simp [found, Eligible]

variable {ref : TransactionRef H T} {hash name : H} {tx : ReadyTx H T}

section

variable (live : Live queue)

include live

section

variable (state : Iterating queue done yielded counted iterator)

include state

theorem eq_of_cmp (found : refAt queue.ready hash = some ref) (other : TransactionRef H T)
    (mem : other ∈ iterator.best) (same : cmp ref other = .eq) : other = ref := by
  have ids := (insertionId_eq_of_cmp same).symm
  rcases state.known other mem with old | ⟨name, again⟩
  · exact live.sameBest other hash ref old found ids
  · exact live.sameQueued other ref name hash again found ids

theorem unlocked_eq (stored : queue.ready.lookup name = some tx)
    (room : queue.satisfied done tx + counted.count name < tx.requires.length) :
    iterator.unlocked name = BestIterator.bestOrAwaiting
      { iterator with awaiting := iterator.awaiting.erase name }
        (queue.satisfied done tx + counted.count name + 1) tx.transaction := by
  have waiting := state.awaiting name tx stored
  unfold BestIterator.unlocked
  by_cases more : tx.requiresOffset < queue.satisfied done tx + counted.count name
  · rw [if_pos ⟨more, room⟩] at waiting
    simp only [waiting]
  · rw [if_neg fun both => more both.1] at waiting
    have least := offset_le_satisfied live done stored
    have equal : tx.requiresOffset = queue.satisfied done tx + counted.count name := by omega
    have same : iterator.awaiting.erase name = iterator.awaiting := by
      refine ext_lookup fun other => ?_
      rw [lookup_erase_eq]
      split
      · rename_i here
        rw [here, waiting]
      · rfl
    have there : iterator.all.lookup name = some tx := by rw [state.all, stored]
    simp only [waiting, there, equal, same]

theorem unlocked (fresh : name ∈ queue.ready → name ∉ yielded)
    (room : ∀ tx, queue.ready.lookup name = some tx → queue.satisfied done tx +
      counted.count name < tx.requires.length) :
    Iterating queue done yielded (name :: counted) (iterator.unlocked name) := by
  have others : ∀ hash, hash ≠ name → (name :: counted).count hash = counted.count hash :=
    fun hash ne => count_cons_of_ne (Ne.symm ne)
  cases stored : queue.ready.lookup name with
  | none =>
    have same : iterator.unlocked name = iterator := by
      simp only [BestIterator.unlocked, state.absent name stored, state.all, stored]
    have ne : ∀ hash tx, queue.ready.lookup hash = some tx → hash ≠ name := by
      rintro hash tx found rfl
      rw [stored] at found
      cases found
    rw [same]
    refine ⟨state.all, state.sorted, state.known, state.absent, ?_, ?_⟩
    · intro hash tx found
      rw [others hash (ne hash tx found)]
      exact state.awaiting hash tx found
    · intro hash tx found
      rw [others hash (ne hash tx found)]
      exact state.best hash tx found
  | some tx =>
    have found := refAt_of_lookup stored
    have named := live.provided.hash name _ found
    have left := room tx stored
    have counts : (name :: counted).count name = counted.count name + 1 := count_cons_self
    rw [state.unlocked_eq live stored left, BestIterator.bestOrAwaiting]
    split
    · rename_i full
      refine ⟨state.all, OrderedSet.insert_sorted state.sorted _, ?_, ?_, ?_, ?_⟩
      · intro ref mem
        rcases OrderedSet.of_mem_insert mem with rfl | earlier
        · exact .inr ⟨name, found⟩
        · exact state.known ref earlier
      · intro hash absent
        rw [lookup_erase_eq, state.absent hash absent]
        exact ite_self none
      · intro hash entry present
        rw [lookup_erase_eq]
        by_cases here : hash = name
        · subst here
          obtain rfl := Option.some.inj (stored.symm.trans present)
          rw [if_pos rfl, counts, if_neg]
          change tx.requires.length ≤ _ at full
          omega
        · rw [if_neg here, others hash here]
          exact state.awaiting hash entry present
      · intro hash entry present
        rw [OrderedSet.mem_insert fun other mem same =>
          state.eq_of_cmp live found other mem same]
        by_cases here : hash = name
        · subst here
          obtain rfl := Option.some.inj (stored.symm.trans present)
          rw [counts]
          exact iff_of_true (.inl rfl) ⟨fresh (mem_of_lookup_eq_some stored), full⟩
        · have other := refAt_of_lookup present
          have apart : entry.transaction ≠ tx.transaction := by
            intro same
            rw [← live.provided.hash hash _ other, same, named] at here
            exact here rfl
          rw [or_iff_right apart, others hash here]
          exact state.best hash entry present
    · rename_i more
      refine ⟨state.all, state.sorted, state.known, ?_, ?_, ?_⟩
      · intro hash absent
        have ne : hash ≠ name := by
          rintro rfl
          rw [stored] at absent
          cases absent
        rw [named, lookup_insert_eq, if_neg ne, lookup_erase_eq,
          if_neg ne, state.absent hash absent]
      · intro hash entry present
        rw [named, lookup_insert_eq]
        by_cases here : hash = name
        · subst here
          obtain rfl := Option.some.inj (stored.symm.trans present)
          have least := offset_le_satisfied live done stored
          change ¬ tx.requires.length ≤ _ at more
          rw [if_pos rfl, counts, if_pos]
          · rfl
          · omega
        · rw [if_neg here, lookup_erase_eq, if_neg here, others hash here]
          exact state.awaiting hash entry present
      · intro hash entry present
        by_cases here : hash = name
        · subst here
          obtain rfl := Option.some.inj (stored.symm.trans present)
          change ¬ tx.requires.length ≤ _ at more
          rw [counts, state.best hash tx stored]
          exact and_congr_right fun _ => iff_of_false (by omega) (by omega)
        · rw [others hash here]
          exact state.best hash entry present

end

theorem foldl_unlocked {names : List H} (state : Iterating queue done yielded counted iterator)
    (fresh : ∀ name ∈ names, name ∈ queue.ready → name ∉ yielded)
    (room : ∀ name tx, queue.ready.lookup name = some tx →
      queue.satisfied done tx + counted.count name + names.count name ≤ tx.requires.length) :
    ∃ all, Iterating queue done yielded all (names.foldl BestIterator.unlocked iterator) ∧
      ∀ name, all.count name = counted.count name + names.count name := by
  induction names generalizing counted iterator with
  | nil => exact ⟨counted, state, fun name => by simp⟩
  | cons first rest ih =>
    have next := state.unlocked live (fresh first mem_cons_self) fun tx stored => by
      have enough := room first tx stored
      rw [count_cons_self] at enough
      omega
    have moved : ∀ name, (first :: counted).count name + rest.count name =
        counted.count name + (first :: rest).count name := by
      intro name
      simp only [count_cons]
      omega
    obtain ⟨all, last, counts⟩ := ih next
      (fun name mem => fresh name (mem_cons_of_mem _ mem)) fun name tx stored => by
        rw [Nat.add_assoc, moved, ← Nat.add_assoc]
        exact room name tx stored
    exact ⟨all, last, fun name => (counts name).trans (moved name)⟩

theorem settle {provider : H} (new : provider ∉ done)
    (stored : queue.ready.lookup provider = some tx)
    (counts : ∀ name, counted.count name = tx.unlocks.count name)
    (state : Iterating queue done yielded counted iterator) :
    Iterating queue (provider :: done) yielded [] iterator := by
  have same : ∀ hash entry, queue.ready.lookup hash = some entry →
      queue.satisfied (provider :: done) entry + ([] : List H).count hash =
        queue.satisfied done entry + counted.count hash := by
    intro hash entry present
    rw [satisfied_cons new present, counts, live.unlocks provider tx stored hash
      (mem_of_lookup_eq_some present), count_nil, Nat.add_zero]
  refine ⟨state.all, state.sorted, state.known, state.absent, ?_, ?_⟩
  · intro hash entry present
    rw [same hash entry present]
    exact state.awaiting hash entry present
  · intro hash entry present
    rw [same hash entry present]
    exact state.best hash entry present

theorem not_eligible_of_next (state : Iterating queue done done [] iterator)
    (ended : iterator.next = none) (queued : hash ∈ queue.ready) (left : hash ∉ done) :
    ¬ queue.Eligible done hash := by
  intro eligible
  obtain ⟨tx, stored⟩ := mem_iff.mp queued
  have found := refAt_of_lookup stored
  have mem : tx.transaction ∈ iterator.best := by
    rw [state.best hash tx stored, count_nil, Nat.add_zero, length_le_satisfied_iff live _ stored]
    exact ⟨left, eligible⟩
  have absent := BestIterator.mem_of_nextIn_eq_none ended _ (mem_reverse.mpr mem)
  rw [live.provided.hash hash _ found, state.all] at absent
  exact absent queued

/-- The iterator yields the greatest transaction that is left and has all its providers
yielded. -/
theorem next_greatest (state : Iterating queue done done [] iterator)
    (closed : ∀ hash ∈ done, queue.Eligible done hash) {tx : Transaction H T}
    {after : BestIterator H T} (taken : iterator.next = some (tx, after)) :
    ∃ ref, refAt queue.ready tx.hash = some ref ∧ ref.transaction = tx ∧ tx.hash ∉ done ∧
      queue.Eligible done tx.hash ∧
      (∀ hash other, refAt queue.ready hash = some other → hash ≠ tx.hash → hash ∉ done →
        queue.Eligible done hash → other.cmp ref = .lt) ∧
      Iterating queue (tx.hash :: done) (tx.hash :: done) [] after := by
  obtain ⟨skipped, ref, rest, ready, split, missing, stored, rfl, ended⟩ :=
    BestIterator.exists_of_nextIn_eq_some taken
  rw [reverse_eq_iff, reverse_append, reverse_cons, append_assoc, singleton_append] at split
  rw [state.all] at stored missing
  have mem : ref ∈ iterator.best := by simp [split]
  have found : refAt queue.ready ref.transaction.hash = some ref := by
    rcases state.known ref mem with old | ⟨hash, found⟩
    · exact ((live.best ref (mem_of_lookup_eq_some stored)).mp old).1
    · rwa [live.provided.hash hash ref found]
  have same : ready.transaction = ref := by
    rw [refAt, stored] at found
    exact Option.some.inj found
  obtain ⟨left, full⟩ := (state.best _ ready stored).mp (by rwa [same])
  rw [count_nil, Nat.add_zero, length_le_satisfied_iff live _ stored] at full
  have sorted := state.sorted
  rw [split] at sorted
  obtain ⟨lower, -, below⟩ := pairwise_append.mp sorted
  -- a queued reference in `best` is the one that is taken, or below it
  have cases : ∀ hash entry, queue.ready.lookup hash = some entry →
      entry.transaction ∈ iterator.best → hash ≠ ref.transaction.hash →
        entry.transaction ∈ rest.reverse := by
    intro hash entry present member ne
    have there := refAt_of_lookup present
    have named := live.provided.hash hash _ there
    rw [split, mem_append, mem_cons] at member
    rcases member with earlier | equal | gone
    · exact earlier
    · rw [← named, equal] at ne
      exact absurd rfl ne
    · have absent := missing _ (mem_reverse.mp gone)
      rw [named] at absent
      exact absurd (mem_of_lookup_eq_some present) absent
  have once : ref ∉ rest.reverse := by
    intro again
    have less := below ref again ref mem_cons_self
    rw [cmp_self] at less
    cases less
  have started : Iterating queue done (ref.transaction.hash :: done) []
      { iterator with best := rest.reverse } := by
    refine ⟨state.all, lower, ?_, state.absent, state.awaiting, ?_⟩
    · intro other member
      exact state.known other (by rw [split]; exact mem_append_left _ member)
    · intro hash entry present
      rw [mem_cons, not_or, and_assoc, ← state.best hash entry present]
      constructor
      · intro member
        refine ⟨?_, by rw [split]; exact mem_append_left _ member⟩
        rintro rfl
        obtain rfl := Option.some.inj (stored.symm.trans present)
        exact once (same ▸ member)
      · rintro ⟨ne, member⟩
        exact cases hash entry present member ne
  obtain ⟨all, last, counts⟩ := started.foldl_unlocked live
    (by
      intro name named queued again
      have depends := (live.mem_unlocks stored queued).mp named
      rcases mem_cons.mp again with rfl | earlier
      · exact live.not_depends_self _ depends
      · exact left (closed name earlier _ depends))
    (by
      intro name entry present
      rw [count_nil, Nat.add_zero, live.unlocks _ ready stored name
        (mem_of_lookup_eq_some present), ← satisfied_cons left present]
      exact countP_le_length)
  refine ⟨ref, found, rfl, left, full, ?_, ?_⟩
  · intro hash other there ne remains eligible
    obtain ⟨entry, present, rfl⟩ := lookup_of_refAt there
    have member : entry.transaction ∈ iterator.best := by
      rw [state.best hash entry present, count_nil, Nat.add_zero,
        length_le_satisfied_iff live _ present]
      exact ⟨remains, eligible⟩
    exact below _ (cases hash entry present member ne) ref mem_cons_self
  · rw [← ended]
    exact last.settle live left stored fun name => by simpa using counts name

end

end Iterating

/-- What is yielded after some transactions, each of them as `InOrder` says. -/
structure InOrderAfter (queue : ReadyTransactions H T) (done : List H)
    (yielded : List (Transaction H T)) : Prop where
  once : (yielded.map (·.hash)).Nodup
  every : ∀ tx, tx ∈ yielded ↔ tx.hash ∉ done ∧
    ∃ ref, refAt queue.ready tx.hash = some ref ∧ ref.transaction = tx
  greatest : ∀ before tx after, yielded = before ++ tx :: after →
    queue.Eligible (before.map (·.hash) ++ done) tx.hash ∧
      ∃ ref, refAt queue.ready tx.hash = some ref ∧ ∀ hash other,
        refAt queue.ready hash = some other → hash ≠ tx.hash →
          hash ∉ before.map (·.hash) ++ done →
            queue.Eligible (before.map (·.hash) ++ done) hash → other.cmp ref = .lt

omit [DecidableEq T] in
theorem InOrderAfter.cons {tx : Transaction H T} {ref : TransactionRef H T}
    {rest : List (Transaction H T)} (found : refAt queue.ready tx.hash = some ref)
    (same : ref.transaction = tx) (left : tx.hash ∉ done) (eligible : queue.Eligible done tx.hash)
    (greatest : ∀ hash other, refAt queue.ready hash = some other → hash ≠ tx.hash → hash ∉ done →
      queue.Eligible done hash → other.cmp ref = .lt)
    (later : InOrderAfter queue (tx.hash :: done) rest) : InOrderAfter queue done (tx :: rest) where
  once := by
    refine nodup_cons.mpr ⟨fun again => ?_, later.once⟩
    obtain ⟨other, mem, equal⟩ := mem_map.mp again
    exact ((later.every other).mp mem).1 (equal ▸ mem_cons_self)
  every other := by
    rw [mem_cons, later.every, mem_cons, not_or]
    constructor
    · rintro (rfl | ⟨⟨-, remains⟩, queued⟩)
      · exact ⟨left, ref, found, same⟩
      · exact ⟨remains, queued⟩
    · rintro ⟨remains, there, present, equal⟩
      by_cases here : other.hash = tx.hash
      · rw [here, found] at present
        obtain rfl := Option.some.inj present
        exact .inl (equal.symm.trans same)
      · exact .inr ⟨⟨here, remains⟩, there, present, equal⟩
  greatest before other after split := by
    cases before with
    | nil =>
      obtain ⟨rfl, -⟩ := List.cons.inj split
      exact ⟨eligible, ref, found, greatest⟩
    | cons first more =>
      obtain ⟨rfl, tail⟩ := List.cons.inj split
      have moved : ∀ name, name ∈ more.map (·.hash) ++ tx.hash :: done ↔
          name ∈ (tx :: more).map (·.hash) ++ done := by
        intro name
        simp only [mem_append, mem_cons, map_cons]
        tauto
      obtain ⟨ready, there, present, least⟩ := later.greatest more other after tail
      refine ⟨fun provider depends => (moved _).mp (ready provider depends), there, present,
        fun hash entry stored ne fresh free => ?_⟩
      exact least hash entry stored ne (fun mem => fresh ((moved hash).mp mem))
        fun provider depends => (moved _).mpr (free provider depends)

theorem Iterating.drains (live : Live queue) (acyclic : Acyclic queue.Depends)
    {iterator : BestIterator H T} (state : Iterating queue done done [] iterator)
    (closed : ∀ hash ∈ done, queue.Eligible done hash) :
    ∃ yielded, iterator.Drains yielded ∧ InOrderAfter queue done yielded := by
  induction size : (queue.ready.keys.filter (· ∉ done)).card using Nat.strong_induction_on
    generalizing done iterator with
  | _ count ih =>
    cases taken : iterator.next with
    | none =>
      have nothing : ∀ hash ∈ queue.ready, hash ∈ done := by
        by_contra some
        push Not at some
        obtain ⟨hash, queued, left⟩ := some
        have nonempty : (queue.ready.keys.filter (· ∉ done)).Nonempty :=
          ⟨hash, Finset.mem_filter.mpr ⟨mem_keys.mpr queued, left⟩⟩
        obtain ⟨least, mem, free⟩ := acyclic.exists_minimal nonempty
        obtain ⟨present, remains⟩ := Finset.mem_filter.mp mem
        refine state.not_eligible_of_next live taken (mem_keys.mp present) remains ?_
        intro provider depends
        by_contra new
        exact free provider (Finset.mem_filter.mpr
          ⟨mem_keys.mpr depends.mem_provider, new⟩) depends
      refine ⟨[], .done taken, nodup_nil, fun tx => ?_, fun before tx after split => ?_⟩
      · refine iff_of_false not_mem_nil ?_
        rintro ⟨left, ref, found, -⟩
        exact left (nothing tx.hash (mem_of_refAt found))
      · cases before <;> cases split
    | some pair =>
      obtain ⟨tx, after⟩ := pair
      obtain ⟨ref, found, same, left, eligible, greatest, next⟩ :=
        state.next_greatest live closed taken
      have fewer : (queue.ready.keys.filter (· ∉ tx.hash :: done)).card < count := by
        rw [← size]
        apply Finset.card_lt_card
        refine Finset.ssubset_iff_of_subset ?_ |>.mpr ⟨tx.hash, ?_, ?_⟩
        · intro hash mem
          rw [Finset.mem_filter, mem_cons, not_or] at mem
          exact Finset.mem_filter.mpr ⟨mem.1, mem.2.2⟩
        · exact Finset.mem_filter.mpr ⟨mem_keys.mpr (mem_of_refAt found), left⟩
        · simp
      have closed' : ∀ hash ∈ tx.hash :: done, queue.Eligible (tx.hash :: done) hash := by
        intro hash mem provider depends
        refine mem_cons_of_mem _ ?_
        rcases mem_cons.mp mem with rfl | earlier
        · exact eligible provider depends
        · exact closed hash earlier provider depends
      obtain ⟨yielded, drains, order⟩ := ih _ fewer next closed' rfl
      exact ⟨tx :: yielded, .yields taken drains, order.cons found same left eligible greatest⟩

/-- **The order of the iterator.** In a live queue without cycles whose `best` is sorted, the
iterator yields every transaction once, after its providers and by priority. -/
theorem drains_inOrder (live : Live queue)
    (acyclic : Acyclic queue.Depends) (sorted : OrderedSet.Sorted cmp queue.best) :
    ∃ yielded, queue.get.Drains yielded ∧ queue.InOrder yielded := by
  obtain ⟨yielded, drains, order⟩ := (Iterating.start live sorted).drains live acyclic
    fun hash mem => absurd mem not_mem_nil
  refine ⟨yielded, drains, order.once, fun tx => ?_, fun before tx after split => ?_⟩
  · rw [order.every, and_iff_right not_mem_nil]
  · have here := order.greatest before tx after split
    rwa [append_nil] at here

end ReadyTransactions

end Brace.TransactionPool
