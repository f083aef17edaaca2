import Brace.TransactionPool.Promotion
import Brace.TransactionPool.PruneRound

/-!
# The support of ready transactions

A required tag of a queued transaction is supported when it was pruned, or when another queued
transaction provides it and lists the first one among the transactions it unlocks (`Supported`).
The lists are what a removal follows, so it takes out every transaction that loses its support.
They may name more than they should, and nothing here depends on that.
-/

namespace Brace.TransactionPool.ReadyTransactions

open Brace.Lib List HashMap

variable {H T : Type} [DecidableEq H] [DecidableEq T]

/-- The provider is queued and its list names the dependent. -/
def Lists (ready : HashMap H (ReadyTx H T)) (provider dependent : H) : Prop :=
  ∃ tx, Finmap.lookup provider ready = some tx ∧ dependent ∈ tx.unlocks

/-- Another queued transaction provides the tag and lists the dependent. -/
def Backs (ready : HashMap H (ReadyTx H T)) (tag : T) (dependent : H) : Prop :=
  ∃ provider ref, provider ≠ dependent ∧ refAt ready provider = some ref ∧
    tag ∈ ref.transaction.provides ∧ Lists ready provider dependent

/-- Every required tag of a queued transaction was pruned or is backed. -/
def Supported (pruned : T → Prop) (ready : HashMap H (ReadyTx H T)) : Prop :=
  ∀ hash ref, refAt ready hash = some ref → ∀ tag ∈ ref.transaction.requires,
    pruned tag ∨ Backs ready tag hash

omit [DecidableEq T] in
theorem Supported.always (ready : HashMap H (ReadyTx H T)) : Supported (fun _ => True) ready :=
  fun _ _ _ _ _ => .inl trivial

variable {ready : HashMap H (ReadyTx H T)} {hash provider dependent : H}
  {providedTags : HashMap T H} {tags : List T} {state : HashMap H (ReadyTx H T) × List T}
  {after queue current before : ReadyTransactions H T} {tag : T} {pruned : T → Prop}
  {roots stack unlocks : List H} {tx : Transaction H T}

section

omit [DecidableEq T]

theorem lists_erase :
    Lists (ready.erase hash) provider dependent ↔
      provider ≠ hash ∧ Lists ready provider dependent := by
  rw [Lists, lookup_erase_eq]
  split
  · rename_i same
    simp [same]
  · rename_i ne
    rw [and_iff_right ne, Lists]

end

theorem lists_forget {item : H → H} (ne : dependent ≠ item provider) :
    Lists (tags.foldl (forget item providedTags) ready) provider dependent ↔
      Lists ready provider dependent := by
  have mem : ∀ times items, dependent ∈ (removeItem (item provider))^[times] items ↔
      dependent ∈ items := by
    intro times items
    rw [← count_pos_iff, count_iterate_removeItem, if_neg ne, Nat.sub_zero, count_pos_iff]
  rw [Lists, forget_lookup, Lists]
  simp [mem]

theorem lists_of_forget {item : H → H}
    (listed : Lists (tags.foldl (forget item providedTags) ready) provider dependent) :
    Lists ready provider dependent := by
  obtain ⟨left, stored, mem⟩ := listed
  rw [forget_lookup] at stored
  obtain ⟨queued, before, rfl⟩ := Option.map_eq_some_iff.mp stored
  have positive := count_pos_iff.mpr mem
  rw [count_iterate_removeItem] at positive
  exact ⟨queued, before, count_pos_iff.mp (Nat.lt_of_lt_of_le positive (Nat.sub_le _ _))⟩

omit [DecidableEq T] in
theorem lists_unlock {hashes : List H}
    {state : HashMap H (ReadyTx H T) × List (TransactionRef H T)} :
    Lists (hashes.foldl unlock state).1 provider dependent ↔ Lists state.1 provider dependent := by
  simp [Lists, unlock_lookup]

/-! ## Removal -/

/-- The transactions that a removal may visit: the given ones, and the ones in the lists of the
transactions it visits. -/
inductive Below (ready : HashMap H (ReadyTx H T)) (roots : H → Prop) : H → Prop
  | root {hash : H} : roots hash → Below ready roots hash
  | listed {hash other : H} : Below ready roots hash → Lists ready hash other →
      Below ready roots other

/-- The queue in the middle of a removal: a queued transaction that lost support is still to be
visited, or lost it to the tags that the filter keeps. -/
structure Losing (pruned : T → Prop) (queue : ReadyTransactions H T) (kept : Finset T)
    (roots : List H) (current : ReadyTransactions H T) (stack : List H) : Prop where
  provided : Provided kept current.providedTags current.ready
  fewer : ∀ hash ref, refAt current.ready hash = some ref → refAt queue.ready hash = some ref
  lists : ∀ provider dependent, provider ≠ dependent → Lists current.ready provider dependent →
    Lists queue.ready provider dependent
  visits : ∀ hash ∈ stack, Below queue.ready (· ∈ roots) hash
  untouched : ∀ hash, ¬ Below queue.ready (· ∈ roots) hash →
    refAt current.ready hash = refAt queue.ready hash
  support : ∀ hash ref, refAt current.ready hash = some ref → hash ∈ stack ∨
    ∀ tag ∈ ref.transaction.requires, pruned tag ∨ Backs current.ready tag hash ∨
      tag ∈ kept ∧ ∃ provider, queue.Provides tag provider ∧ Lists queue.ready provider hash

theorem Losing.skip {kept : Finset T}
    (losing : Losing pruned queue kept roots current (hash :: stack))
    (absent : current.ready.lookup hash = none) : Losing pruned queue kept roots current stack where
  __ := losing
  visits other mem := losing.visits other (List.mem_cons_of_mem _ mem)
  support other ref found := by
    refine (losing.support other ref found).imp_left fun mem => ?_
    rcases mem_cons.mp mem with rfl | later
    · rw [refAt, absent] at found
      cases found
    · exact later

theorem Losing.take {tagFilter : Option (Finset T)}
    {state : ReadyTransactions H T × List (Transaction H T)} {tx : ReadyTx H T}
    (losing : Losing pruned queue (tagFilter.getD ∅) roots state.1 (hash :: stack))
    (stored : state.1.ready.lookup hash = some tx) {next : ReadyTransactions H T}
    (provided : Provided (tagFilter.getD ∅) next.providedTags next.ready)
    (refs : ∀ other, refAt next.ready other =
      if other = hash then none else refAt state.1.ready other)
    (lists : ∀ provider dependent, provider ≠ dependent →
      (Lists next.ready provider dependent ↔
        provider ≠ hash ∧ Lists state.1.ready provider dependent)) :
    Losing pruned queue (tagFilter.getD ∅) roots next
      ((if invalidated tagFilter tx = [] then [] else tx.unlocks.reverse) ++ stack) := by
  have below := losing.visits hash mem_cons_self
  have own := refAt_of_lookup stored
  refine ⟨provided, fun other ref found => ?_, fun provider dependent ne listed => ?_,
    fun other mem => ?_, fun other outside => ?_, fun other ref found => ?_⟩
  · exact losing.fewer other ref (refAt_of_gone refs found)
  · exact losing.lists provider dependent ne
      ((lists provider dependent ne).mp listed).2
  · rcases mem_append.mp mem with pushed | before
    · split at pushed
      · exact absurd pushed not_mem_nil
      · by_cases self : hash = other
        · exact self ▸ below
        · exact below.listed (losing.lists hash other self
            ⟨tx, stored, mem_reverse.mp pushed⟩)
    · exact losing.visits other (mem_cons_of_mem _ before)
  · have ne : other ≠ hash := fun same => outside (same ▸ below)
    rw [refs, if_neg ne, losing.untouched other outside]
  · rw [refs] at found
    split at found
    · cases found
    · rename_i ne
      rcases losing.support other ref found with mem | support
      · exact .inl (mem_append_right _ ((mem_cons.mp mem).resolve_left ne))
      · -- the dependents of the transaction are visited, unless the filter keeps all its tags
        by_cases pushed : invalidated tagFilter tx ≠ [] ∧ other ∈ tx.unlocks
        · left
          rw [if_neg pushed.1]
          exact mem_append_left _ (mem_reverse.mpr pushed.2)
        · refine .inr fun tag required => ?_
          rcases support tag required with known | backs | dangling
          · exact .inl known
          · obtain ⟨provider, ref', apart, there, provides, listed⟩ := backs
            by_cases here : provider = hash
            · subst here
              obtain rfl := Option.some.inj (own.symm.trans there)
              obtain ⟨same, again, unlocks⟩ := listed
              obtain rfl := Option.some.inj (stored.symm.trans again)
              have nothing : invalidated tagFilter tx = [] := by
                by_contra some
                exact pushed ⟨some, unlocks⟩
              have keeps : tag ∈ tagFilter.getD ∅ := by
                by_contra lost
                have mem := mem_invalidated.mpr ⟨provides, lost⟩
                rw [nothing] at mem
                exact absurd mem not_mem_nil
              exact .inr (.inr ⟨keeps, provider, ⟨_, losing.fewer _ _ own, provides⟩,
                losing.lists provider other apart ⟨tx, stored, unlocks⟩⟩)
            · refine .inr (.inl ⟨provider, ref', apart, ?_, provides, ?_⟩)
              · rw [refs, if_neg here, there]
              · exact (lists provider other apart).mpr ⟨here, listed⟩
          · exact .inr (.inr dangling)

/-- What a removal leaves: transactions it may not visit stay, and a transaction that stays is
supported, or was listed by a provider of a tag that the filter keeps. -/
theorem removeSubtreeWithTagFilter_losing (queue : ReadyTransactions H T)
    (supported : Supported pruned queue.ready) (toRemove : List H) (tagFilter : Option (Finset T))
    (provided : Provided (tagFilter.getD ∅) queue.providedTags queue.ready) :
    ∃ after removed, queue.removeSubtreeWithTagFilter toRemove tagFilter = .ok (after, removed) ∧
      Losing pruned queue (tagFilter.getD ∅) toRemove after [] := by
  let inv := fun (state : ReadyTransactions H T × List (Transaction H T)) (stack : List H) =>
    Losing pruned queue (tagFilter.getD ∅) toRemove state.1 stack
  have start : inv (queue, []) toRemove.reverse := by
    refine ⟨provided, fun _ _ found => found, fun _ _ _ listed => listed, fun hash mem => ?_,
      fun _ _ => rfl, fun hash ref found => .inr fun tag required => ?_⟩
    · exact .root (mem_reverse.mp mem)
    · exact (supported hash ref found tag required).imp_right .inl
  obtain ⟨after, removed, ended, -, final⟩ := removeSubtreeWithTagFilter_rule provided start
    (fun state hash rest losing absent => losing.skip absent) (by
      intro state hash rest tx next pushed losing stored ran kept refs _
      simp only [removeNext, stored] at ran
      obtain ⟨rfl, rfl⟩ := ok_pair_inj ran
      refine losing.take stored kept refs fun provider dependent ne => ?_
      rw [forgetUnlock_eq, lists_forget ne.symm, lists_erase])
  exact ⟨after, removed, ended, final⟩

theorem removeSubtree_supported (supported : Supported pruned queue.ready)
    (provided : Provided ∅ queue.providedTags queue.ready) (hashes : List H) :
    ∃ after removed, queue.removeSubtree hashes = .ok (after, removed) ∧
      Supported pruned after.ready ∧ ∀ hash, ¬ Below queue.ready (· ∈ hashes) hash →
        refAt after.ready hash = refAt queue.ready hash := by
  obtain ⟨after, removed, ran, losing⟩ :=
    removeSubtreeWithTagFilter_losing queue supported hashes none provided
  refine ⟨after, removed, ran, fun hash ref found tag required => ?_, losing.untouched⟩
  rcases losing.support hash ref found with mem | support
  · exact absurd mem not_mem_nil
  · rcases support tag required with known | backs | ⟨dangling, -⟩
    · exact .inl known
    · exact .inr backs
    · exact absurd dangling (Finset.notMem_empty tag)

/-! ## Import -/

/-- What a placement lists: the lists grow, and the providers of the required tags list the new
transaction. -/
theorem Placed.lists (placed : Placed tx unlocks before after) (ne : provider ≠ tx.hash)
    (listed : Lists before.ready provider dependent ∨ dependent = tx.hash ∧
      provider ∈ before.ready ∧ ∃ tag ∈ tx.requires, before.providedTags.lookup tag =
        some provider) : Lists after.ready provider dependent := by
  rw [Lists, placed.others provider ne]
  rcases listed with ⟨queued, stored, mem⟩ | ⟨rfl, mem, tag, required, mapped⟩
  · rw [stored]
    exact ⟨_, rfl, mem_append_left _ mem⟩
  · obtain ⟨queued, stored⟩ := Finmap.mem_iff.mp mem
    rw [stored]
    refine ⟨_, rfl, mem_append_right _ (mem_replicate.mpr ⟨?_, rfl⟩)⟩
    exact Nat.ne_of_gt (countP_pos_iff.mpr ⟨tag, required, decide_eq_true mapped⟩)

/-- A placed transaction whose required tags were pruned or are provided leaves the queue
supported, when it takes over the dependents that the replacement left without support. -/
theorem Placed.supported (placed : Placed tx unlocks before after)
    (fresh : refAt before.ready tx.hash = none)
    (required : ∀ tag ∈ tx.requires, pruned tag ∨ ∃ provider,
      before.providedTags.lookup tag = some provider ∧ before.Provides tag provider)
    (support : ∀ hash ref, refAt before.ready hash = some ref → ∀ tag ∈ ref.transaction.requires,
      pruned tag ∨ Backs before.ready tag hash ∨ tag ∈ tx.provides ∧ hash ∈ unlocks) :
    Supported pruned after.ready := by
  intro hash ref found tag needs
  by_cases here : hash = tx.hash
  · subst here
    rw [placed.refAt_own] at found
    obtain rfl := Option.some.inj found
    refine (required tag needs).imp_right ?_
    rintro ⟨provider, mapped, ref, there, provides⟩
    have ne := ne_of_refAt fresh there
    refine ⟨provider, ref, ne, (placed.refAt_others ne).trans there, provides, ?_⟩
    exact placed.lists ne (.inr ⟨rfl, mem_of_refAt there, tag, needs, mapped⟩)
  · rw [placed.refAt_others here] at found
    rcases support hash ref found tag needs with known | backs | ⟨provides, mem⟩
    · exact .inl known
    · obtain ⟨provider, ref', apart, there, gives, listed⟩ := backs
      have ne := ne_of_refAt fresh there
      exact .inr ⟨provider, ref', apart, (placed.refAt_others ne).trans there, gives,
        placed.lists ne (.inl listed)⟩
    · exact .inr ⟨tx.hash, _, Ne.symm here, placed.refAt_own, provides, _, placed.own, mem⟩

theorem Joined.supported (joined : Joined tx queue after)
    (provided : Provided ∅ queue.providedTags queue.ready)
    (fresh : refAt queue.ready tx.hash = none) (supported : Supported pruned queue.ready)
    (required : ∀ tag ∈ tx.requires, pruned tag ∨ tag ∈ queue.providedTags) :
    Supported pruned after.ready := by
  refine Placed.supported joined fresh (fun tag needs => ?_) fun hash ref found tag needs =>
    (supported hash ref found tag needs).imp_right .inl
  refine (required tag needs).imp_right fun mem => ?_
  obtain ⟨provider, mapped⟩ := Finmap.mem_iff.mp mem
  exact ⟨provider, mapped, provided.mapped_iff.mp mapped⟩

theorem apart_of_accepted (safe : tx.Safe) (some : queue.replaceHashes tx ≠ ∅)
    (high : ¬ queue.Refused tx) : ∀ tag ∈ tx.requires, tag ∉ tx.provides := by
  refine safe.1.resolve_left fun zero => high ⟨some, ?_⟩
  rw [zero]
  exact Nat.zero_le _

theorem mem_replacedUnlocks (order : Order H T)
    (provided : Provided ∅ queue.providedTags queue.ready)
    (own : tag ∈ tx.provides) (provides : queue.Provides tag provider)
    (listed : Lists queue.ready provider hash) : hash ∈ queue.replacedUnlocks order tx := by
  obtain ⟨queued, stored, mem⟩ := listed
  have mapped := provided.mapped_iff.mpr provides
  refine mem_flatMap.mpr ⟨queued, mem_filterMap.mpr ⟨provider, ?_, stored⟩, mem⟩
  exact (order.replaced.mem_list _ _ _).mpr (mem_replaceHashes.mpr ⟨tag, own, mapped⟩)

section

variable {order : Order H T} {middle : ReadyTransactions H T} {removed : List (Transaction H T)}
  (accepted : Accepted order tx queue middle after unlocks removed)
  (provided : Provided ∅ queue.providedTags queue.ready)

include accepted provided

/-- The replacement of an accepted import: nothing is replaced, or a removal begins at the replaced
transactions. -/
theorem Accepted.cases (supported : Supported pruned queue.ready) :
    (middle = { queue with insertionId := queue.insertionId + 1 } ∧ queue.replaceHashes tx = ∅) ∨
      queue.replaceHashes tx ≠ ∅ ∧ ¬ queue.Refused tx ∧ unlocks = queue.replacedUnlocks order tx ∧
        Losing pruned { queue with insertionId := queue.insertionId + 1 } tx.provides.toFinset
          (queue.replacedList order tx) middle [] := by
  let bumped := { queue with insertionId := queue.insertionId + 1 }
  rcases replacePrevious_outcome order bumped tx with ⟨-, error, ran⟩ | ⟨-, nothing, ran⟩ |
    ⟨high, some, called⟩
  · have both := Except.ok.inj (ran.symm.trans accepted.replaced)
    cases (Prod.mk.inj both).2
  · exact .inl ⟨(ok_pair_inj (ran.symm.trans accepted.replaced)).1.symm, nothing⟩
  · obtain ⟨left, gone, removes, losing⟩ := removeSubtreeWithTagFilter_losing bumped supported
      (bumped.replacedList order tx) (Option.some tx.provides.toFinset) provided.partly
    obtain ⟨⟨_, _⟩, again, same⟩ := bind_eq_ok.mp (called.symm.trans accepted.replaced)
    obtain ⟨rfl, rfl⟩ := ok_pair_inj (removes.symm.trans again)
    obtain ⟨rfl, equal⟩ := ok_pair_inj same
    exact .inr ⟨some, high, (ok_pair_inj equal).2.symm, losing⟩

theorem Accepted.untouched (outside : ¬ Below queue.ready (· ∈ queue.replaceHashes tx) hash) :
    refAt middle.ready hash = refAt queue.ready hash := by
  rcases accepted.cases provided (.always _) with
    ⟨rfl, -⟩ | ⟨-, -, -, losing⟩
  · rfl
  · refine losing.untouched hash fun below => outside ?_
    simp only [replacedList, order.replaced.mem_list] at below
    exact below

theorem Accepted.provides (safe : tx.Safe) (needs : tag ∈ tx.requires)
    (mapped : middle.providedTags.lookup tag = some provider) : queue.Provides tag provider := by
  rcases accepted.cases provided (.always _) with
    ⟨rfl, -⟩ | ⟨some, high, -, losing⟩
  · exact provided.mapped_iff.mp mapped
  · have outer : tag ∉ tx.provides.toFinset := fun own =>
      apart_of_accepted safe some high tag needs (mem_toFinset.mp own)
    obtain ⟨ref, found, gives⟩ := (losing.provided.provided tag outer provider).mp mapped
    exact ⟨ref, losing.fewer provider ref found, gives⟩

/-- What an accepted import adds to the list of another transaction: the new one, when it requires
one of its tags. -/
theorem Accepted.lists (safe : tx.Safe) (ne : provider ≠ tx.hash) (apart : provider ≠ dependent)
    (listed : Lists after.ready provider dependent) : Lists queue.ready provider dependent ∨
      dependent = tx.hash ∧ ∃ tag ∈ tx.requires, queue.Provides tag provider := by
  obtain ⟨grown, stored, mem⟩ := listed
  rw [accepted.placed.others provider ne] at stored
  obtain ⟨queued, before, rfl⟩ := Option.map_eq_some_iff.mp stored
  rcases mem_append.mp mem with old | new
  · left
    rcases accepted.cases provided (.always _) with
      ⟨rfl, -⟩ | ⟨-, -, -, losing⟩
    · exact ⟨queued, before, old⟩
    · exact losing.lists provider dependent apart ⟨queued, before, old⟩
  · obtain ⟨some, same⟩ := mem_replicate.mp new
    obtain ⟨tag, needs, mapped⟩ := countP_pos_iff.mp (Nat.pos_of_ne_zero some)
    exact .inr ⟨same, tag, needs,
      accepted.provides provided safe needs (of_decide_eq_true mapped)⟩

theorem Accepted.supported (safe : tx.Safe) (fresh : refAt queue.ready tx.hash = none)
    (supported : Supported pruned queue.ready)
    (required : ∀ tag ∈ tx.requires, pruned tag ∨ ∃ provider, queue.Provides tag provider ∧
      ¬ Below queue.ready (· ∈ queue.replaceHashes tx) provider) :
    Supported pruned after.ready := by
  rcases accepted.cases provided supported with ⟨rfl, nothing⟩ | ⟨some, high, rfl, losing⟩
  · have absent : refAt queue.ready tx.hash = none := fresh
    refine accepted.placed.supported absent (fun tag needs => ?_) fun hash ref found tag needs =>
      (supported hash ref found tag needs).imp_right .inl
    refine (required tag needs).imp_right ?_
    rintro ⟨provider, provides, -⟩
    exact ⟨provider, provided.mapped_iff.mpr provides, provides⟩
  · have absent : refAt middle.ready tx.hash = none :=
      eq_none_of_earlier (accepted.fewer tx.hash) fresh
    refine accepted.placed.supported absent (fun tag needs => ?_) fun hash ref found tag needs => ?_
    · refine (required tag needs).imp_right ?_
      rintro ⟨provider, ⟨ref, found, provides⟩, outside⟩
      have stays : middle.Provides tag provider :=
        ⟨ref, (accepted.untouched provided outside).trans found, provides⟩
      have outer : tag ∉ tx.provides.toFinset := fun own =>
        apart_of_accepted safe some high tag needs (mem_toFinset.mp own)
      exact ⟨provider, (losing.provided.provided tag outer provider).mpr stays, stays⟩
    · rcases losing.support hash ref found with mem | support
      · exact absurd mem not_mem_nil
      · refine (support tag needs).imp_right (Or.imp_right ?_)
        rintro ⟨own, provider, provides, listed⟩
        have mem := mem_toFinset.mp own
        exact ⟨mem, mem_replacedUnlocks order provided mem provides listed⟩

end

/-! ## Pruning -/

/-- The transactions that a pruning of some tags may take out: their providers, and the providers
of what these require. -/
inductive Upstream (queue : ReadyTransactions H T) (tags : T → Prop) : H → Prop
  | provider {tag : T} {hash : H} : tags tag → queue.Provides tag hash → Upstream queue tags hash
  | previous {hash other : H} {ref : TransactionRef H T} {tag : T} : Upstream queue tags hash →
      refAt queue.ready hash = some ref → tag ∈ ref.transaction.requires →
      queue.Provides tag other → Upstream queue tags other

/-- The queue in the middle of a pruning that began in some queue. -/
structure Clearing (pruned : T → Prop) (queue : ReadyTransactions H T) (tags : T → Prop)
    (current : ReadyTransactions H T) (stack : List T) : Prop where
  fewer : ∀ hash ref, refAt current.ready hash = some ref → refAt queue.ready hash = some ref
  supported : Supported pruned current.ready
  upstream : ∀ tag ∈ stack, ∀ hash, queue.Provides tag hash → Upstream queue tags hash
  gone : ∀ hash ref, refAt queue.ready hash = some ref → refAt current.ready hash = some ref ∨
    Upstream queue tags hash

section

variable {tags : T → Prop} (exact : Provided ∅ queue.providedTags queue.ready)
  (covered : ∀ hash, Upstream queue tags hash → ∀ ref, refAt queue.ready hash = some ref →
    ∀ tag ∈ ref.transaction.provides, pruned tag)

include exact covered

theorem Clearing.take {state next : ReadyTransactions H T × List (Transaction H T)}
    {rest pushed : List T} {tx : ReadyTx H T}
    (clearing : Clearing pruned queue tags state.1 (tag :: rest))
    (provided : Provided ∅ state.1.providedTags state.1.ready)
    (mapped : state.1.providedTags.lookup tag = some hash)
    (stored : state.1.ready.lookup hash = some tx)
    (ran : pruneNext state tag = .ok (next, pushed)) :
    Clearing pruned queue tags next.1 (pushed ++ rest) := by
  rw [pruneNext_eq provided mapped stored] at ran
  obtain ⟨rfl, rfl⟩ := ok_pair_inj ran
  have own := refAt_of_lookup stored
  have first := clearing.fewer hash _ own
  obtain ⟨ref, found, provides⟩ := provided.mapped_iff.mp mapped
  obtain rfl := Option.some.inj (own.symm.trans found)
  have above : Upstream queue tags hash :=
    clearing.upstream tag mem_cons_self hash ⟨_, first, provides⟩
  let left := tx.requires.foldl (findPrevious hash (state.1.providedTags.erase tag))
    (state.1.ready.erase hash, [])
  have refs : ∀ other, refAt (tx.unlocks.foldl unlock (left.1, state.1.best)).1 other =
      if other = hash then none else refAt state.1.ready other := by
    intro other
    rw [refAt_unlock, findPrevious_fst, refAt_forget, refAt_erase]
  have lists : ∀ provider dependent, dependent ≠ hash → provider ≠ hash →
      Lists state.1.ready provider dependent →
        Lists (tx.unlocks.foldl unlock (left.1, state.1.best)).1 provider dependent := by
    intro provider dependent ne apart listed
    rw [lists_unlock, findPrevious_fst, lists_forget ne, lists_erase]
    exact ⟨apart, listed⟩
  refine ⟨fun other ref stays => ?_, fun other ref stays name required => ?_,
    fun name mem other provides => ?_, fun other ref before => ?_⟩
  · exact clearing.fewer other ref (refAt_of_gone refs stays)
  · rw [refs] at stays
    split at stays
    · cases stays
    · rename_i ne
      rcases clearing.supported other ref stays name required with known | backs
      · exact .inl known
      · obtain ⟨provider, ref', apart, there, supplies, listed⟩ := backs
        by_cases here : provider = hash
        · subst here
          exact .inl (covered provider above ref' (clearing.fewer _ _ there) name supplies)
        · refine .inr ⟨provider, ref', apart, ?_, supplies, lists _ _ ne here listed⟩
          rw [refs, if_neg here, there]
  · rcases mem_append.mp mem with new | before
    · rcases (mem_findPrevious _ _ _ _ _).mp (mem_reverse.mp new) with nothing |
        ⟨needed, required, previous, left, linked, found, -, supplies⟩
      · exact absurd nothing not_mem_nil
      · have there := refAt_of_lookup found
        rw [lookup_erase_eq] at linked
        rw [findPrevious_fst, refAt_forget, refAt_erase] at there
        split at linked
        · cases linked
        · split at there
          · cases there
          · have queued := clearing.fewer previous _ there
            have unique : other = previous := Option.mem_unique (exact.mapped_iff.mpr provides)
              (exact.mapped_iff.mpr ⟨_, queued, supplies⟩)
            obtain ⟨same, again, gives⟩ := provided.mapped_iff.mp linked
            exact unique ▸ above.previous first required
              ⟨same, clearing.fewer previous same again, gives⟩
    · exact clearing.upstream name (mem_cons_of_mem _ before) other provides
  · rcases clearing.gone other ref before with there | gone
    · by_cases here : other = hash
      · exact .inr (here ▸ above)
      · left
        rw [refs, if_neg here, there]
    · exact .inr gone

/-- A pruning keeps the queue supported, when the tags of the transactions it may take out count
as pruned. -/
theorem pruneTags_clearing (clearing : Clearing pruned queue tags current [])
    (provided : Provided ∅ current.providedTags current.ready) (given : tags tag) :
    ∃ after removed, current.pruneTags tag = .ok (after, removed) ∧
      Provided ∅ after.providedTags after.ready ∧
      Within after.ready current.ready ∧
      Clearing pruned queue tags after [] := by
  refine pruneTags_rule (fun state stack => Clearing pruned queue tags state.1 stack) provided
    ⟨clearing.fewer, clearing.supported, ?_, clearing.gone⟩ ?_ ?_
  · intro name mem hash provides
    exact .provider (mem_singleton.mp mem ▸ given) provides
  · intro state name rest clearing _
    exact ⟨clearing.fewer, clearing.supported,
      fun other mem => clearing.upstream other (mem_cons_of_mem _ mem), clearing.gone⟩
  · intro state name rest hash tx next pushed clearing provided mapped stored ran _
    exact clearing.take exact covered provided mapped stored ran

end

end Brace.TransactionPool.ReadyTransactions
