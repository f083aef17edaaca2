import Brace.Lib.Loop
import Brace.TransactionPool.Ready

/-!
# The provided tags of the ready queue

`provided_tags` maps a tag to the one queued transaction that provides it (`Provided`). The lists
of unlocked transactions and the offsets play no part in it. During a replacement the tags of the
new transaction still name the transactions that it replaces, so the map is exact outside a set of
tags, and exact again when the new transaction is inserted.

This is what `HASH_READY` and the assertion of `prune_tags` claim. Removal always keeps it; pruning
needs that a transaction does not repeat one of several tags, and an import that replaces
transactions needs that no tag is both required and provided.
-/

namespace Brace.TransactionPool

open Brace.Lib List Finmap HashMap Option

variable {H T : Type} [DecidableEq H] [DecidableEq T]

variable (tx : Transaction H T)

/-- A tag that the transaction provides more than once is the only tag it provides. -/
def Transaction.RepeatsAlone : Prop :=
  ∀ tag ∈ tx.provides, 1 < tx.provides.count tag → ∀ other ∈ tx.provides, other = tag

/-- A transaction that no run of a pool can panic at: it does not repeat one of several provided
tags, and it has no tag both required and provided or it can replace no transaction. -/
def Transaction.Safe : Prop :=
  (tx.priority = 0 ∨ ∀ tag ∈ tx.requires, tag ∉ tx.provides) ∧ tx.RepeatsAlone

instance : Decidable tx.RepeatsAlone :=
  inferInstanceAs (Decidable (∀ tag ∈ tx.provides, _ → ∀ other ∈ tx.provides, _))

instance : Decidable tx.Safe :=
  inferInstanceAs (Decidable ((_ ∨ ∀ tag ∈ tx.requires, tag ∉ tx.provides) ∧ _))

theorem eq_none_of_earlier {α : Type} {before after : Option α}
    (earlier : ∀ value, after = some value → before = some value) (absent : before = none) :
    after = none := by
  cases found : after with
  | none => rfl
  | some value =>
    rw [earlier value found] at absent
    cases absent

def refAt (ready : HashMap H (ReadyTx H T)) (hash : H) : Option (TransactionRef H T) :=
  (Finmap.lookup hash ready).map (·.transaction)

/-- The transactions of one table are in another one. -/
abbrev Within (left right : HashMap H (ReadyTx H T)) : Prop :=
  ∀ hash ref, refAt left hash = some ref → refAt right hash = some ref

variable {ready : HashMap H (ReadyTx H T)} {hash : H}

variable {ref : TransactionRef H T}

section

omit [DecidableEq T]

theorem lookup_of_refAt (found : refAt ready hash = some ref) :
    ∃ tx, ready.lookup hash = some tx ∧ tx.transaction = ref :=
  map_eq_some_iff.mp found

theorem refAt_of_lookup {tx : ReadyTx H T} (stored : ready.lookup hash = some tx) :
    refAt ready hash = some tx.transaction :=
  map_eq_some_iff.mpr ⟨tx, stored, rfl⟩

theorem refAt_eq_none : refAt ready hash = none ↔ hash ∉ ready := by
  rw [refAt, map_eq_none_iff, lookup_eq_none]

theorem ne_of_refAt {new : H} (fresh : refAt ready new = none)
    (found : refAt ready hash = some ref) :
    hash ≠ new := by
  rintro rfl
  rw [fresh] at found
  cases found

variable (ready)

theorem refAt_insert (hash other : H) (tx : ReadyTx H T) :
    refAt (ready.insert hash tx) other =
      if other = hash then some tx.transaction else refAt ready other := by
  rw [refAt, lookup_insert_eq, refAt]
  split <;> rfl

theorem refAt_erase (hash other : H) :
    refAt (ready.erase hash) other = if other = hash then none else refAt ready other := by
  rw [refAt, lookup_erase_eq, refAt]
  split <;> rfl

variable {ready}

theorem refAt_update {old new : ReadyTx H T} (stored : ready.lookup hash = some old)
    (same : new.transaction = old.transaction) : refAt (ready.insert hash new) = refAt ready := by
  funext other
  rw [refAt_insert]
  split
  · rename_i here
    rw [here, refAt, stored, same]
    rfl
  · rfl

end

namespace ReadyTransactions

/-- An item is taken out of the list of the provider of a tag, if there is one in the queue. The
loops `forgetUnlock` and `findPrevious` differ in the item. -/
def forget (item : H → H) (providedTags : HashMap T H) (ready : HashMap H (ReadyTx H T)) (tag : T) :
    HashMap H (ReadyTx H T) :=
  match providedTags.lookup tag with
  | none => ready
  | some hash =>
    match ready.lookup hash with
    | none => ready
    | some tx => ready.insert hash { tx with unlocks := removeItem (item hash) tx.unlocks }

theorem forget_lookup (item : H → H) (providedTags : HashMap T H) (tags : List T)
    (ready : HashMap H (ReadyTx H T)) (other : H) :
    (tags.foldl (forget item providedTags) ready).lookup other =
      (ready.lookup other).map fun queued => { queued with
        unlocks := (removeItem (item other))^[tags.countP fun tag =>
          providedTags.lookup tag = some other] queued.unlocks } := by
  induction tags generalizing ready with
  | nil => simp
  | cons tag rest ih =>
    rw [foldl_cons, ih, countP_cons]
    cases mapped : providedTags.lookup tag with
    | none => simp [forget, mapped]
    | some hash =>
      by_cases same : other = hash
      · subst same
        cases stored : ready.lookup other <;> simp [forget, mapped, stored]
      · cases stored : ready.lookup hash <;> simp [forget, mapped, stored, same, Ne.symm same]

theorem refAt_forget (item : H → H) (providedTags : HashMap T H) (tags : List T)
    (ready : HashMap H (ReadyTx H T)) :
    refAt (tags.foldl (forget item providedTags) ready) = refAt ready := by
  funext other
  rw [refAt, forget_lookup, Option.map_map]
  rfl

theorem forgetUnlock_eq (providedTags : HashMap T H) :
    forgetUnlock providedTags = forget (H := H) id providedTags := rfl

theorem findPrevious_fst (hash : H) (providedTags : HashMap T H) (tags : List T)
    (state : HashMap H (ReadyTx H T) × List T) :
    (tags.foldl (findPrevious hash providedTags) state).1 =
      tags.foldl (forget (fun _ => hash) providedTags) state.1 := by
  refine (foldl_hom Prod.fst fun state tag => ?_).symm
  cases mapped : providedTags.lookup tag with
  | none => simp [forget, findPrevious, mapped]
  | some previous =>
    cases stored : state.1.lookup previous <;> simp [forget, findPrevious, mapped, stored]

section

omit [DecidableEq T]

section

variable (hashes : List H) (state : HashMap H (ReadyTx H T) × List (TransactionRef H T))

include hashes state

theorem unlock_lookup (other : H) :
    (hashes.foldl unlock state).1.lookup other =
      (state.1.lookup other).map fun queued =>
        { queued with requiresOffset := queued.requiresOffset + hashes.count other } := by
  induction hashes generalizing state with
  | nil => simp
  | cons hash rest ih =>
    rw [foldl_cons, ih]
    cases stored : state.1.lookup hash with
    | none =>
      simp only [unlock, stored]
      by_cases same : other = hash
      · subst same
        simp [stored]
      · rw [count_cons_of_ne (Ne.symm same)]
    | some queued =>
      simp only [unlock, stored, lookup_insert_eq]
      by_cases same : other = hash
      · subst same
        rw [if_pos rfl, stored, count_cons_self]
        simp only [map_some, Nat.add_right_comm, Nat.add_assoc]
      · rw [if_neg same, count_cons_of_ne (Ne.symm same)]

theorem refAt_unlock : refAt (hashes.foldl unlock state).1 = refAt state.1 := by
  funext other
  rw [refAt, unlock_lookup, Option.map_map]
  rfl

end

end

/-! ## Exactness outside a set of tags -/

/-- The provided tags are exact, except for the tags of a set. -/
structure Provided (outside : Finset T) (providedTags : HashMap T H)
    (ready : HashMap H (ReadyTx H T)) : Prop where
  hash : ∀ hash ref, refAt ready hash = some ref → ref.transaction.hash = hash
  repeats : ∀ hash ref, refAt ready hash = some ref → ref.transaction.RepeatsAlone
  provided : ∀ tag ∉ outside, ∀ hash, Finmap.lookup tag providedTags = some hash ↔
    ∃ ref, refAt ready hash = some ref ∧ tag ∈ ref.transaction.provides

variable {outside : Finset T} {providedTags after : HashMap T H}
  {ready left : HashMap H (ReadyTx H T)} {hash : H} {tagFilter : Option (Finset T)}
  {tx : ReadyTx H T} {tag currentTag : T} {state : ReadyTransactions H T × List (Transaction H T)}
  {queue : ReadyTransactions H T} {tags : List T} {start : Linking H T} {bound : Nat}

section

variable (provided : Provided ∅ providedTags ready)

include provided

theorem Provided.mapped_iff : providedTags.lookup tag = some hash ↔
    ∃ ref, refAt ready hash = some ref ∧ tag ∈ ref.transaction.provides :=
  provided.provided tag (Finset.notMem_empty tag) hash

theorem Provided.mem_iff : tag ∈ providedTags ↔
    ∃ provider ref, refAt ready provider = some ref ∧ tag ∈ ref.transaction.provides :=
  Finmap.mem_iff.trans (exists_congr fun _ => provided.mapped_iff)

theorem Provided.partly : Provided outside providedTags ready :=
  ⟨provided.hash, provided.repeats, fun _ _ _ => provided.mapped_iff⟩

end

omit [DecidableEq T] in
theorem refAt_of_gone {other : H}
    (gone : ∀ other, refAt left other = if other = hash then none else refAt ready other)
    (found : refAt left other = some ref) : refAt ready other = some ref := by
  rw [gone] at found
  split at found
  · cases found
  · exact found

theorem Provided.removed (provided : Provided outside providedTags ready)
    (queued : refAt ready hash = some ref)
    (gone : ∀ other, refAt left other = if other = hash then none else refAt ready other)
    (cleared : ∀ tag ∉ outside, after.lookup tag =
      if tag ∈ ref.transaction.provides then none else providedTags.lookup tag) :
    Provided outside after left where
  hash other found stored := provided.hash other found (refAt_of_gone gone stored)
  repeats other found stored := provided.repeats other found (refAt_of_gone gone stored)
  provided tag exact other := by
    rw [cleared tag exact, gone]
    have before := provided.provided tag exact
    by_cases own : tag ∈ ref.transaction.provides
    · have mapped := (before hash).mpr ⟨ref, queued, own⟩
      rw [if_pos own]
      constructor
      · exact fun impossible => nomatch impossible
      · rintro ⟨found, stored, mem⟩
        split at stored
        · cases stored
        · rename_i ne
          have again := (before other).mpr ⟨found, stored, mem⟩
          rw [mapped] at again
          exact absurd (some.inj again).symm ne
    · rw [if_neg own, before]
      by_cases same : other = hash
      · subst same
        rw [if_pos rfl, queued]
        simp [own]
      · rw [if_neg same]

/-! ## Removal -/

theorem forgetUnlock_shortens (providedTags : HashMap T H) (tags : List T)
    (ready : HashMap H (ReadyTx H T)) (hash : H) (tx : ReadyTx H T)
    (found : (tags.foldl (forgetUnlock providedTags) ready).lookup hash = some tx) :
    ∃ old, ready.lookup hash = some old ∧ tx.unlocks.length ≤ old.unlocks.length := by
  rw [forgetUnlock_eq, forget_lookup, map_eq_some_iff] at found
  obtain ⟨old, stored, rfl⟩ := found
  refine ⟨old, stored, ?_⟩
  refine Function.Iterate.rec (fun items : List H => items.length ≤ old.unlocks.length) le_rfl ?_ _
  intro items shorter
  rw [(removeItem_perm _ _).length_eq]
  exact length_erase_le.trans shorter

omit [DecidableEq H] in
theorem mem_invalidated :
    tag ∈ invalidated tagFilter tx ↔ tag ∈ tx.provides ∧ tag ∉ tagFilter.getD ∅ := by
  cases tagFilter <;> simp [invalidated]

/-- The tasks that the lists of unlocked transactions can still add to a removal. -/
def removeWork (queue : ReadyTransactions H T) : Nat :=
  queue.ready.total fun tx => tx.unlocks.length

/-- One round of a removal takes one transaction out of the queue, if it is there. -/
theorem removeNext_returns
    (provided : Provided (tagFilter.getD ∅) state.1.providedTags state.1.ready) (hash : H) :
    ∃ next pushed, removeNext tagFilter state hash = .ok (next, pushed) ∧
      Provided (tagFilter.getD ∅) next.1.providedTags next.1.ready ∧
      (∀ other, refAt next.1.ready other =
        if other = hash then none else refAt state.1.ready other) ∧
      (∀ tag ∈ tagFilter.getD ∅, next.1.providedTags.lookup tag =
        state.1.providedTags.lookup tag) ∧
      pushed.length + removeWork next.1 ≤ removeWork state.1 := by
  unfold removeNext
  split
  · rename_i absent
    refine ⟨state, [], rfl, provided, fun other => ?_, fun _ _ => rfl, by simp⟩
    split
    · rename_i same
      rw [same, refAt, absent]
      rfl
    · rfl
  · rename_i tx stored
    have queued := refAt_of_lookup stored
    have gone : ∀ other, refAt (tx.requires.foldl (forgetUnlock
        (state.1.providedTags.eraseAll (invalidated tagFilter tx)))
          (state.1.ready.erase hash)) other =
        if other = hash then none else refAt state.1.ready other := by
      intro other
      rw [forgetUnlock_eq, refAt_forget, refAt_erase]
    refine ⟨_, _, rfl, ?_, gone, ?_, ?_⟩
    · refine provided.removed queued gone fun tag exact => ?_
      rw [lookup_eraseAll]
      exact if_congr (mem_invalidated.trans (and_iff_left exact)) rfl rfl
    · intro tag mem
      rw [lookup_eraseAll, if_neg]
      exact fun lost => (mem_invalidated.mp lost).2 mem
    · have shorter := total_mono (fun tx : ReadyTx H T => tx.unlocks.length)
        (forgetUnlock_shortens (state.1.providedTags.eraseAll (invalidated tagFilter tx))
          tx.requires (state.1.ready.erase hash))
      have paid := total_erase state.1.ready (fun tx => tx.unlocks.length) hash tx stored
      simp only [removeWork]
      split
      · simp only [length_nil]
        omega
      · rw [length_reverse]
        omega

/-- **The rule of a removal.** An invariant of the queue and the hashes still to be visited that
is kept by a visit of an absent transaction and by a visit of a queued one holds at the end. -/
theorem removeSubtreeWithTagFilter_rule {toRemove : List H}
    {Inv : ReadyTransactions H T × List (Transaction H T) → List H → Prop}
    (provided : Provided (tagFilter.getD ∅) queue.providedTags queue.ready)
    (start : Inv (queue, []) toRemove.reverse) (skip : ∀ state hash rest, Inv state (hash :: rest) →
      state.1.ready.lookup hash = none → Inv state rest)
    (take : ∀ state hash rest tx next pushed, Inv state (hash :: rest) →
      state.1.ready.lookup hash = some tx →
      removeNext tagFilter state hash = .ok (next, pushed) →
      Provided (tagFilter.getD ∅) next.1.providedTags next.1.ready →
      (∀ other, refAt next.1.ready other =
        if other = hash then none else refAt state.1.ready other) →
      (∀ tag ∈ tagFilter.getD ∅, next.1.providedTags.lookup tag =
        state.1.providedTags.lookup tag) → Inv next (pushed ++ rest)) :
    ∃ after removed, queue.removeSubtreeWithTagFilter toRemove tagFilter = .ok (after, removed) ∧
      Provided (tagFilter.getD ∅) after.providedTags after.ready ∧ Inv (after, removed) [] := by
  let inv := fun (state : ReadyTransactions H T × List (Transaction H T)) (stack : List H) =>
    Provided (tagFilter.getD ∅) state.1.providedTags state.1.ready ∧ Inv state stack
  have round : ∀ state hash rest, inv state (hash :: rest) → ∃ next pushed,
      removeNext tagFilter state hash = .ok (next, pushed) ∧ inv next (pushed ++ rest) ∧
        pushed.length + removeWork next.1 ≤ removeWork state.1 := by
    rintro state hash rest ⟨exact, before⟩
    obtain ⟨next, pushed, ran, kept, gone, same, paid⟩ := removeNext_returns exact hash
    refine ⟨next, pushed, ran, ⟨kept, ?_⟩, paid⟩
    cases stored : state.1.ready.lookup hash with
    | none =>
      simp only [removeNext, stored] at ran
      obtain ⟨rfl, rfl⟩ := ok_pair_inj ran
      exact skip state hash rest before stored
    | some tx => exact take state hash rest tx next pushed before stored ran kept gone same
  have ran : ∃ last, queue.removeSubtreeWithTagFilter toRemove tagFilter = .ok last ∧
      inv last [] :=
    worklist_returns round
      ⟨provided, start⟩ (by rw [length_reverse]; rfl)
  obtain ⟨⟨after, removed⟩, ended, kept, final⟩ := ran
  exact ⟨after, removed, ended, kept, final⟩

/-- `remove_subtree_with_tag_filter` returns within its bound, takes the given transactions out
of the queue and adds none. It leaves the tags of the filter mapped as they were. -/
theorem removeSubtreeWithTagFilter_returns (queue : ReadyTransactions H T) (toRemove : List H)
    (tagFilter : Option (Finset T))
    (provided : Provided (tagFilter.getD ∅) queue.providedTags queue.ready) :
    ∃ after removed, queue.removeSubtreeWithTagFilter toRemove tagFilter = .ok (after, removed) ∧
      Provided (tagFilter.getD ∅) after.providedTags after.ready ∧
      (∀ hash ∈ toRemove, refAt after.ready hash = none) ∧
      Within after.ready queue.ready ∧
      ∀ tag ∈ tagFilter.getD ∅, after.providedTags.lookup tag =
        queue.providedTags.lookup tag := by
  let inv := fun (state : ReadyTransactions H T × List (Transaction H T)) (stack : List H) =>
    (∀ hash ∈ toRemove, refAt state.1.ready hash = none ∨ hash ∈ stack) ∧
      Within state.1.ready queue.ready ∧
      ∀ tag ∈ tagFilter.getD ∅, state.1.providedTags.lookup tag =
        queue.providedTags.lookup tag
  have start : inv (queue, []) toRemove.reverse :=
    ⟨fun hash mem => .inr (mem_reverse.mpr mem), fun _ _ found => found, fun _ _ => rfl⟩
  obtain ⟨after, removed, ended, kept, left, earlier, mapped⟩ :=
    removeSubtreeWithTagFilter_rule provided start (by
      rintro state hash rest ⟨left, earlier, mapped⟩ absent
      refine ⟨fun other named => ?_, earlier, mapped⟩
      rcases left other named with gone | mem
      · exact .inl gone
      · rcases mem_cons.mp mem with rfl | later
        · exact .inl (by rw [refAt, absent]; rfl)
        · exact .inr later) (by
      rintro state hash rest tx next pushed ⟨left, earlier, mapped⟩ - - - gone same
      refine ⟨fun other named => ?_, fun other ref found => ?_, fun tag mem =>
        (same tag mem).trans (mapped tag mem)⟩
      · rw [gone]
        by_cases same : other = hash
        · exact .inl (if_pos same)
        · rw [if_neg same]
          refine (left other named).imp_right fun mem => ?_
          exact mem_append_right _ ((mem_cons.mp mem).resolve_left same)
      · exact earlier other ref (refAt_of_gone gone found))
  refine ⟨after, removed, ended, kept, fun hash named => ?_, earlier, mapped⟩
  exact (left hash named).resolve_right not_mem_nil

/-- `remove_subtree` returns, takes the given transactions out of the queue and adds none. -/
theorem removeSubtree_returns
    (provided : Provided ∅ queue.providedTags queue.ready) (hashes : List H) :
    ∃ after removed, queue.removeSubtree hashes = .ok (after, removed) ∧
      Provided ∅ after.providedTags after.ready ∧
      (∀ hash ∈ hashes, refAt after.ready hash = none) ∧
      Within after.ready queue.ready := by
  obtain ⟨after, removed, ran, kept, gone, fewer, -⟩ :=
    removeSubtreeWithTagFilter_returns queue hashes none provided
  exact ⟨after, removed, ran, kept, gone, fewer⟩

/-! ## Import -/

theorem link_returns (hash : H)
    (queued : ∀ tag ∈ tags, ∀ other, providedTags.lookup tag = some other →
      refAt start.ready other ≠ none) :
    ∃ last, tags.foldlM (link providedTags hash) start = .ok last ∧
      refAt last.ready = refAt start.ready := by
  refine foldlM_list (fun (linking : Linking H T) _ => refAt linking.ready = refAt start.ready) tags
    rfl ?_
  intro linking tag mem _ same
  unfold link
  cases found : providedTags.lookup tag with
  | none => exact ⟨_, rfl, same⟩
  | some other =>
    have present := queued tag mem other found
    rw [← same] at present
    obtain ⟨ref, referred⟩ := ne_none_iff_exists'.mp present
    obtain ⟨tx, stored, -⟩ := lookup_of_refAt referred
    simp only [stored]
    refine ⟨_, rfl, ?_⟩
    rw [← same]
    exact refAt_update stored rfl

/-- No queued transaction provides a tag of the list. -/
def Free (tags : List T) (ready : HashMap H (ReadyTx H T)) : Prop :=
  ∀ hash ref, refAt ready hash = some ref → ∀ tag ∈ tags, tag ∉ ref.transaction.provides

theorem insertReady_returns {tx : Transaction H T} (unlocks : List H)
    (provided : Provided outside queue.providedTags queue.ready)
    (overwritten : ∀ tag ∈ outside, tag ∈ tx.provides) (free : Free tx.provides queue.ready)
    (apart : ∀ tag ∈ tx.requires, tag ∉ outside) (repeats : tx.RepeatsAlone)
    (fresh : refAt queue.ready tx.hash = none) :
    ∃ after, queue.insertReady tx unlocks = .ok after ∧
      Provided ∅ after.providedTags after.ready ∧
      ∀ hash, refAt after.ready hash =
        if hash = tx.hash then some ⟨tx, queue.insertionId⟩ else refAt queue.ready hash := by
  have queued : ∀ tag ∈ tx.requires, ∀ other, queue.providedTags.lookup tag = some other →
      refAt ({ ready := queue.ready } : Linking H T).ready other ≠ none := by
    intro tag mem other found
    obtain ⟨ref, referred, -⟩ := (provided.provided tag (apart tag mem) other).mp found
    rw [referred]
    exact some_ne_none ref
  obtain ⟨linking, looped, same⟩ := link_returns tx.hash queued
  have refs : ∀ hash, refAt (Finmap.insert tx.hash ⟨⟨tx, queue.insertionId⟩, unlocks,
      linking.requiresOffset⟩ linking.ready) hash =
        if hash = tx.hash then some ⟨tx, queue.insertionId⟩ else refAt queue.ready hash := by
    intro hash
    rw [refAt_insert, same]
  refine ⟨_, by rw [insertReady, looped, ok_bind], ⟨?_, ?_, ?_⟩, refs⟩
  · intro hash ref found
    rw [refs] at found
    split at found
    · rename_i here
      rw [← some.inj found, here]
    · exact provided.hash hash ref found
  · intro hash ref found
    rw [refs] at found
    split at found
    · rw [← some.inj found]
      exact repeats
    · exact provided.repeats hash ref found
  · intro tag _ hash
    rw [lookup_insertAll_same, refs]
    by_cases own : tag ∈ tx.provides
    · rw [if_pos own]
      constructor
      · intro here
        obtain rfl := some.inj here
        exact ⟨_, if_pos rfl, own⟩
      · rintro ⟨ref, found, mem⟩
        split at found
        · rename_i here
          rw [here]
        · exact absurd mem (free hash ref found tag own)
    · rw [if_neg own, provided.provided tag (fun mem => own (overwritten tag mem))]
      by_cases here : hash = tx.hash
      · subst here
        rw [if_pos rfl, fresh]
        simp [own]
      · rw [if_neg here]

theorem mem_replaceHashes {tx : Transaction H T} :
    hash ∈ queue.replaceHashes tx ↔
      ∃ tag ∈ tx.provides, queue.providedTags.lookup tag = some hash := by
  rw [replaceHashes, List.mem_toFinset, mem_filterMap]

/-- `replace_previous` returns. It refuses and leaves the queue as it is, or frees the tags of
the transaction; these are left dangling in the map only when something was replaced. -/
theorem replacePrevious_returns (order : Order H T) (queue : ReadyTransactions H T)
    (provided : Provided ∅ queue.providedTags queue.ready) (tx : Transaction H T) :
    ∃ after outcome, replacePrevious order queue tx = .ok (after, outcome) ∧
      Within after.ready queue.ready ∧
      ((∃ error, outcome = .error error ∧ after = queue) ∨
        ∃ removed unlocks outside, outcome = .ok (removed, unlocks) ∧
          Provided outside after.providedTags after.ready ∧
          (∀ tag ∈ outside, tag ∈ tx.provides) ∧ (outside = ∅ ∨ tx.priority ≠ 0) ∧
          Free tx.provides after.ready) := by
  have replaces : ∀ hash ref, refAt queue.ready hash = some ref → ∀ tag ∈ tx.provides,
      tag ∈ ref.transaction.provides → hash ∈ queue.replaceHashes tx := by
    intro hash ref found tag mem own
    exact mem_replaceHashes.mpr ⟨tag, mem, provided.mapped_iff.mpr ⟨ref, found, own⟩⟩
  unfold replacePrevious
  by_cases nothing : queue.replaceHashes tx = ∅
  · refine ⟨queue, _, if_pos nothing, fun _ _ found => found, .inr ⟨[], [], ∅, rfl, provided, ?_,
      .inl rfl, ?_⟩⟩
    · simp
    · intro hash ref found tag mem own
      have member := replaces hash ref found tag mem own
      rw [nothing] at member
      exact absurd member (Finset.notMem_empty hash)
  · simp only [if_neg nothing]
    split
    · exact ⟨queue, _, rfl, fun _ _ found => found, .inl ⟨_, rfl, rfl⟩⟩
    · rename_i priority
      obtain ⟨after, removed, ran, kept, gone, earlier, -⟩ :=
        removeSubtreeWithTagFilter_returns queue
          (order.replaced.list tx.hash (queue.replaceHashes tx)) _ provided.partly
      rw [ran, ok_bind]
      refine ⟨after, _, rfl, earlier, .inr ⟨_, _, _, rfl, kept, ?_, .inr ?_, ?_⟩⟩
      · exact fun tag mem => mem_toFinset.mp mem
      · rintro zero
        rw [zero] at priority
        exact priority (UInt64.zero_le)
      · intro hash ref found tag mem own
        have member := replaces hash ref (earlier hash ref found) tag mem own
        rw [gone hash ((order.replaced.mem_list _ _ _).mpr member)] at found
        cases found

theorem importTransaction_returns (order : Order H T)
    (provided : Provided ∅ queue.providedTags queue.ready) {tx : WaitingTransaction H T}
    (ready : tx.isReady = true) (fresh : refAt queue.ready tx.transaction.hash = none)
    (safe : tx.transaction.Safe) :
    ∃ after outcome, queue.importTransaction order tx = .ok (after, outcome) ∧
      Provided ∅ after.providedTags after.ready ∧
      ∀ hash ref, refAt after.ready hash = some ref →
        hash = tx.transaction.hash ∨ refAt queue.ready hash = some ref := by
  obtain ⟨replaced, outcome, ran, earlier, cases⟩ := replacePrevious_returns order
    { queue with insertionId := queue.insertionId + 1 } provided tx.transaction
  have absent := refAt_eq_none.mp fresh
  simp only [importTransaction, ready, not_true_eq_false, if_false, if_neg absent, ran, ok_bind]
  rcases cases with ⟨error, rfl, rfl⟩ | ⟨removed, unlocks, outside, rfl, kept, overwritten,
    replacing, free⟩
  · exact ⟨_, _, rfl, provided, fun _ _ found => .inr found⟩
  · have apart : ∀ tag ∈ tx.transaction.requires, tag ∉ outside := by
      intro tag mem dangling
      rcases replacing with rfl | priority
      · exact absurd dangling (Finset.notMem_empty tag)
      · exact (safe.1.resolve_left priority) tag mem (overwritten tag dangling)
    have gone := eq_none_of_earlier (earlier tx.transaction.hash) fresh
    obtain ⟨after, inserted, exact, refs⟩ :=
      insertReady_returns unlocks kept overwritten free apart safe.2 gone
    simp only [inserted, ok_bind]
    refine ⟨after, _, rfl, exact, fun hash ref found => ?_⟩
    rw [refs] at found
    split at found
    · rename_i here
      exact .inl here
    · exact .inr (earlier hash ref found)

/-! ## Pruning -/

theorem clearProvided_eq_ok_iff :
    tags.foldlM (clearProvided currentTag hash) providedTags = .ok after ↔
      (∀ tag ∈ tags, providedTags.lookup tag = if currentTag = tag then none else some hash) ∧
      (tags.filter (· ≠ currentTag)).Nodup ∧ after = providedTags.eraseAll tags := by
  induction tags generalizing providedTags with
  | nil => simp [pure, Except.pure, eraseAll, eq_comm]
  | cons first rest ih =>
    rw [foldlM_cons, forall_mem_cons, clearProvided]
    by_cases expected : providedTags.lookup first = if currentTag = first then none else some hash
    · have once : ((first :: rest).filter (· ≠ currentTag)).Nodup ↔
          (first ≠ currentTag → first ∉ rest) ∧ (rest.filter (· ≠ currentTag)).Nodup := by
        by_cases current : first = currentTag <;> simp [current]
      have kept : (∀ tag ∈ rest, (providedTags.erase first).lookup tag =
            if currentTag = tag then none else some hash) ↔ (∀ tag ∈ rest, providedTags.lookup tag =
            if currentTag = tag then none else some hash) ∧
              (first ≠ currentTag → first ∉ rest) := by
        simp only [lookup_erase_eq]
        grind
      rw [if_pos expected, ok_bind, ih, eq_true expected, true_and, once, kept, and_assoc,
        and_assoc]
      rfl
    · rw [if_neg expected, eq_false expected, false_and, false_and, iff_false]
      rintro ⟨⟩

/-- The loop over the required tags pushes at most the provided tags of one transaction for
each of them. -/
theorem findPrevious_pushes (hash : H) (providedTags : HashMap T H) (tags : List T)
    (state : HashMap H (ReadyTx H T) × List T)
    (bounded : ∀ name ref, refAt state.1 name = some ref →
      ref.transaction.provides.length ≤ bound) :
    (tags.foldl (findPrevious hash providedTags) state).2.length ≤
      state.2.length + bound * tags.length := by
  induction tags generalizing state with
  | nil => simp
  | cons tag rest ih =>
    have same : (findPrevious hash providedTags state tag).1 = _ :=
      findPrevious_fst hash providedTags [tag] state
    have later := ih (findPrevious hash providedTags state tag) (by
      rw [same, refAt_forget]
      exact bounded)
    have once : (findPrevious hash providedTags state tag).2.length ≤ state.2.length + bound := by
      unfold findPrevious
      split
      · omega
      · split
        · omega
        · rename_i previous _ _ tx stored
          have short := bounded previous tx.transaction (refAt_of_lookup stored)
          dsimp only
          split
          · rw [length_append]
            exact Nat.add_le_add_left short _
          · omega
    rw [foldl_cons, length_cons, Nat.mul_succ]
    omega

/-- The tasks that the required tags can still add to a pruning. -/
def pruneWork (bound : Nat) (queue : ReadyTransactions H T) : Nat :=
  bound * queue.ready.total fun tx => tx.requires.length

omit [DecidableEq T] in
theorem total_requires_le
    (same : Within left ready) :
    (left.total fun tx => tx.requires.length) ≤ ready.total fun tx => tx.requires.length := by
  apply total_mono
  intro hash tx stored
  obtain ⟨other, found, equal⟩ := lookup_of_refAt
    (same hash tx.transaction (refAt_of_lookup stored))
  exact ⟨other, found, by rw [ReadyTx.requires, ReadyTx.requires, equal]⟩

theorem pruneNext_eq (provided : Provided ∅ state.1.providedTags state.1.ready)
    (mapped : state.1.providedTags.lookup tag = some hash)
    (stored : state.1.ready.lookup hash = some tx) :
    let providedTags := state.1.providedTags.erase tag
    let left := tx.requires.foldl (findPrevious hash providedTags)
      (state.1.ready.erase hash, [])
    let unlocked := tx.unlocks.foldl unlock (left.1, state.1.best)
    pruneNext state tag = .ok (({ state.1 with
          providedTags := HashMap.eraseAll providedTags tx.provides
          ready := unlocked.1
          best := unlocked.2 },
        state.2 ++ [tx.transaction.transaction]), left.2.reverse) := by
  have queued := refAt_of_lookup stored
  obtain ⟨ref, found, mem⟩ := provided.mapped_iff.mp mapped
  obtain rfl := some.inj (queued.symm.trans found)
  have named : tx.transaction.transaction.hash = hash := provided.hash hash _ queued
  have cleared : tx.provides.foldlM (clearProvided tag hash)
      (state.1.providedTags.erase tag) =
        .ok (eraseAll (state.1.providedTags.erase tag) tx.provides) := by
    refine clearProvided_eq_ok_iff.mpr ⟨fun other own => ?_, ?_, rfl⟩
    · rw [lookup_erase_eq, provided.mapped_iff.mpr ⟨_, queued, own⟩]
      exact if_congr eq_comm rfl rfl
    · refine nodup_iff_count_le_one.mpr fun other => not_lt.mp fun twice => ?_
      obtain ⟨own, ne⟩ := mem_filter.mp (count_pos_iff.mp (Nat.lt_of_succ_lt twice))
      rw [count_filter (p := fun other => decide (other ≠ tag)) ne] at twice
      exact of_decide_eq_true ne (provided.repeats hash _ queued other own twice tag mem).symm
  simp only [pruneNext, mapped, stored, named, cleared, ok_bind]

theorem lookup_pruned (provided : Provided ∅ providedTags ready)
    (mapped : providedTags.lookup tag = some hash)
    (stored : ready.lookup hash = some tx) (other : T) :
    (HashMap.eraseAll (providedTags.erase tag) tx.provides).lookup other =
      if other ∈ tx.provides then none else providedTags.lookup other := by
  have queued := refAt_of_lookup stored
  obtain ⟨ref, found, mem⟩ := provided.mapped_iff.mp mapped
  obtain rfl := some.inj (queued.symm.trans found)
  rw [lookup_eraseAll, lookup_erase_eq]
  by_cases own : other ∈ tx.provides
  · rw [if_pos own, if_pos own]
  · have ne : other ≠ tag := fun same => own (same ▸ mem)
    rw [if_neg own, if_neg ne, if_neg own]

/-- One round of a pruning takes the provider of the tag out of the queue, if there is one. -/
theorem pruneNext_returns (provided : Provided ∅ state.1.providedTags state.1.ready)
    (bounded : ∀ hash ref, refAt state.1.ready hash = some ref →
      ref.transaction.provides.length ≤ bound) (tag : T) :
    ∃ next pushed, pruneNext state tag = .ok (next, pushed) ∧
      Provided ∅ next.1.providedTags next.1.ready ∧
      Within next.1.ready state.1.ready ∧
      pushed.length + pruneWork bound next.1 ≤ pruneWork bound state.1 := by
  cases mapped : state.1.providedTags.lookup tag with
  | none =>
    refine ⟨state, [], ?_, provided, fun _ _ found => found, by simp⟩
    simp only [pruneNext, mapped]
  | some hash =>
    obtain ⟨ref, found, -⟩ := provided.mapped_iff.mp mapped
    obtain ⟨tx, stored, rfl⟩ := lookup_of_refAt found
    let left := (tx.requires.foldl (findPrevious hash
      (state.1.providedTags.erase tag)) (state.1.ready.erase hash, []))
    have gone : ∀ other, refAt (tx.unlocks.foldl unlock (left.1, state.1.best)).1 other =
        if other = hash then none else refAt state.1.ready other := by
      intro other
      rw [refAt_unlock, findPrevious_fst, refAt_forget, refAt_erase]
    refine ⟨_, _, pruneNext_eq provided mapped stored, ?_, ?_, ?_⟩
    · exact provided.removed found gone fun other _ => lookup_pruned provided mapped stored other
    · exact fun other ref found => refAt_of_gone gone found
    · have pushes : left.2.length ≤ bound * tx.requires.length := by
        have short := findPrevious_pushes hash (state.1.providedTags.erase tag)
          tx.requires (state.1.ready.erase hash, [])
          (fun name found stored => bounded name found (refAt_of_gone (refAt_erase _ hash) stored))
        simpa using short
      have paid := total_erase state.1.ready (fun tx => tx.requires.length) hash tx stored
      have lighter : (total (tx.unlocks.foldl unlock (left.1, state.1.best)).1
          fun tx => tx.requires.length) ≤
            total (state.1.ready.erase hash) fun tx => tx.requires.length := by
        apply total_requires_le
        intro other ref found
        rw [gone] at found
        rwa [refAt_erase]
      rw [length_reverse]
      calc left.2.length + bound * _
          ≤ bound * tx.requires.length + bound * _ :=
            Nat.add_le_add pushes (Nat.mul_le_mul_left bound lighter)
        _ = pruneWork bound state.1 := by
          rw [pruneWork, ← paid, ← Nat.mul_add, Nat.add_comm]

/-- **The rule of a pruning.** An invariant of the queue and the tags still to be pruned that is
kept by a tag without a provider and by a tag with one holds at the end. -/
theorem pruneTags_rule (Inv : ReadyTransactions H T × List (Transaction H T) → List T → Prop)
    (provided : Provided ∅ queue.providedTags queue.ready) (start : Inv (queue, []) [tag])
    (skip : ∀ state tag rest, Inv state (tag :: rest) →
      state.1.providedTags.lookup tag = none → Inv state rest)
    (take : ∀ state tag rest hash tx next pushed, Inv state (tag :: rest) →
      Provided ∅ state.1.providedTags state.1.ready →
      state.1.providedTags.lookup tag = some hash →
      state.1.ready.lookup hash = some tx →
      pruneNext state tag = .ok (next, pushed) →
      Provided ∅ next.1.providedTags next.1.ready → Inv next (pushed ++ rest)) :
    ∃ after removed, queue.pruneTags tag = .ok (after, removed) ∧
      Provided ∅ after.providedTags after.ready ∧
      Within after.ready queue.ready ∧
      Inv (after, removed) [] := by
  let bound := queue.ready.total fun tx => tx.provides.length
  have bounded : ∀ hash ref, refAt queue.ready hash = some ref →
      ref.transaction.provides.length ≤ bound := by
    intro hash ref found
    obtain ⟨tx, stored, same⟩ := lookup_of_refAt found
    rw [← same]
    exact le_total _ (fun tx : ReadyTx H T => tx.provides.length) stored
  let inv := fun (state : ReadyTransactions H T × List (Transaction H T)) (stack : List T) =>
    Provided ∅ state.1.providedTags state.1.ready ∧
      Within state.1.ready queue.ready ∧
      Inv state stack
  have round : ∀ state tag rest, inv state (tag :: rest) → ∃ next pushed,
      pruneNext state tag = .ok (next, pushed) ∧ inv next (pushed ++ rest) ∧
        pushed.length + pruneWork bound next.1 ≤ pruneWork bound state.1 := by
    rintro state tag rest ⟨exact, earlier, before⟩
    obtain ⟨next, pushed, ran, kept, fewer, paid⟩ := pruneNext_returns exact
      (fun hash ref found => bounded hash ref (earlier hash ref found)) tag
    refine ⟨next, pushed, ran, ⟨kept, fun hash ref found =>
      earlier hash ref (fewer hash ref found), ?_⟩, paid⟩
    cases mapped : state.1.providedTags.lookup tag with
    | none =>
      simp only [pruneNext, mapped] at ran
      obtain ⟨rfl, rfl⟩ := ok_pair_inj ran
      exact skip state tag rest before mapped
    | some hash =>
      obtain ⟨ref, found, -⟩ := exact.mapped_iff.mp mapped
      obtain ⟨tx, stored, -⟩ := lookup_of_refAt found
      exact take state tag rest hash tx next pushed before exact mapped stored ran kept
  have ran : ∃ last, queue.pruneTags tag = .ok last ∧ inv last [] :=
    worklist_returns round
      ⟨provided, fun _ _ found => found, start⟩ le_rfl
  obtain ⟨⟨after, removed⟩, ended, kept, earlier, final⟩ := ran
  exact ⟨after, removed, ended, kept, earlier, final⟩

theorem pruneTags_returns (provided : Provided ∅ queue.providedTags queue.ready) (tag : T) :
    ∃ after removed, queue.pruneTags tag = .ok (after, removed) ∧
      Provided ∅ after.providedTags after.ready ∧
      Within after.ready queue.ready := by
  obtain ⟨after, removed, ended, kept, earlier, -⟩ := pruneTags_rule (fun _ _ => True) provided
    trivial (fun _ _ _ _ _ => trivial) (fun _ _ _ _ _ _ _ _ _ _ _ _ _ => trivial)
  exact ⟨after, removed, ended, kept, earlier⟩

theorem provided_empty : Provided ∅ ({} : ReadyTransactions H T).providedTags
    ({} : ReadyTransactions H T).ready where
  hash hash ref found := by simp [refAt] at found
  repeats hash ref found := by simp [refAt] at found
  provided tag _ hash := by simp [refAt]

end ReadyTransactions

end Brace.TransactionPool
