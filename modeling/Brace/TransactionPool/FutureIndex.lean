import Brace.Lib.Loop
import Brace.TransactionPool.Future

/-!
# The index of the future queue

`wanted_tags` is the inverse of the missing tags: a transaction is listed under a tag exactly
when it waits and misses that tag (`Indexed`). This is what `WAITING_PROOF` claims, so with it
`satisfy_tags` returns. The transactions that it hands out (`Unlocked`) leave the queue, and
each of them is ready.
-/

namespace Brace.TransactionPool.FutureTransactions

open Brace.Lib List Finmap HashMap

variable {H T : Type} [DecidableEq H] [DecidableEq T]

variable (future : FutureTransactions H T)

/-- The transactions listed under a tag. -/
def wantedBy (tag : T) : Finset H :=
  (Finmap.lookup tag future.wantedTags).getD ∅

/-- The transaction waits and misses the tag. -/
def Misses (hash : H) (tag : T) : Prop :=
  ∃ tx, Finmap.lookup hash future.waiting = some tx ∧ tag ∈ tx.missingTags

/-- The queue lists each waiting transaction under its missing tags and under no other. -/
structure Indexed (future : FutureTransactions H T) : Prop where
  wanted : ∀ tag hash, hash ∈ future.wantedBy tag ↔ future.Misses hash tag
  hash : ∀ hash tx, Finmap.lookup hash future.waiting = some tx → tx.transaction.hash = hash

/-- The queue in the middle of satisfying a tag: the tag itself is no longer listed, and the
transactions still to be visited are the ones that miss it. -/
structure Satisfying (tag : T) (hashes : List H) (future : FutureTransactions H T) : Prop where
  wanted : ∀ other hash, hash ∈ future.wantedBy other ∨ (other = tag ∧ hash ∈ hashes) ↔
    future.Misses hash other
  unlisted : future.wantedBy tag = ∅
  nodup : hashes.Nodup
  hash : ∀ hash tx, Finmap.lookup hash future.waiting = some tx → tx.transaction.hash = hash

/-- What has been handed out of a queue: ready transactions that waited there and are gone. -/
structure Unlocked (before : FutureTransactions H T)
    (state : FutureTransactions H T × List (WaitingTransaction H T)) : Prop where
  ready : ∀ tx ∈ state.2, tx.isReady = true
  moved : ∀ tx ∈ state.2, ∃ old, Finmap.lookup tx.transaction.hash before.waiting = some old ∧
    old.transaction = tx.transaction
  gone : ∀ tx ∈ state.2, tx.transaction.hash ∉ state.1.waiting
  kept : ∀ hash tx, Finmap.lookup hash state.1.waiting = some tx →
    ∃ old, Finmap.lookup hash before.waiting = some old ∧ old.transaction = tx.transaction
  nodup : (state.2.map (·.transaction.hash)).Nodup
  count : state.2.length + state.1.len = before.len

theorem Unlocked.start : Unlocked future (future, []) where
  ready := by simp
  moved := by simp
  gone := by simp
  kept hash tx stored := ⟨tx, stored, rfl⟩
  nodup := List.nodup_nil
  count := by simp

variable {before future : FutureTransactions H T}
  {state : FutureTransactions H T × List (WaitingTransaction H T)} {hash : H}
  {tx : WaitingTransaction H T} {tag : T} {rest : List H}

section

variable (unlocked : Unlocked before state) (stored : state.1.waiting.lookup hash = some tx)

include unlocked stored

theorem Unlocked.update (tag : T) :
    Unlocked before ({ state.1 with
      waiting := state.1.waiting.insert hash (tx.satisfyTag tag) }, state.2) where
  __ := unlocked
  gone other mem := by
    have absent := unlocked.gone other mem
    have present : hash ∈ state.1.waiting := Finmap.mem_of_lookup_eq_some stored
    rw [Finmap.mem_insert, not_or]
    exact ⟨fun same => absent (same ▸ present), absent⟩
  kept other value found := by
    rw [lookup_insert_eq] at found
    split at found
    · rename_i same
      obtain rfl := Option.some.inj found
      rw [same]
      exact unlocked.kept hash tx stored
    · exact unlocked.kept other value found
  count := by
    have keys : (state.1.waiting.insert hash (tx.satisfyTag tag)).keys =
        state.1.waiting.keys := by
      ext other
      rw [Finmap.mem_keys, Finmap.mem_insert, Finmap.mem_keys]
      exact or_iff_right_of_imp fun same => same ▸ Finmap.mem_of_lookup_eq_some stored
    simpa only [len, keys] using unlocked.count

theorem Unlocked.handOut (named : tx.transaction.hash = hash) (tag : T)
    (ready : (tx.satisfyTag tag).isReady = true) :
    Unlocked before ({ state.1 with waiting := state.1.waiting.erase hash },
      state.2 ++ [tx.satisfyTag tag]) where
  ready other mem := by
    rcases mem_append.mp mem with earlier | last
    · exact unlocked.ready other earlier
    · rw [mem_singleton.mp last]
      exact ready
  moved other mem := by
    rcases mem_append.mp mem with earlier | last
    · exact unlocked.moved other earlier
    · rw [mem_singleton.mp last]
      change ∃ old, before.waiting.lookup tx.transaction.hash = some old ∧ _
      rw [named]
      exact unlocked.kept hash tx stored
  gone other mem := by
    rw [mem_erase, not_and]
    intro ne
    rcases mem_append.mp mem with earlier | last
    · exact unlocked.gone other earlier
    · rw [mem_singleton.mp last] at ne
      exact absurd named ne
  kept other value found := by
    rw [lookup_erase_eq] at found
    split at found
    · cases found
    · exact unlocked.kept other value found
  nodup := by
    rw [map_append, nodup_append]
    refine ⟨unlocked.nodup, nodup_singleton _, ?_⟩
    intro left leftInside right rightInside same
    obtain ⟨other, mem, rfl⟩ := mem_map.mp leftInside
    have last : right = hash := (mem_singleton.mp rightInside).trans named
    apply unlocked.gone other mem
    rw [same, last]
    exact mem_of_lookup_eq_some stored
  count := by
    have present : hash ∈ state.1.waiting.keys :=
      mem_keys.mpr (mem_of_lookup_eq_some stored)
    have fewer := Finset.card_erase_add_one present
    have counted := unlocked.count
    simp only [len, length_append, length_singleton, keys_erase] at counted ⊢
    omega

end

/-! ## Satisfying tags -/

/-- A satisfied transaction misses what it missed before, except for the tag. -/
theorem Satisfying.misses_update (satisfying : Satisfying tag (hash :: rest) future)
    (stored : future.waiting.lookup hash = some tx) (waiting : HashMap H _)
    (elsewhere : ∀ other, other ≠ hash →
      waiting.lookup other = future.waiting.lookup other)
    (here : ∀ other, (∃ next, waiting.lookup hash = some next ∧
      other ∈ next.missingTags) ↔ other ∈ tx.missingTags.erase tag) (other : T) (name : H) :
    name ∈ future.wantedBy other ∨ (other = tag ∧ name ∈ rest) ↔
      ∃ next, waiting.lookup name = some next ∧ other ∈ next.missingTags := by
  obtain ⟨outside, -⟩ := nodup_cons.mp satisfying.nodup
  have listed := satisfying.wanted other name
  by_cases same : name = hash
  · subst same
    rw [here other, Finset.mem_erase]
    have missed : future.Misses name other ↔ other ∈ tx.missingTags :=
      ⟨fun ⟨found, waits, mem⟩ => by
        rw [stored] at waits
        exact Option.some.inj waits ▸ mem, fun mem => ⟨tx, stored, mem⟩⟩
    rw [missed, mem_cons] at listed
    by_cases current : other = tag
    · subst current
      simp [satisfying.unlisted, outside]
    · simp only [current, false_and, or_false] at listed
      simp [current, listed]
  · rw [elsewhere name same]
    rw [mem_cons, or_iff_right same] at listed
    exact listed

theorem satisfyHash_returns (satisfying : Satisfying tag (hash :: rest) state.1)
    (unlocked : Unlocked before state) :
    ∃ next, satisfyHash tag state hash = .ok next ∧ Satisfying tag rest next.1 ∧
      Unlocked before next := by
  obtain ⟨tx, stored, missing⟩ :=
    (satisfying.wanted tag hash).mp (.inr ⟨rfl, mem_cons_self⟩)
  have named := satisfying.hash hash tx stored
  have nodup := (nodup_cons.mp satisfying.nodup).2
  simp only [satisfyHash, stored]
  split
  · rename_i ready
    have nothing : tx.missingTags.erase tag = ∅ := of_decide_eq_true ready
    refine ⟨_, rfl, ⟨?_, satisfying.unlisted, nodup, ?_⟩, unlocked.handOut stored named tag ready⟩
    · refine satisfying.misses_update stored _ ?_ ?_
      · intro other ne
        rw [lookup_erase_eq, if_neg ne]
      · intro other
        simp [nothing]
    · intro other value found
      rw [lookup_erase_eq] at found
      split at found
      · cases found
      · exact satisfying.hash other value found
  · refine ⟨_, rfl, ⟨?_, satisfying.unlisted, nodup, ?_⟩, unlocked.update stored tag⟩
    · refine satisfying.misses_update stored _ ?_ ?_
      · intro other ne
        rw [lookup_insert_eq, if_neg ne]
      · intro other
        simp [WaitingTransaction.satisfyTag]
    · intro other value found
      rw [lookup_insert_eq] at found
      split at found
      · rename_i same
        obtain rfl := Option.some.inj found
        exact named.trans same.symm
      · exact satisfying.hash other value found

section

variable (order : Order H T)

theorem satisfyOne_returns (tag : T)
    (indexed : Indexed state.1) (unlocked : Unlocked before state) :
    ∃ next, satisfyOne order state tag = .ok next ∧ Indexed next.1 ∧ Unlocked before next := by
  unfold satisfyOne
  cases listed : state.1.wantedTags.lookup tag with
  | none => exact ⟨state, rfl, indexed, unlocked⟩
  | some hashes =>
    let future := { state.1 with wantedTags := state.1.wantedTags.erase tag }
    have start : Satisfying tag (order.wanted.list tag hashes) future := by
      refine ⟨?_, ?_, order.wanted.nodup tag hashes, indexed.hash⟩
      · intro other hash
        rw [order.wanted.mem_list]
        change _ ↔ state.1.Misses hash other
        rw [← indexed.wanted, wantedBy, wantedBy, lookup_erase_eq]
        by_cases same : other = tag
        · subst same
          simp [listed]
        · simp [same]
      · simp [future, wantedBy]
    have begun : Unlocked before (future, state.2) :=
      { unlocked with }
    obtain ⟨last, looped, satisfied, after⟩ := foldlM_list
      (fun state rest => Satisfying tag rest state.1 ∧ Unlocked before state)
      (order.wanted.list tag hashes) ⟨start, begun⟩
      (fun state hash _ rest kept => satisfyHash_returns kept.1 kept.2)
    refine ⟨last, looped, ⟨?_, satisfied.hash⟩, after⟩
    intro other hash
    simpa using satisfied.wanted other hash

/-- `satisfy_tags` returns: no hash listed under a tag is absent from the queue. -/
theorem satisfyTags_returns (indexed : Indexed future) (tags : List T) :
    ∃ after unlocked, satisfyTags order future tags = .ok (after, unlocked) ∧ Indexed after ∧
      Unlocked future (after, unlocked) := by
  obtain ⟨last, looped, kept, unlocked⟩ := foldlM_list
    (fun state _ => Indexed state.1 ∧ Unlocked future state) tags
    ⟨indexed, Unlocked.start future⟩
    (fun state tag _ rest kept => satisfyOne_returns order tag kept.1 kept.2)
  exact ⟨last.1, last.2, looped, kept, unlocked⟩

/-! ## Import and removal -/

theorem mem_wanted_foldl (hash name : H) (tag : T) (tags : List T)
    (wantedTags : HashMap T (Finset H)) :
    name ∈ ((tags.foldl (want hash) wantedTags).lookup tag).getD ∅ ↔
      (name = hash ∧ tag ∈ tags) ∨ name ∈ (wantedTags.lookup tag).getD ∅ := by
  induction tags generalizing wantedTags with
  | nil => simp
  | cons first rest ih =>
    rw [foldl_cons, ih, want, lookup_insert_eq, mem_cons]
    by_cases same : tag = first
    · subst same
      simp
      tauto
    · simp [same]

theorem mem_unwanted_foldl (hash name : H) (tag : T) (tags : List T)
    (wantedTags : HashMap T (Finset H)) :
    name ∈ ((tags.foldl (unwant hash) wantedTags).lookup tag).getD ∅ ↔
      name ∈ (wantedTags.lookup tag).getD ∅ ∧ ¬ (name = hash ∧ tag ∈ tags) := by
  induction tags generalizing wantedTags with
  | nil => simp
  | cons first rest ih =>
    have once : name ∈ ((unwant hash wantedTags first).lookup tag).getD ∅ ↔
        name ∈ (wantedTags.lookup tag).getD ∅ ∧ ¬ (name = hash ∧ tag = first) := by
      unfold unwant
      split
      · rename_i absent
        by_cases same : tag = first
        · subst same
          simp [absent]
        · simp [same]
      · rename_i wanted listed
        by_cases same : tag = first
        · subst same
          split
          · rename_i empty
            have only : name ∈ wanted.erase hash ↔ False := by simp [empty]
            rw [Finset.mem_erase] at only
            simp [listed]
            tauto
          · simp [listed, and_comm]
        · split
          · simp [same]
          · simp [same]
    rw [foldl_cons, ih, once, mem_cons]
    tauto

theorem importTransaction_returns (indexed : Indexed future) (missing : tx.isReady = false)
    (fresh : tx.transaction.hash ∉ future.waiting) :
    ∃ after, future.importTransaction order tx = .ok after ∧ Indexed after ∧
      after.waiting = future.waiting.insert tx.transaction.hash tx := by
  refine ⟨_, by rw [importTransaction, missing, if_neg (by simp), if_neg fresh], ⟨?_, ?_⟩, rfl⟩
  · intro tag hash
    rw [wantedBy, mem_wanted_foldl, order.missing.mem_list]
    change _ ∨ hash ∈ future.wantedBy tag ↔ _
    rw [indexed.wanted]
    unfold Misses
    by_cases same : hash = tx.transaction.hash
    · subst same
      simp [lookup_eq_none.mpr fresh]
    · simp [same]
  · intro hash value found
    rw [lookup_insert_eq] at found
    split at found
    · rename_i same
      rw [same, ← Option.some.inj found]
    · exact indexed.hash hash value found

theorem removeOne_indexed (state : FutureTransactions H T × List (Transaction H T)) (hash : H)
    (indexed : Indexed state.1) :
    Indexed (removeOne order state hash).1 ∧
      (removeOne order state hash).1.waiting = state.1.waiting.erase hash := by
  unfold removeOne
  split
  · rename_i absent
    exact ⟨indexed, (erase_of_not_mem _ _ (lookup_eq_none.mp absent)).symm⟩
  · rename_i tx stored
    refine ⟨⟨?_, ?_⟩, rfl⟩
    · intro tag name
      rw [wantedBy, mem_unwanted_foldl, order.missing.mem_list]
      change name ∈ state.1.wantedBy tag ∧ _ ↔ _
      rw [indexed.wanted]
      unfold Misses
      by_cases same : name = hash
      · subst same
        simp [stored]
      · simp [same]
    · intro name value found
      rw [lookup_erase_eq] at found
      split at found
      · cases found
      · exact indexed.hash name value found

theorem remove_indexed (indexed : Indexed future) (hashes : List H) :
    Indexed (future.remove order hashes).1 ∧
      (future.remove order hashes).1.waiting = future.waiting.eraseAll hashes := by
  suffices general : ∀ state : FutureTransactions H T × List (Transaction H T), Indexed state.1 →
      Indexed (hashes.foldl (removeOne order) state).1 ∧
        (hashes.foldl (removeOne order) state).1.waiting = state.1.waiting.eraseAll hashes from
    general (future, []) indexed
  induction hashes with
  | nil => exact fun state kept => ⟨kept, rfl⟩
  | cons hash rest ih =>
    intro state kept
    obtain ⟨once, erased⟩ := removeOne_indexed order state hash kept
    obtain ⟨after, all⟩ := ih (removeOne order state hash) once
    refine ⟨after, ?_⟩
    rw [foldl_cons, all, erased]
    rfl

end

theorem indexed_empty : Indexed ({} : FutureTransactions H T) where
  wanted tag hash := by simp [wantedBy, Misses]
  hash hash tx stored := by simp at stored

end Brace.TransactionPool.FutureTransactions
