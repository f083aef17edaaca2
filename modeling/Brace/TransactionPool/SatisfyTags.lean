import Brace.TransactionPool.FutureIndex

/-!
# What satisfying tags does to each waiting transaction

In an indexed queue `satisfy_tags` treats every waiting transaction on its own: it stays with the
missing tags that are left, or it is handed out when nothing is left (`leftOver`). `Satisfied`
says this of the whole queue, and `queue_exact` of every queue that calls can build.
-/

namespace Brace.TransactionPool.FutureTransactions

open Brace.Lib List

variable {H T : Type} [DecidableEq H] [DecidableEq T]

/-- A waiting transaction after some tags are satisfied, if it still waits. -/
def leftOver (tags : Finset T) (tx : WaitingTransaction H T) : Option (WaitingTransaction H T) :=
  if tx.missingTags ≠ ∅ ∧ tx.missingTags ⊆ tags then none
  else some { tx with missingTags := tx.missingTags \ tags }

/-- Some tags are satisfied: the transactions left and the transactions handed out. -/
structure Satisfied (tags : Finset T) (before after : FutureTransactions H T)
    (unlocked : List (WaitingTransaction H T)) : Prop where
  waiting : ∀ hash, Finmap.lookup hash after.waiting =
    (Finmap.lookup hash before.waiting).bind (leftOver tags)
  unlocked : ∀ tx, tx ∈ unlocked ↔ ∃ hash old, Finmap.lookup hash before.waiting = some old ∧
    leftOver tags old = none ∧ tx = { old with missingTags := ∅ }

variable {tags first second : Finset T} {tx : WaitingTransaction H T} {tag : T}
  {after : FutureTransactions H T}
  {state last : FutureTransactions H T × List (WaitingTransaction H T)} {order : Order H T}

section

omit [DecidableEq H]

theorem leftOver_of_disjoint
    (disjoint : ∀ tag ∈ tx.missingTags, tag ∉ tags) : leftOver tags tx = some tx := by
  have other : ¬ (tx.missingTags ≠ ∅ ∧ tx.missingTags ⊆ tags) := by
    rintro ⟨some, only⟩
    obtain ⟨tag, missing⟩ := Finset.nonempty_iff_ne_empty.mpr some
    exact disjoint tag missing (only missing)
  rw [leftOver, if_neg other, Finset.sdiff_eq_self_of_disjoint (Finset.disjoint_left.mpr disjoint)]

theorem leftOver_empty (tx : WaitingTransaction H T) : leftOver ∅ tx = some tx :=
  leftOver_of_disjoint fun tag _ => Finset.notMem_empty tag

theorem leftOver_of_mem (missing : tag ∈ tx.missingTags) :
    leftOver {tag} tx =
      if tx.missingTags.erase tag = ∅ then none else some (tx.satisfyTag tag) := by
  have some : tx.missingTags ≠ ∅ := Finset.ne_empty_of_mem missing
  rw [← Finset.sdiff_singleton_eq_erase]
  refine if_congr ?_ rfl ?_
  · rw [and_iff_right some, Finset.sdiff_eq_empty_iff_subset]
  · rw [Finset.sdiff_singleton_eq_erase, WaitingTransaction.satisfyTag]

theorem leftOver_bind (first second : Finset T) (tx : WaitingTransaction H T) :
    (leftOver first tx).bind (leftOver second) = leftOver (first ∪ second) tx := by
  by_cases none : tx.missingTags = ∅
  · simp [leftOver, none]
  · by_cases early : tx.missingTags ⊆ first
    · rw [leftOver, if_pos ⟨none, early⟩, leftOver,
        if_pos ⟨none, early.trans Finset.subset_union_left⟩]
      rfl
    · have remains : tx.missingTags \ first ≠ ∅ := by
        rwa [ne_eq, Finset.sdiff_eq_empty_iff_subset]
      rw [leftOver, if_neg (fun both => early both.2), Option.bind_some]
      refine if_congr ?_ rfl ?_
      · rw [and_iff_right remains, and_iff_right none]
        exact sdiff_le_iff
      · dsimp only
        rw [sdiff_sdiff_left]
        rfl

theorem leftOver_union_eq_none :
    leftOver (first ∪ second) tx = none ↔ leftOver first tx = none ∨
      ∃ middle, leftOver first tx = some middle ∧ leftOver second middle = none := by
  rw [← leftOver_bind]
  cases leftOver first tx with
  | none => simp
  | some middle => simp

theorem leftOver_eq_some {left : WaitingTransaction H T} (stays : leftOver tags tx = some left) :
    left = { tx with missingTags := tx.missingTags \ tags } := by
  unfold leftOver at stays
  split at stays
  · cases stays
  · exact (Option.some.inj stays).symm

theorem subset_of_leftOver_eq_none (gone : leftOver tags tx = none) : tx.missingTags ⊆ tags := by
  unfold leftOver at gone
  split at gone
  · rename_i both
    exact both.2
  · cases gone

end

theorem Satisfied.refl (future : FutureTransactions H T) : Satisfied ∅ future future [] where
  waiting hash := by
    cases future.waiting.lookup hash with
    | none => rfl
    | some tx => exact (leftOver_empty tx).symm
  unlocked tx := by
    refine ⟨fun mem => absurd mem not_mem_nil, ?_⟩
    rintro ⟨hash, old, -, gone, -⟩
    rw [leftOver_empty] at gone
    cases gone

theorem Satisfied.trans {before middle : FutureTransactions H T}
    {early late : List (WaitingTransaction H T)} (start : Satisfied first before middle early)
    (rest : Satisfied second middle after late) :
    Satisfied (first ∪ second) before after (early ++ late) where
  waiting hash := by
    rw [rest.waiting, start.waiting, Option.bind_assoc]
    congr 1
    funext tx
    exact leftOver_bind first second tx
  unlocked tx := by
    rw [mem_append, start.unlocked, rest.unlocked]
    constructor
    · rintro (⟨hash, old, stored, gone, rfl⟩ | ⟨hash, old, stored, gone, rfl⟩)
      · exact ⟨hash, old, stored, leftOver_union_eq_none.mpr (.inl gone), rfl⟩
      · rw [start.waiting] at stored
        obtain ⟨older, before, stays⟩ := Option.bind_eq_some_iff.mp stored
        refine ⟨hash, older, before, leftOver_union_eq_none.mpr (.inr ⟨old, stays, gone⟩), ?_⟩
        rw [leftOver_eq_some stays]
    · rintro ⟨hash, old, stored, gone, rfl⟩
      rcases leftOver_union_eq_none.mp gone with now | ⟨left, stays, later⟩
      · exact .inl ⟨hash, old, stored, now, rfl⟩
      · refine .inr ⟨hash, left, ?_, later, ?_⟩
        · rw [start.waiting, stored]
          exact stays
        · rw [leftOver_eq_some stays]

theorem satisfyHash_one {hash : H} {found : WaitingTransaction H T}
    {next : FutureTransactions H T × List (WaitingTransaction H T)}
    (stored : state.1.waiting.lookup hash = some found) (missing : tag ∈ found.missingTags)
    (ran : satisfyHash tag state hash = .ok next) :
    (∀ other, next.1.waiting.lookup other =
      if other = hash then leftOver {tag} found else state.1.waiting.lookup other) ∧
    ∃ more, next.2 = state.2 ++ more ∧ ∀ tx, tx ∈ more ↔
      leftOver {tag} found = none ∧ tx = { found with missingTags := ∅ } := by
  have left := leftOver_of_mem missing
  simp only [satisfyHash, stored] at ran
  split at ran
  · rename_i ready
    have nothing : found.missingTags.erase tag = ∅ := of_decide_eq_true ready
    rw [if_pos nothing] at left
    obtain rfl := Except.ok.inj ran
    refine ⟨fun other => by rw [left, HashMap.lookup_erase_eq], [_], rfl, fun tx => ?_⟩
    rw [left, mem_singleton, WaitingTransaction.satisfyTag, nothing, and_iff_right rfl]
  · rename_i waits
    have something : found.missingTags.erase tag ≠ ∅ :=
      fun nothing => waits (decide_eq_true nothing)
    rw [if_neg something] at left
    obtain rfl := Except.ok.inj ran
    exact ⟨fun other => by rw [left, HashMap.lookup_insert_eq], [], by simp, by simp [left]⟩

/-- The inner loop treats each listed transaction once. -/
theorem satisfyHash_lookup {hashes : List H}
    (looped : hashes.foldlM (satisfyHash tag) state = .ok last) (nodup : hashes.Nodup)
    (missing : ∀ hash ∈ hashes, state.1.Misses hash tag) :
    (∀ hash, last.1.waiting.lookup hash =
      if hash ∈ hashes then (state.1.waiting.lookup hash).bind (leftOver {tag})
      else state.1.waiting.lookup hash) ∧
    ∃ more, last.2 = state.2 ++ more ∧ ∀ tx, tx ∈ more ↔ ∃ hash ∈ hashes, ∃ old,
      state.1.waiting.lookup hash = some old ∧ leftOver {tag} old = none ∧
        tx = { old with missingTags := ∅ } := by
  induction hashes generalizing state with
  | nil =>
    obtain rfl := Except.ok.inj looped
    exact ⟨by simp, [], by simp⟩
  | cons first rest ih =>
    rw [foldlM_cons, bind_eq_ok] at looped
    obtain ⟨next, ran, later⟩ := looped
    obtain ⟨new, nodupRest⟩ := nodup_cons.mp nodup
    obtain ⟨found, stored, mem⟩ := missing first mem_cons_self
    obtain ⟨changed, here, appended, handedHere⟩ := satisfyHash_one stored mem ran
    have elsewhere : ∀ hash ∈ rest,
        next.1.waiting.lookup hash = state.1.waiting.lookup hash := by
      intro hash listed
      have ne : hash ≠ first := fun same => new (same ▸ listed)
      rw [changed, if_neg ne]
    have still : ∀ hash ∈ rest, next.1.Misses hash tag := by
      intro hash listed
      obtain ⟨tx, waits, lacks⟩ := missing hash (mem_cons_of_mem _ listed)
      exact ⟨tx, (elsewhere hash listed).trans waits, lacks⟩
    obtain ⟨lookups, more, extended, handed⟩ := ih later nodupRest still
    refine ⟨fun hash => ?_, here ++ more, ?_, fun tx => ?_⟩
    · rw [lookups]
      by_cases listed : hash ∈ rest
      · rw [if_pos listed, if_pos (mem_cons_of_mem _ listed), elsewhere hash listed]
      · rw [if_neg listed, changed]
        by_cases same : hash = first
        · rw [if_pos same, same, if_pos mem_cons_self, stored]
          rfl
        · rw [if_neg same, if_neg (fun mem => (mem_cons.mp mem).elim same listed)]
    · rw [extended, appended, append_assoc]
    · rw [mem_append, handedHere, handed]
      constructor
      · rintro (⟨gone, rfl⟩ | ⟨hash, listed, old, waits, gone, rfl⟩)
        · exact ⟨first, mem_cons_self, found, stored, gone, rfl⟩
        · exact ⟨hash, mem_cons_of_mem _ listed, old,
            (elsewhere hash listed).symm.trans waits, gone, rfl⟩
      · rintro ⟨hash, listed, old, waits, gone, rfl⟩
        rcases mem_cons.mp listed with rfl | later
        · obtain rfl := Option.some.inj (stored.symm.trans waits)
          exact .inl ⟨gone, rfl⟩
        · exact .inr ⟨hash, later, old, (elsewhere hash later).trans waits, gone, rfl⟩

theorem satisfyOne_satisfied
    (indexed : Indexed state.1) (ran : satisfyOne order state tag = .ok last) :
    ∃ more, last.2 = state.2 ++ more ∧ Satisfied {tag} state.1 last.1 more := by
  have untouched : ∀ hash tx, ¬ state.1.Misses hash tag →
      state.1.waiting.lookup hash = some tx → leftOver {tag} tx = some tx :=
    fun hash tx present stored => leftOver_of_disjoint fun other missing same =>
      present ⟨tx, stored, Finset.mem_singleton.mp same ▸ missing⟩
  unfold satisfyOne at ran
  cases listed : state.1.wantedTags.lookup tag with
  | none =>
    rw [listed] at ran
    obtain rfl := Except.ok.inj ran
    have nobody : ∀ hash, ¬ state.1.Misses hash tag := by
      intro hash misses
      have mem := (indexed.wanted tag hash).mpr misses
      rw [wantedBy, listed] at mem
      exact absurd mem (Finset.notMem_empty hash)
    refine ⟨[], by simp, fun hash => ?_, fun tx => ?_⟩
    · cases stored : state.1.waiting.lookup hash with
      | none => rfl
      | some tx => exact (untouched hash tx (nobody hash) stored).symm
    · refine ⟨fun mem => absurd mem not_mem_nil, ?_⟩
      rintro ⟨hash, old, stored, gone, -⟩
      rw [untouched hash old (nobody hash) stored] at gone
      cases gone
  | some hashes =>
    rw [listed] at ran
    have member : ∀ hash, hash ∈ order.wanted.list tag hashes ↔ state.1.Misses hash tag := by
      intro hash
      rw [order.wanted.mem_list, ← indexed.wanted, wantedBy, listed]
      rfl
    obtain ⟨lookups, more, extended, handed⟩ := satisfyHash_lookup ran
      (order.wanted.nodup tag hashes) (fun hash mem => (member hash).mp mem)
    refine ⟨more, extended, fun hash => ?_, fun tx => ?_⟩
    · rw [lookups]
      split
      · rfl
      · rename_i present
        cases stored : state.1.waiting.lookup hash with
        | none => rfl
        | some tx => exact (untouched hash tx (fun misses => present ((member hash).mpr misses))
            stored).symm
    · rw [handed]
      constructor
      · rintro ⟨hash, -, old, stored, gone, rfl⟩
        exact ⟨hash, old, stored, gone, rfl⟩
      · rintro ⟨hash, old, stored, gone, rfl⟩
        refine ⟨hash, (member hash).mpr ?_, old, stored, gone, rfl⟩
        by_contra present
        rw [untouched hash old present stored] at gone
        cases gone

/-- **Satisfied tags.** `satisfy_tags` takes the given tags away from every waiting transaction
and hands out the ones that miss nothing else. -/
theorem satisfyTags_satisfied {future : FutureTransactions H T}
    {tags : List T} {unlocked : List (WaitingTransaction H T)} (indexed : Indexed future)
    (ran : future.satisfyTags order tags = .ok (after, unlocked)) :
    Satisfied tags.toFinset future after unlocked := by
  let inv := fun (state : FutureTransactions H T × List (WaitingTransaction H T)) (rest : List T) =>
    Indexed state.1 ∧ Unlocked future state ∧
      ∃ done, done ++ rest = tags ∧ Satisfied done.toFinset future state.1 state.2
  have start : inv (future, []) tags := ⟨indexed, .start future, [], rfl, .refl future⟩
  have round : ∀ state, ∀ tag ∈ tags, ∀ rest, inv state (tag :: rest) →
      ∃ next, satisfyOne order state tag = .ok next ∧ inv next rest := by
    rintro state tag _ rest ⟨indexed, unlocked, done, split, satisfied⟩
    obtain ⟨next, called, kept, moved⟩ := satisfyOne_returns order tag indexed unlocked
    obtain ⟨more, extended, one⟩ := satisfyOne_satisfied indexed called
    refine ⟨next, called, kept, moved, done ++ [tag], by simpa using split, ?_⟩
    rw [extended, toFinset_append]
    exact satisfied.trans one
  obtain ⟨last, looped, -, -, done, all, satisfied⟩ := foldlM_list inv tags start round
  rw [append_nil] at all
  obtain rfl := Except.ok.inj (looped.symm.trans ran)
  exact all ▸ satisfied

/-! ## Every history of the queue -/

/-- No empty set is stored under a tag. -/
def NoneEmpty (wantedTags : HashMap T (Finset H)) : Prop :=
  ∀ tag, Finmap.lookup tag wantedTags ≠ some ∅

variable {wantedTags : HashMap T (Finset H)}

omit [DecidableEq H] in
theorem NoneEmpty.insert (filled : NoneEmpty wantedTags) (tag : T) {hashes : Finset H}
    (some : hashes ≠ ∅) : NoneEmpty (Finmap.insert tag hashes wantedTags) := by
  intro other stored
  rw [HashMap.lookup_insert_eq] at stored
  split at stored
  · exact some (Option.some.inj stored)
  · exact filled other stored

omit [DecidableEq H] in
theorem NoneEmpty.erase (filled : NoneEmpty wantedTags) (tag : T) :
    NoneEmpty (Finmap.erase tag wantedTags) := by
  intro other stored
  rw [HashMap.lookup_erase_eq] at stored
  split at stored
  · cases stored
  · exact filled other stored

theorem NoneEmpty.unwant (filled : NoneEmpty wantedTags) (hash : H) (tag : T) :
    NoneEmpty (unwant hash wantedTags tag) := by
  unfold FutureTransactions.unwant
  split
  · exact filled
  · split
    · exact filled.erase tag
    · rename_i some
      exact filled.insert tag some

theorem satisfyOne_noneEmpty (filled : NoneEmpty state.1.wantedTags)
    (ran : satisfyOne order state tag = .ok last) : NoneEmpty last.1.wantedTags := by
  unfold satisfyOne at ran
  split at ran
  · exact Except.ok.inj ran ▸ filled
  · refine foldlM_preserves (motive := fun state => NoneEmpty state.1.wantedTags) ?_ ran
      (filled.erase tag)
    intro state hash next kept visited
    simp only [satisfyHash] at visited
    split at visited
    · cases visited
    · split at visited
      all_goals exact Except.ok.inj visited ▸ kept

inductive Call (H T : Type)
  | importTransaction (tx : WaitingTransaction H T)
  | satisfyTags (tags : List T)
  | remove (hashes : List H)
  | clear

/-- The queue after a call that visits its sets in the given order. -/
def step (future : FutureTransactions H T) :
    Order H T × Call H T → Except Panic (FutureTransactions H T)
  | (order, .importTransaction tx) => future.importTransaction order tx
  | (order, .satisfyTags tags) => (·.1) <$> future.satisfyTags order tags
  | (order, .remove hashes) => .ok (future.remove order hashes).1
  | (order, .clear) => .ok (future.clear order).1

theorem step_keeps {future next : FutureTransactions H T} {call : Order H T × Call H T}
    (kept : Indexed future ∧ NoneEmpty future.wantedTags) (ran : future.step call = .ok next) :
    Indexed next ∧ NoneEmpty next.wantedTags := by
  obtain ⟨indexed, filled⟩ := kept
  obtain ⟨order, tx | tags | hashes | _⟩ := call
  · rw [step, importTransaction] at ran
    split at ran
    · cases ran
    · rename_i missing
      split at ran
      · cases ran
      · rename_i fresh
        obtain ⟨after, returned, kept, -⟩ :=
          importTransaction_returns order indexed (Bool.eq_false_of_not_eq_true missing) fresh
        rw [importTransaction, if_neg missing, if_neg fresh, ran] at returned
        refine ⟨Except.ok.inj returned ▸ kept, Except.ok.inj ran ▸ ?_⟩
        exact foldlRecOn (motive := NoneEmpty) _ _ filled fun wanted kept tag _ =>
          kept.insert tag (Finset.insert_ne_empty _ _)
  · obtain ⟨unlocked, returned⟩ := map_fst_eq_ok.mp ran
    obtain ⟨_, _, same, kept, -⟩ := satisfyTags_returns order indexed tags
    refine ⟨(ok_pair_inj (same.symm.trans returned)).1 ▸ kept, ?_⟩
    exact foldlM_preserves (motive := fun state => NoneEmpty state.1.wantedTags)
      (fun _ _ _ => satisfyOne_noneEmpty) returned filled
  · refine ⟨Except.ok.inj ran ▸ (remove_indexed order indexed hashes).1, Except.ok.inj ran ▸ ?_⟩
    refine foldlRecOn (motive := fun state : FutureTransactions H T × List (Transaction H T) =>
      NoneEmpty state.1.wantedTags) _ _ filled fun state kept hash _ => ?_
    unfold removeOne
    split
    · exact kept
    · exact foldlRecOn (motive := NoneEmpty) _ _ kept fun _ kept tag _ => kept.unwant hash tag
  · obtain rfl := Except.ok.inj ran
    exact ⟨indexed_empty, fun _ found => by cases found⟩

/-- **The index of the future queue is exact.** Whatever was imported, satisfied, removed and
cleared before, a tag lists the waiting transactions that miss it, no empty set is stored, and
`satisfy_tags` hands out, once each, the transactions whose missing tags become empty. -/
theorem queue_exact {future : FutureTransactions H T}
    (reached : Reachable step (fun _ _ => True) {} future) :
    (∀ tag hash, hash ∈ future.wantedBy tag ↔ future.Misses hash tag) ∧
    (∀ tag, Finmap.lookup tag future.wantedTags ≠ some ∅) ∧
    ∀ order tags, ∃ after unlocked, future.satisfyTags order tags = .ok (after, unlocked) ∧
      (∀ tx, tx ∈ unlocked ↔ ∃ hash old, Finmap.lookup hash future.waiting = some old ∧
        (old.missingTags ≠ ∅ ∧ old.missingTags ⊆ tags.toFinset) ∧
        tx = { old with missingTags := ∅ }) ∧
      (unlocked.map (·.transaction.hash)).Nodup := by
  obtain ⟨indexed, filled⟩ := reached.invariant
    (motive := fun future => Indexed future ∧ NoneEmpty future.wantedTags)
    ⟨indexed_empty, fun _ => nofun⟩ fun _ _ _ kept _ => step_keeps kept
  refine ⟨indexed.wanted, filled, fun order tags => ?_⟩
  obtain ⟨after, unlocked, returned, -, moved⟩ := satisfyTags_returns order indexed tags
  refine ⟨after, unlocked, returned, fun tx => ?_, moved.nodup⟩
  rw [(satisfyTags_satisfied indexed returned).unlocked]
  simp only [leftOver, ite_eq_left_iff, reduceCtorEq, imp_false, not_not]

/-- Of a transaction that misses tag 1 and one that misses tags 1 and 2, tag 1 hands out the
first. -/
theorem queue_exact_two :
    let single : WaitingTransaction Nat Nat := ⟨⟨1, 7, 0, 0, [1], []⟩, {1}, 0⟩
    ∃ future : FutureTransactions Nat Nat, Reachable step (fun _ _ => True) {} future ∧
      7 ∈ future.wantedBy 1 ∧ 8 ∈ future.wantedBy 1 ∧
      ∃ after unlocked, future.satisfyTags (.sorted Nat Nat) [1] = .ok (after, unlocked) ∧
        (∀ tx, tx ∈ unlocked ↔ tx = { single with missingTags := ∅ }) ∧
        (unlocked.map (·.transaction.hash)).Nodup := by
  intro single
  let double : WaitingTransaction Nat Nat := ⟨⟨1, 8, 0, 0, [1, 2], []⟩, {1, 2}, 0⟩
  obtain ⟨middle, first, _⟩ : ∃ middle, step {} (.sorted Nat Nat, .importTransaction single) =
      .ok middle ∧ middle.waiting = Finmap.insert 7 single ∅ := ⟨_, rfl, rfl⟩
  obtain ⟨future, second, waits⟩ :
    ∃ future, step middle (.sorted Nat Nat, .importTransaction double)
      = .ok future ∧ future.waiting = Finmap.insert 8 double (Finmap.insert 7 single ∅) := by
    obtain rfl := Except.ok.inj first
    exact ⟨_, rfl, rfl⟩
  have reached : Reachable step (fun _ _ => True) {} future :=
    .tail (.tail .refl trivial first) trivial second
  have stored : ∀ hash old, future.waiting.lookup hash = some old ↔
      hash = 8 ∧ old = double ∨ hash = 7 ∧ old = single := by
    intro hash old
    rw [waits, HashMap.lookup_insert_eq, HashMap.lookup_insert_eq, Finmap.lookup_empty]
    grind
  obtain ⟨wanted, -, satisfies⟩ := queue_exact reached
  obtain ⟨after, unlocked, ran, handed, once⟩ := satisfies (.sorted Nat Nat) [1]
  refine ⟨future, reached, (wanted 1 7).mpr ⟨single, (stored 7 _).mpr (.inr ⟨rfl, rfl⟩), by decide⟩,
    (wanted 1 8).mpr ⟨double, (stored 8 _).mpr (.inl ⟨rfl, rfl⟩), by decide⟩, after, unlocked, ran,
    fun tx => (handed tx).trans ⟨?_, ?_⟩, once⟩
  · rintro ⟨hash, old, waiting, ⟨-, covered⟩, rfl⟩
    rcases (stored hash old).mp waiting with ⟨-, rfl⟩ | ⟨-, rfl⟩
    · exact absurd covered (by decide)
    · rfl
  · rintro rfl
    exact ⟨7, single, (stored 7 _).mpr (.inr ⟨rfl, rfl⟩), by decide, rfl⟩

end Brace.TransactionPool.FutureTransactions
