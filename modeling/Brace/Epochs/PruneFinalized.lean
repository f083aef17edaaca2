import Brace.Epochs.EpochChanges
import Brace.ForkTree.Prune

/-!
# Pruning epochs keeps the lookup

In a `Chain` every epoch is signalled by the first block of the epoch before it, and the first two
epochs together by a block with number one. The node that pruning makes the root has ended by the
slot of the finalized block. The next node on the branch was signalled before that end, so that it
leads to the finalized block and is the child that is kept. A lookup for a later slot before the end
of the last epoch of the branch returns a node at or after the new root, which is kept with all
nodes after it.
-/

namespace Brace.Epochs

open Brace.Lib Brace.ForkTree Epoch List PersistedEpoch Ancestry

variable {H S Ep E : Type} [LinearOrder S] [Epoch Ep S]

/-- The last epoch that a block signals. -/
def PersistedEpoch.last : PersistedEpoch Ep → Ep
  | .genesis _ epoch1 => epoch1
  | .regular epochN => epochN

theorem PersistedEpoch.endsBy_iff {epoch : PersistedEpoch Ep} {slot : S} :
    epoch.endsBy slot ↔ endSlot epoch.last ≤ slot := by
  cases epoch <;> exact decide_eq_true_iff

/-- A tree of blocks with slots that signal epochs. -/
structure Chain (H S Ep : Type) [LinearOrder S] [Epoch Ep S] where
  ancestry : Ancestry H Nat
  parent : H → H
  slot : H → S
  signal : H → Option (PersistedEpoch Ep)
  before_iff : ∀ {base hash}, ancestry.number hash ≠ 0 →
    (ancestry.before base hash ↔ ancestry.AtOrBefore base (parent hash))
  slot_lt : ∀ {base target}, ancestry.before base target → slot base < slot target
  /-- The first two epochs are signalled by the first block of the first one. -/
  genesis : ∀ {hash epoch0 epoch1}, signal hash = some (.genesis epoch0 epoch1) →
    ancestry.number hash = 1 ∧ startSlot epoch0 ≤ slot hash ∧ slot hash < endSlot epoch0 ∧
      startSlot epoch1 = endSlot epoch0 ∧ startSlot epoch1 < endSlot epoch1
  /-- Every other epoch is signalled by the first block of the epoch before it, which is the last
  one signalled on the branch. -/
  regular : ∀ {hash epochN}, signal hash = some (.regular epochN) →
    ∃ previous signalled, signal previous = some signalled ∧ ancestry.before previous hash ∧
      (∀ other, ancestry.before other hash → (signal other).isSome →
        ancestry.AtOrBefore other previous) ∧
      startSlot epochN = endSlot signalled.last ∧ startSlot epochN < endSlot epochN ∧
      startSlot signalled.last ≤ slot hash ∧ slot hash < endSlot signalled.last ∧
      ∀ earlier, ancestry.before earlier hash → slot earlier < startSlot signalled.last

namespace Chain

variable (chain : Chain H S Ep) {hash : H} {epoch : PersistedEpoch Ep}

theorem number_ne_zero (signalled : chain.signal hash = some epoch) :
    chain.ancestry.number hash ≠ 0 := by
  cases epoch with
  | genesis epoch0 epoch1 =>
    rw [(chain.genesis signalled).1]
    decide
  | regular epochN =>
    obtain ⟨previous, _, _, before, _⟩ := chain.regular signalled
    have lower := chain.ancestry.number_lt before
    omega

theorem startsBy (signalled : chain.signal hash = some epoch) {slot : S}
    (later : chain.slot hash < slot) (ended : endSlot epoch.last ≤ slot) : epoch.startsBy slot := by
  cases epoch with
  | genesis epoch0 epoch1 =>
    exact decide_eq_true ((chain.genesis signalled).2.1.trans later.le)
  | regular epochN =>
    obtain ⟨_, _, _, _, _, _, pos, _⟩ := chain.regular signalled
    exact decide_eq_true (pos.le.trans ended)

end Chain

/-! ## The queries -/

variable (chain : Chain H S Ep)

section

variable [DecidableEq H] (E : Type) (ancestry : Ancestry H Nat)

theorem isDescendentOf_current (hash parent base : H) :
    isDescendentOf E ancestry (some (hash, parent)) base hash =
      .ok (decide (base ≠ hash ∧ ancestry.AtOrBefore base parent)) := by
  unfold isDescendentOf
  by_cases same : base = hash
  · simp only [same, if_true, ne_eq, not_true, false_and, decide_false]
  · by_cases child : base = parent
    · subst child
      simp [same, Ancestry.AtOrBefore]
    · simp [same, child]

theorem isDescendentOf_none (base hash : H) :
    isDescendentOf E ancestry none base hash = .ok (ancestry.before base hash) := by
  unfold isDescendentOf
  by_cases same : base = hash
  · subst same
    have apart := ancestry.irrefl base
    rw [Bool.not_eq_true] at apart
    rw [if_pos rfl, apart]
  · simp [same, Ancestry.AtOrBefore]

theorem Chain.isDescendentOf_import {hash : H} (number : chain.ancestry.number hash ≠ 0)
    (base : H) : isDescendentOf E chain.ancestry (some (hash, chain.parent hash)) base hash =
      query E chain.ancestry base hash := by
  rw [isDescendentOf_current, query]
  refine congrArg Except.ok (Bool.eq_iff_iff.mpr ?_)
  rw [decide_eq_true_eq, ← chain.before_iff number]
  refine and_iff_right_of_imp fun before same => ?_
  rw [same] at before
  exact chain.ancestry.irrefl _ before

/-- The answers of the query for a child of the block with a fake hash. -/
abbrev Chain.answers (chain : Chain H S Ep) (fake block base : H) : Bool :=
  decide (base ≠ fake ∧ chain.ancestry.AtOrBefore base block)

theorem Chain.answers_oneBranch (fake block : H) :
    OneBranch chain.ancestry (chain.answers fake block) (chain.ancestry.number block + 1) := by
  refine ⟨fun left right => (of_decide_eq_true left).2.related (of_decide_eq_true right).2,
    fun answered => ?_⟩
  rcases (of_decide_eq_true answered).2 with rfl | before
  · exact Nat.le_succ _
  · exact (chain.ancestry.number_lt before).le.trans (Nat.le_succ _)

end

/-! ## Runs -/

namespace EpochChanges

variable [DecidableEq H]

/-- The state after a block was imported, with the epoch that it signals. -/
def step (E : Type) (chain : Chain H S Ep) (self : EpochChanges H Ep) (hash : H) :
    Except Empty (EpochChanges H Ep) :=
  match chain.signal hash with
  | none => .ok self
  | some epoch => .ok (self.importEpoch (isDescendentOf E chain.ancestry) hash
      (chain.ancestry.number hash) (chain.parent hash) epoch).1

/-- The blocks of a branch are imported in order. -/
def InOrder (self : EpochChanges H Ep) (hash : H) : Prop :=
  hash ∈ hashesOf self.inner.roots ∨
    ∀ other ∈ hashesOf self.inner.roots, ¬ chain.ancestry.before hash other

instance (chain : Chain H S Ep) (self : EpochChanges H Ep) (hash : H) :
    Decidable (InOrder chain self hash) :=
  inferInstanceAs (Decidable (_ ∨ ∀ other ∈ hashesOf self.inner.roots, ¬ _))

/-- The signals on the branch of a block are imported. -/
def Imported (changes : EpochChanges H Ep) (block : H) : Prop :=
  ∀ hash, chain.ancestry.AtOrBefore hash block → (chain.signal hash).isSome →
    hash ∈ hashesOf changes.inner.roots

/-- The tree mirrors the ancestry and has the signals of its blocks. -/
structure Signalled (chain : Chain H S Ep) (changes : EpochChanges H Ep) : Prop where
  mirrors : Mirrors chain.ancestry changes.inner.roots
  signals : ∀ node ∈ nodesOf changes.inner.roots, chain.signal node.hash = some node.data

theorem Signalled.step {chain : Chain H S Ep} {changes next : EpochChanges H Ep} {hash : H}
    (signalled : Signalled chain changes) (inOrder : InOrder chain changes hash)
    (ran : changes.step E chain hash = .ok next) : Signalled chain next := by
  unfold EpochChanges.step at ran
  cases signal : chain.signal hash with
  | none =>
    rw [signal] at ran
    cases ran
    exact signalled
  | some epoch =>
    rw [signal] at ran
    have asks := chain.isDescendentOf_import E (chain.number_ne_zero signal)
    simp only [importEpoch, Tree.importBlock_congr asks] at ran
    rcases Tree.importBlock_cases E signalled.mirrors hash epoch with
      ⟨_, result⟩ | ⟨_, _, result⟩ | ⟨_, absent, roots, isRoot, result, entries, after⟩
    · rw [result] at ran
      cases ran
      exact signalled
    · rw [result] at ran
      cases ran
      exact signalled
    · rw [result] at ran
      cases ran
      refine ⟨after (inOrder.resolve_left absent), fun node member => ?_⟩
      have signals : ∀ entry ∈ (hash, chain.ancestry.number hash, epoch) ::
          entriesOf changes.inner.roots, chain.signal entry.1 = some entry.2.2 :=
        forall_mem_cons.mpr ⟨signal, forall_mem_map.mpr signalled.signals⟩
      exact signals node.entry (entries.subset (mem_map_of_mem member))

variable {found : Option (Node H Nat (PersistedEpoch Ep))}

namespace Signalled

variable {chain : Chain H S Ep} {changes : EpochChanges H Ep} {finalized block : H}
  {root : Node H Nat (PersistedEpoch Ep)}

section

variable (signalled : Signalled chain changes) (member : root ∈ nodesOf changes.inner.roots)
  (ended : endSlot root.data.last ≤ chain.slot finalized)
  (descends : chain.ancestry.AtOrBefore finalized block) (imported : Imported chain changes block)

include signalled member ended descends imported

/-- The next node on the branch leads to the finalized block: it was signalled before the end of the
epoch of the root. -/
theorem child_leads {child : Node H Nat (PersistedEpoch Ep)} (is_child : child ∈ root.children)
    (on_branch : chain.ancestry.AtOrBefore child.hash block) :
    chain.ancestry.AtOrBefore child.hash finalized := by
  have mirrors := signalled.mirrors
  have mem : child ∈ nodesOf changes.inner.roots :=
    (children_sublist member).subset (root_mem is_child)
  have root_before := mirrors.before_child member (root_mem is_child)
  have signal := signalled.signals child mem
  have root_signal := signalled.signals root member
  cases data : child.data with
  | genesis epoch0 epoch1 =>
    rw [data] at signal
    have number := (chain.genesis signal).1
    have lower := chain.ancestry.number_lt root_before
    have pos := chain.number_ne_zero root_signal
    omega
  | regular epochN =>
    rw [data] at signal
    obtain ⟨previous, epoch, previous_signal, before, latest, _, _, _, in_time, _⟩ :=
      chain.regular signal
    -- the last signal before the child is the root of it in the tree
    have same : root.hash = previous := by
      rcases latest root.hash root_before (by rw [root_signal]; rfl) with same | between
      · exact same
      · obtain ⟨node, there, rfl⟩ := mem_map.mp (imported previous
          (.inr (Ancestry.AtOrBefore.before_of_before' before on_branch))
          (by rw [previous_signal]; rfl))
        obtain ⟨other, listed, in_tree⟩ :=
          exists_root_of_mem ((mirrors.mem_children_iff member).mpr ⟨there, between⟩)
        have children_mirrors := mirrors.children member
        have above := children_mirrors.root_atOrBefore listed in_tree
        have one : other = child := children_mirrors.root_unique listed is_child
          (.inr (.inl (above.before_of_before before)))
        rw [one] at above
        exact absurd (above.before_of_before before) (chain.ancestry.irrefl _)
    rw [← same, root_signal] at previous_signal
    cases previous_signal
    rcases on_branch.related descends with equal | earlier | later
    · exact .inl equal
    · exact .inr earlier
    · exact absurd (chain.slot_lt later) (not_lt.mpr (in_time.le.trans ended))

theorem entry_kept {node : Node H Nat (PersistedEpoch Ep)}
    (mem : node ∈ nodesOf changes.inner.roots)
    (after : chain.ancestry.AtOrBefore root.hash node.hash)
    (on_branch : chain.ancestry.AtOrBefore node.hash block) :
    node.entry ∈ entriesOf
      (prunedRoots chain.ancestry finalized changes.inner.roots (some root)) := by
  have mirrors := signalled.mirrors
  rw [prunedRoots, entriesOf, nodesOf_singleton]
  rcases after with same | before
  · rw [← mirrors.unique member mem same]
    exact mem_cons_self
  · obtain ⟨child, is_child, in_tree⟩ :=
      exists_root_of_mem ((mirrors.mem_children_iff member).mpr ⟨mem, before⟩)
    have above := (mirrors.children member).root_atOrBefore is_child in_tree
    have leads := signalled.child_leads member ended descends imported is_child
      (above.trans on_branch)
    have kept : child ∈ root.children.filter (leadsTo chain.ancestry finalized) :=
      mem_filter.mpr ⟨is_child, leadsTo_iff.mpr leads⟩
    exact mem_cons_of_mem _ (mem_map_of_mem (tree_subset kept in_tree))

end

/-- The node that a lookup returned is not before the new root. -/
theorem root_atOrBefore_found {slot : S} {last : H} {epoch : PersistedEpoch Ep}
    (signalled : Signalled chain changes) (descends : chain.ancestry.AtOrBefore finalized block)
    (imported : Imported chain changes block) (later : chain.slot block < slot)
    (last_signal : chain.signal last = some epoch)
    (on_branch : chain.ancestry.AtOrBefore last block)
    (is_last : ∀ hash, chain.ancestry.AtOrBefore hash block → (chain.signal hash).isSome →
      chain.ancestry.AtOrBefore hash last) (in_time : slot < endSlot epoch.last)
    (member : root ∈ nodesOf changes.inner.roots)
    (before : chain.ancestry.before root.hash finalized)
    (ended : endSlot root.data.last ≤ chain.slot finalized) {fake : H}
    (deepest : Deepest chain.ancestry (chain.answers fake block) (startsBy slot)
      changes.inner.roots found) :
    ∃ node ∈ found, chain.ancestry.AtOrBefore root.hash node.hash := by
  have mirrors := signalled.mirrors
  have root_signal := signalled.signals root member
  have to_block := Ancestry.AtOrBefore.before_of_before' before descends
  have slot_finalized : chain.slot finalized < slot := by
    refine lt_of_le_of_lt ?_ later
    exact Or.elim descends (fun same => (congrArg chain.slot same).le) fun before =>
      (chain.slot_lt before).le
  have passes : root.data.startsBy slot := chain.startsBy root_signal
    ((chain.slot_lt before).trans slot_finalized) (ended.trans slot_finalized.le)
  -- the last signal of the branch is another block, so that one of the two is not the fake hash
  have root_last := is_last root.hash (.inr to_block) (by rw [root_signal]; rfl)
  have differ : last ≠ root.hash := by
    rintro rfl
    rw [root_signal] at last_signal
    cases last_signal
    exact absurd in_time (not_lt.mpr (ended.trans slot_finalized.le))
  have met : Met (chain.answers fake block) root := by
    refine (mirrors.met_iff_exists member).mpr ?_
    by_cases same : root.hash = fake
    · exact ⟨last, imported last on_branch (by rw [last_signal]; rfl), root_last,
        decide_eq_true ⟨same ▸ differ, on_branch⟩⟩
    · exact ⟨_, hash_mem member, .inl rfl, decide_eq_true ⟨same, .inr to_block⟩⟩
  cases found with
  | none => exact absurd passes (deepest root member met)
  | some node => exact ⟨node, rfl, deepest.2.2.2 root member met passes⟩

end Signalled

/-- **Pruning at a finalized block does not change the lookup** of epochs for its descendants, for
slots before the end of the last epoch that is signalled on their branch. -/
theorem pruneFinalized_keeps_lookup (E : Type) (chain : Chain H S Ep) {changes : EpochChanges H Ep}
    (reached : Reachable (step E chain) (InOrder chain) new changes) {finalized block : H}
    (descends : chain.ancestry.AtOrBefore finalized block) (imported : Imported chain changes block)
    {slot : S} (later : chain.slot block < slot) {last : H} {epoch : PersistedEpoch Ep}
    (last_signal : chain.signal last = some epoch)
    (on_branch : chain.ancestry.AtOrBefore last block)
    (is_last : ∀ hash, chain.ancestry.AtOrBefore hash block → (chain.signal hash).isSome →
      chain.ancestry.AtOrBefore hash last) (in_time : slot < endSlot epoch.last)
    (fakeHeadHash : H → H) (makeGenesis : S → Ep) :
    ∃ pruned, changes.pruneFinalized (isDescendentOf E chain.ancestry) finalized
        (chain.ancestry.number finalized) (chain.slot finalized) = (pruned, .ok ()) ∧
      pruned.epochForChildOf (isDescendentOf E chain.ancestry) fakeHeadHash block
          (chain.ancestry.number block) slot makeGenesis =
        changes.epochForChildOf (isDescendentOf E chain.ancestry) fakeHeadHash block
          (chain.ancestry.number block) slot makeGenesis := by
  have empty : Signalled chain (new : EpochChanges H Ep) :=
    ⟨⟨nodup_nil, fun node member => absurd member not_mem_nil,
      fun node member => absurd member not_mem_nil⟩,
      fun node member => absurd member not_mem_nil⟩
  have signalled : Signalled chain changes :=
    reached.invariant empty fun _ _ _ signalled inOrder ran =>
      signalled.step inOrder ran
  have mirrors := signalled.mirrors
  obtain ⟨result, cut, pruned_eq⟩ := Tree.prune_eq
    (fun base => isDescendentOf_none E chain.ancestry base finalized) mirrors
    (fun epoch : PersistedEpoch Ep => epoch.endsBy (chain.slot finalized))
  have member : ∀ root ∈ result, root ∈ nodesOf changes.inner.roots := by
    rintro root rfl
    exact cut.1
  have asks := isDescendentOf_current E chain.ancestry (fakeHeadHash block) block
  have branch := chain.answers_oneBranch (fakeHeadHash block) block
  obtain ⟨found, search, deepest⟩ := Tree.findNodeWhere_deepest branch asks mirrors
    (startsBy slot)
  let pruned : Tree H Nat (PersistedEpoch Ep) := Tree.rebalance
    { changes.inner with roots := prunedRoots chain.ancestry finalized changes.inner.roots result }
  have entries : (entriesOf pruned.roots).Perm
      (entriesOf (prunedRoots chain.ancestry finalized changes.inner.roots result)) :=
    entriesOf_rebalance _
  have pruned_mirrors : Mirrors chain.ancestry pruned.roots :=
    (mirrors.prunedRoots finalized member).rebalance
  obtain ⟨found_after, search_after, deepest_after⟩ :=
    Tree.findNodeWhere_deepest branch asks pruned_mirrors (startsBy slot)
  have cut_before : ∀ root ∈ result, chain.ancestry.before root.hash finalized ∧
      endSlot root.data.last ≤ chain.slot finalized := by
    rintro root rfl
    obtain ⟨other, _, above, before⟩ := (mirrors.met_iff_exists cut.1).mp cut.2.1
    exact ⟨above.before_of_before before, endsBy_iff.mp cut.2.2.1⟩
  -- Both searches find the deepest match, and every match from the cut root on was kept.
  have same : found_after.map Node.entry = found.map Node.entry := by
    refine Deepest.same mirrors pruned_mirrors
      (fun entry kept => entries_of_prunedRoots member (entries.subset kept))
      (fun hash => ∀ root ∈ result, chain.ancestry.AtOrBefore root.hash hash)
      (fun here above root mem => (here root mem).trans above) ?_ deepest deepest_after ?_
    · rintro node mem here ⟨other, answered, above⟩
      refine entries.symm.subset ?_
      cases result with
      | none => exact mem_map_of_mem mem
      | some root =>
        exact signalled.entry_kept cut.1 (cut_before root rfl).2 descends imported mem
          (here root rfl) (above.trans (of_decide_eq_true answered).2)
    · intro node ran root mem
      obtain ⟨node, returned_also, after⟩ := signalled.root_atOrBefore_found descends imported
        later last_signal on_branch is_last in_time (member root mem)
        (cut_before root mem).1 (cut_before root mem).2 deepest
      cases Option.mem_unique ran returned_also
      exact after
  refine ⟨⟨pruned⟩, ?_, ?_⟩
  · rw [EpochChanges.pruneFinalized, pruned_eq]
  · simp only [epochForChildOf, search, search_after]
    cases found <;> cases found_after <;> simp_all [Node.entry]

end EpochChanges

/-! ## A chain -/

/-- An epoch of natural slots. -/
structure Span where
  start : Nat
  stop : Nat
  deriving DecidableEq, Repr

instance : Epoch Span Nat := ⟨Span.start, Span.stop⟩

/-- The signal of a block in the slot of its number, with epochs of two slots. -/
def twoSlotSignal (path : List Nat) : Option (PersistedEpoch Span) :=
  if path.length = 1 then some (.genesis ⟨1, 3⟩ ⟨3, 5⟩)
  else if path.length % 2 = 1 then some (.regular ⟨path.length + 2, path.length + 4⟩)
  else none

variable {path : List Nat}

theorem twoSlotSignal_eq {epoch : PersistedEpoch Span} (signal : twoSlotSignal path = some epoch) :
    path.length % 2 = 1 ∧ epoch.last = ⟨path.length + 2, path.length + 4⟩ := by
  unfold twoSlotSignal at signal
  split at signal
  · rename_i first
    cases signal
    rw [first]
    exact ⟨rfl, rfl⟩
  · split at signal
    · rename_i odd
      cases signal
      exact ⟨odd, rfl⟩
    · cases signal

theorem twoSlotSignal_isSome (odd : path.length % 2 = 1) :
    ∃ epoch, twoSlotSignal path = some epoch := by
  unfold twoSlotSignal
  split <;> exact ⟨_, rfl⟩

/-- Blocks in the slots of their numbers, and epochs of two slots: every block with an odd number is
the first of its epoch. -/
def twoSlotChain : Chain (List Nat) Nat Span where
  ancestry := .paths
  parent := List.dropLast
  slot := List.length
  signal := twoSlotSignal
  before_iff := by
    intro base path positive
    have length_pos : path.length ≠ 0 := positive
    have shorter : base.length < path.length ↔ base.length ≤ path.length - 1 := by omega
    rw [paths_before, paths_atOrBefore, List.length_dropLast, shorter,
      List.dropLast_eq_take, List.take_take]
    exact and_congr_right fun low => by rw [min_eq_left low]
  slot_lt before := (paths_before.mp before).1
  genesis := by
    intro path epoch0 epoch1 signal
    unfold twoSlotSignal at signal
    split at signal
    · rename_i first
      cases signal
      change path.length = 1 ∧ 1 ≤ path.length ∧ path.length < 3 ∧ 3 = 3 ∧ 3 < 5
      omega
    · split at signal <;> cases signal
  regular := by
    intro path epochN signal
    have odd := (twoSlotSignal_eq signal).1
    have span : epochN = ⟨path.length + 2, path.length + 4⟩ := (twoSlotSignal_eq signal).2
    have long : path.length ≠ 1 := by
      intro first
      rw [twoSlotSignal, if_pos first] at signal
      cases signal
    have length : (path.take (path.length - 2)).length = path.length - 2 := by
      rw [List.length_take, min_eq_left (by omega)]
    obtain ⟨epoch, previous⟩ : ∃ epoch, twoSlotSignal (path.take (path.length - 2)) = some epoch :=
      twoSlotSignal_isSome (by omega)
    have last := (twoSlotSignal_eq previous).2
    rw [length, show path.length - 2 + 2 = path.length by omega,
      show path.length - 2 + 4 = path.length + 2 by omega] at last
    refine ⟨_, epoch, previous, paths_before.mpr ⟨by omega, by rw [length]⟩,
      fun other before some_signal => ?_, ?_⟩
    · obtain ⟨shorter, start⟩ := paths_before.mp before
      obtain ⟨other_epoch, other_signal⟩ := Option.isSome_iff_exists.mp some_signal
      have other_odd := (twoSlotSignal_eq other_signal).1
      refine paths_atOrBefore.mpr ⟨by omega, ?_⟩
      rw [List.take_take, min_eq_left (by omega)]
      exact start
    · rw [last, span]
      change path.length + 2 = path.length + 2 ∧ path.length + 2 < path.length + 4 ∧
        path.length ≤ path.length ∧ path.length < path.length + 2 ∧
        ∀ earlier, paths.before earlier path → earlier.length < path.length
      exact ⟨rfl, by omega, by omega, by omega, fun earlier before =>
        (paths_before.mp before).1⟩

/-- Two branches that signal epochs, of which one is finalized. -/
theorem EpochChanges.pruneFinalized_keeps_lookup_fork : ∃ changes : EpochChanges (List Nat) Span,
    Reachable (EpochChanges.step Empty twoSlotChain) (EpochChanges.InOrder twoSlotChain)
      EpochChanges.new changes ∧
    ∃ pruned, changes.pruneFinalized (isDescendentOf Empty .paths) [0, 0, 0, 0, 0] 5 5 =
        (pruned, .ok ()) ∧
      pruned.epochForChildOf (isDescendentOf Empty .paths) id [0, 0, 0, 0, 0] 5 6
          (fun slot => ⟨slot, slot + 2⟩) =
        changes.epochForChildOf (isDescendentOf Empty .paths) id [0, 0, 0, 0, 0] 5 6
          (fun slot => ⟨slot, slot + 2⟩) := by
  refine exists_reachable_of_found [[0], [0, 0, 0], [0, 0, 1], [0, 0, 0, 0, 0]]
    (fun changes => hashesOf changes.inner.roots = [[0], [0, 0, 0], [0, 0, 0, 0, 0], [0, 0, 1]])
    (by decide +kernel) fun changes reached hashes => ?_
  have imported : EpochChanges.Imported twoSlotChain changes [0, 0, 0, 0, 0] := by
    intro hash before signals
    obtain ⟨short, start⟩ := paths_atOrBefore.mp before
    obtain ⟨epoch, signal⟩ := Option.isSome_iff_exists.mp signals
    have odd := (twoSlotSignal_eq signal).1
    rw [hashes, ← start]
    have cases : hash.length = 1 ∨ hash.length = 3 ∨ hash.length = 5 := by
      change hash.length ≤ 5 at short
      omega
    rcases cases with one | three | five
    · rw [one]
      decide
    · rw [three]
      decide
    · rw [five]
      decide
  have last : twoSlotChain.signal [0, 0, 0, 0, 0] = some (.regular ⟨7, 9⟩) := rfl
  exact EpochChanges.pruneFinalized_keeps_lookup Empty twoSlotChain reached (.inl rfl) imported
    (show (5 : Nat) < 6 by decide) last (.inl rfl) (fun hash before _ => before)
    (show (6 : Nat) < 9 by decide) id _

end Brace.Epochs
