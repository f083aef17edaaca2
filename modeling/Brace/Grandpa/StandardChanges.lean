import Brace.Grandpa.AuthoritySet
import Brace.ForkTree.FinalizeIf

/-!
# Standard changes are enacted in order

A run adds changes and applies the standard ones along one finalized chain. Next to the authority
set it records the standard changes that were accepted, the changes that were applied and the last
block that was finalized. `Recorded` relates the record to the fork tree: an accepted change is
pending, applied or on another branch than the finalized block, and an applied change is behind it.
-/

namespace Brace.Grandpa

open Brace.Lib Brace.ForkTree List Option AuthoritySet

/-- An authority set with the record of a run. -/
structure Gadget (H N A : Type) where
  set : AuthoritySet H N A
  /-- The standard changes that were accepted. -/
  added : List (PendingChange H N A)
  /-- The changes that were applied, the last one first. -/
  applied : List (PendingChange H N A)
  /-- The block that was finalized last. -/
  finalized : Option H

inductive Call (H N A : Type) where
  | addPendingChange (pending : PendingChange H N A)
  | applyStandardChanges (hash : H)

variable {H N A E : Type} [DecidableEq H] [LinearOrder N] [Add N]

namespace Gadget

/-- The standard changes that are pending. -/
def pending (self : Gadget H N A) : List (PendingChange H N A) :=
  (entriesOf self.set.pendingStandardChanges.roots).map fun entry => entry.2.2

/-- The change that finalizing a block applies. -/
def enacted (E : Type) (ancestry : Ancestry H N) (self : Gadget H N A) (hash : H) :
    Option (PendingChange H N A) :=
  match (self.set.finalizeChanges (query E ancestry) hash (ancestry.number hash)).2 with
  | .ok (.changed (some change)) => some change
  | _ => none

def step (E : Type) (ancestry : Ancestry H N) (self : Gadget H N A) :
    Call H N A → Except Empty (Gadget H N A)
  | .addPendingChange pending =>
    match self.set.addPendingChange (query E ancestry) pending with
    | (set, .error _) => .ok { self with set }
    | (set, .ok ()) => .ok { self with set, added := match pending.delayKind with
        | .finalized => pending :: self.added
        | .best _ => self.added }
  | .applyStandardChanges hash =>
    match self.set.applyStandardChanges (query E ancestry) hash (ancestry.number hash) with
    | (set, .error _) => .ok { self with set }
    | (set, .ok _) => .ok { self with
        set, finalized := some hash
        applied := (self.enacted E ancestry hash).toList ++ self.applied }

variable (ancestry : Ancestry H N)

/-- The heights of the changes are those of their blocks, the standard changes of a branch are added
in order, and the finalized blocks are a chain. -/
def Consistent (self : Gadget H N A) : Call H N A → Prop
  | .addPendingChange pending => pending.canonHeight = ancestry.number pending.canonHash ∧
      (pending.delayKind = .finalized →
        pending.canonHash ∈ hashesOf self.set.pendingStandardChanges.roots ∨
        ∀ other ∈ hashesOf self.set.pendingStandardChanges.roots,
          ¬ ancestry.before pending.canonHash other)
  | .applyStandardChanges hash => ∀ last ∈ self.finalized, ancestry.AtOrBefore last hash

instance (self : Gadget H N A) (call : Call H N A) : Decidable (self.Consistent ancestry call) :=
  match call with
  | .addPendingChange _ => inferInstanceAs (Decidable (_ ∧
      (_ → _ ∨ ∀ other ∈ hashesOf self.set.pendingStandardChanges.roots, ¬ _)))
  | .applyStandardChanges _ => inferInstanceAs (Decidable (∀ last ∈ self.finalized, _))

structure Recorded (gadget : Gadget H N A) : Prop where
  mirrors : Mirrors ancestry gadget.set.pendingStandardChanges.roots
  signalled : ∀ entry ∈ entriesOf gadget.set.pendingStandardChanges.roots,
    entry.2.2.canonHash = entry.1
  best : gadget.set.pendingStandardChanges.bestFinalizedNumber =
    gadget.finalized.map ancestry.number
  setId : gadget.set.setId = gadget.applied.length
  once : (gadget.applied.map PendingChange.canonHash).Nodup
  behind : ∀ change ∈ gadget.applied, ∃ last ∈ gadget.finalized,
    ancestry.AtOrBefore change.canonHash last
  gone : ∀ change ∈ gadget.applied,
    change.canonHash ∉ hashesOf gadget.set.pendingStandardChanges.roots
  kept : ∀ change ∈ gadget.added, change ∈ gadget.pending ∨ change ∈ gadget.applied ∨
    ∃ last ∈ gadget.finalized, ¬ ancestry.Related change.canonHash last

namespace Recorded

variable {ancestry : Ancestry H N} {self next : Gadget H N A}

variable {hash : H} {change : PendingChange H N A} {set : AuthoritySet H N A}

section

variable (recorded : Recorded ancestry self)

include recorded

section

omit [DecidableEq H] [Add N]

theorem not_reverts (after : ∀ last ∈ self.finalized, ancestry.before last hash) :
    ¬ self.set.pendingStandardChanges.Reverts (ancestry.number hash) := by
  rintro ⟨best, found, low⟩
  rw [recorded.best] at found
  obtain ⟨last, finalized, rfl⟩ := mem_map.mp found
  exact absurd (ancestry.number_lt (after last finalized)) (not_lt.mpr low)

end

theorem addStandard (kind : change.delayKind = .finalized)
    (consistent : self.Consistent ancestry (.addPendingChange change))
    (ran : self.step E ancestry (.addPendingChange change) = .ok next) :
    Recorded ancestry next := by
  obtain ⟨height, ordered⟩ := consistent
  rw [step, addPendingChange, kind, addStandardChange, height] at ran
  rcases Tree.importBlock_cases E recorded.mirrors change.canonHash change with
    ⟨_, result⟩ | ⟨_, _, result⟩ | ⟨fresh, absent, roots, isRoot, result, entries, after⟩
  · rw [result] at ran
    cases ran
    exact recorded
  · rw [result] at ran
    cases ran
    exact recorded
  · rw [result] at ran
    cases ran
    have pending : ∀ other ∈ self.pending,
        other ∈ (entriesOf roots).map fun entry => entry.2.2 := by
      intro other member
      obtain ⟨entry, mem, rfl⟩ := mem_map.mp member
      exact mem_map_of_mem (entries.symm.subset (mem_cons_of_mem _ mem))
    refine ⟨after ((ordered kind).resolve_left absent), fun entry member => ?_, recorded.best,
      recorded.setId, recorded.once, recorded.behind, fun other member present => ?_,
      fun other member => ?_⟩
    · rcases mem_cons.mp (entries.subset member) with rfl | old
      · rfl
      · exact recorded.signalled entry old
    · obtain ⟨last, finalized, behind⟩ := recorded.behind other member
      rw [← map_entriesOf] at present
      rcases mem_cons.mp ((entries.map Prod.fst).subset present) with same | old
      · -- an applied change is not accepted again: its number is finalized
        rw [same] at behind
        refine fresh ⟨ancestry.number last, ?_, ?_⟩
        · rw [recorded.best]
          exact mem_map_of_mem _ finalized
        · rcases behind with equal | before
          · exact (congrArg ancestry.number equal).le
          · exact le_of_lt (ancestry.number_lt before)
      · rw [map_entriesOf] at old
        exact recorded.gone other member old
    · rcases mem_cons.mp member with rfl | old
      · exact .inl (mem_map.mpr ⟨_, entries.symm.subset mem_cons_self, rfl⟩)
      · exact (recorded.kept other old).imp_left (pending other)

theorem addForced {median : N} (kind : change.delayKind = .best median)
    (ran : self.step E ancestry (.addPendingChange change) = .ok next) :
    Recorded ancestry next := by
  have unchanged : (self.set.addForcedChange (query E ancestry) change).1.pendingStandardChanges =
      self.set.pendingStandardChanges ∧
      (self.set.addForcedChange (query E ancestry) change).1.setId = self.set.setId := by
    unfold addForcedChange
    split <;> exact ⟨rfl, rfl⟩
  rw [step, addPendingChange, kind] at ran
  rcases result : self.set.addForcedChange (query E ancestry) change with ⟨set, outcome⟩
  rw [result] at ran unchanged
  cases outcome with
  | error error | ok done =>
    cases ran
    obtain ⟨⟨_, _, _, _⟩, _, _, _⟩ := self
    obtain ⟨_, _, _, _⟩ := set
    obtain ⟨tree, id⟩ := unchanged
    cases tree
    cases id
    exact { recorded with }

omit [DecidableEq H] [Add N] in
/-- Finalizing a block keeps the record: whole subtrees stay, and with them every change on the
branch of the block that is not applied. -/
theorem finalize (chain : ∀ last ∈ self.finalized, ancestry.AtOrBefore last hash)
    {roots : List (Node H N (PendingChange H N A))} {newly : Option (PendingChange H N A)}
    (tree : set.pendingStandardChanges = ⟨roots, some (ancestry.number hash)⟩)
    (subperm : (nodesOf roots).Subperm (nodesOf self.set.pendingStandardChanges.roots))
    (id : set.setId = newly.toList.length + self.set.setId)
    (opened : ∀ change ∈ newly, ∃ root ∈ nodesOf self.set.pendingStandardChanges.roots, root.data =
      change ∧ ancestry.AtOrBefore root.hash hash ∧ root.hash ∉ hashesOf roots)
    (survives : ∀ node ∈ nodesOf self.set.pendingStandardChanges.roots, ancestry.Related node.hash
      hash → node ∈ nodesOf roots ∨ node.data ∈ newly) :
    Recorded ancestry ⟨set, self.added, newly.toList ++ self.applied, some hash⟩ := by
  obtain ⟨_, _, _, _⟩ := set
  cases tree
  have signalled : ∀ node ∈ nodesOf self.set.pendingStandardChanges.roots,
      node.data.canonHash = node.hash := fun node member =>
    recorded.signalled node.entry (mem_map_of_mem member)
  refine ⟨recorded.mirrors.of_subperm subperm, fun entry member => ?_, rfl, ?_, ?_, ?_, ?_, ?_⟩
  · obtain ⟨node, mem, rfl⟩ := mem_map.mp member
    exact signalled node (subperm.subset mem)
  · rw [length_append, ← recorded.setId]
    exact id
  · rw [map_append, nodup_append]
    refine ⟨by cases newly <;> simp, recorded.once, fun first new second old same => ?_⟩
    obtain ⟨change, fresh, rfl⟩ := mem_map.mp new
    obtain ⟨other, earlier, rfl⟩ := mem_map.mp old
    obtain ⟨root, member, rfl, _⟩ := opened change (mem_toList.mp fresh)
    refine recorded.gone other earlier ?_
    rw [← same, signalled root member]
    exact hash_mem member
  · intro change member
    rcases mem_append.mp member with fresh | old
    · obtain ⟨root, mem, rfl, leads, _⟩ := opened change (mem_toList.mp fresh)
      rw [signalled root mem]
      exact ⟨hash, rfl, leads⟩
    · obtain ⟨last, finalized, behind⟩ := recorded.behind change old
      exact ⟨hash, rfl, behind.trans (chain last finalized)⟩
  · intro change member
    rcases mem_append.mp member with fresh | old
    · obtain ⟨root, mem, rfl, _, absent⟩ := opened change (mem_toList.mp fresh)
      rw [signalled root mem]
      exact absent
    · intro present
      obtain ⟨node, mem, same⟩ := mem_map.mp present
      refine recorded.gone change old ?_
      rw [← same]
      exact hash_mem (subperm.subset mem)
  · intro change member
    rcases recorded.kept change member with pending | applied | ⟨last, finalized, apart⟩
    · obtain ⟨entry, found, rfl⟩ := mem_map.mp pending
      obtain ⟨node, mem, rfl⟩ := mem_map.mp found
      by_cases related : ancestry.Related node.hash hash
      · rcases survives node mem related with stays | fresh
        · exact .inl (mem_map_of_mem (mem_map_of_mem stays))
        · exact .inr (.inl (mem_append_left _ (mem_toList.mpr fresh)))
      · refine .inr (.inr ⟨hash, rfl, ?_⟩)
        rw [← signalled node mem] at related
        exact related
    · exact .inr (.inl (mem_append_right _ applied))
    · exact .inr (.inr ⟨hash, rfl, fun related =>
        apart (related.of_atOrBefore (chain last finalized))⟩)

end

/-- **The outcomes of `apply_standard_changes`.** -/
theorem apply_cases (E : Type) (recorded : Recorded ancestry self) (hash : H) :
    self.set.pendingStandardChanges.Reverts (ancestry.number hash) ∧
      self.enacted E ancestry hash = none ∧
      self.set.applyStandardChanges (query E ancestry) hash (ancestry.number hash) =
        (self.set, .error .revert) ∨
    (∃ root ∈ self.set.pendingStandardChanges.roots,
      root.data.effectiveNumber ≤ ancestry.number hash ∧ ancestry.AtOrBefore root.hash hash ∧
      self.enacted E ancestry hash = none ∧
      self.set.applyStandardChanges (query E ancestry) hash (ancestry.number hash) =
        (self.set, .error .unfinalizedAncestor)) ∨
    (∃ root ∈ self.set.pendingStandardChanges.roots,
      root.data.effectiveNumber ≤ ancestry.number hash ∧ ancestry.AtOrBefore root.hash hash ∧
      (∀ child ∈ root.children, ¬ ancestry.before child.hash hash) ∧
      self.enacted E ancestry hash = some root.data ∧ ∃ set status,
      self.set.applyStandardChanges (query E ancestry) hash (ancestry.number hash) =
        (set, .ok status) ∧
      set.pendingStandardChanges =
        ⟨root.children.filter (onBranch ancestry hash), some (ancestry.number hash)⟩ ∧
      set.setId = self.set.setId + 1 ∧ set.currentAuthorities = root.data.nextAuthorities ∧
      status.newSetBlock = some (hash, ancestry.number hash)) ∨
    (∀ root ∈ self.set.pendingStandardChanges.roots,
      root.data.effectiveNumber ≤ ancestry.number hash → ¬ ancestry.AtOrBefore root.hash hash) ∧
      self.enacted E ancestry hash = none ∧ ∃ set status,
      self.set.applyStandardChanges (query E ancestry) hash (ancestry.number hash) =
        (set, .ok status) ∧
      set.pendingStandardChanges =
        ⟨self.set.pendingStandardChanges.roots.filter (onBranch ancestry hash),
          some (ancestry.number hash)⟩ ∧
      set.setId = self.set.setId ∧ set.currentAuthorities = self.set.currentAuthorities ∧
      status.newSetBlock = none := by
  unfold applyStandardChanges enacted finalizeChanges
  by_cases reverts : self.set.pendingStandardChanges.Reverts (ancestry.number hash)
  · rw [Tree.finalizeWithDescendentIf, if_pos reverts]
    exact .inl ⟨reverts, rfl, rfl⟩
  · refine .inr ?_
    rcases Tree.finalizeWithDescendentIf_cases E
      (fun change : PendingChange H N A => decide (change.effectiveNumber ≤ ancestry.number hash))
      recorded.mirrors reverts with
      ⟨root, mem, passes, leads, _, result⟩ | ⟨root, mem, passes, leads, last, result⟩ |
      ⟨none_passes, outcome, ne, result⟩
    · rw [result]
      exact .inl ⟨root, mem, of_decide_eq_true passes, leads, rfl, rfl⟩
    · refine .inr (.inl ⟨root, mem, of_decide_eq_true passes, leads, last, ?_, ?_⟩)
      · rw [result]
      · rw [result]
        exact ⟨_, _, rfl, rfl, rfl, rfl, rfl⟩
    · refine .inr (.inr ⟨fun root mem low => none_passes root mem (decide_eq_true low), ?_, ?_⟩)
      · rw [result]
        cases outcome with
        | unchanged => rfl
        | changed data =>
          cases data with
          | none => rfl
          | some change => exact absurd rfl (ne change)
      · rw [result]
        cases outcome with
        | unchanged => exact ⟨_, _, rfl, rfl, rfl, rfl, rfl⟩
        | changed data =>
          cases data with
          | none => exact ⟨_, _, rfl, rfl, rfl, rfl, rfl⟩
          | some change => exact absurd rfl (ne change)

theorem apply (recorded : Recorded ancestry self)
    (chain : ∀ last ∈ self.finalized, ancestry.AtOrBefore last hash)
    (ran : self.step E ancestry (.applyStandardChanges hash) = .ok next) :
    Recorded ancestry next := by
  rw [step] at ran
  rcases recorded.apply_cases E hash with ⟨_, _, result⟩ | ⟨_, _, _, _, _, result⟩ |
    ⟨root, member, _, leads, last, enacted, set, status, result, tree, id, _⟩ |
    ⟨_, enacted, set, status, result, tree, id, _⟩
  · rw [result] at ran
    cases ran
    exact recorded
  · rw [result] at ran
    cases ran
    exact recorded
  · rw [result, enacted] at ran
    cases ran
    have mem := root_mem member
    refine recorded.finalize chain tree ?_ ?_ (fun change same => ?_) fun node found related => ?_
    · exact (filter_subperm _ _).trans (children_sublist mem).subperm
    · rw [id]
      exact Nat.add_comm _ _
    · cases same
      refine ⟨root, mem, rfl, leads, fun below => ?_⟩
      obtain ⟨node, kept, same⟩ := mem_map.mp below
      have before := recorded.mirrors.before_child mem ((filter_subperm _ _).subset kept)
      exact ancestry.irrefl _ (same ▸ before)
    · rcases recorded.mirrors.eq_or_below member leads found related with same | below
      · exact .inr (congrArg (fun node => some node.data) same.symm)
      · exact .inl ((recorded.mirrors.children mem).related_kept below related)
  · rw [result, enacted] at ran
    cases ran
    refine recorded.finalize chain tree (filter_subperm _ _) ?_ (fun change same => ?_) ?_
    · rw [id]
      exact (Nat.zero_add _).symm
    · cases same
    · exact fun node found related => .inl (recorded.mirrors.related_kept found related)

theorem step (recorded : Recorded ancestry self) {call : Call H N A}
    (consistent : self.Consistent ancestry call)
    (ran : self.step E ancestry call = .ok next) : Recorded ancestry next := by
  cases call with
  | addPendingChange change =>
    cases kind : change.delayKind with
    | finalized => exact recorded.addStandard kind consistent ran
    | best median => exact recorded.addForced kind ran
  | applyStandardChanges hash => exact recorded.apply consistent ran

omit [DecidableEq H] [Add N] in
theorem init (initial : A) : Recorded ancestry ⟨genesis initial, [], [], none⟩ := by
  refine ⟨⟨nodup_nil, fun node mem => absurd mem not_mem_nil,
    fun node mem => absurd mem not_mem_nil⟩,
    fun entry mem => absurd mem not_mem_nil, rfl, rfl, nodup_nil,
    fun change mem => absurd mem not_mem_nil,
    fun change mem => absurd mem not_mem_nil,
    fun change mem => absurd mem not_mem_nil⟩

end Recorded

/-- The authorities are those of the change that was applied last. -/
def Ruled (initial : A) (gadget : Gadget H N A) : Prop :=
  gadget.set.currentAuthorities =
    (gadget.applied.head?.map PendingChange.nextAuthorities).getD initial

theorem currentAuthorities_addPendingChange (set : AuthoritySet H N A)
    (isDescendentOf : H → H → Except E Bool) (change : PendingChange H N A) :
    (set.addPendingChange isDescendentOf change).1.currentAuthorities = set.currentAuthorities := by
  unfold addPendingChange
  split
  · unfold addForcedChange
    split <;> rfl
  · unfold addStandardChange
    split <;> rfl

theorem Ruled.step {ancestry : Ancestry H N} {initial : A} {self next : Gadget H N A}
    (ruled : Ruled initial self) {call : Call H N A} (ran : self.step E ancestry call = .ok next) :
    Ruled initial next := by
  cases call with
  | addPendingChange change =>
    have same := currentAuthorities_addPendingChange self.set (query E ancestry) change
    rw [Gadget.step] at ran
    rcases result : self.set.addPendingChange (query E ancestry) change with ⟨set, error | done⟩ <;>
      rw [result] at ran same <;> cases ran <;> exact same.trans ruled
  | applyStandardChanges hash =>
    rw [Gadget.step, applyStandardChanges, enacted] at ran
    rcases result : self.set.finalizeChanges (query E ancestry) hash (ancestry.number hash) with
      ⟨tree, error | ⟨_ | change⟩ | _⟩ <;> rw [result] at ran <;> cases ran
    · exact ruled
    · exact ruled
    · rfl
    · exact ruled

/-- The call that finalizes a block applies a standard change: it is pending, on the finalized
chain and effective, and the changes before it were applied. -/
structure Enacts (E : Type) (ancestry : Ancestry H N) (gadget : Gadget H N A) (hash : H)
    (set : AuthoritySet H N A) (change : PendingChange H N A) : Prop where
  recorded : gadget.enacted E ancestry hash = some change
  pending : change ∈ gadget.pending
  setId : set.setId = gadget.set.setId + 1
  authorities : set.currentAuthorities = change.nextAuthorities
  behind : ancestry.AtOrBefore change.canonHash hash
  effective : change.effectiveNumber ≤ ancestry.number hash
  earlier : ∀ earlier ∈ gadget.added, ancestry.before earlier.canonHash change.canonHash →
    earlier ∈ gadget.applied

/-- What holds of the standard changes in a state of a run. -/
structure Orderly (E : Type) (ancestry : Ancestry H N) (initial : A) (gadget : Gadget H N A) :
    Prop where
  setId : gadget.set.setId = gadget.applied.length
  ruled : Ruled initial gadget
  once : (gadget.applied.map PendingChange.canonHash).Nodup
  /-- `apply_standard_changes` applies a change in its order, or keeps the set. -/
  inOrder : ∀ hash, gadget.Consistent ancestry (.applyStandardChanges hash) → ∀ set status,
    gadget.set.applyStandardChanges (query E ancestry) hash (ancestry.number hash) =
      (set, .ok status) →
    (∃ change, Enacts E ancestry gadget hash set change ∧
      status.newSetBlock = some (hash, ancestry.number hash)) ∨
    gadget.enacted E ancestry hash = none ∧ set.setId = gadget.set.setId ∧
      set.currentAuthorities = gadget.set.currentAuthorities ∧ status.newSetBlock = none
  /-- A change is not applied past another one that is pending after it on the finalized chain. -/
  noSkip : ∀ hash, (∀ last ∈ gadget.finalized, ancestry.before last hash) →
    ∀ change ∈ gadget.pending, change.effectiveNumber ≤ ancestry.number hash →
    (∀ earlier ∈ gadget.pending, ¬ ancestry.before earlier.canonHash change.canonHash) →
    ∀ skipped ∈ gadget.pending, ancestry.before change.canonHash skipped.canonHash →
    ancestry.before skipped.canonHash hash →
    gadget.set.applyStandardChanges (query E ancestry) hash (ancestry.number hash) =
      (gadget.set, .error .unfinalizedAncestor)
  /-- A change on the branch of the finalized block is pending or applied. -/
  kept : ∀ change ∈ gadget.added,
    (∀ last ∈ gadget.finalized, ancestry.Related change.canonHash last) →
    change ∈ gadget.pending ∨ change ∈ gadget.applied

namespace Recorded

variable {ancestry : Ancestry H N} {self : Gadget H N A}

variable {change : PendingChange H N A} {hash : H}

section

variable (recorded : Recorded ancestry self)

include recorded

section

omit [DecidableEq H] [Add N]

theorem node_of_pending (pending : change ∈ self.pending) :
    ∃ node ∈ nodesOf self.set.pendingStandardChanges.roots,
      node.data = change ∧ node.hash = change.canonHash := by
  obtain ⟨entry, found, rfl⟩ := mem_map.mp pending
  obtain ⟨node, mem, rfl⟩ := mem_map.mp found
  exact ⟨node, mem, rfl, (recorded.signalled _ found).symm⟩

theorem root_of_first {node : Node H N (PendingChange H N A)}
    (member : node ∈ nodesOf self.set.pendingStandardChanges.roots)
    (first : ∀ earlier ∈ self.pending, ¬ ancestry.before earlier.canonHash node.hash) :
    node ∈ self.set.pendingStandardChanges.roots := by
  obtain ⟨root, found, mem⟩ := exists_root_of_mem member
  rcases recorded.mirrors.root_atOrBefore found mem with same | before
  · rw [← recorded.mirrors.unique (root_mem found) member same]
    exact found
  · have entry : root.entry ∈ entriesOf self.set.pendingStandardChanges.roots :=
      mem_map_of_mem (root_mem found)
    have pending : root.data ∈ self.pending := mem_map_of_mem entry
    have signalled : root.data.canonHash = root.hash := recorded.signalled _ entry
    rw [← signalled] at before
    exact absurd before (first _ pending)

end

theorem inOrder (chain : ∀ last ∈ self.finalized, ancestry.AtOrBefore last hash)
    {set : AuthoritySet H N A} {status : Status H N}
    (returns : self.set.applyStandardChanges (query E ancestry) hash (ancestry.number hash) =
      (set, .ok status)) :
    (∃ change, Enacts E ancestry self hash set change ∧
      status.newSetBlock = some (hash, ancestry.number hash)) ∨
    self.enacted E ancestry hash = none ∧ set.setId = self.set.setId ∧
      set.currentAuthorities = self.set.currentAuthorities ∧ status.newSetBlock = none := by
  rcases recorded.apply_cases E hash with ⟨_, _, result⟩ | ⟨_, _, _, _, _, result⟩ |
    ⟨root, member, effective, leads, _, found, _, _, result, _, id, authorities, block⟩ |
    ⟨_, nothing, _, _, result, _, id, authorities, block⟩ <;> cases result.symm.trans returns
  · have mem := root_mem member
    have entry : root.entry ∈ entriesOf self.set.pendingStandardChanges.roots :=
      mem_map_of_mem mem
    have signalled : root.data.canonHash = root.hash := recorded.signalled _ entry
    refine .inl ⟨root.data, ⟨found, mem_map_of_mem entry, id, authorities, ?_, effective,
      fun earlier added before => ?_⟩, block⟩
    · rw [signalled]
      exact leads
    rw [signalled] at before
    rcases recorded.kept earlier added with pending | applied | ⟨last, finalized, apart⟩
    · -- the applied change is a root, so that no pending change is before it
      obtain ⟨node, found, _, same⟩ := recorded.node_of_pending pending
      rw [← same] at before
      obtain ⟨other, listed, in_tree⟩ := exists_root_of_mem found
      have above := recorded.mirrors.root_atOrBefore listed in_tree
      have one : other = root := recorded.mirrors.root_unique listed member
        (.inr (.inl (above.before_of_before before)))
      rw [one] at above
      exact absurd (above.before_of_before before) (ancestry.irrefl _)
    · exact applied
    · refine absurd ?_ apart
      have to_hash : ancestry.AtOrBefore earlier.canonHash hash :=
        .inr (Ancestry.AtOrBefore.before_of_before' before leads)
      exact to_hash.related (chain last finalized)
  · exact .inr ⟨nothing, id, authorities, block⟩

theorem noSkip (after : ∀ last ∈ self.finalized, ancestry.before last hash)
    (pending : change ∈ self.pending) (effective : change.effectiveNumber ≤ ancestry.number hash)
    (first : ∀ earlier ∈ self.pending, ¬ ancestry.before earlier.canonHash change.canonHash)
    {skipped : PendingChange H N A} (waiting : skipped ∈ self.pending)
    (later : ancestry.before change.canonHash skipped.canonHash)
    (passed : ancestry.before skipped.canonHash hash) :
    self.set.applyStandardChanges (query E ancestry) hash (ancestry.number hash) =
      (self.set, .error .unfinalizedAncestor) := by
  obtain ⟨node, mem, rfl, same⟩ := recorded.node_of_pending pending
  obtain ⟨below, found, rfl, below_same⟩ := recorded.node_of_pending waiting
  rw [← same] at first later
  rw [← below_same] at later passed
  have member := recorded.root_of_first mem first
  have leads : ancestry.AtOrBefore node.hash hash := .inr (ancestry.trans later passed)
  rcases recorded.apply_cases E hash with ⟨reverts, _⟩ | ⟨_, _, _, _, _, result⟩ |
    ⟨root, listed, _, root_leads, last, _⟩ | ⟨nothing, _⟩
  · exact absurd reverts (recorded.not_reverts after)
  · exact result
  · -- the change that is skipped is below a child of the root
    have one : root = node :=
      recorded.mirrors.root_unique listed member (root_leads.related leads)
    subst one
    obtain ⟨child, is_child, in_tree⟩ :=
      exists_root_of_mem ((recorded.mirrors.mem_children_iff mem).mpr ⟨found, later⟩)
    have above := (recorded.mirrors.children mem).root_atOrBefore is_child in_tree
    exact absurd (above.before_of_before passed) (last child is_child)
  · exact absurd leads (nothing node member effective)

end

end Recorded

/-- **Standard changes are enacted in order and at most once**, in every run along one finalized
chain. -/
theorem standardChanges_orderly (E : Type) (ancestry : Ancestry H N) (initial : A)
    {gadget : Gadget H N A} (reached : Reachable (step E ancestry) (Consistent ancestry)
      ⟨genesis initial, [], [], none⟩ gadget) :
    Orderly E ancestry initial gadget := by
  have recorded : Recorded ancestry gadget :=
    reached.invariant (Recorded.init initial) fun _ _ _ recorded consistent ran =>
      recorded.step consistent ran
  have ruled : Ruled initial gadget :=
    reached.invariant (show Ruled initial ⟨genesis initial, [], [], none⟩ from rfl)
      fun _ _ _ ruled _ ran => ruled.step ran
  refine ⟨recorded.setId, ruled, recorded.once,
    fun hash chain set status returns => recorded.inOrder chain returns,
    fun hash after change pending effective first skipped waiting later passed =>
      recorded.noSkip after pending effective first waiting later passed,
    fun change added related => ?_⟩
  rcases recorded.kept change added with pending | applied | ⟨last, finalized, apart⟩
  · exact .inl pending
  · exact .inr applied
  · exact absurd (related last finalized) apart

/-- A run that applies two changes of a branch and drops one of a fork. -/
theorem standardChanges_orderly_fork : ∃ gadget : Gadget (List Nat) Nat Nat,
    Reachable (step Empty .paths) (Consistent .paths) ⟨genesis 0, [], [], none⟩ gadget ∧
      (gadget.set.setId = 2 ∧ gadget.pending = []) ∧ Orderly Empty .paths 0 gadget := by
  refine exists_reachable_of_found
    [.addPendingChange ⟨1, 1, 1, [0], .finalized⟩, .addPendingChange ⟨2, 1, 1, [1], .finalized⟩,
      .addPendingChange ⟨3, 1, 3, [0, 0, 0], .finalized⟩, .applyStandardChanges [0, 0],
      .applyStandardChanges [0, 0, 0, 0]]
    (fun gadget => gadget.set.setId = 2 ∧ gadget.pending = []) (by decide +kernel)
    fun gadget reached state => ?_
  exact ⟨state, standardChanges_orderly Empty .paths 0 reached⟩

end Gadget

end Brace.Grandpa
