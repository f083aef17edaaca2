import Brace.Grandpa.AuthoritySet
import Brace.ForkTree.FinalizeIf

/-!
# When pending changes are enacted

The check whether a finalized block enacts a standard change looks at all pending changes, while
applying the changes looks only at the roots of the tree. On a mirror of the ancestry the two agree.
-/

namespace Brace.Grandpa

open Brace.Lib Brace.ForkTree List

variable {H N A : Type} [DecidableEq H] [LinearOrder N] {ancestry : Ancestry H N} {hash : H}

theorem find_root {V : Type} (predicate : V → Bool) {forest : List (Node H N V)}
    (mirrors : Mirrors ancestry forest) {root : Node H N V} (member : root ∈ forest)
    (passes : predicate root.data) (leads : ancestry.AtOrBefore root.hash hash) :
    (nodesOf forest).find? (fun node => predicate node.data && leadsTo ancestry hash node) =
      some root := by
  obtain ⟨left, right, rfl⟩ := append_of_mem member
  have before : (nodesOf left).find? (fun node =>
      predicate node.data && leadsTo ancestry hash node) = none := by
    rw [List.find?_eq_none]
    intro node mem good
    have also := leadsTo_iff.mp (Bool.and_eq_true_iff.mp good).2
    exact mirrors.apart mem (root_mem mem_cons_self) (also.related leads)
  rw [nodesOf_append, List.find?_append, before, Option.none_or, nodesOf_cons]
  exact List.find?_cons_of_pos (Bool.and_eq_true_iff.mpr ⟨passes, leadsTo_iff.mpr leads⟩)

theorem finalizesAny_eq (E : Type) {V : Type} {tree : Tree H N V} {number : N}
    (above : ¬ tree.Reverts number) (hash : H) (predicate : V → Bool) :
    tree.finalizesAnyWithDescendentIf (query E ancestry) hash number predicate =
      match tree.nodeIter.find? fun node => predicate node.data && leadsTo ancestry hash node with
      | none => .ok none
      | some node =>
        if node.children.any fun child => decide (child.number ≤ number) &&
            ancestry.before child.hash hash then .error .unfinalizedAncestor
        else .ok (some (tree.roots.any fun root => decide (root.hash = node.hash))) := by
  rw [Tree.finalizesAnyWithDescendentIf, if_neg above, Tree.selectRoot_query]
  cases tree.nodeIter.find? fun node => predicate node.data && leadsTo ancestry hash node with
  | none => rfl
  | some node =>
    dsimp only
    cases node.children.any fun child => decide (child.number ≤ number) &&
      ancestry.before child.hash hash <;> rfl

variable [Add N] {self : AuthoritySet H N A}

/-- **The check for a standard change and its application agree**: a change that can be applied is
applied; when the check says that it cannot be applied yet, the authorities stay, or the root that
is enacted took effect at an earlier block. -/
theorem enactsStandardChange_agrees (E : Type)
    (mirrors : Mirrors ancestry self.pendingStandardChanges.roots) (hash : H) :
    let number := ancestry.number hash
    let enacts := self.enactsStandardChange (query E ancestry) hash number
    (enacts = .ok (some true) → ∃ root ∈ self.pendingStandardChanges.roots,
      root.data.effectiveNumber = number ∧ ancestry.AtOrBefore root.hash hash ∧
      ∃ tree, self.applyStandardChanges (query E ancestry) hash number =
        (⟨root.data.nextAuthorities, self.setId + 1, tree, []⟩,
          .ok ⟨true, some (hash, number)⟩)) ∧
    (enacts = .error .unfinalizedAncestor ∨ enacts = .ok (some false) →
      let applied := self.applyStandardChanges (query E ancestry) hash number
      (applied.1.setId = self.setId ∧ applied.1.currentAuthorities = self.currentAuthorities) ∨
      ∃ root ∈ self.pendingStandardChanges.roots,
        root.data.effectiveNumber < number ∧ ancestry.AtOrBefore root.hash hash ∧
        ∃ tree, applied = (⟨root.data.nextAuthorities, self.setId + 1, tree, []⟩,
          .ok ⟨true, some (hash, number)⟩)) := by
  intro number enacts
  by_cases reverts : self.pendingStandardChanges.Reverts number
  · have refused : enacts = .error .revert := if_pos reverts
    rw [refused]
    exact ⟨nofun, fun either => by rcases either with refused | refused <;> cases refused⟩
  · have answer : enacts = _ := finalizesAny_eq E reverts hash _
    have outcomes := Tree.finalizeWithDescendentIf_cases E
      (fun change : PendingChange H N A => decide (change.effectiveNumber ≤ number)) mirrors reverts
    refine ⟨fun enacted => ?_, fun either => ?_⟩
    · -- the node that is found is a root, and no other root leads to the block
      rw [answer] at enacted
      split at enacted
      · cases enacted
      rename_i node found
      split at enacted
      · cases enacted
      rename_i no_child
      obtain ⟨root, member, same⟩ := any_eq_true.mp (Option.some.inj (Except.ok.inj enacted))
      have listed : node ∈ nodesOf self.pendingStandardChanges.roots :=
        (nodesOf_perm (reverse_perm _)).subset (mem_of_find?_eq_some found)
      obtain rfl := mirrors.unique (root_mem member) listed (of_decide_eq_true same)
      have good := List.find?_some found
      rw [Bool.and_eq_true, leadsTo_iff, decide_eq_true_eq] at good
      obtain ⟨effective, leads⟩ := good
      refine ⟨root, member, effective, leads, ?_⟩
      rw [mirrors.any_child_iff listed] at no_child
      rcases outcomes with ⟨other, there, _, also, lower, _⟩ | ⟨other, there, _, also, _, ran⟩ |
        ⟨none_passes, _⟩
      · rw [mirrors.root_unique there member (also.related leads)] at lower
        exact absurd lower no_child
      · rw [mirrors.root_unique there member (also.related leads)] at ran
        rw [AuthoritySet.applyStandardChanges, AuthoritySet.finalizeChanges, ran]
        exact ⟨_, rfl⟩
      · exact absurd leads (none_passes root member (decide_eq_true effective.le))
    · rw [AuthoritySet.applyStandardChanges, AuthoritySet.finalizeChanges]
      rcases outcomes with ⟨_, _, _, _, _, ran⟩ | ⟨root, member, passes, leads, no_child, ran⟩ |
        ⟨_, outcome, other, ran⟩
      · rw [ran]
        exact .inl ⟨rfl, rfl⟩
      · rw [ran]
        refine .inr ⟨root, member, lt_of_le_of_ne (of_decide_eq_true passes) fun effective => ?_,
          leads, _, rfl⟩
        have reversed : Mirrors ancestry self.pendingStandardChanges.roots.reverse :=
          mirrors.of_subperm (nodesOf_perm (reverse_perm _)).subperm
        have found := find_root (fun change => decide (change.effectiveNumber = number)) reversed
          (mem_reverse.mpr member) (decide_eq_true effective) leads
        rw [answer, Tree.nodeIter, found] at either
        dsimp only at either
        rw [if_neg (mt (mirrors.any_child_iff (root_mem member)).mp
          fun ⟨child, mem, before⟩ => no_child child mem before)] at either
        have is_root : (self.pendingStandardChanges.roots.any fun other =>
            decide (other.hash = root.hash)) = true :=
          any_eq_true.mpr ⟨root, member, decide_eq_true rfl⟩
        rw [is_root] at either
        rcases either with refused | refused <;> cases refused
      · rw [ran]
        cases outcome with
        | unchanged => exact .inl ⟨rfl, rfl⟩
        | changed change =>
          cases change with
          | none => exact .inl ⟨rfl, rfl⟩
          | some change => exact absurd rfl (other change)

/-- A root whose change takes effect at the finalized block. -/
theorem enactsStandardChange_agrees_root : let set : AuthoritySet (List Nat) Nat Nat :=
      ⟨0, 0, ⟨[⟨[0], 1, ⟨7, 1, 1, [0], .finalized⟩, []⟩], none⟩, []⟩
    set.enactsStandardChange (query Empty .paths) [0, 0] 2 = .ok (some true) ∧
      ∃ tree, set.applyStandardChanges (query Empty .paths) [0, 0] 2 =
        (⟨7, 1, tree, []⟩, .ok ⟨true, some ([0, 0], 2)⟩) := by
  intro set
  have mirrors : Mirrors .paths set.pendingStandardChanges.roots :=
    ⟨by decide, by decide, by decide⟩
  have enacts : set.enactsStandardChange (query Empty .paths) [0, 0] 2 = .ok (some true) := rfl
  obtain ⟨root, mem, _, _, tree, applied⟩ :=
    (enactsStandardChange_agrees Empty mirrors [0, 0]).1 enacts
  obtain rfl := mem_singleton.mp mem
  exact ⟨enacts, tree, applied⟩

end Brace.Grandpa
