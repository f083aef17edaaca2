import Brace.ForkTree.Mirror
import Brace.Lib.Run

/-!
# Runs of the fork tree

Every operation keeps the mirror: a finalization keeps whole subtrees, and an import in order puts
one block below its ancestors.
-/

namespace Brace.ForkTree

open Brace.Lib List

variable {H N V E : Type}

theorem filter_subperm (forest : List (Node H N V)) (test : Node H N V → Bool) :
    nodesOf (forest.filter test) <+~ nodesOf forest :=
  (nodesOf_sublist filter_sublist).subperm

section

variable (kept : List (Node H N V)) (root : Node H N V) (rest : List (Node H N V))

include kept root rest

theorem removed_subperm :
    nodesOf (kept ++ swapRemoved rest) <+~ nodesOf (kept ++ root :: rest) := by
  rw [nodesOf_append, nodesOf_append, subperm_append_left]
  exact (nodesOf_perm (swapRemoved_perm rest)).subperm.trans
    (nodesOf_sublist (sublist_cons_self root rest)).subperm

theorem opened_subperm :
    nodesOf (kept ++ (swapRemoved rest ++ root.children)) <+~ nodesOf (kept ++ root :: rest) := by
  rw [nodesOf_append, nodesOf_append kept, subperm_append_left, nodesOf_append, nodesOf_cons]
  have perm : nodesOf (swapRemoved rest) ++ nodesOf root.children ~
      nodesOf root.children ++ nodesOf rest :=
    ((nodesOf_perm (swapRemoved_perm rest)).append_right _).trans perm_append_comm
  exact perm.subperm.trans (sublist_cons_self _ _).subperm

end

theorem Tree.finalizeRoot_subperm [DecidableEq H] (self : Tree H N V) (hash : H) :
    nodesOf (self.finalizeRoot hash).1.roots <+~ nodesOf self.roots := by
  unfold finalizeRoot
  cases found : self.roots.find? (·.hash = hash) with
  | none => exact .refl _
  | some node => exact (children_sublist (root_mem (mem_of_find?_eq_some found))).subperm

section

variable [DecidableEq H] [LinearOrder N] {ancestry : Ancestry H N} {self : Tree H N V} {hash : H}
  {number : N} {isDescendentOf : H → H → Except E Bool}

namespace Tree

theorem finalize_subperm :
    nodesOf (self.finalize isDescendentOf hash number).1.roots <+~ nodesOf self.roots := by
  have root := self.finalizeRoot_subperm hash
  unfold finalize
  split
  · exact .refl _
  · split
    · rename_i finalized
      rw [finalized] at root
      exact root
    · rename_i same
      rw [same] at root
      split
      · exact root
      · exact root
      · exact (filter_subperm _ _).trans root

theorem openAncestors_subperm (kept : List (Node H N V)) (changed : Bool)
    (roots : List (Node H N V)) :
    nodesOf (openAncestors isDescendentOf hash number kept changed roots).1.roots <+~
      nodesOf (kept ++ roots) := by
  fun_induction openAncestors isDescendentOf hash number kept changed roots with
  | case1 kept changed =>
    rw [append_nil]
  | case2 kept changed root rest same =>
    have mem : root ∈ nodesOf (kept ++ root :: rest) :=
      root_mem (mem_append_right _ mem_cons_self)
    exact (children_sublist mem).subperm
  | case3 kept changed root rest differ descendent ih =>
    rwa [append_assoc] at ih
  | case4 kept changed root rest differ apart ancestor ih =>
    exact ih.trans (opened_subperm kept root rest)
  | case5 kept changed root rest differ apart other ih =>
    exact ih.trans (removed_subperm kept root rest)

theorem finalizeWithAncestors_subperm :
    nodesOf (self.finalizeWithAncestors isDescendentOf hash number).1.roots <+~
      nodesOf self.roots := by
  have root := self.finalizeRoot_subperm hash
  unfold finalizeWithAncestors
  split
  · exact .refl _
  · split
    · rename_i finalized
      rw [finalized] at root
      exact root
    · rename_i same
      rw [same] at root
      exact (openAncestors_subperm [] false _).trans root

variable {predicate : V → Bool}

theorem mem_of_selectRoot {roots : List (Node H N V)} {node : Node H N V}
    (selected : selectRoot isDescendentOf hash number predicate roots = .ok (some node)) :
    node ∈ roots := by
  fun_induction selectRoot isDescendentOf hash number predicate roots with
  | case1 | case2 | case4 | case5 => cases selected
  | case3 root rest _ _ ih | case7 root rest _ ih => exact mem_cons_of_mem _ (ih selected)
  | case6 root rest _ _ _ =>
    cases selected
    exact mem_cons_self

theorem finalizeWithDescendentIf_subperm :
    nodesOf (self.finalizeWithDescendentIf isDescendentOf hash number predicate).1.roots <+~
      nodesOf self.roots := by
  unfold finalizeWithDescendentIf
  split
  · exact .refl _
  · split
    · exact .refl _
    · rename_i position selected
      cases position with
      | none => exact filter_subperm _ _
      | some node =>
        have mem := root_mem (mem_of_selectRoot selected)
        exact (filter_subperm _ _).trans (children_sublist mem).subperm

/-- **The outcomes of `import`** on a mirror. -/
theorem importBlock_cases (E : Type) (mirrors : Mirrors ancestry self.roots) (hash : H) (data : V) :
    self.Reverts (ancestry.number hash) ∧
      self.importBlock (query E ancestry) hash (ancestry.number hash) data =
        (self, .error .revert) ∨
    ¬ self.Reverts (ancestry.number hash) ∧ hash ∈ hashesOf self.roots ∧
      self.importBlock (query E ancestry) hash (ancestry.number hash) data =
        (self, .error .duplicate) ∨
    ¬ self.Reverts (ancestry.number hash) ∧ hash ∉ hashesOf self.roots ∧ ∃ roots isRoot,
      self.importBlock (query E ancestry) hash (ancestry.number hash) data =
        ({ self with roots }, .ok isRoot) ∧
      entriesOf roots ~ (hash, ancestry.number hash, data) :: entriesOf self.roots ∧
      ((∀ other ∈ hashesOf self.roots, ¬ ancestry.before hash other) →
        Mirrors ancestry roots) := by
  unfold importBlock
  by_cases reverts : self.Reverts (ancestry.number hash)
  · rw [if_pos reverts]
    exact .inl ⟨reverts, rfl⟩
  · rw [if_neg reverts]
    by_cases present : hash ∈ hashesOf self.roots
    · rw [importAmong_present E mirrors present]
      exact .inr (.inl ⟨reverts, present, rfl⟩)
    · refine .inr (.inr ⟨reverts, present, ?_⟩)
      rcases importAmong_new E data mirrors present with
        ⟨apart, unchanged⟩ | ⟨_, after, inserted, grown⟩
      · rw [unchanged]
        have pushed : Grown ancestry ⟨hash, ancestry.number hash, data, []⟩ self.roots
            (self.roots ++ [⟨hash, ancestry.number hash, data, []⟩]) := Grown.push rfl apart
        exact ⟨_, true, rfl, (entriesOf_rebalance _).trans pushed.entries,
          fun last => (mirrors.grown present last pushed).rebalance⟩
      · rw [inserted]
        exact ⟨after, false, rfl, grown.entries, fun last => mirrors.grown present last grown⟩

end Tree

/-! ## Runs -/

/-- An operation on the fork tree, with the hash of its block. -/
inductive Op (H V : Type) where
  | importBlock (hash : H) (data : V)
  | finalize (hash : H)
  | finalizeRoot (hash : H)
  | finalizeWithAncestors (hash : H)
  | finalizeWithDescendentIf (hash : H) (predicate : V → Bool)

namespace Tree

def step (E : Type) (ancestry : Ancestry H N) (self : Tree H N V) :
    Op H V → Except Empty (Tree H N V)
  | .importBlock hash data =>
    .ok (self.importBlock (query E ancestry) hash (ancestry.number hash) data).1
  | .finalize hash => .ok (self.finalize (query E ancestry) hash (ancestry.number hash)).1
  | .finalizeRoot hash => .ok (self.finalizeRoot hash).1
  | .finalizeWithAncestors hash =>
    .ok (self.finalizeWithAncestors (query E ancestry) hash (ancestry.number hash)).1
  | .finalizeWithDescendentIf hash predicate =>
    .ok (self.finalizeWithDescendentIf (query E ancestry) hash (ancestry.number hash) predicate).1

/-- The blocks of a branch are imported in order: a block that is not in the tree comes before its
descendants. -/
def InOrder (ancestry : Ancestry H N) (self : Tree H N V) : Op H V → Prop
  | .importBlock hash _ => hash ∈ hashesOf self.roots ∨
      ∀ other ∈ hashesOf self.roots, ¬ ancestry.before hash other
  | _ => True

instance (self : Tree H N V) (op : Op H V) : Decidable (InOrder ancestry self op) :=
  match op with
  | .importBlock _ _ => inferInstanceAs (Decidable (_ ∨ ∀ other ∈ hashesOf self.roots, ¬ _))
  | .finalize _ | .finalizeRoot _ | .finalizeWithAncestors _
  | .finalizeWithDescendentIf _ _ => isTrue trivial

/-- The second block is below the first in the tree. -/
def Below (self : Tree H N V) (base target : H) : Prop :=
  ∃ node ∈ nodesOf self.roots, node.hash = base ∧ target ∈ hashesOf node.children

/-- The tree is faithful to the ancestry, and says so when a block is imported again. -/
structure Faithful (E : Type) (ancestry : Ancestry H N) (self : Tree H N V) : Prop where
  distinct : (hashesOf self.roots).Nodup
  below_iff : ∀ base ∈ hashesOf self.roots, ∀ target ∈ hashesOf self.roots,
    self.Below base target ↔ ancestry.before base target
  roots_unrelated : self.roots.Pairwise fun left right => ¬ ancestry.Related left.hash right.hash
  import_again : ∀ hash ∈ hashesOf self.roots, ∀ data,
    self.importBlock (query E ancestry) hash (ancestry.number hash) data =
      (self, .error (if self.Reverts (ancestry.number hash) then .revert else .duplicate))

theorem faithful_of_mirrors (E : Type) (mirrors : Mirrors ancestry self.roots) :
    Faithful E ancestry self := by
  refine ⟨mirrors.distinct, fun base first target second => ⟨?_, fun before => ?_⟩,
    mirrors.roots_unrelated, fun hash present data => ?_⟩
  · rintro ⟨node, mem, rfl, below⟩
    exact (mirrors.below_iff node mem target second).mp below
  · obtain ⟨node, mem, rfl⟩ := mem_map.mp first
    exact ⟨node, mem, rfl, (mirrors.below_iff node mem target second).mpr before⟩
  · rcases importBlock_cases E mirrors hash data with
      ⟨reverts, ran⟩ | ⟨fresh, _, ran⟩ | ⟨_, absent, _⟩
    · rw [ran, if_pos reverts]
    · rw [ran, if_neg fresh]
    · exact absurd present absent

theorem step_mirrors {next : Tree H N V} {op : Op H V} (mirrors : Mirrors ancestry self.roots)
    (inOrder : InOrder ancestry self op) (ran : step E ancestry self op = .ok next) :
    Mirrors ancestry next.roots := by
  cases op with
  | importBlock hash data =>
    cases ran
    rcases importBlock_cases E mirrors hash data with
      ⟨_, result⟩ | ⟨_, _, result⟩ | ⟨_, absent, roots, _, result, _, after⟩
    · rw [result]
      exact mirrors
    · rw [result]
      exact mirrors
    · rw [result]
      exact after (inOrder.resolve_left absent)
  | finalize hash =>
    cases ran
    exact mirrors.of_subperm finalize_subperm
  | finalizeRoot hash =>
    cases ran
    exact mirrors.of_subperm (self.finalizeRoot_subperm hash)
  | finalizeWithAncestors hash =>
    cases ran
    exact mirrors.of_subperm finalizeWithAncestors_subperm
  | finalizeWithDescendentIf hash predicate =>
    cases ran
    exact mirrors.of_subperm finalizeWithDescendentIf_subperm

/-- **Every tree that is reached by imports in order and by finalizations is faithful to the
ancestry.** -/
theorem reachable_faithful (E : Type) (ancestry : Ancestry H N) {tree : Tree H N V}
    (reached : Reachable (step E ancestry) (InOrder ancestry) new tree) :
    Faithful E ancestry tree := by
  have empty : Mirrors ancestry (new : Tree H N V).roots :=
    ⟨nodup_nil, fun node mem => absurd mem not_mem_nil,
      fun node mem => absurd mem not_mem_nil⟩
  let inv := fun tree : Tree H N V => Mirrors ancestry tree.roots
  have kept : inv tree :=
    reached.invariant empty fun _ _ _ mirrors inOrder ran =>
      step_mirrors mirrors inOrder ran
  exact faithful_of_mirrors E kept

end Tree

end

namespace Tree

/-- A run with two branches, one of which is finalized. -/
theorem reachable_faithful_fork : ∃ tree : Tree (List Nat) Nat Bool,
    Reachable (step Empty .paths) (InOrder .paths) new tree ∧
      hashesOf tree.roots = [[0, 0, 1], [0, 0, 0]] ∧ Faithful Empty .paths tree := by
  refine exists_reachable_of_found
    [.importBlock [0] true, .importBlock [1] true, .importBlock [0, 0] true,
      .importBlock [0, 0, 1] true, .importBlock [0, 0, 0] true, .finalizeWithDescendentIf [0] id,
      .finalizeRoot [0, 0]]
    (fun tree => hashesOf tree.roots = [[0, 0, 1], [0, 0, 0]]) (by decide +kernel)
    fun tree reached hashes => ?_
  exact ⟨hashes, reachable_faithful Empty .paths reached⟩

/-- A root that stays below the finalized number is not imported again as a duplicate. -/
theorem import_again_reverts : ∃ tree : Tree (List Nat) Nat Bool,
    Reachable (step Empty .paths) (InOrder .paths) new tree ∧ [0] ∈ hashesOf tree.roots ∧
      (tree.importBlock (query Empty .paths) [0] 1 false).2 = .error .revert := by
  refine exists_reachable_of_found [.importBlock [0] false, .finalizeWithDescendentIf [0, 0] id]
    (fun tree => [0] ∈ hashesOf tree.roots ∧ tree.Reverts 1) (by decide +kernel)
    fun tree _ found => ⟨found.1, ?_⟩
  rw [importBlock, if_pos found.2]

end Tree

end Brace.ForkTree
