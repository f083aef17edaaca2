import Brace.ForkTree.MirrorRun

/-!
# What `finalize_with_descendent_if` keeps

In a mirror at most one root is the finalized block or an ancestor of it. The finalization opens
that root when it passes the predicate and no child of it is an ancestor of the finalized block.
Then it keeps the trees whose roots are on one branch with the finalized block, and with them every
node on one branch with it.
-/

namespace Brace.ForkTree

open Brace.Lib List

variable {H N V E : Type}

variable {node : Node H N V} {forest : List (Node H N V)}

theorem exists_root_of_mem
    (member : node ∈ nodesOf forest) : ∃ root ∈ forest, node ∈ nodesOf [root] := by
  induction forest with
  | nil => cases member
  | cons first rest ih =>
    have split : node ∈ nodesOf ([first] ++ rest) := member
    rw [nodesOf_append, mem_append] at split
    rcases split with mem | later
    · exact ⟨first, mem_cons_self, mem⟩
    · obtain ⟨root, found, mem⟩ := ih later
      exact ⟨root, mem_cons_of_mem _ found, mem⟩

theorem tree_subset {root : Node H N V} (member : root ∈ forest)
    (mem : node ∈ nodesOf [root]) : node ∈ nodesOf forest := by
  rw [nodesOf_singleton] at mem
  rcases mem_cons.mp mem with rfl | below
  · exact root_mem member
  · exact (children_sublist (root_mem member)).subset below

section

variable [LinearOrder N] {ancestry : Ancestry H N} {forest : List (Node H N V)} {hash : H}

namespace Mirrors

variable {root node : Node H N V}

section

variable (mirrors : Mirrors ancestry forest)

include mirrors

theorem root_atOrBefore (member : root ∈ forest) (mem : node ∈ nodesOf [root]) :
    ancestry.AtOrBefore root.hash node.hash := by
  rw [nodesOf_singleton] at mem
  rcases mem_cons.mp mem with rfl | below
  · exact .inl rfl
  · exact .inr (mirrors.before_child (root_mem member) below)

theorem root_related (member : root ∈ forest) (mem : node ∈ nodesOf [root])
    (related : ancestry.Related node.hash hash) : ancestry.Related root.hash hash := by
  have above := mirrors.root_atOrBefore member mem
  rcases related with same | before | after
  · exact above.related (.inl same.symm)
  · exact .inr (.inl (above.before_of_before before))
  · exact above.related (.inr after)

theorem root_unique {left right : Node H N V} (first : left ∈ forest) (second : right ∈ forest)
    (related : ancestry.Related left.hash right.hash) : left = right := by
  by_contra differ
  have symmetric : Std.Symm fun left right : Node H N V =>
      ¬ ancestry.Related left.hash right.hash := ⟨fun _ _ apart back => apart back.symm⟩
  exact mirrors.roots_unrelated.forall first second differ related

theorem any_child_iff (member : node ∈ nodesOf forest) : (node.children.any fun child =>
    decide (child.number ≤ ancestry.number hash) && ancestry.before child.hash hash) = true ↔
      ∃ child ∈ node.children, ancestry.before child.hash hash := by
  rw [any_eq_true]
  refine exists_congr fun child => and_congr_right fun mem => ?_
  have there := (children_sublist member).subset (root_mem mem)
  rw [Bool.and_eq_true, decide_eq_true_eq, mirrors.numbers child there]
  exact and_iff_right_of_imp fun before => le_of_lt (ancestry.number_lt before)

theorem eq_or_below (member : root ∈ forest) (leads : ancestry.AtOrBefore root.hash hash)
    (mem : node ∈ nodesOf forest) (related : ancestry.Related node.hash hash) :
    node = root ∨ node ∈ nodesOf root.children := by
  obtain ⟨other, found, in_tree⟩ := exists_root_of_mem mem
  have other_related := mirrors.root_related found in_tree related
  have one_branch : ancestry.Related other.hash root.hash := by
    rcases other_related with same | before | after
    · exact .symm (leads.related (.inl same))
    · exact .symm (leads.related (.inr before))
    · exact .inr (.inr (leads.before_of_before after))
  rw [mirrors.root_unique found member one_branch, nodesOf_singleton] at in_tree
  exact mem_cons.mp in_tree

end

end Mirrors

theorem anyAncestor_query (test : Node H N V → Bool) (nodes : List (Node H N V)) :
    anyAncestor (query E ancestry) hash test nodes =
      .ok (nodes.any fun node => test node && ancestry.before node.hash hash) := by
  induction nodes with
  | nil => rfl
  | cons node rest ih =>
    rw [anyAncestor, any_cons, ih, query]
    cases test node <;> cases ancestry.before node.hash hash <;> rfl

variable [DecidableEq H]

/-- Whether a node is the block or an ancestor of it. -/
def leadsTo (ancestry : Ancestry H N) (hash : H) (node : Node H N V) : Bool :=
  decide (node.hash = hash) || ancestry.before node.hash hash

/-- Whether a node is on one branch with the block. -/
def onBranch (ancestry : Ancestry H N) (hash : H) (node : Node H N V) : Bool :=
  leadsTo ancestry hash node || ancestry.before hash node.hash

variable {node : Node H N V}

theorem leadsTo_iff : leadsTo ancestry hash node ↔ ancestry.AtOrBefore node.hash hash := by
  simp only [leadsTo, Ancestry.AtOrBefore, Bool.or_eq_true, decide_eq_true_eq]

theorem onBranch_iff : onBranch ancestry hash node ↔ ancestry.Related node.hash hash := by
  simp only [onBranch, leadsTo, Ancestry.Related, Bool.or_eq_true, decide_eq_true_eq, or_assoc]

theorem Mirrors.related_kept (mirrors : Mirrors ancestry forest)
    (member : node ∈ nodesOf forest) (related : ancestry.Related node.hash hash) :
    node ∈ nodesOf (forest.filter (onBranch ancestry hash)) := by
  obtain ⟨root, found, mem⟩ := exists_root_of_mem member
  have kept : root ∈ forest.filter (onBranch ancestry hash) :=
    mem_filter.mpr ⟨found, onBranch_iff.mpr (mirrors.root_related found mem related)⟩
  exact tree_subset kept mem

/-! ## Closed forms -/

namespace Tree

theorem selectRoot_query (number : N) (predicate : V → Bool) (roots : List (Node H N V)) :
    selectRoot (query E ancestry) hash number predicate roots =
      match roots.find? fun root => predicate root.data && leadsTo ancestry hash root with
      | none => .ok none
      | some root =>
        if root.children.any fun node => decide (node.number ≤ number) &&
            ancestry.before node.hash hash then .error .unfinalizedAncestor
        else .ok (some root) := by
  induction roots with
  | nil => rfl
  | cons root rest ih =>
    have asked : (if root.hash = hash then .ok true else query E ancestry root.hash hash) =
        .ok (leadsTo ancestry hash root) := by
      unfold leadsTo query
      by_cases same : root.hash = hash <;> simp [same]
    rw [selectRoot, asked, List.find?_cons, anyAncestor_query, ih]
    cases predicate root.data with
    | false => rfl
    | true =>
      cases leadsTo ancestry hash root with
      | false => rfl
      | true =>
        simp only [if_true, Bool.and_self]
        cases root.children.any fun node => decide (node.number ≤ number) &&
          ancestry.before node.hash hash <;> rfl

variable {self : Tree H N V}

theorem retains_eq (mirrors : Mirrors ancestry forest) {root : Node H N V}
    (mem : root ∈ nodesOf forest) :
    retains (query E ancestry) hash (ancestry.number hash) root = onBranch ancestry hash root := by
  rw [Bool.eq_iff_iff, onBranch_iff, retains, mirrors.numbers root mem]
  simp only [query, orFalse, Bool.or_eq_true, Bool.and_eq_true, decide_eq_true_eq]
  constructor
  · rintro ((⟨_, after⟩ | ⟨_, same⟩) | before)
    · exact .inr (.inr after)
    · exact .inl same
    · exact .inr (.inl before)
  · rintro (rfl | before | after)
    · exact .inl (.inr ⟨rfl, rfl⟩)
    · exact .inr before
    · exact .inl (.inl ⟨ancestry.number_lt after, after⟩)

/-- **The outcomes of `finalize_with_descendent_if`** on a mirror, above the finalized number. -/
theorem finalizeWithDescendentIf_cases (E : Type) (predicate : V → Bool)
    (mirrors : Mirrors ancestry self.roots) (above : ¬ self.Reverts (ancestry.number hash)) :
    (∃ root ∈ self.roots, predicate root.data ∧ ancestry.AtOrBefore root.hash hash ∧
      (∃ child ∈ root.children, ancestry.before child.hash hash) ∧
      self.finalizeWithDescendentIf (query E ancestry) hash (ancestry.number hash) predicate =
        (self, .error .unfinalizedAncestor)) ∨
    (∃ root ∈ self.roots, predicate root.data ∧ ancestry.AtOrBefore root.hash hash ∧
      (∀ child ∈ root.children, ¬ ancestry.before child.hash hash) ∧
      self.finalizeWithDescendentIf (query E ancestry) hash (ancestry.number hash) predicate =
        (⟨root.children.filter (onBranch ancestry hash), some (ancestry.number hash)⟩,
          .ok (.changed (some root.data)))) ∨
    (∀ root ∈ self.roots, predicate root.data → ¬ ancestry.AtOrBefore root.hash hash) ∧
      ∃ outcome, (∀ data, outcome ≠ .changed (some data)) ∧
      self.finalizeWithDescendentIf (query E ancestry) hash (ancestry.number hash) predicate =
        (⟨self.roots.filter (onBranch ancestry hash), some (ancestry.number hash)⟩,
          .ok outcome) := by
  have filtered : ∀ roots : List (Node H N V), (∀ root ∈ roots, root ∈ nodesOf self.roots) →
      roots.filter (retains (query E ancestry) hash (ancestry.number hash)) =
        roots.filter (onBranch ancestry hash) :=
    fun roots mem => filter_congr fun root member => retains_eq mirrors (mem root member)
  unfold finalizeWithDescendentIf
  rw [if_neg above, selectRoot_query]
  cases found : self.roots.find? fun root => predicate root.data && leadsTo ancestry hash root with
  | none =>
    refine .inr (.inr ⟨fun root member passes leads => ?_, retainResult self.roots
      (retains (query E ancestry) hash (ancestry.number hash)), fun data => ?_, ?_⟩)
    · have fails := List.find?_eq_none.mp found root member
      rw [passes, leadsTo_iff.mpr leads] at fails
      exact fails rfl
    · rw [retainResult]
      split <;> simp
    · rw [← filtered self.roots fun root => root_mem]
  | some root =>
    have member := mem_of_find?_eq_some found
    have passes := List.find?_some found
    rw [Bool.and_eq_true, leadsTo_iff] at passes
    by_cases lower : ∃ child ∈ root.children, ancestry.before child.hash hash
    · refine .inl ⟨root, member, passes.1, passes.2, lower, ?_⟩
      simp only
      rw [if_pos ((mirrors.any_child_iff (root_mem member)).mpr lower)]
    · refine .inr (.inl ⟨root, member, passes.1, passes.2, ?_, ?_⟩)
      · exact fun child mem before => lower ⟨child, mem, before⟩
      · simp only
        rw [if_neg (mt (mirrors.any_child_iff (root_mem member)).mp lower),
          ← filtered root.children]
        exact fun child mem => (children_sublist (root_mem member)).subset (root_mem mem)

end Tree

end

end Brace.ForkTree
