import Brace.ForkTree.Prune

/-!
# The canonical part of the fork tree

What `find_node_where`, `prune` and `finalize_with_ancestors` do with a block, in terms of the
ancestry alone: which node is found, and which nodes are left.
-/

namespace Brace.ForkTree

open Brace.Lib List

variable {H N V : Type} [LinearOrder N] {ancestry : Ancestry H N} {self : Tree H N V} {hash : H}
  {predicate : V → Bool}

/-! ## The deepest ancestor -/

/-- The nodes that are ancestors of the block and pass the predicate. -/
def passing (ancestry : Ancestry H N) (hash : H) (predicate : V → Bool)
    (forest : List (Node H N V)) : List (Node H N V) :=
  (nodesOf forest).filter fun node => ancestry.before node.hash hash && predicate node.data

/-- The node is the one of them with the greatest number. -/
def IsHighest (ancestry : Ancestry H N) (hash : H) (predicate : V → Bool)
    (forest : List (Node H N V)) (node : Node H N V) : Prop :=
  node ∈ passing ancestry hash predicate forest ∧
    ∀ other ∈ passing ancestry hash predicate forest, other = node ∨ other.number < node.number

theorem mem_passing {forest : List (Node H N V)} {node : Node H N V} :
    node ∈ passing ancestry hash predicate forest ↔
      node ∈ nodesOf forest ∧ ancestry.before node.hash hash ∧ predicate node.data := by
  rw [passing, mem_filter, Bool.and_eq_true]

section

variable (mirrors : Mirrors ancestry self.roots)

include mirrors

theorem Mirrors.met_before {node : Node H N V} (mem : node ∈ nodesOf self.roots) :
    Met (ancestry.before · hash) node ↔ ancestry.before node.hash hash := by
  rw [mirrors.met_iff_exists mem]
  constructor
  · rintro ⟨other, _, above, before⟩
    exact above.before_of_before before
  · exact fun before => ⟨_, hash_mem mem, .inl rfl, before⟩

theorem Deepest.eq_some_iff {result : Option (Node H N V)}
    (deepest : Deepest ancestry (ancestry.before · hash) predicate self.roots result) :
    (result = none ↔ passing ancestry hash predicate self.roots = []) ∧
      ∀ node, result = some node ↔ IsHighest ancestry hash predicate self.roots node := by
  cases result with
  | none =>
    have nothing : passing ancestry hash predicate self.roots = [] := by
      rw [eq_nil_iff_forall_not_mem]
      intro other mem
      obtain ⟨member, before, passes⟩ := mem_passing.mp mem
      exact deepest other member ((mirrors.met_before member).mpr before) passes
    refine ⟨iff_of_true rfl nothing, fun node => iff_of_false nofun fun highest => ?_⟩
    have mem := highest.1
    rw [nothing] at mem
    cases mem
  | some found =>
    obtain ⟨member, met, passes, last⟩ := deepest
    have mem : found ∈ passing ancestry hash predicate self.roots :=
      mem_passing.mpr ⟨member, (mirrors.met_before member).mp met, passes⟩
    have highest : ∀ other ∈ passing ancestry hash predicate self.roots,
        other = found ∨ other.number < found.number := by
      intro other there
      obtain ⟨listed, before, good⟩ := mem_passing.mp there
      rcases last other listed ((mirrors.met_before listed).mpr before) good with same | lower
      · exact .inl (mirrors.unique listed member same)
      · rw [mirrors.numbers other listed, mirrors.numbers found member]
        exact .inr (ancestry.number_lt lower)
    refine ⟨iff_of_false nofun (ne_nil_of_mem mem), fun node => ?_⟩
    constructor
    · rintro ⟨⟩
      exact ⟨mem, highest⟩
    · rintro ⟨listed, above⟩
      have first := above found mem
      have second := highest node listed
      have same : found = node := by
        rcases first with same | lower
        · exact same
        · exact (second.resolve_right (not_lt_of_gt lower)).symm
      rw [same]

/-- **`find_node_where` finds the deepest ancestor of the block that passes the predicate**, and
`find_node_where_mut` the same node. -/
theorem Tree.findNodeWhere_highest (E : Type) (hash : H) (predicate : V → Bool) :
    ∃ result,
      self.findNodeWhere (query E ancestry) hash (ancestry.number hash) predicate = .ok result ∧
      self.findNodeWhereMut (query E ancestry) hash (ancestry.number hash) predicate =
        .ok (result.map some) ∧
      (result = none ↔ passing ancestry hash predicate self.roots = []) ∧
      ∀ node, result = some node ↔ IsHighest ancestry hash predicate self.roots node := by
  have asks : ∀ base, query E ancestry base hash = .ok (ancestry.before base hash) := fun _ => rfl
  obtain ⟨result, found, deepest⟩ :=
    Tree.findNodeWhere_deepest (.before ancestry hash) asks mirrors predicate
  exact ⟨result, found, by rw [findNodeWhereMut_eq, found]; rfl, deepest.eq_some_iff mirrors⟩

end

/-- Two branches that part at a node which does not pass. -/
def twoBranches : Tree (List Nat) Nat Bool :=
  ⟨[⟨[0], 1, true, [⟨[0, 0], 2, false, [⟨[0, 0, 0], 3, false, []⟩, ⟨[0, 0, 1], 3, false, []⟩]⟩]⟩],
    none⟩

theorem twoBranches_mirrors : Mirrors .paths twoBranches.roots := ⟨by decide, by decide, by decide⟩

/-- The search backtracks over the node where the branches part. -/
theorem findNodeWhere_highest_backtracks :
    ∃ root, twoBranches.findNodeWhere (query Empty .paths) [0, 0, 0] 3 id = .ok (some root) ∧
      IsHighest .paths [0, 0, 0] id twoBranches.roots root := by
  obtain ⟨result, found, _, nothing, highest⟩ :=
    Tree.findNodeWhere_highest twoBranches_mirrors Empty [0, 0, 0] id
  cases result with
  | none => exact absurd (nothing.mp rfl) (by decide)
  | some root => exact ⟨root, found, (highest root).mp rfl⟩

/-! ## Pruning -/

section

variable [DecidableEq H]

/-- `prune` keeps the nodes of the canonical branch: with a highest ancestor, this node as the only
root and below it the nodes that were there and are on one branch with the block, otherwise every
node. -/
def Tree.KeepsBranch (E : Type) (ancestry : Ancestry H N) (self : Tree H N V) (hash : H)
    (predicate : V → Bool) : Prop :=
  let pruned := self.prune (query E ancestry) hash (ancestry.number hash) predicate
  pruned.2 = .ok () ∧
    (passing ancestry hash predicate self.roots = [] →
      entriesOf pruned.1.roots ~ entriesOf self.roots) ∧
    ∀ root, IsHighest ancestry hash predicate self.roots root →
      ∃ kept, pruned.1.roots = [kept] ∧ kept.entry = root.entry ∧
        ∀ entry, entry ∈ entriesOf kept.children ↔
          ∃ node ∈ nodesOf root.children, node.entry = entry ∧ ancestry.Related node.hash hash

/-- No node below `root` leaves the branch of the block below a child of `root` that leads to the
block, and without such a child no node descends from the block. -/
def Unforked (ancestry : Ancestry H N) (hash : H) (root : Node H N V) : Prop :=
  (∀ child ∈ root.children, ancestry.AtOrBefore child.hash hash →
    ∀ node ∈ nodesOf [child], ancestry.Related node.hash hash) ∧
  ((∃ node ∈ nodesOf root.children, ancestry.before hash node.hash) →
    ∃ child ∈ root.children, ancestry.AtOrBefore child.hash hash)

variable (mirrors : Mirrors ancestry self.roots)

include mirrors

theorem Mirrors.leading_iff {root : Node H N V} (member : root ∈ nodesOf self.roots) :
    (∀ entry, entry ∈ entriesOf (root.children.filter (leadsTo ancestry hash)) ↔
      ∃ node ∈ nodesOf root.children, node.entry = entry ∧ ancestry.Related node.hash hash) ↔
    Unforked ancestry hash root := by
  have children := mirrors.children member
  have kept : ∀ node, node ∈ nodesOf (root.children.filter (leadsTo ancestry hash)) ↔
      ∃ child ∈ root.children, ancestry.AtOrBefore child.hash hash ∧ node ∈ nodesOf [child] := by
    intro node
    constructor
    · intro mem
      obtain ⟨child, found, there⟩ := exists_root_of_mem mem
      have both := mem_filter.mp found
      exact ⟨child, both.1, leadsTo_iff.mp both.2, there⟩
    · rintro ⟨child, found, leads, there⟩
      exact tree_subset (mem_filter.mpr ⟨found, leadsTo_iff.mpr leads⟩) there
  constructor
  · intro same
    refine ⟨fun child found leads node mem => ?_, fun ⟨node, mem, after⟩ => ?_⟩
    · have listed := (same node.entry).mp
        (mem_map_of_mem ((kept node).mpr ⟨child, found, leads, mem⟩))
      obtain ⟨other, _, entry, related⟩ := listed
      rwa [show other.hash = node.hash from congrArg Prod.fst entry] at related
    · have listed := (same node.entry).mpr ⟨node, mem, rfl, .inr (.inr after)⟩
      obtain ⟨other, there, _⟩ := mem_map.mp listed
      obtain ⟨child, found, leads, _⟩ := (kept other).mp there
      exact ⟨child, found, leads⟩
  · rintro ⟨clean, leading⟩ entry
    constructor
    · intro mem
      obtain ⟨node, there, rfl⟩ := mem_map.mp mem
      obtain ⟨child, found, leads, below⟩ := (kept node).mp there
      exact ⟨node, tree_subset found below, rfl, clean child found leads node below⟩
    · rintro ⟨node, mem, rfl, related⟩
      have some_child : ∃ child ∈ root.children, ancestry.AtOrBefore child.hash hash := by
        obtain ⟨child, found, below⟩ := exists_root_of_mem mem
        have above := children.root_atOrBefore found below
        rcases related with rfl | before | after
        · exact ⟨child, found, above⟩
        · exact ⟨child, found, .inr (above.before_of_before before)⟩
        · exact leading ⟨node, mem, after⟩
      obtain ⟨child, found, leads⟩ := some_child
      have below := children.eq_or_below found leads mem related
      refine mem_map_of_mem ((kept node).mpr ⟨child, found, leads, ?_⟩)
      rw [nodesOf_singleton]
      exact mem_cons.mpr below

/-- **`prune` keeps exactly the canonical branch** when the highest ancestor that passes is not
forked, and only then. -/
theorem Tree.keepsBranch_iff (E : Type) (hash : H) (predicate : V → Bool) :
    self.KeepsBranch E ancestry hash predicate ↔
      ∀ root, IsHighest ancestry hash predicate self.roots root →
        Unforked ancestry hash root := by
  have asks : ∀ base, query E ancestry base hash = .ok (ancestry.before base hash) := fun _ => rfl
  obtain ⟨result, deepest, pruned⟩ := Tree.prune_eq asks mirrors predicate
  obtain ⟨nothing, highest⟩ := deepest.eq_some_iff mirrors
  unfold KeepsBranch
  rw [pruned]
  cases result with
  | none =>
    have none_highest : ∀ root, ¬ IsHighest ancestry hash predicate self.roots root :=
      fun root found => nomatch (highest root).mpr found
    refine iff_of_true ⟨rfl, fun _ => entriesOf_rebalance _, fun root found => ?_⟩
      fun root found => ?_
    · exact absurd found (none_highest root)
    · exact absurd found (none_highest root)
  | some root =>
    have only : ∀ other, IsHighest ancestry hash predicate self.roots other ↔ other = root := by
      intro other
      rw [← highest, Option.some.injEq, eq_comm]
    have mem := (mem_passing.mp ((only root).mpr rfl).1).1
    have some_passing : passing ancestry hash predicate self.roots ≠ [] :=
      ne_nil_of_mem ((only root).mpr rfl).1
    simp only [only, forall_eq, some_passing, false_implies, true_and]
    rw [← mirrors.leading_iff mem]
    have children := entriesOf_rebalance (root.children.filter (leadsTo ancestry hash))
    constructor
    · rintro ⟨kept, roots, _, same⟩ entry
      obtain rfl := singleton_inj.mp roots
      rw [← same, rebalance_children, children.mem_iff]
    · intro same
      refine ⟨_, rfl, ?_, fun entry => ?_⟩
      · rfl
      · rw [rebalance_children, children.mem_iff, same]

end

/-- The branch of the node where the branches part is kept. -/
theorem keepsBranch_iff_parting : twoBranches.KeepsBranch Empty .paths [0, 0] id := by
  refine (Tree.keepsBranch_iff twoBranches_mirrors Empty [0, 0] id).mpr fun root highest => ?_
  obtain rfl := mem_singleton.mp highest.1
  unfold Unforked Ancestry.Related
  decide

/-- The other branch is kept as well when the block is behind the node where the branches part. -/
theorem prune_keeps_other_branch : ¬ twoBranches.KeepsBranch Empty .paths [0, 0, 0] id := by
  rintro ⟨_, _, keeps⟩
  obtain ⟨kept, roots, _, same⟩ := keeps _ ⟨mem_cons_self, fun other mem =>
    .inl (mem_singleton.mp mem)⟩
  have mem : ([0, 0, 1], 3, false) ∈ (twoBranches.prune (query Empty .paths) [0, 0, 0]
      (Ancestry.paths.number [0, 0, 0]) id).1.roots.flatMap (entriesOf ·.children) := by
    decide +kernel
  rw [roots, flatMap_singleton, same] at mem
  revert mem
  unfold Ancestry.Related
  decide

/-! ## Finalizing with ancestors -/

section

variable {forest : List (Node H N V)}

/-- A finalization with ancestors on a forest: what is left, the finalized number and the value. -/
structure Finalizes (ancestry : Ancestry H N) (hash : H) (forest : List (Node H N V))
    (after : Tree H N V) (result : FinalizationResult V) : Prop where
  nodes : ∀ node, node ∈ nodesOf after.roots ↔
    node ∈ nodesOf forest ∧ ancestry.before hash node.hash
  best : after.bestFinalizedNumber = some (ancestry.number hash)
  value : ∀ data, result = .changed (some data) ↔
    ∃ node ∈ nodesOf forest, node.hash = hash ∧ node.data = data

theorem Finalizes.of_subset {smaller : List (Node H N V)} {after : Tree H N V}
    {result : FinalizationResult V} (subset : ∀ node ∈ nodesOf smaller, node ∈ nodesOf forest)
    (kept : ∀ node ∈ nodesOf forest, ancestry.AtOrBefore hash node.hash → node ∈ nodesOf smaller)
    (finalizes : Finalizes ancestry hash smaller after result) :
    Finalizes ancestry hash forest after result := by
  refine ⟨fun node => ?_, finalizes.best, fun data => ?_⟩
  · rw [finalizes.nodes]
    exact ⟨fun ⟨mem, before⟩ => ⟨subset node mem, before⟩,
      fun ⟨mem, before⟩ => ⟨kept node mem (.inr before), before⟩⟩
  · rw [finalizes.value]
    exact ⟨fun ⟨node, mem, same⟩ => ⟨node, subset node mem, same⟩,
      fun ⟨node, mem, same⟩ => ⟨node, kept node mem (.inl same.1.symm), same⟩⟩

theorem Finalizes.root (mirrors : Mirrors ancestry forest)
    {root : Node H N V} (member : root ∈ forest) :
    Finalizes ancestry root.hash forest ⟨root.children, some root.number⟩
      (.changed (some root.data)) := by
  have here := root_mem member
  refine ⟨fun node => mirrors.mem_children_iff here, ?_, fun data => ?_⟩
  · exact congrArg some (mirrors.numbers root here)
  · constructor
    · rintro ⟨⟩
      exact ⟨root, here, rfl, rfl⟩
    · rintro ⟨node, mem, same, rfl⟩
      rw [mirrors.unique mem here same]

theorem Mirrors.all_after (mirrors : Mirrors ancestry forest)
    (after : ∀ root ∈ forest, ancestry.before hash root.hash) :
    ∀ node ∈ nodesOf forest, ancestry.before hash node.hash := by
  intro node mem
  obtain ⟨root, found, below⟩ := exists_root_of_mem mem
  exact Ancestry.AtOrBefore.before_of_before' (after root found)
    (mirrors.root_atOrBefore found below)

end

/-- The loop of `finalize_with_ancestors`, when the roots before `idx` descend from the block. -/
theorem Tree.openAncestors_spec [DecidableEq H] (E : Type) (kept : List (Node H N V))
    (changed : Bool) (roots : List (Node H N V)) (mirrors : Mirrors ancestry (kept ++ roots))
    (later : ∀ root ∈ kept, ancestry.before hash root.hash) :
    let result := openAncestors (query E ancestry) hash (ancestry.number hash) kept changed roots
    Finalizes ancestry hash (kept ++ roots) result.1 result.2 ∧
      (result.2 = .unchanged ↔ changed = false ∧
        ∀ root ∈ roots, ancestry.before hash root.hash) := by
  fun_induction openAncestors (query E ancestry) hash (ancestry.number hash) kept changed roots with
  | case1 kept changed =>
    rw [append_nil] at mirrors ⊢
    have after := mirrors.all_after later
    refine ⟨⟨fun node => ⟨fun mem => ⟨mem, after node mem⟩, And.left⟩, rfl,
      fun data => ⟨fun found => ?_, fun listed => ?_⟩⟩, ?_⟩
    · cases changed <;> cases found
    · obtain ⟨node, mem, same, -⟩ := listed
      have before := after node mem
      rw [same] at before
      exact absurd before (ancestry.irrefl hash)
    · cases changed <;> simp
  | case2 kept changed root rest same =>
    subst same
    refine ⟨.root mirrors (mem_append_right _ mem_cons_self), iff_of_false (by simp) ?_⟩
    exact fun all => ancestry.irrefl _ (all.2 root mem_cons_self)
  | case3 kept changed root rest differ descendent ih =>
    have before : ancestry.before hash root.hash := (Bool.and_eq_true_iff.mp descendent).2
    have both := ih (by rwa [append_assoc]) fun other mem =>
      (mem_append.mp mem).elim (later other) fun last =>
        mem_singleton.mp last ▸ before
    rw [append_assoc] at both
    refine ⟨both.1, ?_⟩
    rw [both.2, forall_mem_cons, and_iff_right before]
  | case4 kept changed root rest differ apart ancestor ih =>
    have before : ancestry.before root.hash hash := (Bool.and_eq_true_iff.mp ancestor).2
    -- An ancestor is replaced by its children; it is not after the block itself.
    have subperm := opened_subperm kept root rest
    obtain ⟨finalizes, unchanged⟩ := ih (mirrors.of_subperm subperm) later
    refine ⟨finalizes.of_subset subperm.subset fun node mem after => ?_, ?_⟩
    · rw [nodesOf_append, mem_append] at mem ⊢
      refine mem.imp_right fun there => ?_
      rw [nodesOf_append, mem_append, (nodesOf_perm (swapRemoved_perm rest)).mem_iff]
      rw [nodesOf_cons, mem_cons, mem_append] at there
      rcases there with rfl | below | other
      · exact absurd (after.before_of_before before) (ancestry.irrefl _)
      · exact .inr below
      · exact .inl other
    · rw [unchanged]
      refine iff_of_false (by simp) fun all => ?_
      exact ancestry.asymm before (all.2 root mem_cons_self)
  | case5 kept changed root rest differ apart other ih =>
    have here : root ∈ kept ++ root :: rest := mem_append_right _ mem_cons_self
    have number := mirrors.numbers root (root_mem here)
    -- Both queries said no, and the numbers let them be asked: the root is on another fork.
    have unrelated : ¬ ancestry.Related root.hash hash := by
      rintro (same | before | after)
      · exact differ same
      · exact other (Bool.and_eq_true_iff.mpr
          ⟨decide_eq_true (number ▸ ancestry.number_lt before), before⟩)
      · exact apart (Bool.and_eq_true_iff.mpr
          ⟨decide_eq_true (number ▸ ancestry.number_lt after), after⟩)
    have subperm := removed_subperm kept root rest
    obtain ⟨finalizes, unchanged⟩ := ih (mirrors.of_subperm subperm) later
    refine ⟨finalizes.of_subset subperm.subset fun node mem after => ?_, ?_⟩
    · rw [nodesOf_append, mem_append] at mem ⊢
      refine mem.imp_right fun there => ?_
      rw [(nodesOf_perm (swapRemoved_perm rest)).mem_iff]
      rw [nodesOf_cons, ← cons_append, mem_append, ← nodesOf_singleton] at there
      refine there.resolve_left fun below => unrelated ?_
      exact mirrors.root_related here below (after.related (.inl rfl)).symm
    · rw [unchanged]
      refine iff_of_false (by simp) fun all => ?_
      exact unrelated (.inr (.inr (all.2 root mem_cons_self)))

/-- **`finalize_with_ancestors` keeps exactly the descendants of the block.** -/
theorem Tree.finalizeWithAncestors_exact [DecidableEq H] (E : Type)
    (mirrors : Mirrors ancestry self.roots) (above : ¬ self.Reverts (ancestry.number hash)) :
    ∃ after result,
      self.finalizeWithAncestors (query E ancestry) hash (ancestry.number hash) =
        (after, .ok result) ∧
      Finalizes ancestry hash self.roots after result ∧
      (result = .unchanged ↔ ∀ node ∈ nodesOf self.roots, node ∈ nodesOf after.roots) := by
  unfold finalizeWithAncestors finalizeRoot
  rw [if_neg above]
  cases found : self.roots.find? (·.hash = hash) with
  | some root =>
    have member := mem_of_find?_eq_some found
    have same : root.hash = hash := by simpa using List.find?_some found
    subst same
    refine ⟨_, _, rfl, .root mirrors member, iff_of_false nofun fun all => ?_⟩
    have below := all root (root_mem member)
    exact ancestry.irrefl _ (mirrors.before_child (root_mem member) below)
  | none =>
    obtain ⟨finalizes, unchanged⟩ :=
      openAncestors_spec E [] false self.roots mirrors fun _ mem => nomatch mem
    refine ⟨_, _, rfl, finalizes, ?_⟩
    rw [unchanged, and_iff_right rfl]
    simp only [finalizes.nodes, nil_append]
    constructor
    · exact fun all node mem => ⟨mem, mirrors.all_after all node mem⟩
    · exact fun all root member => (all root (root_mem member)).2

/-- Finalizing a leaf leaves nothing. -/
theorem finalizeWithAncestors_exact_leaf : ∃ after result,
    twoBranches.finalizeWithAncestors (query Empty .paths) [0, 0, 0] 3 = (after, .ok result) ∧
      Finalizes .paths [0, 0, 0] twoBranches.roots after result := by
  have above : ¬ twoBranches.Reverts (Ancestry.paths.number [0, 0, 0]) := by decide
  obtain ⟨after, result, ran, finalizes, _⟩ :=
    Tree.finalizeWithAncestors_exact Empty twoBranches_mirrors above
  exact ⟨after, result, ran, finalizes⟩

end Brace.ForkTree
