import Brace.ForkTree.Find

/-!
# What `prune` keeps

`prune` re-roots the tree to the deepest ancestor of a block that passes the predicate and keeps the
one child of it that leads to the block. A search in the pruned tree returns the same node as before
when the nodes of the branch it follows are kept from a point on that the node is not before
(`Deepest.same`).
-/

namespace Brace.ForkTree

open Brace.Lib List

variable {H N V E : Type}

section

variable [LinearOrder N] {ancestry : Ancestry H N} {forest pruned : List (Node H N V)}
  {asked : H → Bool} {predicate : V → Bool} {number : N}

variable {node : Node H N V} {result : Option (Node H N V)}

section

variable (mirrors : Mirrors ancestry forest)

include mirrors

theorem Mirrors.met_iff_exists (member : node ∈ nodesOf forest) :
    Met asked node ↔ ∃ hash ∈ hashesOf forest, ancestry.AtOrBefore node.hash hash ∧ asked hash := by
  constructor
  · rintro ⟨other, mem, answered⟩
    rw [nodesOf_singleton] at mem
    rcases mem_cons.mp mem with rfl | below
    · exact ⟨_, hash_mem member, .inl rfl, answered⟩
    · exact ⟨_, hash_mem ((children_sublist member).subset below),
        .inr (mirrors.before_child member below), answered⟩
  · rintro ⟨hash, there, rfl | before, answered⟩
    · exact ⟨node, root_mem mem_cons_self, answered⟩
    · obtain ⟨found, mem, rfl⟩ := mem_map.mp ((mirrors.below_iff node member _ there).mpr before)
      refine ⟨found, ?_, answered⟩
      rw [nodesOf_singleton]
      exact mem_cons_of_mem _ mem

theorem Mirrors.trim (member : node ∈ nodesOf forest) {kept : List (Node H N V)}
    (sublist : kept <+ node.children) : Mirrors ancestry [{ node with children := kept }] := by
  have nodes : nodesOf [{ node with children := kept }] =
      { node with children := kept } :: nodesOf kept := nodesOf_singleton _
  have kept_nodes : nodesOf kept <+ nodesOf node.children := nodesOf_sublist sublist
  have old : ∀ other ∈ nodesOf kept, other ∈ nodesOf forest := fun other mem =>
    (children_sublist member).subset (kept_nodes.subset mem)
  have not_below : node.hash ∉ hashesOf node.children := fun below =>
    ancestry.irrefl _ ((mirrors.below_iff node member _ (hash_mem member)).mp below)
  have hashes : hashesOf [{ node with children := kept }] = node.hash :: hashesOf kept :=
    hashesOf_singleton _
  have present : ∀ hash ∈ node.hash :: hashesOf kept, hash ∈ hashesOf forest := by
    intro hash mem
    rcases mem_cons.mp mem with rfl | below
    · exact hash_mem member
    · obtain ⟨other, found, rfl⟩ := mem_map.mp below
      exact hash_mem (old other found)
  refine ⟨?_, fun other mem => ?_, fun other mem hash listed => ?_⟩
  · rw [hashes]
    refine nodup_cons.mpr ⟨fun below => not_below ((kept_nodes.map _).subset below), ?_⟩
    exact (mirrors.children member).distinct.sublist (kept_nodes.map _)
  · rw [nodes] at mem
    rcases mem_cons.mp mem with rfl | below
    · exact mirrors.numbers node member
    · exact mirrors.numbers other (old other below)
  · rw [nodes] at mem
    rw [hashes] at listed
    rcases mem_cons.mp mem with rfl | below
    · change hash ∈ hashesOf kept ↔ ancestry.before node.hash hash
      rw [← mirrors.below_iff node member hash (present hash listed)]
      refine ⟨fun lower => (kept_nodes.map _).subset lower, fun lower => ?_⟩
      rcases mem_cons.mp listed with rfl | mem
      · exact absurd lower not_below
      · exact mem
    · exact mirrors.below_iff other (old other below) hash (present hash listed)

/-- **A search returns the same after nodes were removed**, when the nodes it can return are kept:
all from a point on, and the node it returned before is not before that point. -/
theorem Deepest.same (pruned_mirrors : Mirrors ancestry pruned)
    (removed : ∀ entry ∈ entriesOf pruned, entry ∈ entriesOf forest) (from_here : H → Prop)
    (upward : ∀ {base target}, from_here base → ancestry.AtOrBefore base target → from_here target)
    (kept : ∀ node ∈ nodesOf forest, from_here node.hash → (∃ other, asked other ∧
      ancestry.AtOrBefore node.hash other) → node.entry ∈ entriesOf pruned)
    {before after : Option (Node H N V)} (first : Deepest ancestry asked predicate forest before)
    (second : Deepest ancestry asked predicate pruned after)
    (ran : ∀ node ∈ before, from_here node.hash) :
    after.map Node.entry = before.map Node.entry := by
  -- a node of the pruned forest that is met was met before
  have old : ∀ node ∈ nodesOf pruned, Met asked node →
      ∃ other ∈ nodesOf forest, other.entry = node.entry ∧ Met asked other := by
    intro node member met
    obtain ⟨other, found, same⟩ := mem_map.mp (removed _ (mem_map_of_mem member))
    obtain ⟨hash, mem, above, answered⟩ := (pruned_mirrors.met_iff_exists member).mp met
    have hash_eq : other.hash = node.hash := congrArg Prod.fst same
    refine ⟨other, found, same, (mirrors.met_iff_exists found).mpr ⟨hash, ?_, ?_, answered⟩⟩
    · rw [← map_entriesOf] at mem ⊢
      exact map_subset _ (fun entry => removed entry) mem
    · rwa [hash_eq]
  cases before with
  | none =>
    cases after with
    | none => rfl
    | some node =>
      obtain ⟨member, met, passes, _⟩ := second
      obtain ⟨other, found, same, other_met⟩ := old node member met
      have data : other.data = node.data := congrArg (fun entry => entry.2.2) same
      rw [← data] at passes
      exact absurd passes (first other found other_met)
  | some node =>
    obtain ⟨member, met, passes, deepest⟩ := first
    obtain ⟨hash, mem, above, answered⟩ := (mirrors.met_iff_exists member).mp met
    obtain ⟨lower, there, rfl⟩ := mem_map.mp mem
    have here := ran node rfl
    -- the node is in the pruned forest and met there
    obtain ⟨copy, copy_in, copy_same⟩ :=
      mem_map.mp (kept node member here ⟨lower.hash, answered, above⟩)
    have lower_in : lower.hash ∈ hashesOf pruned := by
      rw [← map_entriesOf]
      exact mem_map_of_mem (kept lower there (upward here above) ⟨lower.hash, answered, .inl rfl⟩)
    have copy_hash : copy.hash = node.hash := congrArg Prod.fst copy_same
    have copy_data : copy.data = node.data := congrArg (fun entry => entry.2.2) copy_same
    have copy_met : Met asked copy :=
      (pruned_mirrors.met_iff_exists copy_in).mpr ⟨_, lower_in, by rwa [copy_hash], answered⟩
    have copy_passes : predicate copy.data := by rwa [copy_data]
    cases after with
    | none => exact absurd copy_passes (second copy copy_in copy_met)
    | some result =>
      obtain ⟨result_in, result_met, result_passes, result_deepest⟩ := second
      obtain ⟨other, found, same, other_met⟩ := old result result_in result_met
      have other_hash : other.hash = result.hash := congrArg Prod.fst same
      have other_data : other.data = result.data := congrArg (fun entry => entry.2.2) same
      have down := result_deepest copy copy_in copy_met copy_passes
      have up := deepest other found other_met (by rwa [other_data])
      rw [copy_hash] at down
      rw [other_hash] at up
      have equal : copy.hash = result.hash := by
        rw [copy_hash]
        rcases down with same | before
        · exact same
        · rcases up with back | back
          · exact back.symm
          · exact absurd back (ancestry.asymm before)
      rw [← pruned_mirrors.unique copy_in result_in equal]
      exact congrArg some copy_same

theorem Mirrors.take_leading [DecidableEq H] (hash : H) :
    (forest.filter (leadsTo ancestry hash)).take 1 = forest.filter (leadsTo ancestry hash) := by
  have apart : (forest.filter (leadsTo ancestry hash)).Pairwise fun left right =>
      ¬ ancestry.Related left.hash right.hash := mirrors.roots_unrelated.filter _
  cases leading : forest.filter (leadsTo ancestry hash) with
  | nil => rfl
  | cons first rest =>
    cases rest with
    | nil => rfl
    | cons second others =>
      have leads : ∀ node ∈ first :: second :: others, ancestry.AtOrBefore node.hash hash := by
        intro node mem
        rw [← leading] at mem
        exact leadsTo_iff.mp (mem_filter.mp mem).2
      rw [leading] at apart
      have unrelated := (pairwise_cons.mp apart).1 second mem_cons_self
      exact absurd ((leads first mem_cons_self).related
        (leads second (mem_cons_of_mem _ mem_cons_self))) unrelated

end

/-- The roots after `prune`, before they are rebalanced. -/
def prunedRoots [DecidableEq H] (ancestry : Ancestry H N) (hash : H) (roots : List (Node H N V)) :
    Option (Node H N V) → List (Node H N V)
  | none => roots
  | some root => [{ root with children := root.children.filter (leadsTo ancestry hash) }]

theorem Mirrors.prunedRoots [DecidableEq H] (mirrors : Mirrors ancestry forest) (hash : H)
    (mem : ∀ root ∈ result, root ∈ nodesOf forest) :
    Mirrors ancestry (prunedRoots ancestry hash forest result) := by
  cases result with
  | none => exact mirrors
  | some root => exact mirrors.trim (mem root rfl) filter_sublist

theorem entries_of_prunedRoots [DecidableEq H] {hash : H}
    (member : ∀ root ∈ result, root ∈ nodesOf forest) {entry : H × N × V}
    (kept : entry ∈ entriesOf (prunedRoots ancestry hash forest result)) :
    entry ∈ entriesOf forest := by
  cases result with
  | none => exact kept
  | some root =>
    have old : root.entry ∈ entriesOf forest := mem_map_of_mem (member root rfl)
    rw [prunedRoots, entriesOf, nodesOf_singleton] at kept
    rcases mem_cons.mp kept with rfl | below
    · exact old
    · obtain ⟨node, mem, rfl⟩ := mem_map.mp below
      have lower := (nodesOf_sublist filter_sublist).subset mem
      exact mem_map_of_mem ((children_sublist (member root rfl)).subset lower)

/-- **The outcome of `prune`** on a mirror. -/
theorem Tree.prune_eq [DecidableEq H] {isDescendentOf : H → H → Except E Bool} {hash : H}
    (asks : ∀ base, isDescendentOf base hash = .ok (ancestry.before base hash)) {self : Tree H N V}
    (mirrors : Mirrors ancestry self.roots) (predicate : V → Bool) :
    ∃ result, Deepest ancestry (ancestry.before · hash) predicate self.roots result ∧
      self.prune isDescendentOf hash (ancestry.number hash) predicate =
        (Tree.rebalance { self with roots := prunedRoots ancestry hash self.roots result },
          .ok ()) := by
  obtain ⟨result, found, deepest⟩ :=
    Tree.findNodeWhere_deepest (.before ancestry hash) asks mirrors predicate
  refine ⟨result, deepest, ?_⟩
  rw [prune, found]
  cases result with
  | none => rfl
  | some root =>
    have member := deepest.1
    have tests : ∀ node ∈ root.children,
        (decide (node.number = ancestry.number hash) && decide (node.hash = hash) ||
          decide (node.number < ancestry.number hash) &&
            orFalse (isDescendentOf node.hash hash)) = leadsTo ancestry hash node := by
      intro node mem
      have there := (children_sublist member).subset (root_mem mem)
      rw [Bool.eq_iff_iff, leadsTo_iff, asks, mirrors.numbers node there]
      simp only [orFalse, Bool.or_eq_true, Bool.and_eq_true, decide_eq_true_eq]
      constructor
      · rintro (⟨_, same⟩ | ⟨_, before⟩)
        · exact .inl same
        · exact .inr before
      · rintro (rfl | before)
        · exact .inl ⟨rfl, rfl⟩
        · exact .inr ⟨ancestry.number_lt before, before⟩
    simp only
    rw [filter_congr tests, (mirrors.children member).take_leading hash]
    rfl

/-! ## Import with another query -/

variable {hash : H} {data : V} {left right : H → H → Except E Bool}

section

variable (same : ∀ base, left base hash = right base hash)

include same

theorem importAmong_congr [DecidableEq H] (forest : List (Node H N V)) :
    importAmong left hash number data forest = importAmong right hash number data forest := by
  induction forest using forest_induction with
  | nil => rfl
  | cons node rest below later =>
    have node_same : node.importBelow left hash number data =
        node.importBelow right hash number data := by
      cases node
      change importAmong left hash number data _ = importAmong right hash number data _ at below
      rw [Node.importBelow, Node.importBelow, below, same]
    rw [importAmong, importAmong, node_same, later]

theorem Tree.importBlock_congr [DecidableEq H] (self : Tree H N V) :
    self.importBlock left hash number data = self.importBlock right hash number data := by
  rw [importBlock, importBlock, importAmong_congr same]

end

end

end Brace.ForkTree
