import Brace.ForkTree.Forest

/-!
# The fork tree mirrors the ancestry

`Mirrors` says that the hashes of a forest are distinct and that its nodes are below each other
exactly as the blocks descend from each other. A finalization keeps whole subtrees, so that the
nodes it keeps are some of the nodes before it (`Mirrors.of_subperm`). An import puts the block
below its ancestors and below nothing else (`Grown`): the search meets the deepest ancestor first,
because it asks a node after its children and because the ancestors in the tree are below each
other.
-/

namespace Brace.ForkTree

open Brace.Lib List

variable {H N V E : Type}

/-! ## The mirror -/

section

variable [LinearOrder N] {ancestry : Ancestry H N} {forest : List (Node H N V)}

/-- The forest has each hash once, the numbers of the blocks, and below each node the blocks of the
forest that descend from it. -/
structure Mirrors (ancestry : Ancestry H N) (forest : List (Node H N V)) : Prop where
  distinct : (hashesOf forest).Nodup
  numbers : ∀ node ∈ nodesOf forest, node.number = ancestry.number node.hash
  below_iff : ∀ node ∈ nodesOf forest, ∀ hash ∈ hashesOf forest,
    hash ∈ hashesOf node.children ↔ ancestry.before node.hash hash

namespace Mirrors

theorem of_subperm (mirrors : Mirrors ancestry forest) {kept : List (Node H N V)}
    (subperm : nodesOf kept <+~ nodesOf forest) : Mirrors ancestry kept := by
  obtain ⟨nodes, perm, sublist⟩ := subperm
  have subset : ∀ node ∈ nodesOf kept, node ∈ nodesOf forest := fun node member =>
    sublist.subset (perm.symm.subset member)
  refine ⟨?_, fun node member => mirrors.numbers node (subset node member),
    fun node member hash present => ?_⟩
  · exact ((perm.map Node.hash).nodup_iff).mp (mirrors.distinct.sublist (sublist.map _))
  · obtain ⟨other, mem, rfl⟩ := mem_map.mp present
    exact mirrors.below_iff node (subset node member) _ (hash_mem (subset other mem))

variable {node : Node H N V}

theorem tail {node : Node H N V} (mirrors : Mirrors ancestry (node :: forest)) :
    Mirrors ancestry forest :=
  mirrors.of_subperm (nodesOf_sublist (sublist_cons_self node forest)).subperm

theorem head {node : Node H N V} (mirrors : Mirrors ancestry (node :: forest)) :
    Mirrors ancestry [node] :=
  mirrors.of_subperm (nodesOf_sublist (sublist_append_left [node] forest)).subperm

section

variable (mirrors : Mirrors ancestry forest)

include mirrors

theorem children (mem : node ∈ nodesOf forest) : Mirrors ancestry node.children :=
  mirrors.of_subperm (children_sublist mem).subperm

theorem before_child (mem : node ∈ nodesOf forest) {other : Node H N V}
    (below : other ∈ nodesOf node.children) : ancestry.before node.hash other.hash :=
  (mirrors.below_iff node mem _ (hash_mem ((children_sublist mem).subset below))).mp
    (hash_mem below)

theorem unique {left right : Node H N V} (first : left ∈ nodesOf forest)
    (second : right ∈ nodesOf forest) (same : left.hash = right.hash) : left = right :=
  inj_on_of_nodup_map mirrors.distinct first second same

theorem mem_children_iff {other : Node H N V} (mem : node ∈ nodesOf forest) :
    other ∈ nodesOf node.children ↔
      other ∈ nodesOf forest ∧ ancestry.before node.hash other.hash := by
  constructor
  · exact fun below => ⟨(children_sublist mem).subset below, mirrors.before_child mem below⟩
  · rintro ⟨member, before⟩
    have below := (mirrors.below_iff node mem _ (hash_mem member)).mpr before
    obtain ⟨found, there, same⟩ := mem_map.mp below
    rwa [← mirrors.unique ((children_sublist mem).subset there) member same]

end

theorem apart {left right : List (Node H N V)} (mirrors : Mirrors ancestry (left ++ right))
    {other : Node H N V} (member : node ∈ nodesOf left) (later : other ∈ nodesOf right) :
    ¬ ancestry.Related node.hash other.hash := by
  have distinct := mirrors.distinct
  rw [hashesOf_append, nodup_append] at distinct
  have here : node ∈ nodesOf (left ++ right) := by
    rw [nodesOf_append]
    exact mem_append_left _ member
  have there : other ∈ nodesOf (left ++ right) := by
    rw [nodesOf_append]
    exact mem_append_right _ later
  rintro (same | below | below)
  · exact distinct.2.2 _ (hash_mem member) _ (hash_mem later) same
  · have mem := (mirrors.below_iff node here _ (hash_mem there)).mpr below
    exact distinct.2.2 _ (((children_sublist member).map Node.hash).subset mem) _
      (hash_mem later) rfl
  · have mem := (mirrors.below_iff other there _ (hash_mem here)).mpr below
    exact distinct.2.2 _ (hash_mem member) _
      (((children_sublist later).map Node.hash).subset mem) rfl

theorem roots_unrelated (mirrors : Mirrors ancestry forest) :
    forest.Pairwise fun left right => ¬ ancestry.Related left.hash right.hash := by
  induction forest with
  | nil => exact List.Pairwise.nil
  | cons node rest ih =>
    refine List.Pairwise.cons (fun other mem => ?_) (ih mirrors.tail)
    have split : Mirrors ancestry ([node] ++ rest) := mirrors
    exact split.apart (root_mem mem_cons_self) (root_mem mem)

end Mirrors

theorem Mirrors.rebalance (mirrors : Mirrors ancestry forest) :
    Mirrors ancestry ((rebalanceEach forest).insertionSort Deeper) := by
  have nodes : ∀ node ∈ nodesOf ((rebalanceEach forest).insertionSort Deeper),
      ∃ old ∈ nodesOf forest, old.rebalance = node := fun node mem =>
    mem_map.mp ((nodesOf_rebalanceEach forest).subset
      ((nodesOf_perm (perm_insertionSort _ _)).subset mem))
  refine ⟨?_, fun node mem => ?_, fun node mem hash present => ?_⟩
  · rw [(hashesOf_rebalance forest).nodup_iff]
    exact mirrors.distinct
  · obtain ⟨old, found, rfl⟩ := nodes node mem
    rw [rebalance_number, rebalance_hash]
    exact mirrors.numbers old found
  · obtain ⟨old, found, rfl⟩ := nodes node mem
    have children := hashesOf_rebalance old.children
    rw [← rebalance_children] at children
    rw [children.mem_iff, rebalance_hash]
    exact mirrors.below_iff old found hash ((hashesOf_rebalance forest).subset present)

/-! ## Import -/

/-- A query for ancestry that does not fail. -/
def query (E : Type) (ancestry : Ancestry H N) (base target : H) : Except E Bool :=
  .ok (ancestry.before base target)

variable (ancestry)

/-- The forest has an ancestor of the block. -/
def HasAncestor (hash : H) (forest : List (Node H N V)) : Prop :=
  ∃ node ∈ nodesOf forest, ancestry.before node.hash hash

/-- A node after a leaf was put into the forest: with its own hash, number and data, and below it
the leaf if it descends from the node. -/
def GrownFrom (leaf old node : Node H N V) : Prop :=
  node.hash = old.hash ∧ node.number = old.number ∧ node.data = old.data ∧
    ∀ hash, hash ∈ hashesOf node.children ↔
      hash ∈ hashesOf old.children ∨ hash = leaf.hash ∧ ancestry.before old.hash leaf.hash

/-- The forest after a leaf was put below its ancestors. -/
structure Grown (leaf : Node H N V) (forest after : List (Node H N V)) : Prop where
  entries : entriesOf after ~ leaf.entry :: entriesOf forest
  nodes : ∀ node ∈ nodesOf after, node = leaf ∨
    ∃ old ∈ nodesOf forest, GrownFrom ancestry leaf old node

variable {ancestry}

variable {leaf node : Node H N V} {hash : H} {after : List (Node H N V)}

namespace Grown

variable {leaf : Node H N V} {after rest : List (Node H N V)}

section

variable (grown : Grown ancestry leaf forest after)

include grown

theorem hashes : hashesOf after ~ leaf.hash :: hashesOf forest := by
  rw [← map_entriesOf, ← map_entriesOf]
  exact grown.entries.map Prod.fst

theorem append_right (apart : ¬ HasAncestor ancestry leaf.hash rest) :
    Grown ancestry leaf (forest ++ rest) (after ++ rest) := by
  refine ⟨?_, fun node member => ?_⟩
  · rw [entriesOf, nodesOf_append, map_append, entriesOf, nodesOf_append, map_append]
    exact grown.entries.append_right _
  · rw [nodesOf_append] at member ⊢
    rcases mem_append.mp member with mem | later
    · refine (grown.nodes node mem).imp_right fun moved => ?_
      exact moved.imp fun old both => ⟨mem_append_left _ both.1, both.2⟩
    · exact .inr ⟨node, mem_append_right _ later, rfl, rfl, rfl, fun _ => ⟨.inl, fun either =>
        either.resolve_right fun both => apart ⟨node, later, both.2⟩⟩⟩

theorem append_left (apart : ¬ HasAncestor ancestry leaf.hash rest) :
    Grown ancestry leaf (rest ++ forest) (rest ++ after) := by
  obtain ⟨entries, nodes⟩ := grown.append_right apart
  have swapped : nodesOf (rest ++ forest) ~ nodesOf (forest ++ rest) :=
    nodesOf_perm perm_append_comm
  have after_swapped : nodesOf (rest ++ after) ~ nodesOf (after ++ rest) :=
    nodesOf_perm perm_append_comm
  refine ⟨?_, fun node mem => ?_⟩
  · exact (after_swapped.map _).trans (entries.trans ((swapped.map _).symm.cons _))
  · refine (nodes node (after_swapped.subset mem)).imp_right fun ⟨old, found, from_old⟩ => ?_
    exact ⟨old, swapped.symm.subset found, from_old⟩

end

end Grown

theorem Grown.deeper (grown : Grown ancestry leaf node.children after)
    (before : ancestry.before node.hash leaf.hash) :
    Grown ancestry leaf [node] [{ node with children := after }] := by
  refine ⟨?_, fun other mem => ?_⟩
  · rw [entriesOf, nodesOf_singleton, entriesOf, nodesOf_singleton]
    exact (grown.entries.cons node.entry).trans (.swap _ _ _)
  · rw [nodesOf_singleton] at mem ⊢
    rcases mem_cons.mp mem with rfl | below
    · refine .inr ⟨node, mem_cons_self, rfl, rfl, rfl, fun hash => ?_⟩
      rw [grown.hashes.mem_iff, mem_cons, or_comm, and_iff_left before]
    · refine (grown.nodes other below).imp_right fun moved => ?_
      exact moved.imp fun old both => ⟨mem_cons_of_mem _ both.1, both.2⟩

theorem Grown.push (empty : leaf.children = []) (apart : ¬ HasAncestor ancestry leaf.hash forest) :
    Grown ancestry leaf forest (forest ++ [leaf]) := by
  have grown : Grown ancestry leaf [] [leaf] := by
    refine ⟨?_, fun node mem => ?_⟩
    · rw [entriesOf, nodesOf_singleton, empty]
      exact .refl _
    · rw [nodesOf_singleton, empty] at mem
      exact .inl (mem_singleton.mp mem)
  have pushed := grown.append_left apart
  rwa [append_nil] at pushed

theorem Mirrors.grown {data : V} (mirrors : Mirrors ancestry forest)
    (absent : hash ∉ hashesOf forest)
    (last : ∀ other ∈ hashesOf forest, ¬ ancestry.before hash other)
    (grown : Grown ancestry ⟨hash, ancestry.number hash, data, []⟩ forest after) :
    Mirrors ancestry after := by
  refine ⟨?_, fun node member => ?_, fun node member other present => ?_⟩
  · rw [grown.hashes.nodup_iff]
    exact nodup_cons.mpr ⟨absent, mirrors.distinct⟩
  · rcases grown.nodes node member with rfl | ⟨old, found, same, number, _⟩
    · rfl
    · rw [number, same]
      exact mirrors.numbers old found
  · have either := mem_cons.mp (grown.hashes.subset present)
    rcases grown.nodes node member with rfl | ⟨old, found, same, _, _, below⟩
    · refine ⟨fun mem => absurd mem not_mem_nil, fun before => ?_⟩
      rcases either with rfl | mem
      · exact absurd before (ancestry.irrefl _)
      · exact absurd before (last other mem)
    · rw [below, same]
      rcases either with rfl | mem
      · refine ⟨fun cases => ?_, fun before => .inr ⟨rfl, before⟩⟩
        rcases cases with mem | ⟨_, before⟩
        · exact absurd (((children_sublist found).map Node.hash).subset mem) absent
        · exact before
      · rw [mirrors.below_iff old found other mem]
        refine ⟨fun cases => cases.elim id ?_, .inl⟩
        rintro ⟨rfl, _⟩
        exact absurd mem absent

section

variable [DecidableEq H] {hash : H} {data : V}

variable {node : Node H N V}

theorem importBelow_eq {isDescendentOf : H → H → Except E Bool} {number : N}
    (differ : node.hash ≠ hash) (above : ¬ number ≤ node.number) :
    node.importBelow isDescendentOf hash number data =
      match importAmong isDescendentOf hash number data node.children with
      | (children, .error error) => ({ node with children }, .error error)
      | (children, .ok true) => ({ node with children }, .ok true)
      | (children, .ok false) =>
        match isDescendentOf node.hash hash with
        | .error error => ({ node with children }, .error (.client error))
        | .ok true => ({ node with children := children ++ [⟨hash, number, data, []⟩] }, .ok true)
        | .ok false => ({ node with children }, .ok false) := by
  cases node
  rewrite [Node.importBelow, if_neg differ, if_neg above]
  rfl

theorem importBelow_new (mirrors : Mirrors ancestry [node]) (absent : hash ∉ hashesOf [node])
    (children : ¬ HasAncestor ancestry hash node.children ∧
        importAmong (query E ancestry) hash (ancestry.number hash) data node.children =
          (node.children, .ok false) ∨
      HasAncestor ancestry hash node.children ∧ ∃ after,
        importAmong (query E ancestry) hash (ancestry.number hash) data node.children =
          (after, .ok true) ∧
        Grown ancestry ⟨hash, ancestry.number hash, data, []⟩ node.children after) :
    ¬ HasAncestor ancestry hash [node] ∧
        node.importBelow (query E ancestry) hash (ancestry.number hash) data = (node, .ok false) ∨
      HasAncestor ancestry hash [node] ∧ ∃ after,
        node.importBelow (query E ancestry) hash (ancestry.number hash) data = (after, .ok true) ∧
        Grown ancestry ⟨hash, ancestry.number hash, data, []⟩ [node] [after] := by
  have here : node ∈ nodesOf [node] := root_mem mem_cons_self
  have differ : node.hash ≠ hash := fun same => absent (same ▸ hash_mem here)
  have ancestor_cases : HasAncestor ancestry hash [node] ↔
      ancestry.before node.hash hash ∨ HasAncestor ancestry hash node.children := by
    unfold HasAncestor
    rw [nodesOf_singleton]
    simp only [mem_cons, exists_eq_or_imp]
  by_cases high : ancestry.number hash ≤ node.number
  · -- the search stops at the number of the node, which is an ancestor's only if the node is below
    rw [mirrors.numbers node here] at high
    have apart : ¬ ancestry.before node.hash hash := fun before =>
      absurd (ancestry.number_lt before) (not_lt.mpr high)
    refine .inl ⟨fun found => ?_, ?_⟩
    · rcases ancestor_cases.mp found with before | ⟨other, mem, before⟩
      · exact apart before
      · exact apart (ancestry.trans (mirrors.before_child here mem) before)
    · rw [← mirrors.numbers node here] at high
      cases node
      rw [Node.importBelow, if_neg differ, if_pos high]
  · rw [importBelow_eq differ high]
    rcases children with ⟨apart, unchanged⟩ | ⟨found, after, inserted, grown⟩
    · rw [unchanged]
      by_cases before : ancestry.before node.hash hash
      · refine .inr ⟨ancestor_cases.mpr (.inl before), _, ?_, (Grown.push rfl apart).deeper before⟩
        simp only [query, before]
      · refine .inl ⟨fun found => (ancestor_cases.mp found).elim before apart, ?_⟩
        simp only [query, Bool.not_eq_true] at before ⊢
        rw [before]
        cases node
        rfl
    · rw [inserted]
      obtain ⟨other, mem, other_before⟩ := found
      exact .inr ⟨ancestor_cases.mpr (.inr ⟨other, mem, other_before⟩), _, rfl,
        grown.deeper (ancestry.trans (mirrors.before_child here mem) other_before)⟩

theorem importAmong_new (E : Type) (data : V) (mirrors : Mirrors ancestry forest)
    (absent : hash ∉ hashesOf forest) :
    ¬ HasAncestor ancestry hash forest ∧
        importAmong (query E ancestry) hash (ancestry.number hash) data forest =
          (forest, .ok false) ∨
      HasAncestor ancestry hash forest ∧ ∃ after,
        importAmong (query E ancestry) hash (ancestry.number hash) data forest =
          (after, .ok true) ∧
        Grown ancestry ⟨hash, ancestry.number hash, data, []⟩ forest after := by
  induction forest using forest_induction with
  | nil =>
    refine .inl ⟨?_, rfl⟩
    rintro ⟨node, mem, _⟩
    cases mem
  | cons node rest below later =>
    have here : node ∈ nodesOf (node :: rest) := root_mem mem_cons_self
    have absent_split : hash ∉ hashesOf ([node] ++ rest) := absent
    rw [hashesOf_append, mem_append, not_or] at absent_split
    have children_absent : hash ∉ hashesOf node.children := by
      have node_absent := absent_split.1
      rw [hashesOf_singleton, mem_cons, not_or] at node_absent
      exact node_absent.2
    have split : HasAncestor ancestry hash (node :: rest) ↔
        HasAncestor ancestry hash [node] ∨ HasAncestor ancestry hash rest := by
      unfold HasAncestor
      change (∃ other ∈ nodesOf ([node] ++ rest), _) ↔ _
      rw [nodesOf_append]
      simp only [mem_append, or_and_right, exists_or]
    rw [importAmong]
    rcases importBelow_new mirrors.head absent_split.1
      (below (mirrors.children here) children_absent) with
      ⟨apart, unchanged⟩ | ⟨found, after, inserted, grown⟩
    · rw [unchanged]
      rcases later mirrors.tail absent_split.2 with
        ⟨rest_apart, rest_unchanged⟩ | ⟨found, after, inserted, grown⟩
      · refine .inl ⟨fun found => (split.mp found).elim apart rest_apart, ?_⟩
        rw [rest_unchanged]
      · refine .inr ⟨split.mpr (.inr found), node :: after, ?_, grown.append_left apart⟩
        rw [inserted]
    · rw [inserted]
      refine .inr ⟨split.mpr (.inl found), after :: rest, rfl, grown.append_right ?_⟩
      rintro ⟨other, later, other_before⟩
      obtain ⟨above, mem, before⟩ := found
      exact mirrors.apart mem later (ancestry.chain before other_before)

theorem importAmong_present (E : Type) (mirrors : Mirrors ancestry forest)
    (present : hash ∈ hashesOf forest) :
    importAmong (query E ancestry) hash (ancestry.number hash) data forest =
      (forest, .error .duplicate) := by
  induction forest using forest_induction with
  | nil => cases present
  | cons node rest below later =>
    have here : node ∈ nodesOf (node :: rest) := root_mem mem_cons_self
    rw [importAmong]
    by_cases mem : hash ∈ hashesOf [node]
    · have duplicate : node.importBelow (query E ancestry) hash (ancestry.number hash) data =
          (node, .error .duplicate) := by
        by_cases same : node.hash = hash
        · cases node
          rw [Node.importBelow, if_pos same]
        · rw [hashesOf_singleton, mem_cons] at mem
          have lower := mem.resolve_left (Ne.symm same)
          have before := (mirrors.below_iff node here hash present).mp lower
          have above : ¬ ancestry.number hash ≤ node.number := by
            rw [mirrors.numbers node here, not_le]
            exact ancestry.number_lt before
          rw [importBelow_eq same above, below (mirrors.children here) lower]
          cases node
          rfl
      rw [duplicate]
    · have outside : ¬ HasAncestor ancestry hash [node] := by
        rintro ⟨other, member, before⟩
        have there : other ∈ nodesOf (node :: rest) :=
          (nodesOf_sublist (sublist_append_left [node] rest)).subset member
        have lower := (mirrors.below_iff other there hash present).mpr before
        exact mem (((children_sublist member).map Node.hash).subset lower)
      have children_absent : hash ∉ hashesOf node.children := by
        rw [hashesOf_singleton, mem_cons, not_or] at mem
        exact mem.2
      rcases importBelow_new mirrors.head mem
        (importAmong_new E data (mirrors.children here) children_absent) with
        ⟨_, unchanged⟩ | ⟨found, _⟩
      · have split : hash ∈ hashesOf ([node] ++ rest) := present
        rw [hashesOf_append, mem_append] at split
        rw [unchanged, later mirrors.tail (split.resolve_left mem)]
      · exact absurd found outside

end

end

end Brace.ForkTree
