import Brace.ForkTree.Tree

/-!
# Nodes and hashes of a forest

Induction over forests, the nodes and hashes of parts of a forest, and what `rebalance` leaves as it
is.
-/

namespace Brace.ForkTree

open List

variable {H N V : Type}

/-! ## Forests -/

/-- Induction over a forest: over the children of the first tree and over the other trees. -/
theorem forest_induction {motive : List (Node H N V) → Prop} (nil : motive [])
    (cons : ∀ node rest, motive node.children → motive rest → motive (node :: rest))
    (forest : List (Node H N V)) : motive forest :=
  @Node.rec_1 H N V (fun node => motive node.children) motive (fun _ _ _ _ children => children) nil
    cons forest

def hashesOf (forest : List (Node H N V)) : List H := (nodesOf forest).map Node.hash

variable (node : Node H N V)

/-- What a node says about its block. -/
def Node.entry : H × N × V := (node.hash, node.number, node.data)

/-- The blocks of a forest with their numbers and data. -/
def entriesOf (forest : List (Node H N V)) : List (H × N × V) := (nodesOf forest).map Node.entry

theorem map_entriesOf (forest : List (Node H N V)) :
    (entriesOf forest).map Prod.fst = hashesOf forest := by
  rw [entriesOf, map_map]
  rfl

theorem nodesOf_cons (rest : List (Node H N V)) :
    nodesOf (node :: rest) = node :: (nodesOf node.children ++ nodesOf rest) := by
  rw [nodesOf, nodes_eq, cons_append]

theorem hashesOf_append (left right : List (Node H N V)) :
    hashesOf (left ++ right) = hashesOf left ++ hashesOf right := by
  rw [hashesOf, nodesOf_append, map_append]
  rfl

theorem nodesOf_singleton : nodesOf [node] = node :: nodesOf node.children := by
  rw [nodesOf_cons, nodesOf, append_nil]

theorem hashesOf_singleton : hashesOf [node] = node.hash :: hashesOf node.children := by
  rw [hashesOf, nodesOf_singleton, map_cons]
  rfl

variable {node : Node H N V} {forest : List (Node H N V)}

theorem hash_mem (mem : node ∈ nodesOf forest) :
    node.hash ∈ hashesOf forest := List.mem_map_of_mem mem

theorem root_mem (mem : node ∈ forest) : node ∈ nodesOf forest := by
  induction forest with
  | nil => cases mem
  | cons first rest ih =>
    rw [nodesOf_cons]
    rcases mem_cons.mp mem with rfl | later
    · exact mem_cons_self
    · exact mem_cons_of_mem _ (mem_append_right _ (ih later))

theorem children_sublist
    (member : node ∈ nodesOf forest) : nodesOf node.children <+ nodesOf forest := by
  induction forest using forest_induction with
  | nil => cases member
  | cons first rest below later =>
    rw [nodesOf_cons] at member ⊢
    rcases mem_cons.mp member with rfl | member
    · exact (sublist_append_left _ _).cons _
    · rcases mem_append.mp member with mem | after
      · exact ((below mem).trans (sublist_append_left _ _)).cons _
      · exact ((later after).trans (sublist_append_right _ _)).cons _

theorem nodesOf_sublist {kept : List (Node H N V)} (sublist : kept <+ forest) :
    nodesOf kept <+ nodesOf forest := by
  induction sublist with
  | slnil => exact .slnil
  | cons node _ ih => exact ih.trans (sublist_append_right _ _)
  | cons_cons node _ ih => exact (List.Sublist.refl node.nodes).append ih

/-! ## Balance -/

variable (node)

theorem rebalance_children :
    node.rebalance.children = (rebalanceEach node.children).insertionSort Deeper := by
  cases node
  rfl

@[simp]
theorem rebalance_hash : node.rebalance.hash = node.hash := by
  cases node
  rfl

@[simp]
theorem rebalance_number : node.rebalance.number = node.number := by
  cases node
  rfl

variable {node}

variable (forest : List (Node H N V))

theorem nodesOf_rebalanceEach :
    nodesOf (rebalanceEach forest) ~ (nodesOf forest).map Node.rebalance := by
  induction forest using forest_induction with
  | nil => exact .nil
  | cons node rest below later =>
    rw [rebalanceEach, nodesOf_cons, nodesOf_cons, map_cons, map_append, rebalance_children]
    exact (((nodesOf_perm (perm_insertionSort _ _)).trans below).append later).cons _

theorem entriesOf_rebalance :
    entriesOf ((rebalanceEach forest).insertionSort Deeper) ~ entriesOf forest := by
  have perm := ((nodesOf_perm (perm_insertionSort Deeper (rebalanceEach forest))).trans
    (nodesOf_rebalanceEach forest)).map Node.entry
  rw [map_map] at perm
  have entries : Node.entry ∘ Node.rebalance = (Node.entry : Node H N V → H × N × V) := by
    funext node
    cases node
    rfl
  rwa [entries] at perm

theorem hashesOf_rebalance :
    hashesOf ((rebalanceEach forest).insertionSort Deeper) ~ hashesOf forest := by
  rw [← map_entriesOf, ← map_entriesOf]
  exact (entriesOf_rebalance forest).map _

end Brace.ForkTree
