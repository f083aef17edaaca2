import Brace.Lib.Ancestry

/-!
# The fork tree

`ForkTree` of `utils/fork-tree`: the blocks of several branches that are not finalized yet. The
functions take the query for ancestry as a parameter, which may fail. A function that changes the
tree returns the tree after it together with its result, so that an error shows what it left behind.
-/

namespace Brace.ForkTree

open Brace.Lib List

/-- `Error` -/
inductive Error (E : Type) where
  | duplicate
  | unfinalizedAncestor
  | revert
  | client (error : E)
  deriving DecidableEq, Repr

/-- `FinalizationResult` -/
inductive FinalizationResult (V : Type) where
  | changed (data : Option V)
  | unchanged
  deriving DecidableEq, Repr

/-- `Node` -/
structure Node (H N V : Type) where
  hash : H
  number : N
  data : V
  children : List (Node H N V)

/-- `FindOutcome` -/
inductive FindOutcome (T : Type) where
  | found (value : T)
  | failure (isDescendent : Bool)
  | abort

/-- `ForkTree` -/
structure Tree (H N V : Type) where
  roots : List (Node H N V)
  bestFinalizedNumber : Option N

variable {H N V E : Type}

/-! ## Nodes -/

mutual

def Node.nodes : Node H N V → List (Node H N V)
  | ⟨hash, number, data, children⟩ => ⟨hash, number, data, children⟩ :: nodesOf children

def nodesOf : List (Node H N V) → List (Node H N V)
  | [] => []
  | node :: rest => node.nodes ++ nodesOf rest

end

theorem nodes_eq (node : Node H N V) : node.nodes = node :: nodesOf node.children := by
  cases node
  rfl

@[simp]
theorem nodesOf_append (left right : List (Node H N V)) :
    nodesOf (left ++ right) = nodesOf left ++ nodesOf right := by
  induction left with
  | nil => rfl
  | cons node rest ih =>
    change node.nodes ++ nodesOf (rest ++ right) = node.nodes ++ nodesOf rest ++ nodesOf right
    rw [ih, append_assoc]

/-- What is left behind position `idx` by `swap_remove(idx)`: the last root takes the place of the
removed one. -/
def swapRemoved (rest : List (Node H N V)) : List (Node H N V) :=
  match rest.getLast? with
  | none => []
  | some last => last :: rest.dropLast

theorem swapRemoved_perm (rest : List (Node H N V)) : (swapRemoved rest).Perm rest := by
  unfold swapRemoved
  cases found : rest.getLast? with
  | none => rw [List.getLast?_eq_none_iff.mp found]
  | some last =>
    have split := dropLast_append_getLast? last (by rw [found]; rfl)
    calc
      (last :: rest.dropLast).Perm (rest.dropLast ++ [last]) := (perm_append_singleton _ _).symm
      _ = rest := split

theorem nodesOf_perm {left right : List (Node H N V)} (perm : left.Perm right) :
    (nodesOf left).Perm (nodesOf right) := by
  induction perm with
  | nil => exact .nil
  | cons node _ ih => exact ih.append_left node.nodes
  | swap first second rest =>
    change (second.nodes ++ (first.nodes ++ nodesOf rest)).Perm
      (first.nodes ++ (second.nodes ++ nodesOf rest))
    rw [← append_assoc, ← append_assoc]
    exact perm_append_comm.append_right _
  | trans _ _ first second => exact first.trans second

theorem nodesOf_length_lt (root : Node H N V) (rest : List (Node H N V)) :
    (nodesOf rest).length < (nodesOf (root :: rest)).length := by
  rw [nodesOf, nodes_eq, length_append, length_cons]
  omega

theorem nodesOf_opened_length_lt (root : Node H N V) (rest : List (Node H N V)) :
    (nodesOf (swapRemoved rest ++ root.children)).length < (nodesOf (root :: rest)).length := by
  rw [nodesOf_append, length_append, (nodesOf_perm (swapRemoved_perm rest)).length_eq, nodesOf,
    nodes_eq, length_append, length_cons]
  omega

/-! ## Balance -/

mutual

/-- `Node::max_depth` -/
def Node.maxDepth : Node H N V → Nat
  | ⟨_, _, _, children⟩ => maxDepths children + 1

/-- The loop of `Node::max_depth`. -/
def maxDepths : List (Node H N V) → Nat
  | [] => 0
  | node :: rest => max node.maxDepth (maxDepths rest)

end

/-- The order of `sort_by_key` with `Reverse(max_depth)`. -/
def Deeper (left right : Node H N V) : Prop := right.maxDepth ≤ left.maxDepth

instance : DecidableRel (Deeper (H := H) (N := N) (V := V)) := fun left right =>
  inferInstanceAs (Decidable (right.maxDepth ≤ left.maxDepth))

mutual

/-- `Node::rebalance`. The depth of a node does not depend on the order of its children, so that
they can be sorted after the recursion. -/
def Node.rebalance : Node H N V → Node H N V
  | ⟨hash, number, data, children⟩ =>
    ⟨hash, number, data, (rebalanceEach children).insertionSort Deeper⟩

/-- The loop of `rebalance`. -/
def rebalanceEach : List (Node H N V) → List (Node H N V)
  | [] => []
  | node :: rest => node.rebalance :: rebalanceEach rest

end

/-! ## Import -/

section

variable [DecidableEq H] [LinearOrder N]

section

variable (isDescendentOf : H → H → Except E Bool) (hash : H) (number : N) (data : V)

mutual

/-- `Node::import`: `false` when the block is handed back (`Some` in the source). -/
def Node.importBelow : Node H N V → Node H N V × Except (Error E) Bool
  | ⟨here, height, value, children⟩ =>
    if here = hash then (⟨here, height, value, children⟩, .error .duplicate)
    else if number ≤ height then (⟨here, height, value, children⟩, .ok false)
    else
      match importAmong children with
      | (children, .error error) => (⟨here, height, value, children⟩, .error error)
      | (children, .ok true) => (⟨here, height, value, children⟩, .ok true)
      | (children, .ok false) =>
        match isDescendentOf here hash with
        | .error error => (⟨here, height, value, children⟩, .error (.client error))
        | .ok true => (⟨here, height, value, children ++ [⟨hash, number, data, []⟩]⟩, .ok true)
        | .ok false => (⟨here, height, value, children⟩, .ok false)

/-- The loop of `Node::import` over the children. -/
def importAmong : List (Node H N V) → List (Node H N V) × Except (Error E) Bool
  | [] => ([], .ok false)
  | node :: rest =>
    match node.importBelow with
    | (node, .error error) => (node :: rest, .error error)
    | (node, .ok true) => (node :: rest, .ok true)
    | (node, .ok false) =>
      let (rest, result) := importAmong rest
      (node :: rest, result)

end

end

variable (self : Tree H N V)

variable (isDescendentOf : H → H → Except E Bool)

namespace Tree

/-- `new` -/
def new : Tree H N V := ⟨[], none⟩

/-- `rebalance` -/
def rebalance : Tree H N V :=
  { self with roots := (rebalanceEach self.roots).insertionSort Deeper }

/-- The check at the start of `import` and of the finalizations. -/
def Reverts (number : N) : Prop :=
  ∃ best ∈ self.bestFinalizedNumber, number ≤ best

instance (self : Tree H N V) (number : N) : Decidable (self.Reverts number) :=
  inferInstanceAs (Decidable (∃ best ∈ self.bestFinalizedNumber, number ≤ best))

/-- `import`. The loop over the roots compares the hash of each root before `Node::import` does so
again, and is otherwise the loop over the children of a node. -/
def importBlock (hash : H) (number : N) (data : V) : Tree H N V × Except (Error E) Bool :=
  if self.Reverts number then (self, .error .revert)
  else
    match importAmong isDescendentOf hash number data self.roots with
    | (roots, .error error) => ({ self with roots }, .error error)
    | (roots, .ok true) => ({ self with roots }, .ok false)
    | (roots, .ok false) =>
      (rebalance { self with roots := roots ++ [⟨hash, number, data, []⟩] }, .ok true)

end Tree

/-! ## Finalization -/

/-- A loop that asks for each node that passes a test whether it is an ancestor of the block. -/
def anyAncestor (hash : H) (test : Node H N V → Bool) :
    List (Node H N V) → Except (Error E) Bool
  | [] => .ok false
  | node :: rest =>
    if test node then
      match isDescendentOf node.hash hash with
      | .error error => .error (.client error)
      | .ok true => .ok true
      | .ok false => anyAncestor hash test rest
    else anyAncestor hash test rest

/-- `unwrap_or(false)` -/
def orFalse : Except E Bool → Bool
  | .ok answer => answer
  | .error _ => false

namespace Tree

/-- `finalize_root` and `finalize_root_at` -/
def finalizeRoot (hash : H) : Tree H N V × Option V :=
  match self.roots.find? (·.hash = hash) with
  | none => (self, none)
  | some node => (⟨node.children, some node.number⟩, some node.data)

/-- The result of a finalization that kept the roots that pass a test. -/
def retainResult (roots : List (Node H N V)) (retain : Node H N V → Bool) : FinalizationResult V :=
  if roots.all retain then .unchanged else .changed none

/-- `finalize` -/
def finalize (hash : H) (number : N) : Tree H N V × Except (Error E) (FinalizationResult V) :=
  if self.Reverts number then (self, .error .revert)
  else
    match self.finalizeRoot hash with
    | (self, some root) => (self, .ok (.changed (some root)))
    | (self, none) =>
      match anyAncestor isDescendentOf hash (fun root => decide (root.number < number))
          self.roots with
      | .error error => (self, .error error)
      | .ok true => (self, .error .unfinalizedAncestor)
      | .ok false =>
        let retain := fun root : Node H N V =>
          decide (number < root.number) && orFalse (isDescendentOf hash root.hash)
        (⟨self.roots.filter retain, some number⟩, .ok (retainResult self.roots retain))

/-- The loop of `finalize_with_ancestors`: the kept roots before `idx`, and the others. -/
def openAncestors (hash : H) (number : N) (kept : List (Node H N V)) (changed : Bool) :
    List (Node H N V) → Tree H N V × FinalizationResult V
  | [] => (⟨kept, some number⟩, if changed then .changed none else .unchanged)
  | root :: rest =>
    if root.hash = hash then (⟨root.children, some root.number⟩, .changed (some root.data))
    else if number < root.number && orFalse (isDescendentOf hash root.hash) then
      openAncestors hash number (kept ++ [root]) changed rest
    else if root.number < number && orFalse (isDescendentOf root.hash hash) then
      openAncestors hash number kept true (swapRemoved rest ++ root.children)
    else openAncestors hash number kept true (swapRemoved rest)
termination_by roots => (nodesOf roots).length
decreasing_by
  · exact nodesOf_length_lt root rest
  · exact nodesOf_opened_length_lt root rest
  · rw [(nodesOf_perm (swapRemoved_perm rest)).length_eq]
    exact nodesOf_length_lt root rest

/-- `finalize_with_ancestors` -/
def finalizeWithAncestors (hash : H) (number : N) :
    Tree H N V × Except (Error E) (FinalizationResult V) :=
  if self.Reverts number then (self, .error .revert)
  else
    match self.finalizeRoot hash with
    | (self, some root) => (self, .ok (.changed (some root)))
    | (self, none) =>
      let (self, result) := openAncestors isDescendentOf hash number [] false self.roots
      (self, .ok result)

/-- The loop of `finalize_with_descendent_if` that looks for the root to finalize. -/
def selectRoot (hash : H) (number : N) (predicate : V → Bool) :
    List (Node H N V) → Except (Error E) (Option (Node H N V))
  | [] => .ok none
  | root :: rest =>
    if predicate root.data then
      match if root.hash = hash then .ok true else isDescendentOf root.hash hash with
      | .error error => .error (.client error)
      | .ok false => selectRoot hash number predicate rest
      | .ok true =>
        match anyAncestor isDescendentOf hash (fun node => decide (node.number ≤ number))
            root.children with
        | .error error => .error error
        | .ok true => .error .unfinalizedAncestor
        | .ok false => .ok (some root)
    else selectRoot hash number predicate rest

/-- `node_iter`: in pre-order. The stack of the iterator starts with the roots, so that the last
root comes first. -/
def nodeIter : List (Node H N V) := nodesOf self.roots.reverse

/-- `finalizes_any_with_descendent_if`: the loop of `finalize_with_descendent_if` over all nodes. -/
def finalizesAnyWithDescendentIf (hash : H) (number : N) (predicate : V → Bool) :
    Except (Error E) (Option Bool) :=
  if self.Reverts number then .error .revert
  else
    match selectRoot isDescendentOf hash number predicate self.nodeIter with
    | .error error => .error error
    | .ok none => .ok none
    | .ok (some node) => .ok (some (self.roots.any fun root => decide (root.hash = node.hash)))

/-- The roots that `finalize_with_descendent_if` retains. -/
def retains (hash : H) (number : N) (root : Node H N V) : Bool :=
  decide (number < root.number) && orFalse (isDescendentOf hash root.hash) ||
    decide (root.number = number) && decide (root.hash = hash) ||
    orFalse (isDescendentOf root.hash hash)

/-- `finalize_with_descendent_if` -/
def finalizeWithDescendentIf (hash : H) (number : N) (predicate : V → Bool) :
    Tree H N V × Except (Error E) (FinalizationResult V) :=
  if self.Reverts number then (self, .error .revert)
  else
    match selectRoot isDescendentOf hash number predicate self.roots with
    | .error error => (self, .error error)
    | .ok position =>
      let roots := match position with
        | some node => node.children
        | none => self.roots
      let retain := retains isDescendentOf hash number
      (⟨roots.filter retain, some number⟩, .ok (match position with
        | some node => .changed (some node.data)
        | none => retainResult roots retain))

end Tree

/-! ## Search -/

section

variable (isDescendentOf : H → H → Except E Bool) (hash : H) (number : N) (predicate : V → Bool)

mutual

/-- `Node::find_node_where`. The source first collects the indices on the way to the node
(`find_node_index_where`) and then follows them; here the search returns the node itself. -/
def Node.findNodeWhere : Node H N V → Except (Error E) (FindOutcome (Node H N V))
  | ⟨here, height, value, children⟩ =>
    if number < height then .ok (.failure false)
    else
      match findNodeAmong children with
      | .error error => .error error
      | .ok .abort => .ok .abort
      | .ok (.found node) => .ok (.found node)
      | .ok (.failure known) =>
        match if known then .ok true else isDescendentOf here hash with
        | .error error => .error (.client error)
        | .ok isDescendent =>
          if isDescendent && predicate value then .ok (.found ⟨here, height, value, children⟩)
          else .ok (.failure isDescendent)

/-- The loop of `find_node_index_where` over the children. It ends early with `failure true` when a
child is an ancestor that fails the predicate. -/
def findNodeAmong : List (Node H N V) → Except (Error E) (FindOutcome (Node H N V))
  | [] => .ok (.failure false)
  | node :: rest =>
    match node.findNodeWhere with
    | .error error => .error error
    | .ok .abort => .ok .abort
    | .ok (.found node) => .ok (.found node)
    | .ok (.failure true) => .ok (.failure true)
    | .ok (.failure false) => findNodeAmong rest

end

mutual

/-- `Node::find_node_index_where`: the indices on the way to the node, as a stack. -/
def Node.findNodeIndexWhere : Node H N V → Except (Error E) (FindOutcome (List Nat))
  | ⟨here, height, value, children⟩ =>
    if number < height then .ok (.failure false)
    else
      match findIndexAmong 0 children with
      | .error error => .error error
      | .ok .abort => .ok .abort
      | .ok (.found indexes) => .ok (.found indexes)
      | .ok (.failure known) =>
        match if known then .ok true else isDescendentOf here hash with
        | .error error => .error (.client error)
        | .ok isDescendent =>
          if isDescendent && predicate value then .ok (.found []) else .ok (.failure isDescendent)

/-- The loop of `find_node_index_where` over the children, from the index `i` on. -/
def findIndexAmong (i : Nat) : List (Node H N V) → Except (Error E) (FindOutcome (List Nat))
  | [] => .ok (.failure false)
  | node :: rest =>
    match node.findNodeIndexWhere with
    | .error error => .error error
    | .ok .abort => .ok .abort
    | .ok (.found indexes) => .ok (.found (i :: indexes))
    | .ok (.failure true) => .ok (.failure true)
    | .ok (.failure false) => findIndexAmong (i + 1) rest

end

end

/-- The loop that follows the indices from a node: `none` for an index out of bounds. -/
def Node.follow : Node H N V → List Nat → Option (Node H N V)
  | node, [] => some node
  | node, i :: indexes => node.children[i]?.bind fun child => child.follow indexes

namespace Tree

/-- The loop of `find_node_where_mut` over the roots. -/
def findNodeFromMut (hash : H) (number : N) (predicate : V → Bool) :
    List (Node H N V) → Except (Error E) (Option (Option (Node H N V)))
  | [] => .ok none
  | root :: rest =>
    match root.findNodeIndexWhere isDescendentOf hash number predicate with
    | .error error => .error error
    | .ok (.found indexes) => .ok (some (root.follow indexes))
    | .ok _ => findNodeFromMut hash number predicate rest

/-- `find_node_where_mut` -/
def findNodeWhereMut (hash : H) (number : N) (predicate : V → Bool) :
    Except (Error E) (Option (Option (Node H N V))) :=
  findNodeFromMut isDescendentOf hash number predicate self.roots

/-- The loop of `find_node_where` over the roots. -/
def findNodeFrom (hash : H) (number : N) (predicate : V → Bool) :
    List (Node H N V) → Except (Error E) (Option (Node H N V))
  | [] => .ok none
  | root :: rest =>
    match root.findNodeWhere isDescendentOf hash number predicate with
    | .error error => .error error
    | .ok (.found node) => .ok (some node)
    | .ok _ => findNodeFrom hash number predicate rest

/-- `find_node_where` -/
def findNodeWhere (hash : H) (number : N) (predicate : V → Bool) :
    Except (Error E) (Option (Node H N V)) :=
  findNodeFrom isDescendentOf hash number predicate self.roots

/-- `prune` -/
def prune (hash : H) (number : N) (predicate : V → Bool) : Tree H N V × Except (Error E) Unit :=
  match self.findNodeWhere isDescendentOf hash number predicate with
  | .error error => (self, .error error)
  | .ok none => (self.rebalance, .ok ())
  | .ok (some root) =>
    let children := root.children.filter fun node =>
      decide (node.number = number) && decide (node.hash = hash) ||
        decide (node.number < number) && orFalse (isDescendentOf node.hash hash)
    (rebalance { self with roots := [{ root with children := children.take 1 }] }, .ok ())

end Tree

end

end Brace.ForkTree
