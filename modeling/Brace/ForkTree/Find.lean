import Brace.ForkTree.FinalizeIf

/-!
# What `find_node_where` finds

The query is answered with `true` for some nodes on one branch. A node is met when it or a node
below it is answered with `true`: the search knows this of a node from its children without asking
for it. `find_node_where` returns the deepest node that is met and that passes the predicate.
-/

namespace Brace.ForkTree

open Brace.Lib List

variable {H N V E : Type}

variable (asked : H → Bool)

/-- The query is answered with `true` for the node or for a node below it. -/
def Met (node : Node H N V) : Prop := ∃ other ∈ nodesOf [node], asked other.hash

/-- The query is answered with `true` in the forest. -/
def AnyAsked (forest : List (Node H N V)) : Prop :=
  ∃ node ∈ nodesOf forest, asked node.hash

theorem Met.anyAsked {asked : H → Bool} {forest : List (Node H N V)} {node : Node H N V}
    (met : Met asked node) (member : node ∈ nodesOf forest) : AnyAsked asked forest := by
  obtain ⟨other, mem, answered⟩ := met
  rw [nodesOf_singleton] at mem
  rcases mem_cons.mp mem with rfl | below
  · exact ⟨other, member, answered⟩
  · exact ⟨other, (children_sublist member).subset below, answered⟩

theorem met_iff {asked : H → Bool} {node : Node H N V} :
    Met asked node ↔ asked node.hash ∨ AnyAsked asked node.children := by
  unfold Met AnyAsked
  rw [nodesOf_singleton]
  simp only [mem_cons, exists_eq_or_imp]

/-- No node of the forest is met and passes the predicate. -/
abbrev NonePasses (predicate : V → Bool) (forest : List (Node H N V)) : Prop :=
  ∀ other ∈ nodesOf forest, Met asked other → ¬ predicate other.data

namespace NonePasses

variable {asked : H → Bool} {predicate : V → Bool} {left right : List (Node H N V)}

theorem of_not_anyAsked (unasked : ¬ AnyAsked asked left) : NonePasses asked predicate left :=
  fun _ mem met => absurd (met.anyAsked mem) unasked

theorem append (first : NonePasses asked predicate left)
    (second : NonePasses asked predicate right) : NonePasses asked predicate (left ++ right) := by
  intro other mem met
  rw [nodesOf_append, mem_append] at mem
  rcases mem with in_left | in_right
  · exact first other in_left met
  · exact second other in_right met

end NonePasses

section

variable [LinearOrder N] {ancestry : Ancestry H N} {forest : List (Node H N V)}
  {asked : H → Bool} {predicate : V → Bool} {number : N}

/-- The query is answered with `true` only on one branch and not above a number. -/
structure OneBranch (ancestry : Ancestry H N) (asked : H → Bool) (number : N) : Prop where
  related : ∀ {left right}, asked left → asked right → ancestry.Related left right
  low : ∀ {hash}, asked hash → ancestry.number hash ≤ number

/-- The node is the deepest one of the forest that is met and passes the predicate. -/
abbrev IsDeepest (ancestry : Ancestry H N) (asked : H → Bool) (predicate : V → Bool)
    (forest : List (Node H N V)) (node : Node H N V) : Prop :=
  node ∈ nodesOf forest ∧ Met asked node ∧ predicate node.data ∧
    ∀ other ∈ nodesOf forest, Met asked other → predicate other.data →
      ancestry.AtOrBefore other.hash node.hash

namespace IsDeepest

variable {left right : List (Node H N V)} {node : Node H N V}

theorem append_left (deepest : IsDeepest ancestry asked predicate left node)
    (fails : NonePasses asked predicate right) :
    IsDeepest ancestry asked predicate (left ++ right) node := by
  obtain ⟨member, met, passes, least⟩ := deepest
  simp only [IsDeepest, nodesOf_append, mem_append]
  refine ⟨.inl member, met, passes, fun other mem other_met good => ?_⟩
  rcases mem with in_left | in_right
  · exact least other in_left other_met good
  · exact absurd good (fails other in_right other_met)

theorem append_right (fails : NonePasses asked predicate left)
    (deepest : IsDeepest ancestry asked predicate right node) :
    IsDeepest ancestry asked predicate (left ++ right) node := by
  have swapped := deepest.append_left fails
  simp only [IsDeepest, (nodesOf_perm perm_append_comm).mem_iff] at swapped ⊢
  exact swapped

end IsDeepest

/-- The outcome of the search in a forest. -/
def Searched (ancestry : Ancestry H N) (asked : H → Bool) (predicate : V → Bool)
    (forest : List (Node H N V)) : FindOutcome (Node H N V) → Prop
  | .found node => node ∈ nodesOf forest ∧ Met asked node ∧ predicate node.data ∧
      ∀ other ∈ nodesOf forest, Met asked other → predicate other.data →
        ancestry.AtOrBefore other.hash node.hash
  | .failure true => AnyAsked asked forest ∧
      ∀ other ∈ nodesOf forest, Met asked other → ¬ predicate other.data
  | .failure false => ¬ AnyAsked asked forest
  | .abort => False

theorem Mirrors.asked_apart {left right : List (Node H N V)}
    (mirrors : Mirrors ancestry (left ++ right)) (branch : OneBranch ancestry asked number)
    (first : AnyAsked asked left) : ¬ AnyAsked asked right := by
  rintro ⟨other, later, other_asked⟩
  obtain ⟨node, mem, node_asked⟩ := first
  exact mirrors.apart mem later (branch.related node_asked other_asked)

theorem Searched.nonePasses {known : Bool}
    (searched : Searched ancestry asked predicate forest (.failure known)) :
    NonePasses asked predicate forest := by
  cases known with
  | true => exact searched.2
  | false => exact .of_not_anyAsked searched

theorem Searched.node {node : Node H N V} (mirrors : Mirrors ancestry [node])
    {outcome : FindOutcome (Node H N V)}
    (children : Searched ancestry asked predicate node.children outcome)
    {result : FindOutcome (Node H N V)} (result_eq : result = match outcome with
      | .abort => .abort
      | .found inner => .found inner
      | .failure known =>
        if (known || asked node.hash) && predicate node.data then .found node
        else .failure (known || asked node.hash)) :
    Searched ancestry asked predicate [node] result := by
  have here : node ∈ nodesOf [node] := root_mem mem_cons_self
  have nodes : ∀ other, other ∈ nodesOf [node] ↔ other = node ∨ other ∈ nodesOf node.children := by
    intro other
    rw [nodesOf_singleton, mem_cons]
  cases outcome with
  | abort => exact children.elim
  | found inner =>
    subst result_eq
    obtain ⟨member, met, passes, deepest⟩ := children
    refine ⟨(nodes inner).mpr (.inr member), met, passes, fun other mem other_met good => ?_⟩
    rcases (nodes other).mp mem with rfl | lower
    · exact .inr (mirrors.before_child here member)
    · exact deepest other lower other_met good
  | failure known =>
    have only : ∀ other ∈ nodesOf [node], Met asked other → predicate other.data → other = node :=
      fun other mem met good => ((nodes other).mp mem).resolve_right fun lower =>
        children.nonePasses other lower met good
    have node_met : Met asked node ↔ (known || asked node.hash) = true := by
      rw [met_iff, Bool.or_eq_true, or_comm]
      cases known with
      | true => exact or_congr_left (iff_of_true children.1 rfl)
      | false => exact or_congr_left (iff_of_false children (by decide))
    subst result_eq
    simp only
    cases answer : known || asked node.hash with
    | false => exact fun found => absurd (node_met.mp found) (by simp [answer])
    | true =>
      have met := node_met.mpr answer
      cases passes : predicate node.data with
      | true =>
        refine ⟨here, met, passes, fun other mem other_met good => .inl ?_⟩
        rw [only other mem other_met good]
      | false =>
        refine ⟨met.anyAsked here, fun other mem other_met good => ?_⟩
        rw [only other mem other_met good, passes] at good
        cases good

theorem Searched.cons {node : Node H N V} {rest : List (Node H N V)}
    (mirrors : Mirrors ancestry ([node] ++ rest)) (branch : OneBranch ancestry asked number)
    {first later : FindOutcome (Node H N V)} (here : Searched ancestry asked predicate [node] first)
    (there : Searched ancestry asked predicate rest later) :
    Searched ancestry asked predicate ([node] ++ rest) (match first with
      | .failure false => later
      | outcome => outcome) := by
  have any : AnyAsked asked ([node] ++ rest) ↔ AnyAsked asked [node] ∨ AnyAsked asked rest := by
    unfold AnyAsked
    simp only [nodesOf_append, mem_append, or_and_right, exists_or]
  cases first with
  | abort => exact here
  | found inner =>
    have outside := mirrors.asked_apart branch (here.2.1.anyAsked here.1)
    exact IsDeepest.append_left here (.of_not_anyAsked outside)
  | failure known =>
    cases known with
    | true =>
      have outside := mirrors.asked_apart branch here.1
      exact ⟨any.mpr (.inl here.1), here.nonePasses.append (.of_not_anyAsked outside)⟩
    | false =>
      cases later with
      | abort => exact there
      | found inner => exact IsDeepest.append_right here.nonePasses there
      | failure known =>
        cases known with
        | true => exact ⟨any.mpr (.inr there.1), here.nonePasses.append there.nonePasses⟩
        | false => exact fun found => (any.mp found).elim here there

variable {isDescendentOf : H → H → Except E Bool} {hash : H}

section

variable (branch : OneBranch ancestry asked number)

include branch

theorem OneBranch.not_anyAsked {node : Node H N V} (mirrors : Mirrors ancestry [node])
    (high : number < node.number) : ¬ AnyAsked asked [node] := by
  rintro ⟨other, mem, answered⟩
  have here : node ∈ nodesOf [node] := root_mem mem_cons_self
  have above := mirrors.root_atOrBefore mem_cons_self mem
  have low := branch.low answered
  rw [mirrors.numbers node here] at high
  rcases above with same | before
  · rw [same] at high
    exact absurd low (not_le.mpr high)
  · exact absurd low (not_le.mpr (high.trans (ancestry.number_lt before)))

variable (asks : ∀ base, isDescendentOf base hash = .ok (asked base))

include asks

theorem findNodeWhere_searched {node : Node H N V} (mirrors : Mirrors ancestry [node])
    (children : ∃ outcome, findNodeAmong isDescendentOf hash number predicate node.children =
      .ok outcome ∧ Searched ancestry asked predicate node.children outcome) :
    ∃ outcome, node.findNodeWhere isDescendentOf hash number predicate = .ok outcome ∧
      Searched ancestry asked predicate [node] outcome := by
  obtain ⟨outcome, ran, searched⟩ := children
  by_cases high : number < node.number
  · refine ⟨.failure false, ?_, branch.not_anyAsked mirrors high⟩
    cases node
    rw [Node.findNodeWhere, if_pos high]
  · refine ⟨_, ?_, searched.node mirrors rfl⟩
    cases node
    rw [Node.findNodeWhere, if_neg high, ran]
    cases outcome with
    | abort => rfl
    | found inner => rfl
    | failure known =>
      simp only [asks]
      cases known with
      | true =>
        simp only [if_true, Bool.true_or]
        split <;> rfl
      | false =>
        simp only [Bool.false_or, Bool.false_eq_true, if_false]
        split <;> rfl

theorem findNodeAmong_searched (mirrors : Mirrors ancestry forest) :
    ∃ outcome, findNodeAmong isDescendentOf hash number predicate forest = .ok outcome ∧
      Searched ancestry asked predicate forest outcome := by
  induction forest using forest_induction with
  | nil =>
    refine ⟨.failure false, rfl, ?_⟩
    rintro ⟨node, mem, _⟩
    cases mem
  | cons node rest below later =>
    have here : node ∈ nodesOf (node :: rest) := root_mem mem_cons_self
    obtain ⟨first, found, searched⟩ :=
      findNodeWhere_searched branch asks mirrors.head (below (mirrors.children here))
    obtain ⟨others, rest_found, rest_searched⟩ := later mirrors.tail
    refine ⟨_, ?_, searched.cons mirrors branch rest_searched⟩
    rw [findNodeAmong, found]
    cases first with
    | abort => rfl
    | found inner => rfl
    | failure known =>
      cases known with
      | true => rfl
      | false => exact rest_found

end

/-- The node that a search returns: the deepest one that is met and passes the predicate. -/
def Deepest (ancestry : Ancestry H N) (asked : H → Bool) (predicate : V → Bool)
    (forest : List (Node H N V)) : Option (Node H N V) → Prop
  | some node => node ∈ nodesOf forest ∧ Met asked node ∧ predicate node.data ∧
      ∀ other ∈ nodesOf forest, Met asked other → predicate other.data →
        ancestry.AtOrBefore other.hash node.hash
  | none => ∀ other ∈ nodesOf forest, Met asked other → ¬ predicate other.data

theorem OneBranch.before (ancestry : Ancestry H N) (hash : H) :
    OneBranch ancestry (ancestry.before · hash) (ancestry.number hash) :=
  ⟨fun left right => ancestry.chain left right, fun before => (ancestry.number_lt before).le⟩

/-- **`find_node_where` returns the deepest node that is met and passes the predicate.** -/
theorem Tree.findNodeWhere_deepest (branch : OneBranch ancestry asked number)
    (asks : ∀ base, isDescendentOf base hash = .ok (asked base)) {self : Tree H N V}
    (mirrors : Mirrors ancestry self.roots) (predicate : V → Bool) :
    ∃ result, self.findNodeWhere isDescendentOf hash number predicate = .ok result ∧
      Deepest ancestry asked predicate self.roots result := by
  obtain ⟨roots, best⟩ := self
  change Mirrors ancestry roots at mirrors
  change ∃ result, findNodeFrom isDescendentOf hash number predicate roots = .ok result ∧
    Deepest ancestry asked predicate roots result
  induction roots with
  | nil => exact ⟨none, rfl, fun other mem => absurd mem not_mem_nil⟩
  | cons node rest ih =>
    have here : node ∈ nodesOf (node :: rest) := root_mem mem_cons_self
    obtain ⟨first, found, searched⟩ := @findNodeWhere_searched _ _ _ _ _ _ _ predicate _ _ _ branch
      asks _ mirrors.head (findNodeAmong_searched branch asks (mirrors.children here))
    obtain ⟨others, rest_found, rest_deepest⟩ := ih mirrors.tail
    rw [findNodeFrom, found]
    cases first with
    | abort => exact searched.elim
    | found inner =>
      have split : Mirrors ancestry ([node] ++ rest) := mirrors
      have outside := split.asked_apart branch (searched.2.1.anyAsked searched.1)
      exact ⟨some inner, rfl, IsDeepest.append_left searched (.of_not_anyAsked outside)⟩
    | failure known =>
      refine ⟨others, rest_found, ?_⟩
      cases others with
      | none => exact searched.nonePasses.append rest_deepest
      | some inner => exact IsDeepest.append_right searched.nonePasses rest_deepest

end

/-! ## The search for indices -/

/-- The search for indices below a node agrees with the search for the node itself. -/
inductive Leads (node : Node H N V) : Except (Error E) (FindOutcome (List Nat)) →
    Except (Error E) (FindOutcome (Node H N V)) → Prop
  | error (error : Error E) : Leads node (.error error) (.error error)
  | found {indexes : List Nat} {target : Node H N V} (way : node.follow indexes = some target) :
      Leads node (.ok (.found indexes)) (.ok (.found target))
  | failure (known : Bool) : Leads node (.ok (.failure known)) (.ok (.failure known))
  | abort : Leads node (.ok .abort) (.ok .abort)

variable [LinearOrder N] (isDescendentOf : H → H → Except E Bool) (hash : H) (number : N)
  (predicate : V → Bool)

theorem Leads.node {node : Node H N V}
    (children : Leads node (findIndexAmong isDescendentOf hash number predicate 0 node.children)
      (findNodeAmong isDescendentOf hash number predicate node.children)) :
    Leads node (node.findNodeIndexWhere isDescendentOf hash number predicate)
      (node.findNodeWhere isDescendentOf hash number predicate) := by
  obtain ⟨here, height, value, below⟩ := node
  rw [Node.findNodeIndexWhere, Node.findNodeWhere]
  split
  · exact .failure false
  · revert children
    generalize findIndexAmong isDescendentOf hash number predicate 0 below = indexes
    generalize findNodeAmong isDescendentOf hash number predicate below = node
    intro children
    cases children with
    | error error => exact .error error
    | found way => exact .found way
    | abort => exact .abort
    | failure known =>
      dsimp only
      cases if known then .ok true else isDescendentOf here hash with
      | error error => exact .error _
      | ok isDescendent =>
        dsimp only
        split
        · exact .found rfl
        · exact .failure isDescendent

theorem findIndexAmong_leads {forest : List (Node H N V)} :
    ∀ (node : Node H N V) (seen : List (Node H N V)), node.children = seen ++ forest →
      Leads node (findIndexAmong isDescendentOf hash number predicate seen.length forest)
        (findNodeAmong isDescendentOf hash number predicate forest) := by
  induction forest using forest_induction with
  | nil => exact fun _ _ _ => .failure false
  | cons child rest below later =>
    intro node seen split
    have mem := Leads.node isDescendentOf hash number predicate (below child [] rfl)
    have after := later node (seen ++ [child]) (by rw [split, append_assoc]; rfl)
    rw [length_append, length_singleton] at after
    rw [findIndexAmong, findNodeAmong]
    revert mem
    generalize child.findNodeIndexWhere isDescendentOf hash number predicate = indexes
    generalize child.findNodeWhere isDescendentOf hash number predicate = target
    intro mem
    cases mem with
    | error error => exact .error error
    | found way =>
      refine .found ?_
      rw [Node.follow, split, List.getElem?_append_right (Nat.le_refl _), Nat.sub_self]
      exact way
    | abort => exact .abort
    | failure known =>
      cases known with
      | true => exact .failure true
      | false => exact after

/-- **`find_node_where_mut` returns the same node as `find_node_where`**, and follows no index out
of bounds. -/
theorem Tree.findNodeWhereMut_eq (self : Tree H N V) :
    self.findNodeWhereMut isDescendentOf hash number predicate =
      (self.findNodeWhere isDescendentOf hash number predicate).map (Option.map some) := by
  unfold findNodeWhereMut findNodeWhere
  induction self.roots with
  | nil => rfl
  | cons root rest ih =>
    have mem := Leads.node isDescendentOf hash number predicate
      (findIndexAmong_leads isDescendentOf hash number predicate root [] rfl)
    rw [findNodeFromMut, findNodeFrom]
    revert mem
    generalize root.findNodeIndexWhere isDescendentOf hash number predicate = indexes
    generalize root.findNodeWhere isDescendentOf hash number predicate = target
    intro mem
    cases mem with
    | error error => rfl
    | found way =>
      dsimp only
      rw [way]
      rfl
    | abort | failure known => exact ih

end Brace.ForkTree
