import Mathlib

/-!
# Relations without cycles

A relation is acyclic when no element is related to itself by a chain. In a finite set some element
is then related to no element of the set (`exists_minimal`). A node that takes the place of other
nodes closes no cycle, unless one of them is behind the nodes that the new one is related to
(`redirect`).
-/

namespace Brace.Lib

open Relation

variable {α : Type} {relation : α → α → Prop}

/-- No chain leads from an element back to it. -/
def Acyclic (relation : α → α → Prop) : Prop :=
  ∀ element, ¬ TransGen relation element element

namespace Acyclic

theorem mono {smaller : α → α → Prop} (acyclic : Acyclic relation)
    (implied : ∀ left right, smaller left right → relation left right) : Acyclic smaller :=
  fun element cycle => acyclic element (TransGen.mono implied _ _ cycle)

theorem exists_minimal (acyclic : Acyclic relation) {set : Finset α} (nonempty : set.Nonempty) :
    ∃ element ∈ set, ∀ other ∈ set, ¬ relation element other := by
  let above := fun left right => TransGen relation right left
  have : IsStrictOrder α above :=
    { irrefl := acyclic
      trans := fun _ _ _ first second => second.trans first }
  have founded : (set : Set α).WellFoundedOn above := set.finite_toSet.wellFoundedOn
  obtain ⟨element, mem⟩ := nonempty
  obtain ⟨minimal, -, least⟩ := founded.has_min Set.univ ⟨⟨element, mem⟩, trivial⟩
  refine ⟨minimal.1, minimal.2, fun other member related => ?_⟩
  exact least ⟨other, member⟩ trivial (.single related)

section Redirect

variable {changed : α → α → Prop} {node : α} {old : α → Prop}
  (others : ∀ left right, left ≠ node → right ≠ node → changed left right → relation left right)
  (into : ∀ left, left ≠ node → changed left node → ∃ right, old right ∧ relation left right)

include others into

theorem exists_old_of_chain {element : α} (ne : element ≠ node)
    (chain : TransGen changed element node) :
    ∃ right, old right ∧ TransGen relation element right := by
  induction chain using TransGen.head_induction_on with
  | single step =>
    obtain ⟨right, replaced, related⟩ := into _ ne step
    exact ⟨right, replaced, .single related⟩
  | @head first second step rest ih =>
    by_cases here : second = node
    · subst here
      obtain ⟨right, replaced, related⟩ := into _ ne step
      exact ⟨right, replaced, .single related⟩
    · obtain ⟨right, replaced, tail⟩ := ih here
      exact ⟨right, replaced, .head (others _ _ ne here step) tail⟩

omit into in
theorem chain_cases {left right : α} (leftOther : left ≠ node) (rightOther : right ≠ node)
    (chain : TransGen changed left right) : TransGen relation left right ∨
      TransGen changed left node ∧ TransGen changed node right := by
  induction chain using TransGen.head_induction_on with
  | single step => exact .inl (.single (others _ _ leftOther rightOther step))
  | @head first second step rest ih =>
    by_cases here : second = node
    · subst here
      exact .inr ⟨.single step, rest⟩
    · rcases ih here with tail | ⟨toNode, fromNode⟩
      · exact .inl (.head (others _ _ leftOther here step) tail)
      · exact .inr ⟨.head step toNode, fromNode⟩

variable (node old) in
theorem redirect (acyclic : Acyclic relation) (apart : ¬ changed node node)
    (behind : ∀ left, changed node left → ∀ right, old right → ¬ TransGen relation left right) :
    Acyclic changed := by
  have center : ¬ TransGen changed node node := by
    intro cycle
    obtain ⟨next, step, rest⟩ := TransGen.head'_iff.mp cycle
    by_cases here : next = node
    · exact apart (here ▸ step)
    · have chain : TransGen changed next node := by
        rcases reflTransGen_iff_eq_or_transGen.mp rest with equal | chain
        · exact absurd equal.symm here
        · exact chain
      obtain ⟨right, replaced, back⟩ := exists_old_of_chain others into here chain
      exact behind next step right replaced back
  intro element cycle
  by_cases here : element = node
  · exact center (here ▸ cycle)
  · rcases chain_cases others here here cycle with before | ⟨toNode, fromNode⟩
    · exact acyclic element before
    · exact center (fromNode.trans toNode)

end Redirect

end Acyclic

end Brace.Lib
