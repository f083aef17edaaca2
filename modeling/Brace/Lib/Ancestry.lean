import Mathlib

/-!
# Ancestry in a tree of blocks

A block has a number and strict ancestors. The ancestors of one block form a chain, and numbers
increase along it. Nothing is said about which blocks exist, so that the relation may answer for
blocks that are not known yet.
-/

namespace Brace.Lib

/-- The strict ancestry of a tree of blocks with numbers. -/
structure Ancestry (H N : Type) [LinearOrder N] where
  number : H → N
  /-- The first block is a strict ancestor of the second. -/
  before : H → H → Bool
  number_lt : ∀ {base target}, before base target → number base < number target
  trans : ∀ {first second third}, before first second → before second third → before first third
  chain : ∀ {left right target}, before left target → before right target →
    left = right ∨ before left right ∨ before right left

namespace Ancestry

variable {H N : Type} [LinearOrder N] (ancestry : Ancestry H N) {base target third : H}

theorem irrefl (hash : H) : ¬ ancestry.before hash hash := fun self =>
  lt_irrefl _ (ancestry.number_lt self)

theorem asymm (before : ancestry.before base target) : ¬ ancestry.before target base := fun back =>
  ancestry.irrefl base (ancestry.trans before back)

/-- One block is the other or one of its ancestors. -/
def AtOrBefore (base target : H) : Prop := base = target ∨ ancestry.before base target

/-- The blocks are on one branch. -/
def Related (left right : H) : Prop :=
  left = right ∨ ancestry.before left right ∨ ancestry.before right left

instance [DecidableEq H] : Decidable (ancestry.AtOrBefore base target) :=
  inferInstanceAs (Decidable (base = target ∨ ancestry.before base target))

variable {ancestry}

theorem AtOrBefore.before_of_before (first : ancestry.AtOrBefore base target)
    (second : ancestry.before target third) : ancestry.before base third := by
  rcases first with rfl | first
  · exact second
  · exact ancestry.trans first second

theorem AtOrBefore.before_of_before' (first : ancestry.before base target)
    (second : ancestry.AtOrBefore target third) : ancestry.before base third := by
  rcases second with rfl | second
  · exact first
  · exact ancestry.trans first second

theorem AtOrBefore.trans (first : ancestry.AtOrBefore base target)
    (second : ancestry.AtOrBefore target third) : ancestry.AtOrBefore base third := by
  rcases second with rfl | second
  · exact first
  · exact .inr (first.before_of_before second)

theorem AtOrBefore.related (first : ancestry.AtOrBefore base third)
    (second : ancestry.AtOrBefore target third) : ancestry.Related base target := by
  rcases first with rfl | first
  · rcases second with rfl | second
    · exact .inl rfl
    · exact .inr (.inr second)
  · rcases second with rfl | second
    · exact .inr (.inl first)
    · exact ancestry.chain first second

theorem Related.symm (related : ancestry.Related base target) : ancestry.Related target base := by
  rcases related with rfl | before | after
  · exact .inl rfl
  · exact .inr (.inr before)
  · exact .inr (.inl after)

theorem Related.of_atOrBefore (related : ancestry.Related third target)
    (earlier : ancestry.AtOrBefore base target) : ancestry.Related third base := by
  rcases related with rfl | before | after
  · exact .symm (earlier.related (.inl rfl))
  · exact .symm (earlier.related (.inr before))
  · exact .inr (.inr (earlier.before_of_before after))

/-- The tree of all paths: a block is named by the way to it from the first block. -/
def paths : Ancestry (List Nat) Nat where
  number := List.length
  before base target := decide (base.length < target.length ∧ target.take base.length = base)
  number_lt before := (of_decide_eq_true before).1
  trans := by
    intro first second third earlier later
    have left := of_decide_eq_true earlier
    have right := of_decide_eq_true later
    refine decide_eq_true ⟨left.1.trans right.1, ?_⟩
    calc
      third.take first.length = (third.take second.length).take first.length := by
        rw [List.take_take, min_eq_left left.1.le]
      _ = first := by rw [right.2, left.2]
  chain := by
    intro left right target earlier later
    have first := of_decide_eq_true earlier
    have second := of_decide_eq_true later
    rcases lt_trichotomy left.length right.length with shorter | same | longer
    · refine .inr (.inl (decide_eq_true ⟨shorter, ?_⟩))
      rw [← second.2, List.take_take, min_eq_left shorter.le, first.2]
    · refine .inl ?_
      rw [← first.2, same, second.2]
    · refine .inr (.inr (decide_eq_true ⟨longer, ?_⟩))
      rw [← first.2, List.take_take, min_eq_left longer.le, second.2]

theorem paths_before {base target : List Nat} :
    paths.before base target ↔ base.length < target.length ∧ target.take base.length = base :=
  decide_eq_true_iff

theorem paths_atOrBefore {base target : List Nat} :
    paths.AtOrBefore base target ↔
      base.length ≤ target.length ∧ target.take base.length = base := by
  rw [AtOrBefore, paths_before, Nat.le_iff_lt_or_eq]
  constructor
  · rintro (rfl | both)
    · exact ⟨.inr rfl, List.take_length⟩
    · exact ⟨.inl both.1, both.2⟩
  · rintro ⟨shorter | same, start⟩
    · exact .inr ⟨shorter, start⟩
    · rw [same, List.take_length] at start
      exact .inl start.symm

end Ancestry

end Brace.Lib
