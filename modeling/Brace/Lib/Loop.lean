import Brace.Lib.Run

/-!
# Loops that may fail

Total correctness of a loop whose body returns the next state or a fault: from an invariant that
the body keeps, and that makes it return, the loop returns and its last state satisfies the
invariant. One rule for indices counting up, one for indices counting down, and one for the
elements of a list, where the invariant may speak of the elements that are left. Partial
correctness of a loop that did return is `foldlM_preserves`.
-/

namespace Brace.Lib

open List

variable {State Fault : Type} {body : State → Nat → Except Fault State}

variable {start : State}

theorem foldlM_range (Inv : Nat → State → Prop) (count : Nat) (initial : Inv 0 start)
    (step : ∀ index < count, ∀ state, Inv index state →
      ∃ next, body state index = .ok next ∧ Inv (index + 1) next) :
    ∃ last, (List.range count).foldlM body start = .ok last ∧ Inv count last := by
  induction count with
  | zero => exact ⟨start, rfl, initial⟩
  | succ count ih =>
    obtain ⟨state, looped, kept⟩ := ih fun index mem => step index (by omega)
    obtain ⟨next, ran, after⟩ := step count (by omega) state kept
    refine ⟨next, ?_, after⟩
    rw [range_succ, foldlM_append, looped]
    simp [bind, Except.bind, pure, Except.pure, ran]

theorem foldlM_range_reverse {Inv : Nat → State → Prop} {count : Nat} (initial : Inv count start)
    (step : ∀ index < count, ∀ state, Inv (index + 1) state →
      ∃ next, body state index = .ok next ∧ Inv index next) :
    ∃ last, (List.range count).reverse.foldlM body start = .ok last ∧ Inv 0 last := by
  induction count generalizing start with
  | zero => exact ⟨start, rfl, initial⟩
  | succ count ih =>
    obtain ⟨next, ran, after⟩ := step count (by omega) start initial
    obtain ⟨last, looped, kept⟩ := ih after fun index mem => step index (by omega)
    refine ⟨last, ?_, kept⟩
    rw [range_succ, reverse_append, reverse_singleton, singleton_append, foldlM_cons, ran]
    exact looped

theorem foldlM_list {α : Type} {body : State → α → Except Fault State}
    (Inv : State → List α → Prop) (elements : List α) (initial : Inv start elements)
    (step : ∀ state, ∀ element ∈ elements, ∀ rest, Inv state (element :: rest) →
      ∃ next, body state element = .ok next ∧ Inv next rest) :
    ∃ last, elements.foldlM body start = .ok last ∧ Inv last [] := by
  induction elements generalizing start with
  | nil => exact ⟨start, rfl, initial⟩
  | cons element rest ih =>
    obtain ⟨next, ran, kept⟩ := step start element mem_cons_self rest initial
    obtain ⟨last, looped, final⟩ := ih kept fun state other mem =>
      step state other (mem_cons_of_mem _ mem)
    refine ⟨last, ?_, final⟩
    rw [foldlM_cons, ran]
    exact looped

theorem foldlM_preserves {α : Type} {body : State → α → Except Fault State}
    {motive : State → Prop}
    (kept : ∀ state element next, motive state → body state element = .ok next → motive next)
    {elements : List α} {last : State} (ran : elements.foldlM body start = .ok last)
    (initial : motive start) : motive last := by
  induction elements generalizing start with
  | nil => exact Except.ok.inj ran ▸ initial
  | cons element rest ih =>
    rw [foldlM_cons, bind_eq_ok] at ran
    obtain ⟨next, called, later⟩ := ran
    exact ih later (kept start element next initial called)

end Brace.Lib
