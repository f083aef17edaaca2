import Mathlib

/-!
# Runs of a machine whose steps may fail

A machine is a step function on states that returns the next state or a fault. A guard restricts
the operations that a run may apply in a state; it stands for what callers promise. `Reachable`
collects the states that guarded runs without a fault reach, and `invariant` is the induction every
safety result uses. `run` executes a list of operations, so that a concrete trace can be evaluated
(`reachable_of_run`).
-/

namespace Brace.Lib

variable {State Op Fault : Type}

variable {α β : Type} {step : State → Op → Except Fault State} {guard : State → Op → Prop}
  {start : State}

/-- A computation goes on with the value returned. Stated as a rewriting rule and not by
unfolding, so that the rest of the computation is not evaluated. -/
theorem ok_bind (value : α) (next : α → Except Fault β) :
    (Except.ok value >>= next) = next value := by
  simp only [bind, Except.bind]

theorem error_bind (fault : Fault) (next : α → Except Fault β) :
    (Except.error fault >>= next) = .error fault := by
  simp only [bind, Except.bind]

theorem bind_eq_ok {first : Except Fault α} {next : α → Except Fault β} {result : β} :
    (first >>= next) = .ok result ↔ ∃ value, first = .ok value ∧ next value = .ok result := by
  cases first with
  | error _ | ok _ => simp [bind, Except.bind]

theorem ok_pair_inj {value other : α} {result last : β}
    (same : (Except.ok (value, result) : Except Fault (α × β)) = .ok (other, last)) :
    value = other ∧ result = last :=
  Prod.mk.inj (Except.ok.inj same)

theorem map_fst_eq_ok {call : Except Fault (α × β)} {value : α} :
    ((·.1) <$> call) = .ok value ↔ ∃ result, call = .ok (value, result) := by
  cases call with
  | error fault => simp [Functor.map, Except.map]
  | ok pair => simp [Functor.map, Except.map, Prod.ext_iff]

/-- A natural number is subtracted from a smaller one. -/
inductive Underflow
  | underflow
  deriving DecidableEq

/-- Subtraction that faults below zero. -/
def subtract (left right : Nat) : Except Underflow Nat :=
  if right ≤ left then .ok (left - right) else .error .underflow

theorem subtract_eq_ok {left right rest : Nat} :
    subtract left right = .ok rest ↔ right ≤ left ∧ rest = left - right := by
  unfold subtract
  split
  · simp [*, eq_comm]
  · simp [*]

theorem mapM_ok {elements : List α} {compute : α → Except Fault β} {value : α → β}
    (returns : ∀ element ∈ elements, compute element = .ok (value element)) :
    elements.mapM compute = .ok (elements.map value) := by
  induction elements with
  | nil => rfl
  | cons first rest ih =>
    have head := returns first List.mem_cons_self
    have tail := ih fun element mem => returns element (List.mem_cons_of_mem _ mem)
    simp [List.mapM_cons, head, tail, bind, Except.bind, pure, Except.pure]

/-- The states reached from `start` by guarded steps that return. -/
inductive Reachable (step : State → Op → Except Fault State) (guard : State → Op → Prop)
    (start : State) : State → Prop
  | refl : Reachable step guard start start
  | tail {state next : State} {op : Op} :
      Reachable step guard start state → guard state op → step state op = .ok next →
        Reachable step guard start next

namespace Reachable

variable {step : State → Op → Except Fault State} {guard : State → Op → Prop}
  {start state : State}

theorem invariant {motive : State → Prop} (initial : motive start)
    (preserved : ∀ state op next, motive state → guard state op → step state op = .ok next →
      motive next) (reached : Reachable step guard start state) : motive state := by
  induction reached with
  | refl => exact initial
  | tail _ allowed ran ih => exact preserved _ _ _ ih allowed ran

theorem mono {weaker : State → Op → Prop} (implied : ∀ state op, guard state op → weaker state op)
    (reached : Reachable step guard start state) : Reachable step weaker start state := by
  induction reached with
  | refl => exact .refl
  | tail _ allowed ran ih => exact .tail ih (implied _ _ allowed) ran

theorem trans {last : State} (first : Reachable step guard start state)
    (second : Reachable step guard state last) : Reachable step guard start last := by
  induction second with
  | refl => exact first
  | tail _ allowed ran ih => exact .tail ih allowed ran

end Reachable

/-- Execute a list of operations, stopping with `none` at a fault or a refused guard. -/
def run (step : State → Op → Except Fault State) (guard : State → Op → Prop)
    [∀ state op, Decidable (guard state op)] : State → List Op → Option State
  | state, [] => some state
  | state, op :: rest =>
    if guard state op then
      match step state op with
      | .ok next => run step guard next rest
      | .error _ => none
    else none

theorem exists_ok_of_any {ε : Type} {result : Except ε α} {property : α → Bool}
    (found : result.toOption.any property = true) :
    ∃ value, result = .ok value ∧ property value = true := by
  cases result with
  | error fault => cases found
  | ok value => exact ⟨value, rfl, found⟩

theorem reachable_of_run [∀ state op, Decidable (guard state op)] {last : State} (ops : List Op)
    (executed : run step guard start ops = some last) : Reachable step guard start last := by
  induction ops generalizing start with
  | nil =>
    obtain rfl := Option.some.inj executed
    exact .refl
  | cons op rest ih =>
    unfold run at executed
    split at executed
    · rename_i allowed
      split at executed
      · rename_i next ran
        exact (Reachable.tail .refl allowed ran).trans (ih executed)
      · contradiction
    · contradiction

theorem exists_reachable_of_run [∀ state op, Decidable (guard state op)]
    (ops : List Op) {Property : State → Prop} [DecidablePred Property]
    (found : (run step guard start ops).any (fun state => Property state) = true) :
    ∃ state, Reachable step guard start state ∧ Property state := by
  cases executed : run step guard start ops with
  | none =>
    rw [executed] at found
    cases found
  | some state =>
    rw [executed] at found
    exact ⟨state, reachable_of_run ops executed, by simpa using found⟩

theorem exists_reachable_of_found [∀ state op, Decidable (guard state op)] (ops : List Op)
    (Found : State → Prop) [DecidablePred Found] {Property : State → Prop}
    (found : (run step guard start ops).any (fun state => Found state) = true)
    (holds : ∀ state, Reachable step guard start state → Found state → Property state) :
    ∃ state, Reachable step guard start state ∧ Property state := by
  obtain ⟨state, reached, there⟩ := exists_reachable_of_run ops found
  exact ⟨state, reached, holds state reached there⟩

end Brace.Lib
