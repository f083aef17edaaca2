import Brace.Lib.Run

/-!
# Work lists

A loop that takes a task from a stack, works on the state, and may push further tasks, until the
stack is empty. The loop is run with a bound on its rounds; `worklist_returns` is its rule of
total correctness. The work left in a state bounds the tasks that are still to be pushed, so a
bound of the tasks on the stack and the work left is enough, and the invariant holds at the end
with nothing left on the stack.
-/

namespace Brace.Lib

variable {State Task Fault : Type}

/-- Run the tasks of a stack, at most so many. The first task is the top of the stack. -/
def worklist (body : State → Task → Except Fault (State × List Task)) :
    Nat → State → List Task → Except Fault State
  | 0, state, _ => .ok state
  | _ + 1, state, [] => .ok state
  | rounds + 1, state, task :: rest =>
    body state task >>= fun (next, pushed) => worklist body rounds next (pushed ++ rest)

variable {body : State → Task → Except Fault (State × List Task)} {rounds : Nat} {state : State}
  {stack : List Task}

/-- **Total correctness of a work list.** A body that keeps an invariant of the state and the
stack, and pays each pushed task with work left, runs the stack down to nothing. -/
theorem worklist_returns {Inv : State → List Task → Prop} {work : State → Nat}
    (round : ∀ state task rest, Inv state (task :: rest) → ∃ next pushed,
      body state task = .ok (next, pushed) ∧ Inv next (pushed ++ rest) ∧
        pushed.length + work next ≤ work state) (start : Inv state stack)
    (enough : stack.length + work state ≤ rounds) :
    ∃ last, worklist body rounds state stack = .ok last ∧ Inv last [] := by
  induction rounds generalizing state stack with
  | zero =>
    have empty : stack = [] := List.length_eq_zero_iff.mp (by omega)
    subst empty
    exact ⟨state, rfl, start⟩
  | succ rounds ih =>
    cases stack with
    | nil => exact ⟨state, rfl, start⟩
    | cons task rest =>
      obtain ⟨next, pushed, ran, kept, paid⟩ := round state task rest start
      rw [List.length_cons] at enough
      obtain ⟨last, ended, final⟩ := ih kept (by rw [List.length_append]; omega)
      refine ⟨last, ?_, final⟩
      rw [worklist, ran, ok_bind]
      exact ended

theorem worklist_invariant (Inv : State → Prop)
    (round : ∀ state task next pushed, Inv state → body state task = .ok (next, pushed) → Inv next)
    {last : State} (start : Inv state)
    (ran : worklist body rounds state stack = .ok last) : Inv last := by
  induction rounds generalizing state stack with
  | zero =>
    obtain rfl := Except.ok.inj ran
    exact start
  | succ rounds ih =>
    cases stack with
    | nil =>
      obtain rfl := Except.ok.inj ran
      exact start
    | cons task rest =>
      obtain ⟨⟨next, pushed⟩, called, ended⟩ := bind_eq_ok.mp ran
      exact ih (round state task next pushed start called) ended

end Brace.Lib
