import Brace.Staking.Offences

/-!
# What cancelling deferred slashes removes

`cancel_deferred_slash` removes the positions that it is given one after the other, from the
smallest on, and shifts each by the number of removals before it. Its test for duplicates compares
a position with that number and not with the position before, so that it lets some duplicates
through: those for which the positions up to every bound still fit below the bound.
-/

namespace Brace.Staking

open Brace.Lib List

variable {AccountId Slash : Type}

/-! ## Removing a set of positions -/

/-- The elements of a list whose position, counted from a start, is not among those given. -/
def withoutFrom (start : Nat) (positions : List Nat) : List Slash → List Slash
  | [] => []
  | slash :: rest =>
    if start ∈ positions then withoutFrom (start + 1) positions rest
    else slash :: withoutFrom (start + 1) positions rest

theorem withoutFrom_nil (start : Nat) (slashes : List Slash) :
    withoutFrom start [] slashes = slashes := by
  induction slashes generalizing start with
  | nil => rfl
  | cons slash rest ih => simp [withoutFrom, ih]

theorem withoutFrom_congr (start : Nat) {positions others : List Nat}
    (same : ∀ position, position ∈ positions ↔ position ∈ others) (slashes : List Slash) :
    withoutFrom start positions slashes = withoutFrom start others slashes := by
  induction slashes generalizing start with
  | nil => rfl
  | cons slash rest ih => simp only [withoutFrom, same start, ih]

theorem withoutFrom_cons_of_lt (start position : Nat) (positions : List Nat)
    (slashes : List Slash) (below : position < start) :
    withoutFrom start (position :: positions) slashes = withoutFrom start positions slashes := by
  induction slashes generalizing start with
  | nil => rfl
  | cons slash rest ih =>
    have other : start ≠ position := by omega
    simp only [withoutFrom, mem_cons, other, false_or, ih (start + 1) (by omega)]

theorem withoutFrom_cons (start position : Nat) (positions : List Nat) (slashes : List Slash)
    (reached : start ≤ position) (ascending : ∀ later ∈ positions, position < later)
    (mem : position - start < slashes.length) :
    withoutFrom start (position :: positions) slashes =
      withoutFrom (start + 1) positions (slashes.eraseIdx (position - start)) := by
  induction slashes generalizing start with
  | nil => cases mem
  | cons slash rest ih =>
    by_cases here : start = position
    · subst here
      rw [Nat.sub_self, eraseIdx_zero, tail_cons, withoutFrom, if_pos mem_cons_self]
      exact withoutFrom_cons_of_lt (start + 1) start positions rest (Nat.lt_succ_self start)
    · have shift : position - start = position - (start + 1) + 1 := by omega
      have absent : start ∉ position :: positions := by
        intro found
        rcases mem_cons.mp found with same | later
        · exact here same
        · have := ascending start later
          omega
      have absentNext : start + 1 ∉ positions := by
        intro later
        have := ascending (start + 1) later
        omega
      rw [length_cons] at mem
      rw [shift, eraseIdx_cons_succ, withoutFrom, if_neg absent, withoutFrom,
        if_neg absentNext, ih (start + 1) (by omega) (by omega)]

namespace State

theorem count_askedFrom [DecidableEq Slash] (start : Nat) (positions : List Nat)
    (slashes : List Slash) (slash : Slash) :
    (askedFrom start positions slashes).count slash +
      (withoutFrom start positions slashes).count slash = slashes.count slash := by
  induction slashes generalizing start with
  | nil => rfl
  | cons first rest ih =>
    have later := ih (start + 1)
    rw [askedFrom, withoutFrom]
    split
    · rw [count_cons, count_cons]
      omega
    · rw [count_cons, count_cons]
      omega

/-! ## The loop -/

theorem cancelLoop_cons_eq_ok (removed index : Nat) (rest : List Nat)
    (unapplied kept : List Slash) :
    cancelLoop removed (index :: rest) unapplied = .ok kept ↔
      removed ≤ index ∧ index - removed < unapplied.length ∧
        cancelLoop (removed + 1) rest (unapplied.eraseIdx (index - removed)) = .ok kept := by
  rw [cancelLoop]
  split
  · rename_i notBelow
    split
    · rename_i mem
      simp [notBelow, mem]
    · rename_i outside
      simp [outside]
  · rename_i below
    simp [below]

/-- The loop returns when every position is inside the list and, for every bound, the positions
up to it fit below it together with those removed before. -/
theorem cancelLoop_returns_iff (removed : Nat) (indices : List Nat) (unapplied : List Slash)
    (sorted : indices.Pairwise (· ≤ ·)) :
    (∃ kept, cancelLoop removed indices unapplied = .ok kept) ↔
      (∀ bound, indices.countP (· ≤ bound) ≠ 0 →
        removed + indices.countP (· ≤ bound) ≤ bound + 1) ∧
      ∀ index ∈ indices, index < removed + unapplied.length := by
  induction indices generalizing removed unapplied with
  | nil => simp [cancelLoop]
  | cons first rest ih =>
    rw [pairwise_cons] at sorted
    simp only [cancelLoop_cons_eq_ok, exists_and_left, ih _ _ sorted.2, countP_cons,
      mem_cons, forall_eq_or_imp, decide_eq_true_eq]
    -- below the first position there is none
    have noneBelow : ∀ bound, bound < first → rest.countP (· ≤ bound) = 0 := by
      intro bound small
      rw [countP_eq_zero]
      intro index inRest
      have := sorted.1 index inRest
      simp only [decide_eq_true_eq]
      omega
    constructor
    · rintro ⟨reached, mem, fits, bounded⟩
      refine ⟨?_, by omega, ?_⟩
      · intro bound some
        by_cases small : first ≤ bound
        · have := fits bound
          simp only [small, if_true]
          omega
        · have := noneBelow bound (by omega)
          simp [small, this] at some
      · intro index inRest
        have := bounded index inRest
        rw [length_eraseIdx_of_lt mem] at this
        omega
    · rintro ⟨fits, firstInside, bounded⟩
      have reached : removed ≤ first := by
        have := fits first (by simp)
        simp only [le_refl, if_true] at this
        omega
      have mem : first - removed < unapplied.length := by omega
      refine ⟨reached, mem, ?_, ?_⟩
      · intro bound some
        by_cases small : first ≤ bound
        · have := fits bound (by simp [small])
          simp only [small, if_true] at this
          omega
        · exact absurd (noneBelow bound (by omega)) some
      · intro index inRest
        have := bounded index inRest
        rw [length_eraseIdx_of_lt mem]
        omega

theorem cancelLoop_eq_withoutFrom (removed : Nat) (indices : List Nat) (unapplied kept : List Slash)
    (sorted : indices.Pairwise (· < ·)) (ran : cancelLoop removed indices unapplied = .ok kept) :
    kept = withoutFrom removed indices unapplied := by
  induction indices generalizing removed unapplied with
  | nil =>
    rw [withoutFrom_nil]
    exact (Except.ok.inj ran).symm
  | cons first rest ih =>
    rw [pairwise_cons] at sorted
    obtain ⟨reached, mem, ran⟩ := (cancelLoop_cons_eq_ok ..).mp ran
    rw [withoutFrom_cons removed first rest unapplied reached sorted.1 mem]
    exact ih _ _ sorted.2 ran

theorem cancelLoop_sorted_eq_withoutFrom {indices : List Nat} {unapplied kept : List Slash}
    (distinct : indices.Nodup)
    (ran : cancelLoop 0 (indices.insertionSort (· ≤ ·)) unapplied = .ok kept) :
    kept = withoutFrom 0 indices unapplied := by
  have strict : (indices.insertionSort (· ≤ ·)).Pairwise (· < ·) := by
    have apart := (perm_insertionSort (· ≤ ·) indices).nodup_iff.mpr distinct
    have sorted := pairwise_insertionSort (· ≤ ·) indices
    exact (sorted.and apart).imp fun both => lt_of_le_of_ne both.1 both.2
  rw [cancelLoop_eq_withoutFrom _ _ _ _ strict ran]
  exact withoutFrom_congr 0 (fun _ => mem_insertionSort _) _

/-! ## The call -/

variable (origin : Origin)

/-- A permitted call returns when its loop does, with the list that the loop returns. -/
theorem cancelDeferredSlash_eq_ok (era : Nat) (slashIndices : List Nat)
    (state after : State AccountId) :
    cancelDeferredSlash origin era slashIndices state = .ok after ↔
      origin ≠ .other ∧ ∃ kept,
        cancelLoop 0 (slashIndices.insertionSort (· ≤ ·)) (state.unapplied era) = .ok kept ∧
        after = { state with
          unappliedSlashes := state.unappliedSlashes.insert era kept
          cancelled := (askedFrom 0 slashIndices (state.unapplied era)).map (era, ·) ++
            state.cancelled } := by
  cases origin with
  | other => simp [cancelDeferredSlash]
  | slashCancel | root =>
    simp only [cancelDeferredSlash, bind_eq_ok, pure, Except.pure, Except.ok.injEq, ne_eq,
      reduceCtorEq, not_false_eq_true, true_and]
    simp only [eq_comm]

theorem cancelLoop_sorted_returns_iff (indices : List Nat) (unapplied : List Slash) :
    (∃ kept, cancelLoop 0 (indices.insertionSort (· ≤ ·)) unapplied = .ok kept) ↔
      (∀ bound, indices.countP (· ≤ bound) ≤ bound + 1) ∧
      ∀ index ∈ indices, index < unapplied.length := by
  rw [cancelLoop_returns_iff _ _ _ (pairwise_insertionSort (· ≤ ·) indices)]
  have counts : ∀ bound, (indices.insertionSort (· ≤ ·)).countP (· ≤ bound) =
      indices.countP (· ≤ bound) := fun bound => (perm_insertionSort _ _).countP_eq _
  simp only [counts, mem_insertionSort, Nat.zero_add]
  constructor
  · rintro ⟨fits, mem⟩
    refine ⟨fun bound => ?_, mem⟩
    by_cases none : indices.countP (· ≤ bound) = 0
    · omega
    · exact fits bound none
  · rintro ⟨fits, mem⟩
    exact ⟨fun bound _ => fits bound, mem⟩

theorem countP_le_of_nodup {indices : List Nat} (distinct : indices.Nodup) (bound : Nat) :
    indices.countP (· ≤ bound) ≤ bound + 1 := by
  have small : indices.filter (· ≤ bound) ⊆ range (bound + 1) := by
    intro index found
    simp only [mem_filter, decide_eq_true_eq] at found
    simp only [mem_range]
    omega
  have fewer := (subperm_of_subset (distinct.filter _) small).length_le
  rwa [length_range, ← countP_eq_length_filter] at fewer

/-- What the caller of `cancel_deferred_slash` expects: distinct positions inside the list are
removed, all others are refused. -/
def CancelsExactly (era : Nat) (slashIndices : List Nat) (state : State AccountId) : Prop :=
  if slashIndices.Nodup ∧ ∀ index ∈ slashIndices, index < (state.unapplied era).length then
    ∃ after, cancelDeferredSlash origin era slashIndices state = .ok after ∧
      after = { state with
        unappliedSlashes := Finmap.insert era
          (withoutFrom 0 slashIndices (state.unapplied era)) state.unappliedSlashes
        cancelled := after.cancelled }
  else
    ∃ error, cancelDeferredSlash origin era slashIndices state = .error error

/-- **A permitted call cancels exactly what was asked unless duplicates slip through**: the
positions are all inside the list, some occur twice, and up to every bound there are no more of
them than positions. -/
theorem cancelsExactly_iff (permitted : origin ≠ .other) (era : Nat) (slashIndices : List Nat)
    (state : State AccountId) :
    CancelsExactly origin era slashIndices state ↔
      slashIndices.Nodup ∨ (∃ index ∈ slashIndices, (state.unapplied era).length ≤ index) ∨
        ∃ bound, bound + 1 < slashIndices.countP (· ≤ bound) := by
  have returns := cancelLoop_sorted_returns_iff slashIndices (state.unapplied era)
  unfold CancelsExactly
  split
  · rename_i proper
    refine iff_of_true ?_ (Or.inl proper.1)
    obtain ⟨kept, ran⟩ := returns.mpr ⟨countP_le_of_nodup proper.1, proper.2⟩
    refine ⟨_, (cancelDeferredSlash_eq_ok ..).mpr ⟨permitted, kept, ran, rfl⟩, ?_⟩
    rw [← cancelLoop_sorted_eq_withoutFrom proper.1 ran]
  · rename_i improper
    constructor
    · rintro ⟨error, refused⟩
      by_contra slips
      push Not at slips
      obtain ⟨kept, ran⟩ := returns.mpr ⟨slips.2.2, slips.2.1⟩
      have := (cancelDeferredSlash_eq_ok ..).mpr ⟨permitted, kept, ran, rfl⟩
      rw [refused] at this
      cases this
    · intro condition
      cases called : cancelDeferredSlash origin era slashIndices state with
      | error error => exact ⟨error, rfl⟩
      | ok after =>
        exfalso
        obtain ⟨_, kept, ran, _⟩ := (cancelDeferredSlash_eq_ok ..).mp called
        obtain ⟨fits, mem⟩ := returns.mp ⟨kept, ran⟩
        rcases condition with distinct | ⟨index, asked, outside⟩ | ⟨bound, crowded⟩
        · exact improper ⟨distinct, mem⟩
        · exact absurd (mem index asked) (by omega)
        · exact absurd (fits bound) (by omega)

/-- A state with two unapplied slashes of era zero. -/
def twoPending : State Nat where
  activeEra := some 0
  erasStartSessionIndex := ∅
  bondedEras := []
  invulnerables := []
  earliestUnappliedSlash := some 0
  unappliedSlashes := Finmap.insert 0
    [{ validator := 1, own := 10, others := [], reporters := [], payout := 0 },
      { validator := 2, own := 20, others := [], reporters := [], payout := 0 }] ∅
  slashes := ⟨∅, ∅, ∅, ∅⟩
  recorded := []
  cancelled := []
  applied := []

/-- The position one asked twice: the slash at position zero is cancelled as well. -/
theorem cancelDeferredSlash_duplicate :
    ¬ CancelsExactly .root 0 [1, 1] twoPending ∧
      ∃ after, cancelDeferredSlash .root 0 [1, 1] twoPending = .ok after ∧
        after.unapplied 0 = [] := by
  have returns : (cancelDeferredSlash .root 0 [1, 1] twoPending).toOption.any
      (fun after => after.unapplied 0 = []) = true := by decide +kernel
  obtain ⟨after, ran, emptied⟩ := exists_ok_of_any returns
  refine ⟨?_, after, ran, by simpa using emptied⟩
  have twice : ¬ (([1, 1] : List Nat).Nodup ∧
      ∀ index ∈ [1, 1], index < (twoPending.unapplied 0).length) := by decide +kernel
  rw [CancelsExactly, if_neg twice]
  rintro ⟨error, refused⟩
  rw [ran] at refused
  cases refused

/-- The root cancels one of two slashes exactly. -/
theorem cancelsExactly_root : CancelsExactly .root 0 [1] twoPending :=
  (cancelsExactly_iff .root (by decide) 0 [1] twoPending).mpr (Or.inl (by decide))

end State

end Brace.Staking
