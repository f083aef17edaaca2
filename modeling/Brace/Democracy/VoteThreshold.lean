import Mathlib

/-!
# Vote thresholds

`compare_rationals` compares two fractions by their continued fractions, digit by digit, so that no
product overflows. It ends because the denominators get smaller, as in Euclid's algorithm, and
answers as the cross products do (`compareRationals_eq`). The three thresholds are then inequalities
between products, which gives their order and monotonicity (`thresholds_exact`). The square root is
that of the `integer-sqrt` crate; of it only what `IntegerSquareRoot` says is used.
-/

namespace Brace.Democracy

open Nat

/-- `VoteThreshold` -/
inductive VoteThreshold where
  | superMajorityApprove
  | superMajorityAgainst
  | simpleMajority

/-- What ends a computation. -/
inductive Panic where
  | divisionByZero

/-- `compare_rationals` -/
def compareRationals (n1 d1 n2 d2 : Nat) : Except Panic Bool :=
  if d1 = 0 ∨ d2 = 0 then .error .divisionByZero
  else if n1 / d1 < n2 / d2 then .ok true
  else if n2 / d2 < n1 / d1 then .ok false
  else if n2 % d2 = 0 then .ok false
  else if n1 % d1 = 0 then .ok true
  else compareRationals d2 (n2 % d2) d1 (n1 % d1)
termination_by d1 + d2
decreasing_by
  have first := mod_lt n1 (show 0 < d1 by omega)
  have second := mod_lt n2 (show 0 < d2 by omega)
  omega

/-- `IntegerSquareRoot`: the root grows with the number and is not zero for one that is not. -/
structure IntegerSquareRoot where
  integerSqrt : Nat → Nat
  mono : Monotone integerSqrt
  pos : ∀ number, 0 < number → 0 < integerSqrt number

def IntegerSquareRoot.floor : IntegerSquareRoot where
  integerSqrt := Nat.sqrt
  mono _ _ := sqrt_le_sqrt
  pos _ := sqrt_pos.mpr

variable (roots : IntegerSquareRoot)

/-- `approved` -/
def VoteThreshold.approved (self : VoteThreshold) (approve against voters electorate : Nat) :
    Except Panic Bool :=
  let sqrtVoters := roots.integerSqrt voters
  let sqrtElectorate := roots.integerSqrt electorate
  if sqrtVoters = 0 then .ok false
  else
    match self with
    | .superMajorityApprove => compareRationals against sqrtVoters approve sqrtElectorate
    | .superMajorityAgainst => compareRationals against sqrtElectorate approve sqrtVoters
    | .simpleMajority => .ok (decide (against < approve))

variable {n1 d1 n2 d2 : Nat}

theorem mul_lt_of_div_lt (first : 0 < d1) (second : 0 < d2) (less : n1 / d1 < n2 / d2) :
    n1 * d2 < n2 * d1 := by
  have below := (div_lt_iff_lt_mul first).mp less
  calc n1 * d2 < n2 / d2 * d1 * d2 := Nat.mul_lt_mul_of_pos_right below second
    _ = n2 / d2 * d2 * d1 := Nat.mul_right_comm _ _ _
    _ ≤ n2 * d1 := Nat.mul_le_mul_right _ (div_mul_le_self _ _)

theorem mul_lt_iff_of_div_eq (notLess : ¬ n1 / d1 < n2 / d2) (notGreater : ¬ n2 / d2 < n1 / d1) :
    n1 * d2 < n2 * d1 ↔ n1 % d1 * d2 < n2 % d2 * d1 := by
  have same : n1 / d1 = n2 / d2 := by omega
  have left : d1 * (n1 / d1) * d2 + n1 % d1 * d2 = n1 * d2 := by rw [← Nat.add_mul, div_add_mod]
  have right : d2 * (n2 / d2) * d1 + n2 % d2 * d1 = n2 * d1 := by rw [← Nat.add_mul, div_add_mod]
  have whole : d1 * (n1 / d1) * d2 = d2 * (n2 / d2) * d1 := by
    rw [same, Nat.mul_right_comm, Nat.mul_comm d1, Nat.mul_right_comm]
  omega

/-- **The comparison answers as the cross products do.** -/
theorem compareRationals_eq (first : 0 < d1) (second : 0 < d2) :
    compareRationals n1 d1 n2 d2 = .ok (decide (n1 * d2 < n2 * d1)) := by
  fun_induction compareRationals n1 d1 n2 d2 with
  | case1 n1 d1 n2 d2 zero => omega
  | case2 n1 d1 n2 d2 _ less => rw [decide_eq_true (mul_lt_of_div_lt first second less)]
  | case3 n1 d1 n2 d2 _ _ greater =>
    rw [decide_eq_false (Nat.lt_asymm (mul_lt_of_div_lt second first greater))]
  | case4 n1 d1 n2 d2 _ notLess notGreater none =>
    simp [mul_lt_iff_of_div_eq notLess notGreater, none]
  | case5 n1 d1 n2 d2 _ notLess notGreater rest none =>
    have left : 0 < n2 % d2 := by omega
    simp [mul_lt_iff_of_div_eq notLess notGreater, none, first, left]
  | case6 n1 d1 n2 d2 _ notLess notGreater rest left ih =>
    rw [ih (by omega) (by omega)]
    simp only [mul_lt_iff_of_div_eq notLess notGreater, Nat.mul_comm d2, Nat.mul_comm d1]

/-- The weights that a threshold gives to the votes against and in favour. -/
def VoteThreshold.weights (self : VoteThreshold) (voters electorate : Nat) : Nat × Nat :=
  match self with
  | .superMajorityApprove => (roots.integerSqrt electorate, roots.integerSqrt voters)
  | .superMajorityAgainst => (roots.integerSqrt voters, roots.integerSqrt electorate)
  | .simpleMajority => (1, 1)

theorem approved_eq {voters electorate : Nat} (some : 0 < voters) (all : voters ≤ electorate)
    (self : VoteThreshold) (approve against : Nat) :
    self.approved roots approve against voters electorate =
      .ok (decide (against * (self.weights roots voters electorate).1 <
        approve * (self.weights roots voters electorate).2)) := by
  have first : 0 < roots.integerSqrt voters := roots.pos voters some
  have second : 0 < roots.integerSqrt electorate := Nat.lt_of_lt_of_le first (roots.mono all)
  have voted : roots.integerSqrt voters ≠ 0 := by omega
  simp only [VoteThreshold.approved, if_neg voted]
  cases self with
  | superMajorityApprove => exact compareRationals_eq first second
  | superMajorityAgainst => exact compareRationals_eq second first
  | simpleMajority => simp [VoteThreshold.weights]

/-- **Thresholds compare exactly**: an approval is an inequality of the weighted votes, more votes
in favour or fewer against keep it, and an approval by a supermajority of votes in favour is one by
a majority, which is one without a supermajority against. -/
theorem thresholds_exact :
    (∀ n1 d1 n2 d2, 0 < d1 → 0 < d2 →
      compareRationals n1 d1 n2 d2 = .ok (decide (n1 * d2 < n2 * d1))) ∧
    ∀ voters electorate, 0 < voters → voters ≤ electorate →
      (∀ (self : VoteThreshold) approve against,
        self.approved roots approve against voters electorate =
          .ok (decide (against * (self.weights roots voters electorate).1 <
            approve * (self.weights roots voters electorate).2))) ∧
      (∀ (self : VoteThreshold) approve against more less, approve ≤ more → less ≤ against →
        self.approved roots approve against voters electorate = .ok true →
        self.approved roots more less voters electorate = .ok true) ∧
      ∀ approve against,
        (VoteThreshold.superMajorityApprove.approved roots approve against voters electorate =
            .ok true →
          VoteThreshold.simpleMajority.approved roots approve against voters electorate =
            .ok true) ∧
        (VoteThreshold.simpleMajority.approved roots approve against voters electorate = .ok true →
          VoteThreshold.superMajorityAgainst.approved roots approve against voters electorate =
            .ok true) := by
  refine ⟨fun _ _ _ _ => compareRationals_eq, fun voters electorate some all =>
    ⟨approved_eq roots some all, ?_⟩⟩
  have grows : roots.integerSqrt voters ≤ roots.integerSqrt electorate := roots.mono all
  simp only [approved_eq roots some all, Except.ok.injEq, decide_eq_true_eq]
  refine ⟨fun self approve against more less rises falls wins => ?_, fun approve against =>
    ⟨fun wins => ?_, fun wins => ?_⟩⟩
  · calc less * _ ≤ against * _ := Nat.mul_le_mul_right _ falls
      _ < approve * _ := wins
      _ ≤ more * _ := Nat.mul_le_mul_right _ rises
  · have scaled : against * roots.integerSqrt electorate < approve * roots.integerSqrt electorate :=
      Nat.lt_of_lt_of_le wins (Nat.mul_le_mul_left _ grows)
    simpa [VoteThreshold.weights] using Nat.lt_of_mul_lt_mul_right scaled
  · simp only [VoteThreshold.weights, Nat.mul_one] at wins
    calc against * roots.integerSqrt voters < approve * roots.integerSqrt voters :=
          Nat.mul_lt_mul_of_pos_right wins (roots.pos voters some)
      _ ≤ approve * roots.integerSqrt electorate := Nat.mul_le_mul_left _ grows

/-- A hundred votes in favour and fifty against, by 150 of 210. -/
theorem thresholds_exact_hundred :
    compareRationals 50 12 100 14 = .ok (decide (50 * 14 < 100 * 12)) ∧
      VoteThreshold.superMajorityApprove.approved .floor 100 50 150 210 = .ok true ∧
      VoteThreshold.simpleMajority.approved .floor 101 50 150 210 = .ok true := by
  obtain ⟨compares, holds⟩ := thresholds_exact .floor
  obtain ⟨exact, grows, weaker⟩ := holds 150 210 (by decide) (by decide)
  have approved : VoteThreshold.superMajorityApprove.approved .floor 100 50 150 210 = .ok true := by
    rw [exact, decide_eq_true (by decide +kernel)]
  exact ⟨compares 50 12 100 14 (by decide) (by decide), approved,
    grows .simpleMajority 100 50 101 50 (by decide) (by decide) ((weaker 100 50).1 approved)⟩

end Brace.Democracy
