import Brace.Arithmetic.PerThings

/-!
# The approximation of a fraction

`from_rational_approximation` of unsigned integers. Both are divided by the factor that brings the
denominator below twice the accuracy, so that no conversion fails; the two truncations together
move the result by less than two parts (`fromRationalApproximation_bounds`). Of nothing it is
nothing, also when the denominator is zero.
-/

namespace Brace.Arithmetic.PerThing

open Brace.Lib Nat Max

variable {kind : PerThingKind} {p q : Nat}

variable (kind)

/-- The factor by which both integers are divided. -/
def factor (q : Nat) : Nat := max (q / kind.max) 1

/-- The parts of a fraction of at most one. -/
def approximation (p q : Nat) : Nat :=
  p / factor kind q * kind.max / (q / factor kind q)

theorem factor_pos (q : Nat) : 0 < factor kind q :=
  lt_of_lt_of_le zero_lt_one (le_max_right _ _)

theorem factor_cases (q : Nat) : factor kind q = 1 ∨ factor kind q * kind.max ≤ q := by
  unfold factor
  rcases le_total (q / kind.max) 1 with small | large
  · exact .inl (max_eq_right small)
  · rw [max_eq_left large]
    exact .inr (div_mul_le_self _ _)

theorem reduced_lt (q : Nat) : q / factor kind q < 2 * kind.max := by
  have positive : 0 < kind.max := lt_of_lt_of_le (by decide) kind.hundred_le
  rw [div_lt_iff_lt_mul (factor_pos kind q), factor]
  have less := lt_div_mul_add positive (a := q)
  have first : q / kind.max * kind.max ≤ max (q / kind.max) 1 * kind.max :=
    mul_le_mul_right _ (le_max_left _ _)
  have second : 1 * kind.max ≤ max (q / kind.max) 1 * kind.max :=
    mul_le_mul_right _ (le_max_right _ _)
  linarith

theorem fromRationalApproximation_eq (p q : Nat) :
    fromRationalApproximation kind p q =
      .ok (cast kind (approximation kind (min p (max q 1)) (max q 1))) := by
  generalize denominator_eq : max q 1 = denominator
  generalize numerator_eq : min p denominator = numerator
  have bound := kind.double_lt
  have less := reduced_lt kind denominator
  have reduced : numerator / factor kind denominator ≤ denominator / factor kind denominator :=
    Nat.div_le_div_right (by omega)
  have divisor : max ((denominator : Int).tdiv kind.max) 1 = factor kind denominator := by
    rw [factor]
    push_cast
    rfl
  have into : ∀ value : Nat, value < 2 * kind.max → tryInto kind (value : Int) = .ok value := by
    intro value small
    have inner : (value : Int) < 2 ^ kind.bits := by
      exact_mod_cast lt_of_lt_of_le small (by omega)
    rw [tryInto, if_pos ⟨by omega, inner⟩, Int.toNat_natCast]
  have fits : numerator / factor kind denominator * kind.max < 2 ^ (2 * kind.bits) := by
    rw [two_mul, pow_add]
    exact mul_lt_mul'' (by omega) (max_lt kind)
  have first : (max (q : Int) 1) = denominator := by omega
  have second : (min (p : Int) denominator) = numerator := by omega
  simp only [fromRationalApproximation, first, second, divisor]
  rw [← Int.ofNat_tdiv, ← Int.ofNat_tdiv]
  rw [into _ less, ok_bind, into _ (by omega), ok_bind, checked, if_pos fits, ok_bind]
  rfl

variable {kind}

theorem reduced_pos (some : 1 ≤ q) : 0 < q / factor kind q := by
  apply div_pos _ (factor_pos kind q)
  rcases factor_cases kind q with one | wholes
  · omega
  · have hundred := kind.hundred_le
    exact Nat.le_trans (Nat.le_mul_of_pos_right _ (by omega)) wholes

theorem approximation_le (less : p ≤ q) : approximation kind p q ≤ kind.max :=
  Nat.div_le_of_le_mul (Nat.mul_le_mul_right _ (Nat.div_le_div_right less))

theorem approximation_error (less : p ≤ q) (some : 1 ≤ q) :
    approximation kind p q * q < p * kind.max + 2 * q ∧
      p * kind.max < approximation kind p q * q + 2 * q := by
  have parts_le : approximation kind p q ≤ kind.max := approximation_le less
  have positive := factor_pos kind q
  have reduced : 0 < q / factor kind q := reduced_pos some
  rcases factor_cases kind q with one | wholes
  · unfold approximation at *
    rw [one, Nat.div_one, Nat.div_one] at *
    have low := div_mul_le_self (p * kind.max) q
    have high := lt_div_mul_add some (a := p * kind.max)
    omega
  · -- the truncations of the numerator, of the denominator and of the quotient
    have p_low := div_mul_le_self p (factor kind q)
    have p_high := lt_div_mul_add positive (a := p)
    have q_low := div_mul_le_self q (factor kind q)
    have q_high := lt_div_mul_add positive (a := q)
    have low := div_mul_le_self (p / factor kind q * kind.max) (q / factor kind q)
    have high := lt_div_mul_add reduced (a := p / factor kind q * kind.max)
    change approximation kind p q * (q / factor kind q) ≤ _ at low
    change _ < approximation kind p q * (q / factor kind q) + _ at high
    generalize approximation kind p q = parts at *
    generalize p / factor kind q = numerator at *
    generalize q / factor kind q = denominator at *
    generalize factor kind q = f at *
    constructor <;> nlinarith

/-- **A bounded approximation without an overflow**: at most everything, everything of what is at
least the denominator, nothing of nothing, monotone, and less than two parts away. -/
theorem fromRationalApproximation_bounds (kind : PerThingKind) (p q : Nat) :
    ∃ value, fromRationalApproximation kind p q = .ok value ∧ value.parts ≤ kind.max ∧
      (q ≤ p → 1 ≤ p → value.parts = kind.max) ∧ (p = 0 → value.parts = 0) ∧
      (∀ more, p ≤ more → ∃ larger, fromRationalApproximation kind more q = .ok larger ∧
        value.parts ≤ larger.parts) ∧
      (p ≤ q → 1 ≤ q → |(value.parts : ℚ) - p * kind.max / q| < 2) := by
  have some : 1 ≤ Max.max q 1 := le_max_right q 1
  have parts : ∀ p, (cast kind (approximation kind (min p (Max.max q 1)) (Max.max q 1))).parts =
      approximation kind (min p (Max.max q 1)) (Max.max q 1) := fun p =>
    mod_eq_of_lt (lt_of_le_of_lt (approximation_le (min_le_right _ _)) (max_lt kind))
  refine ⟨_, fromRationalApproximation_eq kind p q, ?_, ?_, ?_, ?_, ?_⟩
  · rw [parts]
    exact approximation_le (min_le_right _ _)
  · intro least positive
    rw [parts, min_eq_right (by omega), approximation, Nat.mul_div_cancel_left _ (reduced_pos some)]
  · rintro rfl
    rw [parts, Nat.zero_min, approximation, Nat.zero_div, Nat.zero_mul, Nat.zero_div]
  · intro more less
    refine ⟨_, fromRationalApproximation_eq kind more q, ?_⟩
    rw [parts, parts]
    refine Nat.div_le_div_right (Nat.mul_le_mul_right _ (Nat.div_le_div_right ?_))
    omega
  · intro less positive
    rw [parts, max_eq_left positive, min_eq_left less]
    obtain ⟨above, below⟩ := @approximation_error kind p q less positive
    have nonzero : (0 : ℚ) < q := by exact_mod_cast positive
    have above : (approximation kind p q : ℚ) * q < p * kind.max + 2 * q := by exact_mod_cast above
    have below : (p * kind.max : ℚ) < approximation kind p q * q + 2 * q := by exact_mod_cast below
    rw [abs_sub_lt_iff, sub_lt_iff_lt_add, sub_lt_iff_lt_add]
    constructor
    · rw [← sub_lt_iff_lt_add', lt_div_iff₀ nonzero]
      linarith
    · rw [div_lt_iff₀ nonzero]
      linarith

/-- A third, in percent. -/
theorem fromRationalApproximation_third :
    ∃ value, fromRationalApproximation .percent 1 3 = .ok value ∧
      |(value.parts : ℚ) - (1 : Nat) * PerThingKind.percent.max / (3 : Nat)| < 2 := by
  obtain ⟨value, returned, -, -, -, -, close⟩ := fromRationalApproximation_bounds .percent 1 3
  exact ⟨value, returned, close (by decide) (by decide)⟩

/-- Nothing of nothing is nothing, although it is not less than the denominator. -/
theorem fromRationalApproximation_zero :
    (fromRationalApproximation .percent 0 0).map parts = .ok 0 := rfl

end Brace.Arithmetic.PerThing
