import Mathlib

/-!
# Positional numbers and a digit of a quotient

A number in a base is its digits, least significant first; `low` is the value of the first ones.
`LongDivision` is one step of the schoolbook division of Knuth's second volume: a dividend of one
digit more than the divisor, and less than the base times the divisor. The quotient of the leading
digits is never too small (`quotient_le_first`), the test of the next digits finds it too large
only when it is (`quotient_lt_of_excess`), and when the test passes it is at most one too large
(`le_quotient_succ`).
-/

namespace Brace.Lib

open Finset Nat

/-! ## Digits -/

/-- The value of the first digits of a number. -/
def low (base : Nat) (digit : Nat → Nat) (count : Nat) : Nat :=
  ∑ place ∈ Finset.range count, digit place * base ^ place

variable {base : Nat} {digit other : Nat → Nat} {count : Nat}

theorem low_zero (base : Nat) (digit : Nat → Nat) : low base digit 0 = 0 := rfl

theorem low_succ (base : Nat) (digit : Nat → Nat) (count : Nat) :
    low base digit (count + 1) = low base digit count + digit count * base ^ count :=
  sum_range_succ _ _

theorem low_add (base : Nat) (digit : Nat → Nat) (first count : Nat) :
    low base digit (first + count) =
      low base digit first +
        base ^ first * low base (fun place => digit (first + place)) count := by
  induction count with
  | zero => simp [low_zero]
  | succ count ih =>
    rw [← add_assoc, low_succ, ih, low_succ, pow_add]
    ring

theorem low_congr (same : ∀ place < count, digit place = other place) :
    low base digit count = low base other count :=
  sum_congr rfl fun place mem => by rw [same place (mem_range.mp mem)]

theorem low_eq_of_zero {more : Nat} (zero : ∀ place, count ≤ place → place < more → digit place = 0)
    (longer : count ≤ more) : low base digit more = low base digit count := by
  induction more, longer using le_induction with
  | base => rfl
  | succ more longer ih =>
    rw [low_succ, ih fun place high mem => zero place high (by omega),
      zero more longer (by omega), zero_mul, add_zero]

theorem low_lt (small : ∀ place < count, digit place < base) :
    low base digit count < base ^ count := by
  induction count with
  | zero => simp [low_zero]
  | succ count ih =>
    have below := ih fun place mem => small place (by omega)
    have bound : (digit count + 1) * base ^ count ≤ base * base ^ count :=
      mul_le_mul_right _ (small count (by omega))
    rw [low_succ, pow_succ]
    linarith

variable {place : Nat}

theorem low_update (mem : place < count) (value : Nat) :
    low base (fun position => if position = place then value else digit position) count +
        digit place * base ^ place =
      low base digit count + value * base ^ place := by
  induction count with
  | zero => omega
  | succ count ih =>
    rw [low_succ, low_succ]
    rcases lt_or_ge place count with before | last
    · have kept := ih before
      rw [if_neg (by omega)]
      linarith
    · obtain rfl : place = count := by omega
      have same : low base (fun position => if position = place then value else digit position)
          place = low base digit place := by
        refine low_congr fun position below => if_neg ?_
        omega
      rw [if_pos rfl, same]
      ring

theorem low_eq_zero_iff (pos : 0 < base) :
    low base digit count = 0 ↔ ∀ place < count, digit place = 0 := by
  have power : ∀ place, digit place * base ^ place = 0 ↔ digit place = 0 := fun place => by
    rw [Nat.mul_eq_zero, or_iff_left (Nat.pow_pos pos).ne']
  rw [low, sum_eq_zero_iff]
  simp only [mem_range, power]

theorem low_digits (base value count : Nat) :
    low base (fun place => value / base ^ place % base) count = value % base ^ count := by
  induction count with
  | zero => simp [low_zero, mod_one]
  | succ count ih =>
    rw [low_succ, ih, pow_succ, mod_mul, mul_comm (base ^ count)]

/-! ## One step of long division -/

/-- The leading digits of a dividend and of a divisor that has one digit less. -/
structure LongDivision where
  base : Nat
  /-- The weight of the digits after those that are looked at. -/
  scale : Nat
  /-- The two leading digits of the dividend, as one number. -/
  top : Nat
  third : Nat
  rest : Nat
  lead : Nat
  next : Nat
  tail : Nat
  third_lt : third < base
  rest_lt : rest < scale
  next_lt : next < base
  tail_lt : tail < scale
  lead_pos : 0 < lead
  fits : (top * base + third) * scale + rest < base * ((lead * base + next) * scale + tail)

namespace LongDivision

theorem lead_le (lead next base scale rest : Nat) :
    lead * base * scale ≤ (lead * base + next) * scale + rest := by
  rw [add_mul]
  omega

theorem lt_lead_succ (lead : Nat) {next base scale rest : Nat} (digit : next < base)
    (less : rest < scale) : (lead * base + next) * scale + rest < (lead + 1) * base * scale := by
  have whole : (lead * base + next + 1) * scale ≤ (lead + 1) * base * scale := by
    refine mul_le_mul_right _ ?_
    rw [add_mul, one_mul]
    omega
  linarith

variable (step : LongDivision)

def dividend : Nat :=
  (step.top * step.base + step.third) * step.scale + step.rest

def divisor : Nat :=
  (step.lead * step.base + step.next) * step.scale + step.tail

/-- The digit to be found. -/
def quotient : Nat := step.dividend / step.divisor

theorem divisor_pos : 0 < step.divisor := by
  have scale := zero_lt_of_lt step.rest_lt
  have base := zero_lt_of_lt step.third_lt
  exact (mul_pos (mul_pos step.lead_pos base) scale).trans_le (lead_le _ _ _ _ _)

theorem quotient_lt_base : step.quotient < step.base :=
  (div_lt_iff_lt_mul step.divisor_pos).mpr step.fits

theorem top_lt : step.top < step.base * step.lead + step.base := by
  by_contra large
  -- otherwise the dividend is at least the base times the divisor
  have more : step.base * (step.lead + 1) ≤ step.top := by
    rw [mul_add, mul_one]
    omega
  have above := lt_lead_succ step.lead step.next_lt step.tail_lt
  have below := lead_le step.top step.third step.base step.scale step.rest
  have scaled := mul_le_mul_left step.base (le_of_lt above)
  have product := mul_le_mul_right (step.base * step.scale) more
  have fits := step.fits
  linarith

/-- **The quotient of the leading digits is not too small.** -/
theorem quotient_le_first : step.quotient ≤ step.top / step.lead := by
  rw [le_div_iff_mul_le step.lead_pos]
  have bound : step.quotient * step.divisor ≤ step.dividend := div_mul_le_self _ _
  by_contra large
  have more : step.top + 1 ≤ step.quotient * step.lead := by omega
  have above : step.dividend < _ := lt_lead_succ step.top step.third_lt step.rest_lt
  have below : _ ≤ step.divisor := lead_le step.lead step.next step.base step.scale step.tail
  have scaled := mul_le_mul_left step.quotient below
  have product := mul_le_mul_right (step.base * step.scale) more
  linarith

variable {step} {estimate remainder : Nat}

section

variable (split : estimate * step.lead + remainder = step.top)

include split

/-- **The test of the next digits fails only for an estimate that is too large.** -/
theorem quotient_lt_of_excess (excess : step.base * remainder + step.third < estimate * step.next) :
    step.quotient < estimate := by
  rw [quotient, div_lt_iff_lt_mul step.divisor_pos]
  have rest := step.rest_lt
  have leading : step.top * step.base + step.third + 1 ≤
      estimate * (step.lead * step.base + step.next) := by
    rw [← split]
    linarith
  have scaled := mul_le_mul_right step.scale leading
  calc step.dividend < (step.top * step.base + step.third + 1) * step.scale := by
        unfold dividend
        linarith
    _ ≤ estimate * (step.lead * step.base + step.next) * step.scale := scaled
    _ ≤ estimate * step.divisor := by
        unfold divisor
        rw [mul_assoc]
        exact mul_le_mul_left _ (le_add_right _ _)

/-- **An estimate that passes the test is at most one too large.** -/
theorem le_quotient_succ (small : estimate < step.base)
    (passes : estimate * step.next ≤ step.base * remainder + step.third) :
    estimate ≤ step.quotient + 1 := by
  have tail := step.tail_lt
  have lead := step.lead_pos
  have leading : estimate * (step.lead * step.base + step.next) ≤
      step.top * step.base + step.third := by
    rw [← split]
    linarith
  -- what the digits not looked at contribute is less than the divisor
  have slack : estimate * step.tail < step.divisor := by
    have first : estimate * step.tail ≤ step.base * step.tail :=
      mul_le_mul_right _ (le_of_lt small)
    have second : step.base * step.tail < step.base * step.scale :=
      mul_lt_mul_of_pos_left tail (by omega)
    have third : step.base * step.scale ≤ step.lead * step.base * step.scale := by
      refine mul_le_mul_right _ ?_
      exact Nat.le_mul_of_pos_left _ lead
    have fourth : _ ≤ step.divisor := lead_le step.lead step.next step.base step.scale step.tail
    omega
  have whole : estimate * step.divisor < step.dividend + step.divisor := by
    have scaled := mul_le_mul_right step.scale leading
    have split : estimate * step.divisor =
        estimate * (step.lead * step.base + step.next) * step.scale + estimate * step.tail := by
      unfold divisor
      ring
    have parts : step.dividend = (step.top * step.base + step.third) * step.scale + step.rest := rfl
    omega
  have bound := lt_mul_div_succ step.dividend step.divisor_pos
  by_contra large
  have more : step.quotient + 2 ≤ estimate := by omega
  have product := mul_le_mul_right step.divisor more
  unfold quotient at product
  linarith

end

end LongDivision

end Brace.Lib
