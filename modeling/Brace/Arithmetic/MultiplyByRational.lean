import Brace.Arithmetic.LongDivision

/-!
# Multiplication of 128-bit numbers by a rational

`multiply_by_rational` of `primitives/arithmetic/src/helpers_128bit.rs` computes `a * b / c`: with
machine integers when the product fits, else with numbers of any size.

The remainder of the long division is converted back and must fit into 128 bits. It is less than
`c`, but a remainder of zero is not stripped, and without normalization it has more than four limbs.
`multiplyByRational_accurate_iff` says for which inputs the function is right; for the others it
panics.
-/

namespace Brace.Arithmetic

open Brace.Lib BigUint Nat

/-- `u128` -/
abbrev U128 := BitVec 128

namespace Helpers128

/-- `split`, into two `u64` limbs. -/
def split (a : U128) : Nat × Nat := (a.toNat / 2 ^ 64, a.toNat % 2 ^ 64)

/-- `to_big_uint` -/
def toBigUint (x : U128) : BigUint :=
  let (xh, xl) := split x
  let (xhh, xhl) := Arithmetic.split xh
  let (xlh, xll) := Arithmetic.split xl
  (fromLimbs [xhh, xhl, xlh, xll]).lstrip

/-- `checked_mul` of `u128` -/
def checkedMul (a b : U128) :
    Option U128 := if a.toNat * b.toNat < 2 ^ 128 then some (a * b) else none

/-- The division of `multiply_by_rational` on big numbers, rounded when the divisor has more than
one limb. -/
def divideRounded (ab : BigUint) (c : U128) : Except Panic BigUint := do
  if (toBigUint c).len = 1 then ab.divUnit (UInt32.ofNat c.toNat)
  else
    let (q, r) := (← ab.div (toBigUint c) true).getD (zero, zero)
    match ← r.tryFromU128 with
    | .error _ => throw .remainder
    | .ok r => if c / 2 < r then q.add (toBigUint 1) else pure q

/-- The branch of `multiply_by_rational` on big numbers. -/
def multiplyBig (a b c : U128) : Except Panic (Except String U128) := do
  let ab ← (toBigUint a).mul (toBigUint b)
  let q ← divideRounded ab.lstrip c
  match ← q.lstrip.tryFromU128 with
  | .ok x => pure (.ok x)
  | .error _ => pure (.error "result cannot fit in u128")

/-- `multiply_by_rational` after the divisions that are tried first. -/
def multiplyReduced (a b c : U128) : Except Panic (Except String U128) :=
  match checkedMul a b with
  | some x => .ok (.ok (x / c))
  | none => multiplyBig a b c

/-- `multiply_by_rational` -/
def multiplyByRational (a b c : U128) : Except Panic (Except String U128) :=
  if a = 0 ∨ b = 0 then .ok (.ok 0)
  else
    let c := if c = 0 then 1 else c
    let (a, b) := if a < b then (b, a) else (a, b)
    if a % c = 0 then multiplyReduced (a / c) b 1
    else if b % c = 0 then multiplyReduced a (b / c) 1
    else multiplyReduced a b c

/-! ## Conversions -/

theorem value_toBigUint (x : U128) : (toBigUint x).value = x.toNat := by
  have bound : x.toNat < 2 ^ 128 := x.isLt
  have toNat : ∀ value, (UInt32.ofNat value).toNat = value % 2 ^ 32 := fun _ => UInt32.toNat_ofNat
  rw [toBigUint, value_lstrip, fromLimbs, if_pos (by simp)]
  simp only [value_cons, value_nil, split, Arithmetic.split, List.length_cons,
    List.length_nil, toNat, B]
  omega

theorem pow_B_four : B ^ 4 = 2 ^ 128 := by
  rw [B, ← pow_mul]

variable {self ab q : BigUint} {c a b : U128}

theorem toNat_pos (nonzero : c ≠ 0) : 0 < c.toNat :=
  pos_of_ne_zero fun zero => nonzero (BitVec.eq_of_toNat_eq zero)

theorem ne_zero_of_le (large : B ≤ c.toNat) : c ≠ 0 := by
  rintro rfl
  exact absurd large (by decide)

theorem len_toBigUint {x : U128} (nonzero : x ≠ 0) :
    0 < (toBigUint x).len ∧ (toBigUint x).len ≤ 4 ∧
      B ^ ((toBigUint x).len - 1) ≤ x.toNat ∧
      (toBigUint x).limb ((toBigUint x).len - 1) ≠ 0 := by
  obtain ⟨number, stripped⟩ : ∃ number : BigUint, toBigUint x = number.lstrip := ⟨_, rfl⟩
  have value := value_toBigUint x
  rw [stripped, value_lstrip] at value
  have some : number.value ≠ 0 := by rw [value]; exact (toNat_pos nonzero).ne'
  have small : number.value < B ^ 4 := by
    rw [value, pow_B_four]
    exact x.isLt
  obtain ⟨least, reached, lead⟩ := len_lstrip some
  rw [value] at reached
  rw [stripped, limb_lstrip]
  exact ⟨least, len_lstrip_le some small, reached, lead⟩

theorem tryFromU128_eq (self : BigUint) :
    self.tryFromU128 = .ok (if self.value < 2 ^ 128 ∧ (self.value ≠ 0 ∨ self.len ≤ 4) then
      .ok (BitVec.ofNat 128 self.value) else .error "cannot fit a number into u128") :=
  self.tryFrom_limbs 4 "u128"

theorem leadingZeros_toBigUint (nonzero : c ≠ 0) :
    leadingZeros (UInt32.ofNat ((toBigUint c).limb ((toBigUint c).len - 1))) = 0 ↔
      c.toNat.log2 % 32 = 31 := by
  obtain ⟨pos, _, _, lead⟩ := len_toBigUint nonzero
  have whole := value_lead (toBigUint c) pos
  have below := (toBigUint c).low_limb_lt ((toBigUint c).len - 1)
  have lead_lt := (toBigUint c).limb_lt ((toBigUint c).len - 1)
  rw [value_toBigUint] at whole
  generalize (toBigUint c).limb ((toBigUint c).len - 1) = first at *
  generalize (toBigUint c).len - 1 = places at *
  have least := log2_self_le lead
  have most : first < 2 ^ (first.log2 + 1) := lt_log2_self
  obtain ⟨log_lt, bits⟩ := leadingZeros_eq lead lead_lt
  have power : B ^ places = 2 ^ (32 * places) := by rw [B, ← pow_mul]
  have log : c.toNat.log2 = first.log2 + 32 * places := by
    rw [log2_eq_iff (toNat_pos nonzero).ne']
    constructor
    · calc 2 ^ (first.log2 + 32 * places) = 2 ^ first.log2 * B ^ places := by rw [power, pow_add]
        _ ≤ first * B ^ places := mul_le_mul_right _ least
        _ ≤ c.toNat := by omega
    · calc c.toNat < (first + 1) * B ^ places := by rw [whole, add_mul, one_mul]; omega
        _ ≤ 2 ^ (first.log2 + 1) * B ^ places := mul_le_mul_right _ most
        _ = 2 ^ (first.log2 + 32 * places + 1) := by rw [power, ← pow_add]; congr 1; omega
  rw [bits, log]
  omega

/-! ## The division of the product -/

theorem divideRounded_of_lt (pos : 0 < ab.len) (nonzero : c ≠ 0) (small : c.toNat < B) :
    ∃ q, divideRounded ab c = .ok q ∧ q.value = ab.value / c.toNat := by
  obtain ⟨some, _, reached, _⟩ := len_toBigUint nonzero
  have one : (toBigUint c).len = 1 := by
    by_contra more
    have large : B ^ 1 ≤ B ^ ((toBigUint c).len - 1) :=
      Nat.pow_le_pow_right (by decide) (by omega)
    rw [pow_one] at large
    omega
  obtain ⟨q, ran, value⟩ := divUnit_spec ab (UInt32.ofNat c.toNat) pos
  have least := toNat_pos nonzero
  refine ⟨q, ?_, ?_⟩
  · rw [divideRounded, if_pos one, ran]
  · rw [value, toNat_ofNat_of_lt small, max_eq_left (by omega)]

theorem divisible_toBigUint (large : B ≤ c.toNat)
    (product : B ^ 4 ≤ ab.value) : BigUint.Divisible ab.lstrip (toBigUint c) := by
  have pos : 0 < B := by decide
  obtain ⟨_, short, _, lead⟩ := len_toBigUint (ne_zero_of_le large)
  have long := lt_len_lstrip product
  have some : ab.value ≠ 0 := by
    have power : 0 < B ^ 4 := Nat.pow_pos pos
    omega
  refine ⟨?_, by omega, lead, ?_⟩
  · have value_lt := (toBigUint c).value_lt
    rw [value_toBigUint] at value_lt
    have more : B ^ 1 < B ^ (toBigUint c).len := by
      rw [pow_one]
      omega
    exact (Nat.pow_lt_pow_iff_right (by decide)).mp more
  · rw [limb_lstrip]
    exact (len_lstrip some).2.2

/-- The division is without remainder, and the divisor needs no normalization. -/
def Unstripped (product divisor : Nat) : Prop :=
  product % divisor = 0 ∧ divisor.log2 % 32 = 31

theorem remainder_converted {r : BigUint} (large : B ≤ c.toNat)
    (product : B ^ 4 ≤ ab.value) (divided : BigUint.Divided ab.lstrip (toBigUint c) q r) :
    (Unstripped ab.value c.toNat →
      r.tryFromU128 = .ok (.error "cannot fit a number into u128")) ∧
    (¬ Unstripped ab.value c.toNat →
      r.tryFromU128 = .ok (.ok (BitVec.ofNat 128 (ab.value % c.toNat)))) := by
  have divisible := divisible_toBigUint large product
  have nonzero := ne_zero_of_le large
  obtain ⟨value_eq, remainder_lt, _, len_r⟩ := divided
  rw [value_lstrip, value_toBigUint] at value_eq
  rw [value_toBigUint] at remainder_lt
  have rest : r.value = ab.value % c.toNat := by
    rw [value_eq, add_comm, add_mul_mod_self_right, mod_eq_of_lt remainder_lt]
  have small : r.value < 2 ^ 128 := lt_trans remainder_lt c.isLt
  have long := lt_len_lstrip product
  have short := (len_toBigUint nonzero).2.1
  have unstripped : Unstripped ab.value c.toNat ↔
      ¬ (r.value < 2 ^ 128 ∧ (r.value ≠ 0 ∨ r.len ≤ 4)) := by
    rw [Unstripped, ← rest, ← leadingZeros_toBigUint nonzero, len_r]
    split <;> omega
  rw [tryFromU128_eq, ← rest]
  refine ⟨fun whole => ?_, fun partly => ?_⟩
  · rw [if_neg (unstripped.mp whole)]
  · rw [if_pos (not_not.mp fun large => partly (unstripped.mpr large))]

/-- **A divisor of several limbs.** -/
theorem divideRounded_of_le (large : B ≤ c.toNat) (product : B ^ 4 ≤ ab.value) :
    (Unstripped ab.value c.toNat → divideRounded ab.lstrip c = .error .remainder) ∧
    (¬ Unstripped ab.value c.toNat → ∃ q, divideRounded ab.lstrip c = .ok q ∧
      q.value = ab.value / c.toNat + if c.toNat / 2 < ab.value % c.toNat then 1 else 0) := by
  have divisible := divisible_toBigUint large product
  obtain ⟨q, r, ran, divided⟩ := div_spec divisible
  obtain ⟨panics, converts⟩ := remainder_converted large product divided
  have two := divisible.two_le
  have several : ¬ (toBigUint c).len = 1 := by omega
  constructor
  · intro whole
    rw [divideRounded, if_neg several, ran, ok_bind, Option.getD_some]
    simp only [panics whole, ok_bind]
    rfl
  · intro partly
    obtain ⟨value_eq, remainder_lt, _, _⟩ := divided
    rw [value_lstrip, value_toBigUint] at value_eq
    rw [value_toBigUint] at remainder_lt
    have quotient : q.value = ab.value / c.toNat := by
      rw [value_eq, add_comm, add_mul_div_right _ _ (by omega), div_eq_of_lt remainder_lt, zero_add]
    have rest_lt : ab.value % c.toNat < 2 ^ 128 :=
      lt_trans (mod_lt _ (by omega)) c.isLt
    have above : c / 2 < BitVec.ofNat 128 (ab.value % c.toNat) ↔
        c.toNat / 2 < ab.value % c.toNat := by
      rw [BitVec.lt_def, BitVec.toNat_udiv, BitVec.toNat_ofNat, mod_eq_of_lt rest_lt]
      rfl
    rw [divideRounded, if_neg several, ran, ok_bind, Option.getD_some]
    simp only [converts partly, ok_bind, above]
    by_cases more : c.toNat / 2 < ab.value % c.toNat
    · obtain ⟨sum, added, _, sum_value⟩ := add_spec q (toBigUint 1)
      refine ⟨sum, by rw [if_pos more, added], ?_⟩
      rw [sum_value, quotient, if_pos more, value_toBigUint]
      rfl
    · exact ⟨q, by rw [if_neg more]; rfl, by rw [quotient, if_neg more, add_zero]⟩

/-! ## The function -/

/-- The result that a value stands for. -/
def fitted (value : Nat) : Except String U128 :=
  if value < 2 ^ 128 then .ok (BitVec.ofNat 128 value) else .error "result cannot fit in u128"

/-- The quotient of a product, rounded down, or up only above one half. -/
def Rounded (product divisor value : Nat) : Prop :=
  value = product / divisor ∨ (divisor / 2 < product % divisor ∧ value = product / divisor + 1)

/-- A panic in the exceptional case, and in every other the rounded quotient if it fits. -/
def Outcome (exceptional : Prop) (product divisor : Nat)
    (result : Except Panic (Except String U128)) : Prop :=
  (exceptional → result = .error .remainder) ∧
  (¬ exceptional → ∃ value, Rounded product divisor value ∧ result = .ok (fitted value))

theorem multiplyBig_of_divided {value : Nat} (multiplied : (toBigUint a).mul (toBigUint b) = .ok ab)
    (divided : divideRounded ab.lstrip c = .ok q) (value_eq : q.value = value)
    (nonzero : value ≠ 0) : multiplyBig a b c = .ok (fitted value) := by
  simp only [multiplyBig, multiplied, divided, ok_bind, tryFromU128_eq, value_lstrip,
    value_eq, fitted, ne_eq, nonzero, not_false_eq_true, true_or, and_true]
  by_cases fits : value < 2 ^ 128
  · simp only [if_pos fits]
    rfl
  · simp only [if_neg fits]
    rfl

/-- When the product does not fit into 128 bits, the zero remainder that is not stripped makes the
function panic; otherwise the result is right. -/
theorem multiplyBig_spec (nonzero : c ≠ 0) (large : 2 ^ 128 ≤ a.toNat * b.toNat) :
    Outcome (B ≤ c.toNat ∧ Unstripped (a.toNat * b.toNat) c.toNat) (a.toNat * b.toNat) c.toNat
      (multiplyBig a b c) := by
  have some : a ≠ 0 := by
    intro zero
    rw [zero] at large
    simp at large
  obtain ⟨ab, multiplied, ab_len, ab_value⟩ :=
    mul_spec (toBigUint a) (toBigUint b) (len_toBigUint some).1
  rw [value_toBigUint, value_toBigUint] at ab_value
  have product : B ^ 4 ≤ ab.value := by rw [pow_B_four, ab_value]; exact large
  have quotient : a.toNat * b.toNat / c.toNat ≠ 0 := by
    have less := c.isLt
    have reached : 1 ≤ a.toNat * b.toNat / c.toNat :=
      (one_le_div_iff (toNat_pos nonzero)).mpr (by omega)
    omega
  rcases lt_or_ge c.toNat B with small | several
  · refine ⟨fun exceptional => absurd exceptional.1 (by omega), fun _ => ?_⟩
    have pos : 0 < ab.lstrip.len := by
      have long := lt_len_lstrip product
      omega
    obtain ⟨q, divided, q_value⟩ := divideRounded_of_lt pos nonzero small
    rw [value_lstrip, ab_value] at q_value
    exact ⟨_, .inl rfl, multiplyBig_of_divided multiplied divided q_value quotient⟩
  · obtain ⟨panics, rounds⟩ := divideRounded_of_le several product
    rw [ab_value] at panics rounds
    constructor
    · intro exceptional
      simp only [multiplyBig, multiplied, ok_bind, panics exceptional.2]
      rfl
    · intro regular
      obtain ⟨q, divided, q_value⟩ := rounds fun whole => regular ⟨several, whole⟩
      refine ⟨q.value, ?_, multiplyBig_of_divided multiplied divided rfl ?_⟩
      · by_cases more : c.toNat / 2 < a.toNat * b.toNat % c.toNat
        · rw [if_pos more] at q_value
          exact .inr ⟨more, q_value⟩
        · rw [if_neg more, add_zero] at q_value
          exact .inl q_value
      · rw [q_value]
        intro zero
        exact quotient (Nat.eq_zero_of_add_eq_zero_right zero)

theorem multiplyReduced_spec (nonzero : c ≠ 0) :
    Outcome (2 ^ 128 ≤ a.toNat * b.toNat ∧ B ≤ c.toNat ∧ Unstripped (a.toNat * b.toNat) c.toNat)
      (a.toNat * b.toNat) c.toNat (multiplyReduced a b c) := by
  unfold multiplyReduced checkedMul
  rcases lt_or_ge (a.toNat * b.toNat) (2 ^ 128) with fits | large
  · refine ⟨fun exceptional => absurd exceptional.1 (by omega), fun _ => ?_⟩
    have small : a.toNat * b.toNat / c.toNat < 2 ^ 128 :=
      lt_of_le_of_lt (div_le_self _ _) fits
    refine ⟨_, .inl rfl, ?_⟩
    have same : a * b / c = BitVec.ofNat 128 (a.toNat * b.toNat / c.toNat) := by
      apply BitVec.eq_of_toNat_eq
      rw [BitVec.toNat_udiv, BitVec.toNat_mul, BitVec.toNat_ofNat, mod_eq_of_lt fits,
        mod_eq_of_lt small]
    rw [if_pos fits, fitted, if_pos small]
    simp only [same]
  · obtain ⟨panics, rounds⟩ := multiplyBig_spec nonzero large
    rw [if_neg (by omega)]
    refine ⟨fun exceptional => panics exceptional.2, fun regular => rounds fun exceptional => ?_⟩
    exact regular ⟨large, exceptional⟩

theorem multiplyReduced_one {product divisor : Nat} (pos : 0 < divisor)
    (whole : product = a.toNat * b.toNat * divisor) :
    ∃ value, Rounded product divisor value ∧ multiplyReduced a b 1 = .ok (fitted value) := by
  have regular : ¬ (2 ^ 128 ≤ a.toNat * b.toNat ∧ B ≤ (1 : U128).toNat ∧
      Unstripped (a.toNat * b.toNat) (1 : U128).toNat) := fun ⟨_, large, _⟩ =>
    absurd large (by decide)
  obtain ⟨value, rounded, ran⟩ := (multiplyReduced_spec (by decide)).2 regular
  refine ⟨value, .inl ?_, ran⟩
  have one : (1 : U128).toNat = 1 := rfl
  rw [one] at rounded
  rw [whole, Nat.mul_div_cancel _ pos]
  rcases rounded with down | ⟨up, _⟩
  · rw [down, Nat.div_one]
  · rw [mod_one] at up
    exact absurd up (not_lt_zero _)

/-- The inputs for which the zero remainder is not stripped: a product that does not fit into 128
bits, a multiple of the divisor although no factor is, and a divisor of several limbs with its
highest bit set. -/
def Exceptional (a b c : U128) : Prop :=
  2 ^ 128 ≤ a.toNat * b.toNat ∧ 2 ^ 32 ≤ c.toNat ∧ c.toNat.log2 % 32 = 31 ∧
    c.toNat ∣ a.toNat * b.toNat ∧ ¬ c.toNat ∣ a.toNat ∧ ¬ c.toNat ∣ b.toNat

/-- The function returns the rounded quotient, or an error if it does not fit. -/
def Accurate (a b c : U128) : Prop :=
  ∃ value, Rounded (a.toNat * b.toNat) (max c.toNat 1) value ∧
    multiplyByRational a b c = .ok (fitted value)

theorem umod_eq_zero_iff (a c : U128) : a % c = 0 ↔ c.toNat ∣ a.toNat := by
  rw [dvd_iff_mod_eq_zero, ← BitVec.toNat_umod]
  exact ⟨fun zero => by rw [zero]; rfl, fun zero => BitVec.eq_of_toNat_eq zero⟩

theorem multiplyOrdered_spec (nonzero : c ≠ 0) :
    Outcome (Exceptional a b c) (a.toNat * b.toNat) c.toNat
      (if a % c = 0 then multiplyReduced (a / c) b 1
        else if b % c = 0 then multiplyReduced a (b / c) 1
        else multiplyReduced a b c) := by
  have pos := toNat_pos nonzero
  by_cases first : c.toNat ∣ a.toNat
  · refine ⟨fun exceptional => absurd first exceptional.2.2.2.2.1, fun _ => ?_⟩
    simp only [if_pos ((umod_eq_zero_iff a c).mpr first)]
    apply multiplyReduced_one pos
    rw [BitVec.toNat_udiv, Nat.mul_right_comm, Nat.div_mul_cancel first]
  · by_cases second : c.toNat ∣ b.toNat
    · refine ⟨fun exceptional => absurd second exceptional.2.2.2.2.2, fun _ => ?_⟩
      simp only [if_neg (mt (umod_eq_zero_iff a c).mp first),
        if_pos ((umod_eq_zero_iff b c).mpr second)]
      apply multiplyReduced_one pos
      rw [BitVec.toNat_udiv, Nat.mul_assoc, Nat.div_mul_cancel second]
    · simp only [if_neg (mt (umod_eq_zero_iff a c).mp first),
        if_neg (mt (umod_eq_zero_iff b c).mp second)]
      obtain ⟨panics, rounds⟩ := multiplyReduced_spec (a := a) (b := b) nonzero
      constructor
      · rintro ⟨large, several, bits, whole, _, _⟩
        exact panics ⟨large, several, dvd_iff_mod_eq_zero.mp whole, bits⟩
      · intro regular
        refine rounds fun ⟨large, several, whole, bits⟩ => ?_
        exact regular ⟨large, several, bits, dvd_iff_mod_eq_zero.mpr whole, first, second⟩

theorem exceptional_comm (a b c : U128) : Exceptional a b c ↔ Exceptional b a c := by
  unfold Exceptional
  rw [mul_comm, and_comm (a := ¬ c.toNat ∣ a.toNat)]

theorem multiplyByRational_spec (a b c : U128) :
    Outcome (Exceptional a b c) (a.toNat * b.toNat) (max c.toNat 1) (multiplyByRational a b c) := by
  unfold multiplyByRational
  by_cases zero : a = 0 ∨ b = 0
  · have product : a.toNat * b.toNat = 0 := by
      rcases zero with rfl | rfl
      · exact zero_mul _
      · exact mul_zero _
    refine ⟨fun exceptional => ?_, fun _ => ⟨0, ?_, ?_⟩⟩
    · have large := exceptional.1
      rw [product] at large
      exact absurd large (by decide)
    · rw [product]
      exact .inl (Nat.zero_div _).symm
    · rw [if_pos zero]
      rfl
  · rw [if_neg zero]
    obtain ⟨divisor, chosen, nonzero, toNat_divisor, same⟩ : ∃ divisor : U128,
        (if c = 0 then 1 else c) = divisor ∧ divisor ≠ 0 ∧ divisor.toNat = max c.toNat 1 ∧
          (Exceptional a b c ↔ Exceptional a b divisor) := by
      by_cases none : c = 0
      · subst none
        refine ⟨1, rfl, by decide, rfl, iff_of_false ?_ ?_⟩
        all_goals exact fun exceptional => absurd exceptional.2.1 (by decide)
      · have some := toNat_pos none
        exact ⟨c, if_neg none, none, by omega, .rfl⟩
    simp only [chosen]
    rw [same, ← toNat_divisor]
    by_cases swapped : a < b
    · rw [exceptional_comm, mul_comm, if_pos swapped]
      exact multiplyOrdered_spec nonzero
    · rw [if_neg swapped]
      exact multiplyOrdered_spec nonzero

/-- **The function is total and accurate exactly outside the exceptional inputs.** -/
theorem multiplyByRational_accurate_iff (a b c : U128) : Accurate a b c ↔ ¬ Exceptional a b c := by
  obtain ⟨panics, accurate⟩ := multiplyByRational_spec a b c
  refine ⟨fun ⟨value, _, ran⟩ exceptional => ?_, accurate⟩
  rw [panics exceptional] at ran
  cases ran

/-- A product that `2 ^ 63` divides although it divides no factor. -/
theorem multiplyByRational_panics :
    ¬ Accurate (BitVec.ofNat 128 (2 ^ 62 * (2 ^ 60 + 1))) (BitVec.ofNat 128 (2 ^ 62 * 3))
      (BitVec.ofNat 128 (2 ^ 63)) := by
  rintro ⟨value, _, ran⟩
  have panics : multiplyByRational (BitVec.ofNat 128 (2 ^ 62 * (2 ^ 60 + 1)))
      (BitVec.ofNat 128 (2 ^ 62 * 3)) (BitVec.ofNat 128 (2 ^ 63)) = .error .remainder := by
    decide +kernel
  rw [panics] at ran
  cases ran

end Helpers128

end Brace.Arithmetic
