import Brace.Arithmetic.QuotientLimb

/-!
# Exactness of the long division

The loop over the limbs of the quotient keeps the balance of dividend, quotient and what is left
of the dividend (`Dividing`). Normalization multiplies both numbers by a power of two that brings
the leading limb of the divisor to at least half the base; the remainder is shifted back when the
power is not one. `div_spec` is the division of every pair of numbers that `div` accepts, with the
lengths of the results: the remainder of a division without normalization keeps all limbs of the
dividend.
-/

namespace Brace.Arithmetic.BigUint

open Brace.Lib Nat

/-! ## The loop -/

/-- A divisor of `n` limbs whose leading limb is at least half the base. -/
structure Normalized (otherNorm : BigUint) (n : Nat) : Prop where
  two_le : 2 ≤ n
  len_eq : otherNorm.len = n
  lead_ge : B ≤ 2 * otherNorm.limb (n - 1)

/-- The limbs of the quotient from `c` on have been found. -/
structure Dividing (total : Nat) (otherNorm : BigUint) (n m c : Nat) (state : BigUint × BigUint) :
    Prop where
  len_self : state.1.len = n + m + 1
  len_q : state.2.len = m + 1
  rest_eq : ∀ place, place < c → state.2.limb place = 0
  balance : total = state.2.value * otherNorm.value + state.1.value
  bound : state.1.value < otherNorm.value * B ^ c

variable {self other otherNorm : BigUint} {total n m : Nat}

variable {j first bits : Nat} {state : BigUint × BigUint} {selfNorm : BigUint}

section

variable (mem : j < m + 1) (normalized : Normalized otherNorm n)
  (dividing : Dividing total otherNorm n m (j + 1) state)

include mem normalized dividing

theorem Dividing.aligned :
    (∀ place, j + n < place → state.1.limb place = 0) ∧ Aligned state.1 otherNorm n j := by
  have bound := dividing.bound
  have ends : ∀ place, j + n < place → state.1.limb place = 0 := by
    intro place beyond
    have divisor := otherNorm.value_lt
    rw [normalized.len_eq] at divisor
    have small : state.1.value < B ^ (n + (j + 1)) := by
      rw [pow_add]
      exact lt_of_lt_of_le bound (mul_le_mul_right _ (le_of_lt divisor))
    exact limb_eq_zero_of_value_lt small (by omega)
  have length := dividing.len_self
  refine ⟨ends, normalized.two_le, normalized.len_eq, by omega, normalized.lead_ge, ?_⟩
  have parts := value_eq_window ends
  have scaled : windowValue state.1 n j * B ^ j < B * otherNorm.value * B ^ j := by
    rw [pow_succ] at bound
    linarith
  exact Nat.lt_of_mul_lt_mul_right scaled

theorem Dividing.step :
    ∃ next, divLimb otherNorm n state j = .ok next ∧ Dividing total otherNorm n m j next := by
  obtain ⟨ends, aligned⟩ := dividing.aligned mem normalized
  obtain ⟨selfNorm, q⟩ := state
  obtain ⟨len_self, len_q, rest, balance, bound⟩ := dividing
  simp only at len_self len_q rest balance bound ends aligned
  have place : j < q.len := by omega
  obtain ⟨next, ran, divided⟩ := divLimb_spec aligned place
  have before := value_eq_window ends
  have after : next.1.value = low B selfNorm.limb j +
      B ^ j * (windowValue selfNorm n j % otherNorm.value) := by
    have ends_next : ∀ place, j + n < place → next.1.limb place = 0 := fun other beyond => by
      rw [divided.above_eq other beyond, ends other beyond]
    rw [value_eq_window ends_next, divided.window_eq]
    congr 1
    exact low_congr divided.below_eq
  refine ⟨next, ran, divided.len_self.trans len_self, divided.len_q.trans len_q, ?_, ?_, ?_⟩
  · intro other below
    rw [divided.limb_q, if_neg (by omega), rest other (by omega)]
  · have quotient : next.2.value = q.value +
        windowValue selfNorm n j / otherNorm.value * B ^ j := by
      have updated : low B (fun other => if other = j then
          windowValue selfNorm n j / otherNorm.value else q.limb other) q.len +
          q.limb j * B ^ j = q.value + windowValue selfNorm n j / otherNorm.value * B ^ j :=
        low_update place _
      rw [rest j (lt_succ_self j), zero_mul, add_zero] at updated
      rw [← updated, value, divided.len_q]
      exact low_congr fun other _ => divided.limb_q other
    have parts := div_add_mod (windowValue selfNorm n j) otherNorm.value
    have scaled := congrArg (B ^ j * ·) parts
    simp only [mul_add] at scaled
    rw [balance, quotient, after, before, ← scaled]
    ring
  · have low := selfNorm.low_limb_lt j
    have less := mod_lt (windowValue selfNorm n j) aligned.remainder_lt.1
    have scaled := mul_le_mul_left (B ^ j) (succ_le_of_lt less)
    rw [mul_succ] at scaled
    rw [after, mul_comm otherNorm.value]
    omega

end

/-- **The loop divides.** -/
theorem divLimb_loop (normalized : Normalized otherNorm n) (length : selfNorm.len = n + m + 1)
    (bound : selfNorm.value < otherNorm.value * B ^ (m + 1)) :
    ∃ left q, (List.range (m + 1)).reverse.foldlM (divLimb otherNorm n)
        (selfNorm, withCapacity (m + 1)) = .ok (left, q) ∧
      left.len = n + m + 1 ∧ q.len = m + 1 ∧
      selfNorm.value = q.value * otherNorm.value + left.value ∧
      left.value < otherNorm.value := by
  have initial : Dividing selfNorm.value otherNorm n m (m + 1) (selfNorm, withCapacity (m + 1)) :=
    ⟨length, by simp, fun _ _ => limb_withCapacity _, by simp, bound⟩
  obtain ⟨⟨left, q⟩, ran, len_left, len_q, _, balance, small⟩ :=
    foldlM_range_reverse initial
      fun j mem state dividing => dividing.step mem normalized
  refine ⟨left, q, ran, len_left, len_q, balance, ?_⟩
  simpa using small

/-! ## Normalization -/

theorem leadingZeros_eq {limb : Nat} (nonzero : limb ≠ 0) (small : limb < B) :
    limb.log2 < 32 ∧ leadingZeros (UInt32.ofNat limb) = 31 - limb.log2 := by
  refine ⟨(log2_lt nonzero).mpr small, ?_⟩
  rw [leadingZeros, if_neg (ofNat_ne_zero nonzero small), toNat_ofNat_of_lt small]
  rfl

theorem leadingZeros_spec {limb : Nat} (nonzero : limb ≠ 0) (small : limb < B) :
    leadingZeros (UInt32.ofNat limb) < 32 ∧
      B ≤ 2 * (limb * 2 ^ leadingZeros (UInt32.ofNat limb)) ∧
      (limb + 1) * 2 ^ leadingZeros (UInt32.ofNat limb) ≤ B := by
  obtain ⟨log_lt, bits⟩ := leadingZeros_eq nonzero small
  have least := log2_self_le nonzero
  have most : limb < 2 ^ (limb.log2 + 1) := lt_log2_self
  have whole : B = 2 ^ (limb.log2 + 1) * 2 ^ (31 - limb.log2) := by
    rw [← pow_add, B]
    congr 1
    omega
  rw [bits]
  refine ⟨by omega, ?_, ?_⟩
  · calc B = 2 * (2 ^ limb.log2 * 2 ^ (31 - limb.log2)) := by rw [whole, pow_succ]; ring
      _ ≤ 2 * (limb * 2 ^ (31 - limb.log2)) :=
        mul_le_mul_left 2 (mul_le_mul_right _ least)
  · rw [whole]
    exact mul_le_mul_right _ most

theorem value_lead (self : BigUint) (pos : 0 < self.len) :
    self.value = low B self.limb (self.len - 1) +
      self.limb (self.len - 1) * B ^ (self.len - 1) := by
  rw [← low_succ, Nat.sub_add_cancel pos, value]

/-- **The divisor multiplied by its normalizer** is normalized and has the same length. -/
theorem normalized_other {product : BigUint} {normalizer : Nat} (two : 2 ≤ other.len)
    (least : B ≤ 2 * (other.limb (other.len - 1) * normalizer))
    (most : (other.limb (other.len - 1) + 1) * normalizer ≤ B)
    (value_eq : product.value = other.value * normalizer) :
    Normalized product.lstrip other.len ∧ B ^ other.len ≤ 2 * product.lstrip.value := by
  obtain ⟨k, length⟩ : ∃ k, other.len = k + 1 := ⟨other.len - 1, by omega⟩
  have whole := value_lead other (by omega)
  rw [length, Nat.add_sub_cancel] at whole least most
  have low := other.low_limb_lt k
  have base : B = 4294967296 := rfl
  have below : product.value < B ^ (k + 1) := by
    have bound : other.value < (other.limb k + 1) * B ^ k := by
      rw [whole, add_mul, one_mul]
      omega
    have pos : 0 < normalizer := by
      rcases Nat.eq_zero_or_pos normalizer with zero | pos
      · rw [zero] at least
        omega
      · exact pos
    calc product.value = other.value * normalizer := value_eq
      _ < (other.limb k + 1) * B ^ k * normalizer := mul_lt_mul_of_pos_right bound pos
      _ = (other.limb k + 1) * normalizer * B ^ k := by ring
      _ ≤ B * B ^ k := mul_le_mul_right _ most
      _ = B ^ (k + 1) := by ring
  have half : B ^ (k + 1) ≤ 2 * product.value := by
    calc B ^ (k + 1) = B * B ^ k := by ring
      _ ≤ 2 * (other.limb k * normalizer) * B ^ k := mul_le_mul_right _ least
      _ = 2 * (other.limb k * B ^ k * normalizer) := by ring
      _ ≤ 2 * product.value := by
        rw [value_eq, whole]
        exact mul_le_mul_left 2 (mul_le_mul_right _ (le_add_left _ _))
  have power : 0 < B ^ k := Nat.pow_pos (by decide)
  have above : B ^ k ≤ product.value := by
    have double : 2 * B ^ k ≤ B ^ (k + 1) := by
      rw [pow_succ, mul_comm]
      exact mul_le_mul_left _ (by decide)
    omega
  have nonzero : product.value ≠ 0 := by omega
  have stripped : product.lstrip.len = k + 1 :=
    le_antisymm (len_lstrip_le nonzero below) (lt_len_lstrip above)
  rw [length, value_lstrip]
  refine ⟨⟨by omega, stripped, ?_⟩, half⟩
  rw [limb_lstrip, Nat.add_sub_cancel]
  have split := value_lead product.lstrip (by omega)
  rw [stripped, value_lstrip, Nat.add_sub_cancel, limb_lstrip] at split
  have lower := product.lstrip.low_limb_lt k
  -- the limbs below the leading one are worth less than one unit of it
  have scaled : B * B ^ k < (2 * product.limb k + 2) * B ^ k := by
    rw [pow_succ] at half
    linarith
  have less := lt_of_mul_lt_mul_right scaled
  omega

/-! ## The remainder -/

theorem toNat_shifted {second : Nat} (first_lt : first < B) (second_lt : second < B)
    (pos : 0 < bits) (small : bits < 32) :
    (UInt32.ofNat first >>> UInt32.ofNat bits |||
        UInt32.ofNat second <<< (32 - UInt32.ofNat bits)).toNat =
      first / 2 ^ bits + second % 2 ^ bits * 2 ^ (32 - bits) := by
  have toNat_bits : (UInt32.ofNat bits).toNat = bits :=
    toNat_ofNat_of_lt (lt_trans small (by decide))
  have le : UInt32.ofNat bits ≤ 32 := by
    rw [UInt32.le_iff_toNat_le, toNat_bits]
    exact le_of_lt small
  have toNat_rest : (32 - UInt32.ofNat bits).toNat = 32 - bits := by
    rw [UInt32.toNat_sub_of_le _ _ le, toNat_bits]
    rfl
  have rest_lt : 32 - bits < 32 := by omega
  have whole : 2 ^ 32 = 2 ^ bits * 2 ^ (32 - bits) := by
    rw [← pow_add]
    congr 1
    omega
  have low_lt : first / 2 ^ bits < 2 ^ (32 - bits) := by
    apply Nat.div_lt_of_lt_mul
    rw [← whole]
    exact first_lt
  rw [UInt32.toNat_or, UInt32.toNat_shiftRight, UInt32.toNat_shiftLeft, toNat_bits, toNat_rest,
    toNat_ofNat_of_lt first_lt, toNat_ofNat_of_lt second_lt, mod_eq_of_lt small,
    mod_eq_of_lt rest_lt, shiftRight_eq_div_pow, shiftLeft_eq, whole,
    Nat.mul_mod_mul_right, ← Nat.shiftLeft_eq, Nat.or_comm, ← Nat.shiftLeft_add_eq_or_of_lt low_lt,
    add_comm]

theorem toNat_shiftedLast {last : Nat} (last_lt : last < B) (small : bits < 32) :
    (UInt32.ofNat last >>> UInt32.ofNat bits).toNat = last / 2 ^ bits := by
  have toNat_bits : (UInt32.ofNat bits).toNat = bits :=
    toNat_ofNat_of_lt (lt_trans small (by decide))
  rw [UInt32.toNat_shiftRight, toNat_bits, toNat_ofNat_of_lt last_lt, mod_eq_of_lt small,
    shiftRight_eq_div_pow]

/-- The limbs below `d` have been shifted. -/
structure Shifted (selfNorm : BigUint) (n bits d : Nat) (r : BigUint) : Prop where
  len_eq : r.len = n
  balance : low B r.limb d * 2 ^ bits + selfNorm.limb 0 % 2 ^ bits =
    low B selfNorm.limb d + selfNorm.limb d % 2 ^ bits * B ^ d

theorem shift_digit {shifted lower carry digit power weight : Nat}
    (balance : shifted * power + carry = lower + digit % power * weight) :
    (shifted + digit / power * weight) * power + carry = lower + digit * weight := by
  calc (shifted + digit / power * weight) * power + carry
      = shifted * power + carry + power * (digit / power) * weight := by ring
    _ = lower + (power * (digit / power) + digit % power) * weight := by rw [balance]; ring
    _ = lower + digit * weight := by rw [div_add_mod]

theorem Shifted.step {r : BigUint} {d : Nat} (mem : d < n - 1) (long : n ≤ selfNorm.len)
    (pos : 0 < bits) (small : bits < 32) (shifted : Shifted selfNorm n bits d r) :
    ∃ next, denormalizeLimb selfNorm (UInt32.ofNat bits) r d = .ok next ∧
      Shifted selfNorm n bits (d + 1) next := by
  obtain ⟨length, balance⟩ := shifted
  have place : d < r.len := by omega
  have here : d < selfNorm.len := by omega
  have there : d + 1 < selfNorm.len := by omega
  refine ⟨r.put d (UInt32.ofNat (selfNorm.limb d) >>> UInt32.ofNat bits |||
    UInt32.ofNat (selfNorm.limb (d + 1)) <<< (32 - UInt32.ofNat bits)), ?_, by simpa using length,
    ?_⟩
  · rw [denormalizeLimb, get_eq here, ok_bind, get_eq there, ok_bind, set_eq place]
  · have whole : 2 ^ (32 - bits) * 2 ^ bits = B := by
      rw [← pow_add, B]
      congr 1
      omega
    rw [low_put place, toNat_shifted (selfNorm.limb_lt d) (selfNorm.limb_lt (d + 1)) pos small,
      low_succ, ← shift_digit balance, pow_succ, ← whole]
    ring

/-- **The shift back divides by the normalizer.** -/
theorem denormalize_spec (two : 2 ≤ n) (long : n ≤ selfNorm.len)
    (pos : 0 < bits) (small : bits < 32) (bound : selfNorm.value < B ^ n) :
    ∃ r, denormalize selfNorm n (UInt32.ofNat bits) = .ok r ∧ r.len = n ∧
      r.value = selfNorm.value / 2 ^ bits := by
  obtain ⟨k, rfl⟩ := Nat.exists_eq_add_of_le' (Nat.le_of_succ_le two)
  have initial : Shifted selfNorm (k + 1) bits 0 (withCapacity (k + 1)) := by
    refine ⟨?_, ?_⟩
    · rw [len_withCapacity]
      omega
    · rw [low_zero, low_zero, pow_zero]
      omega
  obtain ⟨r, ran, length, balance⟩ :=
    foldlM_range (Shifted selfNorm (k + 1) bits) k initial
      fun d mem r shifted => shifted.step mem long pos small
  have place : k < r.len := by omega
  have nonzero : 0 < UInt32.ofNat bits := by
    rw [UInt32.lt_iff_toNat_lt, toNat_ofNat_of_lt (lt_trans small (by decide))]
    exact pos
  refine ⟨r.put k (UInt32.ofNat (selfNorm.limb k) >>> UInt32.ofNat bits), ?_,
    by simpa using length, ?_⟩
  · rw [denormalize, if_pos nonzero, Nat.add_sub_cancel, ran, ok_bind, get_eq long, ok_bind,
      set_eq place]
  · have left : selfNorm.value = low B selfNorm.limb (k + 1) := by
      rw [low_limb_eq_mod, mod_eq_of_lt bound]
    have right : (r.put k (UInt32.ofNat (selfNorm.limb k) >>> UInt32.ofNat bits)).value *
        2 ^ bits + selfNorm.limb 0 % 2 ^ bits = selfNorm.value := by
      rw [value, len_put, length, left, low_put place, low_succ,
        toNat_shiftedLast (selfNorm.limb_lt _) small]
      exact shift_digit balance
    have power : 0 < 2 ^ bits := Nat.two_pow_pos bits
    rw [← right, add_comm, mul_comm, add_mul_div_left _ _ power,
      div_eq_of_lt (mod_lt _ power), zero_add]

/-! ## The division -/

/-- What `div` requires of its operands. -/
structure Divisible (dividend divisor : BigUint) : Prop where
  two_le : 2 ≤ divisor.len
  longer : divisor.len < dividend.len
  divisor_lead : divisor.limb (divisor.len - 1) ≠ 0
  dividend_lead : dividend.limb (dividend.len - 1) ≠ 0

/-- The result of an exact division, with the lengths of the vectors. -/
structure Divided (dividend divisor q r : BigUint) : Prop where
  value_eq : dividend.value = q.value * divisor.value + r.value
  remainder_lt : r.value < divisor.value
  len_q : q.len = dividend.len - divisor.len + 1
  /-- Without normalization, the remainder keeps the limbs of the dividend and one more. -/
  len_r : r.len = if leadingZeros (UInt32.ofNat (divisor.limb (divisor.len - 1))) = 0
    then dividend.len + 1 else divisor.len

theorem denormalize_eq {left : BigUint} (two : 2 ≤ n) (long : n ≤ left.len)
    (small : bits < 32) (bound : left.value < B ^ n) :
    ∃ r, denormalize left n (UInt32.ofNat bits) = .ok r ∧ r.value = left.value / 2 ^ bits ∧
      r.len = if bits = 0 then left.len else n := by
  rcases Nat.eq_zero_or_pos bits with zero | pos
  · subst zero
    exact ⟨left, rfl, by simp, rfl⟩
  · obtain ⟨r, ran, length, value_eq⟩ := denormalize_spec two long pos small bound
    exact ⟨r, ran, value_eq, by rw [length, if_neg (by omega)]⟩

theorem dividend_lt {value divisor rest : Nat} (small : bits < 32)
    (fits : value < B ^ (first + rest)) (half : B ^ first ≤ 2 * divisor) :
    value * 2 ^ bits < divisor * B ^ (rest + 1) := by
  have normalizer : 2 * 2 ^ bits ≤ B := by
    rw [mul_comm, ← pow_succ]
    exact Nat.pow_le_pow_right (by decide) small
  have scaled : value * 2 ^ bits < B ^ (first + rest) * 2 ^ bits :=
    Nat.mul_lt_mul_of_pos_right fits (Nat.two_pow_pos bits)
  have bound : B ^ (first + rest) * (2 * 2 ^ bits) ≤ 2 * divisor * B ^ (rest + 1) := by
    calc B ^ (first + rest) * (2 * 2 ^ bits) ≤ B ^ (first + rest) * B :=
          mul_le_mul_left _ normalizer
      _ = B ^ first * B ^ (rest + 1) := by ring
      _ ≤ 2 * divisor * B ^ (rest + 1) := mul_le_mul_right _ half
  linarith

/-- **The long division is exact.** -/
theorem divLong_spec (divisible : Divisible self other) :
    ∃ q r, divLong self other true = .ok (q, r) ∧ Divided self other q r := by
  obtain ⟨two, longer, lead, _⟩ := divisible
  obtain ⟨bits_lt, least, most⟩ := leadingZeros_spec lead (other.limb_lt _)
  generalize bits_eq : leadingZeros (UInt32.ofNat (other.limb (other.len - 1))) = bits at *
  have power : 0 < 2 ^ bits := Nat.two_pow_pos bits
  have small : 2 ^ bits < B := Nat.pow_lt_pow_right (by decide) bits_lt
  have normalizer : single (2 ^ bits) = .ok (UInt32.ofNat (2 ^ bits)) := if_pos small
  have factor : (fromSingle (UInt32.ofNat (2 ^ bits))).value = 2 ^ bits := by
    rw [value_fromSingle, toNat_ofNat_of_lt small]
  have one : (fromSingle (UInt32.ofNat (2 ^ bits))).len = 1 := rfl
  -- step D1
  obtain ⟨selfNorm, scaled, self_len, self_value⟩ :=
    mul_spec self (fromSingle (UInt32.ofNat (2 ^ bits))) (by omega)
  obtain ⟨product, multiplied, _, product_value⟩ :=
    mul_spec other (fromSingle (UInt32.ofNat (2 ^ bits))) (by omega)
  rw [factor] at self_value product_value
  obtain ⟨normalized, half⟩ := normalized_other two least most product_value
  have self_len : selfNorm.len = other.len + (self.len - other.len) + 1 := by omega
  have padded : selfNorm.lpad (other.len + (self.len - other.len) + 1) = selfNorm :=
    if_pos (le_of_eq self_len.symm)
  -- step D2
  have bound : selfNorm.value < product.lstrip.value * B ^ (self.len - other.len + 1) := by
    have fits := self.value_lt
    rw [show self.len = other.len + (self.len - other.len) by omega] at fits
    rw [self_value]
    exact dividend_lt bits_lt fits half
  obtain ⟨left, q, divided, left_len, q_len, balance, left_lt⟩ :=
    divLimb_loop normalized self_len bound
  have divisor_lt := product.lstrip.value_lt
  rw [normalized.len_eq] at divisor_lt
  obtain ⟨r, shifted, r_value, r_len⟩ :=
    denormalize_eq two (by omega : other.len ≤ left.len) bits_lt (lt_trans left_lt divisor_lt)
  rw [value_lstrip, product_value] at balance left_lt
  refine ⟨q, r, ?_, ?_, ?_, q_len, ?_⟩
  · have leading := msb_eq (show 0 < other.len by omega)
    simp only [divLong, leading, ok_bind, bits_eq, normalizer, scaled, multiplied, padded, divided,
      if_true, shifted]
    rfl
  · have whole : (self.value * 2 ^ bits) / 2 ^ bits =
        (q.value * other.value * 2 ^ bits + left.value) / 2 ^ bits := by
      rw [← self_value, balance]
      ring_nf
    rw [Nat.mul_div_cancel _ power, Nat.add_comm, Nat.mul_comm _ (2 ^ bits),
      add_mul_div_left _ _ power, ← r_value] at whole
    omega
  · rw [r_value]
    apply Nat.div_lt_of_lt_mul
    rw [mul_comm]
    exact left_lt
  · rw [r_len, bits_eq, left_len]
    have same : other.len + (self.len - other.len) + 1 = self.len + 1 := by omega
    rw [same]

/-- **Division of every pair of numbers that `div` accepts.** -/
theorem div_spec (divisible : Divisible self other) :
    ∃ q r, div self other true = .ok (some (q, r)) ∧ Divided self other q r := by
  obtain ⟨q, r, ran, divided⟩ := divLong_spec divisible
  obtain ⟨two, longer, other_lead, self_lead⟩ := divisible
  refine ⟨q, r, ?_, divided⟩
  rw [div, if_neg (by omega), msb_eq (show 0 < other.len by omega), ok_bind,
    if_neg (ofNat_ne_zero other_lead (other.limb_lt _)), msb_eq (show 0 < self.len by omega),
    ok_bind, if_neg (ofNat_ne_zero self_lead (self.limb_lt _)), if_neg (by omega), ran, ok_bind]
  rfl

/-- What the documentation of `div` promises: an exact quotient and remainder of numbers that can be
divided, and `None` for all others. -/
def DividesExactly (self other : BigUint) : Prop :=
  (Divisible self other → ∃ q r, div self other true = .ok (some (q, r)) ∧
    self.value = q.value * other.value + r.value ∧ r.value < other.value) ∧
  (¬ Divisible self other → ∀ rem, div self other rem = .ok none)

/-- The dividend has no limb, which only `default` makes, and the divisor is accepted. -/
def ReadsNoLimb (self other : BigUint) : Prop :=
  self.len = 0 ∧ 2 ≤ other.len ∧ other.limb (other.len - 1) ≠ 0

theorem div_panics {self other : BigUint} (empty : ReadsNoLimb self other) (rem : Bool) :
    div self other rem = .error .index := by
  obtain ⟨none, two, lead⟩ := empty
  have unread : self.msb = .error .index := by
    rw [msb, List.eq_nil_of_length_eq_zero none]
  rw [div, if_neg (by omega), msb_eq (show 0 < other.len by omega), ok_bind,
    if_neg (ofNat_ne_zero lead (other.limb_lt _)), unread]
  rfl

theorem div_refused {self other : BigUint} (refused : ¬ Divisible self other)
    (limbs : ¬ ReadsNoLimb self other) (rem : Bool) : div self other rem = .ok none := by
  by_cases two : other.len ≤ 1
  · rw [div, if_pos two]
    rfl
  by_cases other_lead : other.limb (other.len - 1) = 0
  · rw [div, if_neg two, msb_eq (show 0 < other.len by omega), other_lead]
    rfl
  have pos : 0 < self.len := by
    by_contra none
    exact limbs ⟨by omega, by omega, other_lead⟩
  rw [div, if_neg two, msb_eq (show 0 < other.len by omega), ok_bind,
    if_neg (ofNat_ne_zero other_lead (other.limb_lt _)), msb_eq pos, ok_bind]
  by_cases self_lead : self.limb (self.len - 1) = 0
  · rw [self_lead]
    rfl
  have short : self.len ≤ other.len := by
    by_contra longer
    exact refused ⟨by omega, by omega, other_lead, self_lead⟩
  rw [if_neg (ofNat_ne_zero self_lead (self.limb_lt _)), if_pos short]
  rfl

/-- **Division of every pair of numbers** is as documented exactly when the dividend has a limb or
the divisor is refused; otherwise it panics. -/
theorem dividesExactly_iff (self other : BigUint) :
    (DividesExactly self other ↔ ¬ ReadsNoLimb self other) ∧
      (ReadsNoLimb self other → ∀ rem, div self other rem = .error .index) := by
  refine ⟨⟨fun exact empty => ?_, fun limbs => ⟨fun divisible => ?_, fun refused =>
    div_refused refused limbs⟩⟩, fun empty => div_panics empty⟩
  · have shorter : ¬ Divisible self other := fun divisible =>
      absurd (empty.1 ▸ divisible.longer) (Nat.not_lt_zero _)
    have returned := exact.2 shorter true
    rw [div_panics empty] at returned
    cases returned
  · obtain ⟨q, r, ran, divided⟩ := div_spec divisible
    exact ⟨q, r, ran, divided.value_eq, divided.remainder_lt⟩

/-- Three limbs by two are divided, and no limb by two panics. -/
theorem dividesExactly_three_by_two :
    (∃ q r, div ⟨[1, 2, 3]⟩ ⟨[1, 1]⟩ true = .ok (some (q, r)) ∧ r.value < value ⟨[1, 1]⟩) ∧
      div ⟨[]⟩ ⟨[1, 1]⟩ true = .error .index := by
  refine ⟨?_, (dividesExactly_iff ⟨[]⟩ ⟨[1, 1]⟩).2 ⟨by decide, by decide, by decide⟩ true⟩
  obtain ⟨q, r, ran, -, small⟩ := ((dividesExactly_iff ⟨[1, 2, 3]⟩ ⟨[1, 1]⟩).1.mpr
    fun empty => absurd empty.1 (by decide)).1 ⟨by decide, by decide, by decide, by decide⟩
  exact ⟨q, r, ran, small⟩

/-- The default number as the dividend panics. -/
theorem div_default :
    ¬ DividesExactly ⟨[]⟩ ⟨[1, 0]⟩ ∧ div ⟨[]⟩ ⟨[1, 0]⟩ true = .error .index := by
  refine ⟨fun exact => ?_, rfl⟩
  have short : ¬ Divisible ⟨[]⟩ ⟨[1, 0]⟩ := fun divisible => absurd divisible.longer (by decide)
  have returned := exact.2 short true
  cases returned

end Brace.Arithmetic.BigUint
