import Brace.Arithmetic.RingOps

/-!
# One limb of a quotient

Steps D3 to D6 of the long division. At a limb `j` of the quotient, the limbs of the dividend from
`j` to `j + n` are a number `Aligned` with the divisor: less than the base times it. The estimate
is the quotient of the two or one more (`estimate_spec`), and after the subtraction, and the
addition back when it went below zero, these limbs are the remainder (`divLimb_spec`).
-/

namespace Brace.Arithmetic.BigUint

open Brace.Lib List Nat

/-- The value of the limbs from `j` to `j + n`. -/
def windowValue (selfNorm : BigUint) (n j : Nat) : Nat :=
  low B (fun place => selfNorm.limb (j + place)) (n + 1)

/-- The limbs from `j` on can be divided by a normalized number of `n` limbs. -/
structure Aligned (selfNorm otherNorm : BigUint) (n j : Nat) : Prop where
  two_le : 2 ≤ n
  len_eq : otherNorm.len = n
  room : j + n < selfNorm.len
  lead_ge : B ≤ 2 * otherNorm.limb (n - 1)
  window_lt : windowValue selfNorm n j < B * otherNorm.value

variable {selfNorm otherNorm : BigUint} {n j : Nat}

namespace Aligned

theorem window_eq (aligned : Aligned selfNorm otherNorm n j) :
    windowValue selfNorm n j =
      ((selfNorm.limb (j + n) * B + selfNorm.limb (j + n - 1)) * B + selfNorm.limb (j + n - 2)) *
        B ^ (n - 2) + low B (fun place => selfNorm.limb (j + place)) (n - 2) := by
  obtain ⟨k, rfl⟩ := Nat.exists_eq_add_of_le' aligned.two_le
  have first : j + (k + 2) - 1 = j + (k + 1) := by omega
  have second : j + (k + 2) - 2 = j + k := by omega
  rw [windowValue, low_succ, low_succ, low_succ, first, second, Nat.add_sub_cancel]
  ring

theorem other_eq (aligned : Aligned selfNorm otherNorm n j) :
    otherNorm.value = (otherNorm.limb (n - 1) * B + otherNorm.limb (n - 2)) * B ^ (n - 2) +
      low B otherNorm.limb (n - 2) := by
  obtain ⟨k, rfl⟩ := Nat.exists_eq_add_of_le' aligned.two_le
  rw [value, aligned.len_eq, low_succ, low_succ]
  simp only [Nat.add_sub_cancel, show k + 2 - 1 = k + 1 from rfl]
  ring

variable (aligned : Aligned selfNorm otherNorm n j)

/-- The step of the long division at the window. -/
def step : LongDivision where
  base := B
  scale := B ^ (n - 2)
  top := selfNorm.limb (j + n) * B + selfNorm.limb (j + n - 1)
  third := selfNorm.limb (j + n - 2)
  rest := low B (fun place => selfNorm.limb (j + place)) (n - 2)
  lead := otherNorm.limb (n - 1)
  next := otherNorm.limb (n - 2)
  tail := low B otherNorm.limb (n - 2)
  third_lt := selfNorm.limb_lt _
  rest_lt := low_lt fun place _ => selfNorm.limb_lt _
  next_lt := otherNorm.limb_lt _
  tail_lt := otherNorm.low_limb_lt _
  lead_pos := by
    have lead := aligned.lead_ge
    have base : B = 4294967296 := rfl
    omega
  fits := by
    rw [← aligned.window_eq, ← aligned.other_eq]
    exact aligned.window_lt

theorem quotient_eq : aligned.step.quotient = windowValue selfNorm n j / otherNorm.value := by
  rw [aligned.window_eq, aligned.other_eq]
  rfl

end Aligned

/-! ## The estimate -/

/-- An estimate that is not too small, with its remainder. -/
structure Candidate (step : LongDivision) (qhat rhat : Nat) : Prop where
  split : qhat * step.lead + rhat = step.top
  quotient_le : step.quotient ≤ qhat

variable {qhat rhat : Nat} {source : BigUint}

section

variable (aligned : Aligned selfNorm otherNorm n j) (candidate : Candidate aligned.step qhat rhat)

include aligned candidate

theorem Candidate.le : qhat ≤ B + 1 := by
  have top := aligned.step.top_lt
  have split := candidate.split
  have lead : aligned.step.base ≤ 2 * aligned.step.lead := aligned.lead_ge
  have bound : qhat * aligned.step.lead < (aligned.step.base + 2) * aligned.step.lead := by
    rw [Nat.add_mul]
    omega
  have less := Nat.lt_of_mul_lt_mul_right bound
  exact Nat.le_of_lt_succ less

theorem Candidate.lt_of_le (large : B ≤ rhat) : qhat < B := by
  have top := aligned.step.top_lt
  have split := candidate.split
  have same : aligned.step.base = B := rfl
  have bound : qhat * aligned.step.lead < B * aligned.step.lead := by
    rw [same] at top
    omega
  exact Nat.lt_of_mul_lt_mul_right bound

theorem test_spec (small : rhat < B) :
    (test selfNorm otherNorm n j qhat rhat =
        .ok (true, qhat - 1, rhat + otherNorm.limb (n - 1)) ∧
      Candidate aligned.step (qhat - 1) (rhat + otherNorm.limb (n - 1))) ∨
    (test selfNorm otherNorm n j qhat rhat = .ok (false, qhat, rhat) ∧ qhat < B ∧
      qhat * otherNorm.limb (n - 2) ≤ B * rhat + selfNorm.limb (j + n - 2)) := by
  have two := aligned.two_le
  have length := aligned.len_eq
  have room := aligned.room
  have most := candidate.le aligned
  have lead := otherNorm.limb_lt (n - 1)
  have base : B = 4294967296 := rfl
  have square : B * B = 18446744073709551616 := rfl
  have left : qhat * otherNorm.limb (n - 2) < B * B := by
    have next := otherNorm.limb_lt (n - 2)
    have product := mul_le_mul most (le_sub_one_of_lt next)
    have edge : (B + 1) * (B - 1) < B * B := by decide
    omega
  have right : B * rhat + selfNorm.limb (j + n - 2) < B * B := by
    have third := selfNorm.limb_lt (j + n - 2)
    have product := mul_le_mul_left B (succ_le_of_lt small)
    rw [mul_succ] at product
    omega
  have sum : rhat + otherNorm.limb (n - 1) < B * B := by omega
  have first : n - 2 < otherNorm.len := by omega
  have second : j + n - 2 < selfNorm.len := by omega
  have third : n - 1 < otherNorm.len := by omega
  by_cases decreased : B ≤ qhat ∨
      B * rhat + selfNorm.limb (j + n - 2) < qhat * otherNorm.limb (n - 2)
  · left
    have above : aligned.step.quotient < qhat := by
      rcases decreased with large | excess
      · exact lt_of_lt_of_le aligned.step.quotient_lt_base large
      · exact LongDivision.quotient_lt_of_excess candidate.split excess
    have pos : 1 ≤ qhat := by omega
    refine ⟨?_, ?_, by omega⟩
    · simp only [test, get_eq first, get_eq second, get_eq third, ok_bind, toNat_limb,
        double_eq left, double_eq right, if_pos decreased, minus_eq pos, double_eq sum]
      rfl
    · have split := candidate.split
      have same : aligned.step.lead = otherNorm.limb (n - 1) := rfl
      rw [same] at split ⊢
      obtain ⟨less, rfl⟩ := Nat.exists_eq_add_of_le' pos
      rw [Nat.add_sub_cancel]
      rw [add_mul, one_mul] at split
      omega
  · right
    simp only [not_or, not_le, not_lt] at decreased
    refine ⟨?_, decreased.1, decreased.2⟩
    have kept : ¬ (B ≤ qhat ∨
        B * rhat + selfNorm.limb (j + n - 2) < qhat * otherNorm.limb (n - 2)) := by omega
    simp only [test, get_eq first, get_eq second, ok_bind, toNat_limb, double_eq left,
      double_eq right, if_neg kept]
    rfl

end

/-- An estimate that is right or one too large. -/
structure Estimated (step : LongDivision) (qhat : Nat) : Prop where
  quotient_le : step.quotient ≤ qhat
  le_succ : qhat ≤ step.quotient + 1
  lt_base : qhat < step.base

section

variable (aligned : Aligned selfNorm otherNorm n j)

include aligned

section

variable (candidate : Candidate aligned.step qhat rhat)

include candidate

theorem Candidate.estimated (small : qhat < B)
    (passes : qhat * otherNorm.limb (n - 2) ≤ B * rhat + selfNorm.limb (j + n - 2)) :
    Estimated aligned.step qhat :=
  ⟨candidate.quotient_le, LongDivision.le_quotient_succ candidate.split small passes, small⟩

theorem Candidate.estimated_of_le (large : B ≤ rhat) : Estimated aligned.step qhat := by
  have less := candidate.lt_of_le aligned large
  refine candidate.estimated aligned less ?_
  have next := otherNorm.limb_lt (n - 2)
  calc qhat * otherNorm.limb (n - 2) ≤ B * B :=
        Nat.mul_le_mul (Nat.le_of_lt less) (Nat.le_of_lt next)
    _ ≤ B * rhat := mul_le_mul_left B large
    _ ≤ B * rhat + selfNorm.limb (j + n - 2) := le_add_right _ _

/-- **The loop ends, and what it ends with is right or one too large.** -/
theorem testLoop_spec {fuel : Nat} (enough : B ≤ rhat + fuel * otherNorm.limb (n - 1)) :
    ∃ result, testLoop selfNorm otherNorm n j (fuel + 1) qhat rhat = .ok result ∧
      Estimated aligned.step result := by
  induction fuel generalizing qhat rhat with
  | zero =>
    have large : B ≤ rhat := by omega
    refine ⟨qhat, ?_, candidate.estimated_of_le aligned large⟩
    rw [testLoop, if_neg (by omega)]
    rfl
  | succ fuel ih =>
    rcases lt_or_ge rhat B with small | large
    · rw [testLoop, if_pos small]
      rcases test_spec aligned candidate small with ⟨decreased, next⟩ | ⟨kept, less, passes⟩
      · have more : B ≤ rhat + otherNorm.limb (n - 1) + fuel * otherNorm.limb (n - 1) := by
          rw [add_mul, one_mul] at enough
          omega
        obtain ⟨result, ran, estimated⟩ := ih next more
        refine ⟨result, ?_, estimated⟩
        simp only [decreased, ok_bind, if_pos]
        exact ran
      · refine ⟨qhat, ?_, candidate.estimated aligned less passes⟩
        simp only [kept, ok_bind]
        rfl
    · refine ⟨qhat, ?_, candidate.estimated_of_le aligned large⟩
      rw [testLoop, if_neg (by omega)]
      rfl

end

theorem candidate_first :
    Candidate aligned.step
      ((selfNorm.limb (j + n) * B + selfNorm.limb (j + n - 1)) / otherNorm.limb (n - 1))
      ((selfNorm.limb (j + n) * B + selfNorm.limb (j + n - 1)) % otherNorm.limb (n - 1)) :=
  ⟨div_add_mod' _ _, aligned.step.quotient_le_first⟩

/-- **The estimate is the quotient or one more.** -/
theorem estimate_spec :
    ∃ qhat, estimate selfNorm otherNorm n j = .ok qhat ∧ Estimated aligned.step qhat := by
  have two := aligned.two_le
  have length := aligned.len_eq
  have room := aligned.room
  have lead := aligned.lead_ge
  have lead_lt := otherNorm.limb_lt (n - 1)
  have base : B = 4294967296 := rfl
  have first : j + n - 1 < selfNorm.len := by omega
  have leading : n - 1 < otherNorm.len := by omega
  have fits : selfNorm.limb (j + n) * B + selfNorm.limb (j + n - 1) < B * B := by
    have top := mul_le_mul_right B (succ_le_of_lt (selfNorm.limb_lt (j + n)))
    have low := selfNorm.limb_lt (j + n - 1)
    rw [succ_mul] at top
    omega
  have nonzero : UInt32.ofNat (otherNorm.limb (n - 1)) ≠ 0 := ofNat_ne_zero (by omega) lead_lt
  have remainder_lt : (selfNorm.limb (j + n) * B + selfNorm.limb (j + n - 1)) %
      otherNorm.limb (n - 1) < B :=
    lt_trans (mod_lt _ (by omega)) lead_lt
  have enough : ∀ rhat, B ≤ rhat + 4294967295 * otherNorm.limb (n - 1) := fun rhat => by omega
  unfold estimate
  simp only [get_eq room, get_eq first, get_eq leading, ok_bind, toNat_limb, double_eq fits,
    divSingle, if_neg nonzero, toNat_ofNat_of_lt remainder_lt]
  rcases test_spec aligned (candidate_first aligned) remainder_lt with
    ⟨decreased, next⟩ | ⟨kept, less, passes⟩
  · obtain ⟨qhat, ran, estimated⟩ := testLoop_spec aligned next (enough _)
    refine ⟨qhat, ?_, estimated⟩
    rw [decreased, ok_bind]
    exact ran
  · obtain ⟨qhat, ran, estimated⟩ :=
      testLoop_spec aligned (candidate_first aligned) (enough _)
    refine ⟨qhat, ?_, estimated⟩
    rw [kept, ok_bind]
    exact ran

end

/-! ## Reading and writing the window -/

theorem window_spec (room : j + n < selfNorm.len) :
    ∃ u, selfNorm.window n j = .ok u ∧ u.len = n + 1 ∧ u.value = windowValue selfNorm n j := by
  have returns : ∀ d ∈ (List.range (n + 1)).reverse,
      selfNorm.get (j + d) = .ok (UInt32.ofNat (selfNorm.limb (j + d))) := by
    intro d member
    rw [mem_reverse, mem_range] at member
    exact get_eq (by omega)
  let u : BigUint :=
    ⟨(List.range (n + 1)).reverse.map fun d => UInt32.ofNat (selfNorm.limb (j + d))⟩
  have length : u.len = n + 1 := by simp [u, len]
  refine ⟨u, ?_, length, ?_⟩
  · rw [window, mapM_ok returns, ok_bind]
    rfl
  · rw [value, length, windowValue]
    refine low_congr fun place mem => ?_
    rw [limb_eq, ← map_reverse, reverse_reverse, getElem?_map, getElem?_range mem]
    exact toNat_limb _ _

theorem writeBack_spec (places : List Nat)
    (mem : ∀ d ∈ places, d < source.len ∧ j + d < selfNorm.len) :
    ∃ next, writeBack source j places selfNorm = .ok next ∧ next.len = selfNorm.len ∧
      ∀ place, next.limb place =
        if j ≤ place ∧ place - j ∈ places then source.limb (place - j)
        else selfNorm.limb place := by
  induction places generalizing selfNorm with
  | nil => exact ⟨selfNorm, rfl, rfl, fun place => by simp⟩
  | cons d rest ih =>
    obtain ⟨from_lt, to_lt⟩ := mem d mem_cons_self
    have tail : ∀ e ∈ rest, e < source.len ∧
        j + e < (selfNorm.put (j + d) (UInt32.ofNat (source.limb d))).len := by
      intro e member
      rw [len_put]
      exact mem e (mem_cons_of_mem _ member)
    obtain ⟨next, ran, length, limbs⟩ := ih tail
    refine ⟨next, ?_, by simpa using length, fun place => ?_⟩
    · rw [writeBack, foldlM_cons, get_eq from_lt, ok_bind, set_eq to_lt, ok_bind]
      exact ran
    · rw [limbs place, limb_put to_lt, toNat_limb]
      by_cases later : j ≤ place ∧ place - j ∈ rest
      · rw [if_pos later, if_pos ⟨later.1, mem_cons_of_mem _ later.2⟩]
      · rw [if_neg later]
        by_cases here : place = j + d
        · have offset : place - j = d := by omega
          rw [if_pos here, if_pos ⟨by omega, by rw [offset]; exact mem_cons_self⟩, offset]
        · have absent : ¬ (j ≤ place ∧ place - j ∈ d :: rest) := by
            rintro ⟨above, member⟩
            rcases mem_cons.mp member with same | other
            · omega
            · exact later ⟨above, other⟩
          rw [if_neg here, if_neg absent]

theorem low_limb_eq_mod (self : BigUint) (count : Nat) :
    low B self.limb count = self.value % B ^ count := by
  have parts := low_add B self.limb count self.len
  rw [low_limb_of_len_le (le_add_left _ _)] at parts
  rw [parts, add_mul_mod_self_left, mod_eq_of_lt (self.low_limb_lt count)]

theorem value_eq_window (ends : ∀ place, j + n < place → selfNorm.limb place = 0) :
    selfNorm.value = low B selfNorm.limb j + B ^ j * windowValue selfNorm n j := by
  rw [windowValue, ← low_add, ← low_limb_of_len_le (le_max_left selfNorm.len (j + (n + 1)))]
  exact low_eq_of_zero (fun place beyond _ => ends place (by omega)) (le_max_right _ _)

/-- The window of a number was replaced by limbs of another. -/
structure Replaced (selfNorm source : BigUint) (n j : Nat) (next : BigUint) : Prop where
  len_eq : next.len = selfNorm.len
  below_eq : ∀ place, place < j → next.limb place = selfNorm.limb place
  above_eq : ∀ place, j + n < place → next.limb place = selfNorm.limb place
  window_eq : windowValue next n j = source.value % B ^ (n + 1)

theorem writeBack_window {places : List Nat}
    (all : ∀ d, d ∈ places ↔ d < n + 1) (long : n < source.len) (room : j + n < selfNorm.len) :
    ∃ next, writeBack source j places selfNorm = .ok next ∧
      Replaced selfNorm source n j next := by
  have mem : ∀ d ∈ places, d < source.len ∧ j + d < selfNorm.len := by
    intro d member
    have bound := (all d).mp member
    omega
  obtain ⟨next, ran, length, limbs⟩ := writeBack_spec places mem
  refine ⟨next, ran, length, fun place below => ?_, fun place above => ?_, ?_⟩
  · rw [limbs place, if_neg (by omega)]
  · have outside : ¬ (j ≤ place ∧ place - j ∈ places) := by
      rw [all]
      omega
    rw [limbs place, if_neg outside]
  · rw [← low_limb_eq_mod, windowValue]
    refine low_congr fun place bound => ?_
    have member : j ≤ j + place ∧ j + place - j ∈ places := by
      rw [all]
      omega
    rw [limbs, if_pos member, Nat.add_sub_cancel_left]

/-! ## The step -/

/-- A limb of the quotient was found and the window holds the remainder. -/
structure LimbDivided (selfNorm q otherNorm : BigUint) (n j : Nat) (next : BigUint × BigUint) :
    Prop where
  len_self : next.1.len = selfNorm.len
  len_q : next.2.len = q.len
  below_eq : ∀ place, place < j → next.1.limb place = selfNorm.limb place
  above_eq : ∀ place, j + n < place → next.1.limb place = selfNorm.limb place
  window_eq : windowValue next.1 n j = windowValue selfNorm n j % otherNorm.value
  limb_q : ∀ place, next.2.limb place =
    if place = j then windowValue selfNorm n j / otherNorm.value else q.limb place

section Arithmetic

variable {window divisor qhat difference power : Nat}

theorem sub_of_no_borrow (pos : 0 < divisor) (most : window / divisor ≤ qhat)
    (balance : difference + divisor * qhat = window) :
    qhat = window / divisor ∧ difference = window % divisor := by
  have parts := div_add_mod window divisor
  have bound : qhat * divisor ≤ window := by
    rw [mul_comm]
    omega
  have least := (le_div_iff_mul_le pos).mpr bound
  have same : qhat = window / divisor := le_antisymm least most
  subst same
  omega

theorem sub_of_borrow (pos : 0 < divisor) (least : qhat ≤ window / divisor + 1)
    (small : difference < power) (balance : difference + divisor * qhat = window + power) :
    qhat = window / divisor + 1 ∧ difference + divisor = window % divisor + power := by
  have parts := div_add_mod window divisor
  have above : window < qhat * divisor := by
    rw [mul_comm]
    omega
  have more := (div_lt_iff_lt_mul pos).mpr above
  have same : qhat = window / divisor + 1 := le_antisymm least more
  refine ⟨same, ?_⟩
  rw [same, mul_add, mul_one] at balance
  omega

end Arithmetic

theorem Aligned.remainder_lt (aligned : Aligned selfNorm otherNorm n j) :
    0 < otherNorm.value ∧ windowValue selfNorm n j % otherNorm.value < B ^ (n + 1) := by
  have pos : 0 < otherNorm.value :=
    Nat.pos_of_mul_pos_left (zero_lt_of_lt aligned.window_lt)
  have bound := otherNorm.value_lt
  rw [aligned.len_eq] at bound
  have power : B ^ n ≤ B ^ (n + 1) := Nat.pow_le_pow_right (by decide) (Nat.le_succ n)
  have less := mod_lt (windowValue selfNorm n j) pos
  exact ⟨pos, by omega⟩

/-- **One limb of the quotient**, also when the estimate was one too large. -/
theorem divLimb_spec (aligned : Aligned selfNorm otherNorm n j) {q : BigUint} (place : j < q.len) :
    ∃ next, divLimb otherNorm n (selfNorm, q) j = .ok next ∧
      LimbDivided selfNorm q otherNorm n j next := by
  have room := aligned.room
  have length := aligned.len_eq
  have two := aligned.two_le
  obtain ⟨pos, remainder_lt⟩ := aligned.remainder_lt
  obtain ⟨qhat, estimated, most, least, small⟩ := estimate_spec aligned
  rw [aligned.quotient_eq] at most least
  have small : qhat < B := small
  have fits : qhat < B * B := lt_trans small (by decide)
  obtain ⟨lhs, read, lhs_len, lhs_value⟩ := window_spec room
  obtain ⟨rhs, multiplied, rhs_len, rhs_value⟩ :=
    mul_spec otherNorm (fromDouble qhat) (by omega)
  have double_len : (fromDouble qhat).len = 2 := rfl
  rw [value_fromDouble fits] at rhs_value
  obtain ⟨w, borrow, subtracted, w_len, borrow_le, balance⟩ := sub_spec lhs rhs (by omega)
  have both : max lhs.len rhs.len = n + 2 := by omega
  rw [lhs_value, rhs_value, both] at balance
  rw [both] at w_len
  have ascending : ∀ d, d ∈ List.range (n + 1) ↔ d < n + 1 := fun d => mem_range
  have descending : ∀ d, d ∈ (List.range (n + 1)).reverse ↔ d < n + 1 := fun d => by
    rw [mem_reverse, mem_range]
  obtain ⟨first, written, replaced⟩ := writeBack_window ascending (by omega : n < w.len) room
  by_cases zero : borrow = 0
  · -- step D4 leaves the remainder
    rw [zero, zero_mul, add_zero] at balance
    obtain ⟨same, difference⟩ := sub_of_no_borrow pos most balance
    refine ⟨(first, q.put j (UInt32.ofNat qhat)), ?_, replaced.len_eq, len_put _ _ _,
      replaced.below_eq, replaced.above_eq, ?_, fun other => ?_⟩
    · simp only [divLimb, estimated, read, multiplied, subtracted, if_pos zero, ok_bind, written,
        set_eq place]
      rfl
    · rw [replaced.window_eq, difference, mod_eq_of_lt remainder_lt]
    · rw [limb_put place, toNat_ofNat_of_lt small, same]
  · -- step D6 adds the divisor back
    have one : borrow = 1 := by omega
    rw [one, one_mul] at balance
    have w_lt := w.value_lt
    rw [w_len] at w_lt
    obtain ⟨same, difference⟩ := sub_of_borrow pos least w_lt balance
    have room_first : j + n < first.len := by rw [replaced.len_eq]; exact room
    obtain ⟨u, read_again, u_len, u_value⟩ := window_spec room_first
    obtain ⟨r, added, r_len, r_value⟩ := add_spec otherNorm u
    obtain ⟨second, restored, back⟩ :=
      writeBack_window descending (by omega : n < r.len) room_first
    have place_again : j < (q.put j (UInt32.ofNat qhat)).len := by simpa using place
    have limb_again : (q.put j (UInt32.ofNat qhat)).limb j = qhat := by
      rw [limb_put place, if_pos rfl, toNat_ofNat_of_lt small]
    have least_one : 1 ≤ qhat := by rw [same]; exact le_add_left _ _
    refine ⟨(second, (q.put j (UInt32.ofNat qhat)).put j (UInt32.ofNat (qhat - 1))), ?_, ?_, ?_,
      fun other below => ?_, fun other above => ?_, ?_, fun other => ?_⟩
    · simp only [divLimb, estimated, read, multiplied, subtracted, if_neg zero, ok_bind, written,
        set_eq place, get_eq place_again, limb_again, toNat_ofNat_of_lt small, minus_eq least_one,
        set_eq place_again, read_again, added, restored]
      rfl
    · exact back.len_eq.trans replaced.len_eq
    · simp
    · rw [back.below_eq other below, replaced.below_eq other below]
    · rw [back.above_eq other above, replaced.above_eq other above]
    · have split : B ^ (n + 2) = B ^ (n + 1) * B := pow_succ B (n + 1)
      rw [back.window_eq, r_value, u_value, replaced.window_eq, add_mod_mod,
        add_comm otherNorm.value, difference, split, add_mul_mod_self_left,
        mod_eq_of_lt remainder_lt]
    · have less : qhat - 1 < B := lt_of_le_of_lt (sub_le _ _) small
      have digit : qhat - 1 = windowValue selfNorm n j / otherNorm.value := by
        rw [same, Nat.add_sub_cancel]
      rw [limb_put place_again, limb_put place, toNat_ofNat_of_lt less, digit]
      split <;> rfl

end Brace.Arithmetic.BigUint
