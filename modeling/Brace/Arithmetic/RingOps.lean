import Brace.Arithmetic.Limbs
import Brace.Lib.Loop

/-!
# Exactness of the ring operations

Addition, subtraction, multiplication and division by a single limb return, without an overflow or
an index out of range, and their values are those of the operations on natural numbers. Each loop
has one invariant: what the limbs written so far and the carry, borrow or remainder stand for.
-/

namespace Brace.Arithmetic.BigUint

open Brace.Lib List Nat

variable {self other w : BigUint} {index : Nat}

theorem low_put (mem : index < w.len) (value : Single) :
    low B (w.put index value).limb (index + 1) = low B w.limb index + value.toNat * B ^ index := by
  rw [low_succ, limb_put mem, if_pos rfl]
  congr 1
  refine low_congr fun place before => ?_
  rw [limb_put mem, if_neg (by omega)]

theorem limb_add_carry (sum place : Nat) :
    sum % B * B ^ place + sum / B * B ^ (place + 1) = sum * B ^ place := by
  calc sum % B * B ^ place + sum / B * B ^ (place + 1)
      = (sum % B + B * (sum / B)) * B ^ place := by ring
    _ = sum * B ^ place := by rw [mod_add_div]

/-! ## Addition -/

/-- What the first rounds of an addition have computed. -/
structure Added (self other : BigUint) (j : Nat) (state : BigUint × Nat) : Prop where
  len_eq : state.1.len = max self.len other.len + 1
  carry_le : state.2 ≤ 1
  sum_eq : low B state.1.limb j + state.2 * B ^ j = low B self.limb j + low B other.limb j

variable {j v k : Nat} {state : BigUint × Nat}

theorem Added.step (mem : j < max self.len other.len) (added : Added self other j state) :
    ∃ next, addLimb self other state j = .ok next ∧ Added self other (j + 1) next := by
  obtain ⟨w, k⟩ := state
  obtain ⟨length, carry, computed⟩ := added
  simp only at length carry computed
  have place : j < w.len := by omega
  have left := self.limb_lt j
  have right := other.limb_lt j
  have base : B = 4294967296 := rfl
  have square : B * B = 18446744073709551616 := rfl
  obtain ⟨sum, total⟩ : ∃ sum, sum = self.limb j + other.limb j + k := ⟨_, rfl⟩
  have fits : sum < B * B := by omega
  have less : sum / B < 2 := Nat.div_lt_of_lt_mul (by omega)
  refine ⟨(w.put j (UInt32.ofNat (sum % B)), sum / B), ?_, by simpa using length,
    le_of_lt_succ less, ?_⟩
  · simp only [addLimb, ← total, double_eq fits, ok_bind, set_eq place]
    rfl
  · simp only
    rw [low_put place, toNat_ofNat_of_lt (mod_lt _ (by decide)), add_assoc, limb_add_carry,
      low_succ, low_succ, total]
    linarith

/-- **Addition is exact.** -/
theorem add_spec (self other : BigUint) :
    ∃ w, self.add other = .ok w ∧ w.len = max self.len other.len + 1 ∧
      w.value = self.value + other.value := by
  have initial : Added self other 0 (withCapacity (max self.len other.len + 1), 0) :=
    ⟨by simp, zero_le 1, by simp [low_zero]⟩
  obtain ⟨⟨w, k⟩, ran, length, carry, sum⟩ :=
    foldlM_range (Added self other) (max self.len other.len) initial
      fun j mem state added => added.step mem
  simp only at length carry sum
  have small : k < B := lt_of_le_of_lt carry (by decide)
  have last : max self.len other.len < w.len := by omega
  refine ⟨w.put (max self.len other.len) (UInt32.ofNat k), ?_, by simpa using length, ?_⟩
  · simp only [add, ran, ok_bind, set_eq last]
  · rw [value, len_put, length, low_put last, toNat_ofNat_of_lt small, sum,
      low_limb_of_len_le (le_max_left _ _), low_limb_of_len_le (le_max_right _ _)]

/-! ## Subtraction -/

theorem checkedSub_bind (u v k : Nat) :
    ((checkedSub u v).bind fun v => checkedSub v k) =
      if v + k ≤ u then some (u - v - k) else none := by
  unfold checkedSub
  by_cases first : v ≤ u
  · have same : k ≤ u - v ↔ v + k ≤ u := by omega
    simp [first, same]
  · have apart : ¬ v + k ≤ u := by omega
    simp [first, apart]

theorem subSingle_spec {u : Nat} (left : u < B) (right : v < B) (borrow : k ≤ 1) :
    ∃ t next, subSingle u v k = .ok (t, next) ∧ t < B ∧ next ≤ 1 ∧ t + v + k = u + next * B := by
  have base : B = 4294967296 := rfl
  have square : B * B = 18446744073709551616 := rfl
  rw [subSingle, checkedSub_bind]
  by_cases enough : v + k ≤ u
  · have small : u - v - k < B := by omega
    refine ⟨u - v - k, 0, ?_, small, zero_le 1, by omega⟩
    rw [if_pos enough]
    simp [mod_eq_of_lt small]
  · rw [if_neg enough]
    refine ⟨u + B - v - k, 1, ?_, by omega, le_refl 1, by omega⟩
    have fits : u + B < B * B := by omega
    have first : v ≤ u + B := by omega
    have second : k ≤ u + B - v := by omega
    simp only [double_eq fits, ok_bind, minus_eq first, minus_eq second]
    rfl

/-- What the first rounds of a subtraction have computed. -/
structure Subtracted (self other : BigUint) (j : Nat) (state : BigUint × Nat) : Prop where
  len_eq : state.1.len = max (max self.len other.len) 1
  borrow_le : state.2 ≤ 1
  difference_eq :
    low B state.1.limb j + low B other.limb j = low B self.limb j + state.2 * B ^ j

theorem Subtracted.step (mem : j < max self.len other.len)
    (subtracted : Subtracted self other j state) :
    ∃ next, subLimb self other state j = .ok next ∧ Subtracted self other (j + 1) next := by
  obtain ⟨w, k⟩ := state
  obtain ⟨length, borrow, difference⟩ := subtracted
  simp only at length borrow difference
  have place : j < w.len := by omega
  obtain ⟨t, next, ran, small, less, digit⟩ :=
    subSingle_spec (self.limb_lt j) (other.limb_lt j) borrow
  refine ⟨(w.put j (UInt32.ofNat t), next), ?_, ?_, less, ?_⟩
  · simp only [subLimb, ran, ok_bind, set_eq place]
    rfl
  · simpa using length
  · simp only
    rw [low_put place, toNat_ofNat_of_lt small, low_succ, low_succ, pow_succ]
    have scaled := congrArg (· * B ^ j) digit
    simp only [add_mul] at scaled
    linarith

/-- **Subtraction is exact**, and wraps around when the borrow is left. -/
theorem sub_spec (self other : BigUint) (pos : 0 < self.len) :
    ∃ w borrow, self.sub other = .ok (if borrow = 0 then .ok w else .error w) ∧
      w.len = max self.len other.len ∧ borrow ≤ 1 ∧
      w.value + other.value = self.value + borrow * B ^ max self.len other.len := by
  have initial : Subtracted self other 0 (withCapacity (max self.len other.len), 0) :=
    ⟨by simp, zero_le 1, by simp [low_zero]⟩
  obtain ⟨⟨w, k⟩, ran, length, borrow, difference⟩ :=
    foldlM_range (Subtracted self other) (max self.len other.len) initial
      fun j mem state subtracted => subtracted.step mem
  simp only at length borrow difference
  have length : w.len = max self.len other.len := by omega
  refine ⟨w, k, ?_, length, borrow, ?_⟩
  · by_cases zero : k = 0
    · simp only [sub, ran, ok_bind, if_pos zero]
      rfl
    · simp only [sub, ran, ok_bind, if_neg zero]
      rfl
  · rw [← low_limb_of_len_le (le_max_left self.len other.len),
      ← low_limb_of_len_le (le_max_right self.len other.len), ← difference, value, length]

/-! ## Multiplication -/

/-- What the first rounds of a row of a product have computed, from the number `start`. -/
structure RowAdded (self other start : BigUint) (j i : Nat) (state : BigUint × Single) : Prop where
  len_eq : state.1.len = start.len
  rest_eq : ∀ place, i + j ≤ place → state.1.limb place = start.limb place
  product_eq : low B state.1.limb (i + j) + state.2.toNat * B ^ (i + j) =
    low B start.limb (i + j) + self.limb j * B ^ j * low B other.limb i

theorem toNat_limb (self : BigUint) (index : Nat) :
    (UInt32.ofNat (self.limb index)).toNat = self.limb index :=
  toNat_ofNat_of_lt (self.limb_lt index)

theorem RowAdded.step {start : BigUint} {i : Nat} {state : BigUint × Single}
    (row : j < self.len) (column : i < other.len) (room : i + j < start.len)
    (added : RowAdded self other start j i state) :
    ∃ next, mulLimb self other j state i = .ok next ∧
      RowAdded self other start j (i + 1) next := by
  obtain ⟨w, k⟩ := state
  obtain ⟨length, rest, product⟩ := added
  simp only at length rest product
  have place : i + j < w.len := by omega
  have carry : k.toNat < B := UInt32.toNat_lt _
  obtain ⟨sum, total⟩ : ∃ sum, sum = self.limb j * other.limb i + w.limb (i + j) + k.toNat :=
    ⟨_, rfl⟩
  have fits : sum < B * B :=
    total ▸ product_lt (self.limb_lt j) (other.limb_lt i) (w.limb_lt (i + j)) carry
  have part : self.limb j * other.limb i < B * B := by omega
  refine ⟨(w.put (i + j) (UInt32.ofNat (sum % B)), UInt32.ofNat (sum / B)), ?_,
    by simpa using length, ?_, ?_⟩
  · simp only [mulLimb, get_eq row, get_eq column, get_eq place, ok_bind, mulSingle, toNat_limb,
      double_eq part, ← total, double_eq fits, set_eq place]
    rfl
  · intro other beyond
    simp only
    rw [limb_put place, if_neg (by omega), rest other (by omega)]
  · have next : i + 1 + j = i + j + 1 := by omega
    have shift : B ^ (i + j) = B ^ j * B ^ i := by rw [add_comm, pow_add]
    simp only
    rw [next, low_put place, toNat_ofNat_of_lt (mod_lt _ (by decide)),
      toNat_ofNat_of_lt (Nat.div_lt_of_lt_mul fits), add_assoc, limb_add_carry, low_succ, low_succ,
      total, rest (i + j) (le_refl _)]
    rw [shift] at product ⊢
    linarith

/-- What the first rows of a product have computed. -/
structure Multiplied (self other : BigUint) (j : Nat) (w : BigUint) : Prop where
  len_eq : w.len = other.len + self.len
  rest_eq : ∀ place, j + other.len ≤ place → w.limb place = 0
  product_eq : low B w.limb (j + other.len) = low B self.limb j * other.value

theorem Multiplied.step (row : j < self.len) (multiplied : Multiplied self other j w) :
    ∃ next, mulRow self other w j = .ok next ∧ Multiplied self other (j + 1) next := by
  obtain ⟨length, rest, product⟩ := multiplied
  have succ : j + 1 + other.len = j + other.len + 1 := by omega
  by_cases zero : self.limb j = 0
  · refine ⟨w, ?_, length, fun place beyond => rest place (by omega), ?_⟩
    · simp [mulRow, get_eq row, zero, bind, Except.bind, pure, Except.pure]
    · rw [succ, low_succ, rest _ (le_refl _), product, low_succ, zero]
      simp
  · have initial : RowAdded self other w j 0 (w, 0) :=
      ⟨rfl, fun _ _ => rfl, by simp [low_zero]⟩
    obtain ⟨⟨next, k⟩, ran, kept, beyond, added⟩ :=
      foldlM_range (RowAdded self other w j) other.len initial
        fun i column state added => added.step row column (by omega)
    simp only at kept beyond added
    have place : j + other.len < next.len := by omega
    have swap : other.len + j = j + other.len := add_comm _ _
    rw [swap] at added beyond
    refine ⟨next.put (j + other.len) k, ?_, by simpa [kept] using length, ?_, ?_⟩
    · have nonzero := ofNat_ne_zero zero (self.limb_lt j)
      simp [mulRow, get_eq row, nonzero, ran, set_eq place, bind, Except.bind]
    · intro other far
      rw [limb_put place, if_neg (by omega), beyond other (by omega), rest other (by omega)]
    · rw [succ, low_put place, added, product, low_succ]
      change _ + self.limb j * B ^ j * other.value = _
      ring

/-- **Multiplication is exact.** -/
theorem mul_spec (self other : BigUint) (pos : 0 < self.len) :
    ∃ w, self.mul other = .ok w ∧ w.len = self.len + other.len ∧
      w.value = self.value * other.value := by
  have initial : Multiplied self other 0 (withCapacity (other.len + self.len)) := by
    refine ⟨?_, fun _ _ => limb_withCapacity _, ?_⟩
    · rw [len_withCapacity]
      omega
    · rw [low_zero, zero_mul, low_eq_zero_iff (by decide)]
      exact fun _ _ => limb_withCapacity _
  obtain ⟨w, ran, length, _, product⟩ :=
    foldlM_range (Multiplied self other) self.len initial fun j row w multiplied =>
      multiplied.step row
  refine ⟨w, ran, by omega, ?_⟩
  rw [value, length, add_comm, product]
  rfl

/-! ## Division by one limb -/

/-- What the rounds of `div_unit` for the limbs from `d` on have computed. -/
structure DividedFrom (self : BigUint) (other : Single) (d : Nat) (state : BigUint × Single) :
    Prop where
  len_eq : state.1.len = self.len
  rest_eq : ∀ place, place < d → state.1.limb place = 0
  remainder_lt : state.2.toNat < other.toNat
  quotient_eq : self.value =
    state.1.value * other.toNat + state.2.toNat * B ^ d + low B self.limb d

theorem DividedFrom.step {d : Nat} {divisor : Single} {state : BigUint × Single}
    (mem : d < self.len) (divided : DividedFrom self divisor (d + 1) state) :
    ∃ next, divUnitLimb self divisor state d = .ok next ∧ DividedFrom self divisor d next := by
  obtain ⟨out, r⟩ := state
  obtain ⟨length, rest, remainder, quotient⟩ := divided
  simp only at length rest remainder quotient
  have place : d < out.len := by omega
  have limb := self.limb_lt d
  have bound : divisor.toNat < B := UInt32.toNat_lt _
  obtain ⟨withR, total⟩ : ∃ withR, withR = r.toNat * B + self.limb d := ⟨_, rfl⟩
  have fits : withR < B * divisor.toNat := by
    have whole : (r.toNat + 1) * B ≤ divisor.toNat * B := mul_le_mul_right _ remainder
    rw [mul_comm B]
    linarith
  have square : withR < B * B := lt_trans fits (mul_lt_mul_of_pos_left bound (by decide))
  have pos : 0 < divisor.toNat := zero_lt_of_lt remainder
  have nonzero : divisor ≠ 0 := fun same => absurd (same ▸ pos) (lt_irrefl 0)
  have left : withR % divisor.toNat < divisor.toNat := mod_lt _ pos
  have changed := value_put place (UInt32.ofNat (withR / divisor.toNat))
  rw [rest d (lt_succ_self d), toNat_ofNat_of_lt ((div_lt_iff_lt_mul pos).mpr fits), zero_mul,
    add_zero] at changed
  refine ⟨(out.put d (UInt32.ofNat (withR / divisor.toNat)),
    UInt32.ofNat (withR % divisor.toNat)), ?_, by simpa using length, ?_, ?_, ?_⟩
  · simp only [divUnitLimb, get_eq mem, ok_bind, toNat_limb, ← total, double_eq square, divSingle,
      if_neg nonzero, set_eq place]
    rfl
  · intro other below
    simp only
    rw [limb_put place, if_neg (by omega), rest other (by omega)]
  · simpa only [toNat_ofNat_of_lt (lt_trans left bound)] using left
  · simp only
    rw [toNat_ofNat_of_lt (lt_trans left bound), changed, quotient, low_succ, pow_succ]
    have scaled := congrArg (· * B ^ d) (div_add_mod withR divisor.toNat)
    simp only [total, add_mul] at scaled ⊢
    linarith

/-- **Division by one limb is exact**; by zero it is division by one. -/
theorem divUnit_spec (self : BigUint) (other : Single) (pos : 0 < self.len) :
    ∃ out, self.divUnit other = .ok out ∧ out.value = self.value / max other.toNat 1 := by
  let divisor : Single := if other = 0 then 1 else other
  have toNat_divisor : divisor.toNat = max other.toNat 1 := by
    by_cases zero : other = 0
    · simp [divisor, zero]
    · have nonzero : other.toNat ≠ 0 := fun same => zero (UInt32.toNat_inj.mp same)
      simp only [divisor, if_neg zero]
      omega
  have initial : DividedFrom self divisor self.len (withCapacity self.len, 0) := by
    refine ⟨?_, fun _ _ => limb_withCapacity _, ?_, ?_⟩
    · rw [len_withCapacity]
      omega
    · rw [toNat_divisor]
      exact lt_of_lt_of_le zero_lt_one (le_max_right _ _)
    · rw [value_withCapacity, UInt32.toNat_zero, Nat.zero_mul, Nat.zero_mul, Nat.zero_add, value]
  obtain ⟨⟨out, r⟩, ran, _, _, remainder, quotient⟩ :=
    foldlM_range_reverse initial fun d mem state divided => divided.step mem
  simp only at remainder quotient
  refine ⟨out, ?_, ?_⟩
  · change ((List.range self.len).reverse.foldlM (divUnitLimb self divisor)
      (withCapacity self.len, 0) >>= fun result => pure result.1) = _
    rw [ran]
    rfl
  · rw [low_zero, add_zero, pow_zero, mul_one] at quotient
    rw [← toNat_divisor, quotient, add_comm, mul_comm,
      add_mul_div_left _ _ (by omega), div_eq_of_lt remainder, zero_add]

/-! ## Comparison -/

theorem compare_lead {first other low high power : Nat} (low_lt : low < power)
    (high_lt : high < power) :
    compare (low + first * power) (high + other * power) =
      (compare first other).then (compare low high) := by
  rcases lt_trichotomy first other with less | rfl | more
  · have scaled : (first + 1) * power ≤ other * power := mul_le_mul_right _ less
    rw [Nat.compare_eq_lt.mpr less]
    exact Nat.compare_eq_lt.mpr (by linarith)
  · rw [Nat.compare_eq_eq.mpr rfl]
    change _ = compare low high
    simp only [compare_eq_ite_lt, add_lt_add_iff_right]
  · have scaled : (other + 1) * power ≤ first * power := mul_le_mul_right _ more
    rw [Nat.compare_eq_gt.mpr more]
    exact Nat.compare_eq_gt.mpr (by linarith)

theorem compare_digits {left right : List Single} (same : left.length = right.length) :
    compare left right = compare (value ⟨left⟩) (value ⟨right⟩) := by
  induction left generalizing right with
  | nil =>
    rw [List.length_eq_zero_iff.mp same.symm]
    rfl
  | cons first rest ih =>
    cases right with
    | nil => cases same
    | cons other others =>
      have same : rest.length = others.length := succ.inj same
      have low : value ⟨rest⟩ < B ^ others.length := same ▸ value_lt ⟨rest⟩
      have limb : compare first other = compare first.toNat other.toNat := by
        simp only [compare, compareOfLessAndEq, UInt32.lt_iff_toNat_lt, ← UInt32.toNat_inj]
      rw [List.compare_cons_cons, ih same, limb, value_cons, value_cons, same]
      exact (compare_lead low (value_lt ⟨others⟩)).symm

theorem value_cons_lt {first second : Single} {rest others : List Single} (leading : second ≠ 0)
    (shorter : rest.length < others.length) : value ⟨first :: rest⟩ < value ⟨second :: others⟩ :=
  calc value ⟨first :: rest⟩ < B ^ (rest.length + 1) := value_lt ⟨first :: rest⟩
    _ ≤ B ^ others.length := Nat.pow_le_pow_right (by decide) shorter
    _ ≤ value ⟨second :: others⟩ := pow_le_value_cons leading others

/-- **Comparison is that of the values**, also with leading zeros. -/
theorem cmp_eq (self other : BigUint) : self.cmp other = compare self.value other.value := by
  have pos : ∀ {first : Single} {rest}, first ≠ 0 → 0 < value ⟨first :: rest⟩ :=
    fun leading => Nat.lt_of_lt_of_le (Nat.pow_pos (by decide)) (pow_le_value_cons leading _)
  rw [cmp, ← value_lstrip self, ← value_lstrip other]
  rcases self.lstrip_cases with ⟨zero, absent, same⟩ | ⟨_, first, rest, digits, lead, found, same⟩
  all_goals
    rcases other.lstrip_cases with ⟨zero', absent', same'⟩ |
      ⟨_, second, others, digits', lead', found', same'⟩
  · rw [absent, absent', same, same', zero, zero']
    rfl
  · rw [absent, found', same, same', zero]
    exact (Nat.compare_eq_lt.mpr (pos lead')).symm
  · rw [found, absent', same, same', zero']
    exact (Nat.compare_eq_gt.mpr (pos lead)).symm
  · rw [found, found', same, same', digits, digits']
    simp only [drop_left' length_replicate, length_cons]
    rcases lt_trichotomy rest.length others.length with less | equal | more
    · rw [Nat.compare_eq_lt.mpr (by omega), Nat.compare_eq_lt.mpr (value_cons_lt lead' less)]
    · rw [Nat.compare_eq_eq.mpr (by omega)]
      exact compare_digits (congrArg succ equal)
    · rw [Nat.compare_eq_gt.mpr (by omega), Nat.compare_eq_gt.mpr (value_cons_lt lead more)]

/-! ## All operations -/

/-- The conversion to an integer of `bits` bits returns the value exactly when it fits. -/
def Converts (bits : Nat) (name : String) (a : BigUint) : Prop :=
  a.tryFrom bits name = .ok (if a.value < 2 ^ bits then .ok (BitVec.ofNat bits a.value)
    else .error ("cannot fit a number into " ++ name))

theorem converts_iff (limbs : Nat) (name : String) (a : BigUint) :
    Converts (SHIFT * limbs) name a ↔ a.value ≠ 0 ∨ a.len ≤ limbs := by
  rw [Converts, tryFrom_limbs]
  by_cases short : a.value ≠ 0 ∨ a.len ≤ limbs
  · simp only [short, and_true]
  · have zero : a.value = 0 := by
      by_contra nonzero
      exact short (.inl nonzero)
    simp [zero]

/-- **The operations are exact for every pair of vectors**, and the conversions for all but zeros
that are longer than the integer. -/
theorem operations_exact (a b : BigUint) (d : Single) (limbs : 0 < a.len) :
    (∃ w, a.add b = .ok w ∧ w.value = a.value + b.value) ∧
    (∃ w, a.mul b = .ok w ∧ w.value = a.value * b.value) ∧
    (∃ w, a.sub b = .ok (if b.value ≤ a.value then .ok w else .error w) ∧
      w.value = if b.value ≤ a.value then a.value - b.value
        else B ^ max a.len b.len + a.value - b.value) ∧
    (∃ w, a.divUnit d = .ok w ∧ w.value = a.value / max d.toNat 1) ∧
    a.cmp b = compare a.value b.value ∧ a.eq b = decide (a.value = b.value) ∧
    (Converts 128 "u128" a ↔ a.value ≠ 0 ∨ a.len ≤ 4) ∧
    (Converts 64 "u64" a ↔ a.value ≠ 0 ∨ a.len ≤ 2) := by
  refine ⟨?_, ?_, ?_, ?_, cmp_eq a b, ?_, converts_iff 4 "u128" a, converts_iff 2 "u64" a⟩
  · obtain ⟨w, ran, -, sum⟩ := add_spec a b
    exact ⟨w, ran, sum⟩
  · obtain ⟨w, ran, -, product⟩ := mul_spec a b limbs
    exact ⟨w, ran, product⟩
  · obtain ⟨w, borrow, ran, length, most, balance⟩ := sub_spec a b limbs
    have bound := w.value_lt
    rw [length] at bound
    have borrowed : borrow = 0 ↔ b.value ≤ a.value := by
      rcases le_one_iff_eq_zero_or_eq_one.mp most with rfl | rfl <;> omega
    refine ⟨w, by rw [ran, if_congr borrowed rfl rfl], ?_⟩
    rcases le_one_iff_eq_zero_or_eq_one.mp most with rfl | rfl <;> split <;> omega
  · obtain ⟨w, ran, quotient⟩ := divUnit_spec a d limbs
    exact ⟨w, ran, quotient⟩
  · simp only [BigUint.eq, cmp_eq, Nat.compare_eq_eq]

/-- Numbers of several limbs: a sum with a carry, a product, a difference with a borrow and one that
is negative. -/
theorem operations_exact_limbs :
    let a : BigUint := ⟨[1, 0, 4294967295]⟩
    let b : BigUint := ⟨[4294967295, 4294967295]⟩
    (∃ w, a.add b = .ok w ∧ w.value = a.value + b.value) ∧
    (∃ w, a.mul b = .ok w ∧ w.value = a.value * b.value) ∧
    (∃ w, a.sub b = .ok (.ok w) ∧ w.value = 4294967296) ∧
    ∃ w, b.sub a = .ok (.error w) ∧ w.value = 79228162514264337589248983040 := by
  intro a b
  obtain ⟨sum, product, ⟨difference, ran, exact⟩, -⟩ := operations_exact a b 1 (by decide)
  obtain ⟨-, -, ⟨wrapped, ranBack, exactBack⟩, -⟩ := operations_exact b a 1 (by decide)
  have above : b.value ≤ a.value := by decide
  have below : ¬ a.value ≤ b.value := by decide
  rw [if_pos above] at ran exact
  rw [if_neg below] at ranBack exactBack
  exact ⟨sum, product, ⟨difference, ran, exact.trans (by decide +kernel)⟩, wrapped, ranBack,
    exactBack.trans (by decide +kernel)⟩

/-- Zero in three limbs is refused as an integer of two. -/
theorem tryFrom_zero_refused : (⟨[0, 0, 0]⟩ : BigUint).value = 0 ∧
    tryFromU64 ⟨[0, 0, 0]⟩ = .ok (.error "cannot fit a number into u64") :=
  ⟨rfl, rfl⟩

end Brace.Arithmetic.BigUint
