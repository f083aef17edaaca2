import Brace.Arithmetic.BigUint
import Brace.Lib.Radix

/-!
# Limbs and the value of a number

The value of a `BigUint` in base `B`. `get` and `set` return exactly for the indices of limbs, and
`set` changes one digit. Stripping and padding keep every limb; a number that is not zero has no
leading zero limb after stripping, and zero is left as it is (`lstrip_of_value_eq_zero`). The
conversion to a machine integer is decided by the length after stripping (`tryFrom_eq`).
-/

namespace Brace.Arithmetic

open Brace.Lib List Nat

theorem toNat_ofNat_of_lt {value : Nat} (small : value < B) :
    (UInt32.ofNat value).toNat = value := UInt32.toNat_ofNat_of_lt small

theorem ofNat_ne_zero {value : Nat} (nonzero : value ≠ 0) (small : value < B) :
    UInt32.ofNat value ≠ 0 := by
  intro same
  have zero := congrArg UInt32.toNat same
  rw [toNat_ofNat_of_lt small] at zero
  exact nonzero zero

theorem double_eq {value : Nat} (small : value < B * B) : double value = .ok value :=
  if_pos small

theorem minus_eq {left right : Nat} (less : right ≤ left) : minus left right = .ok (left - right) :=
  if_pos less

theorem product_lt {left right first second : Nat} (left_lt : left < B) (right_lt : right < B)
    (first_lt : first < B) (second_lt : second < B) : left * right + first + second < B * B := by
  have product := mul_le_mul (le_sub_one_of_lt left_lt) (le_sub_one_of_lt right_lt)
  have square : B * B = (B - 1) * (B - 1) + (B - 1) + (B - 1) + 1 := rfl
  have base : B = 4294967296 := rfl
  omega

namespace BigUint

variable {self : BigUint} {index : Nat}

/-! ## Single limbs -/

theorem position_eq (mem : index < self.len) :
    self.position index = some (self.len - 1 - index) := by
  have first : 1 ≤ self.len := by omega
  have second : index ≤ self.len - 1 := by omega
  simp [position, checkedSub, first, second]

theorem position_eq_none (outside : self.len ≤ index) : self.position index = none := by
  unfold position checkedSub
  split
  · have far : ¬ index ≤ self.len - 1 := by omega
    simp [far]
  · rfl

theorem limb_lt (self : BigUint) (index : Nat) : self.limb index < B :=
  UInt32.toNat_lt _

theorem limb_eq (self : BigUint) (index : Nat) :
    self.limb index = (self.digits.reverse[index]?.getD 0).toNat := by
  rcases lt_or_ge index self.len with mem | outside
  · rw [limb, checkedGet, position_eq mem, getElem?_reverse mem]
    rfl
  · simp [limb, checkedGet, position_eq_none outside, show self.digits.length ≤ index from outside]

theorem limb_of_len_le (outside : self.len ≤ index) : self.limb index = 0 := by
  simp [limb, checkedGet, position_eq_none outside]

theorem get_eq (mem : index < self.len) :
    self.get index = .ok (UInt32.ofNat (self.limb index)) := by
  have place : self.len - 1 - index < self.digits.length := by
    change self.len - 1 - index < self.len
    omega
  simp [get, limb, checkedGet, position_eq mem, List.getElem?_eq_getElem place]

/-- A number with one limb changed. -/
def put (self : BigUint) (index : Nat) (value : Single) : BigUint :=
  ⟨self.digits.set (self.len - 1 - index) value⟩

theorem set_eq (mem : index < self.len) (value : Single) :
    self.set index value = .ok (self.put index value) := by
  simp [set, position_eq mem, put]

@[simp]
theorem len_put (self : BigUint) (index : Nat) (value : Single) :
    (self.put index value).len = self.len := by
  simp [put, len]

theorem limb_put (mem : index < self.len) (value : Single) (other : Nat) :
    (self.put index value).limb other = if other = index then value.toNat else self.limb other := by
  rcases lt_or_ge other self.len with below | beyond
  · have length : self.len = self.digits.length := rfl
    have place : self.digits.length - 1 - index < self.digits.length := by omega
    rw [limb_eq, limb_eq, put, getElem?_reverse (by rw [length_set]; omega),
      getElem?_reverse below, length_set, length]
    by_cases same : other = index
    · simp [same, place]
    · have apart : self.digits.length - 1 - index ≠ self.digits.length - 1 - other := by omega
      simp [same, apart]
  · have apart : other ≠ index := by omega
    rw [limb_of_len_le (by simpa using beyond), if_neg apart, limb_of_len_le beyond]

@[simp]
theorem len_withCapacity (size : Nat) : (withCapacity size).len = max size 1 := by
  simp [withCapacity, len]

@[simp]
theorem limb_withCapacity (size : Nat) : (withCapacity size).limb index = 0 := by
  simp [limb_eq, withCapacity, getElem?_replicate]
  split <;> rfl

/-! ## Values -/

def value (self : BigUint) : Nat := low B self.limb self.len

theorem low_limb_of_len_le {count : Nat} (all : self.len ≤ count) :
    low B self.limb count = self.value :=
  low_eq_of_zero (fun _ outside _ => limb_of_len_le outside) all

theorem low_limb_lt (self : BigUint) (count : Nat) : low B self.limb count < B ^ count :=
  low_lt fun place _ => self.limb_lt place

theorem value_lt (self : BigUint) : self.value < B ^ self.len := self.low_limb_lt self.len

theorem value_put (mem : index < self.len) (value : Single) :
    (self.put index value).value + self.limb index * B ^ index =
      self.value + value.toNat * B ^ index := by
  have updated : low B (fun place => if place = index then value.toNat else self.limb place)
      self.len + self.limb index * B ^ index = self.value + value.toNat * B ^ index :=
    low_update mem value.toNat
  rw [← updated, BigUint.value, len_put]
  congr 1
  exact low_congr fun place _ => limb_put mem value place

@[simp]
theorem value_withCapacity (size : Nat) : (withCapacity size).value = 0 :=
  (low_eq_zero_iff (by decide)).mpr fun _ _ => limb_withCapacity size

theorem limb_mul_pow_le (self : BigUint) (index : Nat) :
    self.limb index * B ^ index ≤ self.value := by
  have all : self.len ≤ max self.len (index + 1) := le_max_left _ _
  rw [← low_limb_of_len_le all]
  exact Finset.single_le_sum (f := fun position => self.limb position * B ^ position)
    (fun _ _ => zero_le _) (Finset.mem_range.mpr (by omega))

theorem limb_eq_zero_of_value_lt {count : Nat} (small : self.value < B ^ count)
    (beyond : count ≤ index) : self.limb index = 0 := by
  by_contra nonzero
  have part := self.limb_mul_pow_le index
  have power : B ^ count ≤ B ^ index := Nat.pow_le_pow_right (by decide) beyond
  have more : B ^ index ≤ self.limb index * B ^ index :=
    Nat.le_mul_of_pos_left _ (Nat.pos_of_ne_zero nonzero)
  omega

theorem limb_cons (first : Single) (rest : List Single) (index : Nat) :
    limb ⟨first :: rest⟩ index =
      if index = rest.length then first.toNat else limb ⟨rest⟩ index := by
  rw [limb_eq, limb_eq, reverse_cons, getElem?_append, length_reverse]
  rcases lt_trichotomy index rest.length with below | rfl | beyond
  · rw [if_pos below, if_neg (by omega)]
  · simp
  · have outside : 1 ≤ index - rest.length := by omega
    simp [not_lt_of_gt beyond, ne_of_gt beyond, getElem?_eq_none (l := [first]) outside]

theorem value_cons (first : Single) (rest : List Single) :
    value ⟨first :: rest⟩ = value ⟨rest⟩ + first.toNat * B ^ rest.length := by
  have below : low B (limb ⟨first :: rest⟩) rest.length = value ⟨rest⟩ := by
    refine low_congr fun place mem => ?_
    rw [limb_cons, if_neg (by omega)]
  change low B (limb ⟨first :: rest⟩) (rest.length + 1) = _
  rw [low_succ, below, limb_cons, if_pos rfl]

theorem value_nil : value ⟨[]⟩ = 0 := rfl

theorem value_fromSingle (a : Single) : (fromSingle a).value = a.toNat := by
  rw [fromSingle, value_cons, value_nil]
  simp

theorem value_fromDouble {a : Nat} (small : a < B * B) : (fromDouble a).value = a := by
  have high : a / B < B := Nat.div_lt_of_lt_mul small
  have split : (UInt32.ofNat a).toNat = a % B := UInt32.toNat_ofNat
  rw [fromDouble, value_cons, value_cons, value_nil, Arithmetic.split, toNat_ofNat_of_lt high,
    split]
  have parts := mod_add_div a B
  simp only [length_cons, length_nil, pow_zero, pow_one, zero_add, mul_one]
  rw [mul_comm (a / B)]
  exact parts

theorem msb_eq (pos : 0 < self.len) : self.msb = .ok (UInt32.ofNat (self.limb (self.len - 1))) := by
  obtain ⟨digits⟩ := self
  cases digits with
  | nil => exact absurd pos (lt_irrefl 0)
  | cons first rest =>
    have length : len ⟨first :: rest⟩ - 1 = rest.length := rfl
    rw [length, limb_cons, if_pos rfl]
    simp [msb]

/-! ## Stripping and padding -/

theorem limb_replicate_append (zeros : Nat) (digits : List Single) (index : Nat) :
    limb ⟨List.replicate zeros 0 ++ digits⟩ index = limb ⟨digits⟩ index := by
  rw [limb_eq, limb_eq, reverse_append, getElem?_append, reverse_replicate, getElem?_replicate]
  split
  · rfl
  · rename_i outside
    rw [getElem?_eq_none (Nat.le_of_not_lt outside)]
    split <;> rfl

theorem leading_zeros (digits : List Single) :
    ∃ zeros rest, digits = List.replicate zeros 0 ++ rest ∧ ∀ limb ∈ rest.head?, limb ≠ 0 := by
  induction digits with
  | nil => exact ⟨0, [], rfl, by simp⟩
  | cons limb digits ih =>
    by_cases zero : limb = 0
    · obtain ⟨zeros, rest, rfl, leading⟩ := ih
      exact ⟨zeros + 1, rest, by rw [zero]; rfl, leading⟩
    · exact ⟨0, limb :: digits, rfl, by simpa using zero⟩

theorem value_congr {other : BigUint} (same : ∀ index, self.limb index = other.limb index) :
    self.value = other.value := by
  rw [← low_limb_of_len_le (le_max_left self.len other.len),
    ← low_limb_of_len_le (le_max_right self.len other.len)]
  exact low_congr fun place _ => same place

theorem pow_le_value_cons {first : Single} (leading : first ≠ 0) (rest : List Single) :
    B ^ rest.length ≤ value ⟨first :: rest⟩ := by
  have pos : first.toNat ≠ 0 := fun same => leading (UInt32.toNat_inj.mp same)
  rw [value_cons]
  exact Nat.le_add_left_of_le (Nat.le_mul_of_pos_left _ (Nat.pos_of_ne_zero pos))

theorem lstrip_cases (self : BigUint) :
    (self.value = 0 ∧ self.digits.findIdx? (· ≠ 0) = none ∧ self.lstrip = self) ∨
      ∃ zeros first rest, self.digits = List.replicate zeros 0 ++ first :: rest ∧ first ≠ 0 ∧
        self.digits.findIdx? (· ≠ 0) = some zeros ∧ self.lstrip = ⟨first :: rest⟩ := by
  obtain ⟨digits⟩ := self
  obtain ⟨zeros, rest, rfl, leading⟩ := leading_zeros digits
  have limbs := value_congr (limb_replicate_append zeros rest)
  cases rest with
  | nil =>
    have absent : (List.replicate zeros (0 : Single) ++ []).findIdx? (· ≠ 0) = none := by simp
    refine .inl ⟨limbs, absent, ?_⟩
    rw [lstrip, absent]
    simp
  | cons first rest =>
    have leading : first ≠ 0 := leading first rfl
    have found : (List.replicate zeros 0 ++ first :: rest).findIdx? (· ≠ 0) = some zeros := by
      simp [findIdx?_cons, leading]
    refine .inr ⟨zeros, first, rest, rfl, leading, found, ?_⟩
    rw [lstrip, found]
    cases zeros <;> simp [len]

theorem lstrip_of_value_eq_zero (zero : self.value = 0) : self.lstrip = self := by
  rcases self.lstrip_cases with ⟨-, -, same⟩ | ⟨zeros, first, rest, digits, leading, -, -⟩
  · exact same
  · have least := pow_le_value_cons leading rest
    have pos : 0 < B ^ rest.length := Nat.pow_pos (by decide)
    rw [← value_congr (limb_replicate_append zeros _), ← digits, zero] at least
    omega

@[simp]
theorem limb_lstrip (self : BigUint) (index : Nat) : self.lstrip.limb index = self.limb index := by
  rcases self.lstrip_cases with ⟨-, -, same⟩ | ⟨zeros, first, rest, digits, -, -, stripped⟩
  · rw [same]
  · rw [stripped, ← limb_replicate_append zeros, ← digits]

@[simp]
theorem value_lstrip (self : BigUint) : self.lstrip.value = self.value :=
  value_congr self.limb_lstrip

theorem len_lstrip (nonzero : self.value ≠ 0) :
    0 < self.lstrip.len ∧ B ^ (self.lstrip.len - 1) ≤ self.value ∧
      self.limb (self.lstrip.len - 1) ≠ 0 := by
  rcases self.lstrip_cases with ⟨zero, -, -⟩ | ⟨zeros, first, rest, -, leading, -, stripped⟩
  · exact absurd zero nonzero
  · rw [← value_lstrip, ← limb_lstrip, stripped]
    refine ⟨succ_pos _, pow_le_value_cons leading rest, ?_⟩
    change limb ⟨first :: rest⟩ rest.length ≠ 0
    rw [limb_cons, if_pos rfl]
    exact fun same => leading (UInt32.toNat_inj.mp same)

theorem len_lstrip_le {count : Nat} (nonzero : self.value ≠ 0) (small : self.value < B ^ count) :
    self.lstrip.len ≤ count := by
  obtain ⟨_, reached, _⟩ := len_lstrip nonzero
  have power : B ^ (self.lstrip.len - 1) < B ^ count := lt_of_le_of_lt reached small
  have less := (Nat.pow_lt_pow_iff_right (by decide)).mp power
  omega

theorem lt_len_lstrip {count : Nat} (large : B ^ count ≤ self.value) : count < self.lstrip.len := by
  have bound := self.lstrip.value_lt
  rw [value_lstrip] at bound
  exact (Nat.pow_lt_pow_iff_right (by decide)).mp (Nat.lt_of_le_of_lt large bound)

/-! ## Conversion to a machine integer -/

theorem foldlM_tryFromLimb (bits : Nat) (limbs : List Single) (fits : limbs.length * 32 ≤ bits) :
    limbs.zipIdx.foldlM (tryFromLimb bits) 0 = .ok (value ⟨limbs.reverse⟩) := by
  induction limbs using reverseRecOn with
  | nil => rfl
  | append_singleton earlier last ih =>
    rw [length_append, length_singleton] at fits
    have place : 32 * earlier.length < bits := by omega
    have shifted : last.toNat <<< (32 * earlier.length) = last.toNat * B ^ earlier.length := by
      rw [shiftLeft_eq, pow_mul, B]
    have whole : value ⟨(earlier ++ [last]).reverse⟩ =
        value ⟨earlier.reverse⟩ + last.toNat * B ^ earlier.length := by
      rw [reverse_append, reverse_singleton, singleton_append, value_cons, length_reverse]
    have bound : value ⟨(earlier ++ [last]).reverse⟩ < 2 ^ bits := by
      have small := value_lt ⟨(earlier ++ [last]).reverse⟩
      have length : len ⟨(earlier ++ [last]).reverse⟩ = earlier.length + 1 := by simp [len]
      rw [length, B, ← pow_mul] at small
      have power : 2 ^ (32 * (earlier.length + 1)) ≤ 2 ^ bits :=
        Nat.pow_le_pow_right (by decide) (by omega)
      omega
    have part : last.toNat * B ^ earlier.length < 2 ^ bits := by omega
    rw [zipIdx_append, foldlM_append, ih (by omega), whole]
    rw [whole] at bound
    simp [bind, Except.bind, pure, Except.pure, tryFromLimb, place, shifted, mod_eq_of_lt part,
      bound]

/-- **The conversion is decided by the length after stripping.** -/
theorem tryFrom_eq (bits : Nat) (name : String) (self : BigUint) :
    tryFrom bits name self = .ok (if bits < self.lstrip.len * SHIFT then
      .error ("cannot fit a number into " ++ name) else .ok (BitVec.ofNat bits self.value)) := by
  unfold tryFrom
  split
  · rename_i long
    rw [if_pos long]
    rfl
  · rename_i short
    have fits : self.lstrip.digits.reverse.length * SHIFT ≤ bits := by
      rw [length_reverse]
      exact Nat.le_of_not_lt short
    rw [if_neg short, foldlM_tryFromLimb bits _ fits, reverse_reverse]
    change Except.ok (Except.ok (BitVec.ofNat bits self.lstrip.value)) = _
    rw [value_lstrip]

/-- **The conversion to an integer of whole limbs is exact**, but for zeros that are too long. -/
theorem tryFrom_limbs (limbs : Nat) (name : String) (self : BigUint) :
    tryFrom (SHIFT * limbs) name self =
      .ok (if self.value < 2 ^ (SHIFT * limbs) ∧ (self.value ≠ 0 ∨ self.len ≤ limbs) then
        .ok (BitVec.ofNat _ self.value) else .error ("cannot fit a number into " ++ name)) := by
  have short : self.lstrip.len ≤ limbs ↔
      self.value < 2 ^ (SHIFT * limbs) ∧ (self.value ≠ 0 ∨ self.len ≤ limbs) := by
    rw [pow_mul, ← B]
    by_cases zero : self.value = 0
    · simp [lstrip_of_value_eq_zero zero, zero, B]
    · rw [and_iff_left (.inl zero)]
      exact ⟨fun short => not_le.mp fun large => absurd (lt_len_lstrip large) (not_lt.mpr short),
        len_lstrip_le zero⟩
  have long : SHIFT * limbs < self.lstrip.len * SHIFT ↔
      ¬ (self.value < 2 ^ (SHIFT * limbs) ∧ (self.value ≠ 0 ∨ self.len ≤ limbs)) := by
    rw [← short]
    unfold SHIFT
    omega
  rw [tryFrom_eq, if_congr long rfl rfl, ite_not]

end BigUint

end Brace.Arithmetic
