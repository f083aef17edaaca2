import Brace.Lib.Run

/-!
# Parts per something

`primitives/arithmetic/src/per_things.rs`: fixed point numbers between zero and one, as parts per
`ACCURACY`. The macro `implement_per_thing!` makes a family of types; `PerThingKind` holds its
parameters with what the macro's own test `macro_expanded_correctly` asserts of them.

The constructors and the arithmetic return values of at most one, whatever their operands, and then
the product with an integer is the rounded quotient (`mul_exact`). Decoding is derived from the
codec of the inner integer and checks nothing (`composition_sound_iff`).
-/

namespace Brace.Arithmetic

open Brace.Lib Nat

/-- The parameters of `implement_per_thing!`. The upper type has twice the bits of the type. -/
structure PerThingKind where
  /-- `ACCURACY`, the parts of everything. -/
  max : Nat
  /-- The number of bits of the inner type. -/
  bits : Nat
  hundred_le : 100 ≤ max
  hundred_dvd : max % 100 = 0
  double_lt : 2 * max < 2 ^ bits - 1

namespace PerThingKind

/-- `Percent` -/
def percent : PerThingKind := ⟨100, 8, by decide, by decide, by decide⟩

/-- `Permill` -/
def permill : PerThingKind := ⟨1000000, 32, by decide, by decide, by decide⟩

/-- `Perbill` -/
def perbill : PerThingKind := ⟨1000000000, 32, by decide, by decide, by decide⟩

/-- `Perquintill` -/
def perquintill : PerThingKind := ⟨1000000000000000000, 64, by decide, by decide, by decide⟩

end PerThingKind

/-- A value of a per-thing type: any value of the inner type. -/
structure PerThing (kind : PerThingKind) where
  parts : Nat
  parts_lt : parts < 2 ^ kind.bits

namespace PerThing

/-- How a computation of a per-thing can end without one. -/
inductive Failure where
  /-- An `expect` on a conversion to the inner type. -/
  | conversion
  /-- A machine integer that does not hold its value. -/
  | overflow
  /-- The decoder returned an error. -/
  | codec
  deriving DecidableEq

variable {kind : PerThingKind}

/-- An integer type of `bits` bits, if it holds the value. -/
def checked (bits value : Nat) : Except Failure Nat :=
  if value < 2 ^ bits then .ok value else .error .overflow

variable (kind)

/-- A value of the inner type made by a cast. -/
def cast (value : Nat) : PerThing kind :=
  ⟨value % 2 ^ kind.bits, Nat.mod_lt _ (Nat.two_pow_pos _)⟩

/-- `zero` -/
def zero : PerThing kind := cast kind 0

/-- `one` -/
def one : PerThing kind := cast kind kind.max

/-- `from_parts` -/
def fromParts (parts : Nat) : PerThing kind :=
  cast kind (if kind.max < parts then kind.max else parts)

/-- `from_percent` -/
def fromPercent (x : Nat) : Except Failure (PerThing kind) := do
  let parts ← checked kind.bits ((if 100 < x then 100 else x) * (kind.max / 100))
  pure (cast kind parts)

/-- `try_into` the inner type, and the `expect` on it. -/
def tryInto (value : Int) : Except Failure Nat :=
  if 0 ≤ value ∧ value < 2 ^ kind.bits then .ok value.toNat else .error .conversion

/-- `from_rational_approximation`, for integers of any type, signed or not, that the inner type
converts to. -/
def fromRationalApproximation (p q : Int) :
    Except Failure (PerThing kind) := do
  let q := Max.max q 1
  let p := min p q
  let factor := Max.max (q.tdiv kind.max) 1
  let qReduce ← tryInto kind (q.tdiv factor)
  let pReduce ← tryInto kind (p.tdiv factor)
  let product ← checked (2 * kind.bits) (pReduce * kind.max)
  pure (cast kind (product / qReduce))

variable {kind}

variable (self : PerThing kind)

/-- `square` -/
def square : Except Failure (PerThing kind) := do
  let p ← checked (2 * kind.bits) (self.parts * self.parts)
  let q ← checked (2 * kind.bits) (kind.max * kind.max)
  fromRationalApproximation kind p q

/-- `saturating_add` -/
def saturatingAdd (self rhs : PerThing kind) : PerThing kind :=
  fromParts kind (min (self.parts + rhs.parts) (2 ^ kind.bits - 1))

/-- `saturating_sub` -/
def saturatingSub (self rhs : PerThing kind) : PerThing kind :=
  fromParts kind (self.parts - rhs.parts)

/-- `saturating_mul` -/
def saturatingMul (self rhs : PerThing kind) : Except Failure (PerThing kind) := do
  let product ← checked (2 * kind.bits) (self.parts * rhs.parts)
  pure (fromParts kind (product / kind.max % 2 ^ kind.bits))

/-- `div` -/
def div (self rhs : PerThing kind) : Except Failure (PerThing kind) :=
  fromRationalApproximation kind self.parts rhs.parts

/-- The product with the remainder of the operand, rounded at one half. -/
def mulRemainder (rem : Nat) : Except Failure Nat := do
  let remSized := min rem (2 ^ kind.bits - 1)
  let upper ← checked (2 * kind.bits) (remSized * self.parts)
  let sized := upper / kind.max % 2 ^ kind.bits
  if kind.max / 2 < upper % kind.max then checked kind.bits (sized + 1) else pure sized

/-- `mul` with an unsigned integer of `width` bits. -/
def mul (width b : Nat) : Except Failure Nat := do
  let rem ← self.mulRemainder (b % kind.max)
  let whole ← checked width (b / kind.max * self.parts)
  checked width (whole + rem)

/-! ## The constructors and the arithmetic -/

/-- A value between zero and one. -/
def InRange : Prop := self.parts ≤ kind.max

theorem max_lt (kind : PerThingKind) : kind.max < 2 ^ kind.bits := by
  have double := kind.double_lt
  omega

theorem inRange_cast {value : Nat} (small : value ≤ kind.max) : (cast kind value).InRange := by
  have bound := max_lt kind
  exact (mod_eq_of_lt (by omega)).trans_le small

theorem inRange_fromParts (kind : PerThingKind) (parts : Nat) : (fromParts kind parts).InRange := by
  apply inRange_cast
  split
  · exact le_refl _
  · rename_i below
    omega

theorem fromPercent_spec (kind : PerThingKind) (x : Nat) :
    ∃ value, fromPercent kind x = .ok value ∧ value.InRange := by
  have bound := max_lt kind
  have whole : 100 * (kind.max / 100) ≤ kind.max := mul_div_le _ _
  obtain ⟨percent, capped, most⟩ : ∃ percent, (if 100 < x then 100 else x) = percent ∧
      percent ≤ 100 := ⟨_, rfl, by split <;> omega⟩
  have parts : percent * (kind.max / 100) ≤ kind.max := (mul_le_mul_right _ most).trans whole
  refine ⟨cast kind (percent * (kind.max / 100)), ?_, inRange_cast parts⟩
  rw [fromPercent, capped, checked, if_pos (by omega)]
  rfl

theorem tryInto_eq_ok {value : Int} {inner : Nat} (converted : tryInto kind value = .ok inner) :
    (inner : Int) = value := by
  unfold tryInto at converted
  split at converted
  · rename_i bounds
    cases converted
    exact Int.toNat_of_nonneg bounds.1
  · cases converted

variable {value self : PerThing kind}

/-- **The approximation of a fraction is at most everything**, for all arguments for which it
returns. -/
theorem inRange_fromRationalApproximation {p q : Int}
    (ran : fromRationalApproximation kind p q = .ok value) : value.InRange := by
  unfold fromRationalApproximation at ran
  obtain ⟨qReduce, reduced_q, ran⟩ := bind_eq_ok.mp ran
  obtain ⟨pReduce, reduced_p, ran⟩ := bind_eq_ok.mp ran
  obtain ⟨product, multiplied, ran⟩ := bind_eq_ok.mp ran
  have factor_pos : (0 : Int) < Max.max ((Max.max q 1).tdiv kind.max) 1 := by omega
  have less : pReduce ≤ qReduce := by
    have ordered := Int.tdiv_le_tdiv factor_pos (min_le_right p (Max.max q 1))
    rw [← tryInto_eq_ok reduced_q, ← tryInto_eq_ok reduced_p] at ordered
    exact_mod_cast ordered
  cases ran
  apply inRange_cast
  unfold checked at multiplied
  split at multiplied
  all_goals cases multiplied
  apply Nat.div_le_of_le_mul
  exact Nat.mul_le_mul_right _ less

theorem inRange_square (ran : self.square = .ok value) : value.InRange := by
  unfold square at ran
  obtain ⟨p, _, ran⟩ := bind_eq_ok.mp ran
  obtain ⟨q, _, ran⟩ := bind_eq_ok.mp ran
  exact inRange_fromRationalApproximation ran

theorem saturatingMul_spec (self rhs : PerThing kind) :
    ∃ value, self.saturatingMul rhs = .ok value ∧ value.InRange := by
  have fits : self.parts * rhs.parts < 2 ^ (2 * kind.bits) := by
    rw [two_mul, pow_add]
    exact mul_lt_mul'' self.parts_lt rhs.parts_lt
  refine ⟨fromParts kind (self.parts * rhs.parts / kind.max % 2 ^ kind.bits), ?_,
    inRange_fromParts kind _⟩
  rw [saturatingMul, checked, if_pos fits]
  rfl

/-! ## The product with an integer -/

/-- The product with an integer, rounded at one half. -/
def product (self : PerThing kind) (b : Nat) : Nat :=
  self.parts * b / kind.max +
    if kind.max / 2 < self.parts * (b % kind.max) % kind.max then 1 else 0

theorem rounded_eq {modulus : Nat} (pos : 0 < modulus) (value : Nat) :
    (value / modulus + if modulus / 2 < value % modulus then 1 else 0) =
      (value + (modulus - modulus / 2 - 1)) / modulus := by
  have parts := div_add_mod value modulus
  have rest := mod_lt value pos
  symm
  rw [Nat.div_eq_iff pos]
  generalize value / modulus = quotient at *
  generalize value % modulus = remainder at *
  have next : (quotient + 1) * modulus = modulus * quotient + modulus := by ring
  split <;> simp only [next, add_zero, mul_comm quotient] <;> omega

variable (small : self.InRange) {width b : Nat}

theorem product_eq (self : PerThing kind) (b : Nat) :
    self.product b = (self.parts * b + (kind.max - kind.max / 2 - 1)) / kind.max := by
  have hundred := kind.hundred_le
  rw [product, mul_mod_mod, rounded_eq (by omega)]

include small

theorem product_le (b : Nat) : self.product b ≤ b := by
  have hundred := kind.hundred_le
  have bound : self.parts * b ≤ kind.max * b := mul_le_mul_right _ small
  rw [product_eq, ← Nat.lt_succ_iff, Nat.div_lt_iff_lt_mul (by omega), Nat.succ_mul]
  have swap := mul_comm b kind.max
  omega

theorem mulRemainder_eq (less : b < kind.max) : self.mulRemainder b = .ok (self.product b) := by
  have bound := max_lt kind
  have most := product_le small b
  have sized : min b (2 ^ kind.bits - 1) = b := by omega
  have fits : b * self.parts < 2 ^ (2 * kind.bits) := by
    rw [two_mul, pow_add]
    exact mul_lt_mul'' (by omega) self.parts_lt
  unfold product at most ⊢
  rw [mulRemainder, sized, checked, if_pos fits, ok_bind, mul_comm b]
  rw [mod_eq_of_lt less] at most ⊢
  rw [mod_eq_of_lt (by omega)]
  split
  · rename_i above
    rw [if_pos above] at most
    rw [checked, if_pos (by omega)]
  · rfl

/-- **The product of a value of at most one with an integer** is computed without an overflow. -/
theorem mul_eq (fits : b < 2 ^ width) : self.mul width b = .ok (self.product b) := by
  have hundred := kind.hundred_le
  have pos : 0 < kind.max := by omega
  have most := product_le small b
  have whole : b / kind.max * self.parts + self.product (b % kind.max) = self.product b := by
    have parts := div_add_mod' b kind.max
    have split : self.parts * b =
        self.parts * (b % kind.max) + b / kind.max * self.parts * kind.max := by
      nth_rewrite 1 [← parts]
      ring
    rw [product, product, mod_mod, split, add_mul_div_right _ _ pos]
    omega
  rw [mul, mulRemainder_eq small (mod_lt b pos), ok_bind, checked, if_pos (by omega),
    ok_bind, whole, checked, if_pos (by omega)]

omit small

/-- **The product is the rounded quotient**, at most the integer, and monotone in both operands. -/
theorem mul_exact (small : self.InRange) (_holds : kind.max < 2 ^ width) (fits : b < 2 ^ width) :
    ∃ result, self.mul width b = .ok result ∧
      result = self.parts * b / kind.max +
        (if kind.max / 2 < self.parts * (b % kind.max) % kind.max then 1 else 0) ∧
      result ≤ b ∧
      ∀ (other : PerThing kind) (more : Nat), other.InRange → more < 2 ^ width →
        self.parts ≤ other.parts → b ≤ more →
          ∃ larger, other.mul width more = .ok larger ∧ result ≤ larger :=
  ⟨_, mul_eq small fits, rfl, product_le small b, fun _ _ range room parts less => by
    refine ⟨_, mul_eq range room, ?_⟩
    have bound := mul_le_mul parts less
    rw [product_eq, product_eq]
    exact Nat.div_le_div_right (by omega)⟩

/-- One percent of 51 is rounded up. -/
theorem mul_exact_percent : ∃ result, (cast .percent 1).mul 8 51 = .ok result ∧ result = 1 := by
  have small : (cast .percent 1).InRange := by
    unfold InRange
    decide
  obtain ⟨result, ran, value, -⟩ := mul_exact small (by decide : _ < 2 ^ 8)
    (by decide : 51 < 2 ^ 8)
  exact ⟨result, ran, value⟩

/-! ## Decoding -/

/-- The decoders of the inner integer that the codec library supplies: a value and the bytes that
are left. -/
structure Codec (bits : Nat) where
  decode : List UInt8 → Option (BitVec bits × List UInt8)
  decodeCompact : List UInt8 → Option (BitVec bits × List UInt8)

/-- A decoder of the inner integer, as the derived decoder of the per-thing uses it. -/
def wrap (decoder : List UInt8 → Option (BitVec kind.bits × List UInt8)) (input : List UInt8) :
    Except Failure (PerThing kind) :=
  match decoder input with
  | some (parts, _) => .ok ⟨parts.toNat, parts.isLt⟩
  | none => .error .codec

/-- `decode`, as derived. -/
def decode (codec : Codec kind.bits) : List UInt8 → Except Failure (PerThing kind) :=
  wrap codec.decode

/-- `decode` of the compact form, as derived by `CompactAs`. -/
def decodeCompact (codec : Codec kind.bits) : List UInt8 → Except Failure (PerThing kind) :=
  wrap codec.decodeCompact

/-- The number in bytes, least significant first. -/
def littleEndian : List UInt8 → Nat
  | [] => 0
  | byte :: rest => byte.toNat + 256 * littleEndian rest

/-- The number in the first bytes, if there are enough, divided by `2 ^ drop`. -/
def readBytes (bits count drop : Nat) (input : List UInt8) : Option (BitVec bits × List UInt8) :=
  let value := littleEndian (input.take count) / 2 ^ drop
  if count ≤ input.length ∧ value < 2 ^ bits then
    some (BitVec.ofNat bits value, input.drop count)
  else none

/-- The SCALE codec of an unsigned integer: fixed width, and the compact form with its four
modes in the two lowest bits of the first byte. -/
def scale (bits : Nat) : Codec bits where
  decode := readBytes bits (bits / 8) 0
  decodeCompact
    | [] => none
    | first :: rest =>
      match first.toNat % 4 with
      | 0 => readBytes bits 1 2 (first :: rest)
      | 1 => readBytes bits 2 2 (first :: rest)
      | 2 => readBytes bits 4 2 (first :: rest)
      | _ => readBytes bits (first.toNat / 4 + 4) 0 rest

/-! ## Compositions -/

/-- A composition of the constructors, the arithmetic and the decoders. -/
inductive Composition (kind : PerThingKind) where
  | zero
  | one
  | fromParts (parts : Nat)
  | fromPercent (x : Nat)
  | fromRationalApproximation (p q : Int)
  | saturatingAdd (left right : Composition kind)
  | saturatingSub (left right : Composition kind)
  | saturatingMul (left right : Composition kind)
  | square (operand : Composition kind)
  | div (left right : Composition kind)
  | decode (input : List UInt8)
  | decodeCompact (input : List UInt8)

namespace Composition

/-- The value that a composition computes. -/
def eval (codec : Codec kind.bits) : Composition kind → Except Failure (PerThing kind)
  | .zero => .ok (PerThing.zero kind)
  | .one => .ok (PerThing.one kind)
  | .fromParts parts => .ok (PerThing.fromParts kind parts)
  | .fromPercent x => PerThing.fromPercent kind x
  | .fromRationalApproximation p q => PerThing.fromRationalApproximation kind p q
  | .saturatingAdd left right => do
    pure ((← left.eval codec).saturatingAdd (← right.eval codec))
  | .saturatingSub left right => do
    pure ((← left.eval codec).saturatingSub (← right.eval codec))
  | .saturatingMul left right => do (← left.eval codec).saturatingMul (← right.eval codec)
  | .square operand => do (← operand.eval codec).square
  | .div left right => do (← left.eval codec).div (← right.eval codec)
  | .decode input => PerThing.decode codec input
  | .decodeCompact input => PerThing.decodeCompact codec input

/-- Every value that the composition returns is between zero and one, and then its product with an
integer is at most the integer. -/
def Sound (codec : Codec kind.bits) (composition : Composition kind) : Prop :=
  ∀ value, composition.eval codec = .ok value → value.InRange ∧
    ∀ width b, b < 2 ^ width → ∃ product, value.mul width b = .ok product ∧ product ≤ b

/-- When the composition ends with a decoder, the number in the bytes is at most everything. -/
def InputInRange (codec : Codec kind.bits) : Composition kind → Prop
  | .decode input => ∀ result ∈ codec.decode input, result.1.toNat ≤ kind.max
  | .decodeCompact input => ∀ result ∈ codec.decodeCompact input, result.1.toNat ≤ kind.max
  | _ => True

end Composition

theorem wrap_eq_ok {decoder : List UInt8 → Option (BitVec kind.bits × List UInt8)}
    {input : List UInt8} :
    wrap decoder input = .ok value ↔ ∃ result ∈ decoder input, result.1.toNat = value.parts := by
  unfold wrap
  constructor
  · intro ran
    split at ran
    · rename_i parts rest decoded
      cases ran
      exact ⟨(parts, rest), decoded, rfl⟩
    · cases ran
  · rintro ⟨⟨parts, rest⟩, decoded, same⟩
    rw [show decoder input = some (parts, rest) from decoded]
    cases value
    cases same
    rfl

theorem inRange_wrap_iff (decoder : List UInt8 → Option (BitVec kind.bits × List UInt8))
    (input : List UInt8) :
    (∀ value, wrap decoder input = .ok value → value.InRange) ↔
      ∀ result ∈ decoder input, result.1.toNat ≤ kind.max := by
  constructor
  · intro sound result decoded
    exact sound ⟨result.1.toNat, result.1.isLt⟩ (wrap_eq_ok.mpr ⟨result, decoded, rfl⟩)
  · intro bounded value ran
    obtain ⟨result, decoded, same⟩ := wrap_eq_ok.mp ran
    rw [InRange, ← same]
    exact bounded result decoded

theorem Composition.inRange {codec : Codec kind.bits} {composition : Composition kind}
    (bounded : composition.InputInRange codec)
    (ran : composition.eval codec = .ok value) : value.InRange := by
  cases composition with
  | zero =>
    cases ran
    exact inRange_cast (zero_le _)
  | one =>
    cases ran
    exact inRange_cast (le_refl _)
  | fromParts parts =>
    cases ran
    exact inRange_fromParts kind parts
  | fromPercent x =>
    obtain ⟨result, computed, small⟩ := fromPercent_spec kind x
    rw [eval, computed] at ran
    cases ran
    exact small
  | fromRationalApproximation p q => exact inRange_fromRationalApproximation ran
  | saturatingAdd left right | saturatingSub left right =>
    obtain ⟨first, _, ran⟩ := bind_eq_ok.mp ran
    obtain ⟨second, _, ran⟩ := bind_eq_ok.mp ran
    cases ran
    exact inRange_fromParts kind _
  | saturatingMul left right =>
    obtain ⟨first, _, ran⟩ := bind_eq_ok.mp ran
    obtain ⟨second, _, ran⟩ := bind_eq_ok.mp ran
    obtain ⟨result, computed, small⟩ := saturatingMul_spec first second
    rw [computed] at ran
    cases ran
    exact small
  | square operand =>
    obtain ⟨first, _, ran⟩ := bind_eq_ok.mp ran
    exact inRange_square ran
  | div left right =>
    obtain ⟨first, _, ran⟩ := bind_eq_ok.mp ran
    obtain ⟨second, _, ran⟩ := bind_eq_ok.mp ran
    exact inRange_fromRationalApproximation ran
  | decode input | decodeCompact input => exact (inRange_wrap_iff _ _).mpr bounded value ran

/-- **A composition is sound exactly when it does not end with decoding a number above one.** -/
theorem composition_sound_iff (codec : Codec kind.bits) (composition : Composition kind) :
    composition.Sound codec ↔ composition.InputInRange codec := by
  constructor
  · intro sound
    cases composition with
    | decode input | decodeCompact input =>
      exact (inRange_wrap_iff _ _).mp fun value ran => (sound value ran).1
    | _ => trivial
  · intro bounded value ran
    have small := Composition.inRange bounded ran
    exact ⟨small, fun width b fits => ⟨_, mul_eq small fits, product_le small b⟩⟩

/-- Four bytes that decode to more than four times everything. -/
theorem decode_above_one :
    ¬ (Composition.decode [255, 255, 255, 255]).Sound (scale PerThingKind.perbill.bits) := by
  intro sound
  have decoded : (Composition.decode [255, 255, 255, 255]).eval
      (scale PerThingKind.perbill.bits) = .ok ⟨4294967295, by decide⟩ := rfl
  have small := (sound _ decoded).1
  exact absurd small (by unfold InRange; decide)

end PerThing

end Brace.Arithmetic
