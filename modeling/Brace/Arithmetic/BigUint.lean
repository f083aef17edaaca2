import Mathlib

/-!
# Unsigned integers of any size

`primitives/arithmetic/src/biguint.rs`: a number is a vector of 32-bit limbs, most significant
first, with addition, subtraction, multiplication and the long division of Knuth's second volume.
Limbs are indexed from the least significant one.

A `Double` is a natural number whose additions, multiplications and subtractions are checked, so
that an overflow is a panic here; the results on the operations show that none happens.
-/

namespace Brace.Arithmetic

inductive Panic where
  /-- A limb that is not there. -/
  | index
  /-- A machine integer that does not hold its value. -/
  | overflow
  /-- Division by zero. -/
  | zeroDivisor
  /-- The `expect` on a remainder. -/
  | remainder
  /-- A loop that does not end. -/
  | endless
  deriving DecidableEq

/-- `SHIFT`, the number of bits of a `Single`. -/
abbrev SHIFT : Nat := 32

/-- `B`, the base. -/
def B : Nat := 2 ^ 32

/-- `Single`, a limb. -/
abbrev Single := UInt32

/-- A `Double`, if it holds the value. -/
def double (value : Nat) : Except Panic Nat :=
  if value < 2 ^ 64 then .ok value else .error .overflow

/-- A `Single`, if it holds the value. -/
def single (value : Nat) : Except Panic Single :=
  if value < B then .ok (UInt32.ofNat value) else .error .overflow

/-- A subtraction that must not go below zero. -/
def minus (left right : Nat) : Except Panic Nat :=
  if right ≤ left then .ok (left - right) else .error .overflow

/-- `checked_sub` -/
def checkedSub (left right : Nat) : Option Nat :=
  if right ≤ left then some (left - right) else none

/-- `split`, of a `Double` into its two limbs. -/
def split (a : Nat) : Single × Single := (UInt32.ofNat (a / B), UInt32.ofNat a)

/-- `mul_single` -/
def mulSingle (a b : Single) : Except Panic Nat := double (a.toNat * b.toNat)

/-- `div_single`, with a quotient that is a `Double` and a remainder that is a `Single`. -/
def divSingle (a : Nat) (b : Single) : Except Panic (Nat × Single) :=
  if b = 0 then .error .zeroDivisor else .ok (a / b.toNat, UInt32.ofNat (a % b.toNat))

/-- `leading_zeros` of a limb. -/
def leadingZeros (limb : Single) : Nat := if limb = 0 then SHIFT else SHIFT - 1 - limb.toNat.log2

/-- `BigUint` -/
structure BigUint where
  /-- The limbs, most significant first. -/
  digits : List Single
  deriving DecidableEq

namespace BigUint

/-- `with_capacity` -/
def withCapacity (size : Nat) : BigUint := ⟨List.replicate (max size 1) 0⟩

/-- `zero` -/
def zero : BigUint := ⟨[0]⟩

/-- `from_limbs` -/
def fromLimbs (limbs : List Single) : BigUint := if limbs ≠ [] then ⟨limbs⟩ else zero

/-- `From<Single>` -/
def fromSingle (a : Single) : BigUint := ⟨[a]⟩

/-- `From<Double>` -/
def fromDouble (a : Nat) : BigUint := ⟨[(split a).1, (split a).2]⟩

variable (self other : BigUint)

/-- `len` -/
def len : Nat := self.digits.length

variable (index : Nat)

/-- The position of a limb in the vector. -/
def position : Option Nat := do
  let i ← checkedSub self.len 1
  checkedSub i index

/-- `checked_get` -/
def checkedGet : Option Single := do
  let j ← self.position index
  self.digits[j]?

/-- `get` -/
def get : Except Panic Single :=
  match self.checkedGet index with
  | some limb => .ok limb
  | none => .error .index

/-- `set` -/
def set (value : Single) : Except Panic BigUint :=
  match self.position index with
  | some j => .ok ⟨self.digits.set j value⟩
  | none => .error .index

/-- `msb` -/
def msb : Except Panic Single :=
  match self.digits with
  | limb :: _ => .ok limb
  | [] => .error .index

/-- `lstrip`; a number without a limb other than zero is left as it is. -/
def lstrip : BigUint :=
  if self.len = 0 then self
  else
    let index := (self.digits.findIdx? (· ≠ 0)).getD 0
    if 0 < index then ⟨self.digits.drop index⟩ else self

/-- `lpad` -/
def lpad (size : Nat) : BigUint :=
  if size ≤ self.len then self else ⟨List.replicate (size - self.len) 0 ++ self.digits⟩

/-- The limb at an index, zero when there is none, as a `Double`. -/
def limb (index : Nat) : Nat := ((self.checkedGet index).getD 0).toNat

/-- One round of `add`: the sum so far and the carry. -/
def addLimb : BigUint × Nat → Nat → Except Panic (BigUint × Nat)
  | (w, k), j => do
    let s ← double (self.limb j + other.limb j + k)
    let w ← w.set j (UInt32.ofNat (s % B))
    pure (w, s / B)

/-- `add` -/
def add : Except Panic BigUint := do
  let n := max self.len other.len
  let (w, k) ← (List.range n).foldlM (addLimb self other) (withCapacity (n + 1), 0)
  w.set n (UInt32.ofNat k)

/-- The difference of two limbs and a borrow, with the borrow after it. -/
def subSingle (u v k : Nat) : Except Panic (Nat × Nat) :=
  match (checkedSub u v).bind fun v => checkedSub v k with
  | some v2 => .ok (v2 % B, 0)
  | none => do
    let t ← double (u + B)
    let t ← minus t v
    let t ← minus t k
    pure (t, 1)

/-- One round of `sub`: the difference so far and the borrow. -/
def subLimb : BigUint × Nat → Nat → Except Panic (BigUint × Nat)
  | (w, k), j => do
    let (s, k) ← subSingle (self.limb j) (other.limb j) k
    let w ← w.set j (UInt32.ofNat s)
    pure (w, k)

/-- `sub`, with the wrapped difference as the error. -/
def sub : Except Panic (Except BigUint BigUint) := do
  let n := max self.len other.len
  let (w, k) ← (List.range n).foldlM (subLimb self other) (withCapacity n, 0)
  if k = 0 then pure (.ok w) else pure (.error w)

/-- One round of the inner loop of `mul`: the product so far and the carry. -/
def mulLimb (j : Nat) : BigUint × Single → Nat → Except Panic (BigUint × Single)
  | (w, k), i => do
    let product ← mulSingle (← self.get j) (← other.get i)
    let t ← double (product + (← w.get (i + j)).toNat + k.toNat)
    let w ← w.set (i + j) (UInt32.ofNat (t % B))
    pure (w, UInt32.ofNat (t / B))

/-- One round of the outer loop of `mul`. -/
def mulRow (w : BigUint) (j : Nat) : Except Panic BigUint := do
  if (← self.get j) = 0 then pure w
  else
    let (w, k) ← (List.range other.len).foldlM (mulLimb self other j) (w, 0)
    w.set (j + other.len) k

/-- `mul` -/
def mul : Except Panic BigUint :=
  (List.range self.len).foldlM (mulRow self other) (withCapacity (other.len + self.len))

/-- One round of `div_unit`: the quotient so far and the remainder. -/
def divUnitLimb (other : Single) : BigUint × Single → Nat → Except Panic (BigUint × Single)
  | (out, r), d => do
    let withR ← double (r.toNat * B + (← self.get d).toNat)
    let (q, rr) ← divSingle withR other
    let out ← out.set d (UInt32.ofNat q)
    pure (out, rr)

/-- `div_unit` -/
def divUnit (other : Single) : Except Panic BigUint := do
  let other := if other = 0 then 1 else other
  let (out, _) ← (List.range self.len).reverse.foldlM (divUnitLimb self other)
    (withCapacity self.len, 0)
  pure out

/-! ## Long division -/

variable (selfNorm otherNorm : BigUint)

/-- `test` of step D3.1: whether the estimate had to be decreased, the estimate and its
remainder. -/
def test (n j qhat rhat : Nat) :
    Except Panic (Bool × Nat × Nat) := do
  let lhs ← double (qhat * (← otherNorm.get (n - 2)).toNat)
  let rhs ← double (B * rhat + (← selfNorm.get (j + n - 2)).toNat)
  if B ≤ qhat ∨ rhs < lhs then
    let qhat ← minus qhat 1
    let rhat ← double (rhat + (← otherNorm.get (n - 1)).toNat)
    pure (true, qhat, rhat)
  else
    pure (false, qhat, rhat)

/-- The loop of step D3.1. Each round but the last adds the leading limb of the divisor to the
remainder, so that `B` rounds are enough. -/
def testLoop (n j : Nat) : Nat → Nat → Nat → Except Panic Nat
  | 0, _, _ => .error .endless
  | fuel + 1, qhat, rhat =>
    if rhat < B then do
      let (decreased, qhat, rhat) ← test selfNorm otherNorm n j qhat rhat
      if decreased then testLoop n j fuel qhat rhat else pure qhat
    else
      pure qhat

/-- Step D3, an estimate of a limb of the quotient. -/
def estimate (n j : Nat) : Except Panic Nat := do
  let dividend ← double ((← selfNorm.get (j + n)).toNat * B + (← selfNorm.get (j + n - 1)).toNat)
  let (qhat, rhat) ← divSingle dividend (← otherNorm.get (n - 1))
  let (_, qhat, rhat) ← test selfNorm otherNorm n j qhat rhat.toNat
  testLoop selfNorm otherNorm n j B qhat rhat

/-- The limbs from `j` to `j + n`. -/
def window (selfNorm : BigUint) (n j : Nat) : Except Panic BigUint := do
  let digits ← (List.range (n + 1)).reverse.mapM fun d => selfNorm.get (j + d)
  pure ⟨digits⟩

/-- Write limbs of a number over those from `j` on. -/
def writeBack (source : BigUint) (j : Nat) (places : List Nat) (selfNorm : BigUint) :
    Except Panic BigUint :=
  places.foldlM (fun selfNorm d => do selfNorm.set (j + d) (← source.get d)) selfNorm

/-- Steps D3 to D6, one limb of the quotient. -/
def divLimb (otherNorm : BigUint) (n : Nat) :
    BigUint × BigUint → Nat → Except Panic (BigUint × BigUint)
  | (selfNorm, q), j => do
    let qhat ← estimate selfNorm otherNorm n j
    -- step D4
    let lhs ← selfNorm.window n j
    let rhs ← otherNorm.mul (fromDouble qhat)
    match ← lhs.sub rhs with
    | .ok sub =>
      let selfNorm ← writeBack sub j (List.range (n + 1)) selfNorm
      let q ← q.set j (UInt32.ofNat qhat)
      pure (selfNorm, q)
    | .error sub =>
      let selfNorm ← writeBack sub j (List.range (n + 1)) selfNorm
      let q ← q.set j (UInt32.ofNat qhat)
      -- step D6, add back
      let q ← q.set j (UInt32.ofNat (← minus (← q.get j).toNat 1))
      let r ← otherNorm.add (← selfNorm.window n j)
      let selfNorm ← writeBack r j (List.range (n + 1)).reverse selfNorm
      pure (selfNorm, q)

/-- One round of the loop that undoes the normalization. -/
def denormalizeLimb (nb : Single) (r : BigUint) (d : Nat) :
    Except Panic BigUint := do
  r.set d ((← selfNorm.get d) >>> nb ||| (← selfNorm.get (d + 1)) <<< (32 - nb))

/-- The remainder, shifted back by the bits of the normalizer. -/
def denormalize (n : Nat) (normalizerBits : Single) : Except Panic BigUint :=
  if 0 < normalizerBits then do
    let r ← (List.range (n - 1)).foldlM (denormalizeLimb selfNorm normalizerBits) (withCapacity n)
    r.set (n - 1) ((← selfNorm.get (n - 1)) >>> normalizerBits)
  else
    .ok selfNorm

/-- `div` of numbers whose lengths and leading limbs have been examined. -/
def divLong (rem : Bool) : Except Panic (BigUint × BigUint) := do
  let n := other.len
  let m := self.len - n
  let normalizerBits := leadingZeros (← other.msb)
  let normalizer ← single (2 ^ normalizerBits)
  -- step D1
  let selfNorm ← self.mul (fromSingle normalizer)
  let otherNorm ← other.mul (fromSingle normalizer)
  let selfNorm := selfNorm.lpad (n + m + 1)
  let otherNorm := otherNorm.lstrip
  -- step D2
  let (selfNorm, q) ← (List.range (m + 1)).reverse.foldlM (divLimb otherNorm n)
    (selfNorm, withCapacity (m + 1))
  let r ← if rem then denormalize selfNorm n (UInt32.ofNat normalizerBits)
    else pure (withCapacity n)
  pure (q, r)

/-- `div` -/
def div (rem : Bool) : Except Panic (Option (BigUint × BigUint)) := do
  if other.len ≤ 1 then pure none
  else if (← other.msb) = 0 then pure none
  else if (← self.msb) = 0 then pure none
  else if self.len ≤ other.len then pure none
  else
    let result ← divLong self other rem
    pure (some result)

/-! ## Conversions to machine integers -/

/-- One round of `try_from`, for an integer of `bits` bits. -/
def tryFromLimb (bits : Nat) (acc : Nat) (entry : Single × Nat) : Except Panic Nat :=
  if SHIFT * entry.2 < bits then
    let sum := acc + (entry.1.toNat <<< (SHIFT * entry.2)) % 2 ^ bits
    if sum < 2 ^ bits then .ok sum else .error .overflow
  else
    .error .overflow

/-- `try_from`, for an integer of `bits` bits. -/
def tryFrom (bits : Nat) (name : String) (value : BigUint) :
    Except Panic (Except String (BitVec bits)) := do
  let value := value.lstrip
  if bits < value.len * SHIFT then pure (.error ("cannot fit a number into " ++ name))
  else
    let acc ← value.digits.reverse.zipIdx.foldlM (tryFromLimb bits) 0
    pure (.ok (BitVec.ofNat bits acc))

/-- `TryFrom<BigUint> for u128` -/
def tryFromU128 : BigUint → Except Panic (Except String (BitVec 128)) := tryFrom 128 "u128"

/-- `TryFrom<BigUint> for u64` -/
def tryFromU64 : BigUint → Except Panic (Except String (BitVec 64)) := tryFrom 64 "u64"

/-! ## Comparison -/

/-- `cmp` -/
def cmp : Ordering :=
  match self.digits.findIdx? (· ≠ 0), other.digits.findIdx? (· ≠ 0) with
  | none, none => .eq
  | some _, none => .gt
  | none, some _ => .lt
  | some lhsIdx, some rhsIdx =>
    let lhs := self.digits.drop lhsIdx
    let rhs := other.digits.drop rhsIdx
    match compare lhs.length rhs.length with
    | .eq => compare lhs rhs
    | order => order

/-- `eq` -/
def eq : Bool := self.cmp other = .eq

end BigUint

end Brace.Arithmetic
