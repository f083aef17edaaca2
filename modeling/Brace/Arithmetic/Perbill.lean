import Brace.Arithmetic.PerThings

/-!
# Parts per billion of a balance

`Perbill` values of at most one, and their product with a balance as the pallets use it: the value
that `PerThing.mul` computes for a balance type of any width (`PerThing.mul_eq`). It is written as
one quotient (`times_eq`), so that its bounds and its monotonicity are those of a quotient.
-/

namespace Brace.Arithmetic

/-- A `Perbill` that is at most one. -/
@[ext] structure Perbill where
  parts : Nat
  /-- The constructors never give more than one. -/
  parts_le : parts ≤ 1000000000
deriving DecidableEq

namespace Perbill

/-- `Perbill::zero` -/
def zero : Perbill := ⟨0, by decide⟩

/-- `Perbill::from_percent` -/
def fromPercent (percent : Nat) : Perbill := ⟨min 100 percent * 10000000, by omega⟩

/-- The value of the per-thing type. -/
def toPerThing (self : Perbill) : PerThing .perbill :=
  ⟨self.parts, by
    have bound := self.parts_le
    change self.parts < 2 ^ 32
    omega⟩

/-- The product with a balance, as a natural. -/
def times (self : Perbill) (balance : Nat) : Nat := self.toPerThing.product balance

section

variable (self : Perbill)

theorem times_eq (balance : Nat) :
    self.times balance = (balance * self.parts + 499999999) / 1000000000 := by
  rw [times, PerThing.product_eq, Nat.mul_comm balance]
  rfl

theorem times_le (balance : Nat) : self.times balance ≤ balance := by
  have bound := Nat.mul_le_mul_left balance self.parts_le
  rw [times_eq]
  omega

theorem times_mono {self other : Perbill} (less : self.parts ≤ other.parts) (balance : Nat) :
    self.times balance ≤ other.times balance := by
  have bound := Nat.mul_le_mul_left balance less
  rw [times_eq, times_eq]
  omega

theorem times_mono_right {less more : Nat} (ordered : less ≤ more) :
    self.times less ≤ self.times more := by
  have bound := Nat.mul_le_mul_right self.parts ordered
  rw [times_eq, times_eq]
  omega

end

@[simp] theorem zero_times (balance : Nat) : zero.times balance = 0 := by
  rw [times_eq]
  simp [zero]

end Perbill

end Brace.Arithmetic
