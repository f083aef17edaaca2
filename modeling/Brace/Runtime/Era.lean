import Mathlib

/-!
# Mortal eras

Model of `primitives/runtime/src/generic/era.rs`. Blocks, periods and phases are natural numbers;
sums and differences wrap. A mortal era has a power of two between 4 and 65536 as its period, and
a phase that is a multiple of the step that the codec divides out (`Valid`), so it is encoded
without loss and its windows follow each other from the phase on.
-/

namespace Brace.Runtime

/-- `Era` -/
inductive Era
  /-- "The transaction is valid forever." -/
  | immortal
  | mortal (period phase : Nat)
  deriving DecidableEq

inductive DecodeError
  /-- The input has ended. -/
  | notEnoughData
  /-- "Invalid period and phase" -/
  | invalidPeriodAndPhase
  deriving DecidableEq

/-- `u64::checked_next_power_of_two` -/
def checkedNextPowerOfTwo (number : Nat) : Option Nat :=
  if 2 ^ Nat.clog 2 number < 2 ^ 64 then some (2 ^ Nat.clog 2 number) else none

/-- `u64::trailing_zeros` -/
def trailingZeros (number : Nat) : Nat :=
  ((List.range 64).find? number.testBit).getD 64

/-- `(period >> 12).max(1)` -/
def quantizeFactor (period : Nat) : Nat :=
  max (period >>> 12) 1

namespace Era

/-- `Era::mortal` -/
def newMortal (period current : Nat) : Era :=
  let period := min (max ((checkedNextPowerOfTwo period).getD (1 <<< 16)) 4) (1 <<< 16)
  let phase := current % period
  .mortal period (phase / quantizeFactor period * quantizeFactor period)

/-- `Era::birth` -/
def birth (current : Nat) : Era → Nat
  | .immortal => 0
  | .mortal period phase => (max current phase - phase) / period * period + phase

/-- `Era::death` -/
def death (current : Nat) : Era → Nat
  | .immortal => 2 ^ 64 - 1
  | .mortal period phase => (birth current (.mortal period phase) + period) % 2 ^ 64

/-- `Era::encode_to` -/
def encode : Era → List UInt8
  | .immortal => [0]
  | .mortal period phase =>
    let encoded := min (max ((trailingZeros period + 2 ^ 32 - 1) % 2 ^ 32) 1) 15 |||
      ((phase / quantizeFactor period) <<< 4) % 2 ^ 16
    [UInt8.ofNat encoded, UInt8.ofNat (encoded >>> 8)]

/-- `Era::decode`, with the rest of the input. -/
def decode : List UInt8 → Except DecodeError (Era × List UInt8)
  | [] => .error .notEnoughData
  | first :: input =>
    if first = 0 then .ok (.immortal, input)
    else
      match input with
      | [] => .error .notEnoughData
      | second :: input =>
        let encoded := first.toNat + second.toNat <<< 8
        let period := 2 <<< (encoded % (1 <<< 4))
        let phase := encoded >>> 4 * quantizeFactor period
        if period ≥ 4 ∧ phase < period then .ok (.mortal period phase, input)
        else .error .invalidPeriodAndPhase

/-- A period and a phase that the codec can express. -/
structure Valid (period phase : Nat) : Prop where
  power : ∃ k, 2 ≤ k ∧ k ≤ 16 ∧ period = 2 ^ k
  below : phase < period
  step : phase / quantizeFactor period * quantizeFactor period = phase

theorem quantizeFactor_pos (period : Nat) : 0 < quantizeFactor period :=
  Nat.le_max_right _ 1

/-- The quantised period: the next power of two, between 4 and 65536. -/
def windowLength (period : Nat) : Nat :=
  min (max (2 ^ Nat.clog 2 period) 4) 65536

/-- The phase of a block, rounded down to the step that the codec divides out. -/
def windowPhase (period current : Nat) : Nat :=
  current % windowLength period / quantizeFactor (windowLength period) *
    quantizeFactor (windowLength period)

theorem windowLength_power (period : Nat) :
    ∃ k, 2 ≤ k ∧ k ≤ 16 ∧ windowLength period = 2 ^ k := by
  have mono : Monotone fun k => 2 ^ k := fun _ _ => Nat.pow_le_pow_right Nat.two_pos
  refine ⟨min (max (Nat.clog 2 period) 2) 16, by omega, by omega, Eq.symm ?_⟩
  exact mono.map_min.trans (congrArg (min · (2 ^ 16)) mono.map_max)

/-- The era of a period and a current block. A period whose next power of two is no `u64` is
quantised to 65536 as well. -/
theorem newMortal_eq (period current : Nat) :
    newMortal period current = .mortal (windowLength period) (windowPhase period current) := by
  have length : min (max ((checkedNextPowerOfTwo period).getD (1 <<< 16)) 4) (1 <<< 16) =
      windowLength period := by
    unfold checkedNextPowerOfTwo windowLength
    split
    · rfl
    · rename_i large
      have above : 65536 ≤ 2 ^ Nat.clog 2 period := by omega
      rw [Nat.min_eq_right (above.trans (Nat.le_max_left _ _))]
      rfl
  unfold newMortal
  rw [length]
  rfl

theorem window_valid (period current : Nat) :
    Valid (windowLength period) (windowPhase period current) := by
  obtain ⟨k, least, most, same⟩ := windowLength_power period
  have positive : 0 < windowLength period := same ▸ Nat.two_pow_pos k
  refine ⟨⟨k, least, most, same⟩, ?_, ?_⟩
  · exact (Nat.div_mul_le_self _ _).trans_lt (Nat.mod_lt _ positive)
  · rw [windowPhase, Nat.mul_div_cancel _ (quantizeFactor_pos _)]

theorem decode_encode {period phase : Nat} (valid : Valid period phase) (rest : List UInt8) :
    decode (encode (.mortal period phase) ++ rest) = .ok (.mortal period phase, rest) := by
  obtain ⟨⟨k, least, most, rfl⟩, below, step⟩ := valid
  have zeros : min (max ((trailingZeros (2 ^ k) + 2 ^ 32 - 1) % 2 ^ 32) 1) 15 = k - 1 := by
    interval_cases k <;> decide
  have steps : 2 ^ k ≤ quantizeFactor (2 ^ k) * 2 ^ 12 := by
    interval_cases k <;> decide
  have small := Nat.div_lt_of_lt_mul (below.trans_le steps)
  obtain ⟨encoded, total⟩ : ∃ encoded, encoded =
      (phase / quantizeFactor (2 ^ k)) * 2 ^ 4 + (k - 1) := ⟨_, rfl⟩
  have joined : (k - 1) ||| ((phase / quantizeFactor (2 ^ k)) <<< 4) % 2 ^ 16 = encoded := by
    rw [Nat.mod_eq_of_lt (by rw [Nat.shiftLeft_eq]; omega), Nat.or_comm,
      ← Nat.shiftLeft_add_eq_or_of_lt (by omega), Nat.shiftLeft_eq, total]
  have first : (UInt8.ofNat encoded).toNat = encoded % 256 := UInt8.toNat_ofNat'
  have second : (UInt8.ofNat (encoded >>> 8)).toNat = encoded / 256 := by
    rw [UInt8.toNat_ofNat', Nat.shiftRight_eq_div_pow]
    omega
  have nonzero : UInt8.ofNat encoded ≠ 0 := by
    intro zero
    rw [zero] at first
    change 0 = _ at first
    omega
  have read : (UInt8.ofNat encoded).toNat + (UInt8.ofNat (encoded >>> 8)).toNat <<< 8 =
      encoded := by
    rw [first, second, Nat.shiftLeft_eq]
    omega
  have period : 2 <<< (encoded % (1 <<< 4)) = 2 ^ k := by
    have low : encoded % 16 = k - 1 := by omega
    change 2 <<< (encoded % 16) = _
    rw [low, Nat.shiftLeft_eq, ← Nat.pow_succ', Nat.succ_eq_add_one, Nat.sub_add_cancel (by omega)]
  have high : encoded >>> 4 = phase / quantizeFactor (2 ^ k) := by
    rw [Nat.shiftRight_eq_div_pow]
    omega
  have least : 2 ^ 2 ≤ 2 ^ k := Nat.pow_le_pow_right Nat.two_pos least
  simp only [encode, zeros, joined, List.cons_append, List.nil_append, decode, nonzero, if_false,
    read, period, high, step]
  rw [if_pos ⟨least, below⟩]

theorem birth_eq {length phase count block : Nat} (born : count * length + phase ≤ block)
    (alive : block < count * length + phase + length) :
    birth block (.mortal length phase) = count * length + phase := by
  have counted : (block - phase) / length = count :=
    Nat.div_eq_of_lt_le (by omega) (by rw [Nat.succ_mul]; omega)
  rw [birth, Nat.max_eq_left (by omega), counted]

/-- **Mortal eras describe one window.** The era of a period and a current block has the quantised
period and phase and is decoded from its encoding. From its phase on, which has passed, every block
is in a window of the length of the quantised period, all blocks of the window have the same birth
and death, and the next window is born when one dies. -/
theorem mortal_windows (period current : Nat) (rest : List UInt8) :
    ∃ length phase, length = min (max (2 ^ Nat.clog 2 period) 4) 65536 ∧
    phase = current % length / quantizeFactor length * quantizeFactor length ∧
    newMortal period current = .mortal length phase ∧
    decode (encode (.mortal length phase) ++ rest) = .ok (.mortal length phase, rest) ∧
    phase ≤ current ∧ birth phase (.mortal length phase) = phase ∧
    ∀ block, phase ≤ block → block + length < 2 ^ 64 → ∃ born died,
      birth block (.mortal length phase) = born ∧ death block (.mortal length phase) = died ∧
      born ≤ block ∧ block < died ∧ died = born + length ∧
      (∀ other, born ≤ other → other < died → birth other (.mortal length phase) = born ∧
        death other (.mortal length phase) = died) ∧
      birth died (.mortal length phase) = died := by
  obtain ⟨length, isLength⟩ : ∃ length, length = min (max (2 ^ Nat.clog 2 period) 4) 65536 :=
    ⟨_, rfl⟩
  obtain ⟨phase, isPhase⟩ : ∃ phase, phase = current % length / quantizeFactor length *
    quantizeFactor length := ⟨_, rfl⟩
  have valid : Valid length phase := by
    rw [isPhase, isLength]
    exact window_valid period current
  have made : newMortal period current = .mortal length phase := by
    rw [isPhase, isLength]
    exact newMortal_eq period current
  have passed : phase ≤ current := isPhase ▸ (Nat.div_mul_le_self _ _).trans (Nat.mod_le _ _)
  have positive : 0 < length := Nat.zero_lt_of_lt valid.below
  refine ⟨length, phase, isLength, isPhase, made, decode_encode valid rest, passed,
    by simp [birth], ?_⟩
  intro block later bounded
  obtain ⟨count, counted⟩ : ∃ count, count = (block - phase) / length := ⟨_, rfl⟩
  have least := Nat.div_mul_le_self (block - phase) length
  have most := Nat.lt_div_mul_add positive (a := block - phase)
  rw [← counted] at least most
  have alive : ∀ other, count * length + phase ≤ other → other < count * length + phase + length →
      birth other (.mortal length phase) = count * length + phase ∧
        death other (.mortal length phase) = count * length + phase + length := by
    intro other born alive
    rw [death, birth_eq born alive]
    exact ⟨rfl, Nat.mod_eq_of_lt (by omega)⟩
  obtain ⟨born, died⟩ := alive block (by omega) (by omega)
  refine ⟨_, _, born, died, by omega, by omega, rfl, alive, ?_⟩
  have next : count * length + phase + length = (count + 1) * length + phase := by
    rw [Nat.succ_mul]
    omega
  rw [next, birth_eq (Nat.le_refl ((count + 1) * length + phase)) (by omega)]

/-- A period of 20000 blocks is quantised to 32768, in steps of eight blocks. -/
theorem mortal_windows_long : newMortal 20000 100003 = .mortal 32768 1696 ∧
    birth 100003 (.mortal 32768 1696) = 100000 ∧ death 100003 (.mortal 32768 1696) = 132768 ∧
    (∀ other, 100000 ≤ other → other < 132768 → birth other (.mortal 32768 1696) = 100000 ∧
      death other (.mortal 32768 1696) = 132768) ∧
    birth 132768 (.mortal 32768 1696) = 132768 := by
  have length : min (max (2 ^ Nat.clog 2 20000) 4) 65536 = 32768 := by
    norm_num
  have phase : 100003 % 32768 / quantizeFactor 32768 * quantizeFactor 32768 = 1696 := by
    decide
  obtain ⟨_, _, rfl, rfl, windows⟩ := mortal_windows 20000 100003 []
  simp only [length, phase] at windows
  obtain ⟨made, -, -, -, all⟩ := windows
  obtain ⟨born, died, isBorn, dies, -, -, -, same, next⟩ := all 100003 (by decide) (by decide)
  have first : birth 100003 (.mortal 32768 1696) = 100000 := by decide
  have last : death 100003 (.mortal 32768 1696) = 132768 := by decide
  rw [← isBorn, ← dies, first, last] at same
  rw [← dies, last] at next
  exact ⟨made, first, last, same, next⟩

end Era

end Brace.Runtime
