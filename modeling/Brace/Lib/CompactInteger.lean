import Mathlib

/-!
# Compact integers

A compact coding writes a 32-bit natural in a few bytes and reads it back from the front of a byte
string, whatever follows. `CompactCodec` is such a coding with its laws, for programs that take
theirs from a codec library. `CompactCodec.scale` is the coding with a two-bit mode in the first
byte: one byte, two, four, or a marker byte and four.
-/

namespace Brace.Lib

open List

/-- A coding of 32-bit naturals as bytes. -/
structure CompactCodec where
  encode : Nat → List UInt8
  /-- Read a natural from the front; also the number of bytes read, or a message. -/
  decode : List UInt8 → Except String (Nat × Nat)
  /-- Reading an encoding, whatever follows, returns the natural and the encoding's length. -/
  decode_encode : ∀ value < 2 ^ 32, ∀ suffix,
    decode (encode value ++ suffix) = .ok (value, (encode value).length)
  /-- Every natural read is a 32-bit one, and no more bytes are read than there are. -/
  decode_bounds : ∀ bytes value count, decode bytes = .ok (value, count) →
    value < 2 ^ 32 ∧ count ≤ bytes.length
  /-- An encoding has at most five bytes. -/
  encode_length : ∀ value < 2 ^ 32, (encode value).length ≤ 5

namespace CompactCodec

/-- The `count` lowest bytes of a natural, the lowest first. -/
def lowBytes : Nat → Nat → List UInt8
  | 0, _ => []
  | count + 1, value => UInt8.ofNat value :: lowBytes count (value / 256)

/-- The natural of some bytes, the lowest first. -/
def ofBytes : List UInt8 → Nat
  | [] => 0
  | byte :: rest => byte.toNat + 256 * ofBytes rest

theorem ofBytes_lowBytes (count value : Nat) :
    ofBytes (lowBytes count value) = value % 256 ^ count := by
  induction count generalizing value with
  | zero => simp [lowBytes, ofBytes, Nat.mod_one]
  | succ count ih =>
    have power : 256 ^ (count + 1) = 256 * 256 ^ count := Nat.pow_succ'
    have split : value % (256 * 256 ^ count) =
        value % 256 + 256 * (value / 256 % 256 ^ count) := Nat.mod_mul
    rw [lowBytes, ofBytes, ih, UInt8.toNat_ofNat', power, split]

@[simp] theorem length_lowBytes (count value : Nat) : (lowBytes count value).length = count := by
  induction count generalizing value with
  | zero => rfl
  | succ count ih => simp [lowBytes, ih]

theorem ofBytes_lt (bytes : List UInt8) : ofBytes bytes < 256 ^ bytes.length := by
  induction bytes with
  | nil => simp [ofBytes]
  | cons byte rest ih =>
    have low := byte.toNat_lt
    rw [ofBytes, length_cons, Nat.pow_succ']
    omega

/-- Read `count` bytes as a natural. -/
def readBytes (count : Nat) (bytes : List UInt8) : Except String Nat :=
  if bytes.length < count then .error "Not enough data to fill buffer"
  else .ok (ofBytes (bytes.take count))

variable {count value : Nat} {bytes : List UInt8}

theorem readBytes_lowBytes (fits : value < 256 ^ count)
    (suffix : List UInt8) : readBytes count (lowBytes count value ++ suffix) = .ok value := by
  have enough : ¬ (lowBytes count value ++ suffix).length < count := by simp
  have front : (lowBytes count value ++ suffix).take count = lowBytes count value := by
    simp
  rw [readBytes, if_neg enough, front, ofBytes_lowBytes, Nat.mod_eq_of_lt fits]

theorem readBytes_bounds
    (read : readBytes count bytes = .ok value) : value < 256 ^ count ∧ count ≤ bytes.length := by
  unfold readBytes at read
  split at read
  · cases read
  · rename_i enough
    cases read
    have low := ofBytes_lt (bytes.take count)
    rw [length_take_of_le (not_lt.mp enough)] at low
    exact ⟨low, not_lt.mp enough⟩

/-- The bytes of a natural: the mode is in the two lowest bits of the first byte. -/
def scaleEncode (value : Nat) : List UInt8 :=
  if value < 2 ^ 6 then lowBytes 1 (4 * value)
  else if value < 2 ^ 14 then lowBytes 2 (4 * value + 1)
  else if value < 2 ^ 30 then lowBytes 4 (4 * value + 2)
  else 3 :: lowBytes 4 value

/-- Read a natural in the mode of the first byte. -/
def scaleDecode (bytes : List UInt8) : Except String (Nat × Nat) :=
  match bytes with
  | [] => .error "Not enough data to fill buffer"
  | first :: rest =>
    if first.toNat % 4 = 0 then .ok (first.toNat / 4, 1)
    else if first.toNat % 4 = 1 then
      (readBytes 2 bytes).map fun word => (word / 4, 2)
    else if first.toNat % 4 = 2 then
      (readBytes 4 bytes).map fun word => (word / 4, 4)
    else if first.toNat / 4 = 0 then
      (readBytes 4 rest).map fun word => (word, 5)
    else .error "out of range decoding Compact"

theorem head_mode (value mode : Nat) (small : mode < 4) :
    (UInt8.ofNat (4 * value + mode)).toNat % 4 = mode := by
  rw [UInt8.toNat_ofNat']
  omega

theorem scaleDecode_scaleEncode (fits : value < 2 ^ 32) (suffix : List UInt8) :
    scaleDecode (scaleEncode value ++ suffix) = .ok (value, (scaleEncode value).length) := by
  unfold scaleEncode
  split
  · have mode : (UInt8.ofNat (4 * value)).toNat % 4 = 0 := head_mode value 0 (by decide)
    have whole : (UInt8.ofNat (4 * value)).toNat = 4 * value := by
      rw [UInt8.toNat_ofNat']
      omega
    rw [lowBytes, cons_append, scaleDecode, if_pos mode, whole]
    simp [lowBytes]
  · split
    · have mode := head_mode value 1 (by decide)
      have read := @readBytes_lowBytes 2 (4 * value + 1) (by omega) suffix
      rw [lowBytes, cons_append] at read ⊢
      rw [scaleDecode, if_neg (by omega), if_pos mode, read]
      simp only [Except.map, length_cons, length_lowBytes]
      congr 2
      omega
    · split
      · have mode := head_mode value 2 (by decide)
        have read := @readBytes_lowBytes 4 (4 * value + 2) (by omega) suffix
        rw [lowBytes, cons_append] at read ⊢
        rw [scaleDecode, if_neg (by omega), if_neg (by omega), if_pos mode, read]
        simp only [Except.map, length_cons, length_lowBytes]
        congr 2
        omega
      · have read := @readBytes_lowBytes 4 value (by omega) suffix
        rw [cons_append, scaleDecode, if_neg (by decide), if_neg (by decide),
          if_neg (by decide), if_pos (by decide), read]
        simp [Except.map]

theorem scaleDecode_bounds
    (read : scaleDecode bytes = .ok (value, count)) : value < 2 ^ 32 ∧ count ≤ bytes.length := by
  have mapped {size : Nat} {data : List UInt8} {next : Nat → Nat × Nat}
      (ran : (readBytes size data).map next = .ok (value, count)) :
      ∃ word, word < 256 ^ size ∧ size ≤ data.length ∧ next word = (value, count) := by
    cases word : readBytes size data with
    | error message => simp [word, Except.map] at ran
    | ok word' =>
      simp only [word, Except.map, Except.ok.injEq] at ran
      obtain ⟨low, enough⟩ := readBytes_bounds word
      exact ⟨word', low, enough, ran⟩
  unfold scaleDecode at read
  split at read
  · cases read
  · rename_i first rest
    have low := first.toNat_lt
    split at read
    · cases read
      simp only [length_cons]
      omega
    · split at read
      · obtain ⟨word, small, enough, same⟩ := @mapped 2 _ _ read
        cases same
        omega
      · split at read
        · obtain ⟨word, small, enough, same⟩ := @mapped 4 _ _ read
          cases same
          omega
        · split at read
          · obtain ⟨word, small, enough, same⟩ := @mapped 4 _ _ read
            cases same
            simp only [length_cons]
            omega
          · cases read

/-- The coding with a two-bit mode. -/
def scale : CompactCodec where
  encode := scaleEncode
  decode := scaleDecode
  decode_encode _ fits suffix := scaleDecode_scaleEncode fits suffix
  decode_bounds _ _ _ read := scaleDecode_bounds read
  encode_length value fits := by
    unfold scaleEncode
    split
    · simp
    · split
      · simp
      · split <;> simp

end CompactCodec

end Brace.Lib
