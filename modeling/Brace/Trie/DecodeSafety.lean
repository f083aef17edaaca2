import Brace.Trie.NodeCodec

/-!
# Which byte strings make the decoder panic

`decode_plan` looks at the first byte of the partial key before it takes the key: when the number
of nibbles is odd, the left half of that byte must be zero. The look is an index into the data and
not a read of the input, so that it is out of bounds when the data ends with the header
(`decodesSafely_iff`). Every other read checks the length, and every range that is returned lies
in the data (`Sound`).
-/

namespace Brace.Trie

open Brace.Lib List ByteSliceInput NodeHeader

/-- A byte slice: its length is at most `isize::max_value()`. -/
structure ByteSlice where
  bytes : List UInt8
  /-- The length of a slice. -/
  fits : bytes.length < 2 ^ 63

/-- A range lies in data of a length. -/
def Range.Inside (length : Nat) (range : Range) : Prop :=
  range.start ≤ range.stop ∧ range.stop ≤ length

def NodeHandlePlan.range : NodeHandlePlan → Range
  | .hash range => range
  | .inline range => range

/-- Every range of a plan lies in data of a length. -/
def NodePlan.Inside (length : Nat) : NodePlan → Prop
  | .empty => True
  | .leaf nibbles value => nibbles.bytes.Inside length ∧ value.Inside length
  | .nibbledBranch nibbles value children =>
    nibbles.bytes.Inside length ∧ (∀ range ∈ value, range.Inside length) ∧
      ∀ child, some child ∈ children → child.range.Inside length

/-- Decoding returns a plan whose ranges lie in the data, or an error. -/
def DecodesSafely (trieDb : TrieDb) (hasher : Hasher) (compact : CompactCodec)
    (data : List UInt8) : Prop :=
  match decodePlan trieDb hasher compact data with
  | .ok plan => plan.Inside data.length
  | .error fault => ¬ fault.IsPanic

/-- The bytes of a header with an odd number of nibbles and nothing after it: one byte, or a full
first byte with a row of 255 and a last byte, or so many 255 that the size is cut to its bound. -/
def OddHeaderOnly (bytes : List UInt8) : Prop :=
  ∃ first rest, bytes = first :: rest ∧ 64 ≤ first.toNat ∧
    (first.toNat % 64 < 63 ∧ Odd (first.toNat % 64) ∧ rest = [] ∨
      first.toNat % 64 = 63 ∧
        ((∃ k ≤ 256, ∃ last : UInt8, last.toNat < 255 ∧ Odd (62 + 255 * k + last.toNat + 1) ∧
          rest = List.replicate k 255 ++ [last]) ∨
        rest = List.replicate 257 255))

/-! ## Calls that keep to the data -/

/-- A call on an input of the data returns an input of the data and a good value, or an error. -/
def Sound {Value : Type} (data : List UInt8) (good : Value → Prop)
    (call : Except Fault (Value × ByteSliceInput)) : Prop :=
  match call with
  | .ok (value, input) => input.data = data ∧ input.offset ≤ data.length ∧ good value
  | .error fault => ¬ fault.IsPanic

/-- An input stands in the data. -/
structure ByteSliceInput.Within (data : List UInt8) (input : ByteSliceInput) : Prop where
  same : input.data = data
  inside : input.offset ≤ data.length

namespace Sound

variable {Value Result : Type} {data : List UInt8} {good : Value → Prop} {fine : Result → Prop}

theorem pure {value : Value} {input : ByteSliceInput} (within : input.Within data)
    (holds : good value) : Sound data good (.ok (value, input)) :=
  ⟨within.same, within.inside, holds⟩

theorem bind {call : Except Fault (Value × ByteSliceInput)}
    {next : Value × ByteSliceInput → Except Fault (Result × ByteSliceInput)}
    (first : Sound data good call) (second : ∀ value input, input.Within data → good value →
      Sound data fine (next (value, input))) : Sound data fine (call >>= next) := by
  cases call with
  | error fault => exact first
  | ok result =>
    obtain ⟨value, input⟩ := result
    exact second value input ⟨first.1, first.2.1⟩ first.2.2

end Sound

variable {data : List UInt8} {input : ByteSliceInput} {trieDb : TrieDb} {hasher : Hasher}
  {compact : CompactCodec}

theorem not_isPanic_decode (what : String) : ¬ (Fault.decode what).IsPanic := by
  simp [Fault.IsPanic]

section

variable (fits : data.length < 2 ^ 63) (within : input.Within data)

include within

theorem sound_decodeCompact :
    Sound data (fun count => count < 2 ^ 32) (input.decodeCompact compact) := by
  unfold decodeCompact
  rw [within.same]
  cases read : compact.decode (data.drop input.offset) with
  | error what => exact not_isPanic_decode _
  | ok result =>
    obtain ⟨value, count⟩ := result
    have bounds := compact.decode_bounds _ _ _ read
    have mem := within.inside
    rw [length_drop] at bounds
    refine Sound.pure ⟨rfl, ?_⟩ bounds.1
    change input.offset + count ≤ data.length
    omega

include fits

theorem sound_take {count : Nat} (small : count < 2 ^ 32) :
    Sound data (fun range => range.Inside data.length) (input.take count) := by
  unfold ByteSliceInput.take
  have mem := within.inside
  have room : ¬ usizeMax < input.offset + count := by
    unfold usizeMax
    omega
  rw [if_neg room, within.same]
  split
  · exact not_isPanic_decode _
  · rename_i enough
    exact Sound.pure ⟨rfl, not_lt.mp enough⟩ ⟨Nat.le_add_right _ _, not_lt.mp enough⟩

theorem sound_readByte : Sound data (fun _ => True) input.readByte := by
  unfold readByte
  have mem := within.inside
  have room : ¬ usizeMax < input.offset + 1 := by
    unfold usizeMax
    omega
  rw [if_neg room, within.same]
  split
  · exact not_isPanic_decode _
  · rename_i enough
    have there : data[input.offset]? = some data[input.offset] := List.getElem?_eq_getElem _
    simp only [byteAt, there]
    exact Sound.pure ⟨rfl, not_lt.mp enough⟩ trivial

theorem sound_takeCounted :
    Sound data (fun result => result.2.Inside data.length) (takeCounted compact input) := by
  refine (sound_decodeCompact within).bind fun count input within small => ?_
  refine (sound_take fits within small).bind fun range input within ranged => ?_
  exact Sound.pure within ranged

theorem sound_decodeChildren (bitmap : Bitmap) (indices : List Nat) :
    Sound data (fun children => ∀ child, some child ∈ children → child.range.Inside data.length)
      (decodeChildren hasher compact bitmap indices input) := by
  induction indices generalizing input with
  | nil => exact Sound.pure within fun child mem => nomatch mem
  | cons i rest ih =>
    unfold decodeChildren
    split
    · refine (sound_takeCounted fits within).bind fun result input within ranged => ?_
      refine (ih within).bind fun children input within others => ?_
      refine Sound.pure within fun child mem => ?_
      rcases mem_cons.mp mem with first | later
      · obtain rfl := Option.some.inj first
        split <;> exact ranged
      · exact others child later
    · refine (ih within).bind fun children input within others => ?_
      refine Sound.pure within fun child mem => others child ?_
      simpa using mem

theorem sound_decodePartial {nibbleCount : Nat} (small : nibbleCount < 2 ^ 32)
    (there : Odd nibbleCount → input.offset < data.length) :
    Sound data (fun plan => plan.bytes.Inside data.length)
      (decodePartial trieDb nibbleCount input) := by
  have taken : Sound data (fun plan : NibbleSlicePlan => plan.bytes.Inside data.length)
      (input.take ((nibbleCount + (nibblePerByte - 1)) / nibblePerByte) >>= fun taken =>
        pure (⟨taken.1, trieDb.numberPadding nibbleCount⟩, taken.2)) := by
    have half : (nibbleCount + (nibblePerByte - 1)) / nibblePerByte < 2 ^ 32 := by
      unfold nibblePerByte
      omega
    refine (sound_take fits within half).bind fun range input within ranged => ?_
    exact Sound.pure within ranged
  unfold decodePartial checkPadding
  split
  · rename_i padding
    have odd : Odd nibbleCount := Nat.odd_iff.mpr (by unfold nibblePerByte at padding; omega)
    have found : data[input.offset]? = some (data.get ⟨input.offset, there odd⟩) :=
      List.getElem?_eq_getElem _
    simp only [byteAt, within.same, found, ok_bind]
    split
    · exact fun panic => by simp [Fault.IsPanic] at panic
    · exact taken
  · exact taken

end

theorem decodePartial_at_end {nibbleCount : Nat} (odd : Odd nibbleCount)
    (ended : input.data.length ≤ input.offset) :
    decodePartial trieDb nibbleCount input = .error .outOfBounds := by
  have padding : nibbleCount % nibblePerByte ≠ 0 := by
    rw [Nat.odd_iff] at odd
    unfold nibblePerByte
    omega
  have missing : input.data[input.offset]? = none := List.getElem?_eq_none ended
  unfold decodePartial checkPadding
  simp only [padding, ne_eq, not_false_eq_true, if_true, byteAt, missing, error_bind]

/-! ## The header -/

/-- The number of nibbles that a header announces. -/
def NodeHeader.nibbleCount : NodeHeader → Nat
  | .null => 0
  | .branch _ nibbleCount => nibbleCount
  | .leaf nibbleCount => nibbleCount

/-- The input between two parts of its data. -/
def ByteSliceInput.cursor (before rest : List UInt8) : ByteSliceInput :=
  ⟨before ++ rest, before.length⟩

variable {before rest : List UInt8} {byte : UInt8} {start : ByteSliceInput}

theorem readByte_cursor (fits : (before ++ byte :: rest).length < 2 ^ 63) :
    (cursor before (byte :: rest)).readByte =
      .ok (byte, .cursor (before ++ [byte]) rest) := by
  have room : ¬ usizeMax < before.length + 1 := by
    rw [length_append, length_cons] at fits
    unfold usizeMax
    omega
  have enough : ¬ (before ++ byte :: rest).length < before.length + 1 := by simp
  have found : (before ++ byte :: rest)[before.length]? = some byte := by simp
  unfold readByte cursor
  rw [if_neg room, if_neg enough]
  simp only [byteAt, found, ok_bind, pure, Except.pure, append_assoc, singleton_append,
    length_append, length_singleton]

theorem readByte_end (fits : before.length < 2 ^ 63) :
    (cursor before []).readByte = .error (.decode "out of data") := by
  have room : ¬ usizeMax < before.length + 1 := by
    unfold usizeMax
    omega
  simp [readByte, cursor, room]

theorem sound_decodeSizeLoop (fits : data.length < 2 ^ 63) (within : input.Within data)
    (result : Nat) : Sound data (fun size => size < 2 ^ 32) (decodeSizeLoop result input) := by
  induction measure : nibbleSizeBound + 1 - result using Nat.strong_induction_on
    generalizing result input with
  | _ bound ih =>
    unfold decodeSizeLoop
    split
    · rename_i small
      refine (sound_readByte fits within).bind fun n input within _ => ?_
      unfold nibbleSizeBound at small measure
      dsimp only
      split
      · have low := n.toNat_lt
        exact Sound.pure within (by omega)
      · exact ih _ (by unfold nibbleSizeBound; omega) within _ rfl
    · exact Sound.pure within (by unfold nibbleSizeBound; omega)

/-- The rest of the data after which the size loop ends with an odd size and at its end. -/
def EndsOdd (result : Nat) (rest : List UInt8) : Prop :=
  (∃ k, result + 255 * k ≤ nibbleSizeBound ∧ ∃ last : UInt8, last.toNat < 255 ∧
    Odd (result + 255 * k + last.toNat + 1) ∧ rest = List.replicate k 255 ++ [last]) ∨
  ∃ k, nibbleSizeBound < result + 255 * k ∧ result + 255 * k ≤ nibbleSizeBound + 255 ∧
    rest = List.replicate k 255

/-- A size is odd and is all of the data. -/
def OddAtEnd (data : List UInt8) (call : Except Fault (Nat × ByteSliceInput)) : Prop :=
  ∃ size input, call = .ok (size, input) ∧ Odd size ∧ data.length ≤ input.offset

theorem decodeSizeLoop_oddAtEnd_iff {result : Nat}
    (fits : (before ++ rest).length < 2 ^ 63) (small : result ≤ nibbleSizeBound + 255) :
    OddAtEnd (before ++ rest) (decodeSizeLoop result (.cursor before rest)) ↔
      EndsOdd result rest := by
  induction rest generalizing before result with
  | nil =>
    unfold decodeSizeLoop
    split
    · rename_i low
      rw [readByte_end (by simpa using fits), error_bind]
      constructor
      · rintro ⟨_, _, ran, _⟩
        cases ran
      · rintro (⟨k, _, last, _, _, empty⟩ | ⟨k, above, _, empty⟩)
        · simp at empty
        · obtain rfl : k = 0 := by simpa using empty.symm
          omega
    · rename_i above
      refine iff_of_true ⟨_, _, rfl, by decide, ?_⟩ (.inr ⟨0, ?_, ?_, rfl⟩)
      · simp [cursor]
      · omega
      · omega
  | cons n tail ih =>
    unfold decodeSizeLoop
    split
    · rename_i low
      rw [readByte_cursor fits, ok_bind]
      dsimp only
      split
      · rename_i last
        have lastNat : n.toNat < 255 := last
        constructor
        · rintro ⟨size, input, ran, odd, ended⟩
          cases ran
          obtain rfl : tail = [] := by simpa [cursor] using ended
          exact .inl ⟨0, low, n, lastNat, odd, rfl⟩
        · rintro (⟨k, _, other, _, odd, same⟩ | ⟨k, above, _, same⟩)
          · cases k with
            | zero =>
              obtain ⟨rfl, rfl⟩ : n = other ∧ tail = [] := by simpa using same
              exact ⟨_, _, rfl, odd, by simp [cursor]⟩
            | succ k =>
              have full : n = 255 := (List.cons.inj same).1
              simp [full] at lastNat
          · cases k with
            | zero => omega
            | succ k =>
              have full : n = 255 := (List.cons.inj same).1
              simp [full] at lastNat
      · rename_i notLast
        have full : n = 255 := by
          have high : ¬ n.toNat < 255 := notLast
          have low := n.toNat_lt
          exact UInt8.toNat_inj.mp (show n.toNat = 255 by omega)
        subst full
        have split : before ++ 255 :: tail = before ++ [255] ++ tail := by simp
        rw [split, ih (by rwa [← split]) (by omega)]
        constructor
        · rintro (⟨k, bounded, other, lastNat, odd, rfl⟩ | ⟨k, above, under, rfl⟩)
          · refine .inl ⟨k + 1, by omega, other, lastNat, ?_, rfl⟩
            rwa [show result + 255 * (k + 1) = result + 255 + 255 * k by ring]
          · exact .inr ⟨k + 1, by omega, by omega, rfl⟩
        · rintro (⟨k, bounded, other, lastNat, odd, same⟩ | ⟨k, above, under, same⟩)
          · cases k with
            | zero =>
              obtain ⟨rfl, -⟩ : 255 = other ∧ tail = [] := by simpa using same
              simp at lastNat
            | succ k =>
              refine .inl ⟨k, by omega, other, lastNat, ?_, (List.cons.inj same).2⟩
              rwa [show result + 255 + 255 * k = result + 255 * (k + 1) by ring]
          · cases k with
            | zero => cases same
            | succ k => exact .inr ⟨k, by omega, by omega, (List.cons.inj same).2⟩
    · rename_i above
      constructor
      · rintro ⟨size, input, ran, odd, ended⟩
        cases ran
        simp [cursor] at ended
      · rintro (⟨k, bounded, _⟩ | ⟨k, _, under, same⟩)
        · omega
        · obtain rfl : k = 0 := by omega
          cases same

theorem toNat_and_low (byte : UInt8) :
    (byte &&& ((255 : UInt8) >>> 2)).toNat = byte.toNat % 64 := by
  rw [UInt8.toNat_and]
  exact Nat.and_two_pow_sub_one_eq_mod _ 6

theorem kind_cases (byte : UInt8) :
    byte.toNat < 64 ∧ byte &&& 0b11000000 = 0 ∨
      64 ≤ byte.toNat ∧ byte ≠ emptyTrie ∧ (byte &&& 0b11000000 = leafPrefixMask ∨
        byte &&& 0b11000000 = branchWithoutMask ∨ byte &&& 0b11000000 = branchWithMask) := by
  obtain ⟨⟨byte⟩⟩ := byte
  revert byte
  decide +kernel

def NodeKind.mask : NodeKind → UInt8
  | .leaf => leafPrefixMask
  | .branchNoValue => branchWithoutMask
  | .branchWithValue => branchWithMask

theorem NodeKind.nibbleCount_header (kind : NodeKind) (size : Nat) :
    (kind.header size).nibbleCount = size := by
  cases kind <;> rfl

theorem decode_header_masked (kind : NodeKind) (nonzero : byte ≠ emptyTrie)
    (masked : byte &&& 0b11000000 = kind.mask) {input : ByteSliceInput}
    (read : start.readByte = .ok (byte, input)) :
    decode start = (do
      let (size, input) ← decodeSize byte input
      return (kind.header size, input)) := by
  have differ : leafPrefixMask ≠ branchWithoutMask ∧ leafPrefixMask ≠ branchWithMask ∧
      branchWithoutMask ≠ branchWithMask := by decide
  unfold decode
  rw [read, ok_bind]
  simp only [if_neg nonzero, masked]
  cases kind with
  | leaf => simp only [NodeKind.mask, if_true, NodeKind.header]
  | branchNoValue => simp only [NodeKind.mask, if_true, if_neg differ.1.symm, NodeKind.header]
  | branchWithValue =>
    simp only [NodeKind.mask, if_true, if_neg differ.2.1.symm, if_neg differ.2.2.symm,
      NodeKind.header]

theorem decode_header_cases (high : 64 ≤ byte.toNat) :
    byte ≠ emptyTrie ∧ ∃ kind : NodeKind, byte &&& 0b11000000 = kind.mask := by
  rcases kind_cases byte with ⟨low, _⟩ | ⟨_, nonzero, leaf | without | withValue⟩
  · omega
  · exact ⟨nonzero, .leaf, leaf⟩
  · exact ⟨nonzero, .branchNoValue, without⟩
  · exact ⟨nonzero, .branchWithValue, withValue⟩

theorem decode_header_low (low : byte.toNat < 64) {input : ByteSliceInput}
    (read : start.readByte = .ok (byte, input)) :
    decode start = .ok (.null, input) ∨
      decode start = .error (.decode "Unallowed encoding") := by
  rcases kind_cases byte with ⟨_, kind⟩ | ⟨high, _⟩
  · have differ : (0 : UInt8) ≠ leafPrefixMask ∧ (0 : UInt8) ≠ branchWithoutMask ∧
        (0 : UInt8) ≠ branchWithMask := by decide
    by_cases empty : byte = emptyTrie
    · left
      simp only [decode, read, ok_bind, if_pos empty, pure, Except.pure]
    · right
      simp only [decode, read, ok_bind, if_neg empty, kind, if_neg differ.1,
        if_neg differ.2.1, if_neg differ.2.2]
  · omega

theorem sound_decode_header (fits : data.length < 2 ^ 63) :
    Sound data (fun header : NodeHeader => header.nibbleCount < 2 ^ 32)
      (decode ⟨data, 0⟩) := by
  have read := @sound_readByte data ⟨data, 0⟩ fits ⟨rfl, Nat.zero_le _⟩
  cases first : readByte ⟨data, 0⟩ with
  | error fault =>
    rw [first] at read
    simp only [decode, first, error_bind]
    exact read
  | ok result =>
    obtain ⟨byte, input⟩ := result
    rw [first] at read
    have within : input.Within data := ⟨read.1, read.2.1⟩
    by_cases high : 64 ≤ byte.toNat
    · obtain ⟨nonzero, kind, masked⟩ := decode_header_cases high
      rw [decode_header_masked kind nonzero masked first]
      have sized : Sound data (fun size => size < 2 ^ 32) (decodeSize byte input) := by
        unfold decodeSize
        dsimp only
        split
        · exact Sound.pure within (by omega)
        · exact sound_decodeSizeLoop fits within _
      refine sized.bind fun size input within small => ?_
      exact Sound.pure within (by rwa [kind.nibbleCount_header])
    · rcases decode_header_low (not_le.mp high) first with null | refused
      · rw [null]
        exact Sound.pure within (by decide)
      · rw [refused]
        exact not_isPanic_decode _

/-! ## The whole decoder -/

section

variable (fits : data.length < 2 ^ 63) (within : input.Within data)

include fits within

theorem sound_decodeValue (hasValue : Bool) :
    Sound data (fun value => ∀ range ∈ value, range.Inside data.length)
      (decodeValue compact hasValue input) := by
  unfold decodeValue
  split
  · refine (sound_takeCounted fits within).bind fun result input within ranged => ?_
    refine Sound.pure within fun range found => ?_
    obtain rfl := Option.some.inj found
    exact ranged
  · exact Sound.pure within fun range found => nomatch found

theorem sound_decodeNode {header : NodeHeader} (small : header.nibbleCount < 2 ^ 32)
    (there : Odd header.nibbleCount → input.offset < data.length) :
    Sound data (fun plan => plan.Inside data.length)
      (decodeNode trieDb hasher compact input header) := by
  cases header with
  | null => exact Sound.pure within trivial
  | branch hasValue nibbleCount =>
    unfold decodeNode
    refine (sound_decodePartial fits within small there).bind
      fun nibbles input within key => ?_
    refine (sound_take fits within (by decide)).bind fun range input within ranged => ?_
    have sliced : range.slice input.data = .ok (range.read data) := by
      unfold Range.slice
      rw [within.same]
      exact if_pos ranged
    simp only [sliced, ok_bind]
    cases bits : Bitmap.decode (range.read data) with
    | error fault =>
      unfold Bitmap.decode at bits
      split at bits
      · cases bits
      · cases bits
        exact not_isPanic_decode _
    | ok bitmap =>
      simp only [ok_bind]
      refine (sound_decodeValue fits within hasValue).bind fun value input within valued => ?_
      refine (sound_decodeChildren fits within bitmap _).bind
        fun children input within others => ?_
      exact Sound.pure within ⟨key, valued, others⟩
  | leaf nibbleCount =>
    unfold decodeNode
    refine (sound_decodePartial fits within small there).bind
      fun nibbles input within key => ?_
    refine (sound_takeCounted fits within).bind fun result input within ranged => ?_
    exact Sound.pure within ⟨key, ranged⟩

end

theorem decodeNode_at_end {header : NodeHeader} (odd : Odd header.nibbleCount)
    (ended : input.data.length ≤ input.offset) :
    decodeNode trieDb hasher compact input header = .error .outOfBounds := by
  cases header with
  | null => cases odd with | intro half even => simp [nibbleCount] at even
  | branch _ nibbleCount | leaf nibbleCount =>
    have failed := @decodePartial_at_end input trieDb nibbleCount odd ended
    simp only [decodeNode, failed, error_bind]

theorem decodesSafely_iff_header (fits : data.length < 2 ^ 63) :
    DecodesSafely trieDb hasher compact data ↔ ¬ ∃ header input,
      decode ⟨data, 0⟩ = .ok (header, input) ∧ Odd header.nibbleCount ∧
        data.length ≤ input.offset := by
  have sound := sound_decode_header fits
  unfold DecodesSafely decodePlan decodePlanInput
  cases decoded : decode ⟨data, 0⟩ with
  | error fault =>
    rw [decoded] at sound
    rw [error_bind]
    refine iff_of_true sound ?_
    rintro ⟨_, _, ⟨⟩, _⟩
  | ok result =>
    obtain ⟨header, input⟩ := result
    rw [decoded] at sound
    obtain ⟨same, mem, small⟩ := sound
    simp only [ok_bind]
    by_cases bad : Odd header.nibbleCount ∧ data.length ≤ input.offset
    · rw [decodeNode_at_end bad.1 (by rw [same]; exact bad.2)]
      refine iff_of_false (fun safe => safe (.inl rfl)) (not_not.mpr ?_)
      exact ⟨header, input, rfl, bad⟩
    · have kept := @sound_decodeNode data input trieDb hasher compact fits ⟨same, mem⟩ header
        small fun odd => not_le.mp fun ended => bad ⟨odd, ended⟩
      refine iff_of_true ?_ ?_
      · cases planned : decodeNode trieDb hasher compact input header with
        | error fault =>
          rw [planned] at kept
          exact kept
        | ok result =>
          rw [planned] at kept
          exact kept.2.2
      · rintro ⟨_, _, ⟨⟩, found⟩
        exact bad found

theorem endsOdd_full_iff (rest : List UInt8) :
    EndsOdd 62 rest ↔
      (∃ k ≤ 256, ∃ last : UInt8, last.toNat < 255 ∧ Odd (62 + 255 * k + last.toNat + 1) ∧
        rest = List.replicate k 255 ++ [last]) ∨ rest = List.replicate 257 255 := by
  unfold EndsOdd nibbleSizeBound
  refine or_congr (exists_congr fun k => and_congr_left fun _ => ?_) ?_
  · omega
  · constructor
    · rintro ⟨k, above, under, same⟩
      obtain rfl : k = 257 := by omega
      exact same
    · exact fun same => ⟨257, by omega, by omega, same⟩

theorem decodeSize_oddAtEnd_iff {first : UInt8} (fits : (first :: rest).length < 2 ^ 63) :
    OddAtEnd (first :: rest) (decodeSize first (.cursor [first] rest)) ↔
      first.toNat % 64 < 63 ∧ Odd (first.toNat % 64) ∧ rest = [] ∨
        first.toNat % 64 = 63 ∧ EndsOdd 62 rest := by
  unfold decodeSize
  simp only [toNat_and_low]
  split
  · rename_i small
    constructor
    · rintro ⟨size, input, ⟨⟩, odd, ended⟩
      have empty : rest = [] := by simpa [cursor] using ended
      exact .inl ⟨small, odd, empty⟩
    · rintro (⟨_, odd, rfl⟩ | ⟨full, _⟩)
      · exact ⟨_, _, rfl, odd, by simp [cursor]⟩
      · omega
  · rename_i large
    obtain full : first.toNat % 64 = 63 := by omega
    have loop := @decodeSizeLoop_oddAtEnd_iff [first] rest 62 fits (by decide)
    rw [full]
    constructor
    · exact fun ended => .inr ⟨rfl, loop.mp ended⟩
    · rintro (⟨small, _⟩ | ⟨_, ended⟩)
      · omega
      · exact loop.mpr ended

theorem oddHeaderOnly_iff (fits : data.length < 2 ^ 63) :
    OddHeaderOnly data ↔ ∃ header input, decode ⟨data, 0⟩ = .ok (header, input) ∧
      Odd header.nibbleCount ∧ data.length ≤ input.offset := by
  cases data with
  | nil =>
    refine iff_of_false (fun ⟨_, _, same, _⟩ => nomatch same) ?_
    rintro ⟨header, input, decoded, _⟩
    have ended := @readByte_end [] (by decide)
    unfold decode at decoded
    rw [show (⟨[], 0⟩ : ByteSliceInput) = .cursor [] [] from rfl, ended, error_bind] at decoded
    cases decoded
  | cons first rest =>
    have read : readByte ⟨first :: rest, 0⟩ = .ok (first, .cursor [first] rest) :=
      @readByte_cursor [] rest first fits
    by_cases high : 64 ≤ first.toNat
    · obtain ⟨nonzero, kind, masked⟩ := decode_header_cases high
      have whole : OddHeaderOnly (first :: rest) ↔
          OddAtEnd (first :: rest) (decodeSize first (.cursor [first] rest)) := by
        rw [decodeSize_oddAtEnd_iff fits, endsOdd_full_iff]
        constructor
        · rintro ⟨_, _, ⟨⟩, _, form⟩
          exact form
        · exact fun form => ⟨first, rest, rfl, high, form⟩
      rw [whole, decode_header_masked kind nonzero masked read]
      simp only [bind_eq_ok, pure, Except.pure, Except.ok.injEq, Prod.mk.injEq, Prod.exists]
      constructor
      · rintro ⟨size, input, sized, odd, ended⟩
        exact ⟨_, input, ⟨size, input, sized, rfl, rfl⟩, by rwa [kind.nibbleCount_header], ended⟩
      · rintro ⟨_, _, ⟨size, input, sized, rfl, rfl⟩, odd, ended⟩
        exact ⟨size, input, sized, by rwa [kind.nibbleCount_header] at odd, ended⟩
    · refine iff_of_false (fun ⟨_, _, same, large, _⟩ => ?_) ?_
      · obtain ⟨rfl, -⟩ := List.cons.inj same
        exact high large
      · rintro ⟨header, input, decoded, odd, _⟩
        rcases decode_header_low (not_le.mp high) read with null | refused
        · rw [null] at decoded
          cases decoded
          exact absurd odd (by decide)
        · rw [refused] at decoded
          cases decoded

/-- **Which byte strings decode safely**: all but the odd headers with nothing after them. -/
theorem decodesSafely_iff (trieDb : TrieDb) (hasher : Hasher) (compact : CompactCodec)
    (data : ByteSlice) :
    DecodesSafely trieDb hasher compact data.bytes ↔ ¬ OddHeaderOnly data.bytes := by
  rw [decodesSafely_iff_header data.fits, oddHeaderOnly_iff data.fits]

/-- A hash function of 32 bytes. -/
def zeroHasher : Hasher where
  length := 32
  hash _ := List.replicate 32 0
  hash_length _ := List.length_replicate

/-- **A panic.** The one byte of a leaf with one nibble is out of bounds. -/
theorem decodePlan_truncated_leaf :
    decodePlan .packed zeroHasher .scale [0x41] = .error .outOfBounds ∧
      ¬ DecodesSafely .packed zeroHasher .scale [0x41] := by
  have decoded : decode ⟨[0x41], 0⟩ = .ok (.leaf 1, ⟨[0x41], 1⟩) := by decide +kernel
  have panics := @decodeNode_at_end ⟨[0x41], 1⟩ .packed zeroHasher .scale (.leaf 1) (by decide)
    (by decide)
  have result : decodePlan .packed zeroHasher .scale [0x41] = .error .outOfBounds := by
    simp only [decodePlan, decodePlanInput, decoded, ok_bind, panics, Functor.map, Except.map]
  refine ⟨result, ?_⟩
  unfold DecodesSafely
  rw [result]
  exact fun safe => safe (.inl rfl)

end Brace.Trie
