import Brace.Trie.DecodeSafety

/-!
# Encoded nodes are read back

Every part of a node is read back where it was written: the cursor moves over the header, the
partial key, the bitmap, the value and the children, and the plan that results reads the node
again (`node_roundTrip`). The header covers sizes of every form, up to the bound.
-/

namespace Brace.Trie

open Brace.Lib List Option Nat ByteSliceInput

variable {before rest chunk : List UInt8} {trieDb : TrieDb} {hasher : Hasher}
  {compact : CompactCodec}
  {nibbles : List Nibble} {children : List (Option ChildReference)} {value : Option (List UInt8)}

/-! ## Ranges -/

theorem take_cursor (fits : (before ++ (chunk ++ rest)).length < 2 ^ 63) :
    (cursor before (chunk ++ rest)).take chunk.length =
      .ok (⟨before.length, before.length + chunk.length⟩, .cursor (before ++ chunk) rest) := by
  have room : ¬ usizeMax < before.length + chunk.length := by
    simp only [length_append] at fits
    unfold usizeMax
    omega
  have enough : ¬ (before ++ (chunk ++ rest)).length < before.length + chunk.length := by
    simp only [length_append]
    omega
  unfold ByteSliceInput.take ByteSliceInput.cursor
  rw [if_neg room, if_neg enough, append_assoc, length_append]

theorem read_chunk (before chunk rest : List UInt8) :
    (⟨before.length, before.length + chunk.length⟩ : Range).read (before ++ (chunk ++ rest)) =
      chunk := by
  unfold Range.read
  rw [take_length_add_append, take_left', drop_left]
  rfl

theorem slice_chunk (before chunk rest : List UInt8) :
    (⟨before.length, before.length + chunk.length⟩ : Range).slice (before ++ (chunk ++ rest)) =
      .ok chunk := by
  unfold Range.slice
  rw [if_pos, read_chunk]
  simp only [length_append]
  omega

theorem decodeCompact_cursor {count : Nat} (small : count < 2 ^ 32) :
    (cursor before (compact.encode count ++ rest)).decodeCompact compact =
      .ok (count, .cursor (before ++ compact.encode count) rest) := by
  unfold decodeCompact cursor
  rw [drop_left, compact.decode_encode _ small]
  simp [append_assoc]

theorem takeCounted_cursor (small : chunk.length < 2 ^ 32)
    (fits : (before ++ (encodeBytes compact chunk ++ rest)).length < 2 ^ 63) :
    ∃ range : Range, takeCounted compact (.cursor before (encodeBytes compact chunk ++ rest)) =
        .ok ((chunk.length, range), .cursor (before ++ encodeBytes compact chunk) rest) ∧
      range.read (before ++ (encodeBytes compact chunk ++ rest)) = chunk := by
  have split : before ++ (encodeBytes compact chunk ++ rest) =
      before ++ compact.encode chunk.length ++ (chunk ++ rest) := by
    simp [encodeBytes, append_assoc]
  refine ⟨⟨(before ++ compact.encode chunk.length).length,
    (before ++ compact.encode chunk.length).length + chunk.length⟩, ?_, ?_⟩
  · unfold takeCounted
    rw [encodeBytes, append_assoc, decodeCompact_cursor small, ok_bind]
    simp only
    rw [take_cursor (by rwa [← split]), ok_bind]
    simp [pure, Except.pure, append_assoc]
  · rw [split, read_chunk]

/-! ## The header -/

section

variable (kind : NodeKind)

theorem encode_header (size : Nat) :
    (kind.header size).encode = sizeAndPrefixIterator size kind.mask := by
  cases kind <;> rfl

theorem mask_add {low : Nat} (small : low < 64) :
    (kind.mask + UInt8.ofNat low).toNat % 64 = low ∧
      (kind.mask + UInt8.ofNat low) &&& 0b11000000 = kind.mask ∧
      kind.mask + UInt8.ofNat low ≠ emptyTrie := by
  have all : ∀ i : Fin 64, (kind.mask + UInt8.ofNat i.val).toNat % 64 = i.val ∧
      (kind.mask + UInt8.ofNat i.val) &&& 0b11000000 = kind.mask ∧
      kind.mask + UInt8.ofNat i.val ≠ emptyTrie := by
    cases kind <;> decide +kernel
  exact all ⟨low, small⟩

theorem decodeSizeLoop_nextBytes {result rem : Nat} (pos : 0 < rem)
    (bounded : result + rem ≤ nibbleSizeBound)
    (fits : (before ++ (nextBytes rem ++ rest)).length < 2 ^ 63) :
    decodeSizeLoop result (.cursor before (nextBytes rem ++ rest)) =
      .ok (result + rem, .cursor (before ++ nextBytes rem) rest) := by
  -- the induction follows the iterator: 255 is taken off until the last byte
  induction rem using Nat.strong_induction_on generalizing before result with
  | _ rem ih =>
    unfold nextBytes at fits ⊢
    rw [if_neg (pos_iff_ne_zero.mp pos)] at fits ⊢
    unfold decodeSizeLoop
    rw [if_pos (by omega)]
    split at fits
    · rename_i last
      have value : (UInt8.ofNat (rem - 1)).toNat = rem - 1 := by
        rw [UInt8.toNat_ofNat']
        omega
      have below : UInt8.ofNat (rem - 1) < 255 := by
        change (UInt8.ofNat (rem - 1)).toNat < 255
        omega
      have read := @readByte_cursor before rest (UInt8.ofNat (rem - 1)) fits
      rw [if_pos last, singleton_append, read, ok_bind]
      simp only [if_pos below, value]
      rw [show result + (rem - 1) + 1 = result + rem by omega]
      rfl
    · rename_i more
      have split : before ++ (255 :: nextBytes (rem - 255) ++ rest) =
          before ++ [255] ++ (nextBytes (rem - 255) ++ rest) := by simp
      have read := @readByte_cursor before (nextBytes (rem - 255) ++ rest) 255 fits
      rw [if_neg more, cons_append, read, ok_bind]
      simp only [if_neg (show ¬ (255 : UInt8) < 255 by decide)]
      rw [ih (rem - 255) (by omega) (by omega) (by omega) (by rwa [← split]),
        show result + 255 + (rem - 255) = result + rem by omega]
      simp

theorem sizeAndPrefixIterator_short {size : Nat} (short : size ≤ 62) (mask : UInt8) :
    sizeAndPrefixIterator size mask = [mask + UInt8.ofNat size] := by
  have bounded : min nibbleSizeBound size = size :=
    min_eq_right (short.trans (by decide))
  simp only [sizeAndPrefixIterator, bounded, min_eq_right short, if_true]

theorem sizeAndPrefixIterator_long {size : Nat} (long : 62 < size)
    (bounded : size ≤ nibbleSizeBound) (mask : UInt8) :
    sizeAndPrefixIterator size mask = (mask + UInt8.ofNat 63) :: nextBytes (size - 62) := by
  have low : min 62 size = 62 := min_eq_left long.le
  simp only [sizeAndPrefixIterator, min_eq_right bounded, low, if_neg long.ne']
  rfl

/-- **A header is read back**, whatever its size. -/
theorem decode_header_cursor {size : Nat} (bounded : size ≤ nibbleSizeBound)
    (fits : ((kind.header size).encode ++ rest).length < 2 ^ 63) :
    NodeHeader.decode (.cursor [] ((kind.header size).encode ++ rest)) =
      .ok (kind.header size, .cursor (kind.header size).encode rest) := by
  rw [encode_header] at fits ⊢
  by_cases short : size ≤ 62
  · rw [sizeAndPrefixIterator_short short] at fits ⊢
    have read := @readByte_cursor [] rest _ fits
    obtain ⟨low, same, nonzero⟩ := mask_add kind (show size < 64 by omega)
    rw [singleton_append, decode_header_masked kind nonzero same read]
    simp only [decodeSize, toNat_and_low, low, if_pos (show size < 63 by omega), ok_bind]
    rfl
  · rw [sizeAndPrefixIterator_long (not_le.mp short) bounded] at fits ⊢
    have read := @readByte_cursor [] (nextBytes (size - 62) ++ rest) _ fits
    obtain ⟨low, same, nonzero⟩ := mask_add kind (show 63 < 64 by omega)
    have loop := @decodeSizeLoop_nextBytes [kind.mask + UInt8.ofNat 63] rest 62 (size - 62)
      (by omega) (by omega) fits
    rw [cons_append, decode_header_masked kind nonzero same read]
    simp only [decodeSize, toNat_and_low, low, if_neg (show ¬ 63 < 63 by omega), nil_append]
    rw [loop, show 62 + (size - 62) = size by omega]
    rfl

/-! ## The partial key -/

theorem length_packNibbles (even : nibbles.length % 2 = 0) :
    2 * (packNibbles nibbles).length = nibbles.length := by
  induction nibbles using packNibbles.induct with
  | case1 left right rest ih =>
    have tail := ih (by simp only [length_cons] at even; omega)
    simp only [packNibbles, length_cons]
    omega
  | case2 last => simp at even
  | case3 => rfl

theorem length_rightIter (nibbles : List Nibble) :
    (trieDb.rightIter nibbles).length = (nibbles.length + (nibblePerByte - 1)) / nibblePerByte := by
  unfold nibblePerByte
  rcases nibbles_cases nibbles with even | ⟨first, others, rfl, even⟩
  · have packed := length_packNibbles even
    rw [trieDb.rightIter_even _ even]
    omega
  · have packed := length_packNibbles even
    rw [trieDb.rightIter_odd _ _ even]
    simp only [length_cons]
    omega

theorem partialEncode_right (bounded : nibbles.length ≤ nibbleSizeBound) (kind : NodeKind) :
    partialEncode trieDb (trieDb.right nibbles) kind =
      (kind.header nibbles.length).encode ++ trieDb.rightIter nibbles := by
  rcases nibbles_cases nibbles with even | ⟨first, others, rfl, even⟩
  · obtain ⟨encoded, bytes⟩ := trieDb.right_even nibbles even
    have packed := length_packNibbles even
    have count : min nibbleSizeBound ((packNibbles nibbles).length * nibblePerByte + 0) =
        nibbles.length := by
      unfold nibblePerByte
      omega
    rw [trieDb.rightIter_even _ even]
    simp only [partialEncode, encoded, bytes, count, lt_irrefl, if_false]
  · have packed := length_packNibbles even
    have count : min nibbleSizeBound ((packNibbles others).length * nibblePerByte + 1) =
        (first :: others).length := by
      unfold nibblePerByte
      simp only [length_cons] at bounded ⊢
      omega
    rw [trieDb.rightIter_odd _ _ even]
    simp only [trieDb.right_odd first others even, partialEncode, count, lt_one_iff, if_true,
      trieDb.padRight_packByte, append_assoc, singleton_append]

/-- **A partial key is read back.** -/
theorem decodePartial_cursor {nibbles : List Nibble}
    (fits : (before ++ (trieDb.rightIter nibbles ++ rest)).length < 2 ^ 63) :
    ∃ plan : NibbleSlicePlan,
      decodePartial trieDb nibbles.length (.cursor before (trieDb.rightIter nibbles ++ rest)) =
        .ok (plan, .cursor (before ++ trieDb.rightIter nibbles) rest) ∧
      trieDb.buildNibbles (before ++ (trieDb.rightIter nibbles ++ rest)) plan = nibbles := by
  have checked : checkPadding trieDb nibbles.length
      (.cursor before (trieDb.rightIter nibbles ++ rest)) = .ok () := by
    unfold checkPadding
    rcases nibbles_cases nibbles with even | ⟨first, others, rfl, even⟩
    · exact if_neg (not_not.mpr even)
    · have found : (before ++ (trieDb.rightIter (first :: others) ++ rest))[before.length]? =
          some (packByte 0 first) := by
        rw [trieDb.rightIter_odd _ _ even]
        simp
      split
      · simp [byteAt, cursor, found, ok_bind, trieDb.padLeft_packByte]
      · rfl
  refine ⟨⟨⟨before.length, before.length + (trieDb.rightIter nibbles).length⟩,
    trieDb.numberPadding nibbles.length⟩, ?_, ?_⟩
  · unfold decodePartial
    rw [checked, ok_bind, ← length_rightIter, take_cursor fits, ok_bind]
    rfl
  · exact trieDb.buildNibbles_rightIter _ _ _ (read_chunk _ _ _)

/-! ## The bitmap -/

/-- The bits after the loop: those there before, and those pushed from the cursor on. -/
theorem testBit_foldl_push {hasChildren : List Bool} {bitmap cursor : UInt16} {k i : Nat}
    (at_k : cursor.toNat = 2 ^ k % 2 ^ 16) (small : i < 16) :
    (hasChildren.foldl Bitmap.push (bitmap, cursor)).1.toNat.testBit i =
      (bitmap.toNat.testBit i || (decide (k ≤ i) && (hasChildren[i - k]?).getD false)) := by
  induction hasChildren generalizing bitmap cursor k with
  | nil => simp
  | cons hasChild others ih =>
    have next : (cursor <<< 1).toNat = 2 ^ (k + 1) % 2 ^ 16 := by
      rw [UInt16.toNat_shiftLeft, at_k, shiftLeft_eq]
      simp only [UInt16.toNat_one, reduceMod, pow_one]
      rw [mod_mul_mod, ← pow_succ]
    have bit : cursor.toNat.testBit i = decide (k = i) := by
      rw [at_k, testBit_mod_two_pow, testBit_two_pow]
      simp [small]
    have pushed (other : k ≠ i) : (if hasChild then bitmap ||| cursor else bitmap).toNat.testBit i =
        bitmap.toNat.testBit i := by
      split
      · simp [UInt16.toNat_or, testBit_or, bit, other]
      · rfl
    rw [foldl_cons, Bitmap.push, ih next]
    rcases lt_trichotomy i k with before | here | after
    · simp [pushed before.ne', show ¬ k + 1 ≤ i by omega, show ¬ k ≤ i by omega]
    · subst here
      cases hasChild <;> simp [UInt16.toNat_or, testBit_or, bit]
    · have shift : i - k = (i - (k + 1)) + 1 := by omega
      simp [pushed after.ne, show k + 1 ≤ i by omega, after.le, shift]

theorem valueAt_eq_testBit (bitmap : Bitmap) {i : Nat} (small : i < 16) :
    bitmap.valueAt i = bitmap.bits.toNat.testBit i := by
  have mask : ((1 : UInt16) <<< UInt16.ofNat i).toNat = 2 ^ i := by
    have index : (UInt16.ofNat i).toNat = i := by
      rw [UInt16.toNat_ofNat']
      omega
    rw [UInt16.toNat_shiftLeft, index, mod_eq_of_lt small, UInt16.toNat_one, one_shiftLeft,
      Nat.mod_eq_of_lt (Nat.pow_lt_pow_right (by decide) small)]
  have both : (bitmap.bits &&& (1 <<< UInt16.ofNat i)).toNat =
      (bitmap.bits.toNat.testBit i).toNat * 2 ^ i := by
    rw [UInt16.toNat_and, mask, and_two_pow]
  unfold Bitmap.valueAt
  cases bit : bitmap.bits.toNat.testBit i with
  | false =>
    have zero : bitmap.bits &&& (1 <<< UInt16.ofNat i) = 0 := by
      apply UInt16.toNat_inj.mp
      rw [both, bit]
      simp
    simp [zero]
  | true =>
    have nonzero : bitmap.bits &&& (1 <<< UInt16.ofNat i) ≠ 0 := by
      intro zero
      rw [zero, bit] at both
      have pos : 0 < 2 ^ i := Nat.two_pow_pos i
      simp only [UInt16.toNat_zero, Bool.toNat_true, one_mul] at both
      omega
    simp [nonzero]

/-- **The bitmap is read back**, at every child. -/
theorem decode_encode_bitmap (hasChildren : List Bool) (suffix : List UInt8) :
    ∃ bitmap, Bitmap.decode (Bitmap.encode hasChildren ++ suffix) = .ok bitmap ∧
      ∀ i < 16, bitmap.valueAt i = (hasChildren[i]?).getD false := by
  refine ⟨_, rfl, fun i small => ?_⟩
  rw [valueAt_eq_testBit _ small]
  have folded := @testBit_foldl_push hasChildren 0 1 0 i rfl small
  have whole (bits : UInt16) : (UInt16.ofNat ((bits % 256).toUInt8.toNat +
      256 * (bits / 256).toUInt8.toNat)).toNat = bits.toNat := by
    have bound := bits.toNat_lt
    simp only [UInt16.toNat_ofNat', UInt16.toNat_toUInt8, UInt16.toNat_mod, UInt16.toNat_div,
      UInt16.reduceToNat]
    omega
  rw [whole, folded]
  simp

/-! ## The children -/

/-- The bytes that a child is referenced by. -/
def ChildReference.bytes : ChildReference → List UInt8
  | .hash out => out
  | .inline bytes => bytes

/-- A child that the codec can write: a hash has the length of a hash, inline data has not, and
both have a length that the compact coding covers. -/
def ChildReference.Encodable (hasher : Hasher) (child : ChildReference) : Prop :=
  child.bytes.length < 2 ^ 32 ∧
    match child with
    | .hash out => out.length = hasher.length
    | .inline bytes => bytes.length ≠ hasher.length

theorem encodeChild_some (child : ChildReference) :
    encodeChild compact (some child) = (encodeBytes compact child.bytes, true) := by
  cases child <;> rfl

def encodeChildren (compact : CompactCodec) (children : List (Option ChildReference)) :
    List UInt8 :=
  (children.map fun child => (encodeChild compact child).1).flatten

/-- **The children are read back**, each at its index. -/
theorem decodeChildren_cursor {bitmap : Bitmap} {start : Nat}
    (bits : ∀ i child, children[i]? = some child → bitmap.valueAt (start + i) = child.isSome)
    (encodable : ∀ child, some child ∈ children → child.Encodable hasher)
    (fits : (before ++ (encodeChildren compact children ++ rest)).length < 2 ^ 63) :
    ∃ plans, decodeChildren hasher compact bitmap (List.range' start children.length)
        (.cursor before (encodeChildren compact children ++ rest)) =
          .ok (plans, .cursor (before ++ encodeChildren compact children) rest) ∧
      plans.map (·.map (·.read (before ++ (encodeChildren compact children ++ rest)))) =
        children := by
  induction children generalizing before start with
  | nil => exact ⟨[], by simp [encodeChildren, decodeChildren], rfl⟩
  | cons child others ih =>
    have here := bits 0 child rfl
    have later : ∀ i other, others[i]? = some other →
        bitmap.valueAt (start + 1 + i) = other.isSome := by
      intro i other found
      rw [← bits (i + 1) other (by simpa using found)]
      congr 1
      omega
    rw [length_cons, List.range'_succ]
    unfold decodeChildren
    cases child with
    | none =>
      have same : encodeChildren compact (none :: others) = encodeChildren compact others := by
        simp [encodeChildren, encodeChild]
      rw [same] at fits ⊢
      obtain ⟨plans, decoded, built⟩ :=
        ih later (fun other mem => encodable other (mem_cons_of_mem _ mem)) fits
      refine ⟨none :: plans, ?_, by simp [built]⟩
      have absent : ¬ bitmap.valueAt start = true := by simpa using here
      rw [if_neg absent, decoded, ok_bind]
      rfl
    | some reference =>
      obtain ⟨small, kind⟩ := encodable reference mem_cons_self
      have split : encodeChildren compact (some reference :: others) =
          encodeBytes compact reference.bytes ++ encodeChildren compact others := by
        simp [encodeChildren, encodeChild_some]
      rw [split, append_assoc] at fits ⊢
      obtain ⟨range, taken, read⟩ := takeCounted_cursor small fits
      have shift : before ++ (encodeBytes compact reference.bytes ++
          (encodeChildren compact others ++ rest)) =
          before ++ encodeBytes compact reference.bytes ++
            (encodeChildren compact others ++ rest) := by
        simp [append_assoc]
      obtain ⟨plans, decoded, built⟩ :=
        ih later (fun other mem => encodable other (mem_cons_of_mem _ mem))
          (by rwa [← shift])
      have present : bitmap.valueAt start = true := by simpa using here
      refine ⟨some (if reference.bytes.length = hasher.length then .hash range
        else .inline range) :: plans, ?_, ?_⟩
      · rw [if_pos present, taken, ok_bind]
        simp only [decoded, ok_bind, append_assoc]
        rfl
      · rw [← shift] at built
        rw [map_cons, built, map_some]
        congr 2
        cases reference with
        | hash out =>
          have length : (ChildReference.hash out).bytes.length = hasher.length := kind
          rw [if_pos length, NodeHandlePlan.read, read]
          rfl
        | inline bytes =>
          have length : ¬ (ChildReference.inline bytes).bytes.length = hasher.length := kind
          rw [if_neg length, NodeHandlePlan.read, read]
          rfl

/-! ## Lengths -/

theorem length_nextBytes_le (rem : Nat) : (nextBytes rem).length ≤ rem := by
  induction rem using Nat.strong_induction_on with
  | _ rem ih =>
    unfold nextBytes
    split
    · exact zero_le _
    · split
      · simp only [length_singleton]
        omega
      · have tail := ih (rem - 255) (by omega)
        simp only [length_cons]
        omega

theorem length_encode_header {size : Nat} (bounded : size ≤ nibbleSizeBound) :
    (kind.header size).encode.length ≤ 2 ^ 17 := by
  unfold nibbleSizeBound at bounded
  rw [encode_header]
  by_cases short : size ≤ 62
  · rw [sizeAndPrefixIterator_short short, length_singleton]
    decide
  · have tail := length_nextBytes_le (size - 62)
    rw [sizeAndPrefixIterator_long (not_le.mp short) bounded, length_cons]
    omega

end

theorem length_rightIter_le (bounded : nibbles.length ≤ nibbleSizeBound) :
    (trieDb.rightIter nibbles).length ≤ 2 ^ 17 := by
  unfold nibbleSizeBound at bounded
  rw [length_rightIter]
  unfold nibblePerByte
  omega

theorem length_encodeBytes_le (small : chunk.length < 2 ^ 32) :
    (encodeBytes compact chunk).length ≤ 2 ^ 33 := by
  have header := compact.encode_length _ small
  rw [encodeBytes, length_append]
  omega

theorem length_encodeChildren_le
    (encodable : ∀ child, some child ∈ children → child.Encodable hasher) :
    (encodeChildren compact children).length ≤ children.length * 2 ^ 33 := by
  induction children with
  | nil => exact zero_le _
  | cons child others ih =>
    have tail := ih fun other mem => encodable other (mem_cons_of_mem _ mem)
    have head : (encodeChild compact child).1.length ≤ 2 ^ 33 := by
      cases child with
      | none => exact zero_le _
      | some reference =>
        rw [encodeChild_some]
        exact length_encodeBytes_le (encodable reference mem_cons_self).1
    have split : encodeChildren compact (child :: others) =
        (encodeChild compact child).1 ++ encodeChildren compact others := rfl
    rw [split, length_append, length_cons]
    omega

/-! ## Whole nodes -/

def encodeValue (compact : CompactCodec) : Option (List UInt8) → List UInt8
  | some value => encodeBytes compact value
  | none => []

def branchKind (value : Option (List UInt8)) : NodeKind :=
  if value.isSome then .branchWithValue else .branchNoValue

theorem branchKind_header (value : Option (List UInt8)) (size : Nat) :
    (branchKind value).header size = .branch value.isSome size := by
  cases value <;> rfl

/-- The parts of an encoded branch, one after the other. -/
theorem branchNodeNibbled_eq (compact : CompactCodec) (bytes : List UInt8) {numberNibble : Nat}
    (bounded : numberNibble ≤ nibbleSizeBound) (children : List (Option ChildReference))
    (value : Option (List UInt8)) :
    branchNodeNibbled compact bytes numberNibble children value =
      ((branchKind value).header numberNibble).encode ++ (bytes ++
        (Bitmap.encode (children.map (·.isSome)) ++
          (encodeValue compact value ++ encodeChildren compact children))) := by
  have flags : (children.map (encodeChild compact)).map (·.2) = children.map (·.isSome) := by
    rw [List.map_map]
    refine map_congr_left fun child _ => ?_
    cases child with
    | none => rfl
    | some reference => cases reference <;> rfl
  have contents : ((children.map (encodeChild compact)).map (·.1)).flatten =
      encodeChildren compact children := by
    rw [List.map_map]
    rfl
  have patched (front bitmap back : List UInt8) :
      (front ++ List.replicate bitmapLength 0 ++ back).take front.length ++ bitmap ++
        (front ++ List.replicate bitmapLength 0 ++ back).drop (front.length + bitmapLength) =
        front ++ (bitmap ++ back) := by
    simp [bitmapLength]
  cases value with
  | none =>
    simp only [branchNodeNibbled, flags, contents, isSome_none, Bool.false_eq_true, if_false]
    rw [patched]
    simp only [encodeValue, partialFromIteratorEncode, min_eq_right bounded, branchKind,
      isSome_none, Bool.false_eq_true, if_false, append_assoc, nil_append]
  | some value =>
    simp only [branchNodeNibbled, flags, contents, isSome_some, if_true]
    rw [append_assoc (_ ++ List.replicate bitmapLength 0), patched]
    simp only [encodeValue, partialFromIteratorEncode, min_eq_right bounded, branchKind,
      isSome_some, if_true, append_assoc]

/-- The output decodes to a plan that reads a node, and the whole output is consumed. -/
def ReadsBack (trieDb : TrieDb) (hasher : Hasher) (compact : CompactCodec) (output : List UInt8)
    (node : Node) : Prop :=
  ∃ plan input, decodePlan trieDb hasher compact output = .ok plan ∧
    decodePlanInput trieDb hasher compact output = .ok (plan, input) ∧
    trieDb.build output plan = node ∧ input.offset = output.length

theorem readsBack_of_decoded {output : List UInt8} {header : NodeHeader} {input : ByteSliceInput}
    {plan : NodePlan} {node : Node}
    (first : NodeHeader.decode (.cursor [] output) = .ok (header, input))
    (second : decodeNode trieDb hasher compact input header = .ok (plan, .cursor output []))
    (built : trieDb.build output plan = node) : ReadsBack trieDb hasher compact output node := by
  have start : NodeHeader.decode ⟨output, 0⟩ = .ok (header, input) := first
  have decoded : decodePlanInput trieDb hasher compact output = .ok (plan, .cursor output []) := by
    simp only [decodePlanInput, start, ok_bind, second]
  exact ⟨plan, .cursor output [], by rw [decodePlan, decoded]; rfl, decoded, built, rfl⟩

theorem leaf_readsBack (bounded : nibbles.length ≤ nibbleSizeBound)
    {value : List UInt8} (small : value.length < 2 ^ 32) :
    ReadsBack trieDb hasher compact (leafNode trieDb compact (trieDb.right nibbles) value)
      (.leaf nibbles value) := by
  let header := (NodeKind.leaf.header nibbles.length).encode
  have parts : leafNode trieDb compact (trieDb.right nibbles) value =
      header ++ (trieDb.rightIter nibbles ++ (encodeBytes compact value ++ [])) := by
    rw [leafNode, partialEncode_right bounded, append_nil, append_assoc]
  have fits : (header ++ (trieDb.rightIter nibbles ++ (encodeBytes compact value ++ []))).length <
      2 ^ 63 := by
    have first := length_encode_header .leaf bounded
    have second := @length_rightIter_le trieDb nibbles bounded
    have third := @length_encodeBytes_le value compact small
    simp only [length_append, length_nil, header]
    omega
  have decoded := decode_header_cursor .leaf bounded fits
  obtain ⟨key, keyed, keyBuilt⟩ := decodePartial_cursor fits
  rw [← append_assoc] at fits
  obtain ⟨range, taken, read⟩ := takeCounted_cursor small fits
  have node : decodeNode trieDb hasher compact
      (.cursor header (trieDb.rightIter nibbles ++ (encodeBytes compact value ++ [])))
      (.leaf nibbles.length) = .ok (.leaf key range,
        .cursor (header ++ (trieDb.rightIter nibbles ++ (encodeBytes compact value ++ [])))
          []) := by
    unfold decodeNode
    simp only [keyed, ok_bind, taken]
    simp only [pure, Except.pure, append_assoc, append_nil]
  rw [← append_assoc] at keyBuilt
  rw [parts]
  refine readsBack_of_decoded decoded node ?_
  rw [trieDb.build_leaf, ← append_assoc, keyBuilt, read]

theorem decodeValue_cursor (small : ∀ bytes ∈ value, bytes.length < 2 ^ 32)
    (fits : (before ++ (encodeValue compact value ++ rest)).length < 2 ^ 63) :
    ∃ range, decodeValue compact value.isSome (.cursor before (encodeValue compact value ++ rest)) =
        .ok (range, .cursor (before ++ encodeValue compact value) rest) ∧
      range.map (·.read (before ++ (encodeValue compact value ++ rest))) = value := by
  cases value with
  | none => exact ⟨none, by simp [decodeValue, encodeValue], rfl⟩
  | some bytes =>
    obtain ⟨range, taken, read⟩ := takeCounted_cursor (small bytes rfl) fits
    refine ⟨some range, ?_, ?_⟩
    · simp only [decodeValue, isSome_some, if_true, encodeValue, taken, ok_bind]
      rfl
    · rw [map_some, encodeValue, read]

/-- The parts of a branch after its header are read back. -/
theorem decodeNode_branch_cursor {header bitmap : List UInt8} {bits : Bitmap}
    (length : bitmap.length = bitmapLength) (decoded : Bitmap.decode bitmap = .ok bits)
    (bitsOf : ∀ i child, children[i]? = some child → bits.valueAt (0 + i) = child.isSome)
    (all : children.length = nibbleLength)
    (encodable : ∀ child, some child ∈ children → child.Encodable hasher)
    (small : ∀ bytes ∈ value, bytes.length < 2 ^ 32)
    (fits : (header ++ (trieDb.rightIter nibbles ++ (bitmap ++ (encodeValue compact value ++
      (encodeChildren compact children ++ []))))).length < 2 ^ 63) :
    ∃ plan, decodeNode trieDb hasher compact (.cursor header (trieDb.rightIter nibbles ++ (bitmap ++
        (encodeValue compact value ++ (encodeChildren compact children ++ [])))))
          (.branch value.isSome nibbles.length) =
        .ok (plan, .cursor (header ++ (trieDb.rightIter nibbles ++ (bitmap ++
          (encodeValue compact value ++ encodeChildren compact children)))) []) ∧
      trieDb.build (header ++ (trieDb.rightIter nibbles ++ (bitmap ++ (encodeValue compact value ++
        (encodeChildren compact children ++ []))))) plan =
          .nibbledBranch nibbles value children := by
  obtain ⟨key, keyed, keyBuilt⟩ := decodePartial_cursor fits
  rw [← append_assoc] at fits
  have mapped := take_cursor fits
  have sliced := slice_chunk (header ++ trieDb.rightIter nibbles) bitmap
    (encodeValue compact value ++ (encodeChildren compact children ++ []))
  rw [← append_assoc] at fits
  obtain ⟨range, valued, valueBuilt⟩ := decodeValue_cursor small fits
  rw [← append_assoc] at fits
  obtain ⟨plans, childrenDecoded, childrenBuilt⟩ := decodeChildren_cursor bitsOf encodable fits
  have indices : List.range nibbleLength = List.range' 0 children.length := by
    rw [all, range_eq_range']
  have inner (before chunk rest : List UInt8) :
      (cursor (before ++ chunk) rest).data = before ++ (chunk ++ rest) :=
    append_assoc _ _ _
  simp only [append_assoc] at keyBuilt valueBuilt childrenBuilt
  refine ⟨.nibbledBranch key range plans, ?_, ?_⟩
  · unfold decodeNode
    simp only [keyed, ok_bind, ← length, mapped, inner, sliced, decoded, valued, indices,
      childrenDecoded]
    simp only [pure, Except.pure, append_assoc]
  · rw [trieDb.build_branch, keyBuilt, valueBuilt, childrenBuilt]

theorem branch_readsBack (bounded : nibbles.length ≤ nibbleSizeBound)
    (all : children.length = nibbleLength)
    (encodable : ∀ child, some child ∈ children → child.Encodable hasher)
    (small : ∀ bytes ∈ value, bytes.length < 2 ^ 32) :
    ReadsBack trieDb hasher compact
      (branchNodeNibbled compact (trieDb.rightIter nibbles) nibbles.length children value)
      (.nibbledBranch nibbles value children) := by
  have fits : (((branchKind value).header nibbles.length).encode ++ (trieDb.rightIter nibbles ++
      (Bitmap.encode (children.map isSome) ++ (encodeValue compact value ++
        (encodeChildren compact children ++ []))))).length < 2 ^ 63 := by
    have first := length_encode_header (branchKind value) bounded
    have second := @length_rightIter_le trieDb nibbles bounded
    have third : (encodeValue compact value).length ≤ 2 ^ 33 := by
      cases value with
      | none => exact zero_le _
      | some bytes => exact length_encodeBytes_le (small bytes rfl)
    have fourth := @length_encodeChildren_le hasher compact children encodable
    rw [all] at fourth
    simp only [length_append, length_nil, Bitmap.encode, length_cons]
    unfold nibbleLength at fourth
    omega
  have header := decode_header_cursor (branchKind value) bounded fits
  obtain ⟨bits, decoded, bitsAt⟩ := decode_encode_bitmap (children.map (·.isSome)) []
  rw [append_nil] at decoded
  have bitsOf : ∀ i child, children[i]? = some child → bits.valueAt (0 + i) = child.isSome := by
    intro i child found
    obtain ⟨mem, -⟩ := List.getElem?_eq_some_iff.mp found
    rw [zero_add, bitsAt i (by rw [all] at mem; exact mem), List.getElem?_map, found]
    rfl
  obtain ⟨plan, node, built⟩ :=
    decodeNode_branch_cursor rfl decoded bitsOf all encodable small fits
  rw [branchNodeNibbled_eq compact _ bounded]
  rw [append_nil] at header node built
  rw [← branchKind_header] at node
  exact readsBack_of_decoded header node built

/-- **Encoded nodes are read back**: for every key up to the bound, the plan of an encoded leaf or
branch reads the same nibbles, value and children, and decoding consumes the whole output. -/
theorem node_roundTrip (trieDb : TrieDb) (hasher : Hasher) (compact : CompactCodec)
    {nibbles : List Nibble} (bounded : nibbles.length ≤ nibbleSizeBound) :
    (∀ value : List UInt8, value.length < 2 ^ 32 →
      ReadsBack trieDb hasher compact (leafNode trieDb compact (trieDb.right nibbles) value)
        (.leaf nibbles value)) ∧
    ∀ (children : Fin 16 → Option ChildReference) (value : Option (List UInt8)),
      (∀ i, ∀ child ∈ children i, child.Encodable hasher) →
      (∀ bytes ∈ value, bytes.length < 2 ^ 32) →
        ReadsBack trieDb hasher compact
          (branchNodeNibbled compact (trieDb.rightIter nibbles) nibbles.length
            (List.ofFn children) value)
          (.nibbledBranch nibbles value (List.ofFn children)) := by
  refine ⟨fun value small => leaf_readsBack bounded small, fun children value encodable small => ?_⟩
  refine branch_readsBack bounded length_ofFn (fun child mem => ?_) small
  obtain ⟨i, found⟩ := mem_ofFn.mp mem
  exact encodable i child found

/-- A branch with three nibbles, a value and two children, one of them inline. -/
theorem node_roundTrip_mixed :
    ReadsBack .packed zeroHasher .scale
      (branchNodeNibbled .scale (TrieDb.packed.rightIter [1, 2, 3]) 3
        (List.ofFn fun i : Fin 16 =>
          if i = 4 then some (.hash (List.replicate 32 7))
          else if i = 9 then some (.inline [5, 6]) else none) (some [8, 9]))
      (.nibbledBranch [1, 2, 3] (some [8, 9])
        (List.ofFn fun i : Fin 16 =>
          if i = 4 then some (.hash (List.replicate 32 7))
          else if i = 9 then some (.inline [5, 6]) else none)) := by
  refine (node_roundTrip .packed zeroHasher .scale (by decide : [1, 2, 3].length ≤ _)).2 _ _ ?_ ?_
  · intro i child found
    split at found
    · obtain rfl := some.inj found
      exact ⟨by decide, rfl⟩
    · split at found
      · obtain rfl := some.inj found
        exact ⟨by decide, by decide⟩
      · cases found
  · intro bytes found
    obtain rfl := some.inj found
    decide

end Brace.Trie
