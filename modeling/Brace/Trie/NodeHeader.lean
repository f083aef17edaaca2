import Brace.Lib.CompactInteger
import Brace.Lib.Run

/-!
# The header of a trie node

`primitives/trie/src/node_header.rs` and the byte input of `node_codec.rs`: the first byte of a
node has its kind in the two highest bits and the number of nibbles of its partial key in the
other six. A size of more than 62 goes on in the next bytes, 255 at a time.

A decoder can end with an error, and it can panic: at an index past the end of the data, or at a
`usize` sum that overflows.
-/

namespace Brace.Trie

open Brace.Lib

/-- `EMPTY_TRIE` -/
def emptyTrie : UInt8 := 0

/-- `NIBBLE_SIZE_BOUND`, the maximal `u16`. -/
def nibbleSizeBound : Nat := 65535

/-- `LEAF_PREFIX_MASK` -/
def leafPrefixMask : UInt8 := 0b01000000

/-- `BRANCH_WITHOUT_MASK` -/
def branchWithoutMask : UInt8 := 0b10000000

/-- `BRANCH_WITH_MASK` -/
def branchWithMask : UInt8 := 0b11000000

/-- `usize::max_value()` on a 64-bit machine. -/
def usizeMax : Nat := 2 ^ 64 - 1

/-- How decoding can end without a node. -/
inductive Fault
  /-- `Error::Decode`, an error of the codec with its text. -/
  | decode (what : String)
  | badFormat
  /-- The panic at an index that is not below the length of the slice. -/
  | outOfBounds
  /-- The panic at a sum that does not fit. -/
  | overflow
deriving DecidableEq

/-- The faults that are not values of the error type. -/
def Fault.IsPanic (fault : Fault) : Prop :=
  fault = .outOfBounds ∨ fault = .overflow

instance (fault : Fault) : Decidable fault.IsPanic :=
  inferInstanceAs (Decidable (_ ∨ _))

/-- `Range<usize>` -/
structure Range where
  start : Nat
  /-- The first index after it. -/
  stop : Nat
deriving DecidableEq

def Range.read (range : Range) (data : List UInt8) : List UInt8 :=
  (data.take range.stop).drop range.start

/-- `&data[range]` -/
def Range.slice (range : Range) (data : List UInt8) : Except Fault (List UInt8) :=
  if range.start ≤ range.stop ∧ range.stop ≤ data.length then .ok (range.read data)
  else .error .outOfBounds

/-- `ByteSliceInput` -/
structure ByteSliceInput where
  data : List UInt8
  /-- The absolute position. -/
  offset : Nat
deriving DecidableEq

/-- The byte at an index of a slice. -/
def byteAt (data : List UInt8) (index : Nat) : Except Fault UInt8 :=
  match data[index]? with
  | some byte => .ok byte
  | none => .error .outOfBounds

namespace ByteSliceInput

/-- `ByteSliceInput::take` -/
def take (input : ByteSliceInput) (count : Nat) : Except Fault (Range × ByteSliceInput) :=
  if usizeMax < input.offset + count then .error .overflow
  else if input.data.length < input.offset + count then .error (.decode "out of data")
  else
    .ok (⟨input.offset, input.offset + count⟩, { input with offset := input.offset + count })

/-- `Input::read_byte` of a byte slice. -/
def readByte (input : ByteSliceInput) : Except Fault (UInt8 × ByteSliceInput) :=
  if usizeMax < input.offset + 1 then .error .overflow
  else if input.data.length < input.offset + 1 then .error (.decode "out of data")
  else do
    let byte ← byteAt input.data input.offset
    return (byte, { input with offset := input.offset + 1 })

/-- `<Compact<u32>>::decode(&mut input)?.0 as usize` -/
def decodeCompact (compact : CompactCodec) (input : ByteSliceInput) :
    Except Fault (Nat × ByteSliceInput) :=
  match compact.decode (input.data.drop input.offset) with
  | .ok (value, count) => .ok (value, { input with offset := input.offset + count })
  | .error what => .error (.decode what)

end ByteSliceInput

/-- `NodeHeader` -/
inductive NodeHeader
  | null
  /-- `Branch`: whether it has a value, and the number of nibbles. -/
  | branch (hasValue : Bool) (nibbleCount : Nat)
  | leaf (nibbleCount : Nat)
deriving DecidableEq

/-- `NodeKind` -/
inductive NodeKind
  | leaf
  | branchNoValue
  | branchWithValue
deriving DecidableEq

/-! ## Encoding -/

/-- The closure `next_bytes` of `size_and_prefix_iterator`, until it returns `None`. -/
def nextBytes (rem : Nat) : List UInt8 :=
  if rem = 0 then []
  else if rem < 256 then [UInt8.ofNat (rem - 1)]
  else 255 :: nextBytes (rem - 255)

/-- `size_and_prefix_iterator` -/
def sizeAndPrefixIterator (size : Nat) (mask : UInt8) : List UInt8 :=
  let size := min nibbleSizeBound size
  let l1 := min 62 size
  if size = l1 then [mask + UInt8.ofNat l1]
  else (mask + 63) :: nextBytes (size - l1)

/-- `NodeHeader::encode_to` -/
def NodeHeader.encode : NodeHeader → List UInt8
  | .null => [emptyTrie]
  | .branch true nibbleCount => sizeAndPrefixIterator nibbleCount branchWithMask
  | .branch false nibbleCount => sizeAndPrefixIterator nibbleCount branchWithoutMask
  | .leaf nibbleCount => sizeAndPrefixIterator nibbleCount leafPrefixMask

/-! ## Decoding -/

/-- The loop of `decode_size`. -/
def decodeSizeLoop (result : Nat) (input : ByteSliceInput) : Except Fault (Nat × ByteSliceInput) :=
  if result ≤ nibbleSizeBound then do
    let (n, input) ← input.readByte
    if n < 255 then
      return (result + n.toNat + 1, input)
    else
      decodeSizeLoop (result + 255) input
  else
    .ok (nibbleSizeBound, input)
termination_by nibbleSizeBound + 1 - result

/-- `decode_size` -/
def decodeSize (first : UInt8) (input : ByteSliceInput) : Except Fault (Nat × ByteSliceInput) :=
  let result := (first &&& ((255 : UInt8) >>> 2)).toNat
  if result < 63 then .ok (result, input)
  else decodeSizeLoop (result - 1) input

/-- `Decode for NodeHeader` -/
def NodeHeader.decode (input : ByteSliceInput) : Except Fault (NodeHeader × ByteSliceInput) := do
  let (i, input) ← input.readByte
  if i = emptyTrie then
    return (.null, input)
  else
    let kind := i &&& 0b11000000
    if kind = leafPrefixMask then
      let (size, input) ← decodeSize i input
      return (.leaf size, input)
    else if kind = branchWithoutMask then
      let (size, input) ← decodeSize i input
      return (.branch false size, input)
    else if kind = branchWithMask then
      let (size, input) ← decodeSize i input
      return (.branch true size, input)
    else
      .error (.decode "Unallowed encoding")

end Brace.Trie
