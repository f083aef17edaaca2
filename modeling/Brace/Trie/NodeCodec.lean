import Brace.Trie.TrieDb

/-!
# The codec of trie nodes

`NodeCodec` of `primitives/trie/src/node_codec.rs`. A node is written as its header, its partial
key packed two nibbles to a byte, for a branch the bitmap of its children, the value and then the
children, each of these after its compact length. `decode_plan` reads the parts as ranges of the
data.

The trie library and the compact coding of lengths are parameters.
-/

namespace Brace.Trie

open Brace.Lib

/-! ## The bitmap of the children -/

/-- `BITMAP_LENGTH` -/
def bitmapLength : Nat := 2

/-- `Bitmap` -/
structure Bitmap where
  /-- One bit for each child. -/
  bits : UInt16
deriving DecidableEq

namespace Bitmap

/-- `Bitmap::decode`: two bytes, the lower one first. -/
def decode : List UInt8 → Except Fault Bitmap
  | low :: high :: _ => .ok ⟨UInt16.ofNat (low.toNat + 256 * high.toNat)⟩
  | _ => .error (.decode "Not enough data to fill buffer")

/-- `Bitmap::value_at` -/
def valueAt (bitmap : Bitmap) (i : Nat) : Bool :=
  bitmap.bits &&& (1 <<< UInt16.ofNat i) != 0

/-- One round of the loop of `Bitmap::encode`. -/
def push (state : UInt16 × UInt16) (hasChild : Bool) : UInt16 × UInt16 :=
  (if hasChild then state.1 ||| state.2 else state.1, state.2 <<< 1)

/-- `Bitmap::encode` -/
def encode (hasChildren : List Bool) : List UInt8 :=
  let bitmap := (hasChildren.foldl push (0, 1)).1
  [(bitmap % 256).toUInt8, (bitmap / 256).toUInt8]

end Bitmap

/-! ## `decode_plan` -/

variable (trieDb : TrieDb)

/-- Check that the padding of a partial key is valid, if it has any. -/
def checkPadding (nibbleCount : Nat) (input : ByteSliceInput) : Except Fault Unit :=
  if nibbleCount % nibblePerByte ≠ 0 then do
    let byte ← byteAt input.data input.offset
    if trieDb.padLeft byte ≠ 0 then .error .badFormat else .ok ()
  else .ok ()

/-- The partial key of a node, the same steps for a branch and for a leaf. -/
def decodePartial (nibbleCount : Nat) (input : ByteSliceInput) :
    Except Fault (NibbleSlicePlan × ByteSliceInput) := do
  checkPadding trieDb nibbleCount input
  let (range, input) ← input.take ((nibbleCount + (nibblePerByte - 1)) / nibblePerByte)
  return (⟨range, trieDb.numberPadding nibbleCount⟩, input)

variable (compact : CompactCodec)

/-- A part after its compact length. Returns the length too. -/
def takeCounted (input : ByteSliceInput) : Except Fault ((Nat × Range) × ByteSliceInput) := do
  let (count, input) ← input.decodeCompact compact
  let (range, input) ← input.take count
  return ((count, range), input)

/-- The value of a branch, if it has one. -/
def decodeValue (hasValue : Bool) (input : ByteSliceInput) :
    Except Fault (Option Range × ByteSliceInput) :=
  if hasValue then do
    let ((_, range), input) ← takeCounted compact input
    return (some range, input)
  else
    .ok (none, input)

/-- The loop of `decode_plan` over the children. -/
def decodeChildren (hasher : Hasher) (compact : CompactCodec) (bitmap : Bitmap) :
    List Nat → ByteSliceInput → Except Fault (List (Option NodeHandlePlan) × ByteSliceInput)
  | [], input => .ok ([], input)
  | i :: rest, input => do
    if bitmap.valueAt i then
      let ((count, range), input) ← takeCounted compact input
      let child := if count = hasher.length then .hash range else .inline range
      let (children, input) ← decodeChildren hasher compact bitmap rest input
      return (some child :: children, input)
    else
      let (children, input) ← decodeChildren hasher compact bitmap rest input
      return (none :: children, input)

variable (hasher : Hasher)

/-- What `decode_plan` does after the header. -/
def decodeNode (compact : CompactCodec) (input : ByteSliceInput) :
    NodeHeader → Except Fault (NodePlan × ByteSliceInput)
  | .null => .ok (.empty, input)
  | .branch hasValue nibbleCount => do
    let (nibbles, input) ← decodePartial trieDb nibbleCount input
    let (bitmapRange, input) ← input.take bitmapLength
    let bitmap ← Bitmap.decode (← bitmapRange.slice input.data)
    let (value, input) ← decodeValue compact hasValue input
    let (children, input) ←
      decodeChildren hasher compact bitmap (List.range nibbleLength) input
    return (.nibbledBranch nibbles value children, input)
  | .leaf nibbleCount => do
    let (nibbles, input) ← decodePartial trieDb nibbleCount input
    let ((_, value), input) ← takeCounted compact input
    return (.leaf nibbles value, input)

/-- `NodeCodec::decode_plan`, together with the input that it leaves. -/
def decodePlanInput (compact : CompactCodec) (data : List UInt8) :
    Except Fault (NodePlan × ByteSliceInput) := do
  let (header, input) ← NodeHeader.decode ⟨data, 0⟩
  decodeNode trieDb hasher compact input header

/-- `NodeCodec::decode_plan` -/
def decodePlan (compact : CompactCodec) (data : List UInt8) : Except Fault NodePlan :=
  (·.1) <$> decodePlanInput trieDb hasher compact data

/-! ## Encoding -/

/-- `encode_to` of a byte slice: its compact length, then its bytes. -/
def encodeBytes (bytes : List UInt8) : List UInt8 :=
  compact.encode bytes.length ++ bytes

def NodeKind.header : NodeKind → Nat → NodeHeader
  | .leaf, nibbleCount => .leaf nibbleCount
  | .branchWithValue, nibbleCount => .branch true nibbleCount
  | .branchNoValue, nibbleCount => .branch false nibbleCount

/-- `partial_from_iterator_encode` -/
def partialFromIteratorEncode (bytes : List UInt8) (nibbleCount : Nat) (kind : NodeKind) :
    List UInt8 :=
  let nibbleCount := min nibbleSizeBound nibbleCount
  (kind.header nibbleCount).encode ++ bytes

/-- `partial_encode` -/
def partialEncode (key : Partial) (kind : NodeKind) : List UInt8 :=
  let nibbleCount := key.bytes.length * nibblePerByte + key.encoded
  let nibbleCount := min nibbleSizeBound nibbleCount
  let output := (kind.header nibbleCount).encode
  let output := if 0 < key.encoded then output ++ [trieDb.padRight key.first] else output
  output ++ key.bytes

/-- `NodeCodec::leaf_node` -/
def leafNode (key : Partial) (value : List UInt8) : List UInt8 :=
  partialEncode trieDb key .leaf ++ encodeBytes compact value

/-- One round of the closure over the children: what it appends, and what it says about the
child. -/
def encodeChild : Option ChildReference → List UInt8 × Bool
  | some (.hash out) => (encodeBytes compact out, true)
  | some (.inline bytes) => (encodeBytes compact bytes, true)
  | none => ([], false)

/-- `NodeCodec::branch_node_nibbled`: the bitmap is written over two zero bytes at the end. -/
def branchNodeNibbled (bytes : List UInt8) (numberNibble : Nat)
    (children : List (Option ChildReference)) (maybeValue : Option (List UInt8)) : List UInt8 :=
  let output :=
    if maybeValue.isSome then partialFromIteratorEncode bytes numberNibble .branchWithValue
    else partialFromIteratorEncode bytes numberNibble .branchNoValue
  let bitmapIndex := output.length
  let output := output ++ List.replicate bitmapLength 0
  let output := match maybeValue with
    | some value => output ++ encodeBytes compact value
    | none => output
  let encoded := children.map (encodeChild compact)
  let output := output ++ (encoded.map (·.1)).flatten
  let bitmap := Bitmap.encode (encoded.map (·.2))
  output.take bitmapIndex ++ bitmap ++ output.drop (bitmapIndex + bitmapLength)

end Brace.Trie
