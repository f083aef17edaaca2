import Brace.Trie.RoundTrip

/-!
# The streaming encoder of trie nodes

`TrieStream` of `primitives/trie/src/trie_stream.rs` writes nodes from slices of nibbles, for
roots that are computed without a database. It is written apart from `NodeCodec`: it fuses the
nibbles itself, has its own loop for the bitmap, and decides by the length of a child whether the
child is inlined. Both encoders write the same bytes (`encoders_agree`).
-/

namespace Brace.Trie

open Brace.Lib List Option

/-- `TrieStream` -/
structure TrieStream where
  buffer : List UInt8
deriving DecidableEq

/-- `BRANCH_NODE_NO_VALUE` -/
def branchNodeNoValue : UInt8 := 254

/-- `BRANCH_NODE_WITH_VALUE` -/
def branchNodeWithValue : UInt8 := 255

/-- `branch_node_bit_mask` -/
def branchNodeBitMask (hasChildren : List Bool) : UInt8 × UInt8 :=
  let bitmap : UInt16 := (hasChildren.foldl
    (fun (state : UInt16 × UInt16) hasChild =>
      (if hasChild then state.1 ||| state.2 else state.1, state.2 <<< 1)) (0, 1)).1
  ((bitmap % 256).toUInt8, (bitmap / 256).toUInt8)

/-- A nibble of a slice, one to a byte. -/
def nibbleByte (nibble : Nibble) : UInt8 := UInt8.ofNat nibble.val

/-- `chunks(2)` of a slice of even length, each with `ch[0] << 4 | ch[1]`. -/
def fuseChunks : List Nibble → List UInt8
  | left :: right :: rest => (nibbleByte left <<< 4 ||| nibbleByte right) :: fuseChunks rest
  | _ => []

/-- `fuse_nibbles_node` -/
def fuseNibblesNode (nibbles : List Nibble) (kind : NodeKind) : List UInt8 :=
  let size := min nibbleSizeBound nibbles.length
  let start := match kind with
    | .leaf => sizeAndPrefixIterator size leafPrefixMask
    | .branchNoValue => sizeAndPrefixIterator size branchWithoutMask
    | .branchWithValue => sizeAndPrefixIterator size branchWithMask
  let odd := if nibbles.length % 2 = 1 then (nibbles.take 1).map nibbleByte else []
  start ++ odd ++ fuseChunks (nibbles.drop (nibbles.length % 2))

/-- `branch_node`: the form for tries with extension nodes. -/
def branchNode (hasValue : Bool) (hasChildren : List Bool) : List UInt8 :=
  (if hasValue then branchNodeWithValue else branchNodeNoValue) :: Bitmap.encode hasChildren

namespace TrieStream

/-- `TrieStream::new` -/
def new : TrieStream := ⟨[]⟩

/-- `append_leaf` -/
def appendLeaf (compact : CompactCodec) (key : List Nibble) (value : List UInt8)
    (stream : TrieStream) : TrieStream :=
  ⟨stream.buffer ++ fuseNibblesNode key .leaf ++ encodeBytes compact value⟩

/-- `begin_branch`. Without a partial key a debug assertion fails, and a release build writes the
node of a trie with extensions. -/
def beginBranch (compact : CompactCodec) (maybePartial : Option (List Nibble))
    (maybeValue : Option (List UInt8)) (hasChildren : List Bool) (stream : TrieStream) :
    TrieStream :=
  let buffer := match maybePartial with
    | some nibbles =>
      let buffer :=
        if maybeValue.isSome then stream.buffer ++ fuseNibblesNode nibbles .branchWithValue
        else stream.buffer ++ fuseNibblesNode nibbles .branchNoValue
      let bm := branchNodeBitMask hasChildren
      buffer ++ [bm.1, bm.2]
    | none => stream.buffer ++ branchNode maybeValue.isSome hasChildren
  match maybeValue with
  | some value => ⟨buffer ++ encodeBytes compact value⟩
  | none => ⟨buffer⟩

/-- `out` -/
def out (stream : TrieStream) : List UInt8 := stream.buffer

/-- `append_substream` -/
def appendSubstream (hasher : Hasher) (compact : CompactCodec) (stream other : TrieStream) :
    TrieStream :=
  let data := other.out
  if data.length ≤ 31 then ⟨stream.buffer ++ encodeBytes compact data⟩
  else ⟨stream.buffer ++ encodeBytes compact (hasher.hash data)⟩

end TrieStream

def streamLeaf (compact : CompactCodec) (nibbles : List Nibble) (value : List UInt8) : List UInt8 :=
  (TrieStream.new.appendLeaf compact nibbles value).out

variable (hasher : Hasher)

/-- The stream of a branch: it is begun, and then the stream of each child is appended. -/
def streamBranch (compact : CompactCodec) (nibbles : List Nibble) (value : Option (List UInt8))
    (children : List (Option (List UInt8))) : List UInt8 :=
  let begun := TrieStream.new.beginBranch compact (some nibbles) value (children.map (·.isSome))
  ((children.filterMap id).foldl
    (fun stream child => stream.appendSubstream hasher compact ⟨child⟩) begun).out

/-- How a stream refers to a child with these bytes. -/
def streamReference (encoding : List UInt8) : ChildReference :=
  if encoding.length ≤ 31 then .inline encoding else .hash (hasher.hash encoding)

variable {trieDb : TrieDb} {hasher : Hasher} {compact : CompactCodec}

theorem fuse_eq_packByte (left right : Nibble) :
    nibbleByte left <<< 4 ||| nibbleByte right = packByte left right := by
  revert left right
  decide +kernel

theorem nibbleByte_eq_packByte (nibble : Nibble) : nibbleByte nibble = packByte 0 nibble := by
  revert nibble
  decide +kernel

variable {nibbles : List Nibble}

theorem fuseChunks_eq (even : nibbles.length % 2 = 0) :
    fuseChunks nibbles = packNibbles nibbles := by
  induction nibbles using packNibbles.induct with
  | case1 left right rest ih =>
    have tail := ih (by simp only [length_cons] at even; omega)
    rw [fuseChunks, packNibbles, fuse_eq_packByte, tail]
  | case2 last => simp at even
  | case3 => rfl

theorem fuseNibblesNode_eq (bounded : nibbles.length ≤ nibbleSizeBound) (kind : NodeKind) :
    fuseNibblesNode nibbles kind =
      (kind.header nibbles.length).encode ++ trieDb.rightIter nibbles := by
  have start : (match kind with
      | .leaf => sizeAndPrefixIterator nibbles.length leafPrefixMask
      | .branchNoValue => sizeAndPrefixIterator nibbles.length branchWithoutMask
      | .branchWithValue => sizeAndPrefixIterator nibbles.length branchWithMask) =
      (kind.header nibbles.length).encode := by
    cases kind <;> rfl
  simp only [fuseNibblesNode, Nat.min_eq_right bounded, start]
  rw [append_assoc]
  congr 1
  rcases nibbles_cases nibbles with even | ⟨first, others, rfl, even⟩
  · rw [if_neg (by omega), even, drop_zero, fuseChunks_eq even, trieDb.rightIter_even _ even,
      nil_append]
  · have odd : (first :: others).length % 2 = 1 := by
      simp only [length_cons]
      omega
    rw [if_pos odd, odd, trieDb.rightIter_odd _ _ even]
    simp [fuseChunks_eq even, nibbleByte_eq_packByte]

/-- The two loops over the children make the same bitmap. -/
theorem branchNodeBitMask_eq (hasChildren : List Bool) :
    [(branchNodeBitMask hasChildren).1, (branchNodeBitMask hasChildren).2] =
      Bitmap.encode hasChildren := rfl

theorem appendSubstream_eq (stream : TrieStream) (child : List UInt8) :
    stream.appendSubstream hasher compact ⟨child⟩ =
      ⟨stream.buffer ++ (encodeChild compact (some (streamReference hasher child))).1⟩ := by
  unfold TrieStream.appendSubstream streamReference TrieStream.out
  dsimp only
  split <;> rfl

theorem foldl_appendSubstream (children : List (Option (List UInt8))) (stream : TrieStream) :
    ((children.filterMap id).foldl
      (fun stream child => stream.appendSubstream hasher compact ⟨child⟩) stream).buffer =
      stream.buffer ++
        encodeChildren compact (children.map (·.map (streamReference hasher))) := by
  induction children generalizing stream with
  | nil => simp [encodeChildren]
  | cons child others ih =>
    cases child with
    | none =>
      rw [filterMap_cons_none rfl, ih]
      rfl
    | some encoding =>
      have listed : (some encoding :: others).filterMap id = encoding :: others.filterMap id := rfl
      rw [listed, foldl_cons, ih, appendSubstream_eq, append_assoc]
      rfl

theorem beginBranch_eq (bounded : nibbles.length ≤ nibbleSizeBound)
    (value : Option (List UInt8)) (hasChildren : List Bool) :
    (TrieStream.new.beginBranch compact (some nibbles) value hasChildren).buffer =
      ((branchKind value).header nibbles.length).encode ++ (trieDb.rightIter nibbles ++
        (Bitmap.encode hasChildren ++ encodeValue compact value)) := by
  cases value with
  | none =>
    simp only [TrieStream.beginBranch, isSome_none, Bool.false_eq_true, if_false,
      TrieStream.new, nil_append, @fuseNibblesNode_eq trieDb _ bounded, branchNodeBitMask_eq,
      branchKind, encodeValue, append_nil, append_assoc]
  | some bytes =>
    simp only [TrieStream.beginBranch, isSome_some, if_true, TrieStream.new,
      nil_append, @fuseNibblesNode_eq trieDb _ bounded, branchNodeBitMask_eq, branchKind,
      encodeValue, append_assoc]

/-- **The two encoders agree**: for every key up to the bound, every value and every children, the
stream writes the bytes that the codec writes for the same key, the value and the references that
the stream makes; and these are the references of the database when a hash has 32 bytes. -/
theorem encoders_agree (trieDb : TrieDb) (hasher : Hasher) (compact : CompactCodec)
    {nibbles : List Nibble} (bounded : nibbles.length ≤ nibbleSizeBound) :
    (∀ value, streamLeaf compact nibbles value =
      leafNode trieDb compact (trieDb.right nibbles) value) ∧
    (∀ (children : Fin 16 → Option (List UInt8)) value,
      streamBranch hasher compact nibbles value (List.ofFn children) =
        branchNodeNibbled compact (trieDb.rightIter nibbles) nibbles.length
          ((List.ofFn children).map (·.map (streamReference hasher))) value) ∧
    (hasher.length = 32 → streamReference hasher = trieDb.childReference hasher) := by
  refine ⟨fun value => ?_, fun children value => ?_, fun wide => ?_⟩
  · simp only [streamLeaf, TrieStream.appendLeaf, TrieStream.out, TrieStream.new, nil_append]
    rw [@fuseNibblesNode_eq trieDb _ bounded, leafNode, partialEncode_right bounded]
  · have flags : (List.ofFn children).map (·.isSome) =
        ((List.ofFn children).map (·.map (streamReference hasher))).map isSome := by
      rw [List.map_map]
      refine map_congr_left fun child _ => ?_
      simp
    simp only [streamBranch, TrieStream.out]
    rw [foldl_appendSubstream, @beginBranch_eq trieDb _ _ bounded,
      branchNodeNibbled_eq compact _ bounded, flags]
    simp only [append_assoc]
  · funext encoding
    rw [trieDb.childReference_eq, wide, streamReference]
    split
    · rw [if_neg (by omega)]
    · rw [if_pos (by omega)]

/-- The encoders agree on a branch with an odd key and two children, one of them inline. -/
theorem encoders_agree_mixed :
    zeroHasher.length = 32 ∧
      streamBranch zeroHasher .scale [1, 2, 3] (some [8])
        (List.ofFn fun i : Fin 16 =>
          if i = 4 then some (List.replicate 40 7) else if i = 9 then some [5, 6] else none) =
        branchNodeNibbled .scale (TrieDb.packed.rightIter [1, 2, 3]) 3
          ((List.ofFn fun i : Fin 16 =>
            if i = 4 then some (List.replicate 40 7) else if i = 9 then some [5, 6] else none).map
              (·.map (TrieDb.packed.childReference zeroHasher))) (some [8]) := by
  have agree := @encoders_agree .packed zeroHasher .scale [1, 2, 3] (by decide)
  rw [← agree.2.2 rfl]
  exact ⟨rfl, agree.2.1 _ _⟩

end Brace.Trie
