import Brace.Trie.NodeHeader

/-!
# What the trie library provides

The codec of nodes is written against a trie library: nibble slices and their bytes, the padding
of odd keys, node plans and how they are read, and the references to children. `TrieDb` has the
functions of that library which the codec and the streaming encoder meet, as a parameter with the
laws that are used of them. `TrieDb.packed` is a library with these laws, two nibbles to a byte.
-/

namespace Brace.Trie

open List

/-- A nibble, half a byte. -/
abbrev Nibble := Fin 16

/-- The hash function of a trie. -/
structure Hasher where
  length : Nat
  hash : List UInt8 → List UInt8
  hash_length : ∀ data, (hash data).length = length

/-! ## Nibbles -/

/-- `NIBBLE_PER_BYTE` -/
def nibblePerByte : Nat := 2

/-- `NIBBLE_LENGTH`, the number of children of a branch. -/
def nibbleLength : Nat := 16

/-- The byte of two nibbles. -/
def packByte (left right : Nibble) : UInt8 := UInt8.ofNat (16 * left.val + right.val)

/-- Two nibbles to a byte; a nibble left over gets a byte of its own. -/
def packNibbles : List Nibble → List UInt8
  | left :: right :: rest => packByte left right :: packNibbles rest
  | [last] => [packByte 0 last]
  | [] => []

/-- `Partial`: the number of nibbles of the first byte, that byte, and the other bytes. -/
structure Partial where
  /-- The number of nibbles in `first`: one or none. -/
  encoded : Nat
  /-- The byte with an odd nibble. -/
  first : UInt8
  bytes : List UInt8

/-! ## Plans and nodes -/

/-- `NibbleSlicePlan` -/
structure NibbleSlicePlan where
  bytes : Range
  /-- The number of nibbles to leave out at the start. -/
  offset : Nat
deriving DecidableEq

/-- `NodeHandlePlan` -/
inductive NodeHandlePlan
  | hash (range : Range)
  | inline (range : Range)
deriving DecidableEq

/-- `NodePlan`, without the kinds of nodes that this codec never makes. -/
inductive NodePlan
  | empty
  | leaf (nibbles : NibbleSlicePlan) (value : Range)
  | nibbledBranch (nibbles : NibbleSlicePlan) (value : Option Range)
      (children : List (Option NodeHandlePlan))
deriving DecidableEq

/-- `ChildReference` -/
inductive ChildReference
  | hash (out : List UInt8)
  /-- The child itself: the first bytes of the buffer, up to its length. -/
  | inline (bytes : List UInt8)
deriving DecidableEq

/-- `Node`: the parts of a node. -/
inductive Node
  | empty
  | leaf (nibbles : List Nibble) (value : List UInt8)
  | nibbledBranch (nibbles : List Nibble) (value : Option (List UInt8))
      (children : List (Option ChildReference))
deriving DecidableEq

/-- The reference that a plan of a child reads in the data. -/
def NodeHandlePlan.read (data : List UInt8) : NodeHandlePlan → ChildReference
  | .hash range => .hash (range.read data)
  | .inline range => .inline (range.read data)

/-! ## The library -/

/-- The functions of the trie library, and what is used of them. -/
structure TrieDb where
  /-- `nibble_ops::pad_left`: keep the left nibble of a byte. -/
  padLeft : UInt8 → UInt8
  /-- `nibble_ops::pad_right`: keep the right nibble of a byte. -/
  padRight : UInt8 → UInt8
  /-- `nibble_ops::number_padding` -/
  numberPadding : Nat → Nat
  /-- `NibbleSlice::right`: the nibbles with the odd one set apart. -/
  right : List Nibble → Partial
  /-- `NibbleSlice::right_iter`: the same bytes in one row. -/
  rightIter : List Nibble → List UInt8
  /-- `NibbleSlicePlan::build` -/
  buildNibbles : List UInt8 → NibbleSlicePlan → List Nibble
  /-- `NodePlan::build`: the parts that a plan reads in the data. -/
  build : List UInt8 → NodePlan → Node
  /-- How the trie database refers to a child with these bytes. -/
  childReference : Hasher → List UInt8 → ChildReference
  /-- The left half of the byte of one nibble is empty. -/
  padLeft_packByte : ∀ nibble, padLeft (packByte 0 nibble) = 0
  /-- The right half of it is the whole byte. -/
  padRight_packByte : ∀ nibble, padRight (packByte 0 nibble) = packByte 0 nibble
  /-- Of an even key no nibble is set apart. -/
  right_even : ∀ nibbles, nibbles.length % 2 = 0 →
    (right nibbles).encoded = 0 ∧ (right nibbles).bytes = packNibbles nibbles
  /-- Of an odd key the first nibble is set apart. -/
  right_odd : ∀ first others, others.length % 2 = 0 →
    right (first :: others) = ⟨1, packByte 0 first, packNibbles others⟩
  /-- The bytes of an even key. -/
  rightIter_even : ∀ nibbles, nibbles.length % 2 = 0 → rightIter nibbles = packNibbles nibbles
  /-- The bytes of an odd key: its first nibble alone, then the packed others. -/
  rightIter_odd : ∀ first others, others.length % 2 = 0 →
    rightIter (first :: others) = packByte 0 first :: packNibbles others
  /-- The bytes of a key without its padding give its nibbles back. -/
  buildNibbles_rightIter : ∀ data range nibbles, range.read data = rightIter nibbles →
    buildNibbles data ⟨range, numberPadding nibbles.length⟩ = nibbles
  /-- The plan of a leaf reads its key and its value. -/
  build_leaf : ∀ data nibbles value,
    build data (.leaf nibbles value) = .leaf (buildNibbles data nibbles) (value.read data)
  /-- The plan of a branch reads its key, its value and its children. -/
  build_branch : ∀ data nibbles value children,
    build data (.nibbledBranch nibbles value children) =
      .nibbledBranch (buildNibbles data nibbles) (value.map (·.read data))
        (children.map (·.map (·.read data)))
  /-- A child is inline when it is shorter than a hash. -/
  childReference_eq : ∀ hasher encoding, childReference hasher encoding =
    if hasher.length ≤ encoding.length then .hash (hasher.hash encoding) else .inline encoding

/-! ## A library with these laws -/

/-- The two nibbles of every byte. -/
def unpackNibbles : List UInt8 → List Nibble
  | [] => []
  | byte :: rest =>
    Fin.ofNat 16 (byte.toNat / 16) :: Fin.ofNat 16 byte.toNat :: unpackNibbles rest

variable {nibbles : List Nibble}

theorem toNat_packByte (left right : Nibble) :
    (packByte left right).toNat = 16 * left.val + right.val := by
  rw [packByte, UInt8.toNat_ofNat']
  omega

theorem unpackNibbles_packNibbles (even : nibbles.length % 2 = 0) :
    unpackNibbles (packNibbles nibbles) = nibbles := by
  induction nibbles using packNibbles.induct with
  | case1 left right rest ih =>
    have tail := ih (by simp only [length_cons] at even; omega)
    rw [packNibbles, unpackNibbles, tail, toNat_packByte]
    congr 1
    · ext
      simp only [Fin.ofNat, Fin.val_mk]
      omega
    · congr 1
      ext
      simp only [Fin.ofNat, Fin.val_mk]
      omega
  | case2 last => simp at even
  | case3 => rfl

theorem nibbles_cases (nibbles : List Nibble) :
    nibbles.length % 2 = 0 ∨ ∃ first others, nibbles = first :: others ∧ others.length % 2 = 0 := by
  cases nibbles with
  | nil => exact .inl rfl
  | cons first others =>
    by_cases even : others.length % 2 = 0
    · exact .inr ⟨first, others, rfl, even⟩
    · refine .inl ?_
      simp only [length_cons]
      omega

namespace TrieDb

/-- `right` of packed nibbles. -/
def packedRight (nibbles : List Nibble) : Partial :=
  match nibbles.length % nibblePerByte, nibbles with
  | 1, first :: rest => ⟨1, packByte 0 first, packNibbles rest⟩
  | _, _ => ⟨0, 0, packNibbles nibbles⟩

/-- The bytes of packed nibbles, an odd one alone at the front. -/
def packedBytes (nibbles : List Nibble) : List UInt8 :=
  let key := packedRight nibbles
  if key.encoded = 1 then key.first :: key.bytes else key.bytes

/-- The nibbles of some bytes, without the first ones. -/
def unpackPlan (data : List UInt8) (plan : NibbleSlicePlan) : List Nibble :=
  (unpackNibbles (plan.bytes.read data)).drop plan.offset

theorem packedRight_even (even : nibbles.length % 2 = 0) :
    packedRight nibbles = ⟨0, 0, packNibbles nibbles⟩ := by
  have none : nibbles.length % nibblePerByte = 0 := even
  simp only [packedRight, none]

theorem packedRight_odd {first : Nibble} {others : List Nibble} (even : others.length % 2 = 0) :
    packedRight (first :: others) = ⟨1, packByte 0 first, packNibbles others⟩ := by
  have odd : (first :: others).length % nibblePerByte = 1 := by
    unfold nibblePerByte
    simp only [length_cons]
    omega
  simp only [packedRight, odd]

/-- Two nibbles to a byte, and an odd one alone in the first byte. -/
def packed : TrieDb where
  padLeft byte := byte &&& 0xF0
  padRight byte := byte &&& 0x0F
  numberPadding count := count % nibblePerByte
  right := packedRight
  rightIter := packedBytes
  buildNibbles := unpackPlan
  build data
    | .empty => .empty
    | .leaf nibbles value => .leaf (unpackPlan data nibbles) (value.read data)
    | .nibbledBranch nibbles value children =>
      .nibbledBranch (unpackPlan data nibbles) (value.map (·.read data))
        (children.map (·.map (·.read data)))
  childReference hasher encoding :=
    if hasher.length ≤ encoding.length then .hash (hasher.hash encoding) else .inline encoding
  padLeft_packByte := by decide +kernel
  padRight_packByte := by decide +kernel
  right_even nibbles even := by rw [packedRight_even even]; exact ⟨rfl, rfl⟩
  right_odd first others even := packedRight_odd even
  rightIter_even nibbles even := by rw [packedBytes, packedRight_even even]; rfl
  rightIter_odd first others even := by rw [packedBytes, packedRight_odd even]; rfl
  buildNibbles_rightIter data range nibbles read := by
    rw [unpackPlan, read]
    rcases nibbles_cases nibbles with even | ⟨first, others, rfl, even⟩
    · rw [packedBytes, packedRight_even even]
      simp [unpackNibbles_packNibbles even, nibblePerByte, even]
    · have odd : (first :: others).length % nibblePerByte = 1 := by
        unfold nibblePerByte
        simp only [length_cons]
        omega
      rw [packedBytes, packedRight_odd even, odd]
      simp [unpackNibbles, unpackNibbles_packNibbles even, toNat_packByte]
  build_leaf _ _ _ := rfl
  build_branch _ _ _ _ := rfl
  childReference_eq _ _ := rfl

end TrieDb

end Brace.Trie
