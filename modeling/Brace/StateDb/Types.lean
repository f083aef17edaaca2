import Brace.Lib.HashMap
import Brace.Lib.Radix

/-!
# Change sets, metadata keys and the backing database

The types that the canonicalization window and the pruning window share. Block hashes and node keys
stay abstract, as in `client/state-db/src/lib.rs`; block numbers, journal indexes and counters are
naturals here and `u64` or `u32` in the program.

Metadata is kept decoded. A metadata key of the source is the SCALE encoding of its data and a
constant suffix (`to_meta_key`); the constructors of `MetaKey` name these strings, `MetaKey.bytes`
spells them out, and keys with `u64` data are equal exactly when their bytes are
(`bytes_injective`). The encoding of a `u64` is that of the SCALE crate, of which only `U64Codec`
is used. Metadata values are records; reading one record type at the place of another
is a decoding error.
-/

namespace Brace.StateDb

open Brace.Lib List

/-- `DBValue`, the bytes of a trie node. -/
abbrev DBValue := List UInt8

/-- `Error`, without the backend's own errors: the modelled database never fails a read. -/
inductive Error
  | decoding
  | invalidBlock
  | invalidBlockNumber
  | invalidParent
  /-- Invalid pruning mode specified. Contains expected mode. -/
  | invalidPruningMode (mode : List UInt8)
  deriving DecidableEq

/-- The ways an operation ends without returning. -/
inductive Panic
  /-- "there is a parent entry for each entry in levels; qed" -/
  | parentEntry
  /-- "number is [front_block_number .. front_block_number + levels.len()) is asserted in
  precondition; qed" -/
  | numberRange
  /-- "For each key in overlays there's a value in values" -/
  | missingValue
  /-- "Hash validity is checked in `canonicalize`" -/
  | hashValidity
  /-- "Hash is added in `insert` in reverse order" -/
  | lastInLevel
  /-- "Hash is added in insert" -/
  | hashAdded
  /-- A parent chain that never ends. -/
  | endless
  /-- An index into the death rows that is out of range. -/
  | deathRow
  /-- "pending_prunings is always < death_rows.len()" -/
  | pendingPrunings
  deriving DecidableEq

/-- `ChangeSet`, inserted entries and deleted keys of one table. -/
structure ChangeSet (Key Value : Type) where
  inserted : List (Key × Value) := []
  deleted : List Key := []
  deriving DecidableEq

/-! ## Metadata keys -/

/-- The metadata keys written by the state database. -/
inductive MetaKey
  /-- `to_meta_key(LAST_CANONICAL, &())` -/
  | lastCanonical
  /-- `to_meta_key(NON_CANONICAL_JOURNAL, &(block, index))` -/
  | noncanonicalJournal (block index : Nat)
  /-- `to_meta_key(LAST_PRUNED, &())` -/
  | lastPruned
  /-- `to_meta_key(PRUNING_JOURNAL, &block)` -/
  | pruningJournal (block : Nat)
  /-- `to_meta_key(PRUNING_MODE, &())` -/
  | pruningMode
  deriving DecidableEq

/-- A coding of `u64` values: eight bytes, distinct for distinct values. -/
structure U64Codec where
  encode : Nat → List UInt8
  encode_length : ∀ word < 2 ^ 64, (encode word).length = 8
  encode_injective : ∀ left < 2 ^ 64, ∀ right < 2 ^ 64, encode left = encode right → left = right

/-- Eight little-endian bytes. -/
def U64Codec.littleEndian : U64Codec where
  encode word := (List.range 8).map fun place => UInt8.ofNat (word / 256 ^ place % 256)
  encode_length _ _ := by simp
  encode_injective left leftFits right rightFits same := by
    have byte : ∀ place < 8, left / 256 ^ place % 256 = right / 256 ^ place % 256 := by
      intro place mem
      have entry := congrArg (fun bytes => bytes[place]?) same
      simp only [List.getElem?_map, List.getElem?_range mem, Option.map_some,
        Option.some.injEq] at entry
      have values := congrArg UInt8.toNat entry
      simpa using values
    have whole : ∀ word < 2 ^ 64, low 256 (fun place => word / 256 ^ place % 256) 8 = word :=
      fun word fits => (low_digits 256 word 8).trans (Nat.mod_eq_of_lt fits)
    rw [← whole left leftFits, ← whole right rightFits]
    exact low_congr byte

/-- `to_meta_key`, the encoded data followed by the suffix. -/
def toMetaKey (suffix : String) (data : List UInt8) : List UInt8 :=
  data ++ suffix.toUTF8.toList

variable (codec : U64Codec)

/-- The byte string that each key stands for. -/
def MetaKey.bytes : MetaKey → List UInt8
  | lastCanonical => toMetaKey "last_canonical" []
  | noncanonicalJournal block index =>
    toMetaKey "noncanonical_journal" (codec.encode block ++ codec.encode index)
  | lastPruned => toMetaKey "last_pruned" []
  | pruningJournal block => toMetaKey "pruning_journal" (codec.encode block)
  | pruningMode => toMetaKey "mode" []

/-- The numbers of a key are `u64` values. -/
def MetaKey.InRange : MetaKey → Prop
  | noncanonicalJournal block index => block < 2 ^ 64 ∧ index < 2 ^ 64
  | pruningJournal block => block < 2 ^ 64
  | _ => True

theorem MetaKey.bytes_length (key : MetaKey) (fits : key.InRange) : (key.bytes codec).length =
    match key with
    | lastCanonical => 14
    | noncanonicalJournal _ _ => 36
    | lastPruned => 11
    | pruningJournal _ => 23
    | pruningMode => 4 := by
  cases key with
  | noncanonicalJournal block index =>
    simp only [bytes, toMetaKey, length_append, codec.encode_length _ fits.1,
      codec.encode_length _ fits.2]
    decide +kernel
  | pruningJournal block =>
    simp only [bytes, toMetaKey, length_append, codec.encode_length _ fits]
    decide +kernel
  | lastCanonical | lastPruned | pruningMode =>
    simp only [bytes, toMetaKey]
    decide +kernel

/-- **A structured key and its byte string name the same entry.** -/
theorem MetaKey.bytes_injective (left right : MetaKey) (leftFits : left.InRange)
    (rightFits : right.InRange) (same : left.bytes codec = right.bytes codec) : left = right := by
  have lengths := congrArg List.length same
  rw [left.bytes_length codec leftFits, right.bytes_length codec rightFits] at lengths
  cases left <;> cases right <;> simp only [Nat.reduceEqDiff] at lengths <;> try rfl
  · rename_i block index block' index'
    have data := append_cancel_right same
    have parts := append_inj data (by
      rw [codec.encode_length _ leftFits.1, codec.encode_length _ rightFits.1])
    rw [codec.encode_injective _ leftFits.1 _ rightFits.1 parts.1,
      codec.encode_injective _ leftFits.2 _ rightFits.2 parts.2]
  · rename_i block block'
    rw [codec.encode_injective _ leftFits _ rightFits (append_cancel_right same)]

/-- Equal bytes are one journal key, and swapped numbers are two. -/
theorem MetaKey.bytes_injective_journal :
    noncanonicalJournal (2 + 3) 0 = noncanonicalJournal 5 0 ∧
      (noncanonicalJournal 5 0).bytes .littleEndian ≠
        (noncanonicalJournal 0 5).bytes .littleEndian := by
  have key := bytes_injective .littleEndian (noncanonicalJournal 5 0)
  refine ⟨key _ (by simp [InRange]) (by simp [InRange]) rfl, fun same => ?_⟩
  cases key _ (by simp [InRange]) (by simp [InRange]) same

/-! ## Metadata values -/

variable (BlockHash Key : Type)

/-- `noncanonical::JournalRecord`, one block of the canonicalization window. -/
structure BlockRecord where
  hash : BlockHash
  parentHash : BlockHash
  inserted : List (Key × DBValue)
  deleted : List Key
  deriving DecidableEq

/-- `pruning::JournalRecord`, one block of the pruning window. -/
structure PruningRecord where
  hash : BlockHash
  inserted : List Key
  deleted : List Key
  deriving DecidableEq

/-- A decoded metadata value. -/
inductive MetaValue
  | canonicalized (hash : BlockHash) (number : Nat)
  | block (record : BlockRecord BlockHash Key)
  | pruned (number : Nat)
  | pruning (record : PruningRecord BlockHash Key)
  | mode (id : List UInt8)
  deriving DecidableEq

variable {BlockHash Key : Type}

/-- Read a value as the last canonicalized block. -/
def MetaValue.decodeCanonicalized : MetaValue BlockHash Key → Except Error (BlockHash × Nat)
  | canonicalized hash number => .ok (hash, number)
  | _ => .error .decoding

/-- Read a value as a block of the canonicalization window. -/
def MetaValue.decodeBlock : MetaValue BlockHash Key → Except Error (BlockRecord BlockHash Key)
  | block record => .ok record
  | _ => .error .decoding

/-- Read a value as the number of the last pruned block. -/
def MetaValue.decodePruned : MetaValue BlockHash Key → Except Error Nat
  | pruned number => .ok number
  | _ => .error .decoding

/-- Read a value as a block of the pruning window. -/
def MetaValue.decodePruning : MetaValue BlockHash Key → Except Error (PruningRecord BlockHash Key)
  | pruning record => .ok record
  | _ => .error .decoding

/-! ## Commits -/

/-- `CommitSet`, the changes of one operation to the backing database. -/
structure CommitSet (BlockHash Key : Type) where
  data : ChangeSet Key DBValue := {}
  metadata : ChangeSet MetaKey (MetaValue BlockHash Key) := {}
  deriving DecidableEq

/-- The backing database: the trie nodes and the metadata. -/
structure Db (BlockHash Key : Type) where
  data : HashMap Key DBValue := ∅
  metadata : HashMap MetaKey (MetaValue BlockHash Key) := ∅

/-- `apply_state_commit`: for each table the insertions, then the deletions. -/
def Db.commit [DecidableEq Key] (db : Db BlockHash Key) (commit : CommitSet BlockHash Key) :
    Db BlockHash Key where
  data := HashMap.eraseAll (HashMap.insertAll db.data commit.data.inserted) commit.data.deleted
  metadata := HashMap.eraseAll (HashMap.insertAll db.metadata commit.metadata.inserted)
    commit.metadata.deleted

end Brace.StateDb
