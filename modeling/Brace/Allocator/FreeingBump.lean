import Brace.Lib.Radix
import Brace.Lib.Run

/-!
# Freeing-bump allocator

`primitives/allocator/src/freeing_bump.rs`: chunks of a power of two, each after a header of eight
bytes, taken from the unallocated end of the memory or from the list of freed chunks of their
order. The lists are linked through the headers, which lie in the memory of the guest.

A `u32` is a natural number whose additions are checked: an overflow is a panic here. The memory is
a size and a function from addresses to bytes. An operation that returns an error may have changed
the allocator, so that the state comes with every result.
-/

namespace Brace.Allocator

open Brace.Lib

/-- `Error` -/
inductive Error where
  | requestedAllocationTooLarge
  | allocatorOutOfSpace
  | other (msg : String)
  deriving DecidableEq

inductive Panic where
  /-- A `u32` that does not hold its value. -/
  | overflow
  /-- The `assert!` on a pointer of a free list. -/
  | assertion
  deriving DecidableEq

/-- Addition of `u32`. -/
def add (left right : Nat) : Except Panic Nat :=
  if left + right < 2 ^ 32 then .ok (left + right) else .error .overflow

/-- `ALIGNMENT` -/
def ALIGNMENT : Nat := 8

/-- `MAX_POSSIBLE_ALLOCATION` -/
def MAX_POSSIBLE_ALLOCATION : Nat := 16777216

/-- `MIN_POSSIBLE_ALLOCATION` -/
def MIN_POSSIBLE_ALLOCATION : Nat := 8

/-- `HEADER_SIZE` -/
def HEADER_SIZE : Nat := 8

/-! ## Memory -/

/-- `Memory` -/
structure Memory where
  size : Nat
  size_lt : size < 2 ^ 32
  bytes : Nat → UInt8

/-- `heap_range`: whether the range lies in the memory. -/
def heapRange (offset length heapLen : Nat) : Option (Nat × Nat) :=
  if offset + length < 2 ^ 32 then
    if offset + length ≤ heapLen then some (offset, offset + length) else none
  else none

namespace Memory

variable (self : Memory)

/-- The eight bytes at an address as a number, least significant first. -/
def word (ptr : Nat) : Nat :=
  low 256 (fun place => (self.bytes (ptr + place)).toNat) 8

/-- The memory with eight bytes changed. -/
def putWord (ptr value : Nat) : Memory :=
  { self with
    bytes := fun address =>
      if ptr ≤ address ∧ address < ptr + 8 then UInt8.ofNat (value / 256 ^ (address - ptr))
      else self.bytes address }

/-- The memory with one byte changed, by the guest. -/
def putByte (address : Nat) (value : UInt8) : Memory :=
  { self with bytes := fun other => if other = address then value else self.bytes other }

/-- `read_le_u64` -/
def readLeU64 (ptr : Nat) : Except Error Nat :=
  match heapRange ptr 8 self.size with
  | some _ => .ok (self.word ptr)
  | none => .error (.other "read out of heap bounds")

/-- `write_le_u64` -/
def writeLeU64 (ptr value : Nat) : Except Error Memory :=
  match heapRange ptr 8 self.size with
  | some _ => .ok (self.putWord ptr value)
  | none => .error (.other "write out of heap bounds")

def zeros (size : Nat) (small : size < 2 ^ 32) : Memory := ⟨size, small, fun _ => 0⟩

end Memory

/-! ## Orders, links and headers -/

/-- `Order`, less than `N`. -/
structure Order where
  raw : Nat
  raw_lt : raw < 22
  deriving DecidableEq

namespace Order

/-- `from_raw` -/
def fromRaw (order : Nat) : Except Error Order :=
  if small : order < 22 then .ok ⟨order, small⟩ else .error (.other "invalid order")

/-- `next_power_of_two`, as the exponent. -/
def nextPowerOfTwo (value : Nat) : Nat := if value ≤ 1 then 0 else (value - 1).log2 + 1

theorem nextPowerOfTwo_le_iff {value exponent : Nat} :
    nextPowerOfTwo value ≤ exponent ↔ value ≤ 2 ^ exponent := by
  have pos := Nat.two_pow_pos exponent
  unfold nextPowerOfTwo
  split
  · omega
  · have log := Nat.log2_lt (n := value - 1) (k := exponent) (by omega)
    omega

/-- The size of a request after clamping. -/
def clamp (size : Nat) :
    Nat := if size < MIN_POSSIBLE_ALLOCATION then MIN_POSSIBLE_ALLOCATION else size

theorem clamped_lt {size : Nat} (small : ¬ MAX_POSSIBLE_ALLOCATION < size) :
    nextPowerOfTwo (clamp size) - 3 < 22 := by
  have bound : nextPowerOfTwo (clamp size) ≤ 24 := by
    rw [nextPowerOfTwo_le_iff]
    unfold clamp MIN_POSSIBLE_ALLOCATION
    unfold MAX_POSSIBLE_ALLOCATION at small
    split <;> omega
  omega

/-- `from_size`: the trailing zeros of the power of two, less those of the smallest size. -/
def fromSize (size : Nat) : Except Error Order :=
  if large : MAX_POSSIBLE_ALLOCATION < size then .error .requestedAllocationTooLarge
  else .ok ⟨nextPowerOfTwo (clamp size) - 3, clamped_lt large⟩

/-- `size` -/
def size (self : Order) : Nat := MIN_POSSIBLE_ALLOCATION * 2 ^ self.raw

theorem clamp_eq (size : Nat) : clamp size = max size 8 := by
  unfold clamp MIN_POSSIBLE_ALLOCATION
  split <;> omega

theorem max_le_size {request : Nat} {order : Order} (computed : fromSize request = .ok order) :
    max request 8 ≤ order.size := by
  unfold fromSize at computed
  split at computed
  · cases computed
  · cases computed
    have reached : clamp request ≤ 2 ^ nextPowerOfTwo (clamp request) :=
      nextPowerOfTwo_le_iff.mp (Nat.le_refl _)
    have clamped := clamp_eq request
    have least : 3 ≤ nextPowerOfTwo (clamp request) := by
      by_contra small
      have bound : clamp request ≤ 2 ^ 2 := nextPowerOfTwo_le_iff.mp (by omega)
      omega
    have power : 2 ^ nextPowerOfTwo (clamp request) =
        8 * 2 ^ (nextPowerOfTwo (clamp request) - 3) := by
      rw [show (8 : Nat) = 2 ^ 3 from rfl, ← pow_add]
      congr 1
      omega
    unfold size MIN_POSSIBLE_ALLOCATION
    rw [← power, ← clamped]
    exact reached

end Order

/-- `EMPTY_MARKER` -/
def EMPTY_MARKER : Nat := 2 ^ 32 - 1

/-- `Link` -/
inductive Link where
  | null
  | ptr (header : Nat)
  deriving DecidableEq

namespace Link

/-- `from_raw` -/
def fromRaw (raw : Nat) : Link := if raw ≠ EMPTY_MARKER then .ptr raw else .null

/-- `into_raw` -/
def intoRaw : Link → Nat
  | .null => EMPTY_MARKER
  | .ptr header => header

end Link

/-- `Header` -/
inductive Header where
  | free (link : Link)
  | occupied (order : Order)
  deriving DecidableEq

namespace Header

/-- The header that eight bytes stand for: the bit above the lower half says whether the chunk is
occupied. -/
def ofWord (raw : Nat) : Except Error Header :=
  if raw / 2 ^ 32 % 2 ≠ 0 then do
    let order ← Order.fromRaw (raw % 2 ^ 32)
    pure (.occupied order)
  else pure (.free (Link.fromRaw (raw % 2 ^ 32)))

def toWord : Header → Nat
  | .occupied order => 2 ^ 32 + order.raw
  | .free link => link.intoRaw

/-- `read_from` -/
def readFrom (memory : Memory) (headerPtr : Nat) : Except Error Header := do
  let raw ← memory.readLeU64 headerPtr
  ofWord raw

/-- `write_into` -/
def writeInto (self : Header) (memory : Memory) (headerPtr : Nat) : Except Error Memory :=
  memory.writeLeU64 headerPtr self.toWord

/-- `into_occupied`, and the error of `deallocate`. -/
def intoOccupied : Header → Except Error Order
  | .occupied order => .ok order
  | .free _ => .error (.other "the allocation points to an empty header")

/-- `into_free`, and the error of `allocate`. -/
def intoFree : Header → Except Error Link
  | .free link => .ok link
  | .occupied _ => .error (.other "free list points to a occupied header")

end Header

/-! ## The allocator -/

/-- `FreeingBumpHeapAllocator`, with the memory it works on. -/
structure Heap where
  bumper : Nat
  /-- `free_lists` -/
  heads : Order → Link
  totalSize : Nat
  mem : Memory

namespace Heap

/-- `new` -/
def new (heapBase : Nat) (mem : Memory) : Except Panic Heap := do
  let sum ← add heapBase ALIGNMENT
  pure { bumper := (sum - 1) / ALIGNMENT * ALIGNMENT, heads := fun _ => .null, totalSize := 0, mem }

variable (self : Heap)

/-- `bump`: the pointer and the bumper after it. -/
def bump (size : Nat) : Except Panic (Except Error (Nat × Nat)) := do
  let sum ← add self.bumper size
  if self.mem.size < sum then pure (.error .allocatorOutOfSpace) else pure (.ok (self.bumper, sum))

/-- The end of `allocate`: write the header and count the chunk. -/
def occupy (order : Order) (headerPtr : Nat) : Except Panic (Heap × Except Error Nat) :=
  match (Header.occupied order).writeInto self.mem headerPtr with
  | .error error => .ok (self, .error error)
  | .ok mem => do
    let chunk ← add order.size HEADER_SIZE
    let totalSize ← add self.totalSize chunk
    let ptr ← add headerPtr HEADER_SIZE
    pure ({ self with mem, totalSize }, .ok ptr)

/-- The branch of `allocate` for a list of freed chunks that is not empty. -/
def allocateFreed (order : Order) (headerPtr : Nat) : Except Panic (Heap × Except Error Nat) := do
  let sum ← add headerPtr order.size
  let sum ← add sum HEADER_SIZE
  if self.mem.size < sum then throw .assertion
  else
    match Header.readFrom self.mem headerPtr >>= Header.intoFree with
    | .error error => pure (self, .error error)
    | .ok nextFree =>
      occupy { self with heads := Function.update self.heads order nextFree } order headerPtr

/-- The branch of `allocate` that takes a new chunk. -/
def allocateBumped (order : Order) : Except Panic (Heap × Except Error Nat) := do
  let chunk ← add order.size HEADER_SIZE
  match ← self.bump chunk with
  | .error error => pure (self, .error error)
  | .ok (headerPtr, bumper) => occupy { self with bumper } order headerPtr

/-- `allocate` -/
def allocate (size : Nat) : Except Panic (Heap × Except Error Nat) :=
  match Order.fromSize size with
  | .error error => .ok (self, .error error)
  | .ok order =>
    match self.heads order with
    | .ptr headerPtr => self.allocateFreed order headerPtr
    | .null => self.allocateBumped order

/-- The end of `deallocate`: the total size after the chunk. -/
def uncount (order : Order) : Except Panic (Heap × Except Error Unit) := do
  let chunk ← add order.size HEADER_SIZE
  if chunk ≤ self.totalSize then pure ({ self with totalSize := self.totalSize - chunk }, .ok ())
  else pure (self, .error (.other "Unable to subtract from total heap size without overflow"))

/-- `deallocate` -/
def deallocate (ptr : Nat) : Except Panic (Heap × Except Error Unit) :=
  if ptr < HEADER_SIZE then .ok (self, .error (.other "Invalid pointer for deallocation"))
  else
    let headerPtr := ptr - HEADER_SIZE
    match Header.readFrom self.mem headerPtr >>= Header.intoOccupied with
    | .error error => .ok (self, .error error)
    | .ok order =>
      let prevHead := self.heads order
      let self := { self with heads := Function.update self.heads order (.ptr headerPtr) }
      match (Header.free prevHead).writeInto self.mem headerPtr with
      | .error error => .ok (self, .error error)
      | .ok mem => uncount { self with mem } order

/-! ## Closed forms -/

variable {left right ptr headerPtr size : Nat} {mem : Memory} {self : Heap} {order : Order}

theorem add_eq (fits : left + right < 2 ^ 32) : add left right = .ok (left + right) := if_pos fits

theorem add_eq_error (large : 2 ^ 32 ≤ left + right) :
    add left right = .error .overflow := if_neg (by omega)

theorem size_lt (order : Order) : order.size + HEADER_SIZE < 2 ^ 25 := by
  have power : 2 ^ order.raw ≤ 2 ^ 21 :=
    Nat.pow_le_pow_right (by decide) (Nat.le_of_lt_succ order.raw_lt)
  unfold Order.size HEADER_SIZE MIN_POSSIBLE_ALLOCATION
  omega

theorem heapRange_eq (inside : ptr + 8 ≤ mem.size) :
    heapRange ptr 8 mem.size = some (ptr, ptr + 8) := by
  have bound := mem.size_lt
  rw [heapRange, if_pos (by omega), if_pos inside]

theorem readFrom_eq (inside : ptr + 8 ≤ mem.size) :
    Header.readFrom mem ptr = Header.ofWord (mem.word ptr) := by
  rw [Header.readFrom, Memory.readLeU64, heapRange_eq inside]
  simp only [ok_bind]

theorem writeInto_eq (header : Header) (inside : ptr + 8 ≤ mem.size) :
    header.writeInto mem ptr = .ok (mem.putWord ptr header.toWord) := by
  rw [Header.writeInto, Memory.writeLeU64, heapRange_eq inside]

/-- The heap after a chunk was occupied. -/
def occupied (self : Heap) (order : Order) (headerPtr : Nat) : Heap :=
  { self with
    mem := self.mem.putWord headerPtr (Header.occupied order).toWord
    totalSize := self.totalSize + (order.size + HEADER_SIZE) }

theorem occupy_eq (mem : headerPtr + 8 ≤ self.mem.size) :
    self.occupy order headerPtr =
      if self.totalSize + (order.size + HEADER_SIZE) < 2 ^ 32 then
        .ok (self.occupied order headerPtr, .ok (headerPtr + HEADER_SIZE))
      else .error .overflow := by
  have chunk := size_lt order
  have bound := self.mem.size_lt
  have header : headerPtr + HEADER_SIZE < 2 ^ 32 := by
    unfold HEADER_SIZE
    omega
  rw [occupy, writeInto_eq _ mem]
  simp only
  rw [add_eq (by omega), ok_bind]
  by_cases fits : self.totalSize + (order.size + HEADER_SIZE) < 2 ^ 32
  · rw [if_pos fits, add_eq fits, ok_bind, add_eq header, ok_bind]
    rfl
  · rw [if_neg fits, add_eq_error (by omega), error_bind]

theorem allocateFreed_eq (mem : headerPtr + (order.size + HEADER_SIZE) ≤ self.mem.size) :
    self.allocateFreed order headerPtr =
      match Header.ofWord (self.mem.word headerPtr) >>= Header.intoFree with
      | .error error => .ok (self, .error error)
      | .ok nextFree =>
        occupy { self with heads := Function.update self.heads order nextFree } order
          headerPtr := by
  have bound := self.mem.size_lt
  have header : HEADER_SIZE = 8 := rfl
  rw [allocateFreed, add_eq (by omega), ok_bind, add_eq (by omega), ok_bind, if_neg (by omega),
    readFrom_eq (by omega)]
  cases Header.ofWord (self.mem.word headerPtr) >>= Header.intoFree <;> rfl

theorem allocateFreed_eq_error (outside : self.mem.size < headerPtr + (order.size + HEADER_SIZE)) :
    ∃ panic, self.allocateFreed order headerPtr = .error panic := by
  rw [allocateFreed]
  by_cases first : headerPtr + order.size < 2 ^ 32
  · rw [add_eq first, ok_bind]
    by_cases second : headerPtr + order.size + HEADER_SIZE < 2 ^ 32
    · refine ⟨.assertion, ?_⟩
      rw [add_eq second, ok_bind, if_pos (by omega)]
      rfl
    · exact ⟨.overflow, by rw [add_eq_error (by omega), error_bind]⟩
  · exact ⟨.overflow, by rw [add_eq_error (by omega), error_bind]⟩

theorem allocateBumped_eq (fits : self.bumper + (order.size + HEADER_SIZE) < 2 ^ 32) :
    self.allocateBumped order =
      if self.mem.size < self.bumper + (order.size + HEADER_SIZE) then
        .ok (self, .error .allocatorOutOfSpace)
      else occupy { self with bumper := self.bumper + (order.size + HEADER_SIZE) } order
        self.bumper := by
  have chunk := size_lt order
  rw [allocateBumped, add_eq (by omega), ok_bind, bump, add_eq fits, ok_bind]
  by_cases large : self.mem.size < self.bumper + (order.size + HEADER_SIZE)
  · rw [if_pos large, if_pos large]
    rfl
  · rw [if_neg large, if_neg large]
    rfl

theorem allocateBumped_eq_error (large : 2 ^ 32 ≤ self.bumper + (order.size + HEADER_SIZE)) :
    self.allocateBumped order = .error .overflow := by
  have chunk := size_lt order
  rw [allocateBumped, add_eq (by omega), ok_bind, bump, add_eq_error large, error_bind, error_bind]

theorem allocate_of_error {error : Error} (computed : Order.fromSize size = .error error) :
    self.allocate size = .ok (self, .error error) := by
  rw [allocate, computed]

theorem allocate_of_ptr
    (computed : Order.fromSize size = .ok order) (head : self.heads order = .ptr headerPtr) :
    self.allocate size = self.allocateFreed order headerPtr := by
  rw [allocate, computed]
  simp only [head]

theorem allocate_of_null (computed : Order.fromSize size = .ok order)
    (head : self.heads order = .null) : self.allocate size = self.allocateBumped order := by
  rw [allocate, computed]
  simp only [head]

theorem uncount_eq (self : Heap) (order : Order) :
    self.uncount order = .ok (if order.size + HEADER_SIZE ≤ self.totalSize then
      ({ self with totalSize := self.totalSize - (order.size + HEADER_SIZE) }, .ok ())
      else (self, .error (.other "Unable to subtract from total heap size without overflow"))) := by
  have chunk := size_lt order
  rw [uncount, add_eq (by omega), ok_bind]
  split <;> rfl

theorem deallocate_eq (inside : headerPtr + 8 ≤ self.mem.size)
    (read : Header.ofWord (self.mem.word headerPtr) = .ok (.occupied order)) :
    self.deallocate (headerPtr + HEADER_SIZE) =
      uncount { self with
        heads := Function.update self.heads order (.ptr headerPtr)
        mem := self.mem.putWord headerPtr (Header.free (self.heads order)).toWord } order := by
  have above : ¬ headerPtr + HEADER_SIZE < HEADER_SIZE := by omega
  rw [deallocate, if_neg above]
  simp only [Nat.add_sub_cancel, readFrom_eq inside, read, ok_bind, Header.intoOccupied]
  rw [writeInto_eq _ inside]

end Heap

end Brace.Allocator
