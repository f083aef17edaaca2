import Brace.Allocator.FreeingBump

/-!
# Runs of a client of the allocator

A client allocates, frees what it has allocated and writes into its allocations. The chunks that
were ever taken from the end of the heap are recorded beside the heap, each with its header, its
order and the size requested while it is live. They lie one after the other (`Stacked`), which gives
bounds, disjointness and the sum of their sizes; a call only changes the status of one chunk or adds
one.
-/

namespace Brace.Allocator

open Brace.Lib List

/-- A chunk that was taken from the heap. -/
structure Chunk where
  header : Nat
  order : Order
  /-- The size requested, while the chunk is live. -/
  live : Option Nat
  deriving DecidableEq

namespace Chunk

/-- The bytes of a chunk with its header. -/
def bytes (self : Chunk) : Nat := self.order.size + HEADER_SIZE

/-- The first address after a chunk. -/
def stop (self : Chunk) : Nat := self.header + self.bytes

/-- The bytes that a chunk counts for in the total size. -/
def weight (self : Chunk) : Nat := if self.live.isSome then self.bytes else 0

/-- No address is in both chunks. -/
def Disjoint (left right : Chunk) : Prop := left.stop ≤ right.header ∨ right.stop ≤ left.header

end Chunk

/-- The allocator and its client. -/
structure Client where
  heap : Heap
  chunks : List Chunk

inductive ClientCall where
  | allocate (size : Nat)
  | deallocate (ptr : Nat)
  | write (address : Nat) (value : UInt8)

/-- The chunks after the one with the given header became live or free. -/
def setLive (header : Nat) (live : Option Nat) (chunks : List Chunk) : List Chunk :=
  chunks.map fun chunk => if chunk.header = header then { chunk with live } else chunk

namespace Client

variable (self : Client)

/-- The chunks after a successful allocation: one of them again, or a new one. -/
def taken (header size : Nat) (order : Order) : List Chunk :=
  if self.chunks.any (·.header = header) then setLive header (some size) self.chunks
  else ⟨header, order, some size⟩ :: self.chunks

def step : ClientCall → Except Panic Client
  | .allocate size => do
    let (heap, result) ← self.heap.allocate size
    match result, Order.fromSize size with
    | .ok ptr, .ok order => pure ⟨heap, self.taken (ptr - HEADER_SIZE) size order⟩
    | _, _ => pure { self with heap }
  | .deallocate ptr => do
    let (heap, result) ← self.heap.deallocate ptr
    match result with
    | .ok () => pure ⟨heap, setLive (ptr - HEADER_SIZE) none self.chunks⟩
    | .error _ => pure { self with heap }
  | .write address value =>
    .ok { self with heap := { self.heap with mem := self.heap.mem.putByte address value } }

/-- The client frees only live pointers and writes only inside of what it requested. -/
def Obeys : ClientCall → Prop
  | .allocate _ => True
  | .deallocate ptr => ∃ chunk ∈ self.chunks, chunk.live.isSome ∧ ptr = chunk.header + HEADER_SIZE
  | .write address _ => ∃ chunk ∈ self.chunks, ∃ size ∈ chunk.live,
      chunk.header + HEADER_SIZE ≤ address ∧ address < chunk.header + HEADER_SIZE + size

/-- The end of a chunk that has to be taken from the end of the heap fits into a `u32`. -/
def EndFits : ClientCall → Prop
  | .allocate size => ∀ order, Order.fromSize size = .ok order → self.heap.heads order = .null →
      self.heap.bumper + (order.size + HEADER_SIZE) < 2 ^ 32
  | _ => True

instance (call : ClientCall) : Decidable (self.Obeys call) :=
  match call with
  | .allocate _ => isTrue trivial
  | .deallocate _ => inferInstanceAs (Decidable (∃ chunk ∈ self.chunks, _ ∧ _))
  | .write .. => inferInstanceAs (Decidable (∃ chunk ∈ self.chunks, ∃ size ∈ chunk.live, _ ∧ _))

instance (call : ClientCall) : Decidable (self.EndFits call) :=
  match call with
  | .allocate size =>
    match computed : Order.fromSize size with
    | .error _ => isTrue fun _ same => by
      rw [computed] at same
      cases same
    | .ok order =>
      decidable_of_iff (self.heap.heads order = .null →
        self.heap.bumper + (order.size + HEADER_SIZE) < 2 ^ 32)
        ⟨fun fits _ same => by
          rw [computed] at same
          cases same
          exact fits, fun fits => fits order computed⟩
  | .deallocate _ => isTrue trivial
  | .write _ _ => isTrue trivial

end Client

/-! ## The layout of the chunks -/

/-- Chunks one after the other from `base` to `top`, the last one first. -/
inductive Stacked (base : Nat) : List Chunk → Nat → Prop
  | nil : Stacked base [] base
  | cons {chunks : List Chunk} {top : Nat} (chunk : Chunk) (start : chunk.header = top)
      (below : Stacked base chunks top) : Stacked base (chunk :: chunks) chunk.stop

theorem Chunk.bytes_ge (chunk : Chunk) : 16 ≤ chunk.bytes := by
  have power := Nat.two_pow_pos chunk.order.raw
  unfold Chunk.bytes Order.size MIN_POSSIBLE_ALLOCATION HEADER_SIZE
  omega

namespace Stacked

variable {base top : Nat} {chunks : List Chunk}

theorem base_le (stacked : Stacked base chunks top) : base ≤ top := by
  induction stacked with
  | nil => exact Nat.le_refl _
  | cons chunk start below ih =>
    unfold Chunk.stop
    omega

variable {chunk left right : Chunk}

section

variable (stacked : Stacked base chunks top)

include stacked

theorem mem_bounds (mem : chunk ∈ chunks) : base ≤ chunk.header ∧ chunk.stop ≤ top := by
  induction stacked with
  | nil => cases mem
  | cons last start below ih =>
    have lower := below.base_le
    rcases mem_cons.mp mem with same | earlier
    · subst same
      exact ⟨by omega, Nat.le_refl _⟩
    · have bounds := ih earlier
      unfold Chunk.stop at bounds ⊢
      exact ⟨bounds.1, by omega⟩

theorem header_lt (mem : chunk ∈ chunks) : chunk.header < top := by
  have bounds := stacked.mem_bounds mem
  have bytes := chunk.bytes_ge
  unfold Chunk.stop at bounds
  omega

theorem top_mod : top % 8 = base % 8 := by
  induction stacked with
  | nil => rfl
  | cons last start below ih =>
    unfold Chunk.stop Chunk.bytes Order.size MIN_POSSIBLE_ALLOCATION HEADER_SIZE
    omega

theorem header_mod (mem : chunk ∈ chunks) : chunk.header % 8 = base % 8 := by
  induction stacked with
  | nil => cases mem
  | cons last start below ih =>
    rcases mem_cons.mp mem with same | earlier
    · subst same
      rw [start, below.top_mod]
    · exact ih earlier

theorem pairwise : chunks.Pairwise Chunk.Disjoint := by
  induction stacked with
  | nil => exact List.Pairwise.nil
  | cons last start below ih =>
    refine List.Pairwise.cons (fun other mem => .inr ?_) ih
    have bounds := below.mem_bounds mem
    omega

theorem unique (first : left ∈ chunks) (second : right ∈ chunks)
    (same : left.header = right.header) : left = right := by
  induction stacked with
  | nil => cases first
  | cons last start below ih =>
    rcases mem_cons.mp first with here | there
    · rcases mem_cons.mp second with also | later
      · rw [here, also]
      · have lower := below.header_lt later
        rw [← same, here, start] at lower
        exact absurd lower (Nat.lt_irrefl _)
    · rcases mem_cons.mp second with also | later
      · have lower := below.header_lt there
        rw [same, also, start] at lower
        exact absurd lower (Nat.lt_irrefl _)
      · exact ih there later

theorem eq_or_disjoint (first : left ∈ chunks) (second : right ∈ chunks) :
    left = right ∨ left.Disjoint right := by
  by_cases same : left = right
  · exact .inl same
  · have symmetric : Std.Symm Chunk.Disjoint := ⟨fun _ _ => Or.symm⟩
    exact .inr (stacked.pairwise.forall first second same)

theorem sum_bytes : base + (chunks.map Chunk.bytes).sum = top := by
  induction stacked with
  | nil => rfl
  | cons last start below ih =>
    rw [map_cons, sum_cons, Chunk.stop]
    omega

theorem setLive (header : Nat) (live : Option Nat) :
    Stacked base (Allocator.setLive header live chunks) top := by
  induction stacked with
  | nil => exact .nil
  | cons last start below ih =>
    unfold Allocator.setLive at ih ⊢
    rw [map_cons]
    by_cases same : last.header = header
    · rw [if_pos same]
      exact .cons { last with live } start ih
    · rw [if_neg same]
      exact .cons last start ih

end

end Stacked

/-! ## Changing the status of a chunk -/

section SetLive

variable {chunks : List Chunk} {header : Nat} {live : Option Nat}

variable {chunk : Chunk}

theorem mem_setLive :
    chunk ∈ setLive header live chunks ↔
      (chunk ∈ chunks ∧ chunk.header ≠ header) ∨
        ∃ before ∈ chunks, before.header = header ∧ chunk = { before with live } := by
  unfold setLive
  rw [mem_map]
  constructor
  · rintro ⟨before, mem, rfl⟩
    by_cases same : before.header = header
    · rw [if_pos same]
      exact .inr ⟨before, mem, same, rfl⟩
    · rw [if_neg same]
      exact .inl ⟨mem, same⟩
  · rintro (⟨mem, apart⟩ | ⟨before, mem, same, rfl⟩)
    · exact ⟨chunk, mem, if_neg apart⟩
    · exact ⟨before, mem, if_pos same⟩

theorem setLive_of_absent (header : Nat) (live : Option Nat)
    (absent : ∀ chunk ∈ chunks, chunk.header ≠ header) : setLive header live chunks = chunks := by
  calc setLive header live chunks = chunks.map id :=
        map_congr_left fun chunk mem => if_neg (absent chunk mem)
    _ = chunks := map_id chunks

theorem sum_weight_setLive (live : Option Nat) {base top : Nat}
    (stacked : Stacked base chunks top) (member : chunk ∈ chunks) :
    ((setLive chunk.header live chunks).map Chunk.weight).sum + chunk.weight =
      (chunks.map Chunk.weight).sum + ({ chunk with live } : Chunk).weight := by
  induction stacked with
  | nil => cases member
  | cons last start below ih =>
    rcases mem_cons.mp member with same | earlier
    · subst same
      have rest := setLive_of_absent chunk.header live fun other mem => by
        have lower := below.header_lt mem
        omega
      unfold setLive at rest ⊢
      rw [map_cons, if_pos rfl, rest]
      simp only [map_cons, sum_cons]
      omega
    · have sum := ih earlier
      have lower := below.header_lt earlier
      unfold setLive at sum ⊢
      rw [map_cons, if_neg (by omega)]
      simp only [map_cons, sum_cons]
      omega

end SetLive

end Brace.Allocator
