import Brace.Allocator.FreeingBump

/-!
# The allocator and a hostile guest

The guest owns the memory that the headers and the links of the free lists lie in: between two calls
it may write anywhere, and it may free any pointer. `robust_iff` says, for every state of allocator
and memory, every call and every run, when the calls return and the pointers are in the memory.
`deallocate` always returns. `allocate` panics when the head of a free list points outside of the
memory, which a forged link achieves, and when the end of a new chunk or the total size overflows.
-/

namespace Brace.Allocator

open Brace.Lib Header

inductive GuestCall where
  | allocate (size : Nat)
  | deallocate (ptr : Nat)
  | write (address : Nat) (value : UInt8)
  deriving DecidableEq

namespace Heap

variable (self : Heap)

def guestStep : GuestCall → Except Panic Heap
  | .allocate size => do
    let (heap, _) ← self.allocate size
    pure heap
  | .deallocate ptr => do
    let (heap, _) ← self.deallocate ptr
    pure heap
  | .write address value => .ok { self with mem := self.mem.putByte address value }

/-- The call returns, and a pointer it returns leaves room for the order's size in the memory. -/
def Robust : GuestCall → Prop
  | .allocate size => ∃ next result, self.allocate size = .ok (next, result) ∧
      ∀ order, Order.fromSize size = .ok order → ∀ ptr, result = .ok ptr →
        ptr + order.size ≤ self.mem.size
  | .deallocate ptr => ∃ next result, self.deallocate ptr = .ok (next, result)
  | .write _ _ => True

/-- A chunk can be counted. -/
def CanCount (order : Order) : Prop :=
  self.totalSize + (order.size + HEADER_SIZE) < 2 ^ 32

/-- The free list of the order starts with a chunk in the memory; when the list is empty, the end
of a new chunk does not overflow. When the chunk is then taken, it can be counted. -/
def Admissible : GuestCall → Prop
  | .allocate size => ∀ order, Order.fromSize size = .ok order →
      match self.heads order with
      | .ptr headerPtr => headerPtr + (order.size + HEADER_SIZE) ≤ self.mem.size ∧
          (self.mem.word headerPtr / 2 ^ 32 % 2 = 0 → self.CanCount order)
      | .null => self.bumper + (order.size + HEADER_SIZE) < 2 ^ 32 ∧
          (self.bumper + (order.size + HEADER_SIZE) ≤ self.mem.size → self.CanCount order)
  | .deallocate _ => True
  | .write _ _ => True

/-- Every call of a run is robust in the state before it. -/
def RunsRobustly (self : Heap) : List GuestCall → Prop
  | [] => True
  | call :: rest => self.Robust call ∧ ∃ next, self.guestStep call = .ok next ∧
      next.RunsRobustly rest

/-- Every call of a run is admissible in the state before it. -/
def RunsAdmissibly (self : Heap) : List GuestCall → Prop
  | [] => True
  | call :: rest => self.Admissible call ∧ ∀ next, self.guestStep call = .ok next →
      next.RunsAdmissibly rest

theorem intoFree_eq_ok (raw : Nat) :
    (∃ link, (ofWord raw >>= intoFree) = .ok link) ↔ raw / 2 ^ 32 % 2 = 0 := by
  unfold ofWord
  by_cases free : raw / 2 ^ 32 % 2 = 0
  · rw [if_neg (by simpa using free)]
    exact ⟨fun _ => free, fun _ => ⟨_, rfl⟩⟩
  · rw [if_pos free]
    refine ⟨fun ⟨link, ran⟩ => ?_, fun same => absurd same free⟩
    obtain ⟨header, read, ran⟩ := bind_eq_ok.mp ran
    obtain ⟨order, _, read⟩ := bind_eq_ok.mp read
    cases read
    cases ran

variable {order : Order} {headerPtr : Nat} {self : Heap}

theorem occupy_robust (self heap : Heap)
    (inside : headerPtr + (order.size + HEADER_SIZE) ≤ self.mem.size)
    (mem : heap.mem = self.mem) (total : heap.totalSize = self.totalSize) :
    (∃ next result, heap.occupy order headerPtr = .ok (next, result) ∧
      ∀ ptr, result = .ok ptr → ptr + order.size ≤ self.mem.size) ↔ self.CanCount order := by
  have header : HEADER_SIZE = 8 := rfl
  rw [occupy_eq (by rw [mem]; omega), total]
  unfold CanCount
  by_cases fits : self.totalSize + (order.size + HEADER_SIZE) < 2 ^ 32
  · rw [if_pos fits]
    refine ⟨fun _ => fits, fun _ => ⟨_, _, rfl, fun ptr same => ?_⟩⟩
    cases same
    omega
  · rw [if_neg fits]
    refine ⟨fun ⟨_, _, ran, _⟩ => ?_, fun small => absurd small fits⟩
    cases ran

theorem deallocate_returns (self : Heap) (ptr : Nat) :
    ∃ next result, self.deallocate ptr = .ok (next, result) := by
  unfold deallocate
  split
  · exact ⟨_, _, rfl⟩
  · simp only
    split
    · exact ⟨_, _, rfl⟩
    · split
      · exact ⟨_, _, rfl⟩
      · rw [uncount_eq]
        exact ⟨_, _, rfl⟩

theorem allocateFreed_robust :
    (∃ next result, self.allocateFreed order headerPtr = .ok (next, result) ∧
      ∀ ptr, result = .ok ptr → ptr + order.size ≤ self.mem.size) ↔
    headerPtr + (order.size + HEADER_SIZE) ≤ self.mem.size ∧
      (self.mem.word headerPtr / 2 ^ 32 % 2 = 0 → self.CanCount order) := by
  rcases Nat.lt_or_ge self.mem.size (headerPtr + (order.size + HEADER_SIZE)) with outside | mem
  · obtain ⟨panic, failed⟩ := allocateFreed_eq_error outside
    rw [failed]
    refine ⟨fun ⟨_, _, ran, _⟩ => ?_, fun ⟨less, _⟩ => ?_⟩
    · cases ran
    · omega
  · rw [allocateFreed_eq mem, ← intoFree_eq_ok]
    cases popped : ofWord (self.mem.word headerPtr) >>= intoFree with
    | error error =>
      refine ⟨fun _ => ⟨mem, fun ⟨link, same⟩ => ?_⟩, fun _ => ⟨_, _, rfl, fun ptr same => ?_⟩⟩
      · cases same
      · cases same
    | ok nextFree =>
      simp only
      refine (occupy_robust self _ mem ?_ ?_).trans ?_
      · rfl
      · rfl
      · exact ⟨fun fits => ⟨mem, fun _ => fits⟩, fun both => both.2 ⟨nextFree, rfl⟩⟩

theorem allocateBumped_robust :
    (∃ next result, self.allocateBumped order = .ok (next, result) ∧
      ∀ ptr, result = .ok ptr → ptr + order.size ≤ self.mem.size) ↔
    self.bumper + (order.size + HEADER_SIZE) < 2 ^ 32 ∧
      (self.bumper + (order.size + HEADER_SIZE) ≤ self.mem.size → self.CanCount order) := by
  rcases Nat.lt_or_ge (self.bumper + (order.size + HEADER_SIZE)) (2 ^ 32) with fits | large
  · rw [allocateBumped_eq fits]
    by_cases full : self.mem.size < self.bumper + (order.size + HEADER_SIZE)
    · rw [if_pos full]
      refine ⟨fun _ => ⟨fits, fun room => ?_⟩, fun _ => ⟨_, _, rfl, fun ptr same => ?_⟩⟩
      · omega
      · cases same
    · have room : self.bumper + (order.size + HEADER_SIZE) ≤ self.mem.size := by omega
      rw [if_neg full]
      refine (occupy_robust self _ room ?_ ?_).trans ?_
      · rfl
      · rfl
      · exact ⟨fun small => ⟨fits, fun _ => small⟩, fun both => both.2 room⟩
  · rw [allocateBumped_eq_error large]
    refine ⟨fun ⟨_, _, ran, _⟩ => ?_, fun ⟨less, _⟩ => ?_⟩
    · cases ran
    · omega

theorem call_robust_iff (self : Heap) (call : GuestCall) :
    self.Robust call ↔ self.Admissible call := by
  cases call with
  | write address value => exact Iff.rfl
  | deallocate ptr => exact ⟨fun _ => trivial, fun _ => deallocate_returns self ptr⟩
  | allocate size =>
    cases computed : Order.fromSize size with
    | error error =>
      simp only [Robust, Admissible, allocate_of_error computed, computed]
      refine ⟨fun _ order same => ?_, fun _ => ⟨_, _, rfl, fun order same => ?_⟩⟩
      · cases same
      · cases same
    | ok order =>
      cases head : self.heads order with
      | ptr headerPtr =>
        simp only [Robust, Admissible, allocate_of_ptr computed head, computed, Except.ok.injEq,
          forall_eq', head]
        exact allocateFreed_robust
      | null =>
        simp only [Robust, Admissible, allocate_of_null computed head, computed, Except.ok.injEq,
          forall_eq', head]
        exact allocateBumped_robust

theorem Robust.returns {call : GuestCall} (robust : self.Robust call) :
    ∃ next, self.guestStep call = .ok next := by
  cases call with
  | write address value => exact ⟨_, rfl⟩
  | deallocate ptr =>
    obtain ⟨next, result, ran⟩ := robust
    exact ⟨next, by rw [guestStep, ran, ok_bind]; rfl⟩
  | allocate size =>
    obtain ⟨next, result, ran, -⟩ := robust
    exact ⟨next, by rw [guestStep, ran, ok_bind]; rfl⟩

/-- **When the guest is harmless**: for every state of allocator and memory, a call is robust
exactly when it is admissible, and every call of a run is exactly when each is in the state before
it. -/
theorem robust_iff (self : Heap) :
    (∀ call, self.Robust call ↔ self.Admissible call) ∧
      ∀ calls, self.RunsRobustly calls ↔ self.RunsAdmissibly calls := by
  refine ⟨call_robust_iff self, fun calls => ?_⟩
  induction calls generalizing self with
  | nil => exact Iff.rfl
  | cons call rest ih =>
    constructor
    · rintro ⟨robust, next, ran, later⟩
      refine ⟨(call_robust_iff self call).mp robust, fun other again => ?_⟩
      obtain rfl := Except.ok.inj (ran.symm.trans again)
      exact (ih next).mp later
    · rintro ⟨admissible, later⟩
      have robust := (call_robust_iff self call).mpr admissible
      obtain ⟨next, ran⟩ := robust.returns
      exact ⟨robust, next, ran, (ih next).mpr (later next ran)⟩

/-- An allocator at the start of a memory of 64 zeros. -/
def smallHeap : Heap :=
  { bumper := 0, heads := fun _ => .null, totalSize := 0, mem := Memory.zeros 64 (by decide) }

/-- The guest frees a chunk, writes a link into its header and allocates twice. -/
theorem forged_link_panics :
    Heap.new 0 (Memory.zeros 64 (by decide)) = .ok smallHeap ∧
      ∃ heap, Reachable guestStep (fun _ _ => True) smallHeap heap ∧
        ¬ heap.Robust (.allocate 8) := by
  refine ⟨rfl, exists_reachable_of_found
    [.allocate 8, .deallocate 8, .write 0 0, .write 1 0, .write 2 1, .write 3 0, .allocate 8]
    (fun heap => (heap.allocate 8).toOption.isNone = true) (by decide +kernel)
    fun heap _ fails => ?_⟩
  rintro ⟨next, result, ran, _⟩
  rw [ran] at fails
  cases fails

end Heap

end Brace.Allocator
