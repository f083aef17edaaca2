import Brace.Allocator.ClientRun

/-!
# Safety of the allocator for an obedient client

The free lists are linked through the headers of the freed chunks (`Linked`). A write of the client
lies in the body of a live chunk and a write of the allocator in the header of one chunk, so that
every other header keeps its word. `Kept` is the invariant, and `client_safe` the result for every
run in which no end of a new chunk overflows.
-/

namespace Brace.Allocator

open Brace.Lib List Chunk Header Heap

/-! ## Words in memory -/

namespace Memory

variable {mem : Memory} {ptr other : Nat}

variable {value : Nat}

theorem word_putWord_same (small : value < 2 ^ 64) : (mem.putWord ptr value).word ptr = value := by
  have digits : (mem.putWord ptr value).word ptr =
      low 256 (fun place => value / 256 ^ place % 256) 8 := by
    refine low_congr fun place inside => ?_
    have here : ptr ≤ ptr + place ∧ ptr + place < ptr + 8 := by omega
    change (if ptr ≤ ptr + place ∧ ptr + place < ptr + 8 then
      UInt8.ofNat (value / 256 ^ (ptr + place - ptr)) else mem.bytes (ptr + place)).toNat = _
    rw [if_pos here, Nat.add_sub_cancel_left]
    exact UInt8.toNat_ofNat
  rw [digits, low_digits, Nat.mod_eq_of_lt]
  exact small

theorem word_putWord_of_apart (apart : ptr + 8 ≤ other ∨ other + 8 ≤ ptr) :
    (mem.putWord ptr value).word other = mem.word other := by
  refine low_congr fun place inside => ?_
  have outside : ¬ (ptr ≤ other + place ∧ other + place < ptr + 8) := by omega
  change (if ptr ≤ other + place ∧ other + place < ptr + 8 then
    UInt8.ofNat (value / 256 ^ (other + place - ptr)) else mem.bytes (other + place)).toNat = _
  rw [if_neg outside]

theorem word_putByte_of_apart {address : Nat} {value : UInt8}
    (apart : address < other ∨ other + 8 ≤ address) :
    (mem.putByte address value).word other = mem.word other := by
  refine low_congr fun place inside => ?_
  have outside : other + place ≠ address := by omega
  change (if other + place = address then value else mem.bytes (other + place)).toNat = _
  rw [if_neg outside]

end Memory

/-! ## Headers -/

theorem ofWord_occupied (order : Order) :
    ofWord (occupied order).toWord = .ok (.occupied order) := by
  have small := order.raw_lt
  have bit : (2 ^ 32 + order.raw) / 2 ^ 32 % 2 ≠ 0 := by omega
  have data : (2 ^ 32 + order.raw) % 2 ^ 32 = order.raw := by omega
  rw [toWord, ofWord, if_pos bit, data, Order.fromRaw, dif_pos small]
  rfl

/-- A link that a header can hold. -/
def Link.Storable (link : Link) : Prop := ∀ header, link = .ptr header → header < EMPTY_MARKER

theorem ofWord_free {link : Link} (storable : link.Storable) :
    ofWord (free link).toWord = .ok (.free link) := by
  have marker : EMPTY_MARKER = 4294967295 := rfl
  have bound : link.intoRaw ≤ EMPTY_MARKER := by
    cases link with
    | null => exact Nat.le_refl _
    | ptr header => exact Nat.le_of_lt (storable header rfl)
  have bit : ¬ link.intoRaw / 2 ^ 32 % 2 ≠ 0 := by omega
  have data : link.intoRaw % 2 ^ 32 = link.intoRaw := by omega
  have back : Link.fromRaw link.intoRaw = link := by
    cases link with
    | null => exact if_neg (fun apart => apart rfl)
    | ptr header => exact if_pos (Nat.ne_of_lt (storable header rfl))
  rw [toWord, ofWord, if_neg bit, data, back]
  rfl

theorem toWord_lt {header : Header} (storable : ∀ link, header = .free link → link.Storable) :
    header.toWord < 2 ^ 64 := by
  have marker : EMPTY_MARKER = 4294967295 := rfl
  cases header with
  | occupied order =>
    have small := order.raw_lt
    change 2 ^ 32 + order.raw < 2 ^ 64
    omega
  | free link =>
    cases link with
    | null =>
      change EMPTY_MARKER < 2 ^ 64
      omega
    | ptr header =>
      have small := storable _ rfl header rfl
      change header < 2 ^ 64
      omega

/-! ## Free lists -/

/-- The chunks that a free list leads through, from its head to its end. -/
inductive Linked (mem : Memory) : Link → List Nat → Prop
  | null : Linked mem .null []
  | ptr {next : Link} {rest : List Nat} (header : Nat)
      (read : mem.word header = (free next).toWord) (linked : Linked mem next rest) :
      Linked mem (.ptr header) (header :: rest)

namespace Linked

variable {mem other : Memory} {head : Link} {headers : List Nat}

theorem transport (linked : Linked mem head headers)
    (same : ∀ header ∈ headers, other.word header = mem.word header) :
    Linked other head headers := by
  induction linked with
  | null => exact .null
  | ptr header read _ ih =>
    have here := same header mem_cons_self
    exact .ptr header (here.trans read) (ih fun later member =>
      same later (mem_cons_of_mem _ member))

theorem head_mem {header : Nat} (linked : Linked mem (.ptr header) headers) : header ∈ headers := by
  cases linked
  exact mem_cons_self

end Linked

/-! ## The invariant -/

/-- The free list of an order leads through exactly the freed chunks of the order, each once. -/
def Client.ListExact (self : Client) (order : Order) : Prop :=
  ∃ headers, Linked self.heap.mem (self.heap.heads order) headers ∧ headers.Nodup ∧
    ∀ header, header ∈ headers ↔
      ∃ chunk ∈ self.chunks, chunk.header = header ∧ chunk.order = order ∧ chunk.live = none

/-- The chunk `[ptr - 8, ptr + 2 ^ k)` is aligned, large enough, in the heap, and apart from every
live chunk. -/
def Client.Fresh (self : Client) (heapBase size ptr : Nat) : Prop :=
  ∃ k, max size 8 ≤ 2 ^ k ∧ ptr % 8 = 0 ∧ heapBase + 8 ≤ ptr ∧ ptr + 2 ^ k ≤ self.heap.mem.size ∧
    ∀ chunk ∈ self.chunks, chunk.live.isSome →
      chunk.stop + 8 ≤ ptr ∨ ptr + 2 ^ k ≤ chunk.header

/-- The invariant of allocator and client, for a heap that starts at `base`. -/
structure Kept (base : Nat) (client : Client) : Prop where
  aligned : base % 8 = 0
  stacked : Stacked base client.chunks client.heap.bumper
  bumper_lt : client.heap.bumper < 2 ^ 32
  inside : ∀ chunk ∈ client.chunks, chunk.stop ≤ client.heap.mem.size
  requested : ∀ chunk ∈ client.chunks, ∀ size ∈ chunk.live, Order.fromSize size = .ok chunk.order
  occupied : ∀ chunk ∈ client.chunks, chunk.live.isSome →
    client.heap.mem.word chunk.header = (occupied chunk.order).toWord
  lists : ∀ order, client.ListExact order
  total : client.heap.totalSize = (client.chunks.map weight).sum

theorem sum_weight_le (chunks : List Chunk) :
    (chunks.map weight).sum ≤ (chunks.map bytes).sum := by
  refine sum_le_sum fun chunk _ => ?_
  unfold weight
  split <;> omega

namespace Kept

variable {base : Nat} {client : Client}

theorem apart (kept : Kept base client) {left right : Chunk} (first : left ∈ client.chunks)
    (second : right ∈ client.chunks) (differ : left.header ≠ right.header) :
    left.header + 8 ≤ right.header ∨ right.header + 8 ≤ left.header := by
  have left_bytes := left.bytes_ge
  have right_bytes := right.bytes_ge
  rcases kept.stacked.eq_or_disjoint first second with same | before | after
  · exact absurd (by rw [same]) differ
  · unfold stop at before
    omega
  · unfold stop at after
    omega

variable {chunk : Chunk} {order : Order} {header word total size heapBase : Nat}

section

variable (kept : Kept base client)

include kept

theorem header_lt (member : chunk ∈ client.chunks) : chunk.header < EMPTY_MARKER := by
  have marker : EMPTY_MARKER = 4294967295 := rfl
  have stop := kept.inside chunk member
  have bytes := chunk.bytes_ge
  have size := client.heap.mem.size_lt
  unfold Chunk.stop at stop
  omega

theorem of_head (head : client.heap.heads order = .ptr header) :
    ∃ chunk ∈ client.chunks, chunk.header = header ∧ chunk.order = order ∧ chunk.live = none := by
  obtain ⟨headers, linked, _, exactly⟩ := kept.lists order
  rw [head] at linked
  exact (exactly header).mp linked.head_mem

theorem head_storable (order : Order) : (client.heap.heads order).Storable := by
  intro header head
  obtain ⟨chunk, member, same, _, _⟩ := kept.of_head head
  rw [← same]
  exact kept.header_lt member

theorem of_words {mem : Memory} (size : mem.size = client.heap.mem.size)
    (words : ∀ chunk ∈ client.chunks, mem.word chunk.header = client.heap.mem.word chunk.header) :
    Kept base { client with heap := { client.heap with mem } } := by
  refine ⟨kept.aligned, kept.stacked, kept.bumper_lt, fun chunk member => ?_, kept.requested,
    fun chunk member live => ?_, fun order => ?_, kept.total⟩
  · change chunk.stop ≤ mem.size
    rw [size]
    exact kept.inside chunk member
  · change mem.word chunk.header = _
    rw [words chunk member]
    exact kept.occupied chunk member live
  · obtain ⟨headers, linked, nodup, exactly⟩ := kept.lists order
    refine ⟨headers, linked.transport fun header member => ?_, nodup, exactly⟩
    obtain ⟨chunk, inside, same, _, _⟩ := (exactly header).mp member
    rw [← same]
    exact words chunk inside

variable (member : chunk ∈ client.chunks)

include member

theorem word_putWord {other : Chunk}
    (second : other ∈ client.chunks) (differ : other.header ≠ chunk.header) (word : Nat) :
    (client.heap.mem.putWord chunk.header word).word other.header =
      client.heap.mem.word other.header :=
  Memory.word_putWord_of_apart (kept.apart member second (Ne.symm differ))

/-- A chunk becomes live or free, and its header is written. -/
theorem restatus {live : Option Nat} {heads : Order → Link} {next : Client}
    (next_eq : next = ⟨{ client.heap with
      heads, mem := client.heap.mem.putWord chunk.header word, totalSize := total },
      setLive chunk.header live client.chunks⟩)
    (request : ∀ size ∈ live, Order.fromSize size = .ok chunk.order)
    (written : live.isSome → word = (Header.occupied chunk.order).toWord)
    (lists : ∀ order, next.ListExact order)
    (counted : total + chunk.weight = client.heap.totalSize + { chunk with live }.weight) :
    Kept base next := by
  subst next_eq
  have status : ∀ before ∈ client.chunks, before.header = chunk.header → before = chunk :=
    fun before inside same => kept.stacked.unique inside member same
  refine ⟨kept.aligned, kept.stacked.setLive _ _, kept.bumper_lt, fun other inside => ?_,
    fun other inside size requested => ?_, fun other inside isLive => ?_, lists, ?_⟩
  · rcases mem_setLive.mp inside with ⟨before, _⟩ | ⟨before, found, _, rfl⟩
    · exact kept.inside other before
    · exact kept.inside before found
  · rcases mem_setLive.mp inside with ⟨before, _⟩ | ⟨before, found, same, rfl⟩
    · exact kept.requested other before size requested
    · rw [status before found same]
      exact request size requested
  · change (client.heap.mem.putWord chunk.header word).word other.header = _
    rcases mem_setLive.mp inside with ⟨before, differ⟩ | ⟨before, found, same, rfl⟩
    · rw [kept.word_putWord member before differ]
      exact kept.occupied other before isLive
    · have small : (Header.occupied chunk.order).toWord < 2 ^ 64 :=
        toWord_lt fun link free => by cases free
      rw [status before found same, written isLive, Memory.word_putWord_same small]
  · have sum := sum_weight_setLive live kept.stacked member
    have total_eq := kept.total
    change total = ((setLive chunk.header live client.chunks).map weight).sum
    omega

theorem freed_setLive (live : Option Nat) (header : Nat) (order : Order) :
    (∃ other ∈ setLive chunk.header live client.chunks,
      other.header = header ∧ other.order = order ∧ other.live = none) ↔
    if header = chunk.header then chunk.order = order ∧ live = none
    else ∃ other ∈ client.chunks,
      other.header = header ∧ other.order = order ∧ other.live = none := by
  constructor
  · rintro ⟨other, inside, rfl, ordered, free⟩
    rcases mem_setLive.mp inside with ⟨before, differ⟩ | ⟨before, found, same, rfl⟩
    · rw [if_neg differ]
      exact ⟨other, before, rfl, ordered, free⟩
    · rw [if_pos same, ← kept.stacked.unique found member same]
      exact ⟨ordered, free⟩
  · split
    · rintro ⟨ordered, free⟩
      rename_i same
      exact ⟨{ chunk with live }, mem_setLive.mpr (.inr ⟨chunk, member, rfl, rfl⟩), same.symm,
        ordered, free⟩
    · rintro ⟨other, inside, rfl, ordered, free⟩
      rename_i differ
      exact ⟨other, mem_setLive.mpr (.inl ⟨inside, differ⟩), rfl, ordered, free⟩

theorem linked_putWord {head : Link} {headers : List Nat}
    (linked : Linked client.heap.mem head headers) (absent : chunk.header ∉ headers)
    (known : ∀ header ∈ headers, ∃ other ∈ client.chunks,
      other.header = header ∧ other.order = order ∧ other.live = none) :
    Linked (client.heap.mem.putWord chunk.header word) head headers := by
  refine linked.transport fun header inside => ?_
  obtain ⟨other, found, rfl, _⟩ := known header inside
  exact kept.word_putWord member found (fun same => absent (same ▸ inside)) word

theorem lists_others {live : Option Nat} {heads : Order → Link} (differ : order ≠ chunk.order)
    (same : heads order = client.heap.heads order) :
    Client.ListExact ⟨{ client.heap with
      heads, mem := client.heap.mem.putWord chunk.header word, totalSize := total },
      setLive chunk.header live client.chunks⟩ order := by
  obtain ⟨headers, linked, nodup, members⟩ := kept.lists order
  have absent : chunk.header ∉ headers := by
    intro inside
    obtain ⟨other, found, equal, ordered, _⟩ := (members chunk.header).mp inside
    rw [kept.stacked.unique found member equal] at ordered
    exact differ ordered.symm
  refine ⟨headers, ?_, nodup, fun header => ?_⟩
  · rw [← same] at linked
    exact kept.linked_putWord member linked absent fun header => (members header).mp
  · rw [kept.freed_setLive member]
    split
    · rename_i equal
      exact iff_of_false (equal ▸ absent) fun both => differ both.1.symm
    · exact members header

theorem lists_taken {next : Link} {rest : List Nat} (linked : Linked client.heap.mem next rest)
    (nodup : (chunk.header :: rest).Nodup)
    (exactly : ∀ header, header ∈ chunk.header :: rest ↔ ∃ other ∈ client.chunks, other.header =
      header ∧ other.order = chunk.order ∧ other.live = none) (order : Order) :
    Client.ListExact ⟨{ client.heap with
      heads := Function.update client.heap.heads chunk.order next
      mem := client.heap.mem.putWord chunk.header word, totalSize := total },
      setLive chunk.header (some size) client.chunks⟩ order := by
  by_cases same : order = chunk.order
  · subst same
    obtain ⟨absent, distinct⟩ := nodup_cons.mp nodup
    refine ⟨rest, ?_, distinct, fun header => ?_⟩
    · simp only [Function.update_self]
      exact kept.linked_putWord member linked absent fun header inside =>
        (exactly header).mp (mem_cons_of_mem _ inside)
    · rw [kept.freed_setLive member]
      split
      · rename_i equal
        exact iff_of_false (equal ▸ absent) (by simp)
      · rename_i differ
        rw [← exactly, mem_cons, or_iff_right differ]
  · exact kept.lists_others member same (Function.update_of_ne same _ _)

theorem lists_freed (isLive : chunk.live.isSome) (total : Nat) (order : Order) :
    Client.ListExact ⟨{ client.heap with
      heads := Function.update client.heap.heads chunk.order (.ptr chunk.header)
      mem := client.heap.mem.putWord chunk.header
        (free (client.heap.heads chunk.order)).toWord
      totalSize := total }, setLive chunk.header none client.chunks⟩ order := by
  by_cases same : order = chunk.order
  · subst same
    obtain ⟨headers, linked, nodup, members⟩ := kept.lists chunk.order
    have absent : chunk.header ∉ headers := by
      intro inside
      obtain ⟨other, found, equal, _, free⟩ := (members chunk.header).mp inside
      rw [← kept.stacked.unique found member equal, free] at isLive
      cases isLive
    refine ⟨chunk.header :: headers, ?_, nodup_cons.mpr ⟨absent, nodup⟩, fun header => ?_⟩
    · simp only [Function.update_self]
      have small : (free (client.heap.heads chunk.order)).toWord < 2 ^ 64 :=
        toWord_lt fun link free => by
          cases free
          exact kept.head_storable chunk.order
      exact .ptr _ (Memory.word_putWord_same small)
        (kept.linked_putWord member linked absent fun header => (members header).mp)
    · rw [kept.freed_setLive member, mem_cons]
      split
      · rename_i equal
        simp [equal]
      · rename_i differ
        rw [← members, or_iff_right differ]
  · exact kept.lists_others member same (Function.update_of_ne same _ _)

end

/-! ## The calls -/

section

variable (kept : Kept base client)

include kept

theorem total_le : client.heap.totalSize ≤ client.heap.bumper := by
  have sum := kept.stacked.sum_bytes
  have weights := sum_weight_le client.chunks
  have total := kept.total
  omega

theorem allocateFreed (computed : Order.fromSize size = .ok order)
    (head : client.heap.heads order = .ptr header) :
    ∃ heap chunk, client.heap.allocate size = .ok (heap, .ok (header + HEADER_SIZE)) ∧
      chunk ∈ client.chunks ∧ chunk.header = header ∧ chunk.order = order ∧ chunk.live = none ∧
      Kept base ⟨heap, setLive header (some size) client.chunks⟩ := by
  obtain ⟨chunk, member, rfl, rfl, free⟩ := kept.of_head head
  obtain ⟨headers, linked, nodup, exactly⟩ := kept.lists chunk.order
  rw [head] at linked
  cases linked with
  | ptr _ read rest_linked =>
    rename_i next rest
    have mem := kept.inside chunk member
    have storable : next.Storable := by
      intro other same
      subst same
      have listed := mem_cons_of_mem chunk.header rest_linked.head_mem
      obtain ⟨found, found_in, same, _, _⟩ := (exactly other).mp listed
      rw [← same]
      exact kept.header_lt found_in
    have counted := sum_weight_setLive (some size) kept.stacked member
    have room : client.heap.totalSize + chunk.bytes < 2 ^ 32 := by
      have sum := (kept.stacked.setLive chunk.header (some size)).sum_bytes
      have weights := sum_weight_le (setLive chunk.header (some size) client.chunks)
      have total := kept.total
      have bumper := kept.bumper_lt
      have before : chunk.weight = 0 := by simp [weight, free]
      have after : ({ chunk with live := some size } : Chunk).weight = chunk.bytes := rfl
      omega
    have header_room : chunk.header + 8 ≤ client.heap.mem.size := by
      have bytes := chunk.bytes_ge
      unfold stop at mem
      omega
    let popped : Heap := { client.heap with
      heads := Function.update client.heap.heads chunk.order next }
    refine ⟨popped.occupied chunk.order chunk.header, chunk, ?_, member, rfl, rfl, free, ?_⟩
    · rw [allocate_of_ptr computed head, allocateFreed_eq mem, read, ofWord_free storable, ok_bind]
      have counted_room : popped.occupy chunk.order chunk.header = _ := occupy_eq header_room
      exact counted_room.trans (if_pos room)
    · refine kept.restatus member rfl (fun wanted found => ?_) (fun _ => rfl)
        (kept.lists_taken member rest_linked nodup exactly) ?_
      · cases found
        exact computed
      · have before : chunk.weight = 0 := by simp [weight, free]
        rw [before]
        rfl

theorem allocateBumped (computed : Order.fromSize size = .ok order)
    (empty : client.heap.heads order = .null)
    (fits : client.heap.bumper + (order.size + HEADER_SIZE) ≤ client.heap.mem.size) :
    ∃ heap, client.heap.allocate size = .ok (heap, .ok (client.heap.bumper + HEADER_SIZE)) ∧
      Kept base ⟨heap, ⟨client.heap.bumper, order, some size⟩ :: client.chunks⟩ := by
  have bound := client.heap.mem.size_lt
  have header : HEADER_SIZE = 8 := rfl
  have total_le := kept.total_le
  let chunk : Chunk := ⟨client.heap.bumper, order, some size⟩
  let bumped : Heap := { client.heap with bumper := chunk.stop }
  have words : ∀ other ∈ client.chunks,
      (client.heap.mem.putWord chunk.header (Header.occupied order).toWord).word other.header =
        client.heap.mem.word other.header := by
    intro other member
    have bounds := (kept.stacked.mem_bounds member).2
    have bytes := other.bytes_ge
    refine Memory.word_putWord_of_apart (.inr ?_)
    change other.header + 8 ≤ client.heap.bumper
    unfold stop at bounds
    omega
  have small : (Header.occupied order).toWord < 2 ^ 64 := toWord_lt fun link free => by cases free
  refine ⟨bumped.occupied order client.heap.bumper, ?_, ?_⟩
  · have counted : bumped.occupy order client.heap.bumper = _ :=
      occupy_eq (by change client.heap.bumper + 8 ≤ client.heap.mem.size; omega)
    have room : bumped.totalSize + (order.size + HEADER_SIZE) < 2 ^ 32 := by
      change client.heap.totalSize + (order.size + HEADER_SIZE) < 2 ^ 32
      omega
    rw [allocate_of_null computed empty, allocateBumped_eq (by omega), if_neg (by omega)]
    exact counted.trans (if_pos room)
  · refine ⟨kept.aligned, .cons chunk rfl kept.stacked, ?_, fun other member => ?_,
      fun other member wanted found => ?_, fun other member live => ?_, fun wanted => ?_, ?_⟩
    · change client.heap.bumper + (order.size + HEADER_SIZE) < 2 ^ 32
      omega
    · rcases mem_cons.mp member with rfl | earlier
      · exact fits
      · exact kept.inside other earlier
    · rcases mem_cons.mp member with rfl | earlier
      · cases found
        exact computed
      · exact kept.requested other earlier wanted found
    · rcases mem_cons.mp member with rfl | earlier
      · exact Memory.word_putWord_same small
      · exact (words other earlier).trans (kept.occupied other earlier live)
    · obtain ⟨headers, linked, nodup, exactly⟩ := kept.lists wanted
      refine ⟨headers, linked.transport fun header mem => ?_, nodup, fun header => ?_⟩
      · obtain ⟨other, found, same, _, _⟩ := (exactly header).mp mem
        rw [← same]
        exact words other found
      · rw [exactly]
        constructor
        · rintro ⟨other, found, rest⟩
          exact ⟨other, mem_cons_of_mem _ found, rest⟩
        · rintro ⟨other, found, same, ordered, free⟩
          rcases mem_cons.mp found with rfl | earlier
          · cases free
          · exact ⟨other, earlier, same, ordered, free⟩
    · have total := kept.total
      change client.heap.totalSize + chunk.bytes =
        ((chunk :: client.chunks).map weight).sum
      rw [map_cons, sum_cons, ← total, Nat.add_comm]
      rfl

theorem deallocate (member : chunk ∈ client.chunks) (isLive : chunk.live.isSome) :
    ∃ heap, client.heap.deallocate (chunk.header + HEADER_SIZE) = .ok (heap, .ok ()) ∧
      Kept base ⟨heap, setLive chunk.header none client.chunks⟩ := by
  have mem := kept.inside chunk member
  have bytes := chunk.bytes_ge
  have weight : chunk.weight = chunk.bytes := if_pos isLive
  have counted : chunk.bytes ≤ client.heap.totalSize := by
    rw [kept.total, ← weight]
    exact le_sum_of_mem (mem_map_of_mem member)
  have header_room : chunk.header + 8 ≤ client.heap.mem.size := by
    unfold stop at mem
    omega
  have read : ofWord (client.heap.mem.word chunk.header) = .ok (.occupied chunk.order) := by
    rw [kept.occupied chunk member isLive, ofWord_occupied]
  refine ⟨_, ?_, kept.restatus member rfl (fun size found => by cases found)
    (fun impossible => by cases impossible)
    (kept.lists_freed member isLive (client.heap.totalSize - chunk.bytes)) ?_⟩
  · rw [deallocate_eq header_room read, uncount_eq]
    exact congrArg Except.ok (if_pos counted)
  · rw [weight]
    change client.heap.totalSize - chunk.bytes + chunk.bytes = client.heap.totalSize + 0
    omega

theorem write (member : chunk ∈ client.chunks) {address : Nat} (value : UInt8)
    (isLive : size ∈ chunk.live) (above : chunk.header + HEADER_SIZE ≤ address)
    (below : address < chunk.header + HEADER_SIZE + size) : Kept base { client with heap :=
      { client.heap with mem := client.heap.mem.putByte address value } } := by
  have header : HEADER_SIZE = 8 := rfl
  have enough := Order.max_le_size (kept.requested chunk member size isLive)
  refine kept.of_words rfl fun other found => Memory.word_putByte_of_apart ?_
  have other_bytes := other.bytes_ge
  rcases kept.stacked.eq_or_disjoint member found with same | before | after
  · subst same
    omega
  · unfold stop bytes at before
    omega
  · unfold stop at after
    omega

end

theorem taken_bumper (kept : Kept base client) :
    client.taken client.heap.bumper size order =
      ⟨client.heap.bumper, order, some size⟩ :: client.chunks := by
  refine if_neg fun found => ?_
  obtain ⟨chunk, member, same⟩ := any_eq_true.mp found
  have below := kept.stacked.header_lt member
  rw [of_decide_eq_true same] at below
  exact Nat.lt_irrefl _ below

/-- **A call of an obedient client returns and keeps the invariant**, if no end overflows. -/
theorem step (kept : Kept base client) {call : ClientCall} (obeys : client.Obeys call)
    (fits : client.EndFits call) : ∃ next, client.step call = .ok next ∧ Kept base next := by
  cases call with
  | allocate size =>
    cases computed : Order.fromSize size with
    | error error =>
      refine ⟨client, ?_, kept⟩
      rw [Client.step, allocate_of_error computed, ok_bind]
      rfl
    | ok order =>
      cases head : client.heap.heads order with
      | ptr header =>
        obtain ⟨heap, chunk, ran, member, same, _, _, after⟩ :=
          kept.allocateFreed computed head
        refine ⟨_, ?_, after⟩
        rw [Client.step, ran, ok_bind, computed]
        dsimp only
        rw [Client.taken, if_pos (any_eq_true.mpr ⟨chunk, member, decide_eq_true same⟩)]
        rfl
      | null =>
        have room := fits order computed head
        by_cases mem :
            client.heap.bumper + (order.size + HEADER_SIZE) ≤ client.heap.mem.size
        · obtain ⟨heap, ran, after⟩ := kept.allocateBumped computed head mem
          refine ⟨_, ?_, after⟩
          rw [Client.step, ran, ok_bind, computed, ← kept.taken_bumper]
          rfl
        · refine ⟨client, ?_, kept⟩
          rw [Client.step, allocate_of_null computed head, allocateBumped_eq room,
            if_pos (by omega), ok_bind, computed]
          rfl
  | deallocate ptr =>
    obtain ⟨chunk, member, isLive, rfl⟩ := obeys
    obtain ⟨heap, ran, after⟩ := kept.deallocate member isLive
    refine ⟨_, ?_, after⟩
    rw [Client.step, ran, ok_bind]
    rfl
  | write address value =>
    obtain ⟨chunk, member, size, isLive, above, below⟩ := obeys
    exact ⟨_, rfl, kept.write member value isLive above below⟩

theorem init (mem : Memory) (fits : heapBase + ALIGNMENT < 2 ^ 32) :
    ∃ start base, new heapBase mem = .ok start ∧ heapBase ≤ base ∧
      Kept base ⟨start, []⟩ := by
  have alignment : ALIGNMENT = 8 := rfl
  have base_lt : (heapBase + ALIGNMENT - 1) / ALIGNMENT * ALIGNMENT < 2 ^ 32 := by
    rw [alignment] at fits ⊢
    omega
  refine ⟨⟨(heapBase + ALIGNMENT - 1) / ALIGNMENT * ALIGNMENT, fun _ => .null, 0, mem⟩,
    (heapBase + ALIGNMENT - 1) / ALIGNMENT * ALIGNMENT, ?_, ?_, ?_, .nil, base_lt, ?_, ?_,
    ?_, fun order => ⟨[], .null, nodup_nil, ?_⟩, rfl⟩
  · rw [new, add_eq fits, ok_bind]
    rfl
  · rw [alignment]
    omega
  · rw [alignment]
    omega
  · exact fun chunk member => by cases member
  · exact fun chunk member => by cases member
  · exact fun chunk member => by cases member
  · intro header
    constructor
    · intro member
      cases member
    · rintro ⟨chunk, member, _⟩
      cases member

theorem fresh (kept : Kept base client) {ptr : Nat} {heap : Heap} (based : heapBase ≤ base)
    (ran : client.heap.allocate size = .ok (heap, .ok ptr)) : client.Fresh heapBase size ptr := by
  have header_size : HEADER_SIZE = 8 := rfl
  have aligned := kept.aligned
  cases computed : Order.fromSize size with
  | error error =>
    rw [allocate_of_error computed] at ran
    cases ran
  | ok order =>
    have power : order.size = 2 ^ (order.raw + 3) := by
      rw [Order.size, MIN_POSSIBLE_ALLOCATION, Nat.pow_add, Nat.mul_comm]
    have enough := Order.max_le_size computed
    cases head : client.heap.heads order with
    | ptr header =>
      obtain ⟨next, chunk, success, member, rfl, rfl, free, _⟩ := kept.allocateFreed computed head
      rw [success] at ran
      cases ran
      have mem := kept.inside chunk member
      have lower := (kept.stacked.mem_bounds member).1
      have modulo := kept.stacked.header_mod member
      unfold stop bytes at mem
      refine ⟨_, enough.trans_eq power, by omega, by omega, by omega, fun other found isLive => ?_⟩
      rcases kept.stacked.eq_or_disjoint found member with same | before | after
      · rw [same, free] at isLive
        cases isLive
      · exact .inl (by omega)
      · unfold stop bytes at after
        exact .inr (by omega)
    | null =>
      rw [allocate_of_null computed head] at ran
      by_cases room : client.heap.bumper + (order.size + HEADER_SIZE) < 2 ^ 32
      · by_cases mem :
            client.heap.bumper + (order.size + HEADER_SIZE) ≤ client.heap.mem.size
        · obtain ⟨next, success, _⟩ := kept.allocateBumped computed head mem
          rw [← allocate_of_null computed head, success] at ran
          cases ran
          have lower := kept.stacked.base_le
          have modulo := kept.stacked.top_mod
          refine ⟨_, enough.trans_eq power, by omega, by omega, by omega,
            fun other found _ => .inl ?_⟩
          have bounds := (kept.stacked.mem_bounds found).2
          omega
        · rw [allocateBumped_eq room, if_pos (by omega)] at ran
          cases ran
      · rw [allocateBumped_eq_error (by omega)] at ran
        cases ran

end Kept

/-! ## Every run -/

/-- What a client relies on, when its calls are guarded by `guard`. -/
structure Safe (guard : Client → ClientCall → Prop) (heapBase : Nat) (client : Client) : Prop where
  /-- No arithmetic wraps and no assertion fails. -/
  returns : ∀ call, guard client call → ∃ next, client.step call = .ok next
  fresh : ∀ size heap ptr, client.heap.allocate size = .ok (heap, .ok ptr) →
    client.Fresh heapBase size ptr
  lists : ∀ order, client.ListExact order
  total : client.heap.totalSize = (client.chunks.map weight).sum

/-- **The allocator is safe for every run of an obedient client**, while the end of the chunks
taken from the end of the heap is below `2 ^ 32`. -/
theorem client_safe (heapBase : Nat) (mem : Memory) (fits : heapBase + ALIGNMENT < 2 ^ 32) :
    ∃ start, new heapBase mem = .ok start ∧ ∀ client,
      Reachable Client.step (fun self call => self.Obeys call ∧ self.EndFits call) ⟨start, []⟩
        client →
      Safe (fun self call => self.Obeys call ∧ self.EndFits call) heapBase client := by
  obtain ⟨start, base, created, based, initial⟩ := Kept.init mem fits
  refine ⟨start, created, fun client reached => ?_⟩
  have kept : Kept base client := reached.invariant initial fun state call next kept allowed
    ran => by
      obtain ⟨after, same, kept_after⟩ := kept.step allowed.1 allowed.2
      rw [ran] at same
      cases same
      exact kept_after
  refine ⟨fun call allowed => ?_, fun size heap ptr ran => kept.fresh based ran,
    kept.lists, kept.total⟩
  obtain ⟨next, ran, _⟩ := kept.step allowed.1 allowed.2
  exact ⟨next, ran⟩

/-- A run that allocates, frees and allocates again. -/
theorem client_safe_reuse :
    ∃ start, new 4 (Memory.zeros 64 (by decide)) = .ok start ∧ ∃ client,
      Reachable Client.step (fun self call => self.Obeys call ∧ self.EndFits call) ⟨start, []⟩
        client ∧ client.heap.totalSize = 16 ∧
      Safe (fun self call => self.Obeys call ∧ self.EndFits call) 4 client := by
  obtain ⟨start, created, safe⟩ := client_safe 4 (Memory.zeros 64 (by decide)) (by decide)
  cases created
  have found : ∃ client, Reachable Client.step
      (fun self call => self.Obeys call ∧ self.EndFits call)
      ⟨⟨8, fun _ => .null, 0, Memory.zeros 64 (by decide)⟩, []⟩ client ∧
      client.heap.totalSize = 16 :=
    exists_reachable_of_run [.allocate 8, .write 16 1, .deallocate 16, .allocate 5]
      (by decide +kernel)
  obtain ⟨client, reached, total⟩ := found
  exact ⟨_, rfl, client, reached, total, safe client reached⟩

/-- At the end of the address space the bumper overflows. -/
theorem bumper_overflows :
    ∃ start, new 4294967280 (Memory.zeros 4294967295 (by decide)) = .ok start ∧
      ¬ Safe Client.Obeys 4294967280 ⟨start, []⟩ := by
  refine ⟨_, rfl, fun safe => ?_⟩
  obtain ⟨next, ran⟩ := safe.returns (.allocate 8) trivial
  cases ran

end Brace.Allocator
