import Brace.Staking.Slashing

/-!
# The shape of slashing spans

The spans of a stash follow one another without gaps: the lengths of the prior spans reach back
from the start of the ongoing one, and their indices count down. So the spans are disjoint, their
indices are distinct, and the eras from the start of the earliest span on are covered. Ending the
ongoing span puts it in front of the prior ones; pruning takes away spans from the far end.
-/

namespace Brace.Staking

open Brace.Lib List Option SlashingSpan

theorem SlashingSpan.containsEra_iff {span : SlashingSpan} {length : Nat}
    (ended : span.length = some length) (era : Nat) :
    span.containsEra era = true ↔ span.start ≤ era ∧ era < span.start + length := by
  simp [containsEra, ended]

namespace SlashingSpans

/-! ## Prior spans -/

variable {lastStart index count windowStart now : Nat} {prior : List Nat} {span : SlashingSpan}
  {self : SlashingSpans}

/-- What is known of a prior span: where it lies and how it is numbered. -/
theorem mem_priorSpans (fits : prior.sum ≤ lastStart) (counted : prior.length ≤ index)
    (mem : span ∈ priorSpans lastStart index prior) :
    ∃ length ∈ prior, span.length = some length ∧ span.start + length ≤ lastStart ∧
      span.index < index ∧ index - prior.length ≤ span.index ∧
      lastStart - prior.sum ≤ span.start := by
  induction prior generalizing lastStart index with
  | nil => cases mem
  | cons length rest ih =>
    rw [sum_cons] at fits ⊢
    rw [length_cons] at counted ⊢
    rcases mem_cons.mp mem with rfl | earlier
    · exact ⟨length, mem_cons_self, rfl, by dsimp only; omega⟩
    · obtain ⟨other, found, ended, bounds⟩ := ih (by omega) (by omega) earlier
      exact ⟨other, mem_cons_of_mem _ found, ended, by omega⟩

/-- Two spans with different indices and no common era. -/
def Apart (one other : SlashingSpan) : Prop :=
  one.index ≠ other.index ∧ ¬ ∃ era, one.containsEra era = true ∧ other.containsEra era = true

section

variable (fits : prior.sum ≤ lastStart) (counted : prior.length ≤ index)

include fits counted

theorem apart_priorSpans (starts : lastStart ≤ span.start) (numbered : index ≤ span.index) :
    ∀ other ∈ priorSpans lastStart index prior, Apart span other := by
  intro other mem
  obtain ⟨length, -, ended, before, lower, -⟩ := mem_priorSpans fits counted mem
  refine ⟨by omega, fun ⟨era, here, there⟩ => ?_⟩
  rw [containsEra_iff ended] at there
  simp only [containsEra, Bool.and_eq_true, decide_eq_true_eq] at here
  omega

theorem pairwise_priorSpans : (priorSpans lastStart index prior).Pairwise Apart := by
  induction prior generalizing lastStart index with
  | nil => exact .nil
  | cons length rest ih =>
    rw [sum_cons] at fits
    rw [length_cons] at counted
    exact .cons (apart_priorSpans (by omega) (by omega) le_rfl le_rfl) (ih (by omega) (by omega))

end

theorem exists_priorSpan (lastStart index : Nat) (prior : List Nat) (era : Nat)
    (fits : prior.sum ≤ lastStart) (covered : lastStart - prior.sum ≤ era)
    (ended : era < lastStart) :
    ∃ span ∈ priorSpans lastStart index prior, span.containsEra era = true := by
  induction prior generalizing lastStart index with
  | nil =>
    rw [sum_nil] at covered
    omega
  | cons length rest ih =>
    rw [sum_cons] at fits covered
    by_cases here : lastStart - length ≤ era
    · refine ⟨_, mem_cons_self, ?_⟩
      rw [containsEra_iff rfl]
      dsimp only
      omega
    · obtain ⟨span, mem, contains⟩ :=
        ih (lastStart - length) (index - 1) (by omega) (by omega) (by omega)
      exact ⟨span, mem_cons_of_mem _ mem, contains⟩

theorem priorSpans_take (lastStart index count : Nat) (prior : List Nat) :
    priorSpans lastStart index (prior.take count) =
      (priorSpans lastStart index prior).take count := by
  induction prior generalizing lastStart index count with
  | nil => simp [priorSpans]
  | cons length rest ih =>
    cases count with
    | zero => rfl
    | succ count => rw [take_succ_cons, priorSpans, ih, priorSpans, take_succ_cons]

theorem length_priorSpans (lastStart index : Nat) (prior : List Nat) :
    (priorSpans lastStart index prior).length = prior.length := by
  induction prior generalizing lastStart index with
  | nil => rfl
  | cons length rest ih => rw [priorSpans, length_cons, ih, length_cons]

theorem take_of_findIdx {old : Option Nat} (fits : prior.sum ≤ lastStart)
    (found : (priorSpans lastStart index prior).findIdx? (isOld windowStart) = old) :
    (∀ count, old = some count → lastStart - (prior.take count).sum ≤ windowStart) ∧
      (old.getD prior.length ≠ 0 → windowStart < lastStart) := by
  induction prior generalizing lastStart index old with
  | nil =>
    subst found
    simp [priorSpans]
  | cons length rest ih =>
    rw [sum_cons] at fits
    rw [priorSpans, findIdx?_cons] at found
    by_cases isOld : isOld windowStart
        { index := index - 1, start := lastStart - length, length := some length } = true
    · rw [if_pos isOld] at found
      subst found
      simp only [SlashingSpans.isOld, decide_eq_true_eq] at isOld
      simp
      omega
    · rw [if_neg isOld] at found
      simp only [SlashingSpans.isOld, decide_eq_true_eq] at isOld
      refine ⟨?_, fun _ => by omega⟩
      rintro count rfl
      obtain ⟨earlier, foundEarlier, rfl⟩ := map_eq_some_iff.mp found
      have reaches := (ih (by omega) foundEarlier).1 earlier rfl
      rw [take_succ_cons, sum_cons]
      omega

/-! ## The spans of a stash -/

def priors (self : SlashingSpans) : List SlashingSpan :=
  priorSpans self.lastStart self.spanIndex self.prior

/-- The lengths and indices do not reach below zero, and no prior span is empty. -/
structure Chained (spans : SlashingSpans) : Prop where
  /-- The prior spans start at era zero or later. -/
  fits : spans.prior.sum ≤ spans.lastStart
  /-- The prior spans have indices. -/
  counted : spans.prior.length ≤ spans.spanIndex
  /-- A prior span has an era. -/
  proper : ∀ length ∈ spans.prior, 0 < length

def firstEra (self : SlashingSpans) : Nat := self.lastStart - self.prior.sum

theorem chained_new (windowStart : Nat) : (new windowStart).Chained where
  fits := Nat.zero_le _
  counted := Nat.le_refl _
  proper := by
    intro length mem
    cases mem

theorem Chained.eq_of_meet (chained : self.Chained) {one other : SlashingSpan}
    (first : one ∈ self.iter) (second : other ∈ self.iter) (meet : one.index = other.index ∨
      ∃ era, one.containsEra era = true ∧ other.containsEra era = true) : one = other := by
  have apart : self.iter.Pairwise Apart :=
    .cons (apart_priorSpans chained.fits chained.counted le_rfl le_rfl)
      (pairwise_priorSpans chained.fits chained.counted)
  have symm : Std.Symm Apart := ⟨fun _ _ ⟨indices, eras⟩ =>
    ⟨indices.symm, fun ⟨era, here, there⟩ => eras ⟨era, there, here⟩⟩⟩
  by_contra ne
  obtain ⟨indices, eras⟩ := apart.forall first second ne
  exact meet.elim indices eras

theorem Chained.containsEra_start (chained : self.Chained)
    (mem : span ∈ self.iter) : span.containsEra span.start = true := by
  rcases mem_cons.mp mem with rfl | prior
  · simp [containsEra]
  · obtain ⟨length, listed, ended, -⟩ := mem_priorSpans chained.fits chained.counted prior
    have proper := chained.proper length listed
    rw [containsEra_iff ended]
    omega

theorem find_span (chained : self.Chained) {era : Nat} (covered : self.firstEra ≤ era) :
    ∃ span, self.iter.find? (·.containsEra era) = some span ∧
      ((self.lastStart ≤ era ∧ span.index = self.spanIndex) ∨
        (era < self.lastStart ∧ span ∈ self.priors ∧ span.containsEra era = true ∧
          span.index < self.spanIndex)) := by
  rw [iter, List.find?_cons]
  by_cases ongoing : self.lastStart ≤ era
  · refine ⟨{ index := self.spanIndex, start := self.lastStart, length := none }, ?_,
      Or.inl ⟨ongoing, rfl⟩⟩
    simp [containsEra, ongoing]
  · have ended : era < self.lastStart := by omega
    obtain ⟨span, mem, contains⟩ := exists_priorSpan self.lastStart self.spanIndex self.prior
      era chained.fits covered ended
    have notOngoing : containsEra
        { index := self.spanIndex, start := self.lastStart, length := none } era = false := by
      simp [containsEra, ended]
    rw [notOngoing]
    have isSome : ((priorSpans self.lastStart self.spanIndex self.prior).find?
        (·.containsEra era)).isSome := List.find?_isSome.mpr ⟨span, mem, contains⟩
    obtain ⟨target, found⟩ := isSome_iff_exists.mp isSome
    have inPriors := mem_of_find?_eq_some found
    obtain ⟨_, _, _, _, lower, _⟩ := mem_priorSpans chained.fits chained.counted inPriors
    exact ⟨target, found, Or.inr ⟨ended, inPriors, by simpa using List.find?_some found, lower⟩⟩

theorem endSpan_eq (begun : self.lastStart ≤ now) :
    self.endSpan now = (true, { self with
      prior := (now + 1 - self.lastStart) :: self.prior
      lastStart := now + 1
      spanIndex := self.spanIndex + 1 }) := by
  rw [endSpan]
  exact if_neg (by omega)

theorem endSpan_eq_self (kept : (self.endSpan now).1 = false) : (self.endSpan now).2 = self := by
  by_cases begun : self.lastStart ≤ now
  · rw [endSpan_eq begun] at kept
    cases kept
  · rw [endSpan]
    exact congrArg Prod.snd (if_pos (by omega))

/-- The ongoing span, as it is once it was ended. -/
def endedSpan (self : SlashingSpans) (now : Nat) : SlashingSpan where
  index := self.spanIndex
  start := self.lastStart
  length := some (now + 1 - self.lastStart)

theorem priors_endSpan (begun : self.lastStart ≤ now) :
    (self.endSpan now).2.priors = self.endedSpan now :: self.priors := by
  have start : now + 1 - (now + 1 - self.lastStart) = self.lastStart := by omega
  rw [endSpan_eq begun]
  simp only [priors, priorSpans, endedSpan, start, Nat.add_sub_cancel]

theorem Chained.endSpan (chained : self.Chained) (begun : self.lastStart ≤ now) :
    (self.endSpan now).2.Chained ∧ (self.endSpan now).2.firstEra = self.firstEra := by
  have fits := chained.fits
  have counted := chained.counted
  rw [endSpan_eq begun]
  refine ⟨⟨?_, ?_, ?_⟩, ?_⟩
  · rw [sum_cons]
    dsimp only
    omega
  · rw [length_cons]
    dsimp only
    omega
  · intro length mem
    rcases mem_cons.mp mem with rfl | earlier
    · omega
    · exact chained.proper length earlier
  · simp only [firstEra, sum_cons]
    omega

/-- What pruning does to a chain. -/
structure Pruned (spans after : SlashingSpans) (range : Option (Nat × Nat)) (windowStart : Nat) :
    Prop where
  chained : after.Chained
  spanIndex_eq : after.spanIndex = spans.spanIndex
  lastStart_le : spans.lastStart ≤ after.lastStart
  priors_subset : ∀ span ∈ after.priors, span ∈ spans.priors
  covers : spans.firstEra ≤ windowStart → after.firstEra ≤ windowStart
  /-- The range holds no index of a span that is left. -/
  range_below : ∀ start stop, range = some (start, stop) →
    stop ≤ spans.spanIndex ∧ ∀ span ∈ after.priors, stop ≤ span.index

/-- What `prune` returns: the lengths before the first old span are kept. The spans that are kept
reach back to the window, and they end after its start. -/
theorem Chained.prune_eq (chained : self.Chained) (windowStart : Nat) :
    ∃ count ≤ self.prior.length, self.prune windowStart =
        (if count < self.prior.length then
          some (self.spanIndex - self.prior.length, self.spanIndex - count) else none,
        { self with
          prior := self.prior.take count
          lastStart := max self.lastStart windowStart }) ∧
      (count < self.prior.length → self.lastStart - (self.prior.take count).sum ≤ windowStart) ∧
      (count ≠ 0 → windowStart < self.lastStart) := by
  have skipped : self.iter.drop 1 = priorSpans self.lastStart self.spanIndex self.prior := rfl
  cases found : (priorSpans self.lastStart self.spanIndex self.prior).findIdx?
      (isOld windowStart) with
  | none =>
    have later := (take_of_findIdx chained.fits found).2
    refine ⟨self.prior.length, le_refl _, ?_, fun less => absurd less (Nat.lt_irrefl _), later⟩
    simp only [SlashingSpans.prune, skipped, found, take_length, Nat.lt_irrefl, if_false]
  | some count =>
    obtain ⟨reaches, later⟩ := take_of_findIdx chained.fits found
    have less : count < self.prior.length := by
      have bound := (findIdx?_eq_some_iff_getElem.mp found).1
      rwa [length_priorSpans] at bound
    refine ⟨count, less.le, ?_, fun _ => reaches count rfl, later⟩
    simp only [SlashingSpans.prune, skipped, found, if_pos less, length_take, min_eq_left less.le]

/-- **Pruning takes away spans that ended before the window.** -/
theorem Chained.prune (chained : self.Chained) (windowStart : Nat) :
    Pruned self (self.prune windowStart).2 (self.prune windowStart).1 windowStart := by
  have fits := chained.fits
  have counted := chained.counted
  obtain ⟨count, short, after, reaches, later⟩ := chained.prune_eq windowStart
  have shorter : (self.prior.take count).length = count := length_take_of_le short
  have sum_le : (self.prior.take count).sum ≤ self.lastStart :=
    le_trans (List.Sublist.sum_le_sum (take_sublist _ _) (by simp)) fits
  have unmoved : priorSpans (max self.lastStart windowStart) self.spanIndex
      (self.prior.take count) =
        priorSpans self.lastStart self.spanIndex (self.prior.take count) := by
    by_cases zero : count = 0
    · rw [zero]
      rfl
    · rw [max_eq_left (later zero).le]
  rw [after]
  refine ⟨⟨?_, ?_, ?_⟩, rfl, Nat.le_max_left _ _, ?_, ?_, ?_⟩
  · exact le_trans sum_le (Nat.le_max_left _ _)
  · dsimp only
    omega
  · exact fun length mem => chained.proper length (mem_of_mem_take mem)
  · intro span mem
    rw [priors, unmoved, priorSpans_take] at mem
    exact mem_of_mem_take mem
  · intro covered
    simp only [firstEra] at covered ⊢
    by_cases less : count < self.prior.length
    · have reached := reaches less
      omega
    · rw [take_of_length_le (by omega)]
      omega
  · intro start stop range
    dsimp only at range
    split at range
    · obtain ⟨-, rfl⟩ := Prod.mk.inj (some.inj range)
      refine ⟨Nat.sub_le _ _, fun span mem => ?_⟩
      rw [priors, unmoved] at mem
      obtain ⟨_, _, _, _, _, upper, _⟩ := mem_priorSpans sum_le (by omega) mem
      omega
    · cases range

/-! ## The spans are a partition -/

/-- The older span ends where the newer one starts, and their indices are consecutive. -/
def Adjacent (newer older : SlashingSpan) : Prop :=
  older.index + 1 = newer.index ∧
    ∃ length, older.length = some length ∧ older.start + length = newer.start

theorem isChain_priorSpans (span : SlashingSpan) (fits : prior.sum ≤ span.start)
    (counted : prior.length ≤ span.index) :
    (span :: priorSpans span.start span.index prior).IsChain Adjacent := by
  induction prior generalizing span with
  | nil => exact .singleton span
  | cons length rest ih =>
    rw [sum_cons] at fits
    rw [length_cons] at counted
    have tail := ih { index := span.index - 1, start := span.start - length, length := some length }
      (by dsimp only; omega) (by dsimp only; omega)
    refine .cons_cons ⟨?_, length, rfl, ?_⟩ tail
    · dsimp only
      omega
    · dsimp only
      omega

theorem exists_index_iff (counted : prior.length ≤ index) (lastStart other : Nat) :
    (∃ span ∈ priorSpans lastStart index prior, span.index = other) ↔
      index - prior.length ≤ other ∧ other < index := by
  induction prior generalizing lastStart index with
  | nil =>
    simp only [priorSpans, not_mem_nil, false_and, exists_false, length_nil, false_iff]
    omega
  | cons length rest ih =>
    rw [length_cons] at counted ⊢
    rw [priorSpans, exists_mem_cons_iff, ih (by omega)]
    dsimp only
    omega

/-- The spans from the newest to the oldest: the newest one is unbounded, the others are adjacent,
and an era from the start of one of them on lies in exactly one. -/
structure Partition (spans : SlashingSpans) : Prop where
  newest : ∃ span, spans.iter.head? = some span ∧ span.length = none
  adjacent : spans.iter.IsChain Adjacent
  covered : ∀ first ∈ spans.iter, ∀ era, first.start ≤ era →
    ∃! span, span ∈ spans.iter ∧ span.containsEra era = true

/-- `prune` returns the range of the indices that disappear. -/
def PrunesRange (self : SlashingSpans) (windowStart : Nat) : Prop :=
  let (range, pruned) := self.prune windowStart
  ∀ index, (∃ start stop, range = some (start, stop) ∧ start ≤ index ∧ index < stop) ↔
    (∃ span ∈ self.iter, span.index = index) ∧ ¬ ∃ span ∈ pruned.iter, span.index = index

namespace Chained

variable (chained : self.Chained)

include chained

theorem exists_index_iff (other : Nat) : (∃ span ∈ self.iter, span.index = other) ↔
    self.spanIndex - self.prior.length ≤ other ∧ other ≤ self.spanIndex := by
  have counted := chained.counted
  rw [iter, exists_mem_cons_iff, SlashingSpans.exists_index_iff counted]
  dsimp only
  omega

theorem partition : self.Partition := by
  refine ⟨⟨_, rfl, rfl⟩, isChain_priorSpans
    { index := self.spanIndex, start := self.lastStart, length := none } chained.fits
    chained.counted, fun first listed era later => ?_⟩
  have start : self.firstEra ≤ first.start := by
    rcases mem_cons.mp listed with rfl | prior
    · exact Nat.sub_le _ _
    · obtain ⟨_, _, _, _, _, _, start⟩ := mem_priorSpans chained.fits chained.counted prior
      exact start
  obtain ⟨span, found, _⟩ := find_span chained (start.trans later)
  have mem := mem_of_find?_eq_some found
  have contains : span.containsEra era = true := by simpa using List.find?_some found
  refine ⟨span, ⟨mem, contains⟩, fun other ⟨there, also⟩ => ?_⟩
  exact chained.eq_of_meet there mem (.inr ⟨era, also, contains⟩)

theorem prunesRange (windowStart : Nat) : self.PrunesRange windowStart := by
  have counted := chained.counted
  have after := (chained.prune windowStart).chained
  obtain ⟨count, short, pruned, _⟩ := chained.prune_eq windowStart
  unfold PrunesRange
  rw [pruned] at after ⊢
  intro index
  have kept : (self.prior.take count).length = count := length_take_of_le short
  rw [chained.exists_index_iff, after.exists_index_iff, kept]
  dsimp only
  constructor
  · rintro ⟨start, stop, range, low, high⟩
    split at range
    · cases range
      omega
    · cases range
  · intro gone
    have less : count < self.prior.length := by omega
    rw [if_pos less]
    exact ⟨_, _, rfl, by omega⟩

end Chained

inductive Call
  | endSpan (now : Nat)
  | prune (windowStart : Nat)

def step (self : SlashingSpans) : Call → Except Empty SlashingSpans
  | .endSpan now => .ok (self.endSpan now).2
  | .prune windowStart => .ok (self.prune windowStart).2

/-- **The slashing spans are a partition** after any calls, and `prune` returns the range of the
indices that disappear. -/
theorem reachable_partition {windowStart : Nat} {self : SlashingSpans}
    (reached : Reachable step (fun _ _ => True) (new windowStart) self) :
    self.Chained ∧ self.Partition ∧ ∀ windowStart, self.PrunesRange windowStart := by
  have chained : self.Chained := by
    refine reached.invariant (chained_new windowStart) fun spans call next kept _ ran => ?_
    cases call with
    | endSpan now =>
      cases ran
      by_cases begun : spans.lastStart ≤ now
      · exact (kept.endSpan begun).1
      · have same : (spans.endSpan now).2 = spans := congrArg Prod.snd (if_pos (by omega))
        rwa [same]
    | prune windowStart =>
      cases ran
      exact (kept.prune windowStart).chained
  exact ⟨chained, chained.partition, chained.prunesRange⟩

/-- The spans of a stash that was slashed in era 4 and again in era 7. -/
theorem reachable_partition_slashed :
    ({ spanIndex := 2, lastStart := 8, lastNonzeroSlash := 0, prior := [3] } :
      SlashingSpans).Partition := by
  have reached : Reachable step (fun _ _ => True) (new 2)
      { spanIndex := 2, lastStart := 8, lastNonzeroSlash := 0, prior := [3] } :=
    reachable_of_run [.endSpan 4, .endSpan 7, .prune 5] rfl
  exact (reachable_partition reached).2.1

end SlashingSpans

end Brace.Staking
