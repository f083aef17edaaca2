import Brace.Staking.Spans

/-!
# What a span is charged

A stash is charged in a span with the difference between its slash in an era and what the span was
charged before, when that is positive. Hence the charges of a span add up to the highest slash that
was compared with it, and the rewards stay below their proportion of that (`Accounts`). A charge in
the ongoing span ends it, so that the ongoing span of a stash never has charges (`Kept`).
-/

namespace Brace.Staking

open Brace.Lib Brace.Arithmetic List SlashingSpans

variable {AccountId : Type}

/-! ## The account of one span -/

/-- The largest of a list of amounts, zero if there is none. -/
def maxOf (amounts : List Nat) : Nat := (amounts : Multiset Nat).sup

theorem maxOf_cons (amount : Nat) (amounts : List Nat) :
    maxOf (amount :: amounts) = max amount (maxOf amounts) :=
  Multiset.sup_cons amount amounts

variable {amounts : List Nat} {span : SlashingSpan} {era : Nat}

theorem maxOf_le {bound : Nat} (bounded : ∀ amount ∈ amounts, amount ≤ bound) :
    maxOf amounts ≤ bound :=
  Multiset.sup_le.mpr bounded

theorem le_maxOf {amount : Nat} (mem : amount ∈ amounts) : amount ≤ maxOf amounts :=
  Multiset.le_sup mem

theorem maxOf_mem (some : amounts ≠ []) : maxOf amounts ∈ amounts := by
  induction amounts with
  | nil => exact absurd rfl some
  | cons amount rest ih =>
    rw [maxOf_cons]
    by_cases last : rest = []
    · subst last
      have only : maxOf ([] : List Nat) = 0 := rfl
      rw [only, Nat.max_zero]
      exact mem_cons_self
    · rcases Nat.le_total amount (maxOf rest) with below | above
      · rw [Nat.max_eq_right below]
        exact mem_cons_of_mem _ (ih last)
      · rw [Nat.max_eq_left above]
        exact mem_cons_self

variable (rewardProportion : Perbill)

/-- The record after a slash was compared with it. -/
def SpanRecord.raise (slash : Nat) (record : SpanRecord) : SpanRecord where
  slashed := max record.slashed slash
  paidOut := record.paidOut + InspectingSpans.rewardOf rewardProportion record slash

/-- The charge for a slash that was compared with a record. -/
def Charge.forSlash (who : AccountId) (rewardProportion : Perbill) (record : SpanRecord)
    (slash : Nat) : Charge AccountId where
  who := who
  eraSlash := slash
  amount := slash - record.slashed
  reward := InspectingSpans.rewardOf rewardProportion record slash

/-- A record accounts for the charges of its span. -/
structure Accounts (charges : List (Charge AccountId)) (record : SpanRecord) : Prop where
  charged : (charges.map (·.amount)).sum = record.slashed
  highest : maxOf (charges.map (·.eraSlash)) = record.slashed
  rewarded : (charges.map (·.reward)).sum = record.paidOut
  bounded : record.paidOut ≤ rewardProportion.times record.slashed

theorem Accounts.raise {rewardProportion : Perbill} {charges : List (Charge AccountId)}
    {record : SpanRecord} (held : Accounts rewardProportion charges record) (who : AccountId)
    (slash : Nat) :
    Accounts rewardProportion (Charge.forSlash who rewardProportion record slash :: charges)
      (record.raise rewardProportion slash) where
  charged := by
    rw [map_cons, sum_cons, held.charged]
    simp only [Charge.forSlash, SpanRecord.raise]
    omega
  highest := by
    rw [map_cons, maxOf_cons, held.highest]
    exact Nat.max_comm _ _
  rewarded := by
    rw [map_cons, sum_cons, held.rewarded]
    exact Nat.add_comm _ _
  bounded := by
    have before := held.bounded
    simp only [SpanRecord.raise]
    by_cases raised : record.slashed ≤ slash
    · have reward : InspectingSpans.rewardOf rewardProportion record slash ≤
          rewardProportion.times slash - record.paidOut := by
        rw [InspectingSpans.rewardOf, if_pos raised]
        exact rewardF1.times_le _
      have more := rewardProportion.times_mono_right raised
      rw [Nat.max_eq_right raised]
      omega
    · have none : InspectingSpans.rewardOf rewardProportion record slash = 0 := if_neg raised
      rw [Nat.max_eq_left (by omega), none]
      exact before

/-! ## The account of one stash -/

/-- The charges of the eras of a span. -/
def chargesIn (span : SlashingSpan) (mine : List (Nat × Charge AccountId)) :
    List (Charge AccountId) :=
  (mine.filter fun entry => span.containsEra entry.1).map (·.2)

theorem chargesIn_cons (charge : Charge AccountId) (mine : List (Nat × Charge AccountId)) :
    chargesIn span ((era, charge) :: mine) =
      if span.containsEra era then charge :: chargesIn span mine else chargesIn span mine := by
  cases contains : span.containsEra era <;> simp [chargesIn, contains]

/-- The charges of a stash, by era, against its spans and their records. -/
structure Kept (rewardProportion : Perbill) (windowStart : Nat)
    (mine : List (Nat × Charge AccountId)) (record : Nat → SpanRecord) (spans : SlashingSpans) :
    Prop where
  chained : spans.Chained
  covers : spans.firstEra ≤ windowStart
  ended : ∀ entry ∈ mine, entry.1 < spans.lastStart
  fresh : ∀ index, spans.spanIndex ≤ index → record index = {}
  accounts : ∀ span ∈ spans.priors,
    Accounts rewardProportion (chargesIn span mine) (record span.index)

namespace Kept

variable {rewardProportion : Perbill} {windowStart : Nat} {mine : List (Nat × Charge AccountId)}
  {record : Nat → SpanRecord} {spans : SlashingSpans}

variable {now era : Nat}

section

variable (held : Kept rewardProportion windowStart mine record spans)

include held

theorem accounts_ongoing {span : SlashingSpan} (starts : spans.lastStart ≤ span.start)
    (numbered : spans.spanIndex ≤ span.index) :
    Accounts rewardProportion (chargesIn span mine) (record span.index) := by
  have none : chargesIn span mine = [] := by
    rw [chargesIn, map_eq_nil_iff, filter_eq_nil_iff]
    intro entry mineEntry contains
    have before := held.ended entry mineEntry
    simp only [SlashingSpan.containsEra, Bool.and_eq_true, decide_eq_true_eq] at contains
    omega
  rw [none, held.fresh span.index numbered]
  exact ⟨rfl, rfl, rfl, Nat.zero_le _⟩

theorem endSpan (begun : spans.lastStart ≤ now) :
    Kept rewardProportion windowStart mine record (spans.endSpan now).2 := by
  obtain ⟨chained, first⟩ := held.chained.endSpan begun
  have after := endSpan_eq begun
  refine ⟨chained, first.trans_le held.covers, ?_, ?_, ?_⟩
  · intro entry mem
    have := held.ended entry mem
    rw [after]
    dsimp only
    omega
  · intro index above
    rw [after] at above
    dsimp only at above
    exact held.fresh index (by omega)
  · intro span mem
    rw [priors_endSpan begun] at mem
    rcases mem_cons.mp mem with rfl | earlier
    · exact held.accounts_ongoing le_rfl le_rfl
    · exact held.accounts span earlier

theorem charge {target : SlashingSpan} (prior : target ∈ spans.priors)
    (contains : target.containsEra era = true) (who : AccountId) (slash : Nat) :
    Kept rewardProportion windowStart
      ((era, Charge.forSlash who rewardProportion (record target.index) slash) :: mine)
      (Function.update record target.index
        ((record target.index).raise rewardProportion slash)) spans := by
  obtain ⟨length, -, isEnded, before, lower, -⟩ :=
    mem_priorSpans held.chained.fits held.chained.counted prior
  refine ⟨held.chained, held.covers, ?_, ?_, ?_⟩
  · intro entry mem
    rcases mem_cons.mp mem with rfl | earlier
    · have within := (SlashingSpan.containsEra_iff isEnded era).mp contains
      dsimp only
      omega
    · exact held.ended entry earlier
  · intro index above
    rw [Function.update_of_ne (by omega)]
    exact held.fresh index above
  · intro span mem
    by_cases same : span = target
    · subst same
      rw [chargesIn_cons, if_pos contains, Function.update_self]
      exact (held.accounts span mem).raise who slash
    · have apart := mt (held.chained.eq_of_meet (mem_cons_of_mem _ mem) (mem_cons_of_mem _ prior))
        same
      have distinct : span.index ≠ target.index := fun equal => apart (.inl equal)
      have misses : ¬ span.containsEra era := fun here => apart (.inr ⟨era, here, contains⟩)
      rw [chargesIn_cons, if_neg misses, Function.update_of_ne distinct]
      exact held.accounts span mem

theorem chargeOngoing (ongoing : spans.lastStart ≤ era) (notLater : era ≤ now) (who : AccountId)
    (slash : Nat) :
    Kept rewardProportion windowStart
      ((era, Charge.forSlash who rewardProportion (record spans.spanIndex) slash) :: mine)
      (Function.update record spans.spanIndex
        ((record spans.spanIndex).raise rewardProportion slash)) (spans.endSpan now).2 := by
  have begun : spans.lastStart ≤ now := le_trans ongoing notLater
  have prior : spans.endedSpan now ∈ (spans.endSpan now).2.priors := by
    rw [priors_endSpan begun]
    exact mem_cons_self
  exact (held.endSpan begun).charge prior
    ((SlashingSpan.containsEra_iff rfl era).mpr (by simp only [endedSpan]; omega))
    who slash

theorem prune (pruned : Nat → SpanRecord)
    (forgets : ∀ index, pruned index = record index ∨ pruned index = {} ∧
      ∃ start stop, (spans.prune windowStart).1 = some (start, stop) ∧ index < stop) :
    Kept rewardProportion windowStart mine pruned (spans.prune windowStart).2 := by
  have outcome := held.chained.prune windowStart
  refine ⟨outcome.chained, outcome.covers held.covers, ?_, ?_, ?_⟩
  · intro entry mem
    exact lt_of_lt_of_le (held.ended entry mem) outcome.lastStart_le
  · intro index above
    rw [outcome.spanIndex_eq] at above
    rcases forgets index with same | ⟨empty, -⟩
    · rw [same]
      exact held.fresh index above
    · exact empty
  · intro span mem
    have same : pruned span.index = record span.index := by
      rcases forgets span.index with same | ⟨-, start, stop, range, below⟩
      · exact same
      · have := (outcome.range_below start stop range).2 span mem
        omega
    rw [same]
    exact held.accounts span (outcome.priors_subset span mem)

/-- Every span has its account; the ongoing one has no charges. -/
theorem accounts_iter {span : SlashingSpan} (mem : span ∈ spans.iter) :
    Accounts rewardProportion (chargesIn span mine) (record span.index) := by
  rcases mem_cons.mp mem with rfl | prior
  · exact held.accounts_ongoing le_rfl le_rfl
  · exact held.accounts span prior

end

end Kept

end Brace.Staking
