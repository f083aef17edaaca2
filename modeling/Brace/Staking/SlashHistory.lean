import Brace.Staking.EraSlashes

/-!
# Slashing charges the maximum of a span, once

Runs of `compute_slash` from an empty store. The charges of a span add up to its record, which is
the maximum over its eras of what was reported (`charges_maximum_once`), as long as the reports
about a validator in an era agree on its exposure.
-/

namespace Brace.Staking

open Brace.Lib Brace.Arithmetic List

variable {AccountId : Type} [DecidableEq AccountId]

/-- What a stash is charged by a record. -/
def UnappliedSlash.chargedTo (slash : UnappliedSlash AccountId) (stash : AccountId) : Nat :=
  (if slash.validator = stash then slash.own else 0) +
    ((slash.others.filter fun other => other.1 = stash).map (·.2)).sum

/-- The store and the history of a run: the calls, the records that they returned with the era of
the slash, and the charges with their rewards. -/
structure History (AccountId : Type) where
  store : SlashStore AccountId
  calls : List (SlashParams AccountId)
  records : List (Nat × UnappliedSlash AccountId)
  charges : List (Nat × Charge AccountId)
deriving DecidableEq

namespace History

/-- Before the first call. -/
def start : History AccountId := ⟨⟨∅, ∅, ∅, ∅⟩, [], [], []⟩

variable (history : History AccountId)

/-- One call of `compute_slash`. -/
def step (params : SlashParams AccountId) : Except Empty (History AccountId) :=
  let computed := computeSlash params history.store
  .ok {
    store := computed.2
    calls := params :: history.calls
    records := (computed.1.map (params.slashEra, ·)).toList ++ history.records
    charges :=
      outcomeEntries params.slashEra (computeCharges params history.store).1 ++ history.charges }

/-- What is promised about a call: the era of the slash lies in the window, the window and the
current era do not go back, and the reward proportion is a constant. -/
def Orderly (rewardProportion : Perbill) (history : History AccountId)
    (params : SlashParams AccountId) : Prop :=
  params.windowStart ≤ params.slashEra ∧ params.slashEra ≤ params.now ∧
    params.rewardProportion = rewardProportion ∧
    ∀ call ∈ history.calls, call.windowStart ≤ params.windowStart ∧ call.now ≤ params.now

/-- All reports about a validator in an era have one exposure. -/
def SameExposure (params : SlashParams AccountId) : Prop :=
  ∀ call ∈ history.calls, call.concerns params.slashEra params.stash = true →
    call.exposure = params.exposure

instance (rewardProportion : Perbill) (history : History AccountId)
    (params : SlashParams AccountId) : Decidable (Orderly rewardProportion history params) :=
  inferInstanceAs (Decidable (_ ∧ _ ∧ _ ∧ _))

instance (history : History AccountId) (params : SlashParams AccountId) :
    Decidable (SameExposure history params) :=
  inferInstanceAs (Decidable (∀ call ∈ history.calls, _ → _))

/-- What the records of the eras of a span charge to a stash. -/
def chargedIn (stash : AccountId) (span : SlashingSpan) : Nat :=
  ((history.records.filter fun record => span.containsEra record.1).map
    (·.2.chargedTo stash)).sum

/-- What is paid out as reward for the charges of a stash in the eras of a span. -/
def rewardedIn (stash : AccountId) (span : SlashingSpan) : Nat :=
  ((chargesIn span (chargesOf stash history.charges)).map (·.reward)).sum

/-! ## Records and charges -/

/-- The records charge what the charges behind them say. -/
structure Matched (history : History AccountId) : Prop where
  charged : ∀ stash (test : Nat → Bool),
    ((history.records.filter fun record => test record.1).map (·.2.chargedTo stash)).sum =
      (((chargesOf stash history.charges).filter fun entry => test entry.1).map
        (·.2.amount)).sum
  paid : (history.records.map (·.2.payout)).sum = (history.charges.map (·.2.reward)).sum

theorem chargedTo_ofCharges {validator : AccountId}
    {charges : Charge AccountId × List (Charge AccountId)} (isValidator : charges.1.who = validator)
    (stash : AccountId) :
    (UnappliedSlash.ofCharges validator charges).chargedTo stash =
      (((charges.1 :: charges.2).filter fun charge => charge.who = stash).map (·.amount)).sum := by
  have others : (((charges.2.map fun charge => (charge.who, charge.amount)).filter
        fun other => other.1 = stash).map (·.2)).sum =
      ((charges.2.filter fun charge => charge.who = stash).map (·.amount)).sum := by
    rw [filter_map, map_map]
    rfl
  simp only [UnappliedSlash.chargedTo, UnappliedSlash.ofCharges, others, ← isValidator]
  by_cases same : charges.1.who = stash <;> simp [same]

theorem chargesOf_chargeEntries (stash : AccountId) (era : Nat)
    (charges : List (Charge AccountId)) :
    chargesOf stash (chargeEntries era charges) =
      chargeEntries era (charges.filter fun charge => charge.who = stash) := by
  rw [chargesOf, chargeEntries, chargeEntries, filter_reverse, filter_map]
  rfl

section

omit [DecidableEq AccountId]

theorem filter_chargeEntries (test : Nat → Bool) (era : Nat) (charges : List (Charge AccountId)) :
    (chargeEntries era charges).filter (fun entry => test entry.1) =
      if test era then chargeEntries era charges else [] := by
  rw [chargeEntries, filter_reverse, filter_map]
  cases isIn : test era <;> simp [Function.comp_def, isIn]

theorem sum_chargeEntries (value : Charge AccountId → Nat) (era : Nat)
    (charges : List (Charge AccountId)) :
    ((chargeEntries era charges).map fun entry => value entry.2).sum =
      (charges.map value).sum := by
  rw [chargeEntries, map_reverse, sum_reverse, map_map]
  rfl

end

variable {params : SlashParams AccountId} {next : History AccountId}

theorem Matched.step {history : History AccountId} (held : Matched history)
    (isStash : ∀ charges, (computeCharges params history.store).1 = some charges →
      charges.1.who = params.stash) (stepped : history.step params = .ok next) : Matched next := by
  obtain rfl := Except.ok.inj stepped
  cases outcome : (computeCharges params history.store).1 with
  | none =>
    simp only [computeSlash, outcome, Option.map_none, Option.toList_none, nil_append,
      outcomeEntries]
    exact ⟨held.charged, held.paid⟩
  | some charges =>
    have who := isStash charges outcome
    simp only [computeSlash, outcome, Option.map_some, Option.toList_some, singleton_append,
      outcomeEntries]
    constructor
    · intro stash test
      have before := held.charged stash test
      have amounts := chargedTo_ofCharges who stash
      have entries := chargesOf_chargeEntries stash params.slashEra (charges.1 :: charges.2)
      unfold chargesOf at entries before ⊢
      rw [filter_append, entries, filter_append, filter_chargeEntries, map_append,
        sum_append, ← before]
      by_cases isIn : test params.slashEra = true
      · rw [filter_cons_of_pos (by exact isIn), map_cons, sum_cons, if_pos isIn,
          sum_chargeEntries, amounts]
      · rw [filter_cons_of_neg (by exact isIn), if_neg isIn, map_nil, sum_nil, Nat.zero_add]
    · rw [map_cons, sum_cons, map_append, sum_append, sum_chargeEntries, held.paid]
      rfl

/-! ## The accounts -/

structure Consistent (rewardProportion : Perbill) (history : History AccountId) : Prop where
  /-- The accounts are kept, for every window that does not go back. -/
  spans : ∀ windowStart, (∀ call ∈ history.calls, call.windowStart ≤ windowStart) →
    SpansKept rewardProportion windowStart history.charges history.store
  reported : Reported history.calls history.store
  compared : Assessed history.charges history.store
  matched : Matched history

variable {rewardProportion : Perbill} {history : History AccountId}

theorem Consistent.step (held : Consistent rewardProportion history)
    (orderly : Orderly rewardProportion history params) (same : SameExposure history params)
    (stepped : history.step params = .ok next) : Consistent rewardProportion next := by
  obtain ⟨inWindow, notLater, rfl, ordered⟩ := orderly
  have spans := held.spans params.windowStart fun call mem => (ordered call mem).1
  obtain ⟨outcome, after, computed, isStash, spansAfter, reported, compared⟩ :=
    computeCharges_kept inWindow notLater same spans held.reported held.compared
  have matched : Matched next := by
    refine held.matched.step ?_ stepped
    rw [computed]
    exact isStash
  obtain rfl := Except.ok.inj stepped
  simp only [computeSlash, computed] at matched ⊢
  refine ⟨?_, reported, compared, matched⟩
  intro windowStart bounds
  refine ⟨fun stash spans found => ?_, spansAfter.unknown⟩
  have kept := spansAfter.known stash spans found
  exact { kept with covers := le_trans kept.covers (bounds params mem_cons_self) }

theorem consistent_of_reachable (reached : Reachable step
      (fun history params => Orderly rewardProportion history params ∧
        SameExposure history params) start history) : Consistent rewardProportion history := by
  refine reached.invariant ?_ ?_
  · refine ⟨fun windowStart _ => ⟨fun stash spans found => ?_,
      fun stash _ => ⟨rfl, fun index => ?_⟩⟩,
      Reported.empty, fun era stash => rfl, ⟨fun _ _ => rfl, rfl⟩⟩
    · simp [start] at found
    · simp [recordOf, start]
  · intro history params next held allowed stepped
    exact held.step allowed.1 allowed.2 stepped

theorem isGreatest_assessed (span : SlashingSpan) {first : Nat}
    (begins : span.containsEra first = true) (entries : List (Nat × Charge AccountId))
    (stash : AccountId) :
    IsGreatest {amount | ∃ era, span.containsEra era = true ∧ assessed entries stash era = amount}
      (maxOf ((chargesIn span (chargesOf stash entries)).map (·.eraSlash))) := by
  have bounded : ∀ era, span.containsEra era = true → assessed entries stash era ≤
      maxOf ((chargesIn span (chargesOf stash entries)).map (·.eraSlash)) := by
    intro era contains
    refine maxOf_le ?_
    intro amount found
    obtain ⟨entry, mem, rfl⟩ := mem_map.mp found
    obtain ⟨mine, isEra⟩ := mem_filter.mp mem
    simp only [decide_eq_true_eq] at isEra
    refine le_maxOf (mem_map_of_mem (mem_map_of_mem (mem_filter.mpr ⟨mine, ?_⟩)))
    rw [isEra]
    exact contains
  refine ⟨?_, ?_⟩
  · by_cases empty : chargesIn span (chargesOf stash entries) = []
    · refine ⟨first, begins, ?_⟩
      have none := bounded first begins
      rw [empty] at none ⊢
      exact Nat.le_zero.mp none
    · -- the charge with the highest slash attains it in its era
      have some : (chargesIn span (chargesOf stash entries)).map (·.eraSlash) ≠ [] :=
        mt map_eq_nil_iff.mp empty
      have attained := maxOf_mem some
      obtain ⟨charge, listed, highest⟩ := mem_map.mp attained
      obtain ⟨entry, mem, rfl⟩ := mem_map.mp listed
      obtain ⟨mine, contains⟩ := mem_filter.mp mem
      refine ⟨entry.1, contains, le_antisymm (bounded entry.1 contains) ?_⟩
      rw [← highest]
      exact le_maxOf (mem_map_of_mem (mem_filter.mpr ⟨mine, by simp⟩))
  · rintro amount ⟨era, contains, rfl⟩
    exact bounded era contains

/-- **Slashing charges the maximum of a span, once.** In every run, for every span that is kept,
the records of its eras charge the stash exactly what the record of the span says, that is the
maximum over its eras of the slash of the stash, and the rewards are at most their proportion of
it. -/
theorem charges_maximum_once (rewardProportion : Perbill) {history : History AccountId}
    (reached : Reachable step
      (fun history params => Orderly rewardProportion history params ∧
        SameExposure history params) start history) {stash : AccountId} {spans : SlashingSpans}
    (kept : Finmap.lookup stash history.store.slashingSpans = some spans) {span : SlashingSpan}
    (inside : span ∈ spans.iter) :
    history.chargedIn stash span = (recordOf history.store stash span.index).slashed ∧
    IsGreatest {amount | ∃ era, span.containsEra era = true ∧
      eraSlash history.calls stash era = amount}
      (recordOf history.store stash span.index).slashed ∧
    history.rewardedIn stash span = (recordOf history.store stash span.index).paidOut ∧
    history.rewardedIn stash span ≤
      rewardProportion.times (recordOf history.store stash span.index).slashed ∧
    (history.records.map (·.2.payout)).sum = (history.charges.map (·.2.reward)).sum := by
  have consistent := consistent_of_reachable reached
  have bounds : ∀ call ∈ history.calls,
      call.windowStart ≤ maxOf (history.calls.map (·.windowStart)) :=
    fun call listed => le_maxOf (mem_map_of_mem listed)
  have account := (consistent.spans _ bounds).known stash spans kept
  have accounts := account.accounts_iter inside
  have begins := account.chained.containsEra_start inside
  refine ⟨?_, ?_, accounts.rewarded, ?_, consistent.matched.paid⟩
  · rw [← accounts.charged, chargesIn, map_map]
    exact consistent.matched.charged stash span.containsEra
  · have greatest := isGreatest_assessed span begins history.charges stash
    simp only [fun era => consistent.compared era stash, consistent.reported.own,
      consistent.reported.nominated] at greatest
    rw [← accounts.highest]
    exact greatest
  · rw [rewardedIn, accounts.rewarded]
    exact accounts.bounded

/-- A report about validator 1, with account 2 as its nominator. -/
def report (slashEra now percent own nominated : Nat) : SlashParams Nat where
  stash := 1
  slash := .fromPercent percent
  exposure :=
    { total := own + nominated, own, others := [{ who := 2, value := nominated }],
      covered := by simp }
  slashEra
  windowStart := 0
  now
  rewardProportion := .fromPercent 10

/-- Two eras of one span: the span is charged with the higher slash. -/
theorem charges_maximum_once_twice :
    ∃ history, (Reachable step (fun history params =>
        Orderly (.fromPercent 10) history params ∧ SameExposure history params) start history ∧
        Finmap.lookup 1 history.store.slashingSpans = some ⟨1, 3, 1, [3]⟩) ∧
      history.chargedIn 1 ⟨0, 0, some 3⟩ = (recordOf history.store 1 0).slashed := by
  have found : ∃ history, Reachable step (fun history params =>
      Orderly (.fromPercent 10) history params ∧ SameExposure history params) start history ∧
      history.store.slashingSpans.lookup 1 = some ⟨1, 3, 1, [3]⟩ :=
    exists_reachable_of_run [report 0 2 10 1000 500, report 1 2 20 1000 500] (by decide +kernel)
  obtain ⟨history, reached, kept⟩ := found
  have mem : (⟨0, 0, some 3⟩ : SlashingSpan) ∈ SlashingSpans.iter ⟨1, 3, 1, [3]⟩ := by decide
  exact ⟨history, ⟨reached, kept⟩, (charges_maximum_once _ reached kept mem).1⟩

/-- Two reports about one validator and era with different exposures: the one with the higher
fraction counts, though the other one reports the higher slash. -/
theorem lower_fraction_ignored :
    ∃ history : History Nat, Reachable step (Orderly (.fromPercent 10)) start history ∧
      Finmap.lookup 1 history.store.slashingSpans = some ⟨1, 1, 0, [1]⟩ ∧
      (⟨0, 0, some 1⟩ : SlashingSpan) ∈ SlashingSpans.iter ⟨1, 1, 0, [1]⟩ ∧
      (recordOf history.store 1 0).slashed = 20 ∧ eraSlash history.calls 1 0 = 100 :=
  exists_reachable_of_run [report 0 0 20 100 0, report 0 0 10 1000 0] (by decide +kernel)

end History

end Brace.Staking
