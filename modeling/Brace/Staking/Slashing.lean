import Brace.Arithmetic.Perbill
import Brace.Lib.HashMap

/-!
# Computing slashes

`frame/staking/src/slashing.rs`: a report of misbehaviour of a validator in an era is turned into a
record of what the validator and its nominators have to pay. The slashes of a stash are grouped in
spans of eras; in a span only the largest slash of an era counts, so that a report is charged with
the difference to what was charged before. Four maps hold what was reported and charged. The
notices to other parts of the pallet change none of them and are left out. Eras, spans and balances
are natural numbers.
-/

namespace Brace.Staking

open Brace.Lib Brace.Arithmetic

/-- `IndividualExposure` -/
structure IndividualExposure (AccountId : Type) where
  who : AccountId
  value : Nat
deriving DecidableEq

/-- `Exposure`: the stake behind a validator. -/
structure Exposure (AccountId : Type) where
  /-- The total balance backing the validator. -/
  total : Nat
  /-- The validator's own stash that is exposed. -/
  own : Nat
  /-- The portions of nominators' stashes that are exposed. -/
  others : List (IndividualExposure AccountId)
  covered : own + (others.map (·.value)).sum ≤ total
deriving DecidableEq

/-- `REWARD_F1` -/
def rewardF1 : Perbill := .fromPercent 50

/-! ## Spans -/

/-- `SlashingSpan` -/
structure SlashingSpan where
  index : Nat
  start : Nat
  /-- The number of eras; the ongoing span has none. -/
  length : Option Nat
deriving DecidableEq

/-- `SlashingSpan::contains_era` -/
def SlashingSpan.containsEra (self : SlashingSpan) (era : Nat) : Bool :=
  self.start ≤ era && (match self.length with
    | some length => era < self.start + length
    | none => true)

/-- `SlashingSpans` -/
structure SlashingSpans where
  spanIndex : Nat
  /-- The start era of the ongoing span. -/
  lastStart : Nat
  lastNonzeroSlash : Nat
  /-- The lengths of the prior spans, the most recent first. -/
  prior : List Nat
deriving DecidableEq

namespace SlashingSpans

variable (windowStart : Nat)

/-- `SlashingSpans::new` -/
def new : SlashingSpans :=
  { spanIndex := 0, lastStart := windowStart, lastNonzeroSlash := 0, prior := [] }

/-- `SlashingSpans::end_span` -/
def endSpan (now : Nat) (self : SlashingSpans) : Bool × SlashingSpans :=
  let nextStart := now + 1
  if nextStart ≤ self.lastStart then (false, self)
  else
    (true, { self with
      prior := (nextStart - self.lastStart) :: self.prior
      lastStart := nextStart
      spanIndex := self.spanIndex + 1 })

/-- The prior spans before a span with a start and an index. -/
def priorSpans (lastStart : Nat) (index : Nat) : List Nat → List SlashingSpan
  | [] => []
  | length :: rest =>
    { index := index - 1, start := lastStart - length, length := some length } ::
      priorSpans (lastStart - length) (index - 1) rest

/-- `SlashingSpans::iter`: all spans, the most recent first. -/
def iter (self : SlashingSpans) : List SlashingSpan :=
  { index := self.spanIndex, start := self.lastStart, length := none } ::
    priorSpans self.lastStart self.spanIndex self.prior

/-- Whether a span ended before the window. -/
def isOld (span : SlashingSpan) : Bool :=
  match span.length with
  | some length => span.start + length ≤ windowStart
  | none => false

/-- `SlashingSpans::prune`. Also returns the range of the span indices that were pruned. -/
def prune (self : SlashingSpans) : Option (Nat × Nat) × SlashingSpans :=
  let oldIdx := (self.iter.drop 1).findIdx? (isOld windowStart)
  let earliestSpanIndex := self.spanIndex - self.prior.length
  let lastStart := max self.lastStart windowStart
  match oldIdx with
  | some o =>
    let prior := self.prior.take o
    (some (earliestSpanIndex, self.spanIndex - prior.length), { self with prior, lastStart })
  | none => (none, { self with lastStart })

end SlashingSpans

/-- `SpanRecord` -/
structure SpanRecord where
  slashed : Nat := 0
  /-- What was paid out as reward in the span. -/
  paidOut : Nat := 0
deriving DecidableEq

variable (AccountId : Type)

structure SlashStore where
  /-- `ValidatorSlashInEra`: the highest fraction reported, and the slash of the own stake. -/
  validatorSlashInEra : HashMap (Nat × AccountId) (Perbill × Nat)
  nominatorSlashInEra : HashMap (Nat × AccountId) Nat
  slashingSpans : HashMap AccountId SlashingSpans
  spanSlash : HashMap (AccountId × Nat) SpanRecord
deriving DecidableEq

/-- `UnappliedSlash` -/
structure UnappliedSlash where
  validator : AccountId
  own : Nat
  others : List (AccountId × Nat)
  reporters : List AccountId
  payout : Nat
deriving DecidableEq

/-- `SlashParams` -/
structure SlashParams where
  stash : AccountId
  slash : Perbill
  exposure : Exposure AccountId
  slashEra : Nat
  /-- The first era in the current bonding period. -/
  windowStart : Nat
  now : Nat
  /-- The maximum percentage of a slash that ever gets paid out. -/
  rewardProportion : Perbill
deriving DecidableEq

variable {AccountId : Type} [DecidableEq AccountId]

/-! ## Inspecting the spans of a stash -/

/-- `InspectingSpans` -/
structure InspectingSpans (AccountId : Type) where
  /-- Whether the spans have to be written. -/
  dirty : Bool
  windowStart : Nat
  stash : AccountId
  spans : SlashingSpans
  /-- The reward so far. -/
  paidOut : Nat
  /-- The slash so far. -/
  slashOf : Nat
  rewardProportion : Perbill

/-- `fetch_spans` -/
def fetchSpans (stash : AccountId) (windowStart : Nat) (rewardProportion : Perbill)
    (store : SlashStore AccountId) : InspectingSpans AccountId × SlashStore AccountId :=
  match Finmap.lookup stash store.slashingSpans with
  | some spans =>
    ({ dirty := false, windowStart, stash, spans, paidOut := 0, slashOf := 0, rewardProportion },
      store)
  | none =>
    let spans := SlashingSpans.new windowStart
    ({ dirty := false, windowStart, stash, spans, paidOut := 0, slashOf := 0, rewardProportion },
      { store with slashingSpans := Finmap.insert stash spans store.slashingSpans })

namespace InspectingSpans

/-- `InspectingSpans::end_span` -/
def endSpan (now : Nat) (self : InspectingSpans AccountId) : InspectingSpans AccountId :=
  let ended := self.spans.endSpan now
  { self with spans := ended.2, dirty := ended.1 || self.dirty }

/-- `InspectingSpans::add_slash` -/
def addSlash (amount : Nat) (slashEra : Nat) (self : InspectingSpans AccountId) :
    InspectingSpans AccountId :=
  { self with
    slashOf := self.slashOf + amount
    spans := { self.spans with
      lastNonzeroSlash := max self.spans.lastNonzeroSlash slashEra } }

/-- `InspectingSpans::era_span` -/
def eraSpan (era : Nat) (self : InspectingSpans AccountId) : Option SlashingSpan :=
  self.spans.iter.find? (·.containsEra era)

/-- The reward for a slash in a span: half of what is missing to the whole reward of a slash that
is the highest of the span. -/
def rewardOf (rewardProportion : Perbill) (record : SpanRecord) (slash : Nat) : Nat :=
  if record.slashed ≤ slash then
    rewardF1.times (rewardProportion.times slash - record.paidOut)
  else 0

/-- `InspectingSpans::compare_and_update_span_slash` -/
def compareAndUpdateSpanSlash (slashEra : Nat) (slash : Nat)
    (self : InspectingSpans AccountId) (store : SlashStore AccountId) :
    Option Nat × InspectingSpans AccountId × SlashStore AccountId :=
  match self.eraSpan slashEra with
  | none => (none, self, store)
  | some targetSpan =>
    let key := (self.stash, targetSpan.index)
    let record := (Finmap.lookup key store.spanSlash).getD {}
    let reward := rewardOf self.rewardProportion record slash
    let raised := record.slashed < slash
    let self := if raised then self.addSlash (slash - record.slashed) slashEra else self
    let self := { self with paidOut := self.paidOut + reward }
    let record : SpanRecord :=
      { slashed := if raised then slash else record.slashed, paidOut := record.paidOut + reward }
    if raised ∨ reward ≠ 0 then
      (some targetSpan.index, { self with dirty := true },
        { store with spanSlash := Finmap.insert key record store.spanSlash })
    else
      (some targetSpan.index, self, store)

/-- `Drop for InspectingSpans` -/
def drop (self : InspectingSpans AccountId) (store : SlashStore AccountId) : SlashStore AccountId :=
  if self.dirty then
    let pruned := self.spans.prune self.windowStart
    let spanSlash := match pruned.1 with
      | some (start, stop) =>
        HashMap.eraseAll store.spanSlash
          ((List.range' start (stop - start)).map fun spanIndex => (self.stash, spanIndex))
      | none => store.spanSlash
    { store with
      spanSlash
      slashingSpans := Finmap.insert self.stash pruned.2 store.slashingSpans }
  else store

end InspectingSpans

/-- What a stash is charged, and the reward for it. -/
structure Charge (AccountId : Type) where
  who : AccountId
  /-- Its slash in the era, which was compared with the span. -/
  eraSlash : Nat
  amount : Nat
  reward : Nat
deriving DecidableEq

variable (params : SlashParams AccountId)

/-- Compare the slash of a stash in an era with its span, and end the span if it is the current
one: the same steps for a validator and for a nominator. -/
def chargeStash (stash : AccountId) (slash : Nat) (store : SlashStore AccountId) :
    Charge AccountId × SlashStore AccountId :=
  let (spans, store) := fetchSpans stash params.windowStart params.rewardProportion store
  let (targetSpan, spans, store) := spans.compareAndUpdateSpanSlash params.slashEra slash store
  let spans :=
    if targetSpan = some spans.spans.spanIndex then spans.endSpan params.now else spans
  ({ who := stash, eraSlash := slash, amount := spans.slashOf, reward := spans.paidOut },
    spans.drop store)

variable (store : SlashStore AccountId)

/-- `kick_out_if_recent` -/
def kickOutIfRecent : SlashStore AccountId :=
  let (spans, store) := fetchSpans params.stash params.windowStart params.rewardProportion store
  let spans :=
    if (spans.eraSpan params.slashEra).map (·.index) = some spans.spans.spanIndex then
      spans.endSpan params.now
    else spans
  spans.drop store

/-- One round of the loop of `slash_nominators`: raise the slash of the nominator in the era and
charge it. -/
def slashNominator (priorSlashP : Perbill) (nominator : IndividualExposure AccountId)
    (store : SlashStore AccountId) : Charge AccountId × SlashStore AccountId :=
  let ownSlashPrior := priorSlashP.times nominator.value
  let ownSlashByValidator := params.slash.times nominator.value
  let ownSlashDifference := ownSlashByValidator - ownSlashPrior
  let key := (params.slashEra, nominator.who)
  let eraSlash := (Finmap.lookup key store.nominatorSlashInEra).getD 0 + ownSlashDifference
  let store :=
    { store with nominatorSlashInEra := Finmap.insert key eraSlash store.nominatorSlashInEra }
  chargeStash params nominator.who eraSlash store

/-- `slash_nominators`: the charges of the nominators. -/
def slashNominators (params : SlashParams AccountId) (priorSlashP : Perbill) :
    List (IndividualExposure AccountId) → SlashStore AccountId →
      List (Charge AccountId) × SlashStore AccountId
  | [], store => ([], store)
  | nominator :: rest, store =>
    let (charge, store) := slashNominator params priorSlashP nominator store
    let (charges, store) := slashNominators params priorSlashP rest store
    (charge :: charges, store)

/-- `clear_era_metadata` -/
def clearEraMetadata (obsoleteEra : Nat) (store : SlashStore AccountId) : SlashStore AccountId :=
  { store with
    validatorSlashInEra := store.validatorSlashInEra.retainKeys fun key => key.1 ≠ obsoleteEra
    nominatorSlashInEra := store.nominatorSlashInEra.retainKeys fun key => key.1 ≠ obsoleteEra }

/-- The highest fraction reported for a validator in an era. -/
def priorSlash (era : Nat) (stash : AccountId) : Perbill :=
  ((Finmap.lookup (era, stash) store.validatorSlashInEra).map (·.1)).getD .zero

/-- The body of `compute_slash`: the charges of the validator and of its nominators. -/
def computeCharges : Option (Charge AccountId × List (Charge AccountId)) × SlashStore AccountId :=
  let ownSlash := params.slash.times params.exposure.own
  if params.slash.times params.exposure.total = 0 then
    (none, kickOutIfRecent params store)
  else
    let priorSlashP := priorSlash store params.slashEra params.stash
    if priorSlashP.parts < params.slash.parts then
      let store := { store with
        validatorSlashInEra := Finmap.insert (params.slashEra, params.stash)
          (params.slash, ownSlash) store.validatorSlashInEra }
      let (own, store) := chargeStash params params.stash ownSlash store
      let (others, store) := slashNominators params priorSlashP params.exposure.others store
      (some (own, others), store)
    else
      (none, store)

/-- The record that `compute_slash` returns for the charges. -/
def UnappliedSlash.ofCharges (validator : AccountId)
    (charges : Charge AccountId × List (Charge AccountId)) : UnappliedSlash AccountId where
  validator := validator
  own := charges.1.amount
  others := charges.2.map fun charge => (charge.who, charge.amount)
  reporters := []
  payout := charges.1.reward + (charges.2.map (·.reward)).sum

/-- `compute_slash` -/
def computeSlash : Option (UnappliedSlash AccountId) × SlashStore AccountId :=
  let (charges, store) := computeCharges params store
  (charges.map (UnappliedSlash.ofCharges params.stash), store)

end Brace.Staking
