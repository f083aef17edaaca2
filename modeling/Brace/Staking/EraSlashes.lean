import Brace.Staking.SpanStore

/-!
# The slash of a stash in an era

What was reported says how much a stash is slashed in an era: a validator its highest reported own
slash, a nominator for each validator the highest slash reported for its exposure. The maps
`ValidatorSlashInEra` and `NominatorSlashInEra` hold exactly that (`Reported`), provided that all
reports about a validator in an era have the same exposure, since only the fractions are compared.
-/

namespace Brace.Staking

open Brace.Lib Brace.Arithmetic List SlashParams

variable {AccountId : Type} [DecidableEq AccountId]

/-! ## What was reported -/

/-- Whether a call is about a validator in an era. -/
def SlashParams.concerns (call : SlashParams AccountId) (era : Nat) (validator : AccountId) :
    Bool :=
  call.slashEra = era ∧ call.stash = validator

theorem SlashParams.concerns_iff {call : SlashParams AccountId} {era : Nat}
    {validator : AccountId} :
    call.concerns era validator = true ↔ call.stash = validator ∧ call.slashEra = era := by
  rw [concerns, decide_eq_true_eq, and_comm]

theorem lookup_insert_era {Value : Type} (table : HashMap (Nat × AccountId) Value) (era other : Nat)
    (stash account : AccountId) (value : Value) :
    (table.insert (era, stash) value).lookup (other, account) =
      if stash = account ∧ era = other then some value else table.lookup (other, account) := by
  simp only [HashMap.lookup_insert_eq, Prod.mk.injEq, eq_comm, and_comm]

/-- The slash of a nominator for its parts of an exposure. -/
def exposedSlash (parts : List (IndividualExposure AccountId)) (fraction : Perbill)
    (nominator : AccountId) : Nat :=
  ((parts.filter fun part => part.who = nominator).map fun part =>
    fraction.times part.value).sum

variable (calls : List (SlashParams AccountId))

variable (amount : Exposure AccountId → Perbill → Nat)

variable (era : Nat)

/-- The largest amount that the reports about a validator in an era give. -/
def highestReported (validator : AccountId) : Nat :=
  maxOf ((calls.filter fun call => call.concerns era validator).map fun call =>
    amount call.exposure call.slash)

/-- The highest reported own slash of a validator in an era. -/
def ownReported (validator : AccountId) : Nat :=
  highestReported calls (fun exposure fraction => fraction.times exposure.own) era validator

/-- The validators that were reported in an era. -/
def reportedValidators : Finset AccountId :=
  ((calls.filter fun call => call.slashEra = era).map (·.stash)).toFinset

/-- The sum over the validators of the highest slash reported for the exposure of a nominator. -/
def nominatedReported (nominator : AccountId) : Nat :=
  ∑ validator ∈ reportedValidators calls era,
    highestReported calls (fun exposure fraction => exposedSlash exposure.others fraction nominator)
      era validator

/-- The slash of a stash in an era, as a validator or as a nominator. -/
def eraSlash (stash : AccountId) (era : Nat) : Nat :=
  max (ownReported calls era stash) (nominatedReported calls era stash)

/-- An amount that an exposure gives for a fraction: more for a higher fraction, and nothing where
the total gives nothing. -/
structure Proportional : Prop where
  /-- A higher fraction gives no less. -/
  mono : ∀ exposure {less more : Perbill}, less.parts ≤ more.parts →
    amount exposure less ≤ amount exposure more
  /-- Nothing of the total is nothing of a part. -/
  vanishes : ∀ exposure (fraction : Perbill), fraction.times exposure.total = 0 →
    amount exposure fraction = 0

omit [DecidableEq AccountId] in
theorem own_proportional :
    Proportional fun (exposure : Exposure AccountId) fraction => fraction.times exposure.own where
  mono exposure _ _ less := Perbill.times_mono less exposure.own
  vanishes exposure fraction none := by
    have part := fraction.times_mono_right (le_trans (Nat.le_add_right _ _) exposure.covered)
    omega

/-- The part of a nominator in what an exposure gives for a fraction. -/
abbrev nominatorPart (nominator : AccountId) (exposure : Exposure AccountId) (fraction : Perbill) :
    Nat :=
  exposedSlash exposure.others fraction nominator

theorem exposedSlash_proportional (nominator : AccountId) :
    Proportional (nominatorPart nominator) where
  mono exposure _ _ less := List.sum_le_sum fun part _ => Perbill.times_mono less part.value
  vanishes exposure fraction none := by
    rw [nominatorPart, exposedSlash, sum_eq_zero_iff]
    intro amount found
    obtain ⟨part, mem, rfl⟩ := mem_map.mp found
    have listed : part.value ∈ exposure.others.map (·.value) :=
      mem_map_of_mem (mem_of_mem_filter mem)
    have bounded := single_le_sum (by simp) _ listed
    have part' := fraction.times_mono_right (le_trans bounded
      (le_trans (Nat.le_add_left _ _) exposure.covered))
    omega

theorem highestReported_cons (call : SlashParams AccountId) (calls : List (SlashParams AccountId))
    (amount : Exposure AccountId → Perbill → Nat) (era : Nat) (validator : AccountId) :
    highestReported (call :: calls) amount era validator =
      if call.concerns era validator then
        max (amount call.exposure call.slash) (highestReported calls amount era validator)
      else highestReported calls amount era validator := by
  unfold highestReported
  by_cases about : call.concerns era validator = true
  · simp [about, maxOf_cons]
  · simp [about]

variable {calls : List (SlashParams AccountId)} {params : SlashParams AccountId}
  {entries : List (Nat × Charge AccountId)} {store : SlashStore AccountId}

theorem highestReported_eq_zero {era : Nat}
    {validator : AccountId} (missing : validator ∉ reportedValidators calls era)
    (amount : Exposure AccountId → Perbill → Nat) :
    highestReported calls amount era validator = 0 := by
  have none : calls.filter (fun call => call.concerns era validator) = [] := by
    rw [filter_eq_nil_iff]
    intro call mem about
    obtain ⟨stash, inEra⟩ := concerns_iff.mp about
    refine missing ?_
    simp only [reportedValidators, mem_toFinset, mem_map, mem_filter, decide_eq_true_eq]
    exact ⟨call, ⟨mem, inEra⟩, stash⟩
  rw [highestReported, none]
  rfl

theorem nominatedReported_eq (calls : List (SlashParams AccountId)) (era : Nat)
    (nominator validator : AccountId) :
    nominatedReported calls era nominator =
      highestReported calls (nominatorPart nominator) era validator +
        ∑ other ∈ (reportedValidators calls era).erase validator,
          highestReported calls (nominatorPart nominator) era other := by
  by_cases reported : validator ∈ reportedValidators calls era
  · exact (Finset.add_sum_erase _ _ reported).symm
  · rw [highestReported_eq_zero reported, Finset.erase_eq_of_notMem reported, Nat.zero_add]
    rfl

theorem nominatedReported_cons (call : SlashParams AccountId)
    (calls : List (SlashParams AccountId)) (era : Nat) (nominator : AccountId) :
    nominatedReported (call :: calls) era nominator +
        highestReported calls (nominatorPart nominator) era call.stash =
      nominatedReported calls era nominator +
        highestReported (call :: calls) (nominatorPart nominator) era call.stash := by
  have others : ∑ other ∈ (reportedValidators (call :: calls) era).erase call.stash,
        highestReported (call :: calls) (nominatorPart nominator) era other =
      ∑ other ∈ (reportedValidators calls era).erase call.stash,
        highestReported calls (nominatorPart nominator) era other := by
    refine Finset.sum_congr ?_ ?_
    · ext other
      by_cases inEra : call.slashEra = era
      · simp only [reportedValidators, inEra, decide_true, filter_cons_of_pos, map_cons,
          toFinset_cons, Finset.mem_erase, Finset.mem_insert]
        tauto
      · simp only [reportedValidators, inEra, decide_false, Bool.false_eq_true,
          not_false_eq_true, filter_cons_of_neg]
    · intro other mem
      have ne := (Finset.mem_erase.mp mem).1
      rw [highestReported_cons, if_neg fun about => ne (concerns_iff.mp about).1.symm]
  have after := nominatedReported_eq (call :: calls) era nominator call.stash
  have before := nominatedReported_eq calls era nominator call.stash
  omega

/-! ## What the store holds -/

variable (store)

/-- The stored own slash of a validator in an era. -/
def ownStored (era : Nat) (validator : AccountId) : Nat :=
  ((Finmap.lookup (era, validator) store.validatorSlashInEra).map (·.2)).getD 0

/-- The stored slash of a nominator in an era. -/
def nominatedStored (era : Nat) (nominator : AccountId) : Nat :=
  (Finmap.lookup (era, nominator) store.nominatorSlashInEra).getD 0

variable {store}

/-- The store holds what was reported. -/
structure Reported (calls : List (SlashParams AccountId)) (store : SlashStore AccountId) :
    Prop where
  /-- No call with a slash has a higher fraction than the stored one. -/
  top : ∀ call ∈ calls, call.slash.times call.exposure.total = 0 ∨
    call.slash.parts ≤ (priorSlash store call.slashEra call.stash).parts
  /-- The stored fraction was reported. -/
  attained : ∀ era validator, priorSlash store era validator = .zero ∨
    ∃ call ∈ calls, call.concerns era validator = true ∧
      call.slash = priorSlash store era validator
  own : ∀ era validator, ownStored store era validator = ownReported calls era validator
  nominated : ∀ era nominator,
    nominatedStored store era nominator = nominatedReported calls era nominator

namespace Reported

variable {calls : List (SlashParams AccountId)} {store after : SlashStore AccountId}

theorem empty : Reported ([] : List (SlashParams AccountId)) ⟨∅, ∅, ∅, ∅⟩ where
  top := by
    intro call mem
    cases mem
  attained era validator := Or.inl (by simp [priorSlash])
  own era validator := by
    simp only [ownStored, Finmap.lookup_empty]
    rfl
  nominated era nominator := by
    simp only [nominatedStored, Finmap.lookup_empty]
    rfl

theorem highestReported_eq (held : Reported calls store) {era : Nat} {validator : AccountId}
    {exposure : Exposure AccountId}
    (same : ∀ call ∈ calls, call.concerns era validator = true → call.exposure = exposure)
    {amount : Exposure AccountId → Perbill → Nat} (proportional : Proportional amount) :
    highestReported calls amount era validator =
      amount exposure (priorSlash store era validator) := by
  refine le_antisymm (maxOf_le ?_) ?_
  · intro reported found
    obtain ⟨call, mem, rfl⟩ := mem_map.mp found
    obtain ⟨listed, about⟩ := mem_filter.mp mem
    rw [same call listed about]
    obtain ⟨stash, inEra⟩ := concerns_iff.mp about
    rcases held.top call listed with nothing | lower
    · rw [same call listed about] at nothing
      rw [proportional.vanishes exposure call.slash nothing]
      exact Nat.zero_le _
    · rw [inEra, stash] at lower
      exact proportional.mono exposure lower
  · rcases held.attained era validator with zero | ⟨call, listed, about, isPrior⟩
    · rw [zero, proportional.vanishes exposure .zero (Perbill.zero_times _)]
      exact Nat.zero_le _
    · rw [← isPrior, ← same call listed about]
      exact le_maxOf (mem_map_of_mem
        (mem_filter.mpr ⟨listed, by simpa using about⟩))

section Step

variable {params : SlashParams AccountId}

section

variable (held : Reported calls store)
  (same : ∀ call ∈ calls, call.concerns params.slashEra params.stash = true →
    call.exposure = params.exposure)

include held same

/-- After a report the store has the stored fraction or the reported one. -/
theorem cons {next : Perbill}
    (chosen : next = params.slash ∨ next = priorSlash store params.slashEra params.stash)
    (notLower : (priorSlash store params.slashEra params.stash).parts ≤ next.parts)
    (covers : params.slash.times params.exposure.total = 0 ∨ params.slash.parts ≤ next.parts)
    (priors : ∀ era validator, priorSlash after era validator =
      if params.concerns era validator then next else priorSlash store era validator)
    (owns : ∀ era validator, ownStored after era validator =
      if params.concerns era validator then next.times params.exposure.own
      else ownStored store era validator)
    (nominators : ∀ era nominator,
      nominatedStored after era nominator + (if params.slashEra = era then
          exposedSlash params.exposure.others
            (priorSlash store params.slashEra params.stash) nominator else 0) =
        nominatedStored store era nominator + (if params.slashEra = era then
          exposedSlash params.exposure.others next nominator else 0)) :
    Reported (params :: calls) after := by
  have raised : ∀ amount : Exposure AccountId → Perbill → Nat, Proportional amount →
      ∀ era validator, highestReported (params :: calls) amount era validator =
        if params.concerns era validator then amount params.exposure next
        else highestReported calls amount era validator := by
    intro amount proportional era validator
    rw [highestReported_cons]
    split
    · rename_i about
      obtain ⟨rfl, rfl⟩ := concerns_iff.mp about
      rw [held.highestReported_eq same proportional]
      have stored := proportional.mono params.exposure notLower
      have reported : amount params.exposure params.slash ≤ amount params.exposure next := by
        rcases covers with nothing | lower
        · rw [proportional.vanishes _ _ nothing]
          exact Nat.zero_le _
        · exact proportional.mono _ lower
      rcases chosen with rfl | rfl
      · exact Nat.max_eq_left stored
      · exact Nat.max_eq_right reported
    · rfl
  refine ⟨fun call mem => ?_, fun era validator => ?_, fun era validator => ?_,
    fun era nominator => ?_⟩
  · rw [priors]
    rcases mem_cons.mp mem with rfl | earlier
    · rwa [if_pos (by simp [concerns])]
    · split
      · rename_i about
        obtain ⟨stash, inEra⟩ := concerns_iff.mp about
        refine (held.top call earlier).imp_right fun lower => lower.trans ?_
        rwa [← inEra, ← stash]
      · exact held.top call earlier
  · rw [priors]
    have before := (held.attained era validator).imp_right fun ⟨call, listed, found⟩ =>
      Exists.intro call (And.intro (mem_cons_of_mem params listed) found)
    split
    · rename_i about
      rcases chosen with rfl | rfl
      · exact Or.inr ⟨params, mem_cons_self, about, rfl⟩
      · obtain ⟨rfl, rfl⟩ := concerns_iff.mp about
        exact before
    · exact before
  · rw [ownReported, raised _ own_proportional, owns, held.own]
    rfl
  · have added := nominatedReported_cons params calls era nominator
    have stored := nominators era nominator
    have before := held.nominated era nominator
    rw [raised _ (exposedSlash_proportional nominator)] at added
    by_cases inEra : params.slashEra = era
    · subst inEra
      rw [if_pos (by simp [concerns]),
        held.highestReported_eq same (exposedSlash_proportional nominator)] at added
      rw [if_pos rfl, if_pos rfl] at stored
      unfold nominatorPart at added
      omega
    · rw [if_neg (by simp [concerns, inEra])] at added
      rw [if_neg inEra, if_neg inEra] at stored
      omega

theorem cons_ignored (ignored : params.slash.times params.exposure.total = 0 ∨
      params.slash.parts ≤ (priorSlash store params.slashEra params.stash).parts)
    (validators : after.validatorSlashInEra = store.validatorSlashInEra)
    (nominators : after.nominatorSlashInEra = store.nominatorSlashInEra) :
    Reported (params :: calls) after := by
  refine held.cons same (.inr rfl) le_rfl ignored (fun era validator => ?_)
    (fun era validator => ?_) fun era nominator => by rw [nominatedStored, nominators]; rfl
  · rw [priorSlash, validators]
    split
    · rename_i about
      obtain ⟨rfl, rfl⟩ := concerns_iff.mp about
      rfl
    · rfl
  · rw [ownStored, validators]
    split
    · rename_i about
      obtain ⟨rfl, rfl⟩ := concerns_iff.mp about
      rw [← held.highestReported_eq same own_proportional]
      exact held.own _ _
    · rfl

end

end Step

end Reported

/-! ## What was compared with the spans -/

/-- The highest slash of a stash in an era that was compared with a span. -/
def assessed (entries : List (Nat × Charge AccountId)) (stash : AccountId) (era : Nat) : Nat :=
  maxOf (((chargesOf stash entries).filter fun entry => entry.1 = era).map (·.2.eraSlash))

theorem assessed_cons (entries : List (Nat × Charge AccountId)) (chargedEra : Nat)
    (charge : Charge AccountId) (stash : AccountId) (era : Nat) :
    assessed ((chargedEra, charge) :: entries) stash era =
      if charge.who = stash ∧ chargedEra = era then
        max charge.eraSlash (assessed entries stash era)
      else assessed entries stash era := by
  unfold assessed
  rw [chargesOf_cons]
  by_cases sameStash : charge.who = stash <;> by_cases sameEra : chargedEra = era <;>
    simp [sameStash, sameEra, maxOf_cons]

/-- The store holds the highest slashes that were compared with spans. -/
def Assessed (entries : List (Nat × Charge AccountId)) (store : SlashStore AccountId) : Prop :=
  ∀ era stash, assessed entries stash era =
    max (ownStored store era stash) (nominatedStored store era stash)

theorem exposedSlash_cons (part : IndividualExposure AccountId)
    (parts : List (IndividualExposure AccountId)) (fraction : Perbill) (nominator : AccountId) :
    exposedSlash (part :: parts) fraction nominator =
      (if part.who = nominator then fraction.times part.value else 0) +
        exposedSlash parts fraction nominator := by
  unfold exposedSlash
  by_cases same : part.who = nominator <;> simp [same]

/-- The charges of a call, the last one first. -/
def chargeEntries (era : Nat) (charges : List (Charge AccountId)) : List (Nat × Charge AccountId) :=
  (charges.map (era, ·)).reverse

/-- **The loop over the nominators** raises the slash of each nominator by the difference of the
fractions on its parts, and keeps the accounts. -/
theorem slashNominators_kept {prior : Perbill}
    (inWindow : params.windowStart ≤ params.slashEra) (notLater : params.slashEra ≤ params.now)
    (higher : prior.parts ≤ params.slash.parts) (parts : List (IndividualExposure AccountId))
    (spans : SpansKept params.rewardProportion params.windowStart entries store)
    (compared : Assessed entries store) :
    ∃ charges after, slashNominators params prior parts store = (charges, after) ∧
      after.validatorSlashInEra = store.validatorSlashInEra ∧
      (∀ era nominator,
        nominatedStored after era nominator +
            (if params.slashEra = era then exposedSlash parts prior nominator else 0) =
          nominatedStored store era nominator +
            (if params.slashEra = era then exposedSlash parts params.slash nominator else 0)) ∧
      SpansKept params.rewardProportion params.windowStart
        (chargeEntries params.slashEra charges ++ entries) after ∧
      Assessed (chargeEntries params.slashEra charges ++ entries) after := by
  induction parts generalizing entries store with
  | nil =>
    exact ⟨[], store, rfl, rfl, fun era nominator => by simp [exposedSlash], spans, compared⟩
  | cons part rest ih =>
    have raise := Perbill.times_mono higher part.value
    generalize slashed : nominatedStored store params.slashEra part.who +
      (params.slash.times part.value - prior.times part.value) = eraSlash
    let noted : SlashStore AccountId := { store with
      nominatorSlashInEra :=
        store.nominatorSlashInEra.insert (params.slashEra, part.who) eraSlash }
    obtain ⟨charge, middle, charged, isStash, isSlash, validators, nominators, spansCharged⟩ :=
      chargeStash_kept (spans.setSlashes noted.validatorSlashInEra noted.nominatorSlashInEra)
        inWindow notLater part.who eraSlash
    have stored : ∀ era stash, nominatedStored middle era stash =
        if part.who = stash ∧ params.slashEra = era then eraSlash
        else nominatedStored store era stash := by
      intro era stash
      rw [nominatedStored, nominators, lookup_insert_era]
      split <;> rfl
    have comparedCharged : Assessed ((params.slashEra, charge) :: entries) middle := by
      intro era stash
      have before := compared era stash
      have owns : ownStored middle era stash = ownStored store era stash := by
        rw [ownStored, validators]
        rfl
      rw [assessed_cons, isStash, isSlash, stored, owns, before]
      split
      · rename_i here
        obtain ⟨rfl, rfl⟩ := here
        omega
      · rfl
    obtain ⟨charges, after, slashedRest, validatorsRest, storedRest, spansRest, comparedRest⟩ :=
      ih spansCharged comparedCharged
    have listed : chargeEntries params.slashEra (charge :: charges) ++ entries =
        chargeEntries params.slashEra charges ++ (params.slashEra, charge) :: entries := by
      simp [chargeEntries]
    refine ⟨charge :: charges, after, ?_, validatorsRest.trans validators, ?_, ?_, ?_⟩
    · simp only [slashNominators, slashNominator]
      rw [show (store.nominatorSlashInEra.lookup (params.slashEra, part.who)).getD 0 +
        (params.slash.times part.value - prior.times part.value) = eraSlash from slashed]
      rw [show chargeStash params part.who eraSlash { store with
        nominatorSlashInEra :=
          store.nominatorSlashInEra.insert (params.slashEra, part.who) eraSlash } =
            (charge, middle) from charged]
      simp only [slashedRest]
    · intro era nominator
      have later := storedRest era nominator
      rw [stored] at later
      rw [exposedSlash_cons, exposedSlash_cons]
      by_cases inEra : params.slashEra = era
      · subst inEra
        by_cases same : part.who = nominator
        · subst same
          simp only [and_self, if_true] at later ⊢
          omega
        · simp only [same, false_and, if_false, if_true] at later ⊢
          omega
      · simp only [inEra, and_false, if_false] at later ⊢
        exact later
    · rw [listed]
      exact spansRest
    · rw [listed]
      exact comparedRest

/-! ## Calls -/

/-- The charges of a call that has some. -/
def outcomeEntries (era : Nat) :
    Option (Charge AccountId × List (Charge AccountId)) → List (Nat × Charge AccountId)
  | none => []
  | some (own, others) => chargeEntries era (own :: others)

/-- **A call keeps the accounts, and the store holds what was reported.** -/
theorem computeCharges_kept (inWindow : params.windowStart ≤ params.slashEra)
    (notLater : params.slashEra ≤ params.now)
    (same : ∀ call ∈ calls, call.concerns params.slashEra params.stash = true →
      call.exposure = params.exposure)
    (spans : SpansKept params.rewardProportion params.windowStart entries store)
    (reported : Reported calls store) (compared : Assessed entries store) :
    ∃ outcome after, computeCharges params store = (outcome, after) ∧
      (∀ charges, outcome = some charges → charges.1.who = params.stash) ∧
      SpansKept params.rewardProportion params.windowStart
        (outcomeEntries params.slashEra outcome ++ entries) after ∧
      Reported (params :: calls) after ∧
      Assessed (outcomeEntries params.slashEra outcome ++ entries) after := by
  unfold computeCharges
  split
  · rename_i nothing
    obtain ⟨validators, nominators, kept⟩ := kickOutIfRecent_kept spans inWindow notLater
    refine ⟨none, _, rfl, ?_, kept, ?_, ?_⟩
    · intro charges impossible
      cases impossible
    · exact reported.cons_ignored same (Or.inl nothing) validators nominators
    · intro era stash
      rw [ownStored, nominatedStored, validators, nominators]
      exact compared era stash
  · generalize prior : priorSlash store params.slashEra params.stash = priorSlashP
    dsimp only
    split
    · rename_i higher
      have owns : ownStored store params.slashEra params.stash =
          priorSlashP.times params.exposure.own := by
        rw [reported.own, ownReported, reported.highestReported_eq same own_proportional, prior]
      let noted : SlashStore AccountId := { store with
        validatorSlashInEra := store.validatorSlashInEra.insert (params.slashEra, params.stash)
          (params.slash, params.slash.times params.exposure.own) }
      obtain ⟨own, middle, charged, isStash, isSlash, validators, nominators, spansCharged⟩ :=
        chargeStash_kept (spans.setSlashes noted.validatorSlashInEra noted.nominatorSlashInEra)
          inWindow notLater params.stash (params.slash.times params.exposure.own)
      have nominated : ∀ era stash, nominatedStored middle era stash =
          nominatedStored store era stash := by
        intro era stash
        rw [nominatedStored, nominators]
        rfl
      have comparedCharged : Assessed ((params.slashEra, own) :: entries) middle := by
        intro era stash
        have before := compared era stash
        have stored : ownStored middle era stash =
            if params.stash = stash ∧ params.slashEra = era then
              params.slash.times params.exposure.own
            else ownStored store era stash := by
          rw [ownStored, validators, lookup_insert_era]
          split <;> rfl
        rw [assessed_cons, isStash, isSlash, nominated, stored, before]
        split
        · rename_i here
          obtain ⟨rfl, rfl⟩ := here
          have more := Perbill.times_mono higher.le params.exposure.own
          omega
        · rfl
      obtain ⟨others, after, slashed, validatorsRest, storedRest, spansRest, comparedRest⟩ :=
        slashNominators_kept inWindow notLater higher.le params.exposure.others spansCharged
          comparedCharged
      have listed : outcomeEntries params.slashEra (some (own, others)) ++ entries =
          chargeEntries params.slashEra others ++ (params.slashEra, own) :: entries := by
        simp [outcomeEntries, chargeEntries]
      refine ⟨some (own, others), after, ?_, ?_, ?_, ?_, ?_⟩
      · rw [show chargeStash params params.stash (params.slash.times params.exposure.own)
          { store with
            validatorSlashInEra := store.validatorSlashInEra.insert (params.slashEra, params.stash)
              (params.slash, params.slash.times params.exposure.own) } = (own, middle) from charged]
        simp only [slashed]
      · intro charges isSome
        cases isSome
        exact isStash
      · rw [listed]
        exact spansRest
      · have inserted := validatorsRest.trans validators
        refine reported.cons same (.inl rfl) (by rw [prior]; exact higher.le) (.inr le_rfl)
          (fun era validator => ?_) (fun era validator => ?_) fun era nominator => ?_
        · rw [priorSlash, inserted, lookup_insert_era]
          simp only [concerns_iff]
          split <;> rfl
        · rw [ownStored, inserted, lookup_insert_era]
          simp only [concerns_iff]
          split <;> rfl
        · rw [prior, storedRest, nominated]
      · rw [listed]
        exact comparedRest
    · rename_i notHigher
      refine ⟨none, store, rfl, ?_, spans, ?_, compared⟩
      · intro charges impossible
        cases impossible
      · exact reported.cons_ignored same (Or.inr (by rw [prior]; omega)) rfl rfl

end Brace.Staking
