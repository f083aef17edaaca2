import Brace.Staking.SpanCharges

/-!
# Charges in the store

The functions of the store that inspect the spans of a stash, read as steps on the account of that
stash: fetching the spans, comparing a slash with a span, ending the ongoing span and writing the
spans back. All of them leave the other stashes alone (`SameElsewhere`), so that the accounts of
all stashes are kept together (`SpansKept`).
-/

namespace Brace.Staking

open Brace.Lib Brace.Arithmetic Finmap HashMap Option InspectingSpans

variable {AccountId : Type} [DecidableEq AccountId]

variable (store : SlashStore AccountId)

variable (stash : AccountId)

def recordOf (index : Nat) : SpanRecord :=
  (Finmap.lookup (stash, index) store.spanSlash).getD {}

/-- The spans of a stash, new ones if there are none. -/
def spansOf (windowStart : Nat) : SlashingSpans :=
  (Finmap.lookup stash store.slashingSpans).getD (.new windowStart)

/-- Two stores with the same slashes in eras, and the same spans and records of all stashes but
one. -/
structure SameElsewhere (store after : SlashStore AccountId) : Prop where
  validators : after.validatorSlashInEra = store.validatorSlashInEra
  nominators : after.nominatorSlashInEra = store.nominatorSlashInEra
  spans : ∀ other, other ≠ stash →
    Finmap.lookup other after.slashingSpans = Finmap.lookup other store.slashingSpans
  records : ∀ other, other ≠ stash → ∀ index, recordOf after other index =
    recordOf store other index

theorem SameElsewhere.trans {stash : AccountId} {store middle after : SlashStore AccountId}
    (first : SameElsewhere stash store middle) (second : SameElsewhere stash middle after) :
    SameElsewhere stash store after where
  validators := second.validators.trans first.validators
  nominators := second.nominators.trans first.nominators
  spans other ne := (second.spans other ne).trans (first.spans other ne)
  records other ne index :=
    (second.records other ne index).trans (first.records other ne index)

/-! ## The steps -/

section

variable (stash : AccountId)

theorem sameElsewhere_insertSpans (spans : SlashingSpans) (store : SlashStore AccountId) :
    SameElsewhere stash store
      { store with slashingSpans := store.slashingSpans.insert stash spans } where
  validators := rfl
  nominators := rfl
  spans other ne := by
    rw [lookup_insert_eq, if_neg ne]
  records _ _ _ := rfl

theorem fetchSpans_eq (windowStart : Nat) (rewardProportion : Perbill)
    (store : SlashStore AccountId) :
    fetchSpans stash windowStart rewardProportion store =
      (⟨false, windowStart, stash, spansOf store stash windowStart, 0, 0, rewardProportion⟩,
        { store with slashingSpans :=
            store.slashingSpans.insert stash (spansOf store stash windowStart) }) := by
  unfold fetchSpans spansOf
  cases found : store.slashingSpans.lookup stash with
  | none => rfl
  | some spans =>
    have unchanged : store.slashingSpans.insert stash spans = store.slashingSpans := by
      refine ext_lookup fun other => ?_
      rw [lookup_insert_eq]
      split
      · rename_i same
        rw [same, found]
      · rfl
    simp only [getD_some, unchanged]

/-- Writing a record of a stash leaves the others alone. -/
theorem sameElsewhere_insertRecord (index : Nat) (record : SpanRecord)
    (store : SlashStore AccountId) :
    SameElsewhere stash store
      { store with spanSlash := store.spanSlash.insert (stash, index) record } where
  validators := rfl
  nominators := rfl
  spans _ _ := rfl
  records other ne position := by
    have apart : (other, position) ≠ (stash, index) := fun equal =>
      ne (Prod.mk.inj equal).1
    rw [recordOf, lookup_insert_eq, if_neg apart, recordOf]

theorem recordOf_insertRecord (index : Nat) (record : SpanRecord) (store : SlashStore AccountId) :
    recordOf { store with spanSlash := store.spanSlash.insert (stash, index) record }
      stash = Function.update (recordOf store stash) index record := by
  funext position
  rw [recordOf, lookup_insert_eq]
  by_cases same : position = index
  · rw [same, if_pos rfl, Function.update_self]
    rfl
  · rw [if_neg fun equal => same (Prod.mk.inj equal).2, Function.update_of_ne same, recordOf]

end

namespace InspectingSpans

/-- What comparing a slash with a span returns: the record is raised, and the difference and the
reward are noted. -/
theorem compareAndUpdateSpanSlash_outcome (self : InspectingSpans AccountId)
    (store : SlashStore AccountId) {era : Nat} (slash : Nat) {target : SlashingSpan}
    (found : self.eraSpan era = some target) :
    ∃ dirty lastNonzeroSlash after,
      self.compareAndUpdateSpanSlash era slash store =
        (some target.index,
          { self with
            dirty
            spans := { self.spans with lastNonzeroSlash }
            paidOut := self.paidOut +
              rewardOf self.rewardProportion (recordOf store self.stash target.index) slash
            slashOf := self.slashOf +
              (slash - (recordOf store self.stash target.index).slashed) }, after) ∧
      SameElsewhere self.stash store after ∧
      after.slashingSpans = store.slashingSpans ∧
      recordOf after self.stash = Function.update (recordOf store self.stash) target.index
        ((recordOf store self.stash target.index).raise self.rewardProportion slash) ∧
      (dirty = false → self.dirty = false ∧
        lastNonzeroSlash = self.spans.lastNonzeroSlash) := by
  have value : (store.spanSlash.lookup (self.stash, target.index)).getD {} =
      recordOf store self.stash target.index := rfl
  generalize recorded : recordOf store self.stash target.index = record at value ⊢
  by_cases raised : record.slashed < slash
  · refine ⟨true, max self.spans.lastNonzeroSlash era, _, ?_,
      sameElsewhere_insertRecord self.stash target.index
        (record.raise self.rewardProportion slash) store, rfl,
      recordOf_insertRecord _ _ _ _, by simp⟩
    simp [compareAndUpdateSpanSlash, found, value, raised, addSlash, SpanRecord.raise,
      Nat.max_eq_right raised.le]
  · have nothing : slash - record.slashed = 0 := by omega
    by_cases reward : rewardOf self.rewardProportion record slash = 0
    · have same : record.raise self.rewardProportion slash = record := by
        simp [SpanRecord.raise, reward, Nat.max_eq_left (not_lt.mp raised)]
      refine ⟨self.dirty, self.spans.lastNonzeroSlash, store, ?_, ⟨rfl, rfl, fun _ _ => rfl,
        fun _ _ _ => rfl⟩, rfl, ?_, fun clean => ⟨clean, rfl⟩⟩
      · simp [compareAndUpdateSpanSlash, found, value, raised, reward, nothing]
      · rw [same, ← recorded, Function.update_eq_self]
    · refine ⟨true, self.spans.lastNonzeroSlash, _, ?_,
        sameElsewhere_insertRecord self.stash target.index
          (record.raise self.rewardProportion slash) store, rfl,
        recordOf_insertRecord _ _ _ _, by simp⟩
      simp [compareAndUpdateSpanSlash, found, value, raised, reward, nothing, SpanRecord.raise,
        Nat.max_eq_left (not_lt.mp raised)]

/-- Writing the spans back keeps the account of the stash. -/
theorem drop_kept {rewardProportion : Perbill} {mine : List (Nat × Charge AccountId)}
    {self : InspectingSpans AccountId} {store : SlashStore AccountId}
    (kept : Kept rewardProportion self.windowStart mine (recordOf store self.stash) self.spans)
    (clean : self.dirty = false →
      store.slashingSpans.lookup self.stash = some self.spans) :
    SameElsewhere self.stash store (self.drop store) ∧
      ∃ spans, (self.drop store).slashingSpans.lookup self.stash = some spans ∧
        Kept rewardProportion self.windowStart mine (recordOf (self.drop store) self.stash)
          spans := by
  cases isDirty : self.dirty with
  | false =>
    have unchanged : self.drop store = store := by simp [drop, isDirty]
    rw [unchanged]
    exact ⟨⟨rfl, rfl, fun _ _ => rfl, fun _ _ _ => rfl⟩, self.spans, clean isDirty, kept⟩
  | true =>
    generalize pruning : self.spans.prune self.windowStart = pruned
    obtain ⟨range, spans⟩ := pruned
    obtain ⟨indices, after, below⟩ : ∃ indices : List Nat,
        self.drop store = { store with
          spanSlash := eraseAll store.spanSlash
            (indices.map fun index => (self.stash, index))
          slashingSpans := store.slashingSpans.insert self.stash spans } ∧
        ∀ index ∈ indices, ∃ start stop, range = some (start, stop) ∧ index < stop := by
      cases range with
      | none => exact ⟨[], by simp [drop, isDirty, pruning, eraseAll], nofun⟩
      | some bounds =>
        refine ⟨List.range' bounds.1 (bounds.2 - bounds.1), by simp [drop, isDirty, pruning],
          fun index mem => ⟨bounds.1, bounds.2, rfl, ?_⟩⟩
        rw [List.mem_range'_1] at mem
        omega
    rw [after]
    refine ⟨⟨rfl, rfl, (sameElsewhere_insertSpans self.stash spans store).spans, ?_⟩, spans,
      lookup_insert _, ?_⟩
    · intro other ne index
      rw [recordOf, lookup_eraseAll, if_neg, recordOf]
      simp [Ne.symm ne]
    · have keptSpans : spans = (self.spans.prune self.windowStart).2 := by rw [pruning]
      rw [keptSpans]
      refine kept.prune _ fun index => ?_
      rw [recordOf, lookup_eraseAll, pruning]
      split
      · rename_i erased
        exact Or.inr ⟨rfl, below index (by simpa using erased)⟩
      · exact Or.inl rfl

end InspectingSpans

/-! ## All stashes -/

def chargesOf (stash : AccountId) (entries : List (Nat × Charge AccountId)) :
    List (Nat × Charge AccountId) :=
  entries.filter fun entry => entry.2.who = stash

/-- The accounts of all stashes are kept; a stash without spans has no charges and no records. -/
structure SpansKept (rewardProportion : Perbill) (windowStart : Nat)
    (entries : List (Nat × Charge AccountId)) (store : SlashStore AccountId) : Prop where
  known : ∀ stash spans, Finmap.lookup stash store.slashingSpans = some spans →
    Kept rewardProportion windowStart (chargesOf stash entries) (recordOf store stash) spans
  unknown : ∀ stash, Finmap.lookup stash store.slashingSpans = none →
    chargesOf stash entries = [] ∧ ∀ index, recordOf store stash index = {}

namespace SpansKept

variable {rewardProportion : Perbill} {windowStart : Nat}
  {entries : List (Nat × Charge AccountId)} {store : SlashStore AccountId}

section

variable (held : SpansKept rewardProportion windowStart entries store)

include held

theorem setSlashes (validatorSlashInEra : HashMap (Nat × AccountId) (Perbill × Nat))
    (nominatorSlashInEra : HashMap (Nat × AccountId) Nat) :
    SpansKept rewardProportion windowStart entries
      { store with validatorSlashInEra, nominatorSlashInEra } :=
  ⟨held.known, held.unknown⟩

theorem spansOf (stash : AccountId) :
    Kept rewardProportion windowStart (chargesOf stash entries) (recordOf store stash)
      (Staking.spansOf store stash windowStart) := by
  unfold Staking.spansOf
  cases found : store.slashingSpans.lookup stash with
  | none =>
    obtain ⟨noCharges, noRecords⟩ := held.unknown stash found
    rw [noCharges]
    exact ⟨SlashingSpans.chained_new windowStart, Nat.sub_le _ _, nofun,
      fun index _ => noRecords index, nofun⟩
  | some spans => exact held.known stash spans found

/-- A change of one stash that keeps its account keeps all. -/
theorem update {stash : AccountId} {after : SlashStore AccountId}
    {later : List (Nat × Charge AccountId)} {spans : SlashingSpans}
    (same : SameElsewhere stash store after)
    (stored : after.slashingSpans.lookup stash = some spans)
    (kept : Kept rewardProportion windowStart (chargesOf stash later) (recordOf after stash) spans)
    (others : ∀ other, other ≠ stash → chargesOf other later = chargesOf other entries) :
    SpansKept rewardProportion windowStart later after := by
  constructor
  · intro other spans' found
    by_cases here : other = stash
    · subst here
      obtain rfl : spans = spans' := some.inj (stored.symm.trans found)
      exact kept
    · rw [same.spans other here] at found
      have records : recordOf after other = recordOf store other :=
        funext (same.records other here)
      rw [others other here, records]
      exact held.known other spans' found
  · intro other found
    by_cases here : other = stash
    · subst here
      rw [stored] at found
      cases found
    · rw [same.spans other here] at found
      obtain ⟨noCharges, noRecords⟩ := held.unknown other found
      refine ⟨(others other here).trans noCharges, ?_⟩
      intro index
      rw [same.records other here]
      exact noRecords index

end

/-- Writing the spans of a stash back keeps the accounts of all. -/
theorem drop {self : InspectingSpans AccountId} {middle : SlashStore AccountId}
    {later : List (Nat × Charge AccountId)}
    (held : SpansKept rewardProportion self.windowStart entries store)
    (same : SameElsewhere self.stash store middle)
    (kept : Kept rewardProportion self.windowStart (chargesOf self.stash later)
      (recordOf middle self.stash) self.spans) (clean : self.dirty = false →
      middle.slashingSpans.lookup self.stash = some self.spans)
    (others : ∀ other, other ≠ self.stash → chargesOf other later = chargesOf other entries) :
    SameElsewhere self.stash store (self.drop middle) ∧
      SpansKept rewardProportion self.windowStart later (self.drop middle) := by
  obtain ⟨sameDropped, spans, stored, keptDropped⟩ := drop_kept kept clean
  have sameAll := same.trans sameDropped
  exact ⟨sameAll, held.update sameAll stored keptDropped others⟩

end SpansKept

theorem chargesOf_cons (stash : AccountId) (era : Nat) (charge : Charge AccountId)
    (entries : List (Nat × Charge AccountId)) :
    chargesOf stash ((era, charge) :: entries) =
      if charge.who = stash then (era, charge) :: chargesOf stash entries
      else chargesOf stash entries := by
  by_cases same : charge.who = stash <;> simp [chargesOf, same]

/-- What charging a stash does: the record of the span of the era is raised, the span is ended if
it is the ongoing one, and the spans are written back. -/
theorem chargeStash_outcome {params : SlashParams AccountId} {stash : AccountId} (slash : Nat)
    {store : SlashStore AccountId} {target : SlashingSpan}
    (found : (spansOf store stash params.windowStart).iter.find?
      (·.containsEra params.slashEra) = some target) :
    ∃ (self : InspectingSpans AccountId) (compared : SlashStore AccountId)
      (lastNonzeroSlash : Nat),
      chargeStash params stash slash store =
        (Charge.forSlash stash params.rewardProportion (recordOf store stash target.index) slash,
          self.drop compared) ∧
      self.stash = stash ∧ self.windowStart = params.windowStart ∧
      self.spans = (
        let spans := { spansOf store stash params.windowStart with lastNonzeroSlash }
        if target.index = spans.spanIndex then (spans.endSpan params.now).2 else spans) ∧
      SameElsewhere stash store compared ∧
      recordOf compared stash = Function.update (recordOf store stash) target.index
        ((recordOf store stash target.index).raise params.rewardProportion slash) ∧
      (self.dirty = false → compared.slashingSpans.lookup stash = some self.spans) := by
  have fetched := fetchSpans_eq stash params.windowStart params.rewardProportion store
  generalize spansOf store stash params.windowStart = spans at found fetched ⊢
  obtain ⟨dirty, last, compared, outcome, sameCompared, sameSpans, records, clean⟩ :=
    compareAndUpdateSpanSlash_outcome
      ⟨false, params.windowStart, stash, spans, 0, 0, params.rewardProportion⟩
      { store with slashingSpans := store.slashingSpans.insert stash spans } slash found
  have same := (sameElsewhere_insertSpans stash spans store).trans sameCompared
  have stored : compared.slashingSpans.lookup stash = some spans := by
    rw [sameSpans]
    exact lookup_insert _
  simp only [Nat.zero_add] at outcome
  let noted : InspectingSpans AccountId :=
    { dirty
      windowStart := params.windowStart
      stash
      spans := { spans with lastNonzeroSlash := last }
      paidOut := rewardOf params.rewardProportion
        (recordOf store stash target.index) slash
      slashOf := slash - (recordOf store stash target.index).slashed
      rewardProportion := params.rewardProportion }
  have cleanNoted : noted.dirty = false →
      compared.slashingSpans.lookup stash = some noted.spans := by
    intro isClean
    obtain ⟨-, unchanged⟩ := clean isClean
    rw [stored, some.injEq]
    simp only [noted, unchanged]
  by_cases ongoing : target.index = spans.spanIndex
  · refine ⟨noted.endSpan params.now, compared, last, ?_, rfl, rfl, ?_, same, records, ?_⟩
    · simp only [chargeStash, fetched, outcome]
      rw [if_pos (congrArg some ongoing)]
      rfl
    · simp only [ongoing, if_true]
      rfl
    · intro isClean
      have both : (noted.spans.endSpan params.now).1 = false ∧ noted.dirty = false :=
        Bool.or_eq_false_iff.mp isClean
      have unended := SlashingSpans.endSpan_eq_self both.1
      exact (cleanNoted both.2).trans (congrArg some unended.symm)
  · refine ⟨noted, compared, last, ?_, rfl, rfl, ?_, same, records, cleanNoted⟩
    · simp only [chargeStash, fetched, outcome, some.injEq, ongoing, if_false]
      rfl
    · simp only [ongoing, if_false]
      rfl

section

variable {params : SlashParams AccountId} {store : SlashStore AccountId}
  {entries : List (Nat × Charge AccountId)}
  (held : SpansKept params.rewardProportion params.windowStart entries store)
  (inWindow : params.windowStart ≤ params.slashEra) (notLater : params.slashEra ≤ params.now)

include held inWindow notLater

/-- **A charge keeps the accounts of all stashes.** -/
theorem chargeStash_kept (stash : AccountId) (slash : Nat) :
    ∃ charge after, chargeStash params stash slash store = (charge, after) ∧
      charge.who = stash ∧ charge.eraSlash = slash ∧
      after.validatorSlashInEra = store.validatorSlashInEra ∧
      after.nominatorSlashInEra = store.nominatorSlashInEra ∧
      SpansKept params.rewardProportion params.windowStart
        ((params.slashEra, charge) :: entries) after := by
  have kept := held.spansOf stash
  obtain ⟨target, found, place⟩ :=
    SlashingSpans.find_span kept.chained (le_trans kept.covers inWindow)
  obtain ⟨self, compared, last, result, rfl, sameWindow, spans, same, records, clean⟩ :=
    chargeStash_outcome slash found
  have keptLast : Kept params.rewardProportion params.windowStart (chargesOf self.stash entries)
      (recordOf store self.stash)
      { spansOf store self.stash params.windowStart with lastNonzeroSlash := last } :=
    { kept with chained := ⟨kept.chained.fits, kept.chained.counted, kept.chained.proper⟩ }
  obtain ⟨charge, isCharge⟩ : ∃ charge, charge = Charge.forSlash self.stash
      params.rewardProportion (recordOf store self.stash target.index) slash := ⟨_, rfl⟩
  have who : charge.who = self.stash := by rw [isCharge]; rfl
  have keptSelf : Kept params.rewardProportion params.windowStart
      ((params.slashEra, charge) :: chargesOf self.stash entries)
      (recordOf compared self.stash) self.spans := by
    rw [records, spans, isCharge]
    rcases place with ⟨ongoing, isIndex⟩ | ⟨-, prior, contains, below⟩
    · simp only [isIndex, if_true]
      exact keptLast.chargeOngoing ongoing notLater self.stash slash
    · simp only [if_neg (Nat.ne_of_lt below)]
      exact keptLast.charge prior contains self.stash slash
  have mine : chargesOf self.stash ((params.slashEra, charge) :: entries) =
      (params.slashEra, charge) :: chargesOf self.stash entries :=
    (chargesOf_cons ..).trans (if_pos who)
  have others : ∀ other, other ≠ self.stash →
      chargesOf other ((params.slashEra, charge) :: entries) = chargesOf other entries := by
    intro other ne
    exact (chargesOf_cons ..).trans (if_neg (who ▸ Ne.symm ne))
  rw [← mine, ← sameWindow] at keptSelf
  rw [← sameWindow] at held
  obtain ⟨sameAll, after⟩ := held.drop same keptSelf clean others
  rw [sameWindow] at after
  rw [← isCharge] at result
  exact ⟨charge, _, result, who, by rw [isCharge]; rfl, sameAll.validators, sameAll.nominators,
    after⟩

theorem kickOutIfRecent_kept :
    (kickOutIfRecent params store).validatorSlashInEra = store.validatorSlashInEra ∧
      (kickOutIfRecent params store).nominatorSlashInEra = store.nominatorSlashInEra ∧
      SpansKept params.rewardProportion params.windowStart entries
        (kickOutIfRecent params store) := by
  have kept := held.spansOf params.stash
  obtain ⟨target, found, place⟩ :=
    SlashingSpans.find_span kept.chained (le_trans kept.covers inWindow)
  have fetched := fetchSpans_eq params.stash params.windowStart params.rewardProportion store
  generalize spansOf store params.stash params.windowStart = spans at kept found place fetched
  have same := sameElsewhere_insertSpans params.stash spans store
  have inSpan : eraSpan params.slashEra ⟨false, params.windowStart, params.stash,
      spans, 0, 0, params.rewardProportion⟩ = some target := found
  suffices inspected : ∃ dirty after, kickOutIfRecent params store = drop
        ⟨dirty, params.windowStart, params.stash, after, 0, 0, params.rewardProportion⟩
        { store with slashingSpans := store.slashingSpans.insert params.stash spans } ∧
      Kept params.rewardProportion params.windowStart (chargesOf params.stash entries)
        (recordOf store params.stash) after ∧ (dirty = false → after = spans) by
    obtain ⟨dirty, after, result, keptAfter, clean⟩ := inspected
    obtain ⟨sameAll, all⟩ := @SpansKept.drop _ _ _ _ _ ⟨dirty, params.windowStart, params.stash,
      after, 0, 0, params.rewardProportion⟩ _ entries held same keptAfter
      (fun isClean => by rw [clean isClean]; exact lookup_insert _) (fun _ _ => rfl)
    rw [result]
    exact ⟨sameAll.validators, sameAll.nominators, all⟩
  rcases place with ⟨ongoing, isIndex⟩ | ⟨-, -, -, below⟩
  · have begun : spans.lastStart ≤ params.now := le_trans ongoing notLater
    refine ⟨true, _, ?_, kept.endSpan begun, nofun⟩
    simp only [kickOutIfRecent, fetched]
    rw [inSpan, map_some, isIndex, if_pos rfl, endSpan, SlashingSpans.endSpan_eq begun]
    rfl
  · refine ⟨false, spans, ?_, kept, fun _ => rfl⟩
    simp only [kickOutIfRecent, fetched]
    rw [inSpan, map_some, if_neg]
    rw [some.injEq]
    exact Nat.ne_of_lt below

end

end Brace.Staking
