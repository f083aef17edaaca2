import Brace.Staking.CancelSlash

/-!
# Deferred slashes are applied once and on time

Runs of the staking pallet in which offences are reported, eras start and slashes are cancelled.
The cursor `EarliestUnappliedSlash` is set by the first offence and moved by every start of an
era. From then on it stays within the deferral of the active era (`Windowed`), so that each start
of an era applies the slashes of at most one era, and that is the one which has just been deferred
long enough. A call that names an index twice can take out a slash that it did not name, and one
that names none stores an empty list for any era; `Careful` leaves both out.
-/

namespace Brace.Staking

open Brace.Lib Brace.Arithmetic List Option

inductive Op (AccountId : Type)
  /-- The sessions of an era are planned. -/
  | newEra (era : Nat) (startSession : Nat) (oldEra : Option Nat)
  | startEra (startSession : Nat)
  | onOffence (offenders : List (OffenceDetails AccountId)) (slashFraction : List Perbill)
      (slashSession : Nat)
  | cancelDeferredSlash (origin : Origin) (era : Nat) (slashIndices : List Nat)

variable {AccountId : Type} [DecidableEq AccountId]

namespace State

variable (config : Config AccountId)

variable (state : State AccountId)

/-- One operation; a call that fails changes nothing. -/
def step : Op AccountId → State AccountId
  | .newEra era startSession oldEra => state.newEra era startSession oldEra
  | .startEra startSession => state.startEra config startSession
  | .onOffence offenders slashFraction slashSession =>
    state.onOffence config offenders slashFraction slashSession
  | .cancelDeferredSlash origin era slashIndices =>
    match state.cancelDeferredSlash origin era slashIndices with
    | .ok next => next
    | .error _ => state

/-- A call that cancels names some index and none twice. -/
def Careful : Op AccountId → Prop
  | .cancelDeferredSlash origin era slashIndices =>
    (state.cancelDeferredSlash origin era slashIndices).isOk = true →
      slashIndices ≠ [] ∧ slashIndices.Nodup
  | _ => True

instance (op : Op AccountId) : Decidable (state.Careful op) :=
  match op with
  | .cancelDeferredSlash _ _ _ => inferInstanceAs (Decidable (_ → _ ∧ _))
  | .newEra _ _ _ => .isTrue trivial
  | .startEra _ => .isTrue trivial
  | .onOffence _ _ _ => .isTrue trivial

/-- A step for `Reachable`: no operation faults. -/
def stepOk (op : Op AccountId) : Except Empty (State AccountId) :=
  .ok (state.step config op)

/-- No slash was recorded yet. -/
structure Fresh (state : State AccountId) : Prop where
  earliest : state.earliestUnappliedSlash = none
  unapplied : state.unappliedSlashes = ∅
  recorded : state.recorded = []
  cancelled : state.cancelled = []
  applied : state.applied = []

/-- How often a slash recorded in an era was applied. -/
def timesApplied (era : Nat) (slash : UnappliedSlash AccountId) : Nat :=
  state.applied.countP fun application => application.recorded = era ∧ application.slash = slash

/-- What was applied was applied on time, and what was recorded is accounted for. -/
structure OnSchedule (config : Config AccountId) (state : State AccountId) : Prop where
  /-- A slash is applied at the start of the era after its deferral. -/
  onTime : ∀ application ∈ state.applied,
    application.appliedAt = application.recorded + config.slashDeferDuration + 1
  /-- What was applied was applied at the start of the active era or before. -/
  past : ∀ application ∈ state.applied, ∃ active, state.activeEra = some active ∧
    application.appliedAt ≤ active
  /-- A recorded slash was cancelled, waits or was applied. -/
  accounted : ∀ era slash, state.recorded.count (era, slash) =
    state.cancelled.count (era, slash) + (state.unapplied era).count slash +
      state.timesApplied era slash

/-- The storage has lists only for the eras from the cursor to the active era, and the cursor is not
further behind than the deferral. -/
def Windowed : Prop :=
  match state.earliestUnappliedSlash with
  | none => ∀ era, era ∉ state.unappliedSlashes
  | some earliest => ∃ active, state.activeEra = some active ∧ earliest ≤ active ∧
      active ≤ earliest + config.slashDeferDuration ∧
      ∀ era, era < earliest ∨ active < era → era ∉ state.unappliedSlashes

/-- What a run keeps. -/
structure InTime (config : Config AccountId) (state : State AccountId) : Prop
    extends OnSchedule config state where
  windowed : Windowed config state

section

omit [DecidableEq AccountId]

theorem unapplied_insert (era other : Nat) (slashes : List (UnappliedSlash AccountId)) :
    { state with unappliedSlashes :=
        state.unappliedSlashes.insert era slashes }.unapplied other =
      if other = era then slashes else state.unapplied other := by
  rw [unapplied, HashMap.lookup_insert_eq]
  split <;> rfl

theorem unapplied_erase (era other : Nat) :
    { state with unappliedSlashes := state.unappliedSlashes.erase era }.unapplied other =
      if other = era then [] else state.unapplied other := by
  rw [unapplied, HashMap.lookup_erase_eq]
  split <;> rfl

end

variable {config : Config AccountId} {state : State AccountId}

/-! ## Offences -/

theorem onOffender_cases (deferred : 0 < config.slashDeferDuration)
    (active slashEra : Nat) (offence : OffenceDetails AccountId × Perbill) :
    ∃ slashes,
      onOffender config active slashEra state offence = { state with slashes } ∨
      ∃ slash, onOffender config active slashEra state offence =
        ({ state with slashes }.noteRecorded active slash).deferSlash active slash := by
  unfold onOffender
  split
  · exact ⟨state.slashes, Or.inl rfl⟩
  · generalize computeSlash _ state.slashes = computed
    obtain ⟨outcome, slashes⟩ := computed
    refine ⟨slashes, ?_⟩
    cases outcome with
    | none => exact Or.inl rfl
    | some unapplied =>
      simp only [if_neg (Nat.ne_of_gt deferred)]
      exact Or.inr ⟨_, rfl⟩

omit [DecidableEq AccountId] in
theorem unapplied_deferSlash (active : Nat) (slash : UnappliedSlash AccountId) (era : Nat) :
    (state.deferSlash active slash).unapplied era =
      if era = active then state.unapplied active ++ [slash] else state.unapplied era :=
  unapplied_insert state active era _

theorem OnSchedule.deferSlash (held : OnSchedule config state) (active : Nat)
    (slash : UnappliedSlash AccountId) :
    OnSchedule config ((state.noteRecorded active slash).deferSlash active slash) where
  __ := held
  accounted era other := by
    have before := held.accounted era other
    rw [unapplied_deferSlash]
    change ((active, slash) :: state.recorded).count (era, other) =
      state.cancelled.count (era, other) +
        (if era = active then state.unapplied active ++ [slash] else state.unapplied era).count
          other + state.timesApplied era other
    rw [count_cons, before]
    by_cases sameEra : era = active
    · by_cases sameSlash : slash = other
      · simp [sameEra, sameSlash, count_append]
        omega
      · simp [sameEra, sameSlash, count_append]
    · simp [sameEra, Ne.symm sameEra]

variable {earliest active era : Nat}

omit [DecidableEq AccountId] in
theorem Windowed.deferSlash (held : Windowed config state)
    (cursor : state.earliestUnappliedSlash = some earliest)
    (isActive : state.activeEra = some active) (slash : UnappliedSlash AccountId) :
    Windowed config ((state.noteRecorded active slash).deferSlash active slash) := by
  have kept : ((state.noteRecorded active slash).deferSlash active slash).earliestUnappliedSlash =
      some earliest := cursor
  rw [Windowed, cursor] at held
  obtain ⟨active', found, notAfter, notBehind, outside⟩ := held
  obtain rfl : active' = active := some.inj (found.symm.trans isActive)
  rw [Windowed, kept]
  refine ⟨active', isActive, notAfter, notBehind, ?_⟩
  intro era isOutside
  have other : era ≠ active' := by omega
  exact fun found => (Finmap.mem_insert.mp found).elim other (outside era isOutside)

theorem onOffenders_kept (deferred : 0 < config.slashDeferDuration)
    (slashEra : Nat) (offences : List (OffenceDetails AccountId × Perbill))
    (held : InTime config state) (cursor : state.earliestUnappliedSlash = some earliest)
    (isActive : state.activeEra = some active) :
    InTime config (offences.foldl (onOffender config active slashEra) state) := by
  induction offences generalizing state with
  | nil => exact held
  | cons offence rest ih =>
    rw [foldl_cons]
    obtain ⟨slashes, unchanged | ⟨slash, kept⟩⟩ :=
      @onOffender_cases _ _ config state deferred active slashEra offence
    · rw [unchanged]
      exact ih ⟨{ held with }, held.windowed⟩ cursor isActive
    · have noted : InTime config { state with slashes } :=
        ⟨{ held with }, held.windowed⟩
      rw [kept]
      exact ih ⟨noted.deferSlash active slash, noted.windowed.deferSlash cursor isActive slash⟩
        cursor isActive

theorem onOffence_kept (deferred : 0 < config.slashDeferDuration)
    (offenders : List (OffenceDetails AccountId)) (slashFraction : List Perbill)
    (slashSession : Nat) (held : InTime config state) :
    InTime config (state.onOffence config offenders slashFraction slashSession) := by
  unfold onOffence
  split
  · exact held
  · rename_i active isActive
    split
    · exact held
    · rename_i slashEra _
      have window := held.windowed
      have started : Windowed config (state.initEarliest active) := by
        cases cursor : state.earliestUnappliedSlash with
        | none =>
          rw [Windowed, cursor] at window
          have first : (state.initEarliest active).earliestUnappliedSlash = some active := by
            simp [initEarliest, cursor]
          rw [Windowed, first]
          exact ⟨active, isActive, le_refl _, Nat.le_add_right _ _, fun era _ => window era⟩
        | some earliest =>
          have same : state.initEarliest active = state := by
            simp only [initEarliest, cursor, getD_some]
            rw [← cursor]
          rw [same]
          exact window
      exact onOffenders_kept deferred slashEra _
        ⟨{ held with }, started⟩ rfl isActive

/-! ## Eras -/

section

omit [DecidableEq AccountId]

theorem foldl_applySlash (appliedAt recorded : Nat) (slashes : List (UnappliedSlash AccountId)) :
    ∃ metadata, slashes.foldl (applySlash config appliedAt recorded) state =
      { state with
        slashes := metadata
        applied := (slashes.map (Application.mk appliedAt recorded)).reverse ++
          state.applied } := by
  induction slashes generalizing state with
  | nil => exact ⟨state.slashes, rfl⟩
  | cons slash rest ih =>
    obtain ⟨metadata, folded⟩ := @ih (state.applySlash config appliedAt recorded slash)
    refine ⟨metadata, ?_⟩
    rw [foldl_cons, folded]
    simp [applySlash]

theorem applyEra_eq (active era : Nat) :
    ∃ metadata, applyEra config active state era =
      { state with
        unappliedSlashes := state.unappliedSlashes.erase era
        slashes := metadata
        applied := ((state.unapplied era).map (Application.mk active era)).reverse ++
          state.applied } :=
  foldl_applySlash active era (state.unapplied era)

end

theorem OnSchedule.applyEra (held : OnSchedule config state) (active era : Nat)
    (isActive : state.activeEra = some active)
    (due : active = era + config.slashDeferDuration + 1) :
    OnSchedule config (applyEra config active state era) := by
  obtain ⟨metadata, applied⟩ := @applyEra_eq _ config state active era
  have logged : ∀ application ∈ ((state.unapplied era).map (Application.mk active era)).reverse ++
      state.applied, application ∈ state.applied ∨ ∃ slash, application = ⟨active, era, slash⟩ := by
    intro application found
    rcases mem_append.mp found with new | old
    · obtain ⟨slash, -, rfl⟩ := mem_map.mp (mem_reverse.mp new)
      exact .inr ⟨slash, rfl⟩
    · exact .inl old
  rw [applied]
  constructor
  · intro application found
    obtain old | ⟨slash, rfl⟩ := logged application found
    · exact held.onTime application old
    · exact due
  · intro application found
    obtain old | ⟨slash, rfl⟩ := logged application found
    · exact held.past application old
    · exact ⟨active, isActive, le_refl active⟩
  · intro other slash
    have before := held.accounted other slash
    have lists := unapplied_erase state era other
    change state.recorded.count (other, slash) = state.cancelled.count (other, slash) +
      ({ state with unappliedSlashes :=
        state.unappliedSlashes.erase era }.unapplied other).count slash +
      countP _ (_ ++ state.applied)
    rw [lists, countP_append, countP_reverse, countP_map, before, timesApplied]
    by_cases same : other = era
    · simp only [same, List.count, Function.comp_def, true_and, Bool.beq_eq_decide_eq, if_true,
        countP_nil]
      omega
    · simp [same, Ne.symm same, Function.comp_def]

/-- Applying eras that are due keeps the schedule and takes their lists out of the storage. -/
theorem applyEras_kept {active : Nat} {eras : List Nat}
    (due : ∀ era ∈ eras, active = era + config.slashDeferDuration + 1)
    (isActive : state.activeEra = some active) (schedule : OnSchedule config state) :
    OnSchedule config (eras.foldl (applyEra config active) state) ∧
      (eras.foldl (applyEra config active) state).activeEra = some active ∧
      ∀ other ∈ (eras.foldl (applyEra config active) state).unappliedSlashes,
        other ∉ eras ∧ other ∈ state.unappliedSlashes := by
  induction eras generalizing state with
  | nil => exact ⟨schedule, isActive, fun other found => ⟨not_mem_nil, found⟩⟩
  | cons era rest ih =>
    rw [foldl_cons]
    obtain ⟨metadata, applied⟩ := @applyEra_eq _ config state active era
    have stillActive : (applyEra config active state era).activeEra = some active := by
      rw [applied]
      exact isActive
    obtain ⟨kept, sameActive, lists⟩ :=
      ih (fun other later => due other (mem_cons_of_mem _ later)) stillActive
        (schedule.applyEra active era isActive (due era mem_cons_self))
    refine ⟨kept, sameActive, ?_⟩
    intro other found
    obtain ⟨notLater, there⟩ := lists other found
    rw [applied] at there
    obtain ⟨ne, before⟩ := Finmap.mem_erase.mp there
    exact ⟨not_mem_cons_of_ne_of_not_mem ne notLater, before⟩

omit [DecidableEq AccountId] in
theorem pruneBonded_eq (active : Nat) (startSession : Nat) :
    ∃ bondedEras slashes,
      state.pruneBonded config active startSession = { state with bondedEras, slashes } := by
  unfold pruneBonded
  split
  · exact ⟨_, _, rfl⟩
  · exact ⟨_, state.slashes, rfl⟩

theorem applyUnappliedSlashes_kept (active : Nat) (schedule : OnSchedule config state)
    (isActive : state.activeEra = some active) (window : match state.earliestUnappliedSlash with
      | none => ∀ era, era ∉ state.unappliedSlashes
      | some earliest => earliest < active ∧ active ≤ earliest + config.slashDeferDuration + 1 ∧
          ∀ era, era < earliest ∨ active ≤ era → era ∉ state.unappliedSlashes) :
    InTime config (state.applyUnappliedSlashes config active) := by
  unfold applyUnappliedSlashes
  cases cursor : state.earliestUnappliedSlash with
  | none =>
    refine ⟨schedule, ?_⟩
    rw [cursor] at window
    simp only [Windowed, cursor]
    exact window
  | some earliest =>
    rw [cursor] at window
    obtain ⟨before, notBehind, outside⟩ := window
    -- the cursor is so close that the range holds only the era that is due
    have due : ∀ era ∈ List.range' earliest (active - config.slashDeferDuration - earliest),
        active = era + config.slashDeferDuration + 1 := by
      intro era inRange
      rw [mem_range'_1] at inRange
      omega
    obtain ⟨kept, sameActive, lists⟩ := applyEras_kept due isActive schedule
    refine ⟨{ kept with }, ?_⟩
    simp only [Windowed]
    refine ⟨active, sameActive, by omega, by omega, ?_⟩
    intro era isOutside found
    obtain ⟨notApplied, there⟩ := lists era found
    rw [mem_range'_1] at notApplied
    exact outside era (by omega) there

theorem startEra_kept (startSession : Nat) (held : InTime config state) :
    InTime config (state.startEra config startSession) := by
  unfold startEra
  generalize next : (state.activeEra.map (· + 1)).getD 0 = active
  obtain ⟨bondedEras, slashes, pruned⟩ :=
    @pruneBonded_eq _ config { state with activeEra := some active } active startSession
  simp only [pruned]
  have past : ∀ application ∈ state.applied, ∃ current, some active = some current ∧
      application.appliedAt ≤ current := by
    intro application found
    obtain ⟨current, isActive, notLater⟩ := held.past application found
    rw [isActive, map_some, getD_some] at next
    exact ⟨active, rfl, by omega⟩
  refine applyUnappliedSlashes_kept active ⟨held.onTime, past, held.accounted⟩ rfl ?_
  have window := held.windowed
  rw [Windowed] at window
  change match state.earliestUnappliedSlash with
    | none => ∀ era, era ∉ state.unappliedSlashes
    | some earliest => _
  cases cursor : state.earliestUnappliedSlash with
  | none =>
    rw [cursor] at window
    exact window
  | some earliest =>
    rw [cursor] at window
    obtain ⟨current, isActive, notAfter, notBehind, outside⟩ := window
    rw [isActive, map_some, getD_some] at next
    refine ⟨by omega, by omega, ?_⟩
    intro era isOutside
    exact outside era (by omega)

/-! ## Cancelling -/

theorem cancelDeferredSlash_kept {after : State AccountId} {origin : Origin} {era : Nat}
    {slashIndices : List Nat} (ran : state.cancelDeferredSlash origin era slashIndices = .ok after)
    (careful : slashIndices ≠ [] ∧ slashIndices.Nodup) (held : InTime config state) :
    InTime config after := by
  obtain ⟨-, kept, looped, rfl⟩ := (cancelDeferredSlash_eq_ok ..).mp ran
  constructor
  · refine ⟨held.onTime, held.past, ?_⟩
    intro other slash
    have before := held.accounted other slash
    have lists := unapplied_insert state era other kept
    change state.recorded.count (other, slash) =
      List.count (other, slash) ((askedFrom 0 slashIndices (state.unapplied era)).map (era, ·) ++
        state.cancelled) +
      ({ state with unappliedSlashes :=
        state.unappliedSlashes.insert era kept }.unapplied other).count slash +
      state.timesApplied other slash
    rw [lists, count_append, before]
    by_cases same : other = era
    · subst same
      have injective : Function.Injective fun slash : UnappliedSlash AccountId =>
          (other, slash) := fun _ _ equal => (Prod.mk.inj equal).2
      have whole := count_askedFrom 0 slashIndices (state.unapplied other) slash
      rw [← cancelLoop_sorted_eq_withoutFrom careful.2 looped] at whole
      rw [count_map_of_injective _ _ injective, if_pos rfl]
      omega
    · have nowhere : (other, slash) ∉
          (askedFrom 0 slashIndices (state.unapplied era)).map (era, ·) := by
        simp [Ne.symm same]
      rw [count_eq_zero.mpr nowhere, if_neg same]
      omega
  · -- a named position is inside the list of the era, so the era has a list already
    have stored : era ∈ state.unappliedSlashes := by
      obtain ⟨index, asked⟩ := exists_mem_of_ne_nil _ careful.1
      have inside := ((cancelLoop_sorted_returns_iff ..).mp ⟨kept, looped⟩).2 index asked
      by_contra absent
      rw [unapplied, Finmap.lookup_eq_none.mpr absent] at inside
      exact absurd inside (Nat.not_lt_zero index)
    have fewer : ∀ other, other ∉ state.unappliedSlashes →
        other ∉ state.unappliedSlashes.insert era kept := by
      intro other absent found
      rcases Finmap.mem_insert.mp found with rfl | there
      · exact absent stored
      · exact absent there
    have window := held.windowed
    unfold Windowed at window ⊢
    change match state.earliestUnappliedSlash with
      | none => _
      | some earliest => _
    cases cursor : state.earliestUnappliedSlash with
    | none =>
      rw [cursor] at window
      exact fun other => fewer other (window other)
    | some earliest =>
      rw [cursor] at window
      obtain ⟨active, isActive, notAfter, notBehind, outside⟩ := window
      exact ⟨active, isActive, notAfter, notBehind,
        fun other isOutside => fewer other (outside other isOutside)⟩

/-! ## Runs -/

theorem step_kept (deferred : 0 < config.slashDeferDuration) (op : Op AccountId)
    (careful : state.Careful op) (held : InTime config state) :
    InTime config (state.step config op) := by
  cases op with
  | newEra era startSession oldEra =>
    exact ⟨{ held with }, held.windowed⟩
  | startEra startSession => exact startEra_kept startSession held
  | onOffence offenders slashFraction slashSession =>
    exact onOffence_kept deferred offenders slashFraction slashSession held
  | cancelDeferredSlash origin era slashIndices =>
    simp only [step]
    cases called : state.cancelDeferredSlash origin era slashIndices with
    | error error => exact held
    | ok after => exact cancelDeferredSlash_kept called (careful (by rw [called]; rfl)) held

theorem Fresh.kept (fresh : state.Fresh) : InTime config state := by
  have empty : ∀ era, state.unapplied era = [] := by
    intro era
    simp [State.unapplied, fresh.unapplied]
  constructor
  · refine ⟨?_, ?_, ?_⟩
    · intro application found
      rw [fresh.applied] at found
      cases found
    · intro application found
      rw [fresh.applied] at found
      cases found
    · intro era slash
      simp [fresh.recorded, fresh.cancelled, fresh.applied, empty, timesApplied]
  · rw [Windowed, fresh.earliest, fresh.unapplied]
    exact fun era => Finmap.notMem_empty

omit [DecidableEq AccountId] in
theorem Windowed.not_mem (held : Windowed config state)
    (isActive : state.activeEra = some active)
    (ended : era + config.slashDeferDuration + 1 ≤ active) : era ∉ state.unappliedSlashes := by
  unfold Windowed at held
  cases cursor : state.earliestUnappliedSlash with
  | none =>
    rw [cursor] at held
    exact held era
  | some earliest =>
    rw [cursor] at held
    obtain ⟨current, isCurrent, -, notBehind, outside⟩ := held
    obtain rfl : current = active := some.inj (isCurrent.symm.trans isActive)
    exact outside era (by omega)

theorem OnSchedule.timesApplied_eq_zero (held : OnSchedule config state)
    (isActive : state.activeEra = some active)
    (waits : active < era + config.slashDeferDuration + 1) (slash : UnappliedSlash AccountId) :
    state.timesApplied era slash = 0 := by
  rw [timesApplied, countP_eq_zero]
  intro application found
  have onTime := held.onTime application found
  obtain ⟨current, isCurrent, notLater⟩ := held.past application found
  obtain rfl : current = active := some.inj (isCurrent.symm.trans isActive)
  simp only [decide_eq_true_eq, not_and]
  intro same
  omega

/-- **Deferred slashes are applied once and on time.** In every run from a fresh state whose calls
cancel carefully, a slash is applied only at the start of the era after its deferral; once that era
has started, every slash recorded was asked to be cancelled or was applied, each as often as it was
recorded; and the storage has no list for an era before the cursor. -/
theorem deferred_slashes_applied_once {start state : State AccountId} (config : Config AccountId)
    (deferred : 0 < config.slashDeferDuration) (fresh : start.Fresh)
    (reached : Reachable (stepOk config) Careful start state) :
    (∀ application ∈ state.applied,
      application.appliedAt = application.recorded + config.slashDeferDuration + 1) ∧
    (∀ active era slash, state.activeEra = some active →
      era + config.slashDeferDuration + 1 ≤ active →
      state.recorded.count (era, slash) =
        state.cancelled.count (era, slash) + state.timesApplied era slash) ∧
    (∀ active era slash, state.activeEra = some active →
      active < era + config.slashDeferDuration + 1 →
      state.recorded.count (era, slash) =
        state.cancelled.count (era, slash) + (state.unapplied era).count slash) ∧
    (∀ earliest era, state.earliestUnappliedSlash = some earliest → era < earliest →
      era ∉ state.unappliedSlashes) := by
  obtain ⟨schedule, window⟩ : InTime config state := by
    refine reached.invariant fresh.kept fun state op next held careful stepped => ?_
    obtain rfl : state.step config op = next := Except.ok.inj stepped
    exact step_kept deferred op careful held
  refine ⟨schedule.onTime, ?_, ?_, ?_⟩
  · intro active era slash isActive ended
    have before := schedule.accounted era slash
    have nothing : state.unapplied era = [] := by
      rw [unapplied, Finmap.lookup_eq_none.mpr (window.not_mem isActive ended)]
      rfl
    rw [nothing, count_nil] at before
    omega
  · intro active era slash isActive waits
    have before := schedule.accounted era slash
    rw [schedule.timesApplied_eq_zero isActive waits slash] at before
    omega
  · intro earliest era cursor below
    rw [Windowed, cursor] at window
    obtain ⟨_, _, _, _, outside⟩ := window
    exact outside era (Or.inl below)

/-- A configuration that defers slashes by one era. -/
def deferOne : Config Nat where
  bondingDuration := 3
  slashDeferDuration := 1
  slashRewardFraction := .fromPercent 10
  onApply := fun _ slashes => slashes

/-- The state before the first era. -/
def beforeEras : State Nat where
  activeEra := none
  erasStartSessionIndex := ∅
  bondedEras := []
  invulnerables := []
  earliestUnappliedSlash := none
  unappliedSlashes := ∅
  slashes := ⟨∅, ∅, ∅, ∅⟩
  recorded := []
  cancelled := []
  applied := []

/-- A validator with a nominator. -/
def offence : OffenceDetails Nat where
  offender := 1
  exposure :=
    { total := 1000, own := 600, others := [{ who := 2, value := 400 }], covered := by decide }
  reporters := [3]

def otherOffence : OffenceDetails Nat where
  offender := 4
  exposure := { total := 500, own := 500, others := [], covered := by decide }
  reporters := []

/-- Of two slashes of era zero the second is cancelled and the first is applied at the start of
era two. -/
theorem deferred_slashes_applied_once_offence :
    ∃ state, Reachable (stepOk deferOne) Careful beforeEras state ∧
      state.applied.map (fun application => (application.appliedAt, application.slash.validator)) =
        [(2, 1)] ∧ state.cancelled.map (·.2.validator) = [4] ∧
      (∀ application ∈ state.applied, application.appliedAt = application.recorded + 1 + 1) ∧
      ∀ slash, state.recorded.count (0, slash) =
        state.cancelled.count (0, slash) + state.timesApplied 0 slash := by
  obtain ⟨state, reached, active, applied, cancelled⟩ : ∃ state,
      Reachable (stepOk deferOne) Careful beforeEras state ∧ state.activeEra = some 2 ∧
      state.applied.map (fun application => (application.appliedAt, application.slash.validator)) =
        [(2, 1)] ∧ state.cancelled.map (·.2.validator) = [4] :=
    exists_reachable_of_run
      [.startEra 0, .onOffence [offence, otherOffence] [.fromPercent 50, .fromPercent 20] 0,
        .cancelDeferredSlash .root 0 [1], .startEra 1, .startEra 2]
      (by decide +kernel)
  obtain ⟨onTime, once, -⟩ :=
    deferred_slashes_applied_once deferOne (by decide) ⟨rfl, rfl, rfl, rfl, rfl⟩ reached
  exact ⟨state, reached, applied, cancelled, onTime, fun slash => once 2 0 slash active (by decide)⟩

/-- **A slash is lost.** A call that names the second slash twice takes out the first one as well,
which is never applied although nobody asked to cancel it. And a call that names nothing leaves an
empty list for an era before the cursor. -/
theorem deferred_slash_lost :
    (∃ state, Reachable (stepOk deferOne) (fun _ _ => True) beforeEras state ∧
      state.activeEra = some 2 ∧ ∃ slash ∈ state.recorded, slash.1 = 0 ∧
        slash ∉ state.cancelled ∧ state.timesApplied 0 slash.2 = 0) ∧
    ∃ state, Reachable (stepOk deferOne) (fun _ _ => True) beforeEras state ∧
      state.earliestUnappliedSlash = some 1 ∧ 0 ∈ state.unappliedSlashes := by
  constructor
  · exact exists_reachable_of_run
      [.startEra 0, .onOffence [offence, otherOffence] [.fromPercent 50, .fromPercent 20] 0,
        .cancelDeferredSlash .root 0 [1, 1], .startEra 1, .startEra 2]
      (by decide +kernel)
  · exact exists_reachable_of_run
      [.startEra 0, .onOffence [] [] 0, .startEra 1, .startEra 2, .cancelDeferredSlash .root 0 []]
      (by decide +kernel)

end State

end Brace.Staking
