import Brace.Staking.Slashing

/-!
# Offences, eras and deferred slashes

The part of `frame/staking/src/lib.rs` that records slashes and applies them later. The slashes of
an offence are kept under the era that is active when they are recorded; the start of an era applies
those that were deferred long enough; others can be cancelled by their position.

What applying a slash does to ledgers and balances is not part of this state; it can kill accounts
and clear their slashing metadata, so its effect on that metadata is a parameter. Three logs, which
the program does not keep, say what was recorded, what a call asked to cancel and what was applied.
Eras and sessions are naturals here and `u32` in the program.
-/

namespace Brace.Staking

open Brace.Lib Brace.Arithmetic

variable (AccountId : Type)

/-- The constants of the configuration. -/
structure Config where
  bondingDuration : Nat
  slashDeferDuration : Nat
  slashRewardFraction : Perbill
  /-- What `apply_slash` does to the slashing metadata. -/
  onApply : UnappliedSlash AccountId → SlashStore AccountId → SlashStore AccountId

/-- The errors of `cancel_deferred_slash`. -/
inductive Error
  | badOrigin
  | duplicateIndex
  | invalidSlashIndex
deriving DecidableEq

/-- The origins of a call, as `cancel_deferred_slash` tells them apart. -/
inductive Origin
  /-- Accepted by `SlashCancelOrigin`. -/
  | slashCancel
  | root
  | other
deriving DecidableEq

/-- `OffenceDetails` of a validator. -/
structure OffenceDetails where
  offender : AccountId
  exposure : Exposure AccountId
  reporters : List AccountId

/-- A slash that was applied. -/
structure Application where
  /-- The era whose start applied it. -/
  appliedAt : Nat
  /-- The era in which it was recorded. -/
  recorded : Nat
  slash : UnappliedSlash AccountId
deriving DecidableEq

/-- The storage items about eras and slashes, and the logs. -/
structure State where
  /-- `ActiveEra`, its index. -/
  activeEra : Option Nat
  erasStartSessionIndex : HashMap Nat Nat
  bondedEras : List (Nat × Nat)
  invulnerables : List AccountId
  earliestUnappliedSlash : Option Nat
  unappliedSlashes : HashMap Nat (List (UnappliedSlash AccountId))
  slashes : SlashStore AccountId
  /-- What was recorded, with the era that was active. -/
  recorded : List (Nat × UnappliedSlash AccountId)
  /-- What calls that returned had asked to cancel, with the era of the record. -/
  cancelled : List (Nat × UnappliedSlash AccountId)
  applied : List (Application AccountId)
deriving DecidableEq

variable {AccountId : Type} [DecidableEq AccountId]

namespace State

/-- `UnappliedSlashes::get` -/
def unapplied (state : State AccountId) (era : Nat) : List (UnappliedSlash AccountId) :=
  (Finmap.lookup era state.unappliedSlashes).getD []

variable (config : Config AccountId)

/-- `apply_slash`, as far as this state is concerned. -/
def applySlash (appliedAt recorded : Nat) (state : State AccountId)
    (slash : UnappliedSlash AccountId) : State AccountId :=
  { state with
    slashes := config.onApply slash state.slashes
    applied := { appliedAt, recorded, slash } :: state.applied }

/-! ## Offences -/

variable (activeEra : Nat)

variable (state : State AccountId)

variable (slash : UnappliedSlash AccountId)

/-- Keep a slash for later. -/
def deferSlash : State AccountId :=
  { state with
    unappliedSlashes :=
      Finmap.insert activeEra (state.unapplied activeEra ++ [slash]) state.unappliedSlashes }

/-- Note that a slash was recorded. -/
def noteRecorded : State AccountId :=
  { state with recorded := (activeEra, slash) :: state.recorded }

/-- One round of the loop of `on_offence`. -/
def onOffender (activeEra slashEra : Nat) (state : State AccountId)
    (offence : OffenceDetails AccountId × Perbill) : State AccountId :=
  if offence.1.offender ∈ state.invulnerables then state
  else
    let computed := computeSlash
      { stash := offence.1.offender
        slash := offence.2
        exposure := offence.1.exposure
        slashEra
        windowStart := activeEra - config.bondingDuration
        now := activeEra
        rewardProportion := config.slashRewardFraction }
      state.slashes
    let state := { state with slashes := computed.2 }
    match computed.1 with
    | none => state
    | some unapplied =>
      let slash := { unapplied with reporters := offence.1.reporters }
      let state := state.noteRecorded activeEra slash
      if config.slashDeferDuration = 0 then state.applySlash config activeEra activeEra slash
      else state.deferSlash activeEra slash

/-- The era of an offence, from the session in which it happened; `none` before the bonding
period. -/
def slashEra (activeEra : Nat) (slashSession : Nat) : Option Nat :=
  let activeEraStart := (Finmap.lookup activeEra state.erasStartSessionIndex).getD 0
  if activeEraStart ≤ slashSession then some activeEra
  else (state.bondedEras.reverse.find? fun bonded => bonded.2 ≤ slashSession).map (·.1)

/-- Set `EarliestUnappliedSlash` if it is not set. -/
def initEarliest : State AccountId :=
  { state with
    earliestUnappliedSlash := some (state.earliestUnappliedSlash.getD activeEra) }

/-- `on_offence` -/
def onOffence (offenders : List (OffenceDetails AccountId)) (slashFraction : List Perbill)
    (slashSession : Nat) (state : State AccountId) : State AccountId :=
  match state.activeEra with
  | none => state
  | some activeEra =>
    match state.slashEra activeEra slashSession with
    | none => state
    | some slashEra =>
      (offenders.zip slashFraction).foldl (onOffender config activeEra slashEra)
        (state.initEarliest activeEra)

/-! ## Eras -/

/-- The part of `new_era` that plans the sessions of an era: its first session is noted, and that
of an era before the history is forgotten. -/
def newEra (era : Nat) (startSession : Nat) (oldEra : Option Nat)
    (state : State AccountId) : State AccountId :=
  let noted := Finmap.insert era startSession state.erasStartSessionIndex
  { state with erasStartSessionIndex := oldEra.elim noted fun old => Finmap.erase old noted }

variable (activeEra : Nat)

/-- The update of `BondedEras` at the start of an era. Also clears the metadata of the eras that
are pruned. -/
def pruneBonded (startSession : Nat) (state : State AccountId) : State AccountId :=
  let bonded := state.bondedEras ++ [(activeEra, startSession)]
  if config.bondingDuration < activeEra then
    let firstKept := activeEra - config.bondingDuration
    let pruned := bonded.takeWhile fun entry => entry.1 < firstKept
    { state with
      bondedEras := bonded.drop pruned.length
      slashes := pruned.foldl (fun slashes entry => clearEraMetadata entry.1 slashes)
        state.slashes }
  else
    { state with bondedEras := bonded }

/-- Take the slashes of an era out of the storage and apply them. -/
def applyEra (state : State AccountId) (era : Nat) : State AccountId :=
  (state.unapplied era).foldl (applySlash config activeEra era)
    { state with unappliedSlashes := Finmap.erase era state.unappliedSlashes }

/-- `apply_unapplied_slashes` -/
def applyUnappliedSlashes (state : State AccountId) : State AccountId :=
  match state.earliestUnappliedSlash with
  | none => state
  | some earliest =>
    let keepFrom := activeEra - config.slashDeferDuration
    let state := (List.range' earliest (keepFrom - earliest)).foldl (applyEra config activeEra)
      state
    { state with earliestUnappliedSlash := some (max earliest keepFrom) }

/-- `start_era` -/
def startEra (startSession : Nat) (state : State AccountId) : State AccountId :=
  let activeEra := (state.activeEra.map (· + 1)).getD 0
  let state := { state with activeEra := some activeEra }
  (state.pruneBonded config activeEra startSession).applyUnappliedSlashes config activeEra

/-! ## Cancelling -/

/-- The loop of `cancel_deferred_slash` over the sorted indices. -/
def cancelLoop {Slash : Type} (removed : Nat) : List Nat → List Slash → Except Error (List Slash)
  | [], unapplied => .ok unapplied
  | index :: rest, unapplied =>
    if removed ≤ index then
      if index - removed < unapplied.length then
        cancelLoop (removed + 1) rest (unapplied.eraseIdx (index - removed))
      else .error .invalidSlashIndex
    else .error .duplicateIndex

/-- The elements of a list whose position, counted from a start, is among those given. -/
def askedFrom {Slash : Type} (start : Nat) (positions : List Nat) : List Slash → List Slash
  | [] => []
  | slash :: rest =>
    if start ∈ positions then slash :: askedFrom (start + 1) positions rest
    else askedFrom (start + 1) positions rest

/-- `cancel_deferred_slash` -/
def cancelDeferredSlash (origin : Origin) (era : Nat) (slashIndices : List Nat)
    (state : State AccountId) : Except Error (State AccountId) :=
  match origin with
  | .other => .error .badOrigin
  | .slashCancel | .root => do
    let unapplied ← cancelLoop 0 (slashIndices.insertionSort (· ≤ ·)) (state.unapplied era)
    return { state with
      unappliedSlashes := Finmap.insert era unapplied state.unappliedSlashes
      cancelled := (askedFrom 0 slashIndices (state.unapplied era)).map (era, ·) ++
        state.cancelled }

end State

end Brace.Staking
