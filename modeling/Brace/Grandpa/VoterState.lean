import Brace.Lib.HashMap
import Brace.Lib.Run

/-!
# The votes that a voter has cast

`VoterSetState` of `finality-grandpa` records for each live round which votes the local key has
cast. The callbacks of the voter write the new state to disk and then take it over, so that a
restart finds it again. A callback replaces the whole record of a round: `prevoted` and
`precommitted` carry the earlier votes over, but `proposed` does not. In a run in which no proposal
comes after a prevote without one, no vote is forgotten until its round is completed
(`votes_remembered`).
-/

namespace Brace.Grandpa

open Brace.Lib Finmap

/-- `Vote`. A proposal, a prevote and a precommit are each for a block. -/
inductive Vote (B : Type) where
  | propose (propose : B)
  | prevote (propose : Option B) (prevote : B)
  | precommit (propose : Option B) (prevote : B) (precommit : B)
  deriving DecidableEq

/-- `HasVoted` -/
inductive HasVoted (I B : Type) where
  | no
  | yes (id : I) (vote : Vote B)
  deriving DecidableEq

/-- `CompletedRound`, with the state, the base and the votes of the round as data. -/
structure CompletedRound (D : Type) where
  number : Nat
  data : D

/-- `CompletedRounds` -/
structure CompletedRounds (I D : Type) where
  rounds : List (CompletedRound D)
  setId : Nat
  voters : List I

/-- `VoterSetState` -/
inductive VoterSetState (I B D : Type) where
  | live (completedRounds : CompletedRounds I D) (currentRounds : HashMap Nat (HasVoted I B))
  | paused (completedRounds : CompletedRounds I D)

inductive VoterError (E : Type) where
  | safety (message : String)
  | client (error : E)

variable {I B D E : Type}

namespace HasVoted

/-- `propose` -/
def propose : HasVoted I B → Option B
  | yes _ (.propose propose) => some propose
  | yes _ (.prevote propose _) => propose
  | yes _ (.precommit propose _ _) => propose
  | no => none

/-- `prevote` -/
def prevote : HasVoted I B → Option B
  | yes _ (.prevote _ prevote) => some prevote
  | yes _ (.precommit _ prevote _) => some prevote
  | _ => none

/-- `precommit` -/
def precommit : HasVoted I B → Option B
  | yes _ (.precommit _ _ precommit) => some precommit
  | _ => none

/-- The key that has voted. -/
def voter : HasVoted I B → Option I
  | yes id _ => some id
  | no => none

end HasVoted

namespace CompletedRounds

/-- The binary search of `push` in the rounds, the latest of which comes first: the place of the
round with the same number, or else the place before the first earlier one. -/
def place (round : CompletedRound D) : List (CompletedRound D) → List (CompletedRound D)
  | [] => [round]
  | first :: rest =>
    if first.number = round.number then round :: rest
    else if first.number < round.number then round :: first :: rest
    else first :: place round rest

/-- `push`, which keeps `NUM_LAST_COMPLETED_ROUNDS` rounds. -/
def push (self : CompletedRounds I D) (round : CompletedRound D) : CompletedRounds I D :=
  let rounds := place round self.rounds
  { self with rounds := if 2 < rounds.length then rounds.dropLast else rounds }

/-- The number of the `last` round, if there is one. -/
def lastNumber (self : CompletedRounds I D) : Option Nat := self.rounds.head?.map (·.number)

theorem lastNumber_push {self : CompletedRounds I D} {round : CompletedRound D}
    (later : ∀ number ∈ self.lastNumber, number < round.number) :
    (self.push round).lastNumber = some round.number := by
  obtain ⟨rounds, setId, voters⟩ := self
  cases rounds with
  | nil => rfl
  | cons first rest =>
    have less : first.number < round.number := later _ rfl
    have placed : place round (first :: rest) = round :: first :: rest := by
      rw [place, if_neg less.ne, if_pos less]
    simp only [push, placed, lastNumber]
    split <;> rfl

end CompletedRounds

namespace VoterSetState

/-- `live` -/
def start (setId : Nat) (voters : List I) (genesis : D) : VoterSetState I B D :=
  .live ⟨[⟨0, genesis⟩], setId, voters⟩ (Finmap.singleton 1 .no)

variable (self : VoterSetState I B D)

/-- `has_voted` of `SharedVoterSetState` -/
def hasVoted (round : Nat) : HasVoted I B :=
  match self with
  | live _ currentRounds => (Finmap.lookup round currentRounds).getD .no
  | paused _ => .no

/-- The three callbacks for a vote, after `with_current_round`: the record of the round is replaced
unless the vote was cast before. -/
def castVote (localId : I) (round : Nat)
    (vote : HasVoted I B → Except (VoterError E) (Option (Vote B))) :
    Except (VoterError E) (Option (VoterSetState I B D)) :=
  match self with
  | paused _ => .error (.safety "Voter acting while in paused state.")
  | live completedRounds currentRounds =>
    match Finmap.lookup round currentRounds with
    | none => .error (.safety "Voter acting on a live round we are not tracking.")
    | some currentRound =>
      (vote currentRound).map fun cast => cast.map fun vote =>
        live completedRounds (currentRounds.insert round (.yes localId vote))

/-- The record that `proposed` makes. -/
def proposed (propose : B) (currentRound : HasVoted I B) :
    Except (VoterError E) (Option (Vote B)) :=
  .ok (if currentRound.propose.isNone then some (.propose propose) else none)

/-- The record that `prevoted` makes. -/
def prevoted (prevote : B) (currentRound : HasVoted I B) :
    Except (VoterError E) (Option (Vote B)) :=
  .ok (if currentRound.prevote.isNone then some (.prevote currentRound.propose prevote) else none)

/-- The record that `precommitted` makes. -/
def precommitted (precommit : B) (currentRound : HasVoted I B) :
    Except (VoterError E) (Option (Vote B)) :=
  if currentRound.precommit.isNone then
    match currentRound with
    | .yes _ (.prevote propose prevote) => .ok (some (.precommit propose prevote precommit))
    | _ => .error (.safety "Voter precommitting before prevoting.")
  else .ok none

/-- `completed` -/
def completed (round : Nat) (data : D) : Except (VoterError E) (Option (VoterSetState I B D)) :=
  match self with
  | paused _ => .error (.safety "Voter acting while in paused state.")
  | live completedRounds currentRounds =>
    .ok (some (live (completedRounds.push ⟨round, data⟩)
      ((currentRounds.erase round).insert (round + 1) .no)))

end VoterSetState

/-! ## Runs -/

/-- A voter with the state in memory and the state on disk. -/
structure Voter (I B D : Type) where
  memory : VoterSetState I B D
  disk : VoterSetState I B D

/-- A callback, with the result of the write to disk, or a restart. -/
inductive VoterOp (B D E : Type) where
  | proposed (round : Nat) (propose : B) (written : Except E Unit)
  | prevoted (round : Nat) (prevote : B) (written : Except E Unit)
  | precommitted (round : Nat) (precommit : B) (written : Except E Unit)
  | completed (round : Nat) (data : D) (written : Except E Unit)
  | restart

namespace Voter

variable (self : Voter I B D)

/-- `update_voter_set_state`: the new state is written before it is taken over. -/
def update (written : Except E Unit)
    (changed : Except (VoterError E) (Option (VoterSetState I B D))) :
    Voter I B D × Except (VoterError E) Unit :=
  match changed, written with
  | .error error, _ => (self, .error error)
  | .ok none, _ => (self, .ok ())
  | .ok (some _), .error error => (self, .error (.client error))
  | .ok (some state), .ok () => (⟨state, state⟩, .ok ())

/-- A callback for a vote does nothing unless `is_voter` finds a local key. -/
def cast (localId : Option I) (round : Nat) (written : Except E Unit)
    (vote : HasVoted I B → Except (VoterError E) (Option (Vote B))) :
    Voter I B D × Except (VoterError E) Unit :=
  match localId with
  | none => (self, .ok ())
  | some localId => self.update written (self.memory.castVote localId round vote)

/-- The voter after a callback, which may fail, or a restart. -/
def step (localId : Option I) (self : Voter I B D) : VoterOp B D E → Except Empty (Voter I B D)
  | .proposed round propose written =>
    .ok (self.cast localId round written (VoterSetState.proposed propose)).1
  | .prevoted round prevote written =>
    .ok (self.cast localId round written (VoterSetState.prevoted prevote)).1
  | .precommitted round precommit written =>
    .ok (self.cast localId round written (VoterSetState.precommitted precommit)).1
  | .completed round data written => .ok (self.update written (self.memory.completed round data)).1
  | .restart => .ok ⟨self.disk, self.disk⟩

/-- The number of the last completed round. -/
def lastNumber (self : Voter I B D) : Option Nat :=
  match self.memory with
  | .live completedRounds _ => completedRounds.lastNumber
  | .paused completedRounds => completedRounds.lastNumber

/-- Rounds are completed in increasing order. -/
def Increasing : VoterOp B D E → Prop
  | .completed round _ _ => ∀ number ∈ self.lastNumber, number < round
  | _ => True

/-- No proposal comes after a prevote without one. -/
def ProposesFirst : VoterOp B D E → Prop
  | .proposed round _ _ => (self.memory.hasVoted round).propose = none →
      (self.memory.hasVoted round).prevote = none
  | _ => True

/-- The operation completes the round. -/
def Completes (round : Nat) : VoterOp B D E → Prop
  | .completed done _ (.ok _) => done = round
  | _ => False

instance (op : VoterOp B D E) : Decidable (self.Increasing op) :=
  match op with
  | .completed .. => inferInstanceAs (Decidable (∀ number ∈ self.lastNumber, _))
  | .proposed .. | .prevoted .. | .precommitted .. | .restart => isTrue trivial

instance [DecidableEq B] (self : Voter I B D) (op : VoterOp B D E) :
    Decidable (self.ProposesFirst op) :=
  match op with
  | .proposed .. => inferInstanceAs (Decidable (_ → _))
  | .completed .. | .prevoted .. | .precommitted .. | .restart => isTrue trivial

instance (round : Nat) (op : VoterOp B D E) : Decidable (Completes round op) :=
  match op with
  | .completed done _ (.ok _) => inferInstanceAs (Decidable (done = round))
  | .completed _ _ (.error _) | .proposed .. | .prevoted .. | .precommitted .. | .restart =>
    isFalse id

/-- The second record has every vote of the first, of the same key. -/
structure Keeps (before after : HasVoted I B) : Prop where
  voter : ∀ id ∈ before.voter, id ∈ after.voter
  propose : ∀ block ∈ before.propose, block ∈ after.propose
  prevote : ∀ block ∈ before.prevote, block ∈ after.prevote
  precommit : ∀ block ∈ before.precommit, block ∈ after.precommit

theorem Keeps.refl (record : HasVoted I B) : Keeps record record :=
  ⟨fun _ => id, fun _ => id, fun _ => id, fun _ => id⟩

theorem Keeps.trans {first second third : HasVoted I B} (earlier : Keeps first second)
    (later : Keeps second third) : Keeps first third :=
  ⟨fun id found => later.voter id (earlier.voter id found),
    fun block found => later.propose block (earlier.propose block found),
    fun block found => later.prevote block (earlier.prevote block found),
    fun block found => later.precommit block (earlier.precommit block found)⟩

/-- The record of a round that may not be tracked. -/
def recorded (currentRounds : HashMap Nat (HasVoted I B)) (round : Nat) : HasVoted I B :=
  (Finmap.lookup round currentRounds).getD .no

/-- The vote that a callback makes of a record of the same key is recorded over all others. -/
def Extends (vote : HasVoted I B → Except (VoterError E) (Option (Vote B)))
    (record : HasVoted I B) : Prop :=
  ∀ id made, (∀ other ∈ record.voter, other = id) → vote record = .ok (some made) →
    Keeps record (.yes id made)

theorem proposed_extends {record : HasVoted I B}
    (first : record.propose = none → record.prevote = none) (propose : B) :
    Extends (E := E) (VoterSetState.proposed propose) record := by
  intro id made own ran
  rcases record with _ | ⟨other, _ | ⟨_ | _, _⟩ | ⟨_ | _, _, _⟩⟩ <;>
    simp [VoterSetState.proposed, HasVoted.propose, HasVoted.prevote] at ran first
  exact ⟨nofun, nofun, nofun, nofun⟩

theorem prevoted_extends (record : HasVoted I B) (prevote : B) :
    Extends (E := E) (VoterSetState.prevoted prevote) record := by
  intro id made own ran
  rcases record with _ | ⟨other, _ | _ | _⟩ <;>
    simp [VoterSetState.prevoted, HasVoted.prevote] at ran <;> subst ran
  · exact ⟨nofun, nofun, nofun, nofun⟩
  · exact ⟨fun _ found => own _ found ▸ rfl, fun _ found => found, nofun, nofun⟩

theorem precommitted_extends (record : HasVoted I B) (precommit : B) :
    Extends (E := E) (VoterSetState.precommitted precommit) record := by
  intro id made own ran
  rcases record with _ | ⟨other, _ | _ | _⟩ <;>
    simp [VoterSetState.precommitted, HasVoted.precommit] at ran
  subst ran
  exact ⟨fun _ found => own _ found ▸ rfl, fun _ found => found, fun _ found => found, nofun⟩

/-! ## Steps -/

/-- A voter whose state is on disk. -/
def saved (completedRounds : CompletedRounds I D) (currentRounds : HashMap Nat (HasVoted I B)) :
    Voter I B D :=
  ⟨.live completedRounds currentRounds, .live completedRounds currentRounds⟩

/-- No round after the next one is tracked, and the votes are those of the local key. -/
structure Tracks (localId : Option I) (completedRounds : CompletedRounds I D)
    (currentRounds : HashMap Nat (HasVoted I B)) : Prop where
  next : ∀ round ∈ currentRounds, ∃ number ∈ completedRounds.lastNumber, round ≤ number + 1
  own : ∀ round, ∀ id ∈ (recorded currentRounds round).voter, localId = some id

section

variable {localId : Option I} {completedRounds : CompletedRounds I D}
  {currentRounds : HashMap Nat (HasVoted I B)}

theorem recorded_insert (round other : Nat) (record : HasVoted I B) :
    recorded (currentRounds.insert round record) other =
      if other = round then record else recorded currentRounds other := by
  unfold recorded
  rw [HashMap.lookup_insert_eq]
  split <;> rfl

section

variable (tracks : Tracks localId completedRounds currentRounds)

include tracks

theorem cast_keeps {round : Nat} (written : Except E Unit)
    {vote : HasVoted I B → Except (VoterError E) (Option (Vote B))}
    (extended : Extends vote (recorded currentRounds round)) :
    ∃ after, ((saved completedRounds currentRounds).cast localId round written vote).1 =
        saved completedRounds after ∧ Tracks localId completedRounds after ∧
      ∀ other, Keeps (recorded currentRounds other) (recorded after other) := by
  have same : ∃ after, saved completedRounds currentRounds = saved completedRounds after ∧
      Tracks localId completedRounds after ∧
      ∀ other, Keeps (recorded currentRounds other) (recorded after other) :=
    ⟨currentRounds, rfl, tracks, fun other => .refl _⟩
  unfold cast
  split
  · exact same
  · rename_i id
    simp only [saved, VoterSetState.castVote]
    cases found : currentRounds.lookup round with
    | none => exact same
    | some record =>
      have current : recorded currentRounds round = record := by
        rw [recorded, found]
        rfl
      rw [current] at extended
      simp only
      cases ran : vote record with
      | error error => exact same
      | ok cast =>
        cases cast with
        | none => exact same
        | some made =>
          cases written with
          | error error => exact same
          | ok _ =>
            have own : ∀ other ∈ record.voter, other = id := fun other voted =>
              (Option.some.inj (tracks.own round other (current ▸ voted))).symm
            refine ⟨_, rfl, ⟨fun other mem => ?_, fun other voter voted => ?_⟩, fun other => ?_⟩
            · rcases mem_insert.mp mem with rfl | mem
              · exact tracks.next other (mem_of_lookup_eq_some found)
              · exact tracks.next other mem
            · rw [recorded_insert] at voted
              split at voted
              · exact voted
              · exact tracks.own other voter voted
            · rw [recorded_insert]
              split
              · rename_i here
                rw [here, current]
                exact extended id made own ran
              · exact .refl _

/-- `completed` keeps the votes of the other rounds: the next round is not tracked before. -/
theorem completed_keeps {round : Nat}
    (later : ∀ number ∈ completedRounds.lastNumber, number < round) (data : D) :
    Tracks localId (completedRounds.push ⟨round, data⟩)
        ((currentRounds.erase round).insert (round + 1) .no) ∧
      ∀ other ≠ round, Keeps (recorded currentRounds other)
        (recorded ((currentRounds.erase round).insert (round + 1) .no) other) := by
  have last : (completedRounds.push ⟨round, data⟩).lastNumber = some round :=
    CompletedRounds.lastNumber_push later
  have erased : ∀ other, recorded (currentRounds.erase round) other =
      if other = round then .no else recorded currentRounds other := by
    intro other
    unfold recorded
    rw [HashMap.lookup_erase_eq]
    split <;> rfl
  refine ⟨⟨fun other mem => ?_, fun other id voted => ?_⟩, fun other ne => ?_⟩
  · refine ⟨round, last, ?_⟩
    rcases mem_insert.mp mem with rfl | mem
    · exact le_rfl
    · obtain ⟨number, known, less⟩ := tracks.next other (mem_erase.mp mem).2
      have below := later number known
      omega
  · rw [recorded_insert, erased] at voted
    split at voted
    · cases voted
    · split at voted
      · cases voted
      · exact tracks.own other id voted
  · rw [recorded_insert, erased, if_neg ne]
    split
    · rename_i here
      have absent : other ∉ currentRounds := by
        intro mem
        obtain ⟨number, known, less⟩ := tracks.next other mem
        have below := later number known
        omega
      rw [recorded, lookup_eq_none.mpr absent]
      exact ⟨nofun, nofun, nofun, nofun⟩
    · exact .refl _

/-- **A step keeps the votes of all rounds but the one it completes.** -/
theorem step_keeps {op : VoterOp B D E}
    (increasing : (saved completedRounds currentRounds).Increasing op)
    (first : (saved completedRounds currentRounds).ProposesFirst op) :
    ∃ completed current,
      step localId (saved completedRounds currentRounds) op = .ok (saved completed current) ∧
      Tracks localId completed current ∧ ∀ round, ¬ Completes round op →
        Keeps (recorded currentRounds round) (recorded current round) := by
  cases op with
  | proposed round propose written =>
    obtain ⟨current, result, kept, keeps⟩ :=
      cast_keeps tracks written (proposed_extends first propose)
    exact ⟨completedRounds, current, congrArg _ result, kept, fun other _ => keeps other⟩
  | prevoted round prevote written =>
    obtain ⟨current, result, kept, keeps⟩ :=
      cast_keeps tracks written (prevoted_extends _ prevote)
    exact ⟨completedRounds, current, congrArg _ result, kept, fun other _ => keeps other⟩
  | precommitted round precommit written =>
    obtain ⟨current, result, kept, keeps⟩ :=
      cast_keeps tracks written (precommitted_extends _ precommit)
    exact ⟨completedRounds, current, congrArg _ result, kept, fun other _ => keeps other⟩
  | completed round data written =>
    cases written with
    | error error => exact ⟨completedRounds, currentRounds, rfl, tracks, fun _ _ => .refl _⟩
    | ok _ =>
      obtain ⟨kept, keeps⟩ := completed_keeps tracks increasing data
      exact ⟨_, _, rfl, kept, fun other open_ => keeps other fun same => open_ same.symm⟩
  | restart => exact ⟨completedRounds, currentRounds, rfl, tracks, fun _ _ => .refl _⟩

end

end

/-- A voter that starts with a new set of voters. -/
def start (setId : Nat) (voters : List I) (genesis : D) : Voter I B D :=
  ⟨.start setId voters genesis, .start setId voters genesis⟩

/-- **No vote is forgotten before its round is completed**, in a run in which no proposal comes
after a prevote without one. -/
theorem votes_remembered (localId : Option I) (setId : Nat) (voters : List I) (genesis : D)
    {earlier later : Voter I B D} (round : Nat) (reached : Reachable (step (E := E) localId)
      (fun voter op => voter.Increasing op ∧ voter.ProposesFirst op)
      (start setId voters genesis) earlier) (continued : Reachable (step (E := E) localId)
      (fun voter op => voter.Increasing op ∧ voter.ProposesFirst op ∧ ¬ Completes round op)
      earlier later) : Keeps (earlier.memory.hasVoted round) (later.memory.hasVoted round) := by
  let inv := fun voter : Voter I B D => ∃ completed current,
    voter = saved completed current ∧ Tracks localId completed current
  have fresh : inv (start setId voters genesis) := by
    refine ⟨_, _, rfl, fun other mem => ⟨0, rfl, ?_⟩, fun other id voted => ?_⟩
    · exact (mem_singleton other 1 _ |>.mp mem).le
    · unfold recorded at voted
      by_cases one : other = 1
      · subst one
        rw [lookup_singleton_eq] at voted
        cases voted
      · rw [lookup_eq_none.mpr fun mem => one (mem_singleton _ _ _ |>.mp mem)]
          at voted
        cases voted
  have tracked : inv earlier := by
    refine reached.invariant fresh ?_
    rintro voter op next ⟨completed, current, rfl, tracks⟩ ⟨increasing, first⟩ ran
    obtain ⟨completed', current', result, kept, -⟩ := step_keeps tracks increasing first
    cases result.symm.trans ran
    exact ⟨completed', current', rfl, kept⟩
  let remembers := fun voter : Voter I B D =>
    inv voter ∧ Keeps (earlier.memory.hasVoted round) (voter.memory.hasVoted round)
  have kept : remembers later := by
    refine continued.invariant ⟨tracked, .refl _⟩ ?_
    rintro voter op next ⟨⟨completed, current, rfl, tracks⟩, keeps⟩ ⟨increasing, first, open_⟩
      ran
    obtain ⟨completed', current', result, kept, more⟩ := step_keeps tracks increasing first
    cases result.symm.trans ran
    exact ⟨⟨completed', current', rfl, kept⟩, keeps.trans (more round open_)⟩
  exact kept.2

/-- A proposal, a prevote and, after a restart, a precommit. -/
theorem votes_remembered_restart : ∃ earlier later : Voter Nat Nat Unit,
    earlier.memory.hasVoted 1 = .yes 7 (.prevote (some 3) 4) ∧
      later.memory.hasVoted 1 = .yes 7 (.precommit (some 3) 4 5) ∧
      Keeps (earlier.memory.hasVoted 1) (later.memory.hasVoted 1) := by
  have found : ∃ earlier : Voter Nat Nat Unit, Reachable (step (E := Unit) (some 7))
      (fun voter op => voter.Increasing op ∧ voter.ProposesFirst op) (start 0 [7] ()) earlier ∧
      (earlier.memory.hasVoted 1 = .yes 7 (.prevote (some 3) 4) ∧
        (run (step (E := Unit) (some 7))
          (fun voter op => voter.Increasing op ∧ voter.ProposesFirst op ∧ ¬ Completes 1 op) earlier
          [.restart, .precommitted 1 5 (.ok ())]).any (fun later => decide
            (later.memory.hasVoted 1 = .yes 7 (.precommit (some 3) 4 5))) = true) :=
    exists_reachable_of_run [.proposed 1 3 (.ok ()), .prevoted 1 4 (.ok ())] (by decide +kernel)
  obtain ⟨earlier, reached, before, executed⟩ := found
  obtain ⟨later, continued, after⟩ := exists_reachable_of_run _ executed
  exact ⟨earlier, later, before, after, votes_remembered (some 7) 0 [7] () 1 reached continued⟩

/-- A proposal after a prevote makes the voter prevote again, for another block. -/
theorem prevote_forgotten : ∃ earlier later : Voter Nat Nat Unit,
    Reachable (step (E := Unit) (some 7)) Increasing (start 0 [7] ()) earlier ∧
      Reachable (step (E := Unit) (some 7))
        (fun voter op => voter.Increasing op ∧ ¬ Completes 1 op) earlier later ∧
      earlier.memory.hasVoted 1 = .yes 7 (.prevote none 4) ∧
      later.memory.hasVoted 1 = .yes 7 (.prevote (some 3) 5) := by
  have found : ∃ earlier : Voter Nat Nat Unit,
      Reachable (step (E := Unit) (some 7)) Increasing (start 0 [7] ()) earlier ∧
      (earlier.memory.hasVoted 1 = .yes 7 (.prevote none 4) ∧
        (run (step (E := Unit) (some 7)) (fun voter op => voter.Increasing op ∧ ¬ Completes 1 op)
          earlier [.proposed 1 3 (.ok ()), .prevoted 1 5 (.ok ())]).any (fun later => decide
            (later.memory.hasVoted 1 = .yes 7 (.prevote (some 3) 5))) = true) :=
    exists_reachable_of_run [.prevoted 1 4 (.ok ())] (by decide +kernel)
  obtain ⟨earlier, reached, before, executed⟩ := found
  obtain ⟨later, continued, after⟩ := exists_reachable_of_run _ executed
  exact ⟨earlier, later, reached, continued, before, after⟩

end Voter

end Brace.Grandpa
