import Brace.Grandpa.AuthoritySet

/-!
# Finalizing a block

`finalize_block` of `finality-grandpa` applies the changes that a finalized block enacts to the
shared authority set and to the shared consensus changes, and puts both back when anything fails.
The snapshot of the consensus changes is taken after they were changed, so what is put back is what
was lost already: a failure leaves both as they were exactly when there was nothing to change
(`finalizeBlock_restores_iff`). The client is a parameter, and so is every failure of it.
-/

namespace Brace.Grandpa

open Brace.ForkTree

variable {H A J C E : Type}

/-- `ConsensusChanges` -/
structure ConsensusChanges (H : Type) where
  pendingChanges : List (Nat × H)
  deriving DecidableEq

/-- `ConsensusChanges::finalize`: the changes after it, whether it altered them and whether one of
them is finalized. -/
def ConsensusChanges.finalize [DecidableEq H] (self : ConsensusChanges H) (number : Nat)
    (canonicalAtHeight : Nat → Except E (Option H)) : ConsensusChanges H × Except E (Bool × Bool) :=
  let altered := self.pendingChanges.takeWhile fun change => decide (change.1 ≤ number)
  let hasFinalizedChanges : Except E Bool := altered.foldlM (fun found change =>
    if found then .ok true
    else (canonicalAtHeight change.1).map fun hash => decide (some change.2 = hash)) false
  (⟨self.pendingChanges.drop altered.length⟩,
    hasFinalizedChanges.map fun finalized => (!altered.isEmpty, finalized))

/-- `JustificationOrCommit`, with the encoded justification. -/
inductive JustificationOrCommit (J C : Type) where
  | justification (justification : J)
  | commit (round : Nat) (commit : C)

/-- `NewAuthoritySet` -/
structure NewAuthoritySet (H A : Type) where
  canonHash : H
  canonNumber : Nat
  setId : Nat
  authorities : A

/-- What `finalize_block` asks of the client. -/
structure Client (H A J C E : Type) where
  finalizedNumber : Nat
  hash : Nat → Except E (Option H)
  isDescendentOf : H → H → Except E Bool
  canonicalAtHeight : Nat → Except E (Option H)
  beginOperation : Except E Unit
  updateConsensusChanges : ConsensusChanges H → Except E Unit
  /-- `GrandpaJustification::from_commit` -/
  fromCommit : Nat → C → Except E J
  applyFinality : H → Option J → Except E Unit
  updateAuthoritySet : AuthoritySet H Nat A → Option (NewAuthoritySet H A) → Except E Unit
  commitOperation : Except E Unit

/-- `Error`, as far as `finalize_block` returns it. -/
inductive FinalizeError (E : Type) where
  | safety (error : Error E)
  | client (error : E)

/-- `CommandOrError` -/
inductive CommandOrError (H A E : Type) where
  | changeAuthorities (newSet : NewAuthoritySet H A)
  | error (error : FinalizeError E)

/-- A justification is stored for a block that enacts a change, for one that finalizes consensus
changes, and when a period is over. -/
def justificationRequired (lastFinalizedNumber number : Nat) (justificationPeriod : Option Nat)
    (newSet finalizesConsensusChanges : Bool) : Bool :=
  newSet || finalizesConsensusChanges || justificationPeriod.any fun period =>
    (lastFinalizedNumber ≠ 0 || number - lastFinalizedNumber = period) &&
      lastFinalizedNumber / period ≠ number / period

/-- The import operation of `finalize_block` after both structures were changed. -/
def persistFinality (client : Client H A J C E) (authoritySet : AuthoritySet H Nat A)
    (consensusChanges : ConsensusChanges H) (justificationPeriod : Option Nat) (hash : H)
    (number : Nat) (evidence : JustificationOrCommit J C) (status : Status H Nat)
    (alters finalizes : Bool) : Except E (Option (NewAuthoritySet H A)) := do
  if alters then client.updateConsensusChanges consensusChanges
  let justification ← match evidence with
    | .justification justification => pure (some justification)
    | .commit round commit =>
      if justificationRequired client.finalizedNumber number justificationPeriod
          status.newSetBlock.isSome finalizes then some <$> client.fromCommit round commit
      else pure none
  client.applyFinality hash justification
  let newAuthorities := status.newSetBlock.map fun block =>
    { canonHash := block.1, canonNumber := block.2, setId := authoritySet.setId,
      authorities := authoritySet.currentAuthorities : NewAuthoritySet H A }
  if status.changed then client.updateAuthoritySet authoritySet newAuthorities
  client.commitOperation
  pure newAuthorities

/-- `finalize_block`, with the shared authority set and the shared consensus changes after it. -/
def finalizeBlock [DecidableEq H] (client : Client H A J C E) (authoritySet : AuthoritySet H Nat A)
    (consensusChanges : ConsensusChanges H) (justificationPeriod : Option Nat) (hash : H)
    (number : Nat) (evidence : JustificationOrCommit J C) :
    (AuthoritySet H Nat A × ConsensusChanges H) × Except (CommandOrError H A E) Unit :=
  let refinalized := if number ≤ client.finalizedNumber
    then (client.hash number).map fun found => decide (found = some hash) else .ok false
  match refinalized, client.beginOperation with
  | .error error, _ => ((authoritySet, consensusChanges), .error (.error (.client error)))
  | .ok true, _ => ((authoritySet, consensusChanges), .ok ())
  | .ok false, .error error => ((authoritySet, consensusChanges), .error (.error (.client error)))
  | .ok false, .ok () =>
    match authoritySet.applyStandardChanges client.isDescendentOf hash number with
    | (_, .error error) => ((authoritySet, consensusChanges), .error (.error (.safety error)))
    | (newSet, .ok status) =>
      match consensusChanges.finalize number client.canonicalAtHeight with
      | (newChanges, .error error) =>
        ((authoritySet, newChanges), .error (.error (.client error)))
      | (newChanges, .ok (alters, finalizes)) =>
        -- the snapshot that is put back on a failure
        let oldConsensusChanges := if alters then some newChanges else none
        match persistFinality client newSet newChanges justificationPeriod hash number evidence
            status alters finalizes with
        | .error error =>
          ((authoritySet, oldConsensusChanges.getD newChanges), .error (.error (.client error)))
        | .ok none => ((newSet, newChanges), .ok ())
        | .ok (some command) => ((newSet, newChanges), .error (.changeAuthorities command))

/-! ## Failures -/

theorem ConsensusChanges.finalize_eq_iff [DecidableEq H] (self : ConsensusChanges H) (number : Nat)
    (canonicalAtHeight : Nat → Except E (Option H)) :
    (self.finalize number canonicalAtHeight).1 = self ↔
      ∀ change ∈ self.pendingChanges.head?, number < change.1 := by
  obtain ⟨pendingChanges⟩ := self
  cases pendingChanges with
  | nil => simp [finalize]
  | cons first rest =>
    by_cases later : number < first.1
    · simp [finalize, later]
    · have shorter : ∀ count, rest.drop count ≠ first :: rest := by
        intro count same
        have lengths := congrArg List.length same
        rw [List.length_drop, List.length_cons] at lengths
        omega
      simp [finalize, later, shorter, Nat.not_lt.mp later]

theorem selectRoot_of_no_branch [DecidableEq H] {V : Type} (hash : H) (number : Nat)
    (predicate : V → Bool) (roots : List (Node H Nat V)) :
    ∃ position, Tree.selectRoot (fun _ _ => .ok false : H → H → Except E Bool) hash number predicate
      roots = .ok position := by
  have apart : ∀ (test : Node H Nat V → Bool) nodes,
      anyAncestor (fun _ _ => .ok false : H → H → Except E Bool) hash test nodes = .ok false := by
    intro test nodes
    induction nodes with
    | nil => rfl
    | cons node rest ih => simp [anyAncestor, ih]
  induction roots with
  | nil => exact ⟨none, rfl⟩
  | cons root rest ih =>
    unfold Tree.selectRoot
    by_cases same : root.hash = hash
    · cases predicate root.data <;> simp [same, apart, ih]
    · cases predicate root.data <;> simp [same, ih]

variable {number : Nat}

theorem applyStandardChanges_of_no_branch [DecidableEq H] (authoritySet : AuthoritySet H Nat A)
    (hash : H) (fresh : ¬ authoritySet.pendingStandardChanges.Reverts number) :
    ∃ newSet status, authoritySet.applyStandardChanges
      (fun _ _ => .ok false : H → H → Except E Bool) hash number = (newSet, .ok status) := by
  unfold AuthoritySet.applyStandardChanges AuthoritySet.finalizeChanges
    Tree.finalizeWithDescendentIf
  rw [if_neg fresh]
  obtain ⟨position, selected⟩ := selectRoot_of_no_branch (E := E) hash number
    (fun change : PendingChange H Nat A => decide (change.effectiveNumber ≤ number))
    authoritySet.pendingStandardChanges.roots
  rw [selected]
  cases position with
  | some node => exact ⟨_, _, rfl⟩
  | none =>
    simp only [Tree.retainResult]
    split <;> rename_i result <;> split at result <;> cases result <;> exact ⟨_, _, rfl⟩

/-- The outcome is an error, and not a command to the voter. -/
def Failed (result : Except (CommandOrError H A E) Unit) : Prop :=
  ∃ error, result = .error (.error error)

/-- After a failure the authority set is the old one, and the consensus changes are the old ones
unless they were changed before. -/
theorem finalizeBlock_failed [DecidableEq H] {client : Client H A J C E}
    {authoritySet : AuthoritySet H Nat A} {consensusChanges : ConsensusChanges H}
    {justificationPeriod : Option Nat} {hash : H} {evidence : JustificationOrCommit J C}
    (failed : Failed (finalizeBlock client authoritySet consensusChanges justificationPeriod hash
      number evidence).2) :
    let outcome := finalizeBlock client authoritySet consensusChanges justificationPeriod hash
      number evidence
    outcome.1 = (authoritySet, consensusChanges) ∨
      outcome.1 = (authoritySet, (consensusChanges.finalize number client.canonicalAtHeight).1) ∧
        ¬ authoritySet.pendingStandardChanges.Reverts number := by
  obtain ⟨fault, failed⟩ := failed
  unfold finalizeBlock at failed ⊢
  simp only at failed ⊢
  split
  · exact .inl rfl
  · exact .inl rfl
  · exact .inl rfl
  · split
    · exact .inl rfl
    · rename_i applied
      have fresh : ¬ authoritySet.pendingStandardChanges.Reverts number := by
        intro reverts
        rw [AuthoritySet.applyStandardChanges, AuthoritySet.finalizeChanges,
          Tree.finalizeWithDescendentIf, if_pos reverts] at applied
        cases applied
      split
      · rename_i finalized
        rw [finalized]
        exact .inr ⟨rfl, fresh⟩
      · rename_i alters _ finalized
        rw [finalized]
        split
        · cases alters <;> exact .inr ⟨rfl, fresh⟩
        all_goals
          rename_i persisted
          simp_all

/-- **A failure leaves the authority set and the consensus changes as they were, whatever the client
does, exactly when no consensus change is due**, or the block is not above the last finalized one
of the pending standard changes. -/
theorem finalizeBlock_restores_iff [DecidableEq H] [Inhabited E]
    (authoritySet : AuthoritySet H Nat A) (consensusChanges : ConsensusChanges H)
    (justificationPeriod : Option Nat) (hash : H) (number : Nat)
    (evidence : JustificationOrCommit J C) :
    (∀ client : Client H A J C E,
      let outcome := finalizeBlock client authoritySet consensusChanges justificationPeriod hash
        number evidence
      Failed outcome.2 → outcome.1 = (authoritySet, consensusChanges)) ↔
    (∀ change ∈ consensusChanges.pendingChanges.head?, number < change.1) ∨
      authoritySet.pendingStandardChanges.Reverts number := by
  constructor
  · intro restored
    by_contra due
    rw [not_or, ← ConsensusChanges.finalize_eq_iff consensusChanges number
      (fun _ => .ok none : Nat → Except E (Option H))] at due
    obtain ⟨altered, fresh⟩ := due
    -- a client that answers every query and fails to write
    let client : Client H A J C E :=
      { finalizedNumber := number, hash := fun _ => .ok none,
        isDescendentOf := fun _ _ => .ok false,
        canonicalAtHeight := fun _ => .ok none, beginOperation := .ok (),
        updateConsensusChanges := fun _ => .error default, fromCommit := fun _ _ => .error default,
        applyFinality := fun _ _ => .error default, updateAuthoritySet := fun _ _ => .error default,
        commitOperation := .error default }
    have outcome := restored client
    obtain ⟨newSet, status, applied⟩ := applyStandardChanges_of_no_branch (E := E) authoritySet hash
      fresh
    have persisted : ∀ changes alters finalizes, persistFinality client newSet changes
        justificationPeriod hash number evidence status alters finalizes = .error default := by
      intro changes alters finalizes
      cases alters with
      | true => rfl
      | false =>
        cases evidence with
        | justification justification => rfl
        | commit round commit =>
          unfold persistFinality
          cases required : justificationRequired client.finalizedNumber number justificationPeriod
            status.newSetBlock.isSome finalizes with
          | true => rfl
          | false => rfl
    cases finalized : consensusChanges.finalize number
      (fun _ => .ok none : Nat → Except E (Option H)) with
    | mk newChanges result =>
      rw [finalized] at altered
      cases result with
      | error error =>
        simp [finalizeBlock, client, applied, finalized, Failed, Except.map] at outcome
        exact altered outcome
      | ok flags =>
        obtain ⟨alters, finalizes⟩ := flags
        simp [finalizeBlock, client, applied, finalized, Failed, persisted, Except.map] at outcome
        cases alters <;> exact altered outcome
  · intro nothing client outcome failed
    rcases finalizeBlock_failed failed with same | ⟨changed, fresh⟩
    · exact same
    · have later := nothing.resolve_right fresh
      rw [← ConsensusChanges.finalize_eq_iff consensusChanges number client.canonicalAtHeight]
        at later
      rw [later] at changed
      exact changed

/-- The client fails to apply the finality of a block, and a pending consensus change is lost. -/
theorem finalizeBlock_loses_change : let client : Client Nat Unit Unit Unit Unit :=
      { finalizedNumber := 0, hash := fun _ => .ok none, isDescendentOf := fun _ _ => .ok false,
        canonicalAtHeight := fun _ => .ok none, beginOperation := .ok (),
        updateConsensusChanges := fun _ => .ok (), fromCommit := fun _ _ => .ok (),
        applyFinality := fun _ _ => .error (), updateAuthoritySet := fun _ _ => .ok (),
        commitOperation := .ok () }
    let outcome := finalizeBlock client (.genesis ()) ⟨[(5, 50)]⟩ none 50 5 (.justification ())
    Failed outcome.2 ∧ outcome.1.2 = ⟨[]⟩ :=
  ⟨⟨.client (), rfl⟩, rfl⟩

end Brace.Grandpa
