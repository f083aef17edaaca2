import Brace.Grandpa.LightClient

/-!
# What a full node proves to a light client

`prove_finality` walks over the finalized blocks after `begin` and collects a fragment for each
justified block that changes the authorities, and one for the last justified block that it meets.
The walk ends at the last finalized block, but the fragments are counted only there, where at most
one is added. So a proof is within `MAX_FRAGMENTS_IN_PROOF` exactly when the chain asks no more of
it (`proveFinality_bounded_iff`).
-/

namespace Brace.Grandpa

open Brace.Lib

/-- `MAX_FRAGMENTS_IN_PROOF` -/
def maxFragmentsInProof : Nat := 8

/-- `BlockId` -/
inductive BlockId (H : Type) where
  | hash (hash : H)
  | number (number : Nat)

/-- What `prove_finality` reads: the blockchain and the `AuthoritySetForFinalityProver`. -/
structure Blockchain (H I P B : Type) where
  finalizedNumber : Nat
  expectBlockNumber : H → Except ClientError Nat
  expectBlockHash : Nat → Except ClientError H
  expectHeader : Nat → Except ClientError (Header H)
  justification : Nat → Except ClientError (Option B)
  authorities : BlockId H → Except ClientError (List (I × Nat))
  proveAuthorities : BlockId H → Except ClientError P

structure Proving (H I P B : Type) where
  currentAuthorities : List (I × Nat)
  currentNumber : Nat
  finalityProof : List (FinalityProofFragment H P B)
  unknownHeaders : List (Header H)
  latestProofFragment : Option (FinalityProofFragment H P B)

/-- What a round leads to: the next round, or what the call returns. -/
abbrev Round (H I P B : Type) := Proving H I P B ⊕ Option (List (FinalityProofFragment H P B))

variable {H S I P B : Type} [DecidableEq I] (primitives : Primitives H S I P B)
  (blockchain : Blockchain H I P B) (setId : Nat) (beginAuthorities : List (I × Nat))
  (endNumber : Nat)

namespace Proving

/-- The end of a round. `fragment_index` is left out: it counts the fragment that is added here, and
the loop is left whether or not it reaches the maximum. -/
def advance (self : Proving H I P B) : Round H I P B :=
  if self.currentNumber = blockchain.finalizedNumber then
    .inr (some (self.finalityProof ++ self.latestProofFragment.toList))
  else .inl { self with currentNumber := self.currentNumber + 1 }

/-- A round of the loop of `prove_finality`. -/
def round [DecidableEq H] (self : Proving H I P B) : Except ClientError (Round H I P B) := do
  let current := self.currentNumber
  let unknownHeaders ←
    (if endNumber < current then
      do return self.unknownHeaders ++ [← blockchain.expectHeader current]
    else .ok self.unknownHeaders)
  match ← blockchain.justification current with
  | none => return { self with unknownHeaders }.advance blockchain
  | some justification =>
    let newAuthorities ← blockchain.authorities (.number current)
    let authoritiesProof ←
      (if self.currentAuthorities ≠ newAuthorities then
        do return some (← blockchain.proveAuthorities (.number current))
      else .ok none)
    let block ← blockchain.expectBlockHash current
    let fragment := ⟨block, justification, unknownHeaders, authoritiesProof⟩
    if endNumber ≤ current || authoritiesProof.isSome then
      if self.finalityProof.isEmpty &&
          !(decodeAndVerify primitives justification setId beginAuthorities).isOk then
        return .inr none
      let finalityProof := self.finalityProof ++ [fragment]
      if endNumber ≤ current then return .inr (some finalityProof)
      return advance blockchain ⟨newAuthorities, current, finalityProof, [], none⟩
    else
      return advance blockchain ⟨newAuthorities, current, self.finalityProof, [], some fragment⟩

/-- The loop, for a number of rounds, and the test for an empty proof after it. -/
def loop [DecidableEq H] : Nat → Proving H I P B →
    Option (Except ClientError (Option (List (FinalityProofFragment H P B))))
  | 0, _ => none
  | rounds + 1, state =>
    match state.round primitives blockchain setId beginAuthorities endNumber with
    | .error error => some (.error error)
    | .ok (.inr result) => some (.ok (result.filter (!·.isEmpty)))
    | .ok (.inl next) => loop rounds next

end Proving

/-- The checks of `prove_finality` on its range: the number of the end and the authorities at the
begin. -/
def checkRange [DecidableEq H] [ToString H] (begin stop : H) (beginNumber : Nat) :
    Except ClientError (Nat × List (I × Nat)) := do
  let endNumber ← blockchain.expectBlockNumber stop
  if beginNumber + 1 > endNumber then
    throw (.other <| "Cannot generate finality proof for invalid range: " ++
      s!"{beginNumber}..{endNumber}")
  let canonicalBegin ← blockchain.expectBlockHash beginNumber
  if begin ≠ canonicalBegin then
    throw (.other s!"Cannot generate finality proof for non-canonical block: {begin}")
  return (endNumber, ← blockchain.authorities (.hash begin))

/-- `prove_finality`, for a number of visited blocks and without the encoding of the proof. -/
def proveFinality [DecidableEq H] [ToString H] (visits : Nat) (begin stop : H) :
    Option (Except ClientError (Option (List (FinalityProofFragment H P B)))) :=
  match blockchain.expectBlockNumber begin with
  | .error error => some (.error error)
  | .ok beginNumber =>
    if blockchain.finalizedNumber ≤ beginNumber then some (.ok none)
    else
      match checkRange blockchain begin stop beginNumber with
      | .error error => some (.error error)
      | .ok (endNumber, authorities) =>
        Proving.loop primitives blockchain setId authorities endNumber visits
          ⟨authorities, beginNumber + 1, [], [], none⟩

/-! ## Fragments asked for -/

/-- The authorities at the justified ones of `count` blocks, to the first at or after the end. -/
def Blockchain.reports (number : Nat) : Nat → List (List (I × Nat))
  | 0 => []
  | count + 1 =>
    match blockchain.justification number, blockchain.authorities (.number number) with
    | .ok (some _), .ok authorities =>
      if endNumber ≤ number then [authorities]
      else authorities :: Blockchain.reports (number + 1) count
    | _, _ => Blockchain.reports (number + 1) count

/-- The changes of authorities among the reported blocks, and the last block. -/
def fragments : List (I × Nat) → List (List (I × Nat)) → Nat
  | _, [] => 0
  | _, [_] => 1
  | current, next :: rest => (if current = next then 0 else 1) + fragments next rest

/-- The finalized blocks after a block. -/
def Blockchain.finalizedAfter (begin : H) : Nat :=
  (blockchain.expectBlockNumber begin).toOption.elim 0 (blockchain.finalizedNumber - ·)

/-- The fragments that the chain asks of a proof for a range. -/
def Blockchain.fragments [DecidableEq H] [ToString H] (begin stop : H) : Nat :=
  match blockchain.expectBlockNumber begin with
  | .error _ => 0
  | .ok beginNumber =>
    match checkRange blockchain begin stop beginNumber with
    | .error _ => 0
    | .ok (endNumber, authorities) => Grandpa.fragments authorities
        (blockchain.reports endNumber (beginNumber + 1) (blockchain.finalizedAfter begin))

theorem fragments_change {current next : List (I × Nat)} (changed : current ≠ next)
    (rest : List (List (I × Nat))) :
    fragments current (next :: rest) = 1 + fragments next rest := by
  cases rest <;> simp [fragments, changed]

theorem fragments_latest {F : Type} (latest : Option F) (current next : List (I × Nat))
    (rest : List (List (I × Nat))) :
    fragments current (latest.toList.map (fun _ => current) ++ next :: rest) =
      fragments current (next :: rest) := by
  cases latest <;> simp [fragments]

namespace Proving

/-- The fragments of the proof that is being built, and those of `count` blocks from `number`. -/
def due (self : Proving H I P B) (number count : Nat) : Nat :=
  self.finalityProof.length + fragments self.currentAuthorities
    (self.latestProofFragment.toList.map (fun _ => self.currentAuthorities) ++
      blockchain.reports endNumber number count)

/-- A round at block `number`, with `left` blocks after it, leads to `total` fragments. -/
def Accounts (number left total : Nat) : Round H I P B → Prop
  | .inr result => ∀ proof ∈ result, proof.length = total
  | .inl next => next.currentNumber = number + 1 ∧ 0 < left ∧
      next.due blockchain endNumber (number + 1) left = total

variable {blockchain endNumber} {self : Proving H I P B} {left : Nat}

theorem advance_accounts {total : Nat}
    (ends : self.currentNumber + left = blockchain.finalizedNumber)
    (kept : self.due blockchain endNumber (self.currentNumber + 1) left = total) :
    Accounts blockchain endNumber self.currentNumber left total (self.advance blockchain) := by
  unfold advance
  split
  · have last : left = 0 := by omega
    rw [Accounts, ← kept, due, last]
    cases self.latestProofFragment <;> simp [Blockchain.reports, fragments]
  · exact ⟨rfl, by omega, kept⟩

variable [DecidableEq H]

section

variable (ends : self.currentNumber + left = blockchain.finalizedNumber)

include ends

/-- **Each round keeps the number of fragments that are due.** -/
theorem round_accounts {result : Round H I P B}
    (returns : self.round primitives blockchain setId beginAuthorities endNumber = .ok result) :
    Accounts blockchain endNumber self.currentNumber left
      (self.due blockchain endNumber self.currentNumber (left + 1)) result := by
  unfold round at returns
  simp only [bind_eq_ok] at returns
  obtain ⟨unknownHeaders, -, justification, justified, returns⟩ := returns
  rw [due, Blockchain.reports, justified]
  cases justification with
  | none =>
    cases returns
    exact advance_accounts ends rfl
  | some justification =>
    simp only [bind_eq_ok] at returns
    obtain ⟨newAuthorities, reported, authoritiesProof, changed, block, -, returns⟩ := returns
    simp only [reported]
    by_cases reached : endNumber ≤ self.currentNumber
    · simp only [reached, decide_true, Bool.true_or, if_true, fragments_latest] at returns ⊢
      split at returns
      all_goals
        cases returns
        simp [Accounts, fragments]
    · simp only [reached, decide_false, Bool.false_or, if_false, fragments_latest] at returns ⊢
      by_cases same : self.currentAuthorities = newAuthorities
      · rw [if_neg (not_not.mpr same)] at changed
        cases changed
        cases returns
        rw [same]
        exact advance_accounts ends rfl
      · rw [if_pos same] at changed
        obtain ⟨proof, -, proved⟩ := bind_eq_ok.mp changed
        cases proved
        simp only [Option.isSome, if_true] at returns
        split at returns
        all_goals cases returns
        · simp [Accounts]
        · refine advance_accounts ends ?_
          rw [fragments_change same, ← Nat.add_assoc]
          simp [due]

/-- **The loop returns after at most the blocks that are left**, with the fragments that are due. -/
theorem loop_returns :
    ∃ outcome, self.loop primitives blockchain setId beginAuthorities endNumber (left + 1) =
      some outcome ∧ ∀ proof, outcome = .ok (some proof) →
        proof.length = self.due blockchain endNumber self.currentNumber (left + 1) := by
  induction left using Nat.strong_induction_on generalizing self with
  | _ left ih =>
    rw [loop]
    cases ran : self.round primitives blockchain setId beginAuthorities endNumber with
    | error error => exact ⟨_, rfl, fun proof returned => nomatch returned⟩
    | ok result =>
      have accounts := round_accounts primitives setId beginAuthorities ends ran
      cases result with
      | inr result =>
        refine ⟨_, rfl, fun proof returned => accounts proof ?_⟩
        exact (Option.mem_filter_iff.mp (Except.ok.inj returned)).1
      | inl next =>
        obtain ⟨number, more, due⟩ := accounts
        obtain ⟨fewer, rfl⟩ : ∃ fewer, left = fewer + 1 := ⟨left - 1, by omega⟩
        rw [← due, ← number]
        exact ih fewer (by omega) (by omega)

end

end Proving

/-- **`prove_finality` returns after at most the finalized blocks after `begin`, and a proof that it
returns has at most `MAX_FRAGMENTS_IN_PROOF` fragments exactly when no more are asked of it.** -/
theorem proveFinality_bounded_iff [DecidableEq H] [ToString H] (begin stop : H) :
    ∃ outcome, proveFinality primitives blockchain setId (blockchain.finalizedAfter begin) begin
        stop = some outcome ∧ ∀ proof, outcome = .ok (some proof) →
      (proof.length ≤ maxFragmentsInProof ↔
        blockchain.fragments begin stop ≤ maxFragmentsInProof) := by
  rw [proveFinality, Blockchain.fragments]
  split
  · exact ⟨_, rfl, fun proof returned => nomatch returned⟩
  · rename_i beginNumber known
    split
    · exact ⟨_, rfl, fun proof returned => nomatch returned⟩
    · split
      · exact ⟨_, rfl, fun proof returned => nomatch returned⟩
      · rename_i after _ endNumber authorities checked
        obtain ⟨left, total⟩ := Nat.exists_eq_add_of_lt (not_le.mp after)
        have visits : blockchain.finalizedAfter begin = left + 1 := by
          simp [Blockchain.finalizedAfter, known, Except.toOption]
          omega
        rw [visits]
        let start : Proving H I P B := ⟨authorities, beginNumber + 1, [], [], none⟩
        have ends : start.currentNumber + left = blockchain.finalizedNumber := by
          show beginNumber + 1 + left = _
          omega
        obtain ⟨outcome, returns, counted⟩ :=
          Proving.loop_returns primitives setId authorities ends
        refine ⟨outcome, returns, fun proof returned => ?_⟩
        rw [counted proof returned]
        simp [Proving.due, start]

/-- Nine finalized blocks, each justified and with a new weight of the authority. -/
def reweighted : Blockchain Nat Nat Unit Nat where
  finalizedNumber := 9
  expectBlockNumber := .ok
  expectBlockHash := .ok
  expectHeader number := .ok ⟨number, number - 1⟩
  justification _ := .ok (some 1)
  authorities
    | .hash number | .number number => .ok [(0, number + 1)]
  proveAuthorities _ := .ok ()

/-- A proof over nine changes of the authorities has nine fragments. -/
theorem proveFinality_nine_fragments :
    ∃ proof, proveFinality blockOneSigned reweighted 0 9 0 9 = some (.ok (some proof)) ∧
      proof.length = 9 ∧ maxFragmentsInProof < proof.length :=
  ⟨_, rfl, rfl, by decide⟩

end Brace.Grandpa
