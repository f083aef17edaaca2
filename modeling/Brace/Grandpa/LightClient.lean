import Brace.Grandpa.FinalizeBlock
import Brace.Lib.Run

/-!
# What a light client finalizes

A light client finalizes a block on a proof of finality (`do_import_finality_proof`) or on a
justification (`do_import_justification`). Both verify the commit of each justification with the
authorities in force, but neither compares its target with the block that it is given for. So the
block is finalized on a commit for it exactly when the sender says so: when the justification of
each fragment has the block of the fragment as its target (`finalized_certified_iff`).

Decoding, signatures, the validation of commits and storage proofs are parameters.
-/

namespace Brace.Grandpa

open Brace.Lib List Option

/-- The fields of a header that are read here. -/
structure Header (H : Type) where
  hash : H
  parentHash : H

/-- `SignedPrecommit` -/
structure SignedPrecommit (H S I : Type) where
  targetHash : H
  targetNumber : Nat
  signature : S
  id : I

/-- `Commit` -/
structure Commit (H S I : Type) where
  targetHash : H
  targetNumber : Nat
  precommits : List (SignedPrecommit H S I)

/-- `GrandpaJustification` -/
structure GrandpaJustification (H S I : Type) where
  round : Nat
  commit : Commit H S I
  votesAncestries : List (Header H)

/-- `FinalityProofFragment` -/
structure FinalityProofFragment (H P B : Type) where
  block : H
  justification : B
  unknownHeaders : List (Header H)
  authoritiesProof : Option P

/-- `FinalityEffects` -/
structure FinalityEffects (H I B : Type) where
  headersToImport : List (Header H)
  block : H
  justification : B
  newSetId : Nat
  newAuthorities : List (I × Nat)

/-- The errors of the client that are told apart. -/
inductive ClientError where
  | badJustification (message : String)
  | justificationDecode
  | other (message : String)

/-- What the checks of a proof rest on. -/
structure Primitives (H S I P B : Type) where
  decodeProof : B → Option (List (FinalityProofFragment H P B))
  decodeJustification : B → Option (GrandpaJustification H S I)
  /-- `validate_commit` returns a result with a ghost. -/
  validateCommit : Commit H S I → List (I × Nat) → (H → H → Option (List H)) → Bool
  /-- `check_message_sig_with_buffer`, in a round of a set. -/
  checkSignature : SignedPrecommit H S I → Nat → Nat → Bool
  checkAuthoritiesProof : H → Header H → P → Option (List (I × Nat))
  expectHeader : H → Option (Header H)

variable {H S I P B : Type} [DecidableEq H] (primitives : Primitives H S I P B)

/-! ## Verification -/

variable (headers : List (Header H))

/-- The loop of `ancestry`: the blocks between a block and its ancestor. The rounds run out only in
a cycle of headers, where the source does not return. -/
def route (base : H) : Nat → H → Option (List H)
  | 0, _ => none
  | rounds + 1, current =>
    if current = base then some []
    else
      match headers.reverse.find? (·.hash = current) with
      | none => none
      | some header => (route base rounds header.parentHash).map fun rest =>
          if header.parentHash = base then rest else header.parentHash :: rest

/-- `AncestryChain::ancestry` -/
def ancestry (base block : H) : Option (List H) :=
  route headers base (headers.length + 1) block

namespace GrandpaJustification

/-- One round of the loop of `verify` over the precommits. -/
def visit (self : GrandpaJustification H S I) (setId : Nat) (visited : Finset H)
    (signed : SignedPrecommit H S I) : Except ClientError (Finset H) :=
  if !primitives.checkSignature signed self.round setId then
    .error (.badJustification "invalid signature for precommit in grandpa justification")
  else if self.commit.targetHash = signed.targetHash then .ok visited
  else
    match ancestry self.votesAncestries self.commit.targetHash signed.targetHash with
    | some hashes => .ok (visited ∪ (signed.targetHash :: hashes).toFinset)
    | none =>
      .error (.badJustification "invalid precommit ancestry proof in grandpa justification")

/-- `verify` -/
def verify (self : GrandpaJustification H S I) (setId : Nat) (authorities : List (I × Nat)) :
    Except ClientError Unit :=
  if !primitives.validateCommit self.commit authorities (ancestry self.votesAncestries) then
    .error (.badJustification "invalid commit in grandpa justification")
  else
    match self.commit.precommits.foldlM (self.visit primitives setId) ∅ with
    | .error error => .error error
    | .ok visited =>
      if visited = (self.votesAncestries.map (·.hash)).toFinset then .ok ()
      else .error (.badJustification
        "invalid precommit ancestries in grandpa justification with unused headers")

end GrandpaJustification

/-- `decode_and_verify` -/
def decodeAndVerify (justification : B) (setId : Nat) (authorities : List (I × Nat)) :
    Except ClientError (GrandpaJustification H S I) :=
  match primitives.decodeJustification justification with
  | none => .error .justificationDecode
  | some decoded => (decoded.verify primitives setId authorities).map fun _ => decoded

/-- `check_finality_proof_fragment` -/
def checkFinalityProofFragment (setId : Nat) (authorities : List (I × Nat))
    (fragment : FinalityProofFragment H P B) : Except ClientError (FinalityEffects H I B) :=
  match decodeAndVerify primitives fragment.justification setId authorities,
      fragment.authoritiesProof with
  | .error error, _ => .error error
  | .ok _, none =>
    .ok ⟨fragment.unknownHeaders, fragment.block, fragment.justification, setId, authorities⟩
  | .ok _, some proof =>
    match (fragment.unknownHeaders.getLast?.or (primitives.expectHeader fragment.block)).bind
        fun header => primitives.checkAuthoritiesProof fragment.block header proof with
    | none => .error (.other "header or authorities proof")
    | some newAuthorities => .ok ⟨fragment.unknownHeaders, fragment.block, fragment.justification,
        setId + 1, newAuthorities⟩

/-- The loop of `do_check_finality_proof`. -/
def checkFragments (setId : Nat) (authorities : List (I × Nat)) :
    List (FinalityProofFragment H P B) → Except ClientError (FinalityEffects H I B)
  | [] => .error (.badJustification "empty proof of finality")
  | [last] => checkFinalityProofFragment primitives setId authorities last
  | fragment :: rest =>
    if !fragment.unknownHeaders.isEmpty || fragment.authoritiesProof.isNone then
      .error (.badJustification "redundant proof of finality")
    else
      match checkFinalityProofFragment primitives setId authorities fragment with
      | .error error => .error error
      | .ok effects => checkFragments effects.newSetId effects.newAuthorities rest

/-- `do_check_finality_proof` -/
def doCheckFinalityProof (setId : Nat) (authorities : List (I × Nat)) (remoteProof : B) :
    Except ClientError (FinalityEffects H I B) :=
  match primitives.decodeProof remoteProof with
  | none => .error (.badJustification "failed to decode finality proof")
  | some fragments => checkFragments primitives setId authorities fragments

/-! ## Import -/

/-- `LightImportData`, with the blocks that the client has finalized. -/
structure LightImportData (H I : Type) where
  lastFinalized : H
  setId : Nat
  authorities : List (I × Nat)
  consensusChanges : ConsensusChanges H
  finalized : List H

/-- What the import asks of the client. -/
structure ImportClient (H : Type) where
  /-- `verifier.verify` and `do_import_block` of a header without a justification. -/
  importHeader : Header H → ConsensusChanges H → Option (ConsensusChanges H)
  number : H → Option Nat
  finalizeBlock : H → Bool
  canonicalAtHeight : Nat → Except Unit (Option H)
  insertConsensusChanges : ConsensusChanges H → Bool

variable (client : ImportClient H) (data : LightImportData H I)

/-- What an import answers. -/
inductive ImportAnswer where
  | finalized
  | needsFinalityProof
  | failed

/-- The loop of `do_import_finality_proof` over the headers: whether all of them are imported. -/
def importHeaders :
    List (Header H) → ConsensusChanges H → ConsensusChanges H × Bool
  | [], changes => (changes, true)
  | header :: rest, changes =>
    match client.importHeader header changes with
    | none => (changes, false)
    | some changes => importHeaders rest changes

/-- `do_finalize_block` -/
def doFinalizeBlock (hash : H) (number : Nat) : LightImportData H I × ImportAnswer :=
  if client.finalizeBlock hash then
    let data := { data with finalized := data.finalized ++ [hash] }
    match data.consensusChanges.finalize number client.canonicalAtHeight with
    | (consensusChanges, .error _) => ({ data with consensusChanges }, .failed)
    | (consensusChanges, .ok (altered, _)) =>
      if altered && !client.insertConsensusChanges consensusChanges then
        ({ data with consensusChanges }, .failed)
      else ({ data with consensusChanges, lastFinalized := hash }, .finalized)
  else (data, .failed)

/-- `do_import_finality_proof` -/
def doImportFinalityProof (finalityProof : B) : LightImportData H I × ImportAnswer :=
  match doCheckFinalityProof primitives data.setId data.authorities finalityProof with
  | .error _ => (data, .failed)
  | .ok effects =>
    let imported := importHeaders client effects.headersToImport data.consensusChanges
    let data := { data with consensusChanges := imported.1 }
    match imported.2, client.number effects.block with
    | true, some number =>
      match doFinalizeBlock client data effects.block number with
      | (data, .finalized) =>
        ({ data with setId := effects.newSetId, authorities := effects.newAuthorities },
          .finalized)
      | failed => failed
    | _, _ => (data, .failed)

/-- `do_import_justification` -/
def doImportJustification (hash : H) (number : Nat) (justification : B) :
    LightImportData H I × ImportAnswer :=
  match decodeAndVerify primitives justification data.setId data.authorities with
  | .error (.badJustification _) => (data, .needsFinalityProof)
  | .error _ => (data, .failed)
  | .ok _ => doFinalizeBlock client data hash number

/-! ## Commits for the finalized block -/

/-- What is received for a block, and its fragments. -/
inductive Evidence (H B : Type) where
  | finalityProof (bytes : B)
  | justification (hash : H) (number : Nat) (bytes : B)

/-- The fragments of a proof; a justification is the last fragment of its own. -/
def Evidence.fragments : Evidence H B → List (FinalityProofFragment H P B)
  | .finalityProof bytes => (primitives.decodeProof bytes).getD []
  | .justification hash _ bytes => [⟨hash, bytes, [], none⟩]

/-- The import of what is received. -/
def receive : Evidence H B → LightImportData H I
  | .finalityProof bytes => (doImportFinalityProof primitives client data bytes).1
  | .justification hash number bytes =>
    (doImportJustification primitives client data hash number bytes).1

variable [DecidableEq I] (signed : I → H → Nat → Nat → Nat → Prop)

/-- The weight of the authorities with a precommit in a commit. -/
def authorsWeight (authorities : List (I × Nat)) (commit : Commit H S I) : Nat :=
  ((authorities.filter fun authority =>
    decide (authority.1 ∈ commit.precommits.map (·.id))).map (·.2)).sum

/-- The weight of a super-majority. -/
def threshold (authorities : List (I × Nat)) : Nat :=
  let total := (authorities.map (·.2)).sum
  total - (total - 1) / 3

/-- The authors of a commit are a super-majority, and signed its precommits: a signature is by an
authority, for a block, in a round of a set. -/
def SuperMajority (setId : Nat) (authorities : List (I × Nat))
    (justification : GrandpaJustification H S I) : Prop :=
  threshold authorities ≤ authorsWeight authorities justification.commit ∧
    ∀ vote ∈ justification.commit.precommits,
      signed vote.id vote.targetHash vote.targetNumber justification.round setId

/-- Signatures are unforgeable, and the validator accepts commits of a super-majority only. -/
structure Sound : Prop where
  signatures : ∀ vote round setId, primitives.checkSignature vote round setId = true →
    signed vote.id vote.targetHash vote.targetNumber round setId
  validator : ∀ commit authorities chain,
    primitives.validateCommit commit authorities chain = true →
      threshold authorities ≤ authorsWeight authorities commit

/-- The commit of a fragment is for the block of the fragment. -/
def FinalityProofFragment.TargetsBlock (fragment : FinalityProofFragment H P B) : Prop :=
  ∀ justification, primitives.decodeJustification fragment.justification = some justification →
    justification.commit.targetHash = fragment.block

/-- A super-majority signed a commit for the block of the fragment. -/
def CommitFor (setId : Nat) (authorities : List (I × Nat))
    (fragment : FinalityProofFragment H P B) : Prop :=
  ∃ justification, primitives.decodeJustification fragment.justification = some justification ∧
    justification.commit.targetHash = fragment.block ∧
    SuperMajority signed setId authorities justification

/-- There is a commit for the block by the set in force, which is handed over only at a block with
a commit for it. -/
def Certified (hash : H) (setId : Nat) (authorities : List (I × Nat)) :
    List (FinalityProofFragment H P B) → Prop
  | [] => False
  | [last] => last.block = hash ∧ CommitFor primitives signed setId authorities last
  | fragment :: rest => CommitFor primitives signed setId authorities fragment ∧
      ∃ header proof next, fragment.authoritiesProof = some proof ∧
        primitives.checkAuthoritiesProof fragment.block header proof = some next ∧
        Certified hash (setId + 1) next rest

section

variable {primitives signed} {setId : Nat} {authorities : List (I × Nat)} {hash : H}

variable {justification : GrandpaJustification H S I} {fragment : FinalityProofFragment H P B}
  {effects : FinalityEffects H I B} {fragments : List (FinalityProofFragment H P B)}

section

variable (sound : Sound primitives signed)

include sound

theorem signed_of_visit (votes : List (SignedPrecommit H S I)) {visited result : Finset H}
    (passes : votes.foldlM (justification.visit primitives setId) visited = .ok result) :
    ∀ vote ∈ votes,
      signed vote.id vote.targetHash vote.targetNumber justification.round setId := by
  induction votes generalizing visited with
  | nil => simp
  | cons vote rest ih =>
    rw [foldlM_cons] at passes
    obtain ⟨next, visits, others⟩ := bind_eq_ok.mp passes
    have checked : primitives.checkSignature vote justification.round setId = true := by
      by_contra unchecked
      rw [GrandpaJustification.visit, if_pos (by simpa using unchecked)] at visits
      cases visits
    exact forall_mem_cons.mpr ⟨sound.signatures _ _ _ checked, ih others⟩

theorem superMajority_of_decodeAndVerify {bytes : B}
    (verified : decodeAndVerify primitives bytes setId authorities = .ok justification) :
    primitives.decodeJustification bytes = some justification ∧
      SuperMajority signed setId authorities justification := by
  unfold decodeAndVerify at verified
  split at verified
  · cases verified
  rename_i decoded decodes
  cases verifies : decoded.verify primitives setId authorities with
  | error error => simp [verifies, Except.map] at verified
  | ok =>
    obtain rfl : decoded = justification := by simpa [verifies, Except.map] using verified
    unfold GrandpaJustification.verify at verifies
    split at verifies
    · cases verifies
    rename_i valid
    split at verifies
    · cases verifies
    rename_i visits
    exact ⟨decodes, sound.validator _ _ _ (by simpa using valid), signed_of_visit sound _ visits⟩

/-- A fragment that passes is signed by the set in force, and hands over to the next set. -/
theorem checkFinalityProofFragment_spec
    (passes : checkFinalityProofFragment primitives setId authorities fragment = .ok effects) :
    effects.block = fragment.block ∧
      (fragment.TargetsBlock primitives → CommitFor primitives signed setId authorities fragment) ∧
      ∀ proof, fragment.authoritiesProof = some proof → effects.newSetId = setId + 1 ∧
        ∃ header, primitives.checkAuthoritiesProof fragment.block header proof =
          some effects.newAuthorities := by
  unfold checkFinalityProofFragment at passes
  split at passes
  · cases passes
  · rename_i justification verified absent
    cases passes
    have signs := superMajority_of_decodeAndVerify sound verified
    exact ⟨rfl, fun targets => ⟨_, signs.1, targets _ signs.1, signs.2⟩, by simp [absent]⟩
  · rename_i justification proof verified given
    split at passes
    · cases passes
    rename_i next proven
    cases passes
    obtain ⟨header, -, proven⟩ := bind_eq_some_iff.mp proven
    have signs := superMajority_of_decodeAndVerify sound verified
    refine ⟨rfl, fun targets => ⟨_, signs.1, targets _ signs.1, signs.2⟩, fun other same => ?_⟩
    obtain rfl : proof = other := some.inj (given.symm.trans same)
    exact ⟨rfl, header, proven⟩

end

omit [DecidableEq H] in
theorem CommitFor.targetsBlock (commit : CommitFor primitives signed setId authorities fragment) :
    fragment.TargetsBlock primitives := by
  obtain ⟨justification, decodes, targets, -⟩ := commit
  intro other same
  rwa [← some.inj (decodes.symm.trans same)]

omit [DecidableEq H] in
theorem Certified.targetsBlock
    (certified : Certified primitives signed hash setId authorities fragments) :
    ∀ fragment ∈ fragments, fragment.TargetsBlock primitives := by
  induction fragments generalizing setId authorities with
  | nil => simp
  | cons fragment rest ih =>
    cases rest with
    | nil => simpa using certified.2.targetsBlock
    | cons second others =>
      obtain ⟨commit, _, _, _, -, -, later⟩ := certified
      exact forall_mem_cons.mpr ⟨commit.targetsBlock, ih later⟩

theorem certified_of_checkFragments (sound : Sound primitives signed)
    (passes : checkFragments primitives setId authorities fragments = .ok effects)
    (targets : ∀ fragment ∈ fragments, fragment.TargetsBlock primitives) :
    Certified primitives signed effects.block setId authorities fragments := by
  induction fragments generalizing setId authorities with
  | nil => cases passes
  | cons fragment rest ih =>
    obtain ⟨here, there⟩ := forall_mem_cons.mp targets
    cases rest with
    | nil =>
      have spec := checkFinalityProofFragment_spec sound passes
      exact ⟨spec.1.symm, spec.2.1 here⟩
    | cons second others =>
      unfold checkFragments at passes
      split at passes
      · cases passes
      rename_i needed
      split at passes
      · cases passes
      rename_i next checks
      have spec := checkFinalityProofFragment_spec sound checks
      obtain ⟨proof, given⟩ : ∃ proof, fragment.authoritiesProof = some proof := by
        cases given : fragment.authoritiesProof <;> simp_all
      obtain ⟨increased, header, proven⟩ := spec.2.2 proof given
      exact ⟨spec.2.1 here, header, proof, _, given, proven, increased ▸ ih passes there⟩

omit [DecidableEq I] in
theorem eq_of_doFinalizeBlock {client : ImportClient H} {data : LightImportData H I} {block : H}
    {number : Nat} (finalizes : (doFinalizeBlock client data block number).1.finalized =
      data.finalized ++ [hash]) : block = hash := by
  unfold doFinalizeBlock at finalizes
  split at finalizes
  · dsimp only at finalizes
    split at finalizes
    · simpa using finalizes
    · split at finalizes <;> simpa using finalizes
  · simp at finalizes

/-- A block is finalized only when the evidence passes, and then it is the block of the last
fragment: fragments that target their blocks certify it. -/
theorem certified_of_receive (sound : Sound primitives signed) {evidence : Evidence H B}
    (finalizes : (receive primitives client data evidence).finalized = data.finalized ++ [hash])
    (targets : ∀ fragment ∈ evidence.fragments primitives, fragment.TargetsBlock primitives) :
    Certified primitives signed hash data.setId data.authorities
      (evidence.fragments primitives) := by
  cases evidence with
  | finalityProof bytes =>
    simp only [receive, doImportFinalityProof] at finalizes
    split at finalizes
    · simp at finalizes
    rename_i effects passes
    have same : effects.block = hash := by
      split at finalizes
      · split at finalizes
        · rename_i finalizing
          exact eq_of_doFinalizeBlock ((congrArg (·.1.finalized) finalizing).trans finalizes)
        · exact eq_of_doFinalizeBlock finalizes
      · simp at finalizes
    unfold doCheckFinalityProof at passes
    split at passes
    · cases passes
    rename_i fragments decodes
    simp only [Evidence.fragments, decodes, getD_some] at targets ⊢
    exact same ▸ certified_of_checkFragments sound passes targets
  | justification block number bytes =>
    simp only [receive, doImportJustification] at finalizes
    split at finalizes
    · simp at finalizes
    · simp at finalizes
    rename_i verified
    have signs := superMajority_of_decodeAndVerify sound verified
    refine ⟨?_, _, signs.1, targets _ (mem_singleton_self _) _ signs.1, signs.2⟩
    exact eq_of_doFinalizeBlock finalizes

end

/-- **A light client finalizes a block on a commit for it, by the set in force, exactly when the
commit of each fragment it received is for the block of the fragment.** -/
theorem finalized_certified_iff (sound : Sound primitives signed) (evidence : Evidence H B)
    (hash : H)
    (finalizes : (receive primitives client data evidence).finalized = data.finalized ++ [hash]) :
    Certified primitives signed hash data.setId data.authorities (evidence.fragments primitives) ↔
      ∀ fragment ∈ evidence.fragments primitives, fragment.TargetsBlock primitives :=
  ⟨fun certified => certified.targetsBlock,
    fun targets => certified_of_receive client data sound finalizes targets⟩

/-- One authority has signed block 1. A justification is the block that it targets, and a proof is
one fragment with two digits, its block and its justification. -/
def blockOneSigned : Primitives Nat Unit Nat Unit Nat where
  decodeProof bytes := some [⟨bytes / 10, bytes % 10, [], none⟩]
  decodeJustification bytes := some ⟨0, ⟨bytes, bytes, [⟨bytes, bytes, (), 0⟩]⟩, []⟩
  validateCommit commit authorities _ :=
    decide (threshold authorities ≤ authorsWeight authorities commit)
  checkSignature vote _ _ := decide (vote.targetHash = 1)
  checkAuthoritiesProof _ _ _ := none
  expectHeader _ := none

/-- A client that has all the blocks. -/
def fullClient : ImportClient Nat := ⟨fun _ => some, some, fun _ => true, fun _ => .ok none,
  fun _ => true⟩

/-- The set of one authority is in force. -/
def oneAuthority : LightImportData Nat Nat := ⟨0, 0, [(0, 1)], ⟨[]⟩, []⟩

/-- The justification of block 1 finalizes it. -/
theorem finalized_certified_iff_own_block :
    Certified blockOneSigned (fun _ block _ _ _ => block = 1) 1 0 [(0, 1)]
      [⟨1, 1, [], none⟩] :=
  (finalized_certified_iff blockOneSigned fullClient oneAuthority (fun _ block _ _ _ => block = 1)
    ⟨fun _ _ _ => of_decide_eq_true, fun _ _ _ => of_decide_eq_true⟩ (.finalityProof 11) 1
    (by decide)).mpr
    (by simp [Evidence.fragments, blockOneSigned, FinalityProofFragment.TargetsBlock])

/-- Block 2 is finalized by a proof and by a justification, each with the commit for block 1: no
precommit for block 2 was ever signed. -/
theorem finalized_without_commit :
    Sound blockOneSigned (fun _ block _ _ _ => block = 1) ∧
      ∀ evidence ∈ [Evidence.finalityProof 21, .justification 2 2 1],
        (receive blockOneSigned fullClient oneAuthority evidence).finalized = [2] ∧
          ¬Certified blockOneSigned (fun _ block _ _ _ => block = 1) 2 0 [(0, 1)]
            (evidence.fragments blockOneSigned) := by
  refine ⟨⟨fun _ _ _ => of_decide_eq_true, fun _ _ _ => of_decide_eq_true⟩, ?_⟩
  simp only [forall_mem_cons]
  refine ⟨⟨by decide, ?_⟩, ⟨by decide, ?_⟩, by simp⟩ <;>
    simp [Certified, CommitFor, Evidence.fragments, blockOneSigned]

end Brace.Grandpa
