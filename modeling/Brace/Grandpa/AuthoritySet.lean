import Brace.ForkTree.Tree

/-!
# The authority set of the finality gadget

`AuthoritySet` of `finality-grandpa`: the current authorities and the changes to them that are
pending. Standard changes wait in a fork tree until they are finalized, forced changes in a list.
The type of the list of authorities is a parameter.
-/

namespace Brace.Grandpa

open Brace.ForkTree

/-- `DelayKind` -/
inductive DelayKind (N : Type) where
  | finalized
  | best (medianLastFinalized : N)
  deriving DecidableEq, Repr

/-- `PendingChange` -/
structure PendingChange (H N A : Type) where
  nextAuthorities : A
  delay : N
  canonHeight : N
  canonHash : H
  delayKind : DelayKind N
  deriving DecidableEq, Repr

/-- `Status` -/
structure Status (H N : Type) where
  changed : Bool
  newSetBlock : Option (H × N)
  deriving DecidableEq, Repr

/-- `AuthoritySet` -/
structure AuthoritySet (H N A : Type) where
  currentAuthorities : A
  setId : Nat
  pendingStandardChanges : Tree H N (PendingChange H N A)
  pendingForcedChanges : List (PendingChange H N A)

variable {H N A E : Type}

/-- `effective_number` -/
def PendingChange.effectiveNumber [Add N] (self : PendingChange H N A) : N :=
  self.canonHeight + self.delay

/-- The loop of `add_forced_change`: a forced change is pending on the branch of the block. -/
def anyOnBranch [DecidableEq H] (isDescendentOf : H → H → Except E Bool) (hash : H) :
    List (PendingChange H N A) → Except (Error E) Bool
  | [] => .ok false
  | change :: rest =>
    match if change.canonHash = hash then .ok true else isDescendentOf change.canonHash hash with
    | .error error => .error (.client error)
    | .ok true => .ok true
    | .ok false => anyOnBranch isDescendentOf hash rest

namespace AuthoritySet

/-- `genesis` -/
def genesis (initial : A) : AuthoritySet H N A :=
  { currentAuthorities := initial, setId := 0, pendingStandardChanges := Tree.new,
    pendingForcedChanges := [] }

variable [DecidableEq H] [LinearOrder N] [Add N]

variable (self : AuthoritySet H N A)

variable (isDescendentOf : H → H → Except E Bool)

variable (pending : PendingChange H N A)

/-- `add_standard_change` -/
def addStandardChange : AuthoritySet H N A × Except (Error E) Unit :=
  match self.pendingStandardChanges.importBlock isDescendentOf pending.canonHash pending.canonHeight
      pending with
  | (pendingStandardChanges, .error error) => ({ self with pendingStandardChanges }, .error error)
  | (pendingStandardChanges, .ok _) => ({ self with pendingStandardChanges }, .ok ())

/-- Forced changes are ordered by the effective number and then by the number of the block. -/
def keyLt (left right : PendingChange H N A) : Bool :=
  decide (left.effectiveNumber < right.effectiveNumber) ||
    decide (left.effectiveNumber = right.effectiveNumber) &&
      decide (left.canonHeight < right.canonHeight)

/-- `add_forced_change`. The binary search of the source finds the first place for a key that is
not in the list; among equal keys it may find any place, here the first. -/
def addForcedChange : AuthoritySet H N A × Except (Error E) Unit :=
  match anyOnBranch isDescendentOf pending.canonHash self.pendingForcedChanges with
  | .error error => (self, .error error)
  | .ok true => (self, .error .unfinalizedAncestor)
  | .ok false =>
    let idx := (self.pendingForcedChanges.takeWhile (keyLt · pending)).length
    ({ self with pendingForcedChanges := self.pendingForcedChanges.insertIdx idx pending }, .ok ())

/-- `add_pending_change` -/
def addPendingChange : AuthoritySet H N A × Except (Error E) Unit :=
  match pending.delayKind with
  | .best _ => self.addForcedChange isDescendentOf pending
  | .finalized => self.addStandardChange isDescendentOf pending

variable (finalizedHash : H)

variable (finalizedNumber : N)

/-- The finalization that `apply_standard_changes` asks the fork tree for. -/
def finalizeChanges :
    Tree H N (PendingChange H N A) × Except (Error E) (FinalizationResult (PendingChange H N A)) :=
  self.pendingStandardChanges.finalizeWithDescendentIf isDescendentOf finalizedHash finalizedNumber
    fun change => decide (change.effectiveNumber ≤ finalizedNumber)

/-- `apply_standard_changes` -/
def applyStandardChanges : AuthoritySet H N A × Except (Error E) (Status H N) :=
  match self.finalizeChanges isDescendentOf finalizedHash finalizedNumber with
  | (pendingStandardChanges, .error error) => ({ self with pendingStandardChanges }, .error error)
  | (pendingStandardChanges, .ok .unchanged) =>
    ({ self with pendingStandardChanges }, .ok ⟨false, none⟩)
  | (pendingStandardChanges, .ok (.changed none)) =>
    ({ self with pendingStandardChanges, pendingForcedChanges := [] }, .ok ⟨true, none⟩)
  | (pendingStandardChanges, .ok (.changed (some change))) =>
    ({ currentAuthorities := change.nextAuthorities, setId := self.setId + 1,
       pendingStandardChanges, pendingForcedChanges := [] },
     .ok ⟨true, some (finalizedHash, finalizedNumber)⟩)

/-- `enacts_standard_change` -/
def enactsStandardChange : Except (Error E) (Option Bool) :=
  self.pendingStandardChanges.finalizesAnyWithDescendentIf isDescendentOf finalizedHash
    finalizedNumber fun change => decide (change.effectiveNumber = finalizedNumber)

end AuthoritySet

end Brace.Grandpa
