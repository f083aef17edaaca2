import Brace.ForkTree.Tree

/-!
# Epoch changes

`EpochChanges` of `consensus/epochs`: the epochs that were signalled, in a fork tree by the block
that signals them. Epochs are any type with a start and an end slot. Block numbers are natural
numbers, and the fake hash of a child of a block (its first bit flipped in the source) is any
function.
-/

namespace Brace.Epochs

open Brace.Lib Brace.ForkTree

/-- `Epoch`: the slots of an epoch, from the start slot to before the end slot. -/
class Epoch (Ep : Type) (S : outParam Type) where
  startSlot : Ep → S
  endSlot : Ep → S

open Epoch

/-- `PersistedEpoch` -/
inductive PersistedEpoch (Ep : Type) where
  | genesis (epoch0 epoch1 : Ep)
  | regular (epochN : Ep)
  deriving DecidableEq, Repr

/-- `ViableEpoch` -/
inductive ViableEpoch (Ep : Type) where
  | genesis (epoch : Ep)
  | regular (epoch : Ep)
  deriving DecidableEq, Repr

/-- `EpochChanges` -/
structure EpochChanges (H Ep : Type) where
  inner : Tree H Nat (PersistedEpoch Ep)

variable {H S Ep E : Type}

/-- `is_descendent_of` of the client, which is built for an optional current block and its parent.
The lowest common ancestor of a block and the base is the base when the base is the block or an
ancestor of it. -/
def isDescendentOf (E : Type) [DecidableEq H] (ancestry : Ancestry H Nat) (current : Option (H × H))
    (base hash : H) : Except E Bool :=
  if base = hash then .ok false
  else
    match current with
    | none => .ok (decide (ancestry.AtOrBefore base hash))
    | some (currentHash, currentParentHash) =>
      if base = currentHash then .ok false
      else if hash = currentHash then
        if base = currentParentHash then .ok true
        else .ok (decide (ancestry.AtOrBefore base currentParentHash))
      else .ok (decide (ancestry.AtOrBefore base hash))

namespace PersistedEpoch

variable [LinearOrder S] [Epoch Ep S]

/-- The predicate of `prune_finalized`. -/
def endsBy (slot : S) : PersistedEpoch Ep → Bool
  | .genesis _ epoch1 => decide (endSlot epoch1 ≤ slot)
  | .regular epochN => decide (endSlot epochN ≤ slot)

/-- The predicate of `epoch_for_child_of`. -/
def startsBy (slot : S) : PersistedEpoch Ep → Bool
  | .genesis epoch0 _ => decide (startSlot epoch0 ≤ slot)
  | .regular epochN => decide (startSlot epochN ≤ slot)

/-- The epoch of a node that a slot belongs to. -/
def select (slot : S) : PersistedEpoch Ep → Ep
  | .genesis epoch0 epoch1 => if startSlot epoch1 ≤ slot then epoch1 else epoch0
  | .regular epochN => epochN

end PersistedEpoch

namespace EpochChanges

variable [DecidableEq H]

/-- `new` -/
def new : EpochChanges H Ep := ⟨Tree.new⟩

/-- `import` -/
def importEpoch (self : EpochChanges H Ep) (build : Option (H × H) → H → H → Except E Bool)
    (hash : H) (number : Nat) (parentHash : H) (epoch : PersistedEpoch Ep) :
    EpochChanges H Ep × Except (Error E) Unit :=
  match self.inner.importBlock (build (some (hash, parentHash))) hash number epoch with
  | (inner, .ok _) => (⟨inner⟩, .ok ())
  | (inner, .error .duplicate) => (⟨inner⟩, .ok ())
  | (inner, .error error) => (⟨inner⟩, .error error)

variable [LinearOrder S] [Epoch Ep S]

/-- `prune_finalized` -/
def pruneFinalized (self : EpochChanges H Ep) (build : Option (H × H) → H → H → Except E Bool)
    (hash : H) (number : Nat) (slot : S) : EpochChanges H Ep × Except (Error E) Unit :=
  let (inner, result) := self.inner.prune (build none) hash number (PersistedEpoch.endsBy slot)
  (⟨inner⟩, result)

/-- `epoch_for_child_of` -/
def epochForChildOf (self : EpochChanges H Ep) (build : Option (H × H) → H → H → Except E Bool)
    (fakeHeadHash : H → H) (parentHash : H) (parentNumber : Nat) (slotNumber : S)
    (makeGenesis : S → Ep) : Except (Error E) (Option (ViableEpoch Ep)) :=
  if parentNumber = 0 then .ok (some (.genesis (makeGenesis slotNumber)))
  else
    match self.inner.findNodeWhere (build (some (fakeHeadHash parentHash, parentHash)))
        (fakeHeadHash parentHash) (parentNumber + 1) (PersistedEpoch.startsBy slotNumber) with
    | .error error => .error error
    | .ok none => .ok none
    | .ok (some node) => .ok (some (.regular (node.data.select slotNumber)))

end EpochChanges

end Brace.Epochs
