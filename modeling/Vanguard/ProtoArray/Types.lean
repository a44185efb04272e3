import Vanguard.Basic

/-!
The data model of the proto-array fork choice: block nodes in an append-only
array linked by indices, the root-to-index map, the validators' votes, and
the errors the package returns.
-/

namespace Vanguard.ProtoArray

/-- The errors of the package, together with what Go reports by a runtime
panic (`indexOutOfRange`) and with a loop that never returns (`diverged`). -/
inductive Err where
  | unknownFinalizedRoot
  | unknownJustifiedRoot
  | invalidNodeIndex
  | invalidJustifiedIndex
  | invalidBestChildIndex
  | invalidBestDescendantIndex
  | invalidParentDelta
  | invalidNodeDelta
  | invalidDeltaLength
  | invalidFinalizedIndex
  | headNotEligible (slot : Slot) (weight : Gwei)
      (nodeFinalizedEpoch finalizedEpoch nodeJustifiedEpoch justifiedEpoch : Epoch)
  | nodeDoesNotExist
  | nodeIndexOutOfRange
  | contextCancelled
  | indexOutOfRange
  | diverged
  deriving DecidableEq, Repr

/-- A block in the array. `none` stands for `NonExistentNode`, the one index
that no slice of Go can have. -/
structure Node where
  slot : Slot
  root : Root
  parent : Option ℕ
  justifiedEpoch : Epoch
  finalizedEpoch : Epoch
  weight : Gwei
  bestChild : Option ℕ
  bestDescendant : Option ℕ
  graffiti : Root
  deriving DecidableEq, Repr

/-- `map[[32]byte]V` -/
abbrev RootMap (V : Type) := Std.ExtTreeMap Root V

/-- The block nodes and the last view of the checkpoint information. -/
structure Store where
  pruneThreshold : ℕ
  justifiedEpoch : Epoch
  finalizedEpoch : Epoch
  finalizedRoot : Root
  nodes : List Node
  nodesIndices : RootMap ℕ
  canonicalNodes : RootMap Bool

structure Vote where
  currentRoot : Root
  nextRoot : Root
  nextEpoch : Epoch
  deriving DecidableEq, Repr

/-- The vote that `ProcessAttestation` appends for a new validator index. -/
def Vote.fresh : Vote := ⟨zeroHash, zeroHash, 0⟩

/-- The overall fork choice: block nodes, latest votes and balances. -/
structure ForkChoice where
  store : Store
  votes : List Vote
  balances : List Gwei

/-- This defines the minimal number of block nodes that can be in the tree
before getting pruned upon new finalization. -/
def defaultPruneThreshold : ℕ := 256

def ForkChoice.new (justifiedEpoch finalizedEpoch : Epoch) (finalizedRoot : Root) :
    ForkChoice where
  store :=
    { pruneThreshold := defaultPruneThreshold
      justifiedEpoch := justifiedEpoch
      finalizedEpoch := finalizedEpoch
      finalizedRoot := finalizedRoot
      nodes := []
      nodesIndices := ∅
      canonicalNodes := ∅ }
  votes := []
  balances := []

end Vanguard.ProtoArray
