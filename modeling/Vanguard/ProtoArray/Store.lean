import Vanguard.Lib.Float64
import Vanguard.ProtoArray.Types

/-!
The operations of the fork choice store, statement by statement.

Go mutates the store while it goes and may then return an error, so an
operation is a computation in `EStateM`: a failing one leaves the state it
had reached. Slice accesses that Go checks only at run time fail with
`indexOutOfRange`. Metrics and trace spans have no influence on the store and
are left out.
-/

namespace Vanguard.ProtoArray

/-- Computations on a store that may fail part way. -/
abbrev StoreM := EStateM Err Store

namespace Store

/-- `s.nodes[i]` with Go's bounds check. -/
def nodeAt (i : ℕ) : StoreM Node := fun s =>
  match s.nodes[i]? with
  | some n => .ok n s
  | none => .error .indexOutOfRange s

/-- `s.nodes[i] = n` -/
def setNode (i : ℕ) (n : Node) : StoreM Unit := fun s =>
  .ok () { s with nodes := s.nodes.set i n }

/-- `viableForHead`: a node is viable if its justified and finalized epochs
are the ones in the store. It is also viable in the genesis epoch. -/
def viableForHead (s : Store) (node : Node) : Bool :=
  let justified := s.justifiedEpoch == node.justifiedEpoch || s.justifiedEpoch == 0
  let finalized := s.finalizedEpoch == node.finalizedEpoch || s.finalizedEpoch == 0
  justified && finalized

/-- `leadsToViableHead`: the node or its best descendant is viable. -/
def leadsToViableHead (s : Store) (node : Node) : Except Err Bool :=
  match node.bestDescendant with
  | none => .ok (s.viableForHead node)
  | some bestDescendantIndex =>
    match s.nodes[bestDescendantIndex]? with
    | none => .error .invalidBestDescendantIndex
    | some bestDescendantNode =>
      .ok (s.viableForHead bestDescendantNode || s.viableForHead node)

/-- The comparison of `updateBestChildAndDescendant` between a child and the
parent's current best child: whether the child takes over. -/
def childWins (childLeadsToViableHead bestChildLeadsToViableHead : Bool)
    (child bestChild : Node) : Bool :=
  if childLeadsToViableHead && !bestChildLeadsToViableHead then true
  else if !childLeadsToViableHead && bestChildLeadsToViableHead then false
  else if child.weight = bestChild.weight then decide (bestChild.root < child.root)
  else decide (bestChild.weight < child.weight)

/-- `updateBestChildAndDescendant` up to the assignment: the new
`(bestChild, bestDescendant)` of the parent. -/
def newParentChild (s : Store) (parent child : Node) (childIndex : ℕ) :
    Except Err (Option ℕ × Option ℕ) := do
  let childLeadsToViableHead ← s.leadsToViableHead child
  let changeToNone := (none, none)
  let changeToChild := (some childIndex, some (child.bestDescendant.getD childIndex))
  let noChange := (parent.bestChild, parent.bestDescendant)
  match parent.bestChild with
  | some bestChildIndex =>
    if bestChildIndex = childIndex then
      -- outcomes 1 and 2: the child already is the best child
      if childLeadsToViableHead then pure changeToChild else pure changeToNone
    else if s.nodes.length < bestChildIndex then
      throw .invalidBestDescendantIndex
    else
      match s.nodes[bestChildIndex]? with
      | none => throw .indexOutOfRange
      | some bestChild => do
        let bestChildLeadsToViableHead ← s.leadsToViableHead bestChild
        if childWins childLeadsToViableHead bestChildLeadsToViableHead child bestChild then
          pure changeToChild
        else pure noChange
  | none => if childLeadsToViableHead then pure changeToChild else pure noChange

/-- `updateBestChildAndDescendant`. Nothing is written before the last
error check, so a failure leaves the store alone. -/
def updateBestChildAndDescendant (parentIndex childIndex : ℕ) : StoreM Unit := fun s =>
  match s.nodes[parentIndex]? with
  | none => .error .invalidNodeIndex s
  | some parent =>
    match s.nodes[childIndex]? with
    | none => .error .invalidNodeIndex s
    | some child =>
      match s.newParentChild parent child childIndex with
      | .error e => .error e s
      | .ok (bestChild, bestDescendant) =>
        setNode parentIndex
          { parent with bestChild := bestChild, bestDescendant := bestDescendant } s

/-- `insert` registers a new block node and then updates the parent's best
child and descendant. -/
def insert (slot : Slot) (root parent graffiti : Root)
    (justifiedEpoch finalizedEpoch : Epoch) : StoreM Unit := do
  let s ← get
  if s.nodesIndices.contains root then
    -- the block has been inserted into the store before
    pure ()
  else
    let index := s.nodes.length
    let n : Node :=
      { slot := slot
        root := root
        parent := s.nodesIndices[parent]?
        justifiedEpoch := justifiedEpoch
        finalizedEpoch := finalizedEpoch
        weight := 0
        bestChild := none
        bestDescendant := none
        graffiti := graffiti }
    set { s with nodesIndices := s.nodesIndices.insert root index, nodes := s.nodes ++ [n] }
    match n.parent with
    | none => pure ()
    | some parentIndex => updateBestChildAndDescendant parentIndex index

/-- The weight of a node after `nodeDelta`, as `applyWeightChanges` computes
it: clamped at zero, and subtracted through a `float64`. -/
def adjustWeight (weight : Gwei) (nodeDelta : SInt) : Gwei :=
  if nodeDelta.toInt < 0 then
    if (weight + nodeDelta).toInt < 0 then 0
    else weight - BitVec.ofNat 64 (Float64.round nodeDelta.toInt.natAbs)
  else weight + nodeDelta

/-- First loop of `applyWeightChanges` over the indices below `i`, highest
first: add each delta to its node and propagate it to the parent. -/
def applyDeltas : ℕ → List SInt → StoreM (List SInt)
  | 0, delta => pure delta
  | i + 1, delta => do
    let n ← nodeAt i
    if n.root = zeroHash then
      -- the zero hash is an alias to the genesis block
      applyDeltas i delta
    else
      match delta[i]? with
      | none => throw .indexOutOfRange
      | some nodeDelta =>
        setNode i { n with weight := adjustWeight n.weight nodeDelta }
        match n.parent with
        | none => applyDeltas i delta
        | some p =>
          if delta.length ≤ p then throw .invalidParentDelta
          else applyDeltas i (delta.modify p (· + nodeDelta))

/-- Second loop of `applyWeightChanges`: refresh the parents' best child and
descendant, highest index first. -/
def refreshBest (deltaLength : ℕ) : ℕ → StoreM Unit
  | 0 => pure ()
  | i + 1 => do
    let n ← nodeAt i
    match n.parent with
    | none => refreshBest deltaLength i
    | some p =>
      if deltaLength ≤ p then throw .invalidParentDelta
      else
        updateBestChildAndDescendant p i
        refreshBest deltaLength i

def applyWeightChanges (justifiedEpoch finalizedEpoch : Epoch) (delta : List SInt) :
    StoreM Unit := do
  let s ← get
  if s.nodes.length ≠ delta.length then throw .invalidDeltaLength
  else
    set { s with justifiedEpoch := justifiedEpoch, finalizedEpoch := finalizedEpoch }
    let delta ← applyDeltas s.nodes.length delta
    refreshBest delta.length s.nodes.length

/-- The loop of `updateCanonicalNodes` from the parent index `p` on. Parents
have smaller indices, so `fuel` bounds its iterations. -/
def markAncestors (ctx : Ctx) : ℕ → ℕ → Option ℕ → StoreM Unit
  | _, _, none => pure ()
  | 0, _, some _ => throw .diverged
  | fuel + 1, poll, some p => do
    if ctx.err poll then throw .contextCancelled
    else
      let n ← nodeAt p
      let s ← get
      if s.canonicalNodes.getD n.root false then pure ()
      else
        set { s with canonicalNodes := s.canonicalNodes.insert n.root true }
        markAncestors ctx fuel (poll + 1) n.parent

def updateCanonicalNodes (ctx : Ctx) (root : Root) : StoreM Unit := do
  let s ← get
  set { s with canonicalNodes := s.canonicalNodes.insert root true }
  let n ← nodeAt (s.nodesIndices.getD root 0)
  markAncestors ctx (s.nodes.length + 1) 0 n.parent

/-- `head` starts from the justified root and follows the best descendant
link to the best block. -/
def head (ctx : Ctx) (justifiedRoot : Root) : StoreM Root := do
  let s ← get
  match s.nodesIndices[justifiedRoot]? with
  | none => throw .unknownJustifiedRoot
  | some justifiedIndex =>
    match s.nodes[justifiedIndex]? with
    | none => throw .invalidJustifiedIndex
    | some justifiedNode =>
      match s.nodes[justifiedNode.bestDescendant.getD justifiedIndex]? with
      | none => throw .invalidBestDescendantIndex
      | some bestNode =>
        if s.viableForHead bestNode then
          updateCanonicalNodes ctx bestNode.root
          pure bestNode.root
        else
          throw (.headNotEligible bestNode.slot (bestNode.weight / 10000000000)
            bestNode.finalizedEpoch s.finalizedEpoch
            bestNode.justifiedEpoch s.justifiedEpoch)

/-- First loop of `prune`: forget the roots of the nodes `i`, `i + 1`, ...
until `remaining` of them are deleted. -/
def deleteRoots : ℕ → ℕ → StoreM Unit
  | 0, _ => pure ()
  | remaining + 1, i => fun s =>
    match s.nodes[i]? with
    | none => .error .invalidNodeIndex s
    | some n =>
      deleteRoots remaining (i + 1) { s with nodesIndices := s.nodesIndices.erase n.root }

/-- The adjustment of the link fields of one surviving node. The parent is
written before the other two links are checked. -/
def renumberNode (finalizedIndex i : ℕ) : StoreM Unit := do
  let node ← nodeAt i
  let parent := node.parent.bind fun p =>
    if finalizedIndex ≤ p then some (p - finalizedIndex) else none
  setNode i { node with parent := parent }
  match node.bestChild with
  | some c =>
    if c < finalizedIndex then throw .invalidBestChildIndex
    else setNode i { node with parent := parent, bestChild := some (c - finalizedIndex) }
  | none => pure ()
  match node.bestDescendant with
  | some d =>
    if d < finalizedIndex then throw .invalidBestDescendantIndex
    else
      setNode i
        { node with
          parent := parent
          bestChild := node.bestChild.map (· - finalizedIndex)
          bestDescendant := some (d - finalizedIndex) }
  | none => pure ()

/-- Last loop of `prune` over the surviving nodes, lowest index first. -/
def renumberNodes (finalizedIndex : ℕ) : ℕ → ℕ → StoreM Unit
  | 0, _ => pure ()
  | remaining + 1, i => do
    renumberNode finalizedIndex i
    renumberNodes finalizedIndex remaining (i + 1)

/-- `prune` drops the nodes before the finalized one, if there are enough of
them, and renumbers the rest. -/
def prune (finalizedRoot : Root) : StoreM Unit := do
  let s ← get
  match s.nodesIndices[finalizedRoot]? with
  | none => throw .unknownFinalizedRoot
  | some finalizedIndex =>
    if finalizedIndex < s.pruneThreshold then pure ()
    else
      deleteRoots finalizedIndex 0
      let s ← get
      if s.nodes.length ≤ finalizedIndex then throw .invalidFinalizedIndex
      else
        set { s with
          nodes := s.nodes.drop finalizedIndex
          nodesIndices := s.nodesIndices.map fun _ v => v - finalizedIndex }
        renumberNodes finalizedIndex (s.nodes.length - finalizedIndex) 0

end Store

end Vanguard.ProtoArray
