import Vanguard.ProtoArray.Store

/-!
The fork choice object: vote accounting on top of the store, the public
operations, and runs of them.
-/

namespace Vanguard.ProtoArray

/-- Computations on the fork choice object that may fail part way. -/
abbrev ForkChoiceM := EStateM Err ForkChoice

/-- A computation on the store, run inside the fork choice object. -/
def onStore {α : Type} (x : StoreM α) : ForkChoiceM α := fun f =>
  match x f.store with
  | .ok a s => .ok a { f with store := s }
  | .error e s => .error e { f with store := s }

/-- The balance of a validator: zero past the end of the list. -/
def balanceAt (balances : List Gwei) (validatorIndex : ℕ) : Gwei :=
  balances.getD validatorIndex 0

/-- `deltas[i] += amount` for the block `root`, if it is known. -/
def addDelta (blockIndices : RootMap ℕ) (root : Root) (amount : SInt) (deltas : List SInt) :
    Except Err (List SInt) :=
  match blockIndices[root]? with
  | none => .ok deltas
  | some i =>
    if deltas.length ≤ i then .error .invalidNodeDelta
    else .ok (deltas.modify i (· + amount))

/-- The loop of `computeDeltas` over the votes from `validatorIndex` on. The
votes are rotated in place, also those before a failure. -/
def computeDeltasFrom (blockIndices : RootMap ℕ) (oldBalances newBalances : List Gwei) :
    ℕ → List Vote → List SInt → Except Err (List SInt) × List Vote
  | _, [], deltas => (.ok deltas, [])
  | validatorIndex, vote :: rest, deltas =>
    if vote.currentRoot = zeroHash ∧ vote.nextRoot = zeroHash then
      -- the validator has never voted, there is nothing to compute
      let (res, rest') := computeDeltasFrom blockIndices oldBalances newBalances
        (validatorIndex + 1) rest deltas
      (res, vote :: rest')
    else
      let oldBalance := balanceAt oldBalances validatorIndex
      let newBalance := balanceAt newBalances validatorIndex
      -- only if the validator's balance or vote has changed
      let res :=
        if vote.currentRoot ≠ vote.nextRoot ∨ oldBalance ≠ newBalance then do
          let deltas ← addDelta blockIndices vote.nextRoot newBalance deltas
          addDelta blockIndices vote.currentRoot (-oldBalance) deltas
        else pure deltas
      match res with
      | .error e => (.error e, vote :: rest)
      | .ok deltas =>
        let (res, rest') := computeDeltasFrom blockIndices oldBalances newBalances
          (validatorIndex + 1) rest deltas
        (res, { vote with currentRoot := vote.nextRoot } :: rest')

def computeDeltas (blockIndices : RootMap ℕ) (votes : List Vote)
    (oldBalances newBalances : List Gwei) : Except Err (List SInt) × List Vote :=
  computeDeltasFrom blockIndices oldBalances newBalances 0 votes
    (List.replicate blockIndices.size 0)

namespace ForkChoice

/-- The part of `Head` that runs `computeDeltas` on the stored votes. -/
def rotateVotes (newBalances : List Gwei) : ForkChoiceM (List SInt) := fun f =>
  match computeDeltas f.store.nodesIndices f.votes f.balances newBalances with
  | (.ok deltas, votes) => .ok deltas { f with votes := votes }
  | (.error e, votes) => .error e { f with votes := votes }

/-- `Head` computes the validators' balance changes and recalculates the
block tree from the leaves to the root. -/
def head (ctx : Ctx) (justifiedEpoch : Epoch) (justifiedRoot : Root)
    (justifiedStateBalances : List Gwei) (finalizedEpoch : Epoch) : ForkChoiceM Root := do
  let deltas ← rotateVotes justifiedStateBalances
  onStore (Store.applyWeightChanges justifiedEpoch finalizedEpoch deltas)
  modify fun f => { f with balances := justifiedStateBalances }
  onStore (Store.head ctx justifiedRoot)

/-- The vote list grown until `index` is a position of it. -/
def growVotes (votes : List Vote) (index : ℕ) : List Vote :=
  votes ++ List.replicate (index + 1 - votes.length) Vote.fresh

/-- A vote after an attestation of its validator: it changes if it is newly
allocated or the attestation has a higher target epoch. -/
def updateVote (blockRoot : Root) (targetEpoch : Epoch) (vote : Vote) : Vote :=
  let newVote := vote.nextRoot = zeroHash ∧ vote.currentRoot = zeroHash
  if newVote ∨ vote.nextEpoch < targetEpoch then
    { vote with nextEpoch := targetEpoch, nextRoot := blockRoot }
  else vote

/-- The loop of `ProcessAttestation` over the validator indices. -/
def recordVotes (validatorIndices : List ℕ) (blockRoot : Root) (targetEpoch : Epoch)
    (votes : List Vote) : List Vote :=
  validatorIndices.foldl
    (fun votes index => (growVotes votes index).modify index (updateVote blockRoot targetEpoch))
    votes

def processAttestation (validatorIndices : List ℕ) (blockRoot : Root) (targetEpoch : Epoch) :
    ForkChoiceM Unit :=
  modify fun f => { f with votes := recordVotes validatorIndices blockRoot targetEpoch f.votes }

def processBlock (slot : Slot) (blockRoot parentRoot graffiti : Root)
    (justifiedEpoch finalizedEpoch : Epoch) : ForkChoiceM Unit :=
  onStore (Store.insert slot blockRoot parentRoot graffiti justifiedEpoch finalizedEpoch)

def prune (finalizedRoot : Root) : ForkChoiceM Unit :=
  onStore (Store.prune finalizedRoot)

def hasNode (f : ForkChoice) (root : Root) : Bool := f.store.nodesIndices.contains root

def hasParent (f : ForkChoice) (root : Root) : Bool :=
  match f.store.nodesIndices[root]? with
  | none => false
  | some i =>
    match f.store.nodes[i]? with
    | none => false
    | some n => n.parent.isSome

def isCanonical (f : ForkChoice) (root : Root) : Bool := f.store.canonicalNodes.getD root false

/-- The loop of `AncestorRoot` at the node with index `i`. -/
def ancestorRootFrom (ctx : Ctx) (nodes : List Node) (slot : Slot) :
    ℕ → ℕ → ℕ → Except Err Root
  | 0, _, _ => .error .diverged
  | fuel + 1, poll, i =>
    match nodes[i]? with
    | none => .error .nodeIndexOutOfRange
    | some n =>
      if slot < n.slot then
        if ctx.err poll then .error .contextCancelled
        else
          match n.parent with
          | none => .error .nodeIndexOutOfRange
          | some p => ancestorRootFrom ctx nodes slot fuel (poll + 1) p
      else .ok n.root

def ancestorRoot (ctx : Ctx) (f : ForkChoice) (root : Root) (slot : Slot) : Except Err Root :=
  match f.store.nodesIndices[root]? with
  | none => .error .nodeDoesNotExist
  | some i => ancestorRootFrom ctx f.store.nodes slot (f.store.nodes.length + 1) 0 i

end ForkChoice

/-- A call of a mutating operation with its arguments. -/
inductive Op where
  | processBlock (slot : Slot) (blockRoot parentRoot graffiti : Root)
      (justifiedEpoch finalizedEpoch : Epoch)
  | processAttestation (validatorIndices : List ℕ) (blockRoot : Root) (targetEpoch : Epoch)
  | prune (finalizedRoot : Root)
  | head (ctx : Ctx) (justifiedEpoch : Epoch) (justifiedRoot : Root)
      (justifiedStateBalances : List Gwei) (finalizedEpoch : Epoch)
  deriving DecidableEq, Repr

/-- The call itself; only `Head` returns a root. -/
def Op.call : Op → ForkChoiceM (Option Root)
  | .processBlock slot root parent graffiti je fe => do
    ForkChoice.processBlock slot root parent graffiti je fe
    pure none
  | .processAttestation indices root target => do
    ForkChoice.processAttestation indices root target
    pure none
  | .prune root => do
    ForkChoice.prune root
    pure none
  | .head ctx je root balances fe => do
    let h ← ForkChoice.head ctx je root balances fe
    pure (some h)

/-- Whether a call is one of `Head`. -/
def Op.isHead : Op → Bool
  | .head _ _ _ _ _ => true
  | _ => false

def ForkChoice.outcome (f : ForkChoice) (op : Op) : Except Err (Option Root) :=
  match op.call f with
  | .ok r _ => .ok r
  | .error e _ => .error e

/-- The object a call leaves behind, whether it failed or not. -/
def ForkChoice.step (f : ForkChoice) (op : Op) : ForkChoice :=
  match op.call f with
  | .ok _ f' => f'
  | .error _ f' => f'

/-- The object after a sequence of calls. -/
def ForkChoice.run (f : ForkChoice) (ops : List Op) : ForkChoice := ops.foldl ForkChoice.step f

end Vanguard.ProtoArray
