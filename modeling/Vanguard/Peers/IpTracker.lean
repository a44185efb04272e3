import Vanguard.Basic
import Vanguard.Lib.Run

/-!
The counts of peers per IP.

`Add` counts the IP of a new peer and of one that moves, and `Prune` counts all peers anew after
it has deleted some. Nothing takes back the count of the IP that a peer has left.
-/

namespace Vanguard.Peers

open List

/-- The 16 byte form of an IP, in which IPv4 addresses are mapped. -/
abbrev IP := BitVec 128

def IP.isLoopback (ip : IP) : Bool :=
  if ip.extractLsb' 32 96 = 0xffff#96 then ip.extractLsb' 24 8 = 127#8 else ip = 1#128

/-- A multiaddress, by what `manet.ToIP` makes of it. -/
abbrev Multiaddr := Option IP

abbrev PeerID := BitVec 256

inductive ConnState
  | disconnected | disconnecting | connected | connecting
  deriving DecidableEq

/-- What is read here of a peer; the address may be nil. -/
structure PeerData where
  pid : PeerID
  address : Option Multiaddr
  connState : ConnState
  badResponses : ℤ

def PeerData.hasIP (d : PeerData) (ip : IP) : Bool := d.address = some (some ip)

def sameIP (firstAddr secondAddr : Option Multiaddr) : Bool :=
  firstAddr.join.any fun firstIP => secondAddr.join = some firstIP

/-- The peers of the store, one entry for each peer ID, and the IPs that are counted: an entry of
the tracker is the number of times that its IP occurs. -/
structure Status where
  peers : List PeerData
  ipTracker : List IP

def newStatus : Status := ⟨[], []⟩

def colocationLimit : ℕ := 5

namespace Status

variable (p : Status) (pid : PeerID)

def peerData : Option PeerData := p.peers.find? fun d => d.pid = pid

def isfromBadIP : Bool :=
  match (p.peerData pid).bind (·.address) with
  | none => false
  | some none => true
  | some (some ip) => colocationLimit < p.ipTracker.count ip

def addIpToTracker : Status :=
  match ((p.peerData pid).bind (·.address)).join with
  | none => p
  | some ip => if ip.isLoopback then p else { p with ipTracker := ip :: p.ipTracker }

def tallyIPTracker : Status := { p with ipTracker := p.peers.filterMap (·.address.join) }

def add (address : Option Multiaddr) : Status :=
  match p.peerData pid with
  | some d =>
    let moved : Status :=
      { p with peers := p.peers.map fun e => if e.pid = pid then { e with address } else e }
    if sameIP d.address address then moved else moved.addIpToTracker pid
  | none => addIpToTracker { p with peers := p.peers ++ [⟨pid, address, .disconnected, 0⟩] } pid

/-- The store is ranged over in the given order, on which it depends which of the peers with
equally many bad responses are deleted. -/
def prune (maxPeers : ℕ) (threshold : ℤ) (order : List PeerID) : Status :=
  if p.peers.length ≤ maxPeers then p
  else
    let candidates := (order.filterMap p.peerData).filter fun d =>
      d.connState = .disconnected ∧ d.badResponses < threshold
    let peersToPrune := (candidates.insertionSort fun d e => d.badResponses ≤ e.badResponses).take
      (p.peers.length - maxPeers)
    tallyIPTracker { p with peers := p.peers.filter fun d => d.pid ∉ peersToPrune.map (·.pid) }

end Status

inductive Op
  | add (pid : PeerID) (address : Option Multiaddr)
  | prune (order : List PeerID)

variable {maxPeers : ℕ} {threshold : ℤ} {p : Status}

def step (maxPeers : ℕ) (threshold : ℤ) (p : Status) : Op → Status
  | .add pid address => p.add pid address
  | .prune order => p.prune maxPeers threshold order

def Valid (address : Option Multiaddr) : Prop :=
  ∃ ip, address = some (some ip) ∧ ip.isLoopback = false

/-- The address that is added is valid, and a known peer has its IP already. -/
def Stays (p : Status) : Op → Prop
  | .add pid address => Valid address ∧ ∀ d ∈ p.peers, d.pid = pid → d.address = address
  | .prune _ => True

structure Exact (p : Status) : Prop where
  valid : ∀ d ∈ p.peers, Valid d.address
  count : ∀ ip, p.ipTracker.count ip = p.peers.countP (·.hasIP ip)

theorem Exact.prune (h : Exact p) (order : List PeerID) :
    Exact (p.prune maxPeers threshold order) := by
  rw [Status.prune]
  split
  · exact h
  · refine ⟨fun d hd => h.valid d (mem_filter.mp hd).1, fun ip => ?_⟩
    rw [Status.tallyIPTracker, count_filterMap]
    refine countP_congr fun d hd => ?_
    simp [PeerData.hasIP, Option.join_eq_some_iff]

theorem Exact.add {pid : PeerID} {address : Option Multiaddr} (h : Exact p)
    (hok : Stays p (.add pid address)) : Exact (p.add pid address) := by
  obtain ⟨⟨ip, rfl, hloop⟩, hsame⟩ := hok
  rw [Status.add]
  split
  · next d hfound =>
    have hd := hsame d (mem_of_find?_eq_some hfound) (by simpa using find?_some hfound)
    have hpeers : (p.peers.map fun e =>
        if e.pid = pid then { e with address := some (some ip) } else e) = p.peers := by
      refine (map_congr_left fun e he => ?_).trans (map_id _)
      split
      next hpid => rw [← hsame e he hpid, id]
      · rfl
    rw [if_pos (by simp [sameIP, hd]), hpeers]
    exact h
  · next hfound =>
    have hnew : Status.peerData
        { p with peers := p.peers ++ [⟨pid, some (some ip), .disconnected, 0⟩] } pid =
          some ⟨pid, some (some ip), .disconnected, 0⟩ := by
      rw [Status.peerData] at hfound
      simp [Status.peerData, find?_append, hfound]
    simp only [Status.addIpToTracker, hnew, Option.bind_some, Option.join_some, hloop,
      Bool.false_eq_true, if_false]
    refine ⟨forall_mem_append.mpr ⟨h.valid, forall_mem_singleton.mpr ⟨ip, rfl, hloop⟩⟩, ?_⟩
    intro ip'
    rw [count_cons, h.count, countP_append, countP_singleton]
    simp [PeerData.hasIP]

/-- As long as every peer stays at its IP the counts are exact. -/
theorem ipTracker_exact (ops : List Op)
    (hops : Run.Admits (step maxPeers threshold) Stays newStatus ops) :
    let p := ops.foldl (step maxPeers threshold) newStatus
    (∀ ip, p.ipTracker.count ip = p.peers.countP (·.hasIP ip)) ∧
    ∀ pid, p.isfromBadIP pid = true ↔ ∃ d ip, p.peerData pid = some d ∧ d.hasIP ip ∧
      colocationLimit < p.peers.countP (·.hasIP ip) := by
  have h : Exact (ops.foldl (step maxPeers threshold) newStatus) := by
    refine Run.invariant (fun p op h hop => ?_) ⟨forall_mem_nil _, fun _ => rfl⟩ hops
    cases op with
    | add pid address => exact h.add hop
    | prune order => exact h.prune order
  refine ⟨h.count, fun pid => ?_⟩
  rw [Status.isfromBadIP]
  cases hfound : Status.peerData _ pid with
  | none => simp
  | some d =>
    obtain ⟨ip, hip, -⟩ := h.valid d (mem_of_find?_eq_some hfound)
    simp [hip, h.count, PeerData.hasIP]

def addAt (pid : PeerID) (ip : IP) : Op := .add pid (some (some ip))

/-- One of the two peers is pruned. -/
theorem ipTracker_exact_two :
    ([addAt 1 7, addAt 2 7, .prune [2, 1]].foldl (step 1 6) newStatus).ipTracker.count 7 = 1 :=
  (@ipTracker_exact 1 6 [addAt 1 7, addAt 2 7, .prune [2, 1]]
    ⟨⟨⟨7, rfl, by decide⟩, by decide⟩, ⟨⟨7, rfl, by decide⟩, by decide⟩, trivial, trivial⟩).1 7

/-- Six peers were at an IP and have moved. The only peer that is there now is a bad one. -/
theorem ipTracker_moved :
    let p := (([1, 2, 3, 4, 5, 6].flatMap fun pid => [addAt pid 7, addAt pid 8]) ++
      [addAt 9 7]).foldl (step 30 6) newStatus
    p.peers.countP (·.hasIP 7) = 1 ∧ p.ipTracker.count 7 = 7 ∧ p.isfromBadIP 9 = true := by
  decide +kernel

end Vanguard.Peers
