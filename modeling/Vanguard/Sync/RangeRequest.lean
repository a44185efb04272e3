import Vanguard.Basic

/-!
The client of a block range request.

A peer answers with a stream of blocks, each of which is compared with the block before it and
with the limits of the requested range. The first block has nothing before it, and its place on the
grid of requested slots is not tested.
-/

namespace Vanguard.Sync

open List BitVec

/-- `BeaconBlocksByRangeRequest` -/
structure RangeRequest where
  startSlot : Slot
  count : BitVec 64
  step : BitVec 64
  deriving DecidableEq, Repr

/-- `MAX_REQUEST_BLOCKS` -/
def maxRequestBlocks : ℕ := 1024

def errInvalidFetchedData : String := "invalid data returned from peer"

variable {β : Type} (slot : β → Slot) (blockProcessor : Option (List β → Except String Unit))
  (req : RangeRequest)

/-- The function `process`: the block is kept, and the processor, whose answer may depend on all
blocks it was given, is called if there is one. -/
def process (blocks : List β) : Except String Unit :=
  match blockProcessor with
  | none => .ok ()
  | some processor => processor blocks

def isSlotOutOfOrder (prevSlot blkSlot : Slot) : Bool :=
  if blkSlot ≤ prevSlot then true
  else req.step ≠ 0 ∧ (blkSlot - prevSlot) % req.step ≠ 0

/-- The loop of `SendBeaconBlocksByRangeRequest` from round `i` on. A stream is what its reads
give, a block or an error; it ends with `io.EOF`. -/
def readRange : ℕ → Slot → List β → List (Except String β) → Except String (List β)
  | _, _, blocks, [] => .ok blocks
  | _, _, _, .error err :: _ => .error err
  | i, prevSlot, blocks, .ok blk :: stream =>
    if req.count.toNat ≤ i ∨ maxRequestBlocks ≤ i then .error errInvalidFetchedData
    else if slot blk < req.startSlot ∨ req.startSlot + req.count * req.step ≤ slot blk then
      .error errInvalidFetchedData
    else if i ≠ 0 ∧ isSlotOutOfOrder req prevSlot (slot blk) then .error errInvalidFetchedData
    else
      match process blockProcessor (blocks ++ [blk]) with
      | .error err => .error err
      | .ok () => readRange (i + 1) (slot blk) (blocks ++ [blk]) stream

/-- `SendBeaconBlocksByRangeRequest` once the request is sent. -/
def sendBeaconBlocksByRangeRequest (stream : List (Except String β)) : Except String (List β) :=
  readRange slot blockProcessor req 0 0 [] stream

/-! ### The requested grid -/

/-- The slots `start + i * step` with `i < count`. -/
def OnGrid (s : Slot) : Prop :=
  ∃ i < req.count.toNat, s.toNat = req.startSlot.toNat + i * req.step.toNat

/-- What a client may expect of the blocks of an answer. -/
structure GridAnswer (blocks : List β) : Prop where
  length_le : blocks.length ≤ min req.count.toNat maxRequestBlocks
  increasing : blocks.Pairwise fun b b' => slot b < slot b'
  onGrid : ∀ b ∈ blocks, OnGrid req (slot b)

/-- A later slot at a multiple of the step. -/
def Stepped (s t : Slot) : Prop := s < t ∧ req.step.toNat ∣ t.toNat - s.toNat

section Answers

variable {slot blockProcessor req} {s t prevSlot : Slot} {i : ℕ} {blocks blks : List β}
  {stream : List (Except String β)} {blk : β}

instance : IsTrans Slot (Stepped req) where
  trans s t u hst htu := by
    obtain ⟨hlt, hdvd⟩ := hst
    obtain ⟨hlt', hdvd'⟩ := htu
    refine ⟨BitVec.lt_trans hlt hlt', ?_⟩
    have hsum : u.toNat - s.toNat = t.toNat - s.toNat + (u.toNat - t.toNat) := by bv_omega
    rw [hsum]
    exact Nat.dvd_add hdvd hdvd'

theorem OnGrid.stepped (hs : OnGrid req s) (hst : Stepped req s t)
    (hend : req.startSlot.toNat + req.count.toNat * req.step.toNat < 2 ^ 64)
    (ht : ¬ req.startSlot + req.count * req.step ≤ t) : OnGrid req t := by
  obtain ⟨i, -, hi⟩ := hs
  obtain ⟨hlt, j, hj⟩ := hst
  have hmul : (req.count * req.step).toNat = req.count.toNat * req.step.toNat := by
    rw [toNat_mul, Nat.mod_eq_of_lt (by omega)]
  rw [le_def, not_le, toNat_add_of_lt (by omega), hmul] at ht
  rw [lt_def] at hlt
  rw [Nat.mul_comm] at hj
  have hij : t.toNat = req.startSlot.toNat + (i + j) * req.step.toNat := by
    rw [Nat.add_mul]
    omega
  refine ⟨i + j, ?_, hij⟩
  apply Nat.lt_of_mul_lt_mul_right (a := req.step.toNat)
  omega

theorem stepped_of_inOrder (h : isSlotOutOfOrder req s t = false) (hstep : req.step ≠ 0) :
    Stepped req s t := by
  obtain ⟨hlt, hmod⟩ : s < t ∧ (t - s) % req.step = 0 := by
    simpa [isSlotOutOfOrder, show ¬ req.step = 0#64 from hstep] using h
  refine ⟨hlt, Nat.dvd_of_mod_eq_zero ?_⟩
  rw [← toNat_sub_of_le (BitVec.le_of_lt hlt), ← toNat_umod, hmod]
  rfl

theorem readRange_cons_ok
    (h : readRange slot blockProcessor req i prevSlot blocks (.ok blk :: stream) = .ok blks) :
    i < min req.count.toNat maxRequestBlocks ∧
      ¬ req.startSlot + req.count * req.step ≤ slot blk ∧
      (i ≠ 0 → isSlotOutOfOrder req prevSlot (slot blk) = false) ∧
      readRange slot blockProcessor req (i + 1) (slot blk) (blocks ++ [blk]) stream = .ok blks := by
  rw [readRange] at h
  split_ifs at h with hi hrange horder
  split at h
  · cases h
  · exact ⟨by omega, fun hle => hrange (.inr hle), by simpa using horder, h⟩

theorem readRange_later (hstep : req.step ≠ 0) (hi : i ≠ 0)
    (h : readRange slot blockProcessor req i prevSlot blocks stream = .ok blks) :
    ∃ later, blks = blocks ++ later ∧
      (later ≠ [] → i + later.length ≤ min req.count.toNat maxRequestBlocks) ∧
      (∀ b ∈ later, ¬ req.startSlot + req.count * req.step ≤ slot b) ∧
      (prevSlot :: later.map slot).IsChain (Stepped req) := by
  induction stream generalizing i prevSlot blocks with
  | nil =>
    obtain rfl := Except.ok.inj h
    exact ⟨[], by simp⟩
  | cons chunk stream ih =>
    cases chunk with
    | error err => cases h
    | ok blk =>
      obtain ⟨hlt, hend, horder, h⟩ := readRange_cons_ok h
      obtain ⟨later, rfl, hlen, hlater, hchain⟩ := ih (Nat.succ_ne_zero i) h
      refine ⟨blk :: later, by simp, fun _ => ?_, forall_mem_cons.mpr ⟨hend, hlater⟩, ?_⟩
      · rw [length_cons]
        rcases eq_or_ne later [] with rfl | hne
        · exact hlt
        · have := hlen hne
          omega
      · rw [map_cons, isChain_cons_cons]
        exact ⟨stepped_of_inOrder (horder hi) hstep, hchain⟩

end Answers

/-- The blocks of an accepted answer lie on the grid iff the first block sent does. Everything
else is tested. -/
theorem gridAnswer_iff_first_onGrid (hstep : req.step ≠ 0)
    (hend : req.startSlot.toNat + req.count.toNat * req.step.toNat < 2 ^ 64)
    (stream : List (Except String β)) (blks : List β)
    (hsend : sendBeaconBlocksByRangeRequest slot blockProcessor req stream = .ok blks) :
    GridAnswer slot req blks ↔ ∀ b, stream.head? = some (.ok b) → OnGrid req (slot b) := by
  rcases stream with _ | ⟨err | first, stream⟩
  · obtain rfl := Except.ok.inj hsend
    exact iff_of_true ⟨Nat.zero_le _, Pairwise.nil, by simp⟩ (by simp)
  · cases hsend
  · obtain ⟨hlt, -, -, hread⟩ := readRange_cons_ok hsend
    obtain ⟨later, rfl, hlen, hlater, hchain⟩ := readRange_later hstep one_ne_zero hread
    have hsteps : ((first :: later).map slot).Pairwise (Stepped req) := hchain.pairwise
    rw [pairwise_map] at hsteps
    constructor
    · rintro hgrid b hb
      obtain rfl : first = b := by simpa using hb
      exact hgrid.onGrid _ mem_cons_self
    · intro hfirst
      have hon := hfirst first rfl
      refine ⟨?_, hsteps.imp And.left, forall_mem_cons.mpr ⟨hon, fun b hb => ?_⟩⟩
      · rcases eq_or_ne later [] with rfl | hne
        · exact hlt
        · rw [length_append]
          exact hlen hne
      · exact hon.stepped ((pairwise_cons.mp hsteps).1 b hb) hend (hlater b hb)

/-- Slots 10, 12 and 14 are asked for. -/
def threeSlots : RangeRequest := ⟨10, 3, 2⟩

theorem gridAnswer_iff_first_onGrid_threeSlots :
    GridAnswer id threeSlots [10, 14] ↔
      ∀ b, [Except.ok 10, .ok 14].head? = some (.ok b : Except String Slot) → OnGrid threeSlots b :=
  gridAnswer_iff_first_onGrid id none threeSlots (by decide) (by decide) _ _ (by decide)

/-- Blocks at slots 11 and 13 are accepted. -/
theorem offGrid_accepted :
    sendBeaconBlocksByRangeRequest id none threeSlots [.ok 11, .ok 13] = .ok [11, 13] ∧
      ¬ GridAnswer id threeSlots [11, 13] := by
  refine ⟨by decide, ?_⟩
  intro h
  obtain ⟨i, -, hi⟩ := h.onGrid 11 (by simp)
  simp [threeSlots] at hi
  omega

end Vanguard.Sync
