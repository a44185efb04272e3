import Vanguard.Deposits.Cache

/-!
The intake of deposit logs by the powchain service.

A log advances three stores: the index of the last log, the deposit trie and the deposit cache.
The index comes first, before the data of the log is hashed. A log whose data cannot be hashed
leaves the index ahead of the other two, and no log is accepted from then on.
-/

namespace Vanguard.Deposits

open List DepositCache

open Beacon (depositContractTreeDepth)

/-- The data of a deposit as it stands in a log. -/
structure RawDepositData where
  publicKey : Bytes
  withdrawalCredentials : Bytes
  amount : BitVec 64
  signature : Bytes
  deriving DecidableEq, Repr

/-- `Deposit_Data.HashTreeRoot`, which fails on fields of other lengths. -/
def RawDepositData.hashTreeRoot (merkleize : RawDepositData → Root) (d : RawDepositData) :
    Option Root :=
  if d.publicKey.length ≠ 48 then none
  else if d.withdrawalCredentials.length ≠ 32 then none
  else if d.signature.length ≠ 96 then none
  else some (merkleize d)

/-- `gethTypes.Log`; `data` is the argument of `UnpackDepositLogData`. -/
structure DepositLog where
  data : Bytes
  blockNumber : BitVec 64
  deriving DecidableEq, Repr

inductive IntakeErr
  /-- `Could not unpack log` -/
  | unpack
  /-- `received incorrect merkle index: wanted %d but got %d` -/
  | incorrectMerkleIndex (wanted got : ℤ)
  /-- `Unable to determine hashed value of deposit` -/
  | hash
  /-- `invalid deposit index received: wanted %d but got %d` -/
  | invalidDepositIndex (wanted : ℕ) (got : ℤ)
  /-- An index out of range in `Insert`. -/
  | insert (e : TrieErr)
  /-- `Unable to generate merkle proof for deposit` -/
  | proof (e : TrieErr)
  /-- `unable to insert deposit into cache` -/
  | cache (e : Err)
  deriving DecidableEq, Repr

/-- What the powchain service keeps of the deposits; `ρ` is the type of the state that is built up
before genesis. -/
structure Service (ρ : Type) where
  lastReceivedMerkleIndex : ℤ
  depositTrie : SparseMerkleTrie
  depositCache : DepositCache RawDepositData
  chainstarted : Bool
  chainstartDeposits : List (Deposit RawDepositData)
  preGenesisState : ρ

/-- The functions of other components and libraries that the intake uses. -/
structure Powchain (ρ : Type) where
  /-- `hashutil.Hash` -/
  hash : Bytes → Root
  /-- The root of deposit data with fields of the right lengths. -/
  merkleize : RawDepositData → Root
  /-- `UnpackDepositLogData`, with the index as a number. -/
  unpackDepositLogData : Bytes → Option (RawDepositData × BitVec 64)
  /-- `processDeposit` on the state before genesis, with the deposit root and count. Its error is
  only logged. -/
  processDeposit : ρ → Root → ℕ → Deposit RawDepositData → ρ

section

variable {ρ : Type} (p : Powchain ρ)

def Powchain.hashTreeRoot (d : RawDepositData) : Option Root := d.hashTreeRoot p.merkleize

/-- `NewService`, with nothing stored on disk. -/
def Service.new (chainstarted : Bool) (preGenesisState : ρ) : Service ρ :=
  { lastReceivedMerkleIndex := -1
    depositTrie := newTrie p.hash depositContractTreeDepth
    depositCache := .new p.hash
    chainstarted
    chainstartDeposits := []
    preGenesisState }

/-- The last part of `ProcessDepositLog`: the deposit counts towards genesis, or is pending. -/
def Service.registerDeposit (s : Service ρ) (deposit : Deposit RawDepositData)
    (blockNumber : BitVec 64) (index : ℤ) : Service ρ :=
  let root := s.depositTrie.root p.hash
  if s.chainstarted then
    { s with depositCache := s.depositCache.insertPendingDeposit deposit blockNumber index root }
  else
    let chainstartDeposits := s.chainstartDeposits ++ [deposit]
    { s with
      chainstartDeposits
      preGenesisState :=
        p.processDeposit s.preGenesisState root chainstartDeposits.length deposit }

/-- The part of `ProcessDepositLog` that stores a deposit with its hash. -/
def Service.storeDeposit (s : Service ρ) (data : RawDepositData) (blockNumber : BitVec 64)
    (index : ℤ) (depositHash : Root) : Service ρ × Option IntakeErr :=
  if (s.depositTrie.numOfItems : ℤ) ≠ index then
    (s, some (.invalidDepositIndex s.depositTrie.numOfItems index))
  else
    match s.depositTrie.insert p.hash depositHash index with
    | .error e => (s, some (.insert e))
    | .ok trie =>
      let s := { s with depositTrie := trie }
      match trie.merkleProof p.hash index.toNat with
      | .error e => (s, some (.proof e))
      | .ok proof =>
        let deposit := { data, proof }
        match s.depositCache.insertDeposit deposit blockNumber index (trie.root p.hash) with
        | .error e => (s, some (.cache e))
        | .ok depositCache =>
          ({ s with depositCache }.registerDeposit p deposit blockNumber index, none)

def Service.processDepositLog (s : Service ρ) (log : DepositLog) : Service ρ × Option IntakeErr :=
  match p.unpackDepositLogData log.data with
  | none => (s, some .unpack)
  | some (data, merkleTreeIndex) =>
    let index := merkleTreeIndex.toInt
    if index ≤ s.lastReceivedMerkleIndex then (s, none)
    else if index ≠ s.lastReceivedMerkleIndex + 1 then
      (s, some (.incorrectMerkleIndex (s.lastReceivedMerkleIndex + 1) index))
    else
      let s := { s with lastReceivedMerkleIndex := index }
      match p.hashTreeRoot data with
      | none => (s, some .hash)
      | some depositHash => s.storeDeposit p data log.blockNumber index depositHash

def Service.processLogs (s : Service ρ) (logs : List DepositLog) : Service ρ :=
  logs.foldl (fun s log => (s.processDepositLog p log).1) s

/-- A log whose data, if it is that of the next deposit, can be hashed. The hash of the first
deposit is not the zero hash, which the trie takes for an empty trie. -/
def DepositLog.Sound (s : Service ρ) (log : DepositLog) : Prop :=
  ∀ data index, p.unpackDepositLogData log.data = some (data, index) →
    index.toInt = s.lastReceivedMerkleIndex + 1 →
    ∃ depositHash, p.hashTreeRoot data = some depositHash ∧
      (index.toInt = 0 → depositHash ≠ zeroHash)

/-- A container that records log `i`, with the root of the trie over the deposits up to it. -/
def Records (items : List Root) (i : ℕ) (log : DepositLog)
    (ctnr : DepositContainer RawDepositData) : Prop :=
  ∃ index g, p.unpackDepositLogData log.data = some (ctnr.deposit.data, index) ∧
    index.toInt = i ∧ ctnr.index = i ∧ ctnr.eth1BlockHeight = log.blockNumber ∧
    generateTrieFromItems p.hash (items.take (i + 1)) depositContractTreeDepth = .ok g ∧
    ctnr.depositRoot = g.root p.hash

end

/-! ### The three stores in step -/

variable {ρ : Type} {p : Powchain ρ} {hash : Bytes → Root} {t : SparseMerkleTrie}

theorem HoldsFirst.numOfItems {hs : List Root}
    (h : HoldsFirst hash hs hs.length t) (hne : hs ≠ [zeroHash]) : t.numOfItems = hs.length := by
  rw [SparseMerkleTrie.numOfItems, h.items]
  rcases eq_or_ne hs [] with rfl | hs'
  · simp
  · simp [hs', hne]

theorem SparseMerkleTrie.WellFormed.merkleProof_ok {m : SparseMerkleTrie} (h : m.WellFormed hash)
    (hdepth : m.depth ≤ 64) {x : ℕ} (hx : x < m.originalItems.length) :
    m.merkleProof hash x = .ok ((range m.depth).map (fun i =>
      Merkle.node (hashPair hash) (Merkle.leaves zeroHash m.originalItems) i ((x / 2 ^ i) ^^^ 1)) ++
      [encodeCount m.originalItems.length]) := by
  have hlong := h.holds.long 0 (Nat.zero_le _)
  rw [Nat.pow_zero, Nat.one_mul] at hlong
  rw [SparseMerkleTrie.merkleProof, if_neg (by omega), if_neg (by omega)]
  congr 2
  refine map_congr_left fun i hi => h.holds.read i ?_ _
  exact (mem_range.mp hi).le

theorem HoldsFirst.generated {hs : List Root}
    (h : HoldsFirst hash hs hs.length t) (hne : hs ≠ []) :
    ∃ g, generateTrieFromItems hash hs depositContractTreeDepth = .ok g ∧
      t.root hash = g.root hash := by
  have hlen := length_pos_iff.mpr hne
  obtain ⟨g, hgen, hg, hitems, hdepth⟩ := generateTrieFromItems_ok hash hne
    (show depositContractTreeDepth ≤ 100 by decide)
  refine ⟨g, hgen, h.wellFormed.root_congr hg (h.depth.trans hdepth.symm) ?_⟩
  rw [h.items, if_neg (by omega), take_length, hitems]

/-- The stores of the service hold the same deposits, those of the accepted logs. -/
structure InStep (p : Powchain ρ) (items : List Root) (accepted : List DepositLog)
    (s : Service ρ) : Prop where
  trie : HoldsFirst p.hash items items.length s.depositTrie
  listed : Listed p.hashTreeRoot items 0 s.depositCache.deposits
  last : s.lastReceivedMerkleIndex = (items.length : ℤ) - 1
  nonzero : items ≠ [zeroHash]
  count : accepted.length = items.length
  recorded : ∀ i ctnr, s.depositCache.deposits[i]? = some ctnr →
    ∃ log, accepted[i]? = some log ∧ Records p items i log ctnr

theorem inStep_new (p : Powchain ρ) (chainstarted : Bool) (preGenesisState : ρ) :
    InStep p [] [] (Service.new p chainstarted preGenesisState) where
  trie := holdsFirst_newTrie []
  listed := rfl
  last := rfl
  nonzero := by simp
  count := rfl
  recorded i ctnr h := by simp [Service.new, new] at h

section

variable {s : Service ρ} {items : List Root} {accepted : List DepositLog} {log : DepositLog}
  {v : Root} {ctnr : DepositContainer RawDepositData} {data : RawDepositData} {index : BitVec 64}

theorem registerDeposit_stores (s : Service ρ) (deposit : Deposit RawDepositData)
    (blockNumber : BitVec 64) (index : ℤ) :
    (s.registerDeposit p deposit blockNumber index).depositTrie = s.depositTrie ∧
    (s.registerDeposit p deposit blockNumber index).depositCache.deposits =
      s.depositCache.deposits ∧
    (s.registerDeposit p deposit blockNumber index).lastReceivedMerkleIndex =
      s.lastReceivedMerkleIndex := by
  rw [Service.registerDeposit]
  split <;> exact ⟨rfl, rfl, rfl⟩

theorem Records.append {i : ℕ}
    (h : Records p items i log ctnr) (hi : i < items.length) (v : Root) :
    Records p (items ++ [v]) i log ctnr := by
  obtain ⟨index, g, hrest⟩ := h
  refine ⟨index, g, ?_⟩
  rwa [take_append_of_le_length (by omega)]

section

variable (h : InStep p items accepted s)

include h

theorem InStep.numOfItems : s.depositTrie.numOfItems = items.length := h.trie.numOfItems h.nonzero

theorem InStep.length : s.depositCache.deposits.length = items.length := by
  have hlen := h.listed.length
  omega

theorem InStep.insert (v : Root) :
    ∃ trie, s.depositTrie.insert p.hash v items.length = .ok trie ∧
      HoldsFirst p.hash (items ++ [v]) (items ++ [v]).length trie := by
  obtain ⟨trie, hinsert, htrie⟩ := (h.trie.append [v]).insert_ok (x := items.length) le_rfl
    (v := v) (by simp)
  rw [Nat.max_eq_right (Nat.le_succ _)] at htrie
  exact ⟨trie, hinsert, by simpa using htrie⟩

end

def Service.stored (s : Service ρ) (trie : SparseMerkleTrie)
    (ctnr : DepositContainer RawDepositData) : Service ρ :=
  { s with
    lastReceivedMerkleIndex := ctnr.index
    depositTrie := trie
    depositCache := { s.depositCache with deposits := s.depositCache.deposits ++ [ctnr] } }

variable (h : InStep p items accepted s)

include h

theorem InStep.processDepositLog_eq
    (hlog : p.unpackDepositLogData log.data = some (data, index))
    (hindex : index.toInt = items.length) (hv : p.hashTreeRoot data = some v) :
    ∃ trie proof, HoldsFirst p.hash (items ++ [v]) (items ++ [v]).length trie ∧
      s.processDepositLog p log =
        ((s.stored trie ⟨⟨data, proof⟩, log.blockNumber, trie.root p.hash, items.length⟩
          ).registerDeposit p ⟨data, proof⟩ log.blockNumber items.length, none) := by
  obtain ⟨trie, hinsert, htrie⟩ := h.insert v
  have hitems : items.length < trie.originalItems.length := by
    rw [htrie.items]
    simp
  obtain ⟨proof, hproof⟩ : ∃ proof, trie.merkleProof p.hash items.length = .ok proof :=
    ⟨_, htrie.wellFormed.merkleProof_ok (by rw [htrie.depth]; decide) hitems⟩
  have hcache := insertDeposit_eq h.listed.indices ⟨data, proof⟩ log.blockNumber items.length
    (trie.root p.hash)
  have hlast := h.last
  rw [if_neg (by rw [not_not, h.length])] at hcache
  refine ⟨trie, proof, htrie, ?_⟩
  rw [Service.processDepositLog, hlog]
  simp only
  rw [hindex, if_neg (by omega), if_neg (by omega), hv]
  simp only
  rw [Service.storeDeposit, if_neg (by rw [not_not]; exact_mod_cast h.numOfItems)]
  simp only [hinsert, Int.toNat_natCast, hproof, hcache]
  rfl

theorem InStep.records_stored {trie : SparseMerkleTrie}
    (hnew : Records p (items ++ [v]) items.length log ctnr)
    (i : ℕ) (c : DepositContainer RawDepositData)
    (hc : (s.stored trie ctnr).depositCache.deposits[i]? = some c) :
    ∃ log', (accepted ++ [log])[i]? = some log' ∧ Records p (items ++ [v]) i log' c := by
  have hlen := h.length
  have hi := (List.getElem?_eq_some_iff.mp hc).1
  simp only [Service.stored, length_append, length_singleton] at hc hi
  rcases Nat.lt_or_ge i s.depositCache.deposits.length with hlt | hge
  · rw [getElem?_append_left hlt] at hc
    obtain ⟨log', hlog', hrec⟩ := h.recorded i c hc
    refine ⟨log', ?_, hrec.append (by omega) v⟩
    rw [getElem?_append_left (List.getElem?_eq_some_iff.mp hlog').1, hlog']
  · obtain rfl : i = items.length := by omega
    rw [← hlen, getElem?_concat_length, Option.some.injEq] at hc
    subst hc
    exact ⟨log, by rw [← h.count, getElem?_concat_length], hnew⟩

theorem InStep.processDepositLog_next
    (hlog : p.unpackDepositLogData log.data = some (data, index))
    (hindex : index.toInt = items.length) (hv : p.hashTreeRoot data = some v)
    (hzero : index.toInt = 0 → v ≠ zeroHash) : (s.processDepositLog p log).2 = none ∧
      InStep p (items ++ [v]) (accepted ++ [log]) (s.processDepositLog p log).1 := by
  obtain ⟨trie, proof, htrie, hrun⟩ := h.processDepositLog_eq hlog hindex hv
  rw [hrun]
  obtain ⟨g, hgen, hroot⟩ := htrie.generated (by simp)
  obtain ⟨hreg₁, hreg₂, hreg₃⟩ := registerDeposit_stores (p := p)
    (s.stored trie ⟨⟨data, proof⟩, log.blockNumber, trie.root p.hash, items.length⟩)
    ⟨data, proof⟩ log.blockNumber items.length
  refine ⟨rfl, ?_, ?_, ?_, ?_, by simp [h.count], ?_⟩
  · rw [hreg₁]
    exact htrie
  · rw [hreg₂]
    exact h.listed.append rfl hv
  · rw [hreg₃]
    simp [Service.stored]
  · intro heq
    obtain ⟨hnil, hsingle⟩ := (append_eq_singleton_iff.mp heq).resolve_right (by simp)
    subst hnil
    exact hzero hindex (singleton_inj.mp hsingle)
  · rw [hreg₂]
    refine h.records_stored ⟨index, g, hlog, hindex, rfl, rfl, ?_, hroot⟩
    rw [take_of_length_le (by simp)]
    exact hgen

theorem InStep.processDepositLog_other
    (hother : ∀ data index, p.unpackDepositLogData log.data = some (data, index) →
      index.toInt ≠ items.length) :
    (s.processDepositLog p log).1 = s := by
  have hlast := h.last
  rw [Service.processDepositLog]
  split
  next => rfl
  next data index hlog =>
    have hne := hother data index hlog
    simp only
    split
    · rfl
    · rw [if_pos (by omega)]

theorem InStep.processDepositLog (hlog : DepositLog.Sound p s log) :
    ∃ items' accepted', accepted'.Sublist (accepted ++ [log]) ∧
      InStep p items' accepted' (s.processDepositLog p log).1 := by
  rcases Classical.em (∃ data index, p.unpackDepositLogData log.data = some (data, index) ∧
      index.toInt = items.length) with ⟨data, index, hunpack, hindex⟩ | hother
  · obtain ⟨v, hv, hzero⟩ := hlog data index hunpack (by have := h.last; omega)
    exact ⟨_, _, .refl _, (h.processDepositLog_next hunpack hindex hv hzero).2⟩
  · rw [h.processDepositLog_other fun data index hunpack hindex =>
      hother ⟨data, index, hunpack, hindex⟩]
    exact ⟨items, accepted, sublist_append_left _ _, h⟩

theorem InStep.processLogs {logs : List DepositLog}
    (hlogs : Run.Admits (fun s log => (Service.processDepositLog p s log).1)
      (DepositLog.Sound p) s logs) :
    ∃ items' accepted', accepted'.Sublist (accepted ++ logs) ∧
      InStep p items' accepted' (s.processLogs p logs) := by
  induction logs generalizing s items accepted with
  | nil => exact ⟨items, accepted, by simp, h⟩
  | cons log logs ih =>
    obtain ⟨items₁, accepted₁, hsub₁, h₁⟩ := h.processDepositLog hlogs.1
    obtain ⟨items', accepted', hsub, h'⟩ := ih h₁ hlogs.2
    have hall := hsub.trans (hsub₁.append (.refl logs))
    rw [append_assoc, singleton_append] at hall
    exact ⟨items', accepted', hall, h'⟩

end

/-- After every sequence of logs in which the next deposit can be hashed, the trie, the cache and
the last index are in step, the cache holds the accepted logs in order, each with the root of its
trie, a call that fails changes nothing, and the next log is accepted. -/
theorem deposit_intake_in_step (p : Powchain ρ) (chainstarted : Bool) (preGenesisState : ρ)
    (logs : List DepositLog) (hlogs : Run.Admits (fun s log => (s.processDepositLog p log).1)
      (DepositLog.Sound p) (Service.new p chainstarted preGenesisState) logs) (s : Service ρ)
    (hs : s = (Service.new p chainstarted preGenesisState).processLogs p logs) :
    (∃ (items : List Root) (accepted : List DepositLog), accepted.Sublist logs ∧
      (s.depositCache.allDeposits none).mapM (fun d => p.hashTreeRoot d.data) = some items ∧
      s.depositTrie.numOfItems = accepted.length ∧
      s.depositCache.deposits.length = accepted.length ∧
      s.lastReceivedMerkleIndex + 1 = accepted.length ∧
      ∀ i ctnr, s.depositCache.deposits[i]? = some ctnr →
        ∃ log, accepted[i]? = some log ∧ Records p items i log ctnr) ∧
    (∀ log : DepositLog, DepositLog.Sound p s log → ∀ e, (s.processDepositLog p log).2 = some e →
      (s.processDepositLog p log).1 = s) ∧
    ∀ log data index depositHash, p.unpackDepositLogData log.data = some (data, index) →
      index.toInt = s.depositCache.deposits.length → p.hashTreeRoot data = some depositHash →
      (index.toInt = 0 → depositHash ≠ zeroHash) →
      (s.processDepositLog p log).2 = none ∧
      ∃ ctnr, (s.processDepositLog p log).1.depositCache.deposits =
        s.depositCache.deposits ++ [ctnr] ∧ ctnr.deposit.data = data := by
  obtain ⟨items, accepted, hsub, h⟩ := (inStep_new p chainstarted preGenesisState).processLogs hlogs
  rw [← hs] at h
  have hcount := h.count
  have hlast := h.last
  have hmap := h.listed.mapM
  rw [drop_zero] at hmap
  refine ⟨⟨items, accepted, hsub, ?_, by rw [h.numOfItems, hcount], by rw [h.length, hcount],
    by omega, h.recorded⟩, ?_, ?_⟩
  · rw [allDeposits, filter_upTo_none, hmap]
  · intro log hlog e he
    refine h.processDepositLog_other fun data index hunpack hindex => ?_
    obtain ⟨v, hv, hzero⟩ := hlog data index hunpack (by omega)
    rw [(h.processDepositLog_next hunpack hindex hv hzero).1] at he
    cases he
  · intro log data index v hunpack hindex hv hzero
    rw [h.length] at hindex
    obtain ⟨trie, proof, -, hrun⟩ := h.processDepositLog_eq hunpack hindex hv
    rw [hrun]
    refine ⟨rfl, ⟨⟨data, proof⟩, log.blockNumber, trie.root p.hash, items.length⟩, ?_, rfl⟩
    exact (registerDeposit_stores _ _ _ _).2.1

/-- Logs whose first byte is the index; with a second byte the signature is a byte short. -/
def shortLogs : Powchain Unit where
  hash := plainHash
  merkleize d := BitVec.ofNat 256 (d.amount.toNat + 1)
  unpackDepositLogData
    | i :: rest => some (⟨replicate 48 0, replicate 32 0, BitVec.ofNat 64 i.toNat,
        replicate (96 - rest.length) 0⟩, BitVec.ofNat 64 i.toNat)
    | [] => none
  processDeposit _ _ _ _ := ()

/-- A deposit that comes again and one that comes too early are not hashed. -/
theorem deposit_intake_in_step_repeated :
    ∃ s : Service Unit, s = (Service.new shortLogs true ()).processLogs shortLogs
        [⟨[0], 7⟩, ⟨[], 7⟩, ⟨[0, 0], 7⟩, ⟨[2, 0], 9⟩, ⟨[1], 8⟩] ∧
      s.depositTrie.numOfItems = s.depositCache.deposits.length ∧
      s.lastReceivedMerkleIndex + 1 = s.depositCache.deposits.length := by
  refine ⟨_, rfl, ?_⟩
  obtain ⟨items, accepted, -, -, htrie, hcache, hlast, -⟩ := (deposit_intake_in_step shortLogs true
    () [⟨[0], 7⟩, ⟨[], 7⟩, ⟨[0, 0], 7⟩, ⟨[2, 0], 9⟩, ⟨[1], 8⟩] (by
      refine ⟨?_, ?_, ?_, ?_, ?_, trivial⟩
      all_goals
        intro data index hunpack hnext
        simp only [shortLogs, Option.some.injEq, Prod.mk.injEq, reduceCtorEq] at hunpack
      all_goals
        obtain ⟨rfl, rfl⟩ := hunpack
        first
        | exact ⟨_, rfl, by decide⟩
        | exact absurd hnext (by decide)) _ rfl).1
  exact ⟨htrie.trans hcache.symm, hlast.trans (by rw [hcache])⟩

/-- A log whose signature is a byte short is refused, but its index counts as received. The same
deposit in a correct form is then skipped, and the next one is refused for good. -/
theorem unhashable_log_stops_intake :
    let s := (Service.new shortLogs true ()).processLogs shortLogs [⟨[0, 0], 7⟩]
    ((Service.new shortLogs true ()).processDepositLog shortLogs ⟨[0, 0], 7⟩).2 = some .hash ∧
    s.depositTrie.numOfItems = 0 ∧ s.depositCache.deposits = [] ∧
    s.lastReceivedMerkleIndex + 1 = 1 ∧
    (s.processDepositLog shortLogs ⟨[0], 7⟩).2 = none ∧
    (s.processDepositLog shortLogs ⟨[0], 7⟩).1.depositCache.deposits = [] ∧
    (s.processDepositLog shortLogs ⟨[1], 8⟩).2 = some (.invalidDepositIndex 0 1) := by
  decide

end Vanguard.Deposits
