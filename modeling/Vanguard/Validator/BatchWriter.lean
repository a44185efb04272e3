import Vanguard.Validator.AttesterSafety

/-!
Batched saving of attestation records.

Callers of `SaveAttestationForPubKey` put a record into a channel, subscribe to
the feed of flush results and return the first result they get. One goroutine,
`batchAttestationWrites`, moves records from the channel to a queue and flushes
the queue to the database. A caller takes any result for its own, so it may be
told of the flush of an earlier batch while its record is still in the channel.
-/

namespace Vanguard.Validator

open Run List

def attestationBatchCapacity : ℕ := 2048

/-- Where a caller of `SaveAttestationForPubKey` is. -/
inductive CallerPhase where
  | idle
  /-- The record is in the channel. -/
  | sent (r : AttestationRecord)
  /-- The caller has subscribed and waits for a response. -/
  | waiting (r : AttestationRecord)
  /-- A response is in the caller's channel. -/
  | notified (r : AttestationRecord) (err : Option Err)
  | returned (r : AttestationRecord) (err : Option Err)
  deriving DecidableEq

/-- Where `batchAttestationWrites` is. From `flushing` until it is back in
`selecting`, `batchedAttestationsFlushInProgress` is set; since only this
goroutine looks at it, it is never set when it is tested. -/
inductive WriterPhase where
  | selecting
  /-- In `flushAttestationRecords`, before the transaction. -/
  | flushing (records : List AttestationRecord)
  /-- After the transaction, before the feed is told. -/
  | flushed (err : Option Err)
  | stopped
  deriving DecidableEq

structure BatchStore (ι : Type) where
  db : DB
  /-- `batchedAttestationsChan` -/
  chan : List AttestationRecord
  /-- `batchedAttestations` -/
  queue : List AttestationRecord
  writer : WriterPhase
  callers : ι → CallerPhase

inductive Action (ι : Type) where
  | send (i : ι) (r : AttestationRecord)
  | subscribe (i : ι)
  | receive (i : ι)
  /-- The goroutine receives from the channel. -/
  | take
  /-- The ticker fires. -/
  | tick
  | commit
  /-- The transaction fails. -/
  | fail
  /-- `batchAttestationsFlushedFeed.Send` -/
  | notify
  /-- The context is done. -/
  | stop

/-- The feed sends a response to a caller that has subscribed. The buffer of the
caller's channel holds one response, so that a second one changes nothing. -/
def CallerPhase.notify (err : Option Err) : CallerPhase → CallerPhase
  | .waiting r => .notified r err
  | p => p

namespace DB

/-- The record was committed by `saveAttestationRecords`. -/
def Holds (db : DB) (r : AttestationRecord) : Prop := ∃ recs, Recorded db recs ∧ r ∈ recs

/-- `CheckSlashableAttestation` compares every vote of the key with the record:
it refuses a vote that surrounds the record or that the record surrounds, and a
vote for the same target whose root differs from the last one saved for it. -/
def Sees (db : DB) (r : AttestationRecord) : Prop :=
  (∀ root a, isSurround a ⟨r.source, r.target⟩ ∨ isSurround ⟨r.source, r.target⟩ a →
    (db.checkSlashableAttestation false r.pubKey root a).2 ≠ none) ∧
  ∃ last, (db.rootsIndex r.pubKey)[Bytes.ofUint64 r.target]? = some last ∧
    ∀ root a, a.target = r.target → signingRootsDiffer last root →
      (db.checkSlashableAttestation false r.pubKey root a).2 ≠ none

theorem Holds.sees {db : DB} {r : AttestationRecord} (h : db.Holds r) : db.Sees r := by
  obtain ⟨recs, hrec, hr⟩ := h
  have hmem : r ∈ ofKey r.pubKey recs := mem_ofKey.mpr ⟨hr, rfl⟩
  have hiff := checkSlashableAttestation_iff (hrec.complete r.pubKey) (hrec.source r.pubKey)
    (hrec.target r.pubKey)
  constructor
  · intro root a hsurround hpass
    obtain ⟨-, hsource, htarget⟩ := (hiff root a).mp hpass
    rcases hsurround with hover | hunder
    · rw [hsource r.source r.target (mem_map.mpr ⟨r, hmem, rfl⟩)] at hover
      cases hover
    · rw [htarget r.target r.source (mem_map.mpr ⟨r, hmem, rfl⟩)] at hunder
      cases hunder
  · obtain ⟨last, -, -, hget⟩ := hrec.exists_root hmem
    refine ⟨last.signingRoot, hget, fun root a ht hdiffer hpass => ?_⟩
    obtain ⟨hroots, -, -⟩ := (hiff root a).mp hpass
    rw [hroots last.signingRoot (by rw [ht]; exact hget)] at hdiffer
    cases hdiffer

end DB

namespace BatchStore

variable {ι : Type} [DecidableEq ι]

/-- The queue is handed to `flushAttestationRecords`. -/
def flush (s : BatchStore ι) : BatchStore ι :=
  { s with writer := .flushing s.queue, queue := [] }

/-- One step of one of the parties; the state stays as it is if the step is not
possible. -/
def step (s : BatchStore ι) : Action ι → BatchStore ι
  | .send i r =>
    match s.callers i with
    | .idle | .returned _ _ =>
      if s.chan.length < attestationBatchCapacity then
        { s with chan := s.chan ++ [r], callers := Function.update s.callers i (.sent r) }
      else s
    | _ => s
  | .subscribe i =>
    match s.callers i with
    | .sent r => { s with callers := Function.update s.callers i (.waiting r) }
    | _ => s
  | .receive i =>
    match s.callers i with
    | .notified r err => { s with callers := Function.update s.callers i (.returned r err) }
    | _ => s
  | .take =>
    match s.writer, s.chan with
    | .selecting, v :: rest =>
      let s' := { s with chan := rest, queue := s.queue ++ [v] }
      if attestationBatchCapacity ≤ s'.queue.length then s'.flush else s'
    | _, _ => s
  | .tick =>
    match s.writer with
    | .selecting => if 0 < s.queue.length then s.flush else s
    | _ => s
  | .commit =>
    match s.writer with
    | .flushing records =>
      { s with db := s.db.saveAttestationRecords records, writer := .flushed none }
    | _ => s
  | .fail =>
    match s.writer with
    | .flushing records =>
      { s with queue := s.queue ++ records, writer := .flushed (some .transaction) }
    | _ => s
  | .notify =>
    match s.writer with
    | .flushed err =>
      { s with callers := fun i => (s.callers i).notify err, writer := .selecting }
    | _ => s
  | .stop =>
    match s.writer with
    | .selecting => { s with writer := .stopped }
    | _ => s

/-- The store that `NewKVStore` opens, with no call under way. -/
def opened (db : DB) : BatchStore ι where
  db := db
  chan := []
  queue := []
  writer := .selecting
  callers _ := .idle

def run (s : BatchStore ι) (acts : List (Action ι)) : BatchStore ι := acts.foldl step s

/-! ### Durability -/

/-- Every caller that has returned without an error finds its record in the
database. -/
def Durable (s : BatchStore ι) : Prop :=
  ∀ i r, s.callers i = .returned r none → s.db.Holds r ∧ s.db.Sees r

/-- When the feed reports a success, no caller that has subscribed still has its
record in the channel. -/
def NoneLeftBehind (s : BatchStore ι) : Action ι → Prop
  | .notify => s.writer = .flushed none → ∀ r ∈ s.chan, ∀ i, s.callers i ≠ .waiting r
  | _ => True

instance [Fintype ι] (s : BatchStore ι) (a : Action ι) : Decidable (NoneLeftBehind s a) := by
  cases a <;> unfold NoneLeftBehind <;> infer_instance

def batch (s : BatchStore ι) : List AttestationRecord :=
  match s.writer with
  | .flushing records => records
  | _ => []

end BatchStore

/-- The record a caller has sent and has no response for. -/
def CallerPhase.pending : CallerPhase → Option AttestationRecord
  | .sent r => some r
  | .waiting r => some r
  | _ => none

/-- The record a caller takes to be saved. -/
def CallerPhase.confirmed : CallerPhase → Option AttestationRecord
  | .notified r none => some r
  | .returned r none => some r
  | _ => none

namespace BatchStore

section Steps

variable {ι : Type} {s : BatchStore ι} {recs records : List AttestationRecord}

/-- A pending record is on its way or in the database, and what a caller takes to
be saved is in the database. -/
structure Tracked (s : BatchStore ι) (recs : List AttestationRecord) : Prop where
  recorded : Recorded s.db recs
  queue_flushing : ∀ records, s.writer = .flushing records → s.queue = []
  queue_flushed : s.writer = .flushed none → s.queue = []
  pending : ∀ i r, (s.callers i).pending = some r → r ∈ s.chan ++ s.queue ++ s.batch ++ recs
  confirmed : ∀ i r, (s.callers i).confirmed = some r → r ∈ recs

theorem tracked_opened {db : DB} (h : Recorded db recs) :
    (opened db : BatchStore ι).Tracked recs where
  recorded := h
  queue_flushing _ _ := rfl
  queue_flushed _ := rfl
  pending i r hr := by cases hr
  confirmed i r hr := by cases hr

section

variable (h : s.Tracked recs)

include h

theorem Tracked.update [DecidableEq ι] (i : ι) (sent : List AttestationRecord) {p : CallerPhase}
    (hpending : ∀ r, p.pending = some r → (s.callers i).pending = some r ∨ r ∈ sent)
    (hconfirmed : ∀ r, p.confirmed = some r → (s.callers i).confirmed = some r) :
    Tracked { s with chan := s.chan ++ sent, callers := Function.update s.callers i p } recs where
  recorded := h.recorded
  queue_flushing := h.queue_flushing
  queue_flushed := h.queue_flushed
  pending j r hr := by
    have hr : (s.callers j).pending = some r ∨ r ∈ sent := by
      by_cases hj : j = i
      · subst hj
        exact hpending r (by simpa using hr)
      · exact .inl (by simpa [hj] using hr)
    have hmem := hr.imp_left (h.pending j r)
    simp only [mem_append, batch] at hmem ⊢
    tauto
  confirmed j r hr := by
    by_cases hj : j = i
    · subst hj
      exact h.confirmed j r (hconfirmed r (by simpa using hr))
    · exact h.confirmed j r (by simpa [hj] using hr)

theorem Tracked.send [DecidableEq ι] (i : ι) (r : AttestationRecord) :
    Tracked { s with chan := s.chan ++ [r], callers := Function.update s.callers i (.sent r) }
      recs :=
  h.update i [r] (by simp [CallerPhase.pending, eq_comm]) (by simp [CallerPhase.confirmed])

theorem Tracked.flush (hwriter : s.writer = .selecting) :
    s.flush.Tracked recs where
  recorded := h.recorded
  queue_flushing _ _ := rfl
  queue_flushed _ := rfl
  pending i r hr := by
    have hmem := h.pending i r hr
    simp only [mem_append, batch, hwriter, BatchStore.flush] at hmem ⊢
    tauto
  confirmed := h.confirmed

theorem Tracked.take (hwriter : s.writer = .selecting)
    {v : AttestationRecord} {rest : List AttestationRecord} (hchan : s.chan = v :: rest) :
    Tracked { s with chan := rest, queue := s.queue ++ [v] } recs where
  recorded := h.recorded
  queue_flushing records hw := by
    rw [hwriter] at hw
    cases hw
  queue_flushed hw := by
    rw [hwriter] at hw
    cases hw
  pending i r hr := by
    have hmem := h.pending i r hr
    simp only [mem_append, batch, hwriter, hchan, mem_cons, not_mem_nil]
      at hmem ⊢
    tauto
  confirmed := h.confirmed

end

variable (h : s.Tracked recs)

include h

theorem Tracked.commit
    (hwriter : s.writer = .flushing records) :
    Tracked { s with db := s.db.saveAttestationRecords records, writer := .flushed none }
      (recs ++ records) where
  recorded := h.recorded.saveAll records
  queue_flushing _ hw := by cases hw
  queue_flushed _ := h.queue_flushing records hwriter
  pending i r hr := by
    have hmem := h.pending i r hr
    simp only [mem_append, batch, hwriter, not_mem_nil] at hmem ⊢
    tauto
  confirmed i r hr := mem_append_left _ (h.confirmed i r hr)

theorem Tracked.fail
    (hwriter : s.writer = .flushing records) :
    Tracked { s with queue := s.queue ++ records, writer := .flushed (some .transaction) }
      recs where
  recorded := h.recorded
  queue_flushing _ hw := by cases hw
  queue_flushed hw := by cases hw
  pending i r hr := by
    have hmem := h.pending i r hr
    simp only [mem_append, batch, hwriter, not_mem_nil] at hmem ⊢
    tauto
  confirmed := h.confirmed

theorem Tracked.notify {err : Option Err} (hwriter : s.writer = .flushed err)
    (hleft : err = none → ∀ r ∈ s.chan, ∀ i, s.callers i ≠ .waiting r) :
    Tracked { s with callers := fun i => (s.callers i).notify err, writer := .selecting } recs where
  recorded := h.recorded
  queue_flushing _ hw := by cases hw
  queue_flushed hw := by cases hw
  pending i r hr := by
    have hsame : (s.callers i).pending = some r := by
      cases hi : s.callers i <;> simp [hi, CallerPhase.notify, CallerPhase.pending] at hr ⊢
      exact hr
    simpa [batch, hwriter] using h.pending i r hsame
  confirmed i r hr := by
    cases hi : s.callers i with
    | waiting r' =>
      cases err with
      | some e => simp [hi, CallerPhase.notify, CallerPhase.confirmed] at hr
      | none =>
        obtain rfl : r' = r := by
          simpa [hi, CallerPhase.notify, CallerPhase.confirmed] using hr
        -- the batch is committed and the queue is empty, so only the channel is left
        have hmem := h.pending i r' (by simp [hi, CallerPhase.pending])
        have hchan : r' ∉ s.chan := fun hr' => hleft rfl r' hr' i hi
        simpa [batch, hwriter, h.queue_flushed hwriter, hchan] using hmem
    | _ => exact h.confirmed i r (by simpa [hi, CallerPhase.notify] using hr)

theorem Tracked.stop (hwriter : s.writer = .selecting) :
    Tracked { s with writer := .stopped } recs where
  recorded := h.recorded
  queue_flushing _ hw := by cases hw
  queue_flushed hw := by cases hw
  pending i r hr := by simpa [batch, hwriter] using h.pending i r hr
  confirmed := h.confirmed

theorem Tracked.step [DecidableEq ι] {a : Action ι} (hok : NoneLeftBehind s a) :
    ∃ recs', (s.step a).Tracked recs' := by
  cases a with
  | send i r =>
    rw [BatchStore.step]
    split
    · split
      · exact ⟨_, h.send i r⟩
      · exact ⟨_, h⟩
    · split
      · exact ⟨_, h.send i r⟩
      · exact ⟨_, h⟩
    · exact ⟨_, h⟩
  | subscribe i =>
    rw [BatchStore.step]
    split
    · next r hi =>
        have hnext := h.update i [] (p := .waiting r) (by simp [hi, CallerPhase.pending])
          (by simp [CallerPhase.confirmed])
        exact ⟨_, append_nil s.chan ▸ hnext⟩
    · exact ⟨_, h⟩
  | receive i =>
    rw [BatchStore.step]
    split
    · next r err hi =>
        have hnext := h.update i [] (p := .returned r err) (by simp [CallerPhase.pending])
          (by cases err <;> simp [hi, CallerPhase.confirmed])
        exact ⟨_, append_nil s.chan ▸ hnext⟩
    · exact ⟨_, h⟩
  | take =>
    rw [BatchStore.step]
    split
    · next v rest hwriter hchan =>
        have htake := h.take hwriter hchan
        dsimp only
        split
        · exact ⟨_, htake.flush hwriter⟩
        · exact ⟨_, htake⟩
    · exact ⟨_, h⟩
  | tick =>
    rw [BatchStore.step]
    split
    · next hwriter =>
        split
        · exact ⟨_, h.flush hwriter⟩
        · exact ⟨_, h⟩
    · exact ⟨_, h⟩
  | commit =>
    rw [BatchStore.step]
    split
    · next hwriter => exact ⟨_, h.commit hwriter⟩
    · exact ⟨_, h⟩
  | fail =>
    rw [BatchStore.step]
    split
    · next hwriter => exact ⟨_, h.fail hwriter⟩
    · exact ⟨_, h⟩
  | notify =>
    rw [BatchStore.step]
    split
    · next err hwriter =>
        exact ⟨_, h.notify hwriter fun herr => hok (herr ▸ hwriter)⟩
    · exact ⟨_, h⟩
  | stop =>
    rw [BatchStore.step]
    split
    · next hwriter => exact ⟨_, h.stop hwriter⟩
    · exact ⟨_, h⟩

theorem Tracked.durable : s.Durable := by
  intro i r hi
  have hholds : s.db.Holds r :=
    ⟨recs, h.recorded, h.confirmed i r (by simp [hi, CallerPhase.confirmed])⟩
  exact ⟨hholds, hholds.sees⟩

end Steps

section Runs

variable {ι : Type} [DecidableEq ι]

/-- If no caller that waits for a response is left with its record in the channel
when the feed reports a success, then a call returns without an error only after
its record was committed. -/
theorem save_durable_of_noneLeftBehind {db : DB} {recs : List AttestationRecord}
    (hdb : Recorded db recs) (acts : List (Action ι))
    (hacts : Admits step NoneLeftBehind (opened db) acts) : ((opened db).run acts).Durable := by
  have hrun : ∃ recs', ((opened db).run acts).Tracked recs' :=
    Run.invariant (I := fun s : BatchStore ι => ∃ recs', s.Tracked recs')
      (fun s a hs hok => hs.elim fun _ h => h.step hok) ⟨recs, tracked_opened hdb⟩ hacts
  obtain ⟨recs', h⟩ := hrun
  exact h.durable

end Runs

/-- The second call is sent before the ticker fires. -/
def twoSaves : List (Action (Fin 2)) :=
  [.send 0 ⟨7, 0, 1, 5⟩, .send 1 ⟨8, 0, 1, 6⟩, .subscribe 0, .subscribe 1, .take, .take, .tick,
    .commit, .notify, .receive 0, .receive 1]

theorem save_durable_of_twoSaves :
    ((opened .empty).run twoSaves).callers 1 = .returned ⟨8, 0, 1, 6⟩ none ∧
      ((opened .empty).run twoSaves).Durable :=
  ⟨by decide +kernel, save_durable_of_noneLeftBehind recorded_empty twoSaves (by decide +kernel)⟩

/-- The second call is sent while the batch of the first one is flushed. -/
def lateSave : List (Action (Fin 2)) :=
  [.send 0 ⟨7, 0, 1, 5⟩, .take, .tick, .subscribe 0, .send 1 ⟨8, 0, 1, 6⟩, .subscribe 1,
    .commit, .notify, .receive 1]

/-- The second caller returns without an error while its record is in the
channel, and a double vote passes the check. -/
theorem late_save_returns_before_commit :
    ((opened .empty).run lateSave).callers 1 = .returned ⟨8, 0, 1, 6⟩ none ∧
      ((opened .empty).run lateSave).chan = [⟨8, 0, 1, 6⟩] ∧
      (((opened .empty).run lateSave).db.checkSlashableAttestation false 8 9 ⟨0, 1⟩).2 = none ∧
      ¬ ((opened .empty).run lateSave).Durable := by
  have hpass : (((opened .empty).run lateSave).db.checkSlashableAttestation false 8 9
      ⟨0, 1⟩).2 = none := by decide +kernel
  have hnone : (((opened .empty).run lateSave).db.rootsIndex 8)[Bytes.ofUint64 1]? = none := by
    decide +kernel
  have hreturned : ((opened .empty).run lateSave).callers 1 = .returned ⟨8, 0, 1, 6⟩ none := by
    decide +kernel
  refine ⟨hreturned, by decide +kernel, hpass, fun hdurable => ?_⟩
  obtain ⟨last, hlast, -⟩ := (hdurable 1 _ hreturned).2.2
  rw [hnone] at hlast
  cases hlast

end BatchStore

end Vanguard.Validator
