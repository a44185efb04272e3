import Vanguard.Lib.Run

/-!
Calls in flight over a shared state.

A call is entered, does its atomic steps one at a time between those of the
other calls, and returns or fails on the way. The scheduler is the list of
events, so that a statement about all lists of events is one about all
interleavings.
-/

namespace Vanguard.Interleaving

open Run

variable {σ τ ε : Type*}

/-- The shared state with what is left of the calls in flight. -/
structure System (σ τ : Type*) where
  shared : σ
  calls : List τ
  deriving DecidableEq, Repr

inductive Event (ε : Type*) where
  | enter (e : ε)
  /-- The next atomic step of a call. -/
  | resume (i : ℕ)
  /-- A call returns with an error before its next step. -/
  | fail (i : ℕ)
  deriving DecidableEq, Repr

/-- `enter` gives the call that an entry point starts, unless it returns at
once, and `next` what the next step of a call does and leaves to do. -/
def System.step (enter : ε → Option τ) (next : σ → τ → σ × Option τ) (s : System σ τ) :
    Event ε → System σ τ
  | .enter e => { s with calls := s.calls ++ (enter e).toList }
  | .resume i =>
    match s.calls[i]? with
    | none => s
    | some t =>
      ⟨(next s.shared t).1, s.calls.eraseIdx i ++ (next s.shared t).2.toList⟩
  | .fail i => { s with calls := s.calls.eraseIdx i }

variable {enter : ε → Option τ} {next : σ → τ → σ × Option τ}
  {ok : System σ τ → Event ε → Prop} {I : σ → Prop} {J : σ → τ → Prop}

/-- The invariant of the shared state and the assertions of all calls where
they are. -/
def Asserted (I : σ → Prop) (J : σ → τ → Prop) (s : System σ τ) : Prop :=
  I s.shared ∧ ∀ t ∈ s.calls, J s.shared t

/-- The shared invariant is kept if every call asserts something when it is
entered, keeps its own assertion up from step to step, and does not interfere
with the assertions of the others. -/
theorem asserted_of_steps
    (henter : ∀ s e t, ok s (.enter e) → I s.shared → t ∈ enter e → J s.shared t)
    (hnext : ∀ s i t, s.calls[i]? = some t → ok s (.resume i) → Asserted I J s →
      I (next s.shared t).1 ∧ ∀ t' ∈ (next s.shared t).2, J (next s.shared t).1 t')
    (hothers : ∀ s i t u, s.calls[i]? = some t → ok s (.resume i) → Asserted I J s →
      u ∈ s.calls.eraseIdx i → J (next s.shared t).1 u)
    {s : System σ τ} (hs : Asserted I J s) {es : List (Event ε)}
    (hok : Admits (System.step enter next) ok s es) :
    Asserted I J (es.foldl (System.step enter next) s) := by
  refine Run.invariant (I := Asserted I J) ?_ hs hok
  intro s e hs hok
  cases e with
  | enter e =>
    refine ⟨hs.1, fun t ht => ?_⟩
    rcases List.mem_append.mp ht with ht | ht
    · exact hs.2 t ht
    · exact henter s e t hok hs.1 (Option.mem_toList.mp ht)
  | resume i =>
    cases ht : s.calls[i]? with
    | none => simpa only [System.step, ht] using hs
    | some t =>
      simp only [System.step, ht]
      obtain ⟨hI, hJ⟩ := hnext s i t ht hok hs
      refine ⟨hI, fun u hu => ?_⟩
      rcases List.mem_append.mp hu with hu | hu
      · exact hothers s i t u ht hok hs hu
      · exact hJ u (Option.mem_toList.mp hu)
  | fail i => exact ⟨hs.1, fun t ht => hs.2 t (List.mem_of_mem_eraseIdx ht)⟩

end Vanguard.Interleaving
