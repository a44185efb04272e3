import Vanguard.Lib.Bytes
import Vanguard.Lib.TreeMap

/-!
Indexes in an ordered key-value store.

An index lists under every number a packed list of numbers. Its keys are
written with the most significant byte first, so that a cursor passes them in
numeric order. `Lists m l` says that the index `m` holds the pairs of `l`, those
under one key in the order of `l`.
-/

namespace Vanguard.PackedIndex

open Bytes List Option Std.ExtTreeMap TreeMap

abbrev Word := BitVec 64

abbrev Bucket (V : Type) := Std.ExtTreeMap Bytes V

def under (l : List (Word × Word)) (e : Word) : List Word := (l.filter (·.1 = e)).map Prod.snd

variable {e x : Word} {a : Bytes × Bytes}

theorem mem_under {l : List (Word × Word)} : x ∈ under l e ↔ (e, x) ∈ l := by
  simp [under]

theorem under_append (l m : List (Word × Word)) (e : Word) :
    under (l ++ m) e = under l e ++ under m e := by
  simp [under]

/-- The index `m` holds the pairs of `l`. -/
structure Lists (m : Bucket Bytes) (l : List (Word × Word)) : Prop where
  keys : ∀ k v, m[k]? = some v → ∃ e, k = ofUint64 e
  listed : ∀ e, m[ofUint64 e]? = if under l e = [] then none else some (pack (under l e))

theorem Lists.empty : Lists ∅ [] where
  keys k v h := by simp at h
  listed e := by simp [under]

/-- Appends a number to the list under a key. -/
def add (m : Bucket Bytes) (e x : Word) : Bucket Bytes :=
  match m[ofUint64 e]? with
  | some existing => m.insert (ofUint64 e) (existing ++ ofUint64 x)
  | none => m.insert (ofUint64 e) (ofUint64 x)

theorem getElem?_add {m : Bucket Bytes} {l : List (Word × Word)} (h : Lists m l) (e x : Word)
    (k : Bytes) :
    (add m e x)[k]? = if k = ofUint64 e then some (pack (under l e ++ [x])) else m[k]? := by
  have hlisted := h.listed e
  rw [add]
  split at hlisted
  · rename_i hnil
    rw [hlisted, hnil]
    simp only [TreeMap.getElem?_insert, nil_append, pack_singleton]
  · rw [hlisted]
    simp only [TreeMap.getElem?_insert, pack_append, pack_singleton]

theorem Lists.add {m : Bucket Bytes} {l : List (Word × Word)} (h : Lists m l) (e x : Word) :
    Lists (add m e x) (l ++ [(e, x)]) where
  keys k v hv := by
    rw [getElem?_add h] at hv
    split at hv
    · exact ⟨e, by assumption⟩
    · exact h.keys k v hv
  listed e' := by
    rw [getElem?_add h, under_append]
    simp only [ofUint64_inj]
    by_cases he : e' = e
    · subst he
      simp [under]
    · simp [he, h.listed e', under, Ne.symm he]

/-! ### Indexes with any packed lists -/

/-- Every key is a number, and every value is a packed list. -/
def Packed (m : Bucket Bytes) : Prop :=
  ∀ k v, m[k]? = some v → ∃ e l, k = ofUint64 e ∧ v = pack l

/-- A number is listed under a key. -/
def Listed (m : Bucket Bytes) (e x : Word) : Prop := ∃ l, m[ofUint64 e]? = some (pack l) ∧ x ∈ l

theorem packed_empty : Packed ∅ := by
  intro k v h
  simp at h

theorem not_listed_empty (e x : Word) : ¬ Listed ∅ e x := by
  rintro ⟨l, h, -⟩
  simp at h

theorem listed_iff {m : Bucket Bytes} {l : List Word}
    (h : m[ofUint64 e]? = some (pack l)) (x : Word) : Listed m e x ↔ x ∈ l := by
  refine ⟨fun ⟨l', hl', hx⟩ => ?_, fun hx => ⟨l, h, hx⟩⟩
  have hpack := congrArg unpack (some.inj (h.symm.trans hl'))
  rw [unpack_pack, unpack_pack] at hpack
  rw [some.inj hpack]
  exact hx

theorem Packed.getElem?_add {m : Bucket Bytes} (h : Packed m) (e x : Word) :
    ∃ l, (∀ y, y ∈ l ↔ Listed m e y ∨ y = x) ∧ ∀ k,
      (PackedIndex.add m e x)[k]? = if k = ofUint64 e then some (pack l) else m[k]? := by
  rw [PackedIndex.add]
  cases he : m[ofUint64 e]? with
  | none =>
    refine ⟨[x], fun y => ?_, fun k => ?_⟩
    · simp [Listed, he]
    · rw [TreeMap.getElem?_insert, pack_singleton]
  | some v =>
    obtain ⟨_, l, -, rfl⟩ := h _ v he
    refine ⟨l ++ [x], fun y => ?_, fun k => ?_⟩
    · rw [listed_iff he, mem_append, mem_singleton]
    · rw [TreeMap.getElem?_insert, pack_append, pack_singleton]

theorem Packed.add {m : Bucket Bytes} (h : Packed m) (e x : Word) :
    Packed (PackedIndex.add m e x) := by
  obtain ⟨l, -, hget⟩ := h.getElem?_add e x
  intro k v hv
  rw [hget] at hv
  split at hv
  · next hk => exact ⟨e, l, hk, (some.inj hv).symm⟩
  · exact h k v hv

theorem Packed.listed_add {m : Bucket Bytes} (h : Packed m) (e x e' x' : Word) :
    Listed (PackedIndex.add m e x) e' x' ↔ Listed m e' x' ∨ (e' = e ∧ x' = x) := by
  obtain ⟨l, hl, hget⟩ := h.getElem?_add e x
  by_cases he : e' = e
  · subst he
    rw [listed_iff (by rw [hget, if_pos rfl]), hl]
    simp only [true_and]
  · rw [Listed, hget, if_neg (mt ofUint64_inj.mp he)]
    simp only [he, false_and, or_false]
    exact Iff.rfl

theorem under_filter_ne (l : List (Word × Word)) (e e' : Word) :
    under (l.filter (·.1 ≠ e)) e' = if e' = e then [] else under l e' := by
  by_cases he : e' = e
  · subst he
    simp [under]
  · have hfilter : (l.filter (·.1 ≠ e)).filter (·.1 = e') = l.filter (·.1 = e') := by
      rw [List.filter_filter]
      refine filter_congr fun a _ => ?_
      by_cases ha : a.1 = e'
      · simp [ha, he]
      · simp [ha]
    rw [if_neg he, under, under, hfilter]

theorem Lists.put {m : Bucket Bytes} {l : List (Word × Word)} (h : Lists m l) (e x : Word) :
    Lists (m.insert (ofUint64 e) (ofUint64 x)) (l.filter (·.1 ≠ e) ++ [(e, x)]) where
  keys k v hv := by
    rw [TreeMap.getElem?_insert] at hv
    split at hv
    · exact ⟨e, by assumption⟩
    · exact h.keys k v hv
  listed e' := by
    rw [TreeMap.getElem?_insert, under_append, under_filter_ne]
    simp only [ofUint64_inj]
    by_cases he : e' = e
    · subst he
      simp [under, pack_singleton]
    · simp [he, h.listed e', under, Ne.symm he]

/-! ### Deleting the oldest keys -/

def Numbered {V : Type} (m : Bucket V) : Prop := ∀ k v, m[k]? = some v → ∃ e, k = ofUint64 e

section Prune

variable {V : Type} {m : Bucket V} {p : Word → Bool}

theorem Numbered.getElem?_deleteWhile (h : Numbered m)
    (hp : ∀ e e' : Word, e.toNat < e'.toNat → p e' = true → p e = true) (k : Bytes) :
    (deleteWhile (fun k => p (toUint64 k)) m)[k]? =
      if p (toUint64 k) = true then none else m[k]? := by
  refine TreeMap.getElem?_deleteWhile (fun a ha b hb hlt hpb => ?_) k
  obtain ⟨e, rfl⟩ := h a m[a] (by simp [ha])
  obtain ⟨e', rfl⟩ := h b m[b] (by simp [hb])
  rw [compare_ofUint64] at hlt
  rw [toUint64_ofUint64] at hpb ⊢
  exact hp e e' (Nat.compare_eq_lt.mp hlt) hpb

theorem Numbered.insert (h : Numbered m) (e : Word) (v : V) :
    Numbered (m.insert (ofUint64 e) v) := by
  intro k w hk
  rw [TreeMap.getElem?_insert] at hk
  split at hk
  · exact ⟨e, by assumption⟩
  · exact h k w hk

theorem Numbered.deleteWhile (h : Numbered m)
    (hp : ∀ e e' : Word, e.toNat < e'.toNat → p e' = true → p e = true) :
    Numbered (deleteWhile (fun k => p (toUint64 k)) m) := by
  intro k v hk
  rw [h.getElem?_deleteWhile hp] at hk
  split at hk
  · cases hk
  · exact h k v hk

end Prune

theorem under_filter {p : Word → Bool} (l : List (Word × Word)) (e : Word) :
    under (l.filter fun a => !p a.1) e = if p e = true then [] else under l e := by
  induction l with
  | nil => simp [under]
  | cons a l ih =>
    simp only [under, List.filter_filter] at ih ⊢
    by_cases he : a.1 = e
    · cases hp : p e with
      | false =>
        simp only [hp, Bool.false_eq_true, if_false] at ih
        simp [he, hp, ih]
      | true =>
        simp only [hp, if_true] at ih
        simpa [filter_cons, he, hp] using ih
    · simpa [filter_cons, he] using ih

theorem Lists.deleteWhile {m : Bucket Bytes} {l : List (Word × Word)} (h : Lists m l)
    {p : Word → Bool} (hp : ∀ e e' : Word, e.toNat < e'.toNat → p e' = true → p e = true) :
    Lists (deleteWhile (fun k => p (toUint64 k)) m) (l.filter fun a => !p a.1) where
  keys := Numbered.deleteWhile h.keys hp
  listed e := by
    rw [Numbered.getElem?_deleteWhile h.keys hp, toUint64_ofUint64, under_filter]
    split
    · simp
    · exact h.listed e

/-! ### Reading an index -/

/-- The pairs under one key; nothing if the list is not packed. -/
def readEntry (a : Bytes × Bytes) : Option (List (Word × Word)) :=
  (unpack a.2).map fun xs => xs.map fun x => (toUint64 a.1, x)

/-- All pairs of an index in the order of its keys; nothing if a list is not
packed. -/
def readAll (m : Bucket Bytes) : Option (List (Word × Word)) :=
  (m.toList.mapM readEntry).map flatten

def entries (m : Bucket Bytes) : List (Word × Word) := (readAll m).getD []

/-- An entry in terms of the pairs. -/
def IsEntry (l : List (Word × Word)) (a : Bytes × Bytes) : Prop :=
  ∃ e, a.1 = ofUint64 e ∧ a.2 = pack (under l e) ∧ under l e ≠ []

section Reading

variable {m : Bucket Bytes} {l : List (Word × Word)}

theorem Lists.isEntry (h : Lists m l) (ha : a ∈ m.toList) : IsEntry l a := by
  have hget : m[a.1]? = some a.2 := mem_toList_iff_getElem?_eq_some.mp ha
  obtain ⟨e, he⟩ := h.keys _ _ hget
  rw [he, h.listed e] at hget
  split at hget
  · cases hget
  · exact ⟨e, he, (some.inj hget).symm, by assumption⟩

theorem Lists.mem_toList (h : Lists m l) (hx : (e, x) ∈ l) :
    (ofUint64 e, pack (under l e)) ∈ m.toList := by
  have hne : under l e ≠ [] := ne_nil_of_mem (mem_under.mpr hx)
  refine mem_toList_iff_getElem?_eq_some.mpr ?_
  rw [h.listed e, if_neg hne]

theorem readEntry_of_isEntry (hkey : a.1 = ofUint64 e) (hval : a.2 = pack (under l e)) :
    readEntry a = some ((under l e).map fun x => (e, x)) := by
  rw [readEntry, hval, hkey, unpack_pack, toUint64_ofUint64, map_some]

theorem under_pairs (l : List (Word × Word)) (e e' : Word) :
    under ((under l e).map fun x => (e, x)) e' = if e' = e then under l e else [] := by
  by_cases he : e' = e
  · subst he
    simp [under, List.filter_map, Function.comp_def]
  · simp [under, List.filter_map, Function.comp_def, he, Ne.symm he]

theorem mapM_readEntry {as : List (Bytes × Bytes)} (has : ∀ a ∈ as, IsEntry l a)
    (hdistinct : as.Pairwise fun a b => a.1 ≠ b.1) :
    ∃ ls, as.mapM readEntry = some ls ∧ ∀ e,
      under ls.flatten e = if ∃ a ∈ as, a.1 = ofUint64 e then under l e else [] := by
  induction as with
  | nil => exact ⟨[], rfl, by simp [under]⟩
  | cons a as ih =>
    obtain ⟨hne, hdistinct⟩ := pairwise_cons.mp hdistinct
    obtain ⟨ls, hls, hunder⟩ := ih (fun b hb => has b (mem_cons_of_mem _ hb)) hdistinct
    obtain ⟨e, hkey, hval, -⟩ := has a mem_cons_self
    refine ⟨((under l e).map fun x => (e, x)) :: ls, ?_, fun e' => ?_⟩
    · simp [mapM_cons, readEntry_of_isEntry hkey hval, hls]
    · rw [flatten_cons, under_append, under_pairs, hunder]
      by_cases he : e' = e
      · subst he
        have hnone : ¬ ∃ b ∈ as, b.1 = ofUint64 e' := by
          rintro ⟨b, hb, hbe⟩
          exact hne b hb (hkey.trans hbe.symm)
        simp [hnone, hkey]
      · have hiff : (∃ b ∈ a :: as, b.1 = ofUint64 e') ↔ ∃ b ∈ as, b.1 = ofUint64 e' := by
          simp [hkey, Ne.symm he]
        simp only [he, hiff, if_false, nil_append]

variable (h : Lists m l)

include h

theorem Lists.readAll : ∃ l', readAll m = some l' ∧ ∀ e, under l' e = under l e := by
  have hdistinct : m.toList.Pairwise fun a b => a.1 ≠ b.1 := by
    refine ordered_keys_toList.imp fun {a b} hlt heq => ?_
    rw [heq, Std.compare_self] at hlt
    cases hlt
  obtain ⟨ls, hls, hunder⟩ := mapM_readEntry (fun a ha => h.isEntry ha) hdistinct
  refine ⟨ls.flatten, by rw [PackedIndex.readAll, hls, map_some], fun e => ?_⟩
  rw [hunder]
  by_cases hnil : under l e = []
  · simp [hnil]
  · obtain ⟨x, hx⟩ := exists_mem_of_ne_nil _ hnil
    rw [if_pos ⟨_, h.mem_toList (mem_under.mp hx), rfl⟩]

theorem Lists.readAll_eq : PackedIndex.readAll m = some (entries m) := by
  obtain ⟨l', hl', -⟩ := h.readAll
  rw [entries, hl', getD_some]

theorem Lists.under_entries (e : Word) : under (entries m) e = under l e := by
  obtain ⟨l', hl', hunder⟩ := h.readAll
  rw [entries, hl', getD_some, hunder]

theorem Lists.mem_entries {a : Word × Word} : a ∈ entries m ↔ a ∈ l := by
  obtain ⟨e, x⟩ := a
  rw [← mem_under, h.under_entries, mem_under]

theorem Lists.of_entries : Lists m (entries m) where
  keys := h.keys
  listed e := by rw [h.under_entries, h.listed]

end Reading

theorem Lists.mem_iff {m : Bucket Bytes} {l : List (Word × Word)} (h : Lists m l) :
    ofUint64 e ∈ m ↔ ∃ x, (e, x) ∈ l := by
  rw [← isSome_getElem?_iff_mem, h.listed]
  simp only [← mem_under]
  by_cases hnil : under l e = []
  · simp [hnil]
  · simpa [hnil] using exists_mem_of_ne_nil _ hnil

/-! ### Cursors -/

/-- Reads a list of entries until `stop` holds of a key, and returns the first
pair that `hit` accepts. A list that is not packed ends the search with an
error. -/
def search {ε : Type} (broken : ε) (stop : Word → Bool) (hit : Word → Word → Bool) :
    List (Bytes × Bytes) → Except ε (Option (Word × Word))
  | [] => .ok none
  | (k, v) :: rest =>
    if stop (toUint64 k) then .ok none
    else
      match unpack v with
      | none => .error broken
      | some xs =>
        match xs.find? (hit (toUint64 k)) with
        | some x => .ok (some (toUint64 k, x))
        | none => search broken stop hit rest

/-- The entries of an index as a cursor passes them from the last to the
first. -/
def backwards {V : Type} (m : Bucket V) : List (Bytes × V) := m.toList.reverse

section Search

variable {ε : Type} {broken : ε} {stop : Word → Bool} {hit : Word → Word → Bool} {m : Bucket Bytes}
  {l : List (Word × Word)} {entries : List (Bytes × Bytes)}

theorem Lists.isEntry_backwards (h : Lists m l) (ha : a ∈ backwards m) : IsEntry l a :=
  h.isEntry (mem_reverse.mp ha)

theorem Lists.sorted_backwards (h : Lists m l) :
    (backwards m).Pairwise fun a b => (toUint64 b.1).toNat < (toUint64 a.1).toNat := by
  refine pairwise_reverse.mpr (ordered_keys_toList.imp_of_mem ?_)
  intro a b ha hb hlt
  obtain ⟨e, he, -⟩ := h.isEntry ha
  obtain ⟨e', he', -⟩ := h.isEntry hb
  rw [he, he', compare_ofUint64] at hlt
  rw [he, he', toUint64_ofUint64, toUint64_ofUint64]
  exact Nat.compare_eq_lt.mp hlt

section

variable (hentries : ∀ a ∈ entries, IsEntry l a)

include hentries

theorem search_sound
    (hs : search broken stop hit entries = .ok (some (e, x))) : (e, x) ∈ l ∧ hit e x = true := by
  induction entries with
  | nil => cases hs
  | cons a rest ih =>
    obtain ⟨k, v⟩ := a
    obtain ⟨e', rfl, rfl, -⟩ := hentries _ mem_cons_self
    rw [search, unpack_pack, toUint64_ofUint64] at hs
    dsimp only at hs
    split at hs
    · cases hs
    · cases hfind : (under l e').find? (hit e') with
      | none =>
        rw [hfind] at hs
        exact ih (fun b hb => hentries b (mem_cons_of_mem _ hb)) hs
      | some y =>
        rw [hfind] at hs
        obtain ⟨rfl, rfl⟩ := Prod.mk.inj (some.inj (Except.ok.inj hs))
        exact ⟨mem_under.mp (mem_of_find?_eq_some hfind), find?_some hfind⟩

/-- Once the search has stopped, no later key would have been of interest, as
`stop` holds of every smaller key. -/
theorem search_complete
    (hsorted : entries.Pairwise fun a b => (toUint64 b.1).toNat < (toUint64 a.1).toNat)
    (hstop : ∀ e e' : Word, e'.toNat < e.toNat → stop e = true → stop e' = true)
    (hs : search broken stop hit entries = .ok none) (ha : a ∈ entries)
    (hgo : stop (toUint64 a.1) = false) (hx : (toUint64 a.1, x) ∈ l) :
    hit (toUint64 a.1) x = false := by
  induction entries with
  | nil => cases ha
  | cons b rest ih =>
    obtain ⟨k, v⟩ := b
    obtain ⟨e', rfl, rfl, -⟩ := hentries _ mem_cons_self
    rw [pairwise_cons] at hsorted
    rw [search, unpack_pack, toUint64_ofUint64] at hs
    dsimp only at hs
    split at hs
    · rename_i hstopped
      rcases mem_cons.mp ha with rfl | hrest
      · rw [toUint64_ofUint64, hstopped] at hgo
        cases hgo
      · have hlt := hsorted.1 a hrest
        rw [toUint64_ofUint64] at hlt
        rw [hstop _ _ hlt hstopped] at hgo
        cases hgo
    · cases hfind : (under l e').find? (hit e') with
      | some y =>
        rw [hfind] at hs
        cases hs
      | none =>
        rw [hfind] at hs
        rcases mem_cons.mp ha with rfl | hrest
        · rw [toUint64_ofUint64] at hx ⊢
          have hnot := find?_eq_none.mp hfind x (mem_under.mpr hx)
          simpa using hnot
        · exact ih (fun c hc => hentries c (mem_cons_of_mem _ hc)) hsorted.2 hs hrest

theorem search_ne_error : ∃ r, search broken stop hit entries = .ok r := by
  induction entries with
  | nil => exact ⟨none, rfl⟩
  | cons b rest ih =>
    obtain ⟨k, v⟩ := b
    obtain ⟨e', rfl, rfl, -⟩ := hentries _ mem_cons_self
    rw [search, unpack_pack, toUint64_ofUint64]
    dsimp only
    split
    · exact ⟨none, rfl⟩
    · cases (under l e').find? (hit e') with
      | some y => exact ⟨_, rfl⟩
      | none => exact ih fun c hc => hentries c (mem_cons_of_mem _ hc)

end

theorem Lists.search_backwards (h : Lists m l)
    (hstop : ∀ e e' : Word, e'.toNat < e.toNat → stop e = true → stop e' = true) :
    (∃ e x, search broken stop hit (backwards m) = .ok (some (e, x)) ∧ (e, x) ∈ l ∧
        hit e x = true) ∨
      search broken stop hit (backwards m) = .ok none ∧
        ∀ e x, (e, x) ∈ l → stop e = false → hit e x = false := by
  have hentries := fun a ha => h.isEntry_backwards (a := a) ha
  have hok : ∃ r, search broken stop hit (backwards m) = .ok r := search_ne_error hentries
  obtain ⟨r, hr⟩ := hok
  cases r with
  | some p => exact .inl ⟨p.1, p.2, hr, search_sound hentries hr⟩
  | none =>
    refine .inr ⟨hr, fun e x hx hgo => ?_⟩
    have hmem : _ ∈ backwards m := mem_reverse.mpr (h.mem_toList hx)
    simpa using search_complete hentries h.sorted_backwards hstop hr hmem (by simpa using hgo)
      (by simpa using hx)

/-- A search down to a bound misses nothing if what it looks for lies above the
bound. -/
theorem Lists.search_above (h : Lists m l) (bound : Word)
    (hhit : ∀ e x, hit e x = true → bound < e) :
    (∃ e x, search broken (fun e => decide (e ≤ bound)) hit (backwards m) = .ok (some (e, x)) ∧
        (e, x) ∈ l ∧ hit e x = true) ∨
      search broken (fun e => decide (e ≤ bound)) hit (backwards m) = .ok none ∧
        ∀ e x, (e, x) ∈ l → hit e x = false := by
  have hstop : ∀ e e' : Word, e'.toNat < e.toNat → decide (e ≤ bound) = true →
      decide (e' ≤ bound) = true := by
    intro e e' hlt hle
    simp only [decide_eq_true_eq, BitVec.le_def] at hle ⊢
    omega
  rcases h.search_backwards hstop with hfound | ⟨hnone, hall⟩
  · exact .inl hfound
  · refine .inr ⟨hnone, fun e x hx => ?_⟩
    -- a key that the cursor did not reach is not above the bound
    by_contra hne
    have habove := hhit e x (by simpa using hne)
    exact hne (hall e x hx (decide_eq_false (BitVec.not_le.mpr habove)))

end Search

end Vanguard.PackedIndex
