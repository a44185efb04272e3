import Vanguard.Beacon.StateCopies

/-!
Looking up validators by public key.

Copies of a state share one map from keys to indices, and `AppendValidator` writes to it
without copying. The map stays the index of one list of keys, of which the registries are
initial segments, exactly as long as no two appends through it put different keys at the same
index.
-/

namespace Vanguard.Beacon

open CopyOnWrite List Option Function Run CopyOnWrite.World

/-- The map is the index of a list of different keys. -/
structure IsIndexOf (m : KeyMap) (keys : List PubKey) : Prop where
  length_lt : keys.length < 2 ^ 63
  nodup : keys.Nodup
  get_iff : ∀ key idx, m key = some idx ↔ keys[idx.toNat]? = some key

theorem toNat_ofNat_of_lt {n : ℕ} (hn : n < 2 ^ 63) : (BitVec.ofNat 64 n).toNat = n := by
  rw [BitVec.toNat_ofNat, Nat.mod_eq_of_lt (by omega)]

theorem getElem?_of_segment {α : Type} {l l' : List α} (h : l <+: l') {i : ℕ} {a : α}
    (hi : l[i]? = some a) : l'[i]? = some a := by
  obtain ⟨rest, rfl⟩ := h
  rw [getElem?_append_left (List.getElem?_eq_some_iff.mp hi).1, hi]

variable {keys : List PubKey}

theorem IsIndexOf.append {m : KeyMap} (h : IsIndexOf m keys) {key : PubKey}
    (hkey : key ∉ keys) (hlen : keys.length + 1 < 2 ^ 63) :
    IsIndexOf (update m key (some (BitVec.ofNat 64 keys.length))) (keys ++ [key]) := by
  have hlast := toNat_ofNat_of_lt h.length_lt
  refine ⟨by simpa using hlen, ?_, fun key' idx => ?_⟩
  · exact nodup_append.mpr ⟨h.nodup, nodup_singleton key, fun a ha b hb hab => by
      rw [mem_singleton.mp hb] at hab
      exact hkey (hab ▸ ha)⟩
  · rw [update_apply, getElem?_append]
    by_cases hkk : key' = key
    · subst hkk
      rw [if_pos rfl, some_inj]
      split
      · next hlt =>
        constructor
        · rintro rfl
          omega
        · intro hidx
          exact absurd (mem_of_getElem? hidx) hkey
      · next hge =>
        constructor
        · rintro rfl
          rw [hlast, Nat.sub_self]
          rfl
        · intro hidx
          have hlt := (List.getElem?_eq_some_iff.mp hidx).1
          rw [length_singleton] at hlt
          apply BitVec.eq_of_toNat_eq
          omega
    · rw [if_neg hkk, h.get_iff]
      split
      · rfl
      · next hge =>
        rw [getElem?_eq_none (by omega)]
        constructor
        · rintro ⟨⟩
        · intro hidx
          have hmem := mem_of_getElem? hidx
          exact absurd (mem_singleton.mp hmem) hkk

theorem segment_concat {α : Type} {l l' : List α} (h : l <+: l') {a : α}
    (ha : l'[l.length]? = some a) : l ++ [a] <+: l' := by
  obtain ⟨rest, rfl⟩ := h
  rw [getElem?_append_right (Nat.le_refl _), Nat.sub_self] at ha
  cases rest with
  | nil => cases ha
  | cons b rest =>
    obtain rfl : b = a := some.inj ha
    exact ⟨rest, by simp⟩

theorem IsIndexOf.append_or_same {m : KeyMap} {own : List PubKey} (h : IsIndexOf m keys)
    (hown : own <+: keys) {key : PubKey} (hkey : key ∉ own) (hlen : own.length + 1 < 2 ^ 63)
    (hclash : ∀ key', m key' = some (BitVec.ofNat 64 own.length) → key' = key) :
    ∃ keys', IsIndexOf (update m key (some (BitVec.ofNat 64 own.length))) keys' ∧
      keys <+: keys' ∧ own ++ [key] <+: keys' := by
  have hnat := toNat_ofNat_of_lt (show own.length < 2 ^ 63 by omega)
  by_cases hlt : own.length < keys.length
  · -- the key is there already
    have hkeys := getElem?_eq_getElem hlt
    have hm := (h.get_iff keys[own.length] (BitVec.ofNat 64 own.length)).mpr (by rw [hnat, hkeys])
    have heq := hclash _ hm
    rw [heq] at hm hkeys
    rw [← hm, update_eq_self]
    exact ⟨keys, h, prefix_refl keys, segment_concat hown hkeys⟩
  · have hsame : own = keys := hown.eq_of_length_le (not_lt.mp hlt)
    subst hsame
    exact ⟨own ++ [key], h.append hkey hlen, prefix_append _ _, prefix_refl _⟩

theorem validatorIndexMap_spec {vals : List Validator} (hnodup : (vals.map (·.publicKey)).Nodup)
    (hlen : vals.length < 2 ^ 63) :
    IsIndexOf (validatorIndexMap vals) (vals.map (·.publicKey)) := by
  -- the loop, after the validators in `done`
  have hloop : ∀ (todo done : List Validator) (m : KeyMap),
      ((done ++ todo).map (·.publicKey)).Nodup → (done ++ todo).length < 2 ^ 63 →
      IsIndexOf m (done.map (·.publicKey)) →
      IsIndexOf ((todo.zipIdx done.length).foldl
        (fun m entry => update m entry.1.publicKey (some (BitVec.ofNat 64 entry.2))) m)
        ((done ++ todo).map (·.publicKey)) := by
    intro todo
    induction todo with
    | nil =>
      intro done m _ _ hm
      simpa using hm
    | cons v todo ih =>
      intro done m hnodup hlen hm
      have hkey : v.publicKey ∉ done.map (·.publicKey) := by
        rw [map_append, map_cons] at hnodup
        intro hmem
        exact (nodup_append.mp hnodup).2.2 _ hmem _ mem_cons_self rfl
      rw [length_append, length_cons] at hlen
      have hnext := hm.append hkey (by rw [length_map]; omega)
      rw [length_map] at hnext
      have hrest := ih (done ++ [v]) (update m v.publicKey (some (BitVec.ofNat 64 done.length)))
        (by simpa using hnodup) (by simp; omega) (by simpa using hnext)
      rw [zipIdx_cons, foldl_cons]
      simpa using hrest
  have hempty : IsIndexOf (fun _ => none) ([] : List PubKey) :=
    ⟨by norm_num, nodup_nil, fun key idx => by simp⟩
  exact hloop vals [] _ hnodup hlen hempty

namespace Family

/-- Lookups in every state agree with its own registry. -/
def LookupsRight (fam : Family) : Prop :=
  ∀ k vals, fam.get k .validators = some vals → ∀ key idx,
    fam.validatorIndexByPubkey k key = (idx, true) ↔
      ∃ v, vals[idx.toNat]? = some v ∧ v.publicKey = key

/-- The calls in question: `Copy`, `AppendValidator` of a key that the state does not have, and
`SetValidators` with different keys. -/
def RegistryCall (fam : Family) (call : ℕ × StateOp) : Prop :=
  match call.2 with
  | .copy => True
  | .appendValidator _ val => ∀ vals, fam.get call.1 .validators = some vals →
      val.publicKey ∉ vals.map (·.publicKey) ∧ vals.length + 1 < 2 ^ 63
  | .setValidators val => (val.map (·.publicKey)).Nodup ∧ val.length < 2 ^ 63
  | _ => False

/-- An appended key does not clash with the map: no other key has its index there. -/
def NoClash (fam : Family) (call : ℕ × StateOp) : Prop :=
  ∀ inPlace val, call.2 = .appendValidator inPlace val →
    ∀ m, fam.handlers[call.1]?.bind (fam.keyMaps[·]?) = some m →
      ∀ key, m key = some (BitVec.ofNat 64 (fam.length call.1 .validators)) → key = val.publicKey

/-- Each map is the index of a list of keys, and the registries of its states are initial
segments of that list. -/
structure KeysInv (fam : Family) : Prop where
  wf : fam.WF
  length_eq : (fam.fields .validators).values.length = fam.handlers.length
  live : ∀ (k handler : ℕ), fam.handlers[k]? = some handler →
    ∃ vals, fam.get k .validators = some vals
  map : ∀ (k handler : ℕ), fam.handlers[k]? = some handler → ∃ m, fam.keyMaps[handler]? = some m
  index : ∀ (handler : ℕ) m, fam.keyMaps[handler]? = some m → ∃ keys, IsIndexOf m keys ∧
    ∀ (k : ℕ) vals, fam.handlers[k]? = some handler → fam.get k .validators = some vals →
      vals.map (·.publicKey) <+: keys

section Step

variable {fam : Family} {k : ℕ} {vals : List Validator} {f : SharedField} {handler : ℕ}
  {val : Validator}

theorem initializeFromProto_keysInv {st : (f : SharedField) → List f.Elem}
    (hnodup : ((st .validators).map (·.publicKey)).Nodup)
    (hlen : (st .validators).length < 2 ^ 63) : KeysInv (initializeFromProto st) := by
  have hget : ∀ (k handler : ℕ), (initializeFromProto st).handlers[k]? = some handler →
      k = 0 ∧ handler = 0 := by
    intro k handler hk
    have hlt := (List.getElem?_eq_some_iff.mp hk).1
    obtain rfl : k = 0 := Nat.lt_one_iff.mp hlt
    exact ⟨rfl, (some.inj hk).symm⟩
  have hvals : (initializeFromProto st).get 0 .validators = some (st .validators) := by
    rw [get]
    show ((initial (st .validators)).values[0]?).join = _
    rw [values_initial]
    rfl
  refine ⟨initializeFromProto_wf st, ?_, ?_, ?_, ?_⟩
  · show (initial (st .validators)).values.length = 1
    rw [values_initial]
    rfl
  · intro k handler hk
    obtain ⟨rfl, -⟩ := hget k handler hk
    exact ⟨_, hvals⟩
  · intro k handler hk
    obtain ⟨-, rfl⟩ := hget k handler hk
    exact ⟨_, rfl⟩
  · intro handler m hm
    have hmem := mem_of_getElem? hm
    rw [mem_singleton.mp hmem]
    refine ⟨_, validatorIndexMap_spec hnodup hlen, fun k vals hk hvals' => ?_⟩
    obtain ⟨rfl, -⟩ := hget k handler hk
    rw [some.inj (hvals'.symm.trans hvals)]

theorem KeysInv.lookupsRight (hinv : KeysInv fam) : LookupsRight fam := by
  intro k vals hvals key idx
  have hlt : k < fam.handlers.length := by
    rw [← hinv.length_eq]
    exact (List.getElem?_eq_some_iff.mp (join_eq_some_iff.mp hvals)).1
  have hk := getElem?_eq_getElem hlt
  obtain ⟨m, hm⟩ := hinv.map k _ hk
  obtain ⟨keys, hindex, hsegments⟩ := hinv.index _ m hm
  have hsegment := hsegments k vals hk hvals
  have hlength : fam.length k .validators = vals.length := by
    rw [length, hvals]
    rfl
  -- the registry has a key where the list of the map has it
  have hhas : (∃ v, vals[idx.toNat]? = some v ∧ v.publicKey = key) ↔
      m key = some idx ∧ idx.toNat < vals.length := by
    rw [hindex.get_iff]
    constructor
    · rintro ⟨v, hv, rfl⟩
      refine ⟨?_, (List.getElem?_eq_some_iff.mp hv).1⟩
      exact getElem?_of_segment hsegment (by rw [getElem?_map, hv, map_some])
    · rintro ⟨hkey, hlt⟩
      refine ⟨vals[idx.toNat], getElem?_eq_getElem hlt, ?_⟩
      have hsame := getElem?_of_segment hsegment
        (show (vals.map (·.publicKey))[idx.toNat]? = some vals[idx.toNat].publicKey by
          rw [getElem?_map, getElem?_eq_getElem hlt, map_some])
      exact some.inj (hsame.symm.trans hkey)
  rw [hhas, validatorIndexByPubkey, hk, bind_some, hm, hlength]
  cases hfound : m key with
  | none => simp [hfound]
  | some j =>
    by_cases hj : vals.length ≤ j.toNat
    · simp only [hfound, if_pos hj, some_inj]
      constructor
      · intro hcon
        cases hcon
      · rintro ⟨rfl, hcon⟩
        omega
    · simp only [hfound, if_neg hj, some_inj]
      constructor
      · intro heq
        obtain rfl : j = idx := congrArg Prod.fst heq
        exact ⟨rfl, not_le.mp hj⟩
      · rintro ⟨rfl, -⟩
        rfl

theorem KeysInv.copy (hinv : KeysInv fam) (k : ℕ) : KeysInv (fam.copy k) := by
  cases hk : fam.handlers[k]? with
  | none =>
    rw [Family.copy, hk]
    exact hinv
  | some handler =>
    have hwf := (isolated_copy hinv.wf k).wf
    have hmaps : (fam.copy k).keyMaps = fam.keyMaps := by
      rw [Family.copy, hk]
    -- a state of the copy has handler and values of a state of the old family
    have hold : ∀ k' handler', (fam.copy k).handlers[k']? = some handler' →
        ∃ k₀, fam.handlers[k₀]? = some handler' ∧
          (fam.copy k).get k' .validators = fam.get k₀ .validators := by
      intro k' handler' hk'
      rw [Family.copy, hk] at hk' ⊢
      change (fam.handlers ++ [handler])[k']? = _ at hk'
      rw [getElem?_append] at hk'
      simp only [get, values_duplicate, getElem?_append, hinv.length_eq]
      split at hk'
      · exact ⟨k', hk', by rw [if_pos ‹_›]⟩
      · have hlt := (List.getElem?_eq_some_iff.mp hk').1
        rw [Nat.lt_one_iff.mp hlt] at hk' ⊢
        exact ⟨k, hk.trans hk', by rw [if_neg ‹_›]; rfl⟩
    refine ⟨hwf, ?_, ?_, ?_, ?_⟩
    · rw [Family.copy, hk]
      simp [values_duplicate, hinv.length_eq]
    · intro k' handler' hk'
      obtain ⟨k₀, hk₀, hget⟩ := hold k' handler' hk'
      rw [hget]
      exact hinv.live k₀ handler' hk₀
    · intro k' handler' hk'
      obtain ⟨k₀, hk₀, -⟩ := hold k' handler' hk'
      rw [hmaps]
      exact hinv.map k₀ handler' hk₀
    · intro handler' m hm
      rw [hmaps] at hm
      obtain ⟨keys, hindex, hsegments⟩ := hinv.index handler' m hm
      refine ⟨keys, hindex, fun k' vals' hk' hvals' => ?_⟩
      obtain ⟨k₀, hk₀, hget⟩ := hold k' handler' hk'
      exact hsegments k₀ vals' hk₀ (hget ▸ hvals')

theorem KeysInv.holder?_eq_none (hinv : KeysInv fam) (hk : fam.handlers[k]? = none) :
    (fam.fields .validators).holder? k = none := by
  by_contra hne
  obtain ⟨h, hh⟩ := ne_none_iff_exists'.mp hne
  have hlt := lt_of_holder? hh
  have hlen := hinv.length_eq
  rw [values, length_map] at hlen
  rw [List.getElem?_eq_none_iff] at hk
  omega

theorem onField_of_holder?_none (hk : (fam.fields f).holder? k = none)
    (change : World f.Elem → Holder → World f.Elem) : fam.onField f k change = fam := by
  rw [onField, hk]

theorem values_length_onField
    {change : World f.Elem → Holder → World f.Elem} {h : Holder}
    (hk : (fam.fields f).holder? k = some h) {l : List f.Elem}
    (hvalues : (change (fam.fields f) h).values = (fam.fields f).values.set k (some l)) :
    ((fam.onField f k change).fields f).values.length = (fam.fields f).values.length := by
  rw [onField, hk]
  simp [hvalues]

theorem KeysInv.setValidators (hinv : KeysInv fam) (k : ℕ) {val : List Validator}
    (hnodup : (val.map (·.publicKey)).Nodup) (hlen : val.length < 2 ^ 63) :
    KeysInv (fam.setValidators k val) := by
  have hwf := ((isolated_setField hinv.wf .validators k val).of_fields_eq
    (show (fam.setValidators k val).fields = _ from rfl)).wf
  have hmap : ∀ (k' handler : ℕ), fam.handlers[k']? = some handler →
      handler < fam.keyMaps.length := by
    intro k' handler hk'
    obtain ⟨m, hm⟩ := hinv.map k' handler hk'
    exact (List.getElem?_eq_some_iff.mp hm).1
  obtain ⟨hmaps, hhandlers⟩ :
      (fam.setValidators k val).keyMaps = fam.keyMaps ++ [validatorIndexMap val] ∧
      (fam.setValidators k val).handlers = fam.handlers.set k fam.keyMaps.length := by
    rw [Family.setValidators, setField, onField]
    split <;> exact ⟨rfl, rfl⟩
  -- a state is the changed one, or has handler and values from before
  have hold : ∀ (k' handler : ℕ), (fam.setValidators k val).handlers[k']? = some handler →
      (handler = fam.keyMaps.length ∧ (fam.setValidators k val).get k' .validators = some val) ∨
      (fam.handlers[k']? = some handler ∧
        (fam.setValidators k val).get k' .validators = fam.get k' .validators) := by
    intro k' handler hk'
    rw [hhandlers, getElem?_set] at hk'
    show _ ∨ _ ∧ (setField .validators fam k val).get k' .validators = _
    split at hk'
    · next heq =>
      subst heq
      split at hk'
      · next hlt =>
        obtain ⟨l, hl⟩ := hinv.live k _ (getElem?_eq_getElem hlt)
        refine .inl ⟨(some.inj hk').symm, ?_⟩
        show (setField .validators fam k val).get k .validators = _
        rw [get_setField hinv.wf hl, if_pos rfl]
      · cases hk'
    · next hne =>
      refine .inr ⟨hk', ?_⟩
      cases hk : fam.handlers[k]? with
      | none => rw [setField, onField_of_holder?_none (hinv.holder?_eq_none hk)]
      | some handler' =>
        obtain ⟨l, hl⟩ := hinv.live k handler' hk
        rw [get_setField hinv.wf hl, if_neg (Ne.symm hne)]
  refine ⟨hwf, ?_, ?_, ?_, ?_⟩
  · rw [hhandlers, length_set, ← hinv.length_eq]
    show ((setField .validators fam k val).fields .validators).values.length = _
    cases hk : (fam.fields .validators).holder? k with
    | none => rw [setField, onField_of_holder?_none hk]
    | some h =>
      exact values_length_onField hk (values_move (hinv.wf _) hk val)
  · intro k' handler hk'
    rcases hold k' handler hk' with ⟨-, hget⟩ | ⟨hk', hget⟩
    · exact ⟨val, hget⟩
    · rw [hget]
      exact hinv.live k' handler hk'
  · intro k' handler hk'
    rw [hmaps]
    rcases hold k' handler hk' with ⟨rfl, -⟩ | ⟨hk', -⟩
    · exact ⟨_, getElem?_concat_length⟩
    · obtain ⟨m, hm⟩ := hinv.map k' handler hk'
      exact ⟨m, by rw [getElem?_append_left (hmap k' handler hk'), hm]⟩
  · intro handler m hm
    rw [hmaps, getElem?_append] at hm
    split at hm
    · next hlt =>
      obtain ⟨keys, hindex, hsegments⟩ := hinv.index handler m hm
      refine ⟨keys, hindex, fun k' vals' hk' hvals' => ?_⟩
      rcases hold k' handler hk' with ⟨rfl, -⟩ | ⟨hk', hget⟩
      · omega
      · exact hsegments k' vals' hk' (hget ▸ hvals')
    · next hge =>
      have hmem := mem_of_getElem? hm
      rw [mem_singleton.mp hmem]
      refine ⟨_, validatorIndexMap_spec hnodup hlen, fun k' vals' hk' hvals' => ?_⟩
      rcases hold k' handler hk' with ⟨-, hget⟩ | ⟨hk', -⟩
      · rw [some.inj (hvals'.symm.trans hget)]
      · exact absurd (hmap k' handler hk') hge

theorem appendValidator_spec (hinv : KeysInv fam)
    (hk : fam.handlers[k]? = some handler)
    (hvals : fam.get k .validators = some vals) (inPlace : Bool) (val : Validator) :
    (fam.appendValidator k inPlace val).WF ∧
    (fam.appendValidator k inPlace val).handlers = fam.handlers ∧
    (fam.appendValidator k inPlace val).keyMaps = fam.keyMaps.modify handler
      (fun m => update m val.publicKey (some (BitVec.ofNat 64 vals.length))) ∧
    ((fam.appendValidator k inPlace val).fields .validators).values.length =
      (fam.fields .validators).values.length ∧
    ∀ k', (fam.appendValidator k inPlace val).get k' .validators =
      if k' = k then some (vals ++ [val]) else fam.get k' .validators := by
  have hget := get_append hinv.wf hvals inPlace val
  have hlength : (append .validators fam k inPlace val).length k .validators - 1 = vals.length := by
    rw [length, hget, if_pos rfl]
    simp
  obtain ⟨h, hh, -⟩ := get_eq_some_iff.mp hvals
  have hsame : (append .validators fam k inPlace val).handlers = fam.handlers ∧
      (append .validators fam k inPlace val).keyMaps = fam.keyMaps := by
    rw [append, onField, hh]
    exact ⟨rfl, rfl⟩
  have heq : fam.appendValidator k inPlace val =
      { append .validators fam k inPlace val with
        keyMaps := fam.keyMaps.modify handler fun m =>
          update m val.publicKey (some (BitVec.ofNat 64 vals.length)) } := by
    rw [appendValidator, hsame.1, hk]
    simp only [hlength, hsame]
  rw [heq]
  refine ⟨(isolated_append hinv.wf .validators k inPlace val).wf, hsame.1, rfl, ?_, hget⟩
  exact values_length_onField hh (values_modify (hinv.wf _) hh inPlace _)

theorem KeysInv.appendValidator (hinv : KeysInv fam)
    (hk : fam.handlers[k]? = some handler) (inPlace : Bool)
    (hcall : RegistryCall fam (k, .appendValidator inPlace val))
    (hclash : NoClash fam (k, .appendValidator inPlace val)) :
    KeysInv (fam.appendValidator k inPlace val) := by
  obtain ⟨vals, hvals⟩ := hinv.live k handler hk
  obtain ⟨m, hm⟩ := hinv.map k handler hk
  obtain ⟨keys, hindex, hsegments⟩ := hinv.index handler m hm
  obtain ⟨hkey, hlen⟩ := hcall vals hvals
  have hlength : fam.length k .validators = vals.length := by
    rw [length, hvals]
    rfl
  obtain ⟨hwf, hhandlers, hmaps, hcount, hget⟩ := appendValidator_spec hinv hk hvals inPlace val
  obtain ⟨keys', hindex', hkeys, hown⟩ := hindex.append_or_same (hsegments k vals hk hvals) hkey
    (by rwa [length_map]) (by
      intro key' hkey'
      refine hclash inPlace val rfl m ?_ key' ?_
      · show fam.handlers[k]?.bind _ = _
        rw [hk, bind_some, hm]
      · rw [hlength, hkey', length_map])
  rw [length_map] at hindex'
  refine ⟨hwf, ?_, ?_, ?_, ?_⟩
  · rw [hcount, hhandlers, hinv.length_eq]
  · intro k' handler' hk'
    rw [hhandlers] at hk'
    rw [hget]
    split
    · exact ⟨_, rfl⟩
    · exact hinv.live k' handler' hk'
  · intro k' handler' hk'
    rw [hhandlers] at hk'
    obtain ⟨m', hm'⟩ := hinv.map k' handler' hk'
    rw [hmaps, getElem?_modify, hm']
    exact ⟨_, rfl⟩
  · intro handler' m' hm'
    rw [hmaps] at hm'
    by_cases hh : handler = handler'
    · subst hh
      rw [getElem?_modify_eq, hm] at hm'
      obtain rfl := some.inj hm'
      refine ⟨keys', hindex', fun k' vals' hk' hvals' => ?_⟩
      rw [hhandlers] at hk'
      rw [hget] at hvals'
      split at hvals'
      · obtain rfl := some.inj hvals'
        rw [map_append]
        exact hown
      · exact (hsegments k' vals' hk' hvals').trans hkeys
    · rw [getElem?_modify_ne _ _ hh] at hm'
      obtain ⟨keys₀, hindex₀, hsegments₀⟩ := hinv.index handler' m' hm'
      refine ⟨keys₀, hindex₀, fun k' vals' hk' hvals' => ?_⟩
      rw [hhandlers] at hk'
      rw [hget, if_neg (fun heq => hh ?_)] at hvals'
      · exact hsegments₀ k' vals' hk' hvals'
      · rw [heq, hk] at hk'
        exact some.inj hk'

theorem not_lookupsRight_of_clash (hinv : KeysInv fam)
    (hk : fam.handlers[k]? = some handler) {inPlace : Bool}
    (hcall : RegistryCall fam (k, .appendValidator inPlace val))
    (hclash : ¬ NoClash fam (k, .appendValidator inPlace val)) :
    ¬ LookupsRight (fam.appendValidator k inPlace val) := by
  intro hright
  apply hclash
  intro inPlace' val' heq m hm key hkey
  obtain ⟨vals, hvals⟩ := hinv.live k handler hk
  obtain ⟨-, hlen⟩ := hcall vals hvals
  have hlength : fam.length k .validators = vals.length := by
    rw [length, hvals]
    rfl
  obtain ⟨-, hhandlers, hmaps, -, hget⟩ := appendValidator_spec hinv hk hvals inPlace val
  have hself := hget k
  rw [if_pos rfl] at hself
  cases heq
  by_contra hne
  have hm : fam.keyMaps[handler]? = some m := by
    change fam.handlers[k]?.bind _ = _ at hm
    rwa [hk, bind_some] at hm
  have hkey : m key = some (BitVec.ofNat 64 vals.length) := by
    rw [← hlength]
    exact hkey
  have hnat := toNat_ofNat_of_lt (show vals.length < 2 ^ 63 by omega)
  have hfound : (fam.appendValidator k inPlace val).validatorIndexByPubkey k key =
      (BitVec.ofNat 64 vals.length, true) := by
    have hlength' : (fam.appendValidator k inPlace val).length k .validators = vals.length + 1 := by
      rw [length, hself]
      simp
    rw [validatorIndexByPubkey, hhandlers, hk, bind_some, hmaps, getElem?_modify, hm]
    simp [update_of_ne hne, hkey, hlength', hnat]
  obtain ⟨v, hv, rfl⟩ := (hright k _ hself key _).mp hfound
  rw [hnat, getElem?_concat_length] at hv
  exact hne (congrArg Validator.publicKey (some.inj hv)).symm

end Step

theorem KeysInv.call {fam : Family} (hinv : KeysInv fam) {call : ℕ × StateOp}
    (hcall : RegistryCall fam call) (hclash : NoClash fam call) : KeysInv (fam.step call) := by
  obtain ⟨k, op⟩ := call
  cases op with
  | copy => exact hinv.copy k
  | setValidators val => exact hinv.setValidators k hcall.1 hcall.2
  | appendValidator inPlace val =>
    show KeysInv (fam.appendValidator k inPlace val)
    cases hk : fam.handlers[k]? with
    | none =>
      have hnone := hinv.holder?_eq_none hk
      rw [Family.appendValidator, append, onField_of_holder?_none hnone, hk]
      exact hinv
    | some handler => exact hinv.appendValidator hk inPlace hcall hclash
  | _ => exact hcall.elim

theorem not_lookupsRight_step {fam : Family} (hinv : KeysInv fam) {call : ℕ × StateOp}
    (hcall : RegistryCall fam call) (hclash : ¬ NoClash fam call) :
    ¬ LookupsRight (fam.step call) := by
  obtain ⟨k, op⟩ := call
  cases op with
  | appendValidator inPlace val =>
    cases hk : fam.handlers[k]? with
    | none =>
      refine absurd (fun inPlace' val' _ m hm => ?_) hclash
      change fam.handlers[k]?.bind _ = _ at hm
      rw [hk] at hm
      cases hm
    | some handler => exact not_lookupsRight_of_clash hinv hk hcall hclash
  | _ => exact absurd (fun _ _ h => by cases h) hclash

/-- Lookups agree with the registries all along a run exactly if no append clashes with the map
that the state shares. -/
theorem lookups_right_iff_no_clash (st : (f : SharedField) → List f.Elem)
    (hnodup : ((st .validators).map (·.publicKey)).Nodup)
    (hlen : (st .validators).length < 2 ^ 63) (calls : List (ℕ × StateOp))
    (hcalls : Admits step RegistryCall (initializeFromProto st) calls) :
    LookupsRight (initializeFromProto st) ∧
    (Admits step (fun fam call => LookupsRight (fam.step call)) (initializeFromProto st) calls ↔
      Admits step NoClash (initializeFromProto st) calls) := by
  have hinv := initializeFromProto_keysInv hnodup hlen
  refine ⟨hinv.lookupsRight, ?_⟩
  generalize initializeFromProto st = fam at hcalls hinv
  induction calls generalizing fam with
  | nil => simp
  | cons call calls ih =>
    rw [admits_cons, admits_cons]
    by_cases hclash : NoClash fam call
    · have hinv' := hinv.call hcalls.1 hclash
      rw [ih (fam.step call) hcalls.2 hinv']
      simp [hinv'.lookupsRight, hclash]
    · simp [not_lookupsRight_step hinv hcalls.1 hclash, hclash]

/-- Two validators with different keys. -/
def keyed (key : PubKey) : Validator := { (default : Validator) with publicKey := key }

/-- A state without validators. -/
def emptyRegistry : (f : SharedField) → List f.Elem := fun _ => []

/-- Copies that append the same key, and then go different ways after `SetValidators`. -/
def agreeingCalls : List (ℕ × StateOp) :=
  [(0, .copy), (0, .appendValidator true (keyed 1)), (1, .appendValidator false (keyed 1)),
    (1, .setValidators [keyed 2, keyed 1]), (1, .appendValidator true (keyed 3))]

theorem agreeing_calls_right : Admits step (fun fam call => LookupsRight (fam.step call))
    (initializeFromProto emptyRegistry) agreeingCalls := by
  have hcalls : Admits step RegistryCall (initializeFromProto emptyRegistry) agreeingCalls := by
    refine ⟨trivial, ?_, ?_, ⟨by decide +kernel, by decide⟩, ?_, trivial⟩
    all_goals
      intro vals hvals
      obtain rfl := some.inj hvals
      decide +kernel
  have hclash : Admits step NoClash (initializeFromProto emptyRegistry) agreeingCalls := by
    refine ⟨?_, ?_, ?_, ?_, ?_, trivial⟩
    · intro _ _ heq
      cases heq
    · intro _ _ _ m hm key hkey
      obtain rfl := some.inj hm
      cases hkey
    · intro _ _ heq m hm key hkey
      obtain rfl := some.inj hm
      cases heq
      by_contra hne
      change update (fun _ => none) (keyed 1).publicKey (some 0) key = _ at hkey
      rw [update_of_ne hne] at hkey
      cases hkey
    · intro _ _ heq
      cases heq
    · intro _ _ _ m hm key hkey
      obtain rfl := some.inj hm
      change update (update (fun _ => none) 2 (some 0)) 1 (some 1) key =
        some (2 : ValidatorIndex) at hkey
      rw [update_apply, update_apply] at hkey
      split at hkey
      · cases hkey
      · split at hkey <;> cases hkey
  exact ((lookups_right_iff_no_clash emptyRegistry (by decide) (by decide) agreeingCalls
    hcalls).2).mpr hclash

/-- Two copies append different keys at the same index, and the lookup of the first one's key
in the second finds the second one's validator. -/
theorem sibling_key_found :
    let fam := [(0, .copy), (0, .appendValidator true (keyed 1)),
      (1, .appendValidator true (keyed 2))].foldl step (initializeFromProto emptyRegistry)
    fam.get 1 .validators = some [keyed 2] ∧ fam.validatorIndexByPubkey 1 1 = (0, true) :=
  ⟨rfl, by decide +kernel⟩

end Family

end Vanguard.Beacon
