import Mathlib

/-!
Lookups in ordered maps whose comparison decides equality.
-/

namespace Vanguard.TreeMap

open List Std.ExtTreeMap

variable {α β : Type*} [Ord α] [Std.TransOrd α] [Std.LawfulEqOrd α] [DecidableEq α]

theorem getElem?_insert (m : Std.ExtTreeMap α β) (k a : α) (v : β) :
    (m.insert k v)[a]? = if a = k then some v else m[a]? := by
  rw [Std.ExtTreeMap.getElem?_insert]
  simp only [Std.compare_eq_iff_eq, @eq_comm _ k]

theorem getElem?_erase (m : Std.ExtTreeMap α β) (k a : α) :
    (m.erase k)[a]? = if a = k then none else m[a]? := by
  rw [Std.ExtTreeMap.getElem?_erase]
  simp only [Std.compare_eq_iff_eq, @eq_comm _ k]

theorem getElem?_foldl_erase (ks : List α) (m : Std.ExtTreeMap α β) (a : α) :
    (ks.foldl (fun m k => m.erase k) m)[a]? = if a ∈ ks then none else m[a]? := by
  induction ks generalizing m with
  | nil => simp
  | cons k ks ih =>
    rw [foldl_cons, ih, getElem?_erase]
    by_cases hk : a = k <;> by_cases hks : a ∈ ks <;> simp [hk, hks]

variable {m : Std.ExtTreeMap α β} {k : α} {v : β}

omit [DecidableEq α] in
theorem mem_insert_iff {a : α} : a ∈ m.insert k v ↔ a = k ∨ a ∈ m := by
  rw [mem_insert, Std.compare_eq_iff_eq, eq_comm]

omit [Std.LawfulEqOrd α] [DecidableEq α] in
theorem mem_of_getElem? (h : m[k]? = some v) : k ∈ m := by
  rw [← isSome_getElem?_iff_mem, h]
  rfl

omit [DecidableEq α] in
theorem mem_foldl_insert {ks : List α} {a : α} :
    a ∈ ks.foldl (fun m k => m.insert k v) m ↔ a ∈ ks ∨ a ∈ m := by
  induction ks generalizing m with
  | nil => simp
  | cons k ks ih =>
    rw [foldl_cons, ih, mem_insert_iff, mem_cons, ← or_assoc, or_comm (a := a ∈ ks)]

theorem getD_insert (m : Std.ExtTreeMap α β) (k a : α) (v d : β) :
    (m.insert k v).getD a d = if a = k then v else m.getD a d := by
  rw [getD_eq_getD_getElem?, getD_eq_getD_getElem?, getElem?_insert]
  split <;> rfl

omit [Std.LawfulEqOrd α] [DecidableEq α] in
theorem contains_iff : m.contains k = true ↔ ∃ v, m[k]? = some v := by
  rw [contains_eq_isSome_getElem?, Option.isSome_iff_exists]

omit [Std.LawfulEqOrd α] [DecidableEq α] in
theorem contains_eq_false_iff : m.contains k = false ↔ m[k]? = none := by
  rw [contains_eq_isSome_getElem?, Option.isSome_eq_false_iff, Option.isNone_iff_eq_none]

omit [DecidableEq α] in
theorem mem_keys_iff : k ∈ m.keys ↔ m[k]? ≠ none := by
  rw [Std.ExtTreeMap.mem_keys, ← isSome_getElem?_iff_mem, Option.isSome_iff_ne_none]

/-! ### Loops over keys -/

omit [Std.LawfulEqOrd α] in
/-- A loop whose rounds each change the value of their own key, for keys that are
all different. -/
theorem getElem?_foldl_local {γ : Type*} {u : Std.ExtTreeMap α β → γ → Std.ExtTreeMap α β}
    {k : γ → α} {f : γ → Option β → Option β}
    (hu : ∀ m c a, (u m c)[a]? = if a = k c then f c m[a]? else m[a]?) {l : List γ}
    (hl : (l.map k).Nodup) (m : Std.ExtTreeMap α β) :
    (∀ c ∈ l, (l.foldl u m)[k c]? = f c m[k c]?) ∧
      ∀ a, a ∉ l.map k → (l.foldl u m)[a]? = m[a]? := by
  induction l generalizing m with
  | nil => simp
  | cons c l ih =>
    obtain ⟨hc, hl⟩ := nodup_cons.mp hl
    obtain ⟨hin, hout⟩ := ih hl (u m c)
    refine ⟨fun d hd => ?_, fun a ha => ?_⟩
    · rw [foldl_cons]
      rcases mem_cons.mp hd with rfl | hd
      · rw [hout _ hc, hu, if_pos rfl]
      · have hne : k d ≠ k c := fun heq => hc (heq ▸ mem_map_of_mem hd)
        rw [hin d hd, hu, if_neg hne]
    · rw [map_cons, mem_cons, not_or] at ha
      rw [foldl_cons, hout a ha.2, hu, if_neg ha.1]

/-! ### Deleting from the front -/

/-- Deletes entries from the first on, as long as their keys pass the test. -/
def deleteWhile (p : α → Bool) (m : Std.ExtTreeMap α β) : Std.ExtTreeMap α β :=
  (m.keys.takeWhile p).foldl (fun m k => m.erase k) m

theorem mem_takeWhile_of_downward {α : Type*} {p : α → Bool} {l : List α}
    (hl : l.Pairwise fun a b => p b = true → p a = true) {a : α} :
    a ∈ l.takeWhile p ↔ a ∈ l ∧ p a = true := by
  induction l with
  | nil => simp
  | cons b l ih =>
    obtain ⟨hb, hl⟩ := pairwise_cons.mp hl
    by_cases hpb : p b = true
    · rw [takeWhile_cons_of_pos hpb, mem_cons, mem_cons, ih hl, or_and_right,
        and_iff_left_of_imp fun heq : a = b => heq ▸ hpb]
    · rw [takeWhile_cons_of_neg hpb]
      refine iff_of_false not_mem_nil ?_
      rintro ⟨ha, hpa⟩
      rcases mem_cons.mp ha with rfl | ha
      · exact hpb hpa
      · exact hpb (hb a ha hpa)

theorem mem_dropWhile_of_downward {α : Type*} {p : α → Bool} {l : List α}
    (hl : l.Pairwise fun a b => p b = true → p a = true) {a : α} :
    a ∈ l.dropWhile p ↔ a ∈ l ∧ p a = false := by
  induction l with
  | nil => simp
  | cons b l ih =>
    obtain ⟨hb, hl⟩ := pairwise_cons.mp hl
    by_cases hpb : p b = true
    · rw [dropWhile_cons_of_pos hpb, ih hl, mem_cons, or_and_right, or_iff_right]
      rintro ⟨rfl, hpa⟩
      exact absurd hpb (Bool.eq_false_iff.mp hpa)
    · rw [dropWhile_cons_of_neg hpb]
      refine ⟨fun ha => ⟨ha, ?_⟩, And.left⟩
      rcases mem_cons.mp ha with rfl | ha
      · exact Bool.eq_false_iff.mpr hpb
      · exact Bool.eq_false_iff.mpr fun hpa => hpb (hb a ha hpa)

/-- A test that holds of all smaller keys as well deletes exactly the keys that
pass it. -/
theorem getElem?_deleteWhile {p : α → Bool}
    (hp : ∀ a ∈ m, ∀ b ∈ m, compare a b = .lt → p b = true → p a = true) (a : α) :
    (deleteWhile p m)[a]? = if p a = true then none else m[a]? := by
  have hmono : m.keys.Pairwise fun a b => p b = true → p a = true := by
    refine ordered_keys.imp_of_mem fun {x y} hx hy => ?_
    exact hp x (Std.ExtTreeMap.mem_keys.mp hx) y (Std.ExtTreeMap.mem_keys.mp hy)
  rw [deleteWhile, getElem?_foldl_erase]
  simp only [mem_takeWhile_of_downward hmono, Std.ExtTreeMap.mem_keys]
  by_cases ha : a ∈ m <;> simp [ha]

end Vanguard.TreeMap
