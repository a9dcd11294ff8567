import Mathlib.Data.Finmap
import Mathlib.Data.Finset.Card

/-! Lists of keyed entries that stand for finite maps. The keys are distinct, and each entry stands for what the map
    holds at its key; the order is free. -/

namespace Listing

variable {α β κ γ : Type}

/-! ### Maps -/

section Maps
variable [DecidableEq κ]

/-- The entries `l` are those of the map `f`, each related to its value by `R`. -/
structure Lists (key : α → κ) (R : α → γ → Prop) (l : List α) (f : Finmap fun _ : κ => γ) : Prop where
  distinct : (l.map key).Nodup
  entry : ∀ a ∈ l, ∃ c, f.lookup (key a) = some c ∧ R a c
  absent : ∀ k, k ∉ l.map key → f.lookup k = none

/-- The bindings of the map, in some order. -/
abbrev Bindings (l : List (κ × γ)) (f : Finmap fun _ : κ => γ) : Prop := Lists Prod.fst (fun p c => p.2 = c) l f

variable {key : α → κ} {key' : β → κ} {R : α → γ → Prop} {R' : β → γ → Prop} {l l' : List α}
  {f : Finmap fun _ : κ => γ} {a a' : α} {k : κ} {c : γ}

theorem Lists.nil : Lists key R [] ∅ := ⟨List.nodup_nil, by simp, fun k _ => Finmap.lookup_empty k⟩

theorem Lists.perm (h : Lists key R l f) (hp : l'.Perm l) : Lists key R l' f := by
  refine ⟨(hp.map key).nodup_iff.mpr h.distinct, fun a ha => h.entry a (hp.subset ha), fun k hk => h.absent k ?_⟩
  exact fun hmem => hk ((hp.map key).mem_iff.mpr hmem)

theorem Lists.mem_iff (h : Lists key R l f) : k ∈ f ↔ k ∈ l.map key := by
  constructor
  · intro hk
    by_contra hno
    exact Finmap.lookup_eq_none.mp (h.absent k hno) hk
  · intro hk
    obtain ⟨a, ha, rfl⟩ := List.mem_map.mp hk
    obtain ⟨c, hc, -⟩ := h.entry a ha
    exact Finmap.mem_of_lookup_eq_some hc

theorem Lists.of_lookup (h : Lists key R l f) (hk : f.lookup k = some c) : ∃ a ∈ l, key a = k ∧ R a c := by
  obtain ⟨a, ha, rfl⟩ := List.mem_map.mp (h.mem_iff.mp (Finmap.mem_of_lookup_eq_some hk))
  obtain ⟨c', hc', hR⟩ := h.entry a ha
  obtain rfl : c' = c := Option.some.inj (hc'.symm.trans hk)
  exact ⟨a, ha, rfl, hR⟩

/-- As many entries as keys. -/
theorem Lists.card (h : Lists key R l f) : f.keys.card = l.length := by
  have hkeys : f.keys = (l.map key).toFinset := by
    ext k
    rw [Finmap.mem_keys, h.mem_iff, List.mem_toFinset]
  rw [hkeys, List.toFinset_card_of_nodup h.distinct, List.length_map]

theorem Lists.eq_empty_iff (h : Lists key R l f) : f = ∅ ↔ l = [] := by
  constructor
  · rintro rfl
    exact List.length_eq_zero_iff.mp (h.card.symm.trans (by simp))
  · rintro rfl
    refine Finmap.ext_lookup fun k => ?_
    rw [h.absent k List.not_mem_nil, Finmap.lookup_empty]

theorem Lists.cons (h : Lists key R l f) (hnew : key a ∉ l.map key) (hR : R a c) :
    Lists key R (a :: l) (f.insert (key a) c) := by
  refine ⟨List.nodup_cons.mpr ⟨hnew, h.distinct⟩, fun b hb => ?_, fun k hk => ?_⟩
  · rcases List.mem_cons.mp hb with rfl | hb
    · exact ⟨c, Finmap.lookup_insert f, hR⟩
    · have hne : key b ≠ key a := fun heq => hnew (heq ▸ List.mem_map_of_mem hb)
      obtain ⟨d, hd, hRd⟩ := h.entry b hb
      exact ⟨d, (Finmap.lookup_insert_of_ne f hne).trans hd, hRd⟩
  · rw [List.map_cons, List.mem_cons, not_or] at hk
    exact (Finmap.lookup_insert_of_ne f hk.1).trans (h.absent k hk.2)

theorem Lists.tail (h : Lists key R (a :: l) f) : Lists key R l (f.erase (key a)) := by
  obtain ⟨hnew, hdistinct⟩ := List.nodup_cons.mp h.distinct
  refine ⟨hdistinct, fun b hb => ?_, fun k hk => ?_⟩
  · have hne : key b ≠ key a := fun heq => hnew (heq ▸ List.mem_map_of_mem hb)
    obtain ⟨d, hd, hRd⟩ := h.entry b (List.mem_cons_of_mem a hb)
    exact ⟨d, (Finmap.lookup_erase_ne hne).trans hd, hRd⟩
  · by_cases heq : k = key a
    · subst heq
      exact Finmap.lookup_erase _ f
    · rw [Finmap.lookup_erase_ne heq]
      exact h.absent k (by simp [heq, hk])

theorem insert_erase_self (f : Finmap fun _ : κ => γ) : (f.erase k).insert k c = f.insert k c := by
  refine Finmap.ext_lookup fun k' => ?_
  by_cases heq : k' = k
  · subst heq
    rw [Finmap.lookup_insert, Finmap.lookup_insert]
  · rw [Finmap.lookup_insert_of_ne _ heq, Finmap.lookup_insert_of_ne _ heq, Finmap.lookup_erase_ne heq]

/-- Another entry in the place of one with the same key. -/
theorem Lists.replace (h : Lists key R (a :: l) f) (hk : key a' = key a) (hR : R a' c) :
    Lists key R (a' :: l) (f.insert (key a) c) := by
  have hnew : key a' ∉ l.map key := hk ▸ (List.nodup_cons.mp h.distinct).1
  have hcons := h.tail.cons hnew hR
  rwa [hk, insert_erase_self] at hcons

theorem Lists.map (h : Lists key R l f) {g : α → β} (hkey : ∀ a, key' (g a) = key a)
    (hR : ∀ a ∈ l, ∀ c, R a c → R' (g a) c) : Lists key' R' (l.map g) f := by
  have hkeys : (l.map g).map key' = l.map key := by
    rw [List.map_map]
    exact List.map_congr_left fun a _ => hkey a
  refine ⟨hkeys ▸ h.distinct, fun b hb => ?_, fun k hk => h.absent k (hkeys ▸ hk)⟩
  obtain ⟨a, ha, rfl⟩ := List.mem_map.mp hb
  obtain ⟨c, hc, hac⟩ := h.entry a ha
  exact ⟨c, (hkey a).symm ▸ hc, hR a ha c hac⟩

end Maps

/-! ### Sets -/

section Sets

/-- The elements of the set, in some order. -/
structure Members (l : List κ) (s : Finset κ) : Prop where
  nodup : l.Nodup
  mem : ∀ k, k ∈ l ↔ k ∈ s

variable {l l' : List κ} {s : Finset κ} {k : κ}

theorem Members.nil : Members ([] : List κ) ∅ := ⟨List.nodup_nil, by simp⟩

theorem Members.perm (h : Members l s) (hp : l'.Perm l) : Members l' s :=
  ⟨hp.nodup_iff.mpr h.nodup, fun k => hp.mem_iff.trans (h.mem k)⟩

variable [DecidableEq κ]

theorem Members.card (h : Members l s) : s.card = l.length := by
  have hs : s = l.toFinset := by
    ext k
    rw [List.mem_toFinset, h.mem]
  rw [hs, List.toFinset_card_of_nodup h.nodup]

theorem Members.eq_empty_iff (h : Members l s) : s = ∅ ↔ l = [] := by
  rw [← Finset.card_eq_zero, h.card, List.length_eq_zero_iff]

theorem Members.cons (h : Members l s) (hnew : k ∉ s) : Members (k :: l) (insert k s) := by
  refine ⟨List.nodup_cons.mpr ⟨fun hmem => hnew ((h.mem k).mp hmem), h.nodup⟩, fun k' => ?_⟩
  rw [List.mem_cons, Finset.mem_insert, h.mem]

theorem Members.tail (h : Members (k :: l) s) : Members l (s.erase k) := by
  obtain ⟨hnew, hnodup⟩ := List.nodup_cons.mp h.nodup
  refine ⟨hnodup, fun k' => ?_⟩
  rw [Finset.mem_erase, ← h.mem, List.mem_cons]
  constructor
  · exact fun hk' => ⟨fun heq => hnew (heq ▸ hk'), .inr hk'⟩
  · exact fun ⟨hne, hk'⟩ => hk'.resolve_left hne

end Sets

end Listing
