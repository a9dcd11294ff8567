import MemKey.Htable
import MemKey.Theorems.Table

/-! What a resize moves. A resize keeps the counter, also when it drops an entry. As long as every entry that a
    resize moves finds a free slot, an insertion adds one entry, a removal takes one away, and the counter follows. -/

namespace MemKey
open Probing Outcome

namespace Table
variable {α : Type} {m : IntMode} {key : α → Bytes} {compare : Bool} {t t' : Table α} {a : α} {k : Bytes} {l : List α}
  {b : Bool}

/-- If the insertion of `a` makes the table grow, every entry finds a free slot in the larger table. -/
def GrowMoves (m : IntMode) (key : α → Bytes) (compare : Bool) (t : Table α) (a : α) : Prop :=
  ∀ ix b, addWalk m key compare t a = .hit (ix, b) → b.vacant = true → Grows m key compare Slot.vacant t ix a

/-- If the removal of `k` makes the table shrink, every entry finds a free slot in the smaller table, and the
    percentage that made it shrink did not overflow. -/
def ShrinkMoves (m : IntMode) (key : α → Bytes) (compare : Bool) (t : Table α) (k : Bytes) : Prop :=
  Shrinks m key compare Slot.vacant t k

instance : Decidable (GrowMoves m key compare t a) := by
  unfold GrowMoves
  infer_instance

instance : Decidable (ShrinkMoves m key compare t k) := inferInstanceAs (Decidable (Shrinks m key compare Slot.vacant t k))

theorem AddFits.growMoves (h : AddFits m key t a) : GrowMoves m key false t a := by
  obtain ⟨ix, b, hwalk, hgrows⟩ := h
  intro jx c hwalk' _
  cases hwalk.symm.trans hwalk'
  exact hgrows

theorem RemoveFits.shrinkMoves (h : RemoveFits m key t k) : ShrinkMoves m key false t k := h

/-- What an insertion does: nothing, or it adds its entry and counts it. -/
theorem WF.add_moves (hw : t.WF m key) (hg : GrowMoves m key compare t a) (depth : ℕ)
    (h : add m key compare (depth + 2) t a = .ok (t', b)) :
    b = false ∧ t' = t ∨ b = true ∧ t'.entries.Perm (a :: t.entries) ∧ t'.used = t.used + 1 := by
  have hused := ((hw.add_spec depth a).of_ok h).used
  rcases hw.add_cases compare (depth + 1) a with ⟨-, hadd⟩ | hadd | ⟨ix, c, hwalk, hc⟩
  · cases hadd.symm.trans h
  · cases hadd.symm.trans h
    exact .inl ⟨rfl, rfl⟩
  · obtain ⟨hplace, hperm, hadd⟩ := hw.add_hit hwalk hc (depth + 1)
    obtain ⟨t'', hup, hp⟩ := hplace.resizeUp_keeps (R := (List.Perm · (t.place ix a).entries)) (List.Perm.refl _)
      fun hload hnew hroom => refill_init_places (IntMode.int_lt _) depth hroom (hg ix c hwalk hc hload hnew)
    have hadd' : add m key compare (depth + 2) t a = .ok (t'', true) := by
      rw [hadd, hup]
      rfl
    cases hadd'.symm.trans h
    exact .inr ⟨rfl, hp.trans hperm, hused⟩

/-- What a removal does: nothing, or it removes an entry of the key and counts it out. -/
theorem WF.remove_moves (hw : t.WF m key) (hs : ShrinkMoves m key compare t k)
    (h : remove m key compare t k = .ok (t', b)) :
    b = false ∧ t' = t ∧ (∀ a ∈ t.entries, key a ≠ k) ∨
    b = true ∧ ∃ a, key a = k ∧ t.entries.Perm (a :: t'.entries) ∧ t'.used = t.used - 1 := by
  have hspec := (hw.remove_spec k).of_ok h
  cases b with
  | false =>
    obtain ⟨rfl, habsent⟩ := hspec.stays rfl
    exact .inl ⟨rfl, rfl, habsent⟩
  | true =>
    obtain ⟨-, -, -, hused⟩ := hspec.gone rfl
    obtain ⟨r, hfind, hrem⟩ := bind_eq_ok.mp h
    cases r with
    | none => cases hrem
    | some p =>
      obtain ⟨ix, a⟩ := p
      obtain ⟨hix, hk⟩ := find_some hfind
      have hbury := hw.bury hix
      obtain ⟨t'', hdown, hp⟩ := hbury.resizeDown_keeps (R := (List.Perm · (t.bury ix).entries)) (List.Perm.refl _)
        (fun hload => (hs ix a hfind hload).1) fun hload hnew hroom =>
          refill_init_places hbury.half_lt 1 hroom ((hs ix a hfind hload).2 hnew)
      have hrem' : remove m key compare t k = .ok (t'', true) := by
        rw [remove_some hfind, show resizeDown m (add m key compare depth) (t.bury ix) = .ok t'' from hdown]
        rfl
      cases hrem'.symm.trans h
      exact .inr ⟨rfl, a, hk, (bury_perm hix).trans (hp.symm.cons a), hused⟩

/-- The counter is the number of the entries, and there is one. -/
structure Filled (t : Table α) : Prop where
  used : t.used = t.entries.length
  ne_nil : t.entries ≠ []

theorem WF.add_filled (hw : t.WF m key) (hf : t.Filled) (hg : GrowMoves m key compare t a) (depth : ℕ)
    (h : add m key compare (depth + 2) t a = .ok (t', b)) : t'.Filled := by
  rcases hw.add_moves hg depth h with ⟨-, rfl⟩ | ⟨-, hperm, hused⟩
  · exact hf
  · have hlen := hperm.length_eq
    refine ⟨by rw [hused, hf.used, hlen]; rfl, fun hnil => ?_⟩
    rw [hnil] at hlen
    cases hlen

theorem WF.remove_counted (hw : t.WF m key) (hc : t.used = t.entries.length) (hs : ShrinkMoves m key compare t k)
    (h : remove m key compare t k = .ok (t', b)) : t'.used = t'.entries.length := by
  rcases hw.remove_moves hs h with ⟨-, rfl, -⟩ | ⟨-, a, -, hperm, hused⟩
  · exact hc
  · have hlen := hperm.length_eq
    rw [List.length_cons] at hlen
    omega

/-- The keys after a removal. -/
theorem WF.remove_keys (hw : t.WF m key) (hs : ShrinkMoves m key compare t k)
    (h : remove m key compare t k = .ok (t', b)) : (t'.entries.map key).Perm ((t.entries.map key).erase k) := by
  rcases hw.remove_moves hs h with ⟨-, rfl, habs⟩ | ⟨-, a, rfl, hperm, -⟩
  · rw [List.erase_of_not_mem (by simpa using habs)]
  · have hkeys := ((hperm.map key).erase (key a)).symm
    rwa [List.map_cons, List.erase_cons_head] at hkeys

theorem WF.remove_filled (hw : t.WF m key) (hf : t.Filled) (hs : ShrinkMoves m key compare t k)
    (h : remove m key compare t k = .ok (t', b)) (hne : t'.used ≠ 0) : t'.Filled := by
  have hused := hw.remove_counted hf.used hs h
  refine ⟨hused, fun hnil => hne ?_⟩
  rw [hused, hnil]
  rfl

theorem put_filled (hf : t.Filled) {ix : ℕ} {a a' : α} (hix : t.slots[ix]? = some (.live a)) : (t.put ix a').Filled := by
  obtain ⟨rest, hperm, hput⟩ := put_perm hix a'
  have hlen : (t.put ix a').entries.length = t.entries.length := by
    rw [hput.length_eq, hperm.length_eq, List.length_cons, List.length_cons]
  refine ⟨by rw [hlen]; exact hf.used, fun hnil => ?_⟩
  rw [hnil] at hput
  exact nomatch hput.length_eq

/-- The first insertion does not make the table grow. -/
theorem init_place_load (m : IntMode) (ix : ℕ) (a : α) : ¬load m ((init htBaseSize).place ix a) > 70 := by
  change ¬(m.int ((0 + 1) * 100)).tdiv 2 > 70
  cases m <;> decide

theorem init_growMoves : GrowMoves m key compare (init htBaseSize) a :=
  fun ix _ _ _ hload => absurd hload (init_place_load m ix a)

/-- A table of fewer than four slots does not shrink. -/
theorem small_shrinkMoves (hsize : t.size < 4) (hused : t.used = 1) : ShrinkMoves m key compare t k := by
  refine fun ix a _ _ => ⟨?_, fun hnew => by omega⟩
  rw [hused]
  cases m <;> rfl

/-- The first insertion stores its entry. -/
theorem init_add_filled (depth : ℕ) (h : add m key compare (depth + 2) (init htBaseSize) a = .ok (t', b)) :
    t'.Filled := by
  have hw : (init htBaseSize : Table α).WF m key := init_wf fun _ => by decide
  obtain ⟨ix, hwalk⟩ := addWalk_init (m := m) (a := a) htBaseSize compare
  obtain ⟨-, -, hadd⟩ := hw.add_hit hwalk rfl (depth + 1)
  rcases hw.add_moves init_growMoves depth h with ⟨rfl, -⟩ | ⟨-, hperm, hused⟩
  · obtain ⟨_, -, heq⟩ := bind_eq_ok.mp (hadd.symm.trans h)
    cases heq
  · rw [entries_init] at hperm
    have hlen := hperm.length_eq
    refine ⟨by rw [hused, hlen]; rfl, fun hnil => ?_⟩
    rw [hnil] at hlen
    cases hlen

end Table

end MemKey
