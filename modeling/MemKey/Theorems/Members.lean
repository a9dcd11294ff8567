import MemKey.Theorems.Set

/-! What a set keeps. An insertion of `set_add`, also one of a resize, stops at a free slot or at its own key. If
    it finds neither, the key is dropped, and the reply is the one for a key that is there already. As long as
    that does not happen, no member is lost. -/

namespace MemKey
open Probing Outcome

namespace Table
variable {α : Type} {m : IntMode} {key : α → Bytes} {t : Table α} {a : α} {k : Bytes} {l : List α}

/-- The insertion of `a` stops at a free slot or at an entry with its key, and if the table then grows, so do all
    insertions into the larger table. -/
def AddSettles (m : IntMode) (key : α → Bytes) (t : Table α) (a : α) : Prop :=
  ∃ ix b, addWalk m key true t a = .hit (ix, b) ∧ (b.vacant = true → Grows m key true (fun _ => true) t ix a)

/-- If the table shrinks without the entry of `k`, the insertions into the smaller table all stop at a free slot
    or at an entry with the key, and the percentage that made it shrink did not overflow. -/
def RemoveSettles (m : IntMode) (key : α → Bytes) (t : Table α) (k : Bytes) : Prop :=
  Shrinks m key true (fun _ => true) t k

instance : Decidable (AddSettles m key t a) := by
  unfold AddSettles
  infer_instance

/-- Every key of the one list is a key of the other. -/
def Covers (key : α → Bytes) (l l' : List α) : Prop := ∀ a ∈ l, ∃ b ∈ l', key b = key a

theorem Covers.refl (l : List α) : Covers key l l := fun a ha => ⟨a, ha, rfl⟩

theorem Covers.trans {l l' l'' : List α} (h : Covers key l l') (h' : Covers key l' l'') : Covers key l l'' := by
  intro a ha
  obtain ⟨b, hb, hab⟩ := h a ha
  obtain ⟨c, hc, hbc⟩ := h' b hb
  exact ⟨c, hc, hbc.trans hab⟩

theorem Covers.of_subset {l l' : List α} (h : l ⊆ l') : Covers key l l' := fun a ha => ⟨a, h ha, rfl⟩

/-- An insertion that stops at an entry with the key stores nothing. -/
theorem add_live {ix : ℕ} {b : α} (hwalk : addWalk m key true t a = .hit (ix, .live b)) (depth : ℕ) :
    add m key true (depth + 1) t a = .ok (t, false) ∧ b ∈ t.entries ∧ key b = key a := by
  obtain ⟨_, -, -, hlook, hstop, -⟩ := walk_eq_hit.mp hwalk
  refine ⟨by rw [add, hwalk], mem_entries.mpr ⟨ix, (look_eq_some.mp hlook).2⟩, by simpa [addStop] using hstop⟩

theorem WF.refill_settles (hw : t.WF m key) (depth : ℕ) (hload : (t.used + l.length) * 100 < 71 * t.size)
    (hs : Places m key true (fun _ => true) t l) :
    ∃ t', refill (add m key true (depth + 1)) t l = .ok t' ∧ Covers key (l ++ t.entries) t'.entries := by
  induction l generalizing t with
  | nil => exact ⟨t, rfl, .refl _⟩
  | cons a l ih =>
    simp only [List.length_cons, Nat.cast_add, Nat.cast_one] at hload
    obtain ⟨ix, b, hwalk, -, hs⟩ := hs
    cases hb : b.vacant with
    | true =>
      rw [if_pos hb] at hs
      obtain ⟨hplace, hperm, hadd⟩ := hw.add_hit hwalk hb depth
      have hroom : (t.used + 1) * 100 < (70 + 1) * t.size := by omega
      have hle : load m (t.place ix a) ≤ 70 := load_le hplace hroom
      have hl : (t.used + 1 + l.length) * 100 < 71 * t.size := by omega
      obtain ⟨t', h, hcov⟩ := ih hplace hl hs
      refine ⟨t', by rw [refill, hadd, resizeUp, if_neg (by omega)]; exact h, ?_⟩
      have hsub : a :: l ++ t.entries ⊆ l ++ (t.place ix a).entries :=
        ((hperm.append_left l).trans List.perm_middle).symm.subset
      exact (Covers.of_subset hsub).trans hcov
    | false =>
      rw [if_neg (by simp [hb])] at hs
      cases b with
      | live b =>
        obtain ⟨hadd, hmem, hk⟩ := add_live hwalk depth
        obtain ⟨t', h, hcov⟩ := ih hw (by omega) hs
        refine ⟨t', by rw [refill, hadd]; exact h, fun c hc => ?_⟩
        rcases List.mem_cons.mp hc with rfl | hc
        · exact hk ▸ hcov b (List.mem_append_right l hmem)
        · exact hcov c hc
      | null => cases hb
      | deleted => cases hb

theorem refill_init_settles {new : Int} (hnew : m = .wrap → new < 2 ^ 31) (depth : ℕ) (hroom : Room (init new) l)
    (hs : Places m key true (fun _ => true) (init new) l) :
    ∃ t', refill (add m key true (depth + 1)) (init new) l = .ok t' ∧ Covers key l t'.entries := by
  obtain ⟨t', h, hcov⟩ := (init_wf hnew).refill_settles depth hroom hs
  rw [entries_init, List.append_nil] at hcov
  exact ⟨t', h, hcov⟩

theorem WF.resizeUp_settles (hw : t.WF m key) (depth : ℕ)
    (hs : load m t > 70 → Refills m key true (fun _ => true) (m.int (t.size * 2)) t.entries) :
    ∃ t', resizeUp m (add m key true (depth + 1)) t = .ok t' ∧ Covers key t.entries t'.entries :=
  hw.resizeUp_keeps (.refl _) fun hload hnew hroom =>
    refill_init_settles (IntMode.int_lt _) depth hroom (hs hload hnew)

theorem WF.resizeDown_settles (hw : t.WF m key) (depth : ℕ) (hs : load m t < 10 →
    m.int (t.used * 100) = t.used * 100 ∧ Refills m key true (fun _ => true) (t.size / 2 : ℕ) t.entries) :
    ∃ t', resizeDown m (add m key true (depth + 1)) t = .ok t' ∧ Covers key t.entries t'.entries :=
  hw.resizeDown_keeps (.refl _) (fun hload => (hs hload).1) fun hload hnew hroom =>
    refill_init_settles hw.half_lt depth hroom ((hs hload).2 hnew)

theorem WF.add_settles (hw : t.WF m key) (hs : AddSettles m key t a) (depth : ℕ) :
    ∃ t' stored, add m key true (depth + 2) t a = .ok (t', stored) ∧ Covers key (a :: t.entries) t'.entries := by
  obtain ⟨ix, b, hwalk, hgrow⟩ := hs
  cases hb : b.vacant with
  | true =>
    obtain ⟨hplace, hperm, hadd⟩ := hw.add_hit hwalk hb (depth + 1)
    obtain ⟨t', h, hcov⟩ := hplace.resizeUp_settles depth (hgrow hb)
    exact ⟨t', true, by rw [hadd, h]; rfl, (Covers.of_subset hperm.symm.subset).trans hcov⟩
  | false =>
    cases b with
    | live b =>
      obtain ⟨hadd, hmem, hk⟩ := add_live hwalk (depth + 1)
      refine ⟨t, false, hadd, fun c hc => ?_⟩
      rcases List.mem_cons.mp hc with rfl | hc
      · exact ⟨b, hmem, hk⟩
      · exact ⟨c, hc, rfl⟩
    | null => cases hb
    | deleted => cases hb

theorem WF.remove_settles (hw : t.WF m key) (hs : RemoveSettles m key t k) {t' : Table α} {ok : Bool}
    (h : remove m key true t k = .ok (t', ok)) : ∀ b ∈ t.entries, key b ≠ k → ∃ c ∈ t'.entries, key c = key b := by
  intro b hb hne
  obtain ⟨r, hfind, h⟩ := bind_eq_ok.mp h
  cases r with
  | none =>
    cases h
    exact ⟨b, hb, rfl⟩
  | some p =>
    obtain ⟨ix, a⟩ := p
    obtain ⟨hix, hk⟩ := find_some hfind
    obtain ⟨t'', hdown, hcov⟩ := (hw.bury hix).resizeDown_settles 1 (hs ix a hfind)
    obtain ⟨t₁, h₁, heq⟩ := bind_eq_ok.mp h
    cases heq
    obtain rfl : t'' = t' := Except.ok.inj (hdown.symm.trans h₁)
    rcases List.mem_cons.mp ((bury_perm hix).subset hb) with rfl | hb
    · exact absurd hk hne
    · exact hcov b hb

end Table

/-- The condition under which an operation loses no member: its insertions all find a free slot or their own key. -/
def SetOp.Fits (m : IntMode) (st : CSet) : SetOp → Prop
  | add key => st.AddSettles m id key
  | rem key => st.RemoveSettles m id key

instance (m : IntMode) (st : CSet) : (op : SetOp) → Decidable (op.Fits m st)
  | .add key => inferInstanceAs (Decidable (st.AddSettles m id key))
  | .rem key => inferInstanceAs (Decidable (st.Shrinks m id true (fun _ => true) key))

section Set
variable {m : IntMode} {st st' st'' : CSet} {key : Bytes} {op : SetOp} {P : CSet → SetOp → Prop} {ok : Bool}

theorem setAdd_keeps (hw : st.WF m id) (hs : st.AddSettles m id key) (h : setAdd m st key = .ok (st', ok)) :
    key ∈ setMembers st' ∧ setMembers st ⊆ setMembers st' := by
  obtain ⟨t', stored, hadd, hcov⟩ := hw.add_settles hs 0
  obtain ⟨rfl, -⟩ := Prod.mk.inj (Except.ok.inj (hadd.symm.trans h))
  have hsub : key :: setMembers st ⊆ setMembers t' := fun k hk => by
    obtain ⟨k', hk', heq⟩ := hcov k hk
    obtain rfl : k' = k := heq
    exact hk'
  exact ⟨hsub List.mem_cons_self, fun k hk => hsub (List.mem_cons_of_mem key hk)⟩

theorem SetOp.keeps (hw : st.WF m id) (hf : op.Fits m st) (hne : op ≠ .rem key) (h : op.step m st = .ok st')
    (hmem : key ∈ setMembers st) : key ∈ setMembers st' := by
  obtain ⟨⟨t, ok⟩, hr, heq⟩ := bind_eq_ok.mp h
  cases heq
  cases op with
  | add k => exact (setAdd_keeps hw hf hr).2 hmem
  | rem k =>
    obtain ⟨k', hk', heq⟩ := hw.remove_settles hf hr key hmem fun heq => hne (congrArg SetOp.rem heq.symm)
    obtain rfl : k' = key := heq
    exact hk'

/-- A member is found, also when it is there more than once. -/
theorem setIsmember_mem (hw : st.WF m id) (hmem : key ∈ setMembers st) : setIsmember m st key = .ok true := by
  obtain ⟨ix, hix⟩ := mem_entries.mp hmem
  obtain ⟨jx, k, hseek, -⟩ := hw.reaches.seek_of_live hix
  have hfind : Table.find m id st key = .ok (some (jx, k)) := by
    rw [Table.find, show seek id (probePath m st.size) st.size st.slots key = _ from hseek]
  rw [setIsmember, hfind]
  rfl

/-- Whatever `set_add` replies, the string is a member from then on until `set_rem` is called for it, as long as
    every insertion from then on finds a free slot or its own key. -/
theorem set_keeps_members (h : SetReached m P st) (hf : st.AddSettles m id key)
    (hadd : setAdd m st key = .ok (st', ok))
    (hrun : Runs.Reached (SetOp.step m) st' (fun st op => op.Fits m st ∧ op ≠ .rem key) st'') :
    setIsmember m st'' key = .ok true := by
  have hw' : st'.WF m id := ((h.wf.add_spec 0 key).of_ok hadd).wf
  obtain ⟨hw'', hmem⟩ := hrun.invariant (fun st => st.WF m id ∧ key ∈ setMembers st)
    ⟨hw', (setAdd_keeps h.wf hf hadd).1⟩ fun st op st₁ ⟨hw, hmem⟩ ⟨hfits, hne⟩ hstep =>
      ⟨SetOp.wf hw hstep, SetOp.keeps hw hfits hne hstep hmem⟩
  exact setIsmember_mem hw'' hmem

end Set

/-- `SADD a f`: growing to 5 slots moves both members. -/
theorem set_keeps_members_pair :
    setIsmember .wrap ⟨5, 2, [.live (str "a"), .null, .live (str "f"), .null, .null]⟩ (str "a") = .ok true := by
  have hfits : Table.AddSettles .wrap id (setInit htBaseSize) (str "a") := by decide +kernel
  have hadd : setAdd .wrap (setInit htBaseSize) (str "a") = .ok (⟨2, 1, [.live (str "a"), .null]⟩, true) := by
    decide +kernel
  have hgrows : SetOp.Fits .wrap ⟨2, 1, [.live (str "a"), .null]⟩ (.add (str "f")) := by decide +kernel
  have hstep : SetOp.step .wrap ⟨2, 1, [.live (str "a"), .null]⟩ (.add (str "f")) =
      .ok ⟨5, 2, [.live (str "a"), .null, .live (str "f"), .null, .null]⟩ := by decide +kernel
  have hreached : SetReached .wrap (fun _ _ => True) (setInit htBaseSize) := .init
  exact set_keeps_members hreached hfits hadd (.step .init ⟨hgrows, by simp⟩ hstep)

/-- `SADD d i` loses `d` when the set grows to 5 slots, and `SADD i d` loses `d` as it is inserted. -/
theorem set_loses_members :
    (∃ st st', SetReached .wrap (fun _ _ => True) st ∧ setIsmember .wrap st (str "d") = .ok true ∧
      setAdd .wrap st (str "i") = .ok (st', true) ∧ setIsmember .wrap st' (str "d") = .ok false) ∧
    ∃ st st', SetReached .wrap (fun _ _ => True) st ∧ setAdd .wrap st (str "d") = .ok (st', true) ∧
      setIsmember .wrap st' (str "d") = .ok false := by
  have hd : Runs.run (SetOp.step .wrap) (setInit htBaseSize) [.add (str "d")] =
      .ok ⟨2, 1, [.null, .live (str "d")]⟩ := by decide +kernel
  have hi : Runs.run (SetOp.step .wrap) (setInit htBaseSize) [.add (str "i")] =
      .ok ⟨2, 1, [.live (str "i"), .null]⟩ := by decide +kernel
  refine ⟨⟨_, ⟨5, 2, [.null, .null, .null, .live (str "i"), .null]⟩,
    Runs.Reached.init.run (fun _ _ => trivial) hd, ?_⟩,
    _, ⟨5, 2, [.null, .null, .null, .live (str "i"), .null]⟩, Runs.Reached.init.run (fun _ _ => trivial) hi, ?_⟩
  all_goals decide +kernel

end MemKey
