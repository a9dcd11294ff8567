import MemKey.Lib.Runs
import MemKey.Htable
import MemKey.Theorems.Table

/-! Runs of `set_add` and `set_rem` on a set. -/

namespace MemKey
open Probing Outcome

/-- The operations that change a set. -/
inductive SetOp where
  | add (key : Bytes)
  | rem (key : Bytes)
  deriving DecidableEq, Repr

def SetOp.apply (m : IntMode) (st : CSet) : SetOp → Except Fault (CSet × Bool)
  | add key => setAdd m st key
  | rem key => setRem m st key

def SetOp.step (m : IntMode) (st : CSet) (op : SetOp) : Except Fault CSet := do .ok (← op.apply m st).1

/-- On the probe path of a member, every tombstone comes after the member. -/
def Clear (m : IntMode) (st : CSet) (key : Bytes) : Prop :=
  key ∈ setMembers st → ∀ j < st.size, ∀ ix, look (probePath m st.size key) st.slots j = some (ix, .deleted) →
    ∃ i < j, ∃ jx, look (probePath m st.size key) st.slots i = some (jx, .live key)

/-- Whether a probe looks at the slot content `b`. -/
theorem look_map_snd {path : ℕ → Option ℕ} {slots : List (Slot Bytes)} {j : ℕ} {b : Slot Bytes} :
    (look path slots j).map Prod.snd = some b ↔ ∃ ix, look path slots j = some (ix, b) := by
  cases look path slots j <;> simp [Prod.ext_iff]

instance (m : IntMode) (st : CSet) (key : Bytes) : Decidable (Clear m st key) :=
  decidable_of_iff (key ∈ setMembers st → ∀ j < st.size,
    (look (probePath m st.size key) st.slots j).map Prod.snd = some .deleted →
      ∃ i < j, (look (probePath m st.size key) st.slots i).map Prod.snd = some (.live key)) (by
    simp only [look_map_snd, forall_exists_index, Clear])

/-- The condition under which an operation keeps the members of a set unique. -/
def SetOp.Clear (m : IntMode) (st : CSet) : SetOp → Prop
  | add key => MemKey.Clear m st key
  | rem _ => True

/-- The sets that runs from `set_init(2)` reach whose operations all meet `P`. -/
abbrev SetReached (m : IntMode) (P : CSet → SetOp → Prop) : CSet → Prop :=
  Runs.Reached (SetOp.step m) (setInit htBaseSize) P

section Set
variable {m : IntMode} {st st' : CSet} {key : Bytes}

theorem setInit_wf : (setInit htBaseSize).WF m id := Table.init_wf fun _ => by decide

theorem SetOp.wf {op : SetOp} (hw : st.WF m id) (h : op.step m st = .ok st') : st'.WF m id := by
  obtain ⟨r, hr, heq⟩ := bind_eq_ok.mp h
  cases heq
  cases op with
  | add key => exact ((hw.add_spec 0 key).of_ok hr).wf
  | rem key => exact ((hw.remove_spec key).of_ok hr).wf

theorem SetReached.wf {P : CSet → SetOp → Prop} (h : SetReached m P st) : st.WF m id :=
  h.invariant (·.WF m id) setInit_wf fun _ _ _ hw _ hs => SetOp.wf hw hs

/-! ### Uniqueness -/

theorem Table.WF.addWalk_member (hw : st.WF m id) (hmem : key ∈ st.entries) (hclear : Clear m st key)
    {ix : ℕ} {b : Slot Bytes} (h : st.addWalk m id true key = .hit (ix, b)) : b.vacant = false := by
  obtain ⟨j, -, hj, hlook, -, hpass⟩ := walk_eq_hit.mp h
  -- A live slot with the key on the way would have stopped the walk.
  have hno : ∀ i < j, ∀ jx, look (probePath m st.size key) st.slots i ≠ some (jx, .live key) := by
    intro i hi jx hl
    obtain ⟨b', hb', hs⟩ := hpass i (Nat.zero_le i) hi
    change look (probePath m st.size key) st.slots i = some b' at hb'
    rw [hl] at hb'
    cases hb'
    simp [Table.addStop] at hs
  cases b with
  | live b => rfl
  | deleted =>
    obtain ⟨i, hi, jx, hl⟩ := hclear hmem j (by omega) ix hlook
    exact absurd hl (hno i hi jx)
  | null =>
    -- The member lies on its path before any `null`, so the walk meets it first.
    obtain ⟨kx, hkx⟩ := mem_entries.mp hmem
    obtain ⟨i, -, hl, hused⟩ := (hw.reaches kx key hkx).live hkx
    rcases Nat.lt_or_ge i j with hij | hji
    · exact absurd hl (hno i hij kx)
    · obtain ⟨jx, b', hb', hne⟩ := hused j hji
      cases hlook.symm.trans hb'
      exact absurd rfl hne

theorem setAdd_member (hw : st.WF m id) (hmem : key ∈ st.entries) (hclear : Clear m st key) :
    setAdd m st key ≠ .ok (st', true) := by
  intro h
  rcases hw.add_cases true 1 key with ⟨-, hadd⟩ | hadd | ⟨ix, b, hwalk, hb⟩
  · exact nomatch hadd.symm.trans h
  · exact nomatch hadd.symm.trans h
  · rw [hw.addWalk_member hmem hclear hwalk] at hb
    cases hb

theorem SetOp.distinct {op : SetOp} (hw : st.WF m id) (hd : Distinct id st.entries) (hc : op.Clear m st)
    (h : op.step m st = .ok st') : Distinct id st'.entries := by
  obtain ⟨⟨st', ok⟩, hr, heq⟩ := bind_eq_ok.mp h
  cases heq
  cases op with
  | add key =>
    refine ((hw.add_spec 0 key).of_ok hr).distinct hd fun hok b hb hk => ?_
    obtain rfl : ok = true := hok
    obtain rfl : b = key := hk
    exact setAdd_member hw hb hc hr
  | rem key => exact ((hw.remove_spec key).of_ok hr).distinct hd

theorem SetReached.distinct (h : SetReached m (fun st op => op.Clear m st) st) : Distinct id st.entries := by
  refine (h.invariant (fun st => st.WF m id ∧ Distinct id st.entries) ?_ ?_).2
  · exact ⟨setInit_wf, by rw [setInit, Table.entries_init]; exact List.nodup_nil⟩
  · rintro st op st' ⟨hw, hd⟩ hc hs
    exact ⟨SetOp.wf hw hs, SetOp.distinct hw hd hc hs⟩

theorem SetReached.add (h : SetReached m (fun st op => op.Clear m st) st) (hnew : key ∉ setMembers st)
    (hs : SetOp.step m st (.add key) = .ok st') : SetReached m (fun st op => op.Clear m st) st' := by
  have hc : (SetOp.add key).Clear m st := fun hmem => absurd hmem hnew
  exact .step h hc hs

/-- The converse: a tombstone ahead of a member makes an insertion store the member again. -/
theorem setAdd_hidden (hw : st.WF .exact id) (hclear : ¬Clear .exact st key) :
    ∃ st', setAdd .exact st key = .ok (st', true) := by
  simp only [Clear, not_forall, not_exists, not_and] at hclear
  obtain ⟨hmem, j, hj, ix, hdel, hno⟩ := hclear
  obtain ⟨i, hij, ⟨kx, b⟩, hl, hs, hwalk⟩ :=
    walk_of_stop (fun p => Table.addStop id true key p.2) hj hdel rfl fun i _ => hw.look_isSome i
  have hb : b.vacant = true := by
    cases b with
    | live k =>
      -- The walk stops at a live slot only for the key, and the tombstone comes before those.
      obtain rfl : k = key := by simpa [Table.addStop] using hs
      rcases Nat.eq_or_lt_of_le hij with rfl | hij
      · exact nomatch hdel.symm.trans hl
      · exact absurd hl (hno i hij kx)
    | null => rfl
    | deleted => rfl
  obtain ⟨hplace, -, hadd⟩ := hw.add_hit hwalk hb 1
  have hup := hplace.resizeUp_spec true 0
  unfold setAdd Table.depth
  rw [hadd]
  cases hres : (st.place kx key).resizeUp .exact (Table.add .exact id true 1) with
  | ok st' => exact ⟨st', rfl⟩
  | error e => exact (hup.of_error hres).exact.elim

theorem setIsmember_spec (hw : st.WF m id) (key : Bytes) :
    Ensures (setIsmember m st key) (fun b => b = true ↔ key ∈ setMembers st) (Escapes m) := by
  refine (hw.find_spec key).bind fun r _ hr => hr.trans ?_
  exact ⟨fun ⟨_, ha, hk⟩ => hk ▸ ha, fun ha => ⟨key, ha, rfl⟩⟩

theorem setIsmember_false (hw : st.WF m id) (h : key ∉ setMembers st) :
    Ensures (setIsmember m st key) (· = false) (Escapes m) :=
  (setIsmember_spec hw key).post fun b hb => by
    cases b
    · rfl
    · exact absurd (hb.mp rfl) h

theorem setIsmember_true (hw : st.WF m id) (hd : Distinct id st.entries) (h : key ∈ setMembers st) :
    setIsmember m st key = .ok true := by
  obtain ⟨ix, hfind⟩ := hw.find_eq hd h
  change Table.find m id st key = _ at hfind
  rw [setIsmember, hfind]
  rfl

/-- As long as no insertion meets a tombstone ahead of its own key, the members of a set are unique, an
    insertion that succeeds was of no member, a removal leaves no copy, and the members are listed once. -/
theorem set_members_unique (h : SetReached m (fun st op => op.Clear m st) st) :
    (∀ (ix jx : ℕ) (key : Bytes), st.slots[ix]? = some (.live key) → st.slots[jx]? = some (.live key) → ix = jx) ∧
    (∀ key st', Clear m st key → setAdd m st key = .ok (st', true) →
      Ensures (setIsmember m st key) (· = false) (Escapes m)) ∧
    (∀ key st' ok, setRem m st key = .ok (st', ok) → Ensures (setIsmember m st' key) (· = false) (Escapes m)) ∧
    (setMembers st).Nodup ∧ (∀ key, key ∈ setMembers st ↔ setIsmember m st key = .ok true) ∧
    (m = .exact → ∀ key, ¬Clear m st key → ∃ st', setAdd m st key = .ok (st', true)) := by
  have hw := h.wf
  have hd := h.distinct
  refine ⟨fun ix jx key hi hj => hd.slots_inj hi hj rfl, ?_, ?_, ?_, ?_, ?_⟩
  · intro key st' hclear hadd
    exact setIsmember_false hw fun hmem => setAdd_member hw hmem hclear hadd
  · intro key st' ok hrem
    have hr := (hw.remove_spec key).of_ok hrem
    exact setIsmember_false hr.wf fun hmem => hr.absent hd key hmem rfl
  · simpa [Distinct, setMembers] using hd
  · intro key
    refine ⟨setIsmember_true hw hd, fun hk => ((setIsmember_spec hw key).of_ok hk).mp rfl⟩
  · rintro rfl key hclear
    exact setAdd_hidden hw hclear

end Set

/-- After `SADD a f`, no insertion having met a tombstone, the two members are listed once each. -/
theorem set_members_unique_pair :
    (setMembers (⟨5, 2, [.live (str "a"), .null, .live (str "f"), .null, .null]⟩ : CSet)).Nodup := by
  have first : SetReached .wrap (fun st op => op.Clear .wrap st) ⟨2, 1, [.live (str "a"), .null]⟩ :=
    SetReached.add .init (by decide) (show SetOp.step .wrap _ (.add (str "a")) = _ by decide +kernel)
  have second : SetReached .wrap (fun st op => op.Clear .wrap st)
      ⟨5, 2, [.live (str "a"), .null, .live (str "f"), .null, .null]⟩ :=
    SetReached.add first (by decide) (show SetOp.step .wrap _ (.add (str "f")) = _ by decide +kernel)
  exact (set_members_unique second).2.2.2.1

/-- `SADD a f; SREM a; SADD f` stores `f` in the slot that `a` left, ahead of the `f` that is there. -/
theorem set_members_not_unique :
    ∃ st st' st'', SetReached .wrap (fun _ _ => True) st ∧ setIsmember .wrap st (str "f") = .ok true ∧
      setAdd .wrap st (str "f") = .ok (st', true) ∧
      st'.slots[0]? = some (.live (str "f")) ∧ st'.slots[2]? = some (.live (str "f")) ∧
      setMembers st' = [str "f", str "f"] ∧
      setRem .wrap st' (str "f") = .ok (st'', true) ∧ setIsmember .wrap st'' (str "f") = .ok true := by
  have hrun : Runs.run (SetOp.step .wrap) (setInit htBaseSize) [.add (str "a"), .add (str "f"), .rem (str "a")] =
      .ok ⟨5, 1, [.deleted, .null, .live (str "f"), .null, .null]⟩ := by decide +kernel
  refine ⟨_, ⟨5, 2, [.live (str "f"), .null, .live (str "f"), .null, .null]⟩,
    ⟨5, 1, [.deleted, .null, .live (str "f"), .null, .null]⟩,
    Runs.Reached.init.run (fun _ _ => trivial) hrun, ?_⟩
  decide +kernel

end MemKey
