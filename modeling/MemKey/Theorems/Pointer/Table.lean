import MemKey.Pointer.Table
import MemKey.Theorems.Table

/-! The tables of `htable.c` and `set.c` in memory refine those of the model: what a table owns, and what
    each function does to it. -/

namespace MemKey.Pointer
open Probing Memory Outcome

/-- The entries of a file: the blocks that are an entry at an address, and what is left of an entry whose
    value has moved. -/
structure Entries (α : Type) extends Kind α where
  Own : ℕ → α → Owned → Prop
  hollow : α → α
  init_does : ∀ a, Does (init a) 0 fun q m => Own q a m
  keyAt_does : ∀ {q a m}, Own q a m → Does (keyAt q) m fun k m' => k = key a ∧ m' = m
  read_does : ∀ {q a m}, Own q a m → Does (read q) m fun a' m' => a' = a ∧ m' = m
  moved_does : ∀ {q a m}, Own q a m → Does (moved q) m fun _ m' => Own q (hollow a) m'
  free_does : ∀ {q a m}, Own q (hollow a) m → Does (free q) m fun _ m' => m' = 0

/-- An entry in memory. -/
structure Placed {α : Type} (E : Entries α) where
  addr : ℕ
  entry : α
  blocks : Owned
  own : E.Own addr entry blocks

variable {α : Type} {E : Entries α}

/-- The blocks of the entries in the slots. -/
def blocksOf (gs : List (Slot (Placed E))) : Owned := ((entries gs).map Placed.blocks).sum

/-- A table with its array and its entries. -/
def tableAt (p : ℕ) (t : Head) (gs : List (Slot (Placed E))) : Owned :=
  own p (.table t) + (own t.items (.array (gs.map (Slot.map Placed.addr))) + blocksOf gs)

/-- The blocks are the table. -/
def IsTable (E : Entries α) (p : ℕ) (t : Table α) (m : Owned) : Prop :=
  ∃ (items : ℕ) (gs : List (Slot (Placed E))), m = tableAt p ⟨t.size, t.used, items⟩ gs ∧
    t.slots = gs.map (Slot.map Placed.entry) ∧ gs.length = t.size

section Slots
variable {gs : List (Slot (Placed E))} {g : Placed E}

theorem blocksOf_live (g : Placed E) : blocksOf [.live g] = g.blocks := by
  simp [blocksOf, entries]

theorem blocksOf_vacant {b : Slot (Placed E)} (h : b.vacant = true) : blocksOf [b] = 0 := by
  cases b with
  | live g => cases h
  | _ => rfl

theorem blocksOf_set {ix : ℕ} {b : Slot (Placed E)} (h : gs[ix]? = some b) :
    ∃ rest, blocksOf gs = blocksOf [b] + rest ∧ ∀ c, blocksOf (gs.set ix c) = blocksOf [c] + rest := by
  obtain ⟨rest, hperm, hset⟩ := entries_set h
  have hone : ∀ c : Slot (Placed E), entries [c] = c.toOption.toList := fun c => by cases c <;> rfl
  refine ⟨(rest.map Placed.blocks).sum, ?_, fun c => ?_⟩
  · rw [blocksOf, (hperm.map _).sum_eq, List.map_append, List.sum_append, blocksOf, hone]
  · rw [blocksOf, ((hset c).map _).sum_eq, List.map_append, List.sum_append, blocksOf, hone]

theorem tableAt_entry {p ix : ℕ} {t : Head} (h : gs[ix]? = some (.live g)) :
    ∃ f, tableAt p t gs = g.blocks + f := by
  obtain ⟨rest, hgs, -⟩ := blocksOf_set h
  exact ⟨_, by rw [tableAt, hgs, blocksOf_live, front₃]⟩

/-- A load of the array. -/
theorem does_slots {γ : Type} {m f : Owned} {p : ℕ} {t : Head} {k : List (Slot ℕ) → Prog γ} {R : γ → Owned → Prop}
    (hm : m = tableAt p t gs + f) (h : Does (k (gs.map (Slot.map Placed.addr))) m R) :
    Does (load Block.asTable p >>= fun t => load Block.asArray t.items >>= k) m R := by
  rw [tableAt, add_assoc, add_assoc] at hm
  exact .seq (.loadAs hm rfl (.seq (.loadAs (hm.trans (add_left_comm ..)) rfl h)))

end Slots

/-! ### Probe loops -/

section Loops
variable {m : IntMode} {p i n : ℕ} {t : Head} {gs : List (Slot (Placed E))} {key : Bytes} {compare : Bool} {a : α}

theorem slotAt_does {Q : ℕ × Slot ℕ → Owned → Prop} {ix : ℕ} {b : Slot (Placed E)}
    (h : look (probePath m t.size key) gs i = some (ix, b)) (hQ : Q (ix, b.map Placed.addr) (tableAt p t gs)) :
    Does (slotAt m p key i) (tableAt p t gs) Q := by
  refine .seq (.loadAs rfl rfl (.seq (.loadAs (add_left_comm ..) rfl ?_)))
  rw [look_map, h]
  exact .pure hQ

/-- The slot that an insertion takes, if its loop finds one. -/
def taken : Walk (ℕ × Slot α) → Option ℕ
  | .hit (_, .live _) => none
  | .hit (ix, _) => some ix
  | _ => none

theorem addLoop_does (h : walk (look (probePath m t.size (E.key a)) (gs.map (Slot.map Placed.entry)))
      (fun s => Table.addStop E.key compare a s.2) i n ≠ .outside) :
    Does (addLoop E.toKind m compare p a i n) (tableAt p t gs) fun r m' =>
      r = taken (walk (look (probePath m t.size (E.key a)) (gs.map (Slot.map Placed.entry)))
        (fun s => Table.addStop E.key compare a s.2) i n) ∧ m' = tableAt p t gs := by
  induction n generalizing i with
  | zero => exact .pure ⟨rfl, rfl⟩
  | succ n ih =>
    rw [walk] at h ⊢
    simp only [look_map] at h ih ⊢
    cases hlook : look (probePath m t.size (E.key a)) gs i with
    | none => simp [hlook] at h
    | some s =>
      obtain ⟨ix, b⟩ := s
      simp only [hlook, Option.map_some] at h ⊢
      refine .seq (slotAt_does hlook ?_)
      cases b with
      | null => exact .pure ⟨rfl, rfl⟩
      | deleted => exact .pure ⟨rfl, rfl⟩
      | live g =>
        cases compare with
        | false =>
          simp only [Slot.map_live, Table.addStop, Bool.false_and, Bool.false_eq_true, if_false] at h ⊢
          exact ih h
        | true =>
          obtain ⟨f, hf⟩ := tableAt_entry (p := p) (t := t) (look_eq_some.mp hlook).2
          refine .seq (.call (E.keyAt_does g.own) hf ?_)
          rintro _ _ ⟨rfl, rfl⟩
          rw [← hf]
          by_cases hk : E.key g.entry = E.key a
          · simp only [Slot.map_live, Table.addStop, hk, decide_true, Bool.and_self, if_true]
            exact .pure ⟨rfl, rfl⟩
          · simp only [Slot.map_live, Table.addStop, hk, decide_false, Bool.and_false, Bool.false_eq_true, if_false] at h ⊢
            exact ih h

/-- The entry that a search finds, with its slot. -/
def found : Walk (ℕ × Slot α) → Option (ℕ × α)
  | .hit (ix, .live a) => some (ix, a)
  | _ => none

/-- The search of the model and the one in memory find the same entry. -/
inductive Points (gs : List (Slot (Placed E))) : Option (ℕ × α) → Option (ℕ × ℕ) → Prop
  | none : Points gs none none
  | some {ix : ℕ} {g : Placed E} (h : gs[ix]? = some (.live g)) : Points gs (some (ix, g.entry)) (some (ix, g.addr))

theorem Points.some_inv {ix : ℕ} {a : α} {r : Option (ℕ × ℕ)} (h : Points gs (Option.some (ix, a)) r) :
    ∃ w, gs[ix]? = Option.some (.live w) ∧ w.entry = a ∧ r = Option.some (ix, w.addr) := by
  generalize hs : Option.some (ix, a) = s at h
  cases h with
  | none => cases hs
  | some hg =>
    cases hs
    exact ⟨_, hg, rfl, rfl⟩

theorem findLoop_does (h : walk (look (probePath m t.size key) (gs.map (Slot.map Placed.entry)))
      (fun s => seekStop E.key key s.2) i n ≠ .outside) :
    Does (findLoop E.toKind m p key i n) (tableAt p t gs) fun r m' => m' = tableAt p t gs ∧
      Points gs (found (walk (look (probePath m t.size key) (gs.map (Slot.map Placed.entry)))
        (fun s => seekStop E.key key s.2) i n)) r := by
  induction n generalizing i with
  | zero => exact .pure ⟨rfl, .none⟩
  | succ n ih =>
    rw [walk] at h ⊢
    simp only [look_map] at h ih ⊢
    cases hlook : look (probePath m t.size key) gs i with
    | none => simp [hlook] at h
    | some s =>
      obtain ⟨ix, b⟩ := s
      simp only [hlook, Option.map_some] at h ⊢
      refine .seq (slotAt_does hlook ?_)
      cases b with
      | null => exact .pure ⟨rfl, .none⟩
      | deleted =>
        simp only [Slot.map_deleted, seekStop, Bool.false_eq_true, if_false] at h ⊢
        exact ih h
      | live g =>
        have hg := (look_eq_some.mp hlook).2
        obtain ⟨f, hf⟩ := tableAt_entry (p := p) (t := t) hg
        refine .seq (.call (E.keyAt_does g.own) hf ?_)
        rintro _ _ ⟨rfl, rfl⟩
        rw [← hf]
        by_cases hk : E.key g.entry = key
        · simp only [Slot.map_live, seekStop, hk, decide_true, if_true]
          exact .pure ⟨rfl, .some hg⟩
        · simp only [Slot.map_live, seekStop, hk, decide_false, Bool.false_eq_true, if_false] at h ⊢
          exact ih h

theorem found_of_find {ht : Table α} {s : Option (ℕ × α)} (h : Table.find m E.key ht key = .ok s) :
    seek E.key (probePath m ht.size) ht.size ht.slots key ≠ .outside ∧
      found (seek E.key (probePath m ht.size) ht.size ht.slots key) = s := by
  unfold Table.find at h
  revert h
  generalize seek E.key (probePath m ht.size) ht.size ht.slots key = w
  intro h
  rcases w with ⟨ix, _ | _ | a⟩ | _ | _ <;> cases h <;> exact ⟨nofun, rfl⟩

theorem find_does {ht : Table α} {s : Option (ℕ × α)} (hs : ht.slots = gs.map (Slot.map Placed.entry))
    (hsize : t.size = ht.size) (h : Table.find m E.key ht key = .ok s) :
    Does (find E.toKind m p key) (tableAt p t gs) fun r m' => m' = tableAt p t gs ∧ Points gs s r := by
  obtain ⟨hout, hfound⟩ := found_of_find h
  rw [seek, hs, ← hsize] at hout hfound
  refine .seq (.loadAs rfl rfl ((findLoop_does hout).mono ?_))
  rintro r _ ⟨rfl, hr⟩
  exact ⟨rfl, hfound ▸ hr⟩

end Loops

/-! ### Resizes -/

/-- An insertion in memory does what the one of the model does. -/
def AddRefines (E : Entries α) (addP : ℕ → α → Prog Bool) (add : Table α → α → Except Fault (Table α × Bool)) : Prop :=
  ∀ ⦃p t t' b a m⦄, IsTable E p t m → add t a = .ok (t', b) → Does (addP p a) m fun r m' => r = b ∧ IsTable E p t' m'

section Resize
variable {mode : IntMode} {p q : ℕ} {t : Head} {gs : List (Slot (Placed E))} {m : Owned} {new new' : Table α}
  {addP : ℕ → α → Prog Bool} {add : Table α → α → Except Fault (Table α × Bool)}

theorem does_tableInit (size : Int) : Does (tableInit size) 0 fun p m' => IsTable E p (Table.init size) m' := by
  refine .seq (.alloc fun items => .alloc fun p => ?_)
  refine ⟨items, List.replicate (nextPrime size).toNat .null, ?_, by simp [Table.init], List.length_replicate⟩
  simp [tableAt, blocksOf, Table.init]

/-- Every value has moved elsewhere. -/
def Hollowed (gs : List (Slot (Placed E))) : Prop := ∀ g ∈ entries gs, ∃ a, g.entry = E.hollow a

theorem refill_does (ds : List (Slot (Placed E))) (hadd : AddRefines E addP add) (hnew : IsTable E q new m)
    (h : Table.refill add new ((entries gs).map Placed.entry) = .ok new') :
    Does (refill E.toKind addP p q ds.length gs.length) (tableAt p t (ds ++ gs) + m) fun _ m' =>
      ∃ hs n, m' = tableAt p t (ds ++ hs) + n ∧ hs.map (Slot.map Placed.addr) = gs.map (Slot.map Placed.addr) ∧
        IsTable E q new' n ∧ Hollowed hs := by
  induction gs generalizing ds new m with
  | nil =>
    cases h
    exact .pure ⟨[], m, rfl, rfl, hnew, by simp [Hollowed, entries]⟩
  | cons b gs ih =>
    have hat : ((ds ++ b :: gs).map (Slot.map Placed.addr))[ds.length]? = some (b.map Placed.addr) := by simp
    -- The rest of the loop, after the slot has become `c`.
    have hrest : ∀ (c : Slot (Placed E)) {new₁ : Table α} {m₁ : Owned}, c.map Placed.addr = b.map Placed.addr →
        Hollowed [c] → IsTable E q new₁ m₁ → Table.refill add new₁ ((entries gs).map Placed.entry) = .ok new' →
        Does (refill E.toKind addP p q (ds.length + 1) gs.length) (tableAt p t (ds ++ c :: gs) + m₁) fun _ m' =>
          ∃ hs n, m' = tableAt p t (ds ++ hs) + n ∧ hs.map (Slot.map Placed.addr) = (b :: gs).map (Slot.map Placed.addr) ∧
            IsTable E q new' n ∧ Hollowed hs := by
      intro c new₁ m₁ hc hhollow hnew₁ h₁
      have := ih (ds ++ [c]) hnew₁ h₁
      rw [List.length_append, List.length_singleton, List.append_assoc, List.singleton_append] at this
      refine this.mono ?_
      rintro _ _ ⟨hs, n, rfl, haddr, hn, hhs⟩
      refine ⟨c :: hs, n, by simp, by rw [List.map_cons, List.map_cons, hc, haddr], hn, ?_⟩
      intro g hg
      rw [← List.singleton_append, entries_append, List.mem_append] at hg
      exact hg.elim (hhollow g) (hhs g)
    refine does_slots rfl ?_
    rw [hat]
    cases b with
    | null => exact hrest .null rfl (by simp [Hollowed, entries]) hnew h
    | deleted => exact hrest .deleted rfl (by simp [Hollowed, entries]) hnew h
    | live g =>
      obtain ⟨⟨new₁, r⟩, hok, h₁⟩ := bind_eq_ok.mp h
      have hg : (ds ++ .live g :: gs)[ds.length]? = some (.live g) := by simp
      obtain ⟨rest, hblocks, hset⟩ := blocksOf_set hg
      have hfocus : ∀ g' : Placed E, g'.addr = g.addr → tableAt p t (ds ++ .live g' :: gs) = g'.blocks +
          (own p (.table t) + (own t.items (.array ((ds ++ .live g :: gs).map (Slot.map Placed.addr))) + rest)) := by
        intro g' haddr
        have := hset (.live g')
        rw [List.set_append_right _ _ (Nat.le_refl _), Nat.sub_self, List.set_cons_zero, blocksOf_live] at this
        rw [tableAt, this, front₃]
        simp [haddr]
      refine .seq (.call (E.read_does g.own) ((congrArg (· + m) (hfocus g rfl)).trans (add_assoc ..)) ?_)
      rintro _ _ ⟨rfl, rfl⟩
      refine .seq (.call (hadd hnew hok) ((add_assoc ..).symm.trans (add_comm ..)) ?_)
      rintro _ m₁ ⟨rfl, hm₁⟩
      refine .seq (.call (E.moved_does g.own) (add_left_comm ..) ?_)
      intro _ b hb
      rw [add_left_comm, ← hfocus ⟨g.addr, _, b, hb⟩ rfl, add_comm m₁]
      refine hrest (.live ⟨g.addr, _, b, hb⟩) rfl ?_ hm₁ h₁
      intro g' hg'
      obtain rfl := List.mem_singleton.mp hg'
      exact ⟨_, rfl⟩

theorem freeSlots_does {free : ℕ → Prog Unit} {slots : List (Slot ℕ)} (ds : List (Slot (ℕ × Owned)))
    {zs : List (Slot (ℕ × Owned))} (hslots : slots = (ds ++ zs).map (Slot.map Prod.fst))
    (hfree : ∀ z ∈ entries zs, Does (free z.1) z.2 fun _ m' => m' = 0) :
    Does (freeSlots free p ds.length zs.length)
      (own p (.table t) + (own t.items (.array slots) + ((entries zs).map Prod.snd).sum))
      fun _ m' => m' = own p (.table t) + (own t.items (.array slots) + 0) := by
  induction zs generalizing ds with
  | nil => exact .pure rfl
  | cons b zs ih =>
    have hat : slots[ds.length]? = some (b.map Prod.fst) := by simp [hslots]
    have hrest := ih (ds ++ [b]) (by simpa using hslots) fun z hz =>
      hfree z (by rw [← List.singleton_append, entries_append, List.mem_append]; exact .inr hz)
    rw [List.length_append, List.length_singleton] at hrest
    refine .seq (.loadAs rfl rfl (.seq (.loadAs (add_left_comm ..) rfl ?_)))
    rw [hat]
    cases b with
    | null => exact hrest
    | deleted => exact hrest
    | live z =>
      have hone := hfree z (by simp [entries])
      have hm : own p (.table t) + (own t.items (.array slots) + ((entries (.live z :: zs)).map Prod.snd).sum) =
          z.2 + (own p (.table t) + (own t.items (.array slots) + ((entries zs).map Prod.snd).sum)) := by
        simp [entries]
        abel
      refine .seq (.call hone hm ?_)
      rintro _ _ rfl
      rw [zero_add]
      exact hrest

/-- The end of a table, with what its entries own besides their own blocks. -/
theorem tableFree_does {free : ℕ → Prog Unit} (zs : List (Slot (Placed E × Owned))) (hsize : zs.length = t.size)
    (hfree : ∀ z ∈ entries zs, Does (free z.1.addr) (z.1.blocks + z.2) fun _ m' => m' = 0) :
    Does (tableFree free (some p)) (tableAt p t (zs.map (Slot.map Prod.fst)) + ((entries zs).map Prod.snd).sum)
      fun _ m' => m' = 0 := by
  have hsum : blocksOf (zs.map (Slot.map Prod.fst)) + ((entries zs).map Prod.snd).sum =
      ((entries (zs.map (Slot.map fun z => (z.1.addr, z.1.blocks + z.2)))).map Prod.snd).sum := by
    rw [blocksOf, entries_map, entries_map, List.map_map, List.map_map, ← List.sum_map_add]
    rfl
  have hslots : (zs.map (Slot.map Prod.fst)).map (Slot.map Placed.addr) =
      ([] ++ zs.map (Slot.map fun z : Placed E × Owned => (z.1.addr, z.1.blocks + z.2))).map (Slot.map Prod.fst) := by
    rw [List.nil_append, map_map_slots, map_map_slots]
    rfl
  rw [tableAt, add_assoc, add_assoc, hsum]
  refine .seq (.loadAs rfl rfl (.seq ?_))
  have hend : ∀ z ∈ entries (zs.map (Slot.map fun z => (z.1.addr, z.1.blocks + z.2))),
      Does (free z.1) z.2 fun _ m' => m' = 0 := by
    intro z hz
    rw [entries_map] at hz
    obtain ⟨w, hw, rfl⟩ := List.mem_map.mp hz
    exact hfree w hw
  have hloop := freeSlots_does (p := p) (t := t) [] hslots hend
  rw [List.length_nil, List.length_map, hsize] at hloop
  refine hloop.mono ?_
  rintro _ _ rfl
  exact .seq (.release (add_left_comm ..) (.release rfl rfl))

/-- The end of a table whose entries own nothing but their own blocks. -/
theorem tableFree_does_own {free : ℕ → Prog Unit} (hsize : gs.length = t.size)
    (hfree : ∀ g ∈ entries gs, Does (free g.addr) g.blocks fun _ m' => m' = 0) :
    Does (tableFree free (some p)) (tableAt p t gs) fun _ m' => m' = 0 := by
  have hfst : (gs.map (Slot.map fun g => (g, (0 : Owned)))).map (Slot.map Prod.fst) = gs := by
    rw [List.map_map]
    refine (List.map_congr_left fun b _ => ?_).trans (List.map_id gs)
    cases b <;> rfl
  have hend : ∀ z ∈ entries (gs.map (Slot.map fun g => (g, (0 : Owned)))),
      Does (free z.1.addr) (z.1.blocks + z.2) fun _ m' => m' = 0 := by
    intro z hz
    rw [entries_map] at hz
    obtain ⟨g, hg, rfl⟩ := List.mem_map.mp hz
    rw [add_zero]
    exact hfree g hg
  have hfreed := tableFree_does (p := p) (t := t) _ (by rw [List.length_map, hsize]) hend
  rw [hfst, entries_map, List.map_map] at hfreed
  simpa [Function.comp_def] using hfreed

theorem resize_does {ht ht' : Table α} {newSize : Int} (hadd : AddRefines E addP add) (ht₀ : IsTable E p ht m)
    (h : Table.resize add ht newSize = .ok ht') :
    Does (resize E.toKind addP p newSize) m fun _ m' => IsTable E p ht' m' := by
  unfold resize
  unfold Table.resize at h
  split at h
  · cases h
    rw [if_pos ‹_›]
    exact .pure ht₀
  · obtain ⟨new, hrefill, h⟩ := bind_eq_ok.mp h
    cases h
    rw [if_neg ‹_›]
    obtain ⟨items, gs, rfl, hslots, hlen⟩ := ht₀
    rw [Table.entries, hslots, entries_map] at hrefill
    refine .seq (.call (does_tableInit (E := E) newSize) (zero_add _).symm fun q n hq => ?_)
    rw [add_comm n]
    refine .seq (.loadAs (add_assoc ..) rfl (.seq ?_))
    have hloop := refill_does (p := p) (t := ⟨ht.size, ht.used, items⟩) [] hadd hq hrefill
    rw [List.length_nil, hlen] at hloop
    refine hloop.mono ?_
    rintro _ _ ⟨hs, _, rfl, haddr, ⟨items', gs', rfl, hslots', hlen'⟩, hhollow⟩
    have hlen₁ : hs.length = ht.size := by rw [← hlen, ← List.length_map, haddr, List.length_map]
    have hm : tableAt p ⟨ht.size, ht.used, items⟩ hs + tableAt q ⟨new.size, new.used, items'⟩ gs' =
        own p (.table ⟨ht.size, ht.used, items⟩) + (own q (.table ⟨new.size, new.used, items'⟩) +
          (own items (.array (hs.map (Slot.map Placed.addr))) + (blocksOf hs +
            (own items' (.array (gs'.map (Slot.map Placed.addr))) + blocksOf gs')))) := by
      rw [tableAt, tableAt]
      abel
    rw [List.nil_append, hm]
    refine .seq (.loadAs rfl rfl (.seq (.loadAs (add_left_comm ..) rfl ?_)))
    refine .seq (.store rfl (.seq (.store (add_left_comm ..) ?_)))
    have hend : ∀ g ∈ entries hs, Does (E.free g.addr) g.blocks fun _ m' => m' = 0 := by
      intro g hg
      obtain ⟨a, ha⟩ := hhollow g hg
      exact E.free_does (ha ▸ g.own)
    refine .call (f := tableAt p ⟨new.size, ht.used, items'⟩ gs')
      (tableFree_does_own (p := q) (t := ⟨ht.size, new.used, items⟩) hlen₁ hend) ?_ ?_
    · rw [tableAt, tableAt]
      abel
    · rintro _ _ rfl
      exact ⟨items', gs', zero_add _, hslots', hlen'⟩

theorem IsTable.head {ht : Table α} (h : IsTable E p ht m) :
    ∃ items f, m = own p (.table ⟨ht.size, ht.used, items⟩) + f := by
  obtain ⟨items, gs, rfl, -⟩ := h
  exact ⟨items, _, rfl⟩

theorem resizeUp_does {ht ht' : Table α} (hadd : AddRefines E addP add) (ht₀ : IsTable E p ht m)
    (h : Table.resizeUp mode add ht = .ok ht') :
    Does (resizeUp E.toKind mode addP p) m fun _ m' => IsTable E p ht' m' := by
  obtain ⟨items, f, hm⟩ := ht₀.head
  unfold Table.resizeUp Table.load at h
  refine .seq (.loadAs hm rfl ?_)
  split at h
  · rw [if_pos ‹_›]
    exact resize_does hadd ht₀ h
  · rw [if_neg ‹_›]
    cases h
    exact .pure ht₀

theorem resizeDown_does {ht ht' : Table α} (hadd : AddRefines E addP add) (ht₀ : IsTable E p ht m)
    (h : Table.resizeDown mode add ht = .ok ht') :
    Does (resizeDown E.toKind mode addP p) m fun _ m' => IsTable E p ht' m' := by
  obtain ⟨items, f, hm⟩ := ht₀.head
  unfold Table.resizeDown Table.load at h
  refine .seq (.loadAs hm rfl ?_)
  split at h
  · rw [if_pos ‹_›]
    exact resize_does hadd ht₀ h
  · rw [if_neg ‹_›]
    cases h
    exact .pure ht₀

end Resize

/-! ### Insertions and removals -/

section Add
variable {mode : IntMode} {p ix : ℕ} {t : Head} {gs : List (Slot (Placed E))} {m f : Owned} {compare : Bool}

theorem does_setSlot {slots : List (Slot ℕ)} {x : Slot ℕ} {Q : Unit → Owned → Prop}
    (h : Q () (own p (.table t) + (own t.items (.array (slots.set ix x)) + f))) :
    Does (setSlot p ix x) (own p (.table t) + (own t.items (.array slots) + f)) Q := by
  refine .seq (.loadAs rfl rfl (.seq (.loadAs (add_left_comm ..) rfl (.store (add_left_comm ..) ?_))))
  rwa [add_left_comm]

theorem does_setUsed {delta : Int} {Q : Unit → Owned → Prop}
    (h : Q () (own p (.table { t with used := t.used + delta }) + f)) :
    Does (setUsed p delta) (own p (.table t) + f) Q :=
  .seq (.loadAs rfl rfl (.store rfl h))

/-- A new entry in a vacant slot. -/
theorem does_place {ht : Table α} {items : ℕ} {a : α} {b : Slot (Placed E)} {γ : Type} {k : Unit → Prog γ}
    {R : γ → Owned → Prop} (hslots : ht.slots = gs.map (Slot.map Placed.entry)) (hlen : gs.length = ht.size)
    (hb : gs[ix]? = some b) (hv : b.vacant = true) (h : ∀ m, IsTable E p (ht.place ix a) m → Does (k ()) m R) :
    Does (E.init a >>= fun q => setSlot p ix (.live q) >>= fun _ => setUsed p 1 >>= k)
      (tableAt p ⟨ht.size, ht.used, items⟩ gs) R := by
  obtain ⟨rest, hblocks, hset⟩ := blocksOf_set hb
  refine .seq (.call (E.init_does a) (zero_add _).symm fun q n hq => ?_)
  have hm : n + tableAt p ⟨ht.size, ht.used, items⟩ gs = own p (.table ⟨ht.size, ht.used, items⟩) +
      (own items (.array (gs.map (Slot.map Placed.addr))) + (n + rest)) := by
    rw [tableAt, hblocks, blocksOf_vacant hv]
    abel
  rw [hm]
  refine .seq (does_setSlot (.seq (does_setUsed (h _ ⟨items, gs.set ix (.live ⟨q, a, n, hq⟩), ?_, ?_, ?_⟩))))
  · rw [tableAt, hset, blocksOf_live, List.map_set]
    rfl
  · rw [Table.place, List.map_set, hslots]
    rfl
  · rw [List.length_set, hlen]
    rfl

/-- A probe loop that stops at a slot in memory stops at the slot of the model. -/
theorem placed_of_hit {path : ℕ → Option ℕ} {stop : ℕ × Slot α → Bool} {n : ℕ} {b : Slot α}
    (h : walk (look path (gs.map (Slot.map Placed.entry))) stop 0 n = .hit (ix, b)) :
    ∃ c, gs[ix]? = some c ∧ c.map Placed.entry = b := by
  obtain ⟨j, -, -, hlook, -⟩ := walk_eq_hit.mp h
  have hix := (look_eq_some.mp hlook).2
  rwa [List.getElem?_map, Option.map_eq_some_iff] at hix

theorem addRefines (mode : IntMode) (compare : Bool) (depth : ℕ) :
    AddRefines E (add E.toKind mode compare depth) (Table.add mode E.key compare depth) := by
  induction depth with
  | zero =>
    intro p t t' b a m ht h
    cases h
  | succ depth ih =>
    intro p t t' b a m ht h
    obtain ⟨items, gs, rfl, hslots, hlen⟩ := ht
    have hsame : IsTable E p t (tableAt p ⟨t.size, t.used, items⟩ gs) := ⟨items, gs, rfl, hslots, hlen⟩
    rw [Table.add, Table.addWalk, hslots] at h
    refine .seq (.loadAs rfl rfl (.seq ?_))
    cases hw : walk (look (probePath mode t.size (E.key a)) (gs.map (Slot.map Placed.entry)))
      (fun s => Table.addStop E.key compare a s.2) 0 t.size with
    | outside =>
      rw [hw] at h
      cases h
    | miss =>
      rw [hw] at h
      cases h
      refine (addLoop_does (by rw [hw]; intro hout; cases hout)).mono ?_
      rintro _ _ ⟨rfl, rfl⟩
      rw [hw]
      exact .pure ⟨rfl, hsame⟩
    | hit s =>
      obtain ⟨ix, c⟩ := s
      refine (addLoop_does (by rw [hw]; intro hout; cases hout)).mono ?_
      rintro _ _ ⟨rfl, rfl⟩
      obtain ⟨c, hc, rfl⟩ := placed_of_hit hw
      rw [hw] at h ⊢
      cases c with
      | live g =>
        cases h
        exact .pure ⟨rfl, hsame⟩
      | _ =>
        obtain ⟨t₁, hup, h⟩ := bind_eq_ok.mp h
        cases h
        refine does_place hslots hlen hc rfl fun m' hm' => .seq ((resizeUp_does ih hm' hup).mono fun _ _ ht' => ?_)
        exact .pure ⟨rfl, ht'⟩

theorem remove_does_none {ht : Table α} {k : Bytes} (ht₀ : IsTable E p ht m)
    (hfind : Table.find mode E.key ht k = .ok none) :
    Does (remove E.toKind mode compare p k) m fun r m' => r = false ∧ m' = m := by
  obtain ⟨items, gs, rfl, hslots, hlen⟩ := ht₀
  refine .seq ((find_does hslots rfl hfind).mono ?_)
  rintro r _ ⟨rfl, hr⟩
  cases hr
  exact .pure ⟨rfl, rfl⟩

/-- The end of an entry takes what else it owns with it. -/
theorem remove_does_some {ht ht' : Table α} {k : Bytes} {a : α} {V : Owned} (ht₀ : IsTable E p ht m)
    (hfind : Table.find mode E.key ht k = .ok (some (ix, a)))
    (hfree : ∀ g : Placed E, g.entry = a → Does (E.free g.addr) (g.blocks + V) fun _ m' => m' = 0)
    (hdown : Table.resizeDown mode (Table.add mode E.key compare Table.depth) (ht.bury ix) = .ok ht') :
    Does (remove E.toKind mode compare p k) (m + V) fun r m' => r = true ∧ IsTable E p ht' m' := by
  obtain ⟨items, gs, rfl, hslots, hlen⟩ := ht₀
  refine .seq (.call (find_does (t := ⟨ht.size, ht.used, items⟩) hslots rfl hfind) rfl ?_)
  rintro r _ ⟨rfl, hr⟩
  cases hr with
  | some hg =>
    rename_i g
    obtain ⟨rest, hblocks, hset⟩ := blocksOf_set hg
    have hm : tableAt p ⟨ht.size, ht.used, items⟩ gs + V = g.blocks + V + (own p (.table ⟨ht.size, ht.used, items⟩) +
        (own items (.array (gs.map (Slot.map Placed.addr))) + rest)) := by
      rw [tableAt, hblocks, blocksOf_live]
      abel
    refine .seq (.call (hfree g rfl) hm ?_)
    rintro _ _ rfl
    rw [zero_add]
    refine .seq (does_setSlot (.seq (does_setUsed (.seq ((resizeDown_does (addRefines ..) ?_ hdown).mono ?_)))))
    · refine ⟨items, gs.set ix .deleted, ?_, ?_, ?_⟩
      · rw [tableAt, hset, blocksOf_vacant rfl, zero_add, List.map_set]
        rfl
      · rw [Table.bury, List.map_set, hslots]
        rfl
      · rw [List.length_set, hlen]
        rfl
    · exact fun _ _ ht' => .pure ⟨rfl, ht'⟩

end Add

/-! ### Sets -/

/-- A member is one block. -/
def memberEntries : Entries Bytes where
  toKind := members
  Own := fun q s m => m = own q (.chars s)
  hollow := id
  init_does := fun _ => .alloc fun _ => add_zero _
  keyAt_does := fun h => .loadAs (h.trans (add_zero _).symm) rfl ⟨rfl, rfl⟩
  read_does := fun h => .loadAs (h.trans (add_zero _).symm) rfl ⟨rfl, rfl⟩
  moved_does := fun h => .pure h
  free_does := fun h => .release (h.trans (add_zero _).symm) rfl

/-- The blocks are the set. -/
def IsSet (p : ℕ) (st : CSet) (m : Owned) : Prop := IsTable memberEntries p st m

section Sets
variable {mode : IntMode} {p : ℕ} {st st' : CSet} {m : Owned} {key : Bytes} {r : Bool}

theorem setInit_does (size : Int) : Does (setInit size) 0 fun p m => IsSet p (MemKey.setInit size) m := does_tableInit size

theorem setAdd_does (h : IsSet p st m) (hadd : MemKey.setAdd mode st key = .ok (st', r)) :
    Does (setAdd mode p key) m fun r' m' => r' = r ∧ IsSet p st' m' :=
  addRefines mode true _ h hadd

theorem setRem_does (h : IsSet p st m) (hrem : MemKey.setRem mode st key = .ok (st', r)) :
    Does (setRem mode p key) m fun r' m' => r' = r ∧ IsSet p st' m' := by
  obtain ⟨s, hfind, hrem⟩ := bind_eq_ok.mp hrem
  cases s with
  | none =>
    cases hrem
    refine (remove_does_none h hfind).mono ?_
    rintro _ _ ⟨rfl, rfl⟩
    exact ⟨rfl, h⟩
  | some s =>
    obtain ⟨ix, a⟩ := s
    obtain ⟨st₁, hdown, hrem⟩ := bind_eq_ok.mp hrem
    cases hrem
    rw [← add_zero m]
    refine remove_does_some h hfind (fun g _ => ?_) hdown
    rw [add_zero]
    exact memberEntries.free_does g.own

theorem setFree_does (h : IsSet p st m) : Does (setFree (some p)) m fun _ m' => m' = 0 := by
  obtain ⟨items, gs, rfl, -, hlen⟩ := h
  exact tableFree_does_own hlen fun g _ => memberEntries.free_does g.own

end Sets

end MemKey.Pointer
