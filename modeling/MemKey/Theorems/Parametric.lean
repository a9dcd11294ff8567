import MemKey.Theorems.Table

/-! The operations on a table look at nothing but the keys of the entries. They commute with a change of the
    entries that keeps the keys, and they move entries without making or copying any. -/

namespace MemKey
open Probing Outcome

namespace Table
variable {α β : Type} {m : IntMode} {key : α → Bytes} {key' : β → Bytes} {compare : Bool} {t t' : Table α} {a : α}
  {k : Bytes} {b : Bool} {f : α → β} {depth ix : ℕ}

/-- The table with each entry replaced by what `f` makes of it. -/
def map (f : α → β) (t : Table α) : Table β := { size := t.size, used := t.used, slots := t.slots.map (Slot.map f) }

/-! ### Changes of the entries -/

@[simp] theorem entries_map (f : α → β) (t : Table α) : (t.map f).entries = t.entries.map f := Probing.entries_map f t.slots

@[simp] theorem map_init (f : α → β) (size : Int) : (init size : Table α).map f = init size := by
  simp [map, init]

theorem map_place (f : α → β) (t : Table α) : (t.place ix a).map f = (t.map f).place ix (f a) := by
  simp [map, place, List.map_set]

theorem map_bury (f : α → β) (t : Table α) : (t.bury ix).map f = (t.map f).bury ix := by
  simp [map, bury, List.map_set]

theorem map_put (f : α → β) (t : Table α) : (t.put ix a).map f = (t.map f).put ix (f a) := by
  simp [map, put, List.map_set]

section Keys
variable (hk : ∀ a, key' (f a) = key a)
include hk

theorem find_map : find m key' (t.map f) k = Except.map (Option.map fun p => (p.1, f p.2)) (find m key t k) := by
  have hstop : ∀ c : Slot α, seekStop key' k (c.map f) = seekStop key k c := by
    rintro (_ | _ | a) <;> simp [seekStop, hk]
  unfold find seek
  rw [show (t.map f).slots = t.slots.map (Slot.map f) from rfl, walk_look_map hstop]
  rw [show (t.map f).size = t.size from rfl]
  cases walk (look (probePath m t.size k) t.slots) (fun p => seekStop key k p.2) 0 t.size with
  | hit p =>
    obtain ⟨ix, _ | _ | a⟩ := p <;> rfl
  | miss => rfl
  | outside => rfl

theorem addWalk_map : addWalk m key' compare (t.map f) (f a) =
    (addWalk m key compare t a).map fun p => (p.1, p.2.map f) := by
  have hstop : ∀ c : Slot α, addStop key' compare (f a) (c.map f) = addStop key compare a c := by
    rintro (_ | _ | c) <;> simp [addStop, hk]
  unfold addWalk
  rw [hk]
  exact walk_look_map hstop ..

/-- An insertion commutes with the change of the entries. -/
def Commutes (f : α → β) (add' : Table β → β → Except Fault (Table β × Bool))
    (add : Table α → α → Except Fault (Table α × Bool)) : Prop :=
  ∀ t a, add' (t.map f) (f a) = Except.map (fun r => (r.1.map f, r.2)) (add t a)

omit hk in
theorem refill_map {add' : Table β → β → Except Fault (Table β × Bool)} {add : Table α → α → Except Fault (Table α × Bool)}
    (h : Commutes f add' add) (l : List α) : refill add' (t.map f) (l.map f) = Except.map (map f) (refill add t l) := by
  induction l generalizing t with
  | nil => rfl
  | cons a l ih =>
    rw [List.map_cons, refill, refill, h]
    cases add t a with
    | error e => rfl
    | ok r => exact ih

omit hk in
theorem resize_map {add' : Table β → β → Except Fault (Table β × Bool)} {add : Table α → α → Except Fault (Table α × Bool)}
    (h : Commutes f add' add) (size : Int) : resize add' (t.map f) size = Except.map (map f) (resize add t size) := by
  unfold resize
  split
  · rfl
  · rw [entries_map, ← map_init f, refill_map h]
    cases refill add (init size) t.entries <;> rfl

omit hk in
theorem resizeUp_map {add' : Table β → β → Except Fault (Table β × Bool)}
    {add : Table α → α → Except Fault (Table α × Bool)}
    (h : Commutes f add' add) : resizeUp m add' (t.map f) = Except.map (map f) (resizeUp m add t) := by
  unfold resizeUp
  rw [show load m (t.map f) = load m t from rfl, show (t.map f).size = t.size from rfl, resize_map h]
  split <;> rfl

omit hk in
theorem resizeDown_map {add' : Table β → β → Except Fault (Table β × Bool)}
    {add : Table α → α → Except Fault (Table α × Bool)}
    (h : Commutes f add' add) : resizeDown m add' (t.map f) = Except.map (map f) (resizeDown m add t) := by
  unfold resizeDown
  rw [show load m (t.map f) = load m t from rfl, show (t.map f).size = t.size from rfl, resize_map h]
  split <;> rfl

theorem add_map (depth : ℕ) : Commutes f (add m key' compare depth) (add m key compare depth) := by
  induction depth with
  | zero => exact fun t a => rfl
  | succ depth ih =>
    intro t a
    rw [add, add, addWalk_map hk]
    cases addWalk m key compare t a with
    | outside => rfl
    | miss => rfl
    | hit p =>
      obtain ⟨ix, c⟩ := p
      cases c with
      | live c => rfl
      | _ =>
        simp only [Walk.map, Slot.map_null, Slot.map_deleted]
        rw [← map_place, resizeUp_map ih]
        cases resizeUp m (add m key compare depth) (t.place ix a) <;> rfl

theorem remove_map :
    remove m key' compare (t.map f) k = Except.map (fun r => (r.1.map f, r.2)) (remove m key compare t k) := by
  unfold remove
  rw [find_map hk]
  cases find m key t k with
  | error e => rfl
  | ok r =>
    cases r with
    | none => rfl
    | some p =>
      obtain ⟨ix, a⟩ := p
      change (do let t' ← resizeDown m (add m key' compare Table.depth) ((t.map f).bury ix); .ok (t', true)) = _
      rw [← map_bury, resizeDown_map (add_map hk _)]
      change _ = Except.map _ (do let t' ← resizeDown m (add m key compare Table.depth) (t.bury ix); .ok (t', true))
      cases resizeDown m (add m key compare Table.depth) (t.bury ix) <;> rfl

end Keys

/-! ### What becomes of the entries -/

/-- An insertion leaves some of the old entries and the new one. -/
def Conserves (add : Table α → α → Except Fault (Table α × Bool)) : Prop :=
  ∀ ⦃t a t' b⦄, add t a = .ok (t', b) → t'.entries.Subperm (a :: t.entries)

theorem refill_conserves {add : Table α → α → Except Fault (Table α × Bool)} (h : Conserves add) {l : List α}
    (hr : refill add t l = .ok t') : t'.entries.Subperm (l ++ t.entries) := by
  induction l generalizing t with
  | nil =>
    cases hr
    exact List.Subperm.refl _
  | cons a l ih =>
    obtain ⟨⟨t₁, b⟩, hadd, hrest⟩ := bind_eq_ok.mp hr
    have hsub : (l ++ t₁.entries).Subperm (l ++ (a :: t.entries)) := (List.subperm_append_left l).mpr (h hadd)
    exact ((ih hrest).trans hsub).trans List.perm_middle.subperm

theorem resize_conserves {add : Table α → α → Except Fault (Table α × Bool)} (h : Conserves add) {size : Int}
    (hr : resize add t size = .ok t') : t'.entries.Subperm t.entries := by
  unfold resize at hr
  split at hr
  · cases hr
    exact List.Subperm.refl _
  · obtain ⟨new, hrefill, hr⟩ := bind_eq_ok.mp hr
    cases hr
    change new.entries.Subperm t.entries
    simpa using refill_conserves h hrefill

theorem add_conserves (depth : ℕ) : Conserves (add m key compare depth) := by
  induction depth with
  | zero =>
    intro t a t' b h
    cases h
  | succ depth ih =>
    intro t a t' b h
    have hsame : t.entries.Subperm (a :: t.entries) := (List.sublist_cons_self a t.entries).subperm
    rw [add] at h
    cases hwalk : addWalk m key compare t a with
    | outside =>
      rw [hwalk] at h
      cases h
    | miss =>
      rw [hwalk] at h
      cases h
      exact hsame
    | hit p =>
      obtain ⟨ix, c⟩ := p
      obtain ⟨_, -, -, hlook, -⟩ := walk_eq_hit.mp hwalk
      have hix := (look_eq_some.mp hlook).2
      rw [hwalk] at h
      cases c with
      | live c =>
        cases h
        exact hsame
      | _ =>
        obtain ⟨t₁, hup, h⟩ := bind_eq_ok.mp h
        cases h
        refine List.Subperm.trans ?_ (place_perm hix rfl).subperm
        unfold resizeUp at hup
        split at hup
        · exact resize_conserves ih hup
        · cases hup
          exact List.Subperm.refl _

theorem resizeDown_conserves (h : resizeDown m (add m key compare depth) t = .ok t') : t'.entries.Subperm t.entries := by
  unfold resizeDown at h
  split at h
  · exact resize_conserves (add_conserves depth) h
  · cases h
    exact List.Subperm.refl _

end Table
end MemKey
