import MemKey.Theorems.Refinement
import MemKey.Theorems.Wire

/-! The texts in a store and in its replies. The server makes few texts of its own: every other text that a reply
    shows has once been an argument. -/

namespace MemKey
open Outcome Resp Listing

/-- The texts that the server makes of its own. -/
def ownTexts : Set Bytes :=
  {s | s = [] ∨ s = str "OK" ∨ s = str "none" ∨ (∃ type, s = typeName type) ∨ ∃ x, FitsInt x ∧ s = intostr x}

def HashWithin (T : Set Bytes) (h : Finmap fun _ : Bytes => Bytes) : Prop :=
  ∀ field value, h.lookup field = some value → field ∈ T ∧ value ∈ T

/-- Every text in the content, but for the key that holds it, is one of `T`. -/
def Content.Within (T : Set Bytes) : Content → Prop
  | str s => s ∈ T
  | hash h => HashWithin T h
  | list l => ∀ value ∈ l, value ∈ T
  | set t => ∀ value ∈ t, value ∈ T

def Store.Within (T : Set Bytes) (s : Store) : Prop := ∀ key c, s.lookup key = some c → c.Within T

/-- The lines by which the server refuses a command. -/
inductive Refusal : Bytes → Prop
  | argc (given : ℕ) {expected : String} (h : expected ∈ ["0..2", "1", "1+", "2", "2+", "3", "3+"]) :
      Refusal (replyErrArgc given expected)
  | type : Refusal replyErrType
  | intid : Refusal replyErrIntid
  | unknown : Refusal (str "-ERR unrecognized command" ++ crlf)

/-- Every text that the scalar shows is one of `T`. -/
def ScalarWithin (T : Set Bytes) : Scalar → Prop
  | .bulk s => s ∈ T
  | _ => True

def ReplyWithin (T : Set Bytes) : Reply → Prop
  | .scalar s => ScalarWithin T s
  | .array l => ∀ s ∈ l, ScalarWithin T s
  | .error line => Refusal (Reply.error line).encode

/-- The store that is left and the replies that are allowed have no texts but those of `T`. -/
def Verdict.Within (T : Set Bytes) (v : Verdict) : Prop :=
  ∀ s replies, v = some (s, replies) → s.Within T ∧ ∀ reply ∈ replies, ∃ r, reply = r.encode ∧ ReplyWithin T r

/-- The reply to the command is a value whose texts are of `T`, or one of the three that are no value. -/
def AnswerWithin (T : Set Bytes) (cmd : Command) (reply : Bytes) : Prop :=
  bareReply cmd.type = some reply ∨ ∃ r, reply = r.encode ∧ ReplyWithin T r

/-- The arguments of the commands. -/
def arguments (cmds : List Command) : Set Bytes := {a | ∃ cmd ∈ cmds, a ∈ cmd.argv}

section Texts
variable {T : Set Bytes} {s s' : Store} {key : Bytes} {argv : List Bytes} {α : Type} {v : Verdict} {c : Option Content}
  {f : Finmap fun _ : Bytes => Bytes} {l : List Bytes} {t : Finset Bytes}

/-! ### Replies -/

theorem within_some {replies : Set Bytes} (hs : s.Within T)
    (h : ∀ reply ∈ replies, ∃ r, reply = r.encode ∧ ReplyWithin T r) : Verdict.Within T (some (s, replies)) := by
  intro s' replies' heq
  cases heq
  exact ⟨hs, h⟩

theorem within_reply {r : Scalar} (hs : s.Within T) (hr : ScalarWithin T r) : Verdict.Within T (s.reply r) :=
  within_some hs fun _ hreply => ⟨.scalar r, hreply, hr⟩

theorem within_array {l : List Scalar} (hs : s.Within T) (hl : ∀ r ∈ l, ScalarWithin T r) :
    Verdict.Within T (s.array l) :=
  within_some hs fun _ hreply => ⟨.array l, hreply, hl⟩

theorem Refusal.isError {line : Bytes} (h : Refusal line) : IsError line := by
  cases h with
  | argc given h =>
    refine replyErrArgc_isError given ?_
    fin_cases h <;> decide
  | type => exact replyErrType_isError
  | intid => exact replyErrIntid_isError
  | unknown => exact ⟨⟨str "ERR unrecognized command", by decide⟩, by decide⟩

theorem within_refuse {line : Bytes} (hs : s.Within T) (hline : Refusal line) : Verdict.Within T (s.refuse line) := by
  obtain ⟨e, rfl⟩ := hline.isError
  exact within_some hs fun _ hreply => ⟨.error e, hreply, hline⟩

theorem within_none : Verdict.Within T none := fun _ _ h => nomatch h

theorem within_argc (hs : s.Within T) (given : ℕ) {expected : String}
    (h : expected ∈ ["0..2", "1", "1+", "2", "2+", "3", "3+"]) :
    Verdict.Within T (s.refuse (replyErrArgc given expected)) :=
  within_refuse hs (.argc given h)

theorem within_expects {view : Option α} {body : α → Verdict} (hs : s.Within T)
    (h : ∀ x, view = some x → Verdict.Within T (body x)) : Verdict.Within T (s.expects view body) := by
  cases view with
  | none => exact within_refuse hs Refusal.type
  | some x => exact h x rfl

theorem scalarWithin_element {a : Bytes} (h : a ∈ T) : ScalarWithin T (element a) := by
  unfold element
  split
  · trivial
  · exact h

theorem scalarWithin_single {o : Option Bytes} (h : ∀ a, o = some a → a ∈ T) : ScalarWithin T (single o) := by
  cases o with
  | none => trivial
  | some a => exact h a rfl

theorem scalarWithin_cell {o : Option Bytes} (h : ∀ a, o = some a → a ∈ T) : ScalarWithin T (cell o) := by
  cases o with
  | none => trivial
  | some a => exact scalarWithin_element (h a rfl)

/-! ### Stores -/

theorem Store.Within.str (hs : s.Within T) {o : Option Bytes} (h : Content.asStr (s.lookup key) = some o) :
    ∀ a, o = some a → a ∈ T := by
  rintro a rfl
  exact hs key (.str a) (asStr_eq_some.mp h)

theorem Store.Within.hash (hs : s.Within T) (h : Content.asHash (s.lookup key) = some f) : HashWithin T f := by
  rcases asHash_eq_some.mp h with ⟨-, rfl⟩ | hsome
  · simp [HashWithin]
  · exact hs key (.hash f) hsome

theorem Store.Within.list (hs : s.Within T) (h : Content.asList (s.lookup key) = some l) : ∀ value ∈ l, value ∈ T := by
  rcases asList_eq_some.mp h with ⟨-, rfl⟩ | hsome
  · simp
  · exact hs key (.list l) hsome

theorem Store.Within.set (hs : s.Within T) (h : Content.asSet (s.lookup key) = some t) : ∀ value ∈ t, value ∈ T := by
  rcases asSet_eq_some.mp h with ⟨-, rfl⟩ | hsome
  · simp
  · exact hs key (.set t) hsome

theorem Store.Within.put (hs : s.Within T) (hc : ∀ c', c = some c' → c'.Within T) : (s.put key c).Within T := by
  intro key' c' h
  by_cases heq : key' = key
  · subst heq
    rw [Store.lookup_put_self] at h
    exact hc c' h
  · rw [Store.lookup_put_ne heq] at h
    exact hs key' c' h

theorem Store.Within.insert (hs : s.Within T) {c : Content} (hc : c.Within T) : Store.Within T (s.insert key c) :=
  hs.put (c := some c) fun _ h => Option.some.inj h ▸ hc

theorem Store.Within.erase (hs : s.Within T) : Store.Within T (s.erase key) := hs.put (c := none) fun _ h => nomatch h

theorem Store.Within.putHash (hs : s.Within T) (hf : HashWithin T f) : (s.put key (Content.ofHash f)).Within T :=
  hs.put fun _ h => (ofHash_eq_some.mp h).2 ▸ hf

theorem Store.Within.putList (hs : s.Within T) (hl : ∀ value ∈ l, value ∈ T) : (s.put key (Content.ofList l)).Within T :=
  hs.put fun _ h => (ofList_eq_some.mp h).2 ▸ hl

theorem Store.Within.putSet (hs : s.Within T) (ht : ∀ value ∈ t, value ∈ T) : (s.put key (Content.ofSet t)).Within T :=
  hs.put fun _ h => (ofSet_eq_some.mp h).2 ▸ ht

theorem HashWithin.insert {field value : Bytes} (h : HashWithin T f) (hfield : field ∈ T) (hvalue : value ∈ T) :
    HashWithin T (f.insert field value) := by
  intro field' value' hlookup
  by_cases heq : field' = field
  · subst heq
    rw [Finmap.lookup_insert] at hlookup
    cases hlookup
    exact ⟨hfield, hvalue⟩
  · rw [Finmap.lookup_insert_of_ne f heq] at hlookup
    exact h field' value' hlookup

theorem HashWithin.erase {field : Bytes} (h : HashWithin T f) : HashWithin T (f.erase field) := by
  intro field' value' hlookup
  by_cases heq : field' = field
  · subst heq
    rw [Finmap.lookup_erase] at hlookup
    cases hlookup
  · rw [Finmap.lookup_erase_ne heq] at hlookup
    exact h field' value' hlookup

theorem mem_pairs {p : Bytes × Bytes} (h : p ∈ pairs argv) : p.1 ∈ argv ∧ p.2 ∈ argv := by
  induction argv using pairs.induct with
  | case1 a b rest ih =>
    rcases List.mem_cons.mp h with rfl | h
    · simp
    · have hrest := ih h
      simp [hrest.1, hrest.2]
  | case2 argv hne =>
    rw [pairs] at h
    · cases h
    · exact hne

theorem mem_mapM {β : Type} {g : α → Option β} {args : List α} {bs : List β} {b : β} (h : args.mapM g = some bs)
    (hb : b ∈ bs) : ∃ a ∈ args, g a = some b := by
  induction args generalizing bs with
  | nil =>
    cases h
    cases hb
  | cons a args ih =>
    simp only [List.mapM_cons, Option.bind_eq_bind, Option.bind_eq_some_iff] at h
    obtain ⟨b', ha, bs', hargs, heq⟩ := h
    cases heq
    rcases List.mem_cons.mp hb with rfl | hb
    · exact ⟨a, List.mem_cons_self, ha⟩
    · obtain ⟨a', ha', hg⟩ := ih hargs hb
      exact ⟨a', List.mem_cons_of_mem a ha', hg⟩

theorem removal_subset (count : Int) (value : Bytes) (l : List Bytes) : removal count value l ⊆ l := by
  intro b hb
  unfold removal at hb
  split at hb
  · exact List.mem_reverse.mp (List.diff_subset _ _ (List.mem_reverse.mp hb))
  · split at hb
    · exact List.mem_of_mem_filter hb
    · exact List.diff_subset _ _ hb

/-! ### Keys and strings -/

section Commands
variable (hs : s.Within T)
include hs

theorem del_within : Verdict.Within T (s.del argv) := by
  unfold Store.del
  split
  · exact within_argc hs _ (by simp)
  · exact within_reply (List.foldlRecOn argv _ hs fun _ h _ _ => h.erase) trivial

theorem exists_within : Verdict.Within T (s.exists_ argv) := by
  unfold Store.exists_
  split
  · exact within_argc hs _ (by simp)
  · exact within_reply hs trivial

theorem type_within (hown : ownTexts ⊆ T) : Verdict.Within T (s.type argv) := by
  match argv with
  | [] | _ :: _ :: _ => exact within_argc hs _ (by simp)
  | [key] =>
    refine within_reply hs ?_
    cases s.lookup key with
    | none => exact hown (.inr (.inr (.inl rfl)))
    | some c => exact hown (.inr (.inr (.inr (.inl ⟨c.type, rfl⟩))))

theorem set_within (hown : ownTexts ⊆ T) (hargv : ∀ a ∈ argv, a ∈ T) : Verdict.Within T (s.set argv) := by
  have hok : ScalarWithin T (.bulk (str "OK")) := hown (.inr (.inl rfl))
  match argv with
  | [] => exact within_reply hs hok
  | [key] => exact within_reply (hs.insert (hown (.inl rfl))) hok
  | [key, value] => exact within_reply (hs.insert (hargv value (by simp))) hok
  | _ :: _ :: _ :: _ => exact within_argc hs _ (by simp)

theorem get_within : Verdict.Within T (s.get argv) := by
  match argv with
  | [] | _ :: _ :: _ => exact within_argc hs _ (by simp)
  | [key] => exact within_expects hs fun v hv => within_reply hs (scalarWithin_single (hs.str hv))

theorem mset_within (hown : ownTexts ⊆ T) (hargv : ∀ a ∈ argv, a ∈ T) : Verdict.Within T (s.mset argv) := by
  unfold Store.mset
  split
  · refine within_reply (List.foldlRecOn (pairs argv) _ hs fun _ h p hp => ?_) (hown (.inr (.inl rfl)))
    exact h.insert (hargv p.2 (mem_pairs hp).2)
  · exact within_argc hs _ (by simp)

theorem mget_within : Verdict.Within T (s.mget argv) := by
  match argv with
  | [] => exact within_argc hs _ (by simp)
  | key :: keys =>
    refine within_expects hs fun _ _ => ?_
    cases hread : (key :: keys).mapM fun key => Content.asStr (s.lookup key) with
    | none => exact within_none
    | some cells =>
      refine within_array hs fun r hr => ?_
      obtain ⟨o, ho, rfl⟩ := List.mem_map.mp hr
      obtain ⟨key', -, hkey'⟩ := mem_mapM hread ho
      exact scalarWithin_cell (hs.str hkey')

theorem number_within (hown : ownTexts ⊆ T) {x : Int} (hx : FitsInt x) : Verdict.Within T (s.number key x) :=
  within_reply (hs.insert (hown (.inr (.inr (.inr (.inr ⟨x, hx, rfl⟩)))))) trivial

theorem step_within (hown : ownTexts ⊆ T) {delta : Int} (hdelta : FitsInt delta) : Verdict.Within T (s.step delta argv) := by
  match argv with
  | [] | _ :: _ :: _ => exact within_argc hs _ (by simp)
  | [key] =>
    refine within_expects hs fun v _ => ?_
    cases v with
    | none => exact number_within hs hown hdelta
    | some v =>
      dsimp only
      split
      · exact number_within hs hown ⟨le_wrap32 _, wrap32_lt _⟩
      · exact within_refuse hs .intid

theorem stepBy_within (hown : ownTexts ⊆ T) (op : Int → Int → Int) : Verdict.Within T (s.stepBy op argv) := by
  match argv with
  | [] | [_] | _ :: _ :: _ :: _ => exact within_argc hs _ (by simp)
  | [key, arg] =>
    refine within_expects hs fun v _ => ?_
    cases v with
    | none =>
      dsimp only
      split
      · exact number_within hs hown (strtoi_range arg)
      · exact within_none
    | some v =>
      dsimp only
      split
      · exact number_within hs hown ⟨le_wrap32 _, wrap32_lt _⟩
      · exact within_refuse hs .intid

theorem strlen_within : Verdict.Within T (s.strlen argv) := by
  match argv with
  | [] | _ :: _ :: _ => exact within_argc hs _ (by simp)
  | [key] => exact within_expects hs fun _ _ => within_reply hs trivial

/-! ### Hashes -/

theorem hset_within (hargv : ∀ a ∈ argv, a ∈ T) : Verdict.Within T (s.hset argv) := by
  match argv with
  | [] => exact within_argc hs _ (by simp)
  | key :: args =>
    by_cases harity : args.length ≥ 2 ∧ args.length % 2 = 0
    · rw [Store.hset, if_pos harity]
      refine within_expects hs fun f hf => within_reply (hs.putHash ?_) ?_
      · refine List.foldlRecOn (pairs args) _ (hs.hash hf) fun f hf p hp => ?_
        obtain ⟨hfield, hvalue⟩ := mem_pairs hp
        exact hf.insert (hargv p.1 (List.mem_cons_of_mem _ hfield)) (hargv p.2 (List.mem_cons_of_mem _ hvalue))
      · trivial
    · rw [Store.hset, if_neg harity]
      exact within_argc hs _ (by simp)

theorem hget_within : Verdict.Within T (s.hget argv) := by
  match argv with
  | [] | [_] | _ :: _ :: _ :: _ => exact within_argc hs _ (by simp)
  | [key, field] =>
    exact within_expects hs fun f hf => within_reply hs (scalarWithin_single fun a ha => (hs.hash hf field a ha).2)

theorem hdel_within : Verdict.Within T (s.hdel argv) := by
  match argv with
  | [] | [_] => exact within_argc hs _ (by simp)
  | key :: field :: fields =>
    refine within_expects hs fun f hf => within_reply (hs.putHash ?_) ?_
    · exact List.foldlRecOn (field :: fields) _ (hs.hash hf) fun _ hf _ _ => hf.erase
    · trivial

theorem hbindings_within {out : Bytes × Bytes → List Bytes} (hout : ∀ p, ∀ a ∈ out p, a = p.1 ∨ a = p.2) :
    Verdict.Within T (s.hbindings out argv) := by
  match argv with
  | [] | _ :: _ :: _ => exact within_argc hs _ (by simp)
  | [key] =>
    refine within_expects hs fun f hf => within_some hs ?_
    rintro reply ⟨l, hl, rfl⟩
    refine ⟨_, rfl, fun r hr => ?_⟩
    obtain ⟨a, ha, rfl⟩ := List.mem_map.mp hr
    obtain ⟨p, hp, ha⟩ := List.mem_flatMap.mp ha
    obtain ⟨c, hlookup, rfl⟩ := hl.entry p hp
    obtain ⟨hfield, hvalue⟩ := hs.hash hf p.1 p.2 hlookup
    rcases hout p a ha with rfl | rfl
    · exact scalarWithin_element hfield
    · exact scalarWithin_element hvalue

theorem hexists_within : Verdict.Within T (s.hexists argv) := by
  match argv with
  | [] | [_] | _ :: _ :: _ :: _ => exact within_argc hs _ (by simp)
  | [key, field] => exact within_expects hs fun _ _ => within_reply hs trivial

theorem hmget_within : Verdict.Within T (s.hmget argv) := by
  match argv with
  | [] | [_] => exact within_argc hs _ (by simp)
  | key :: field :: fields =>
    refine within_expects hs fun f hf => within_array hs fun r hr => ?_
    split at hr
    · cases hr
    · obtain ⟨field', -, rfl⟩ := List.mem_map.mp hr
      exact scalarWithin_cell fun a ha => (hs.hash hf field' a ha).2

theorem hlen_within : Verdict.Within T (s.hlen argv) := by
  match argv with
  | [] | _ :: _ :: _ => exact within_argc hs _ (by simp)
  | [key] => exact within_expects hs fun _ _ => within_reply hs trivial

/-! ### Lists -/

theorem push_within (hargv : ∀ a ∈ argv, a ∈ T) (dir : ListDirection) : Verdict.Within T (s.push dir argv) := by
  match argv with
  | [] | [_] => exact within_argc hs _ (by simp)
  | key :: value :: values =>
    refine within_expects hs fun l hl => within_reply (hs.putList ?_) ?_
    · refine List.foldlRecOn (motive := fun l => ∀ value ∈ l, value ∈ T) (value :: values) _ (hs.list hl) ?_
      intro l hl a ha b hb
      have hmem : b = a ∨ b ∈ l := by cases dir <;> simpa [Store.pushed, or_comm] using hb
      rcases hmem with rfl | hb
      · exact hargv b (List.mem_cons_of_mem key ha)
      · exact hl b hb
    · trivial

theorem pop_within (dir : ListDirection) : Verdict.Within T (s.pop dir argv) := by
  match argv with
  | [] | _ :: _ :: _ => exact within_argc hs _ (by simp)
  | [key] =>
    refine within_expects hs fun l hl => within_reply (hs.putList fun b hb => ?_) (scalarWithin_single fun b hb => ?_)
    · cases dir with
      | LEFT => exact hs.list hl b (List.mem_of_mem_tail hb)
      | RIGHT => exact hs.list hl b (List.mem_of_mem_dropLast hb)
    · cases dir with
      | LEFT => exact hs.list hl b (List.mem_of_mem_head? hb)
      | RIGHT => exact hs.list hl b (List.mem_of_mem_getLast? hb)

theorem llen_within : Verdict.Within T (s.llen argv) := by
  match argv with
  | [] | _ :: _ :: _ => exact within_argc hs _ (by simp)
  | [key] => exact within_expects hs fun _ _ => within_reply hs trivial

theorem lindex_within : Verdict.Within T (s.lindex argv) := by
  match argv with
  | [] | [_] | _ :: _ :: _ :: _ => exact within_argc hs _ (by simp)
  | [key, arg] =>
    refine within_expects hs fun l hl => ?_
    dsimp only
    split
    · exact within_refuse hs .intid
    · split
      · exact within_reply hs trivial
      · split
        · exact within_reply hs (scalarWithin_single fun a ha => hs.list hl a (List.mem_of_getElem? ha))
        · exact within_refuse hs .intid

theorem lrange_within : Verdict.Within T (s.lrange argv) := by
  match argv with
  | [] | [_] | [_, _] | _ :: _ :: _ :: _ :: _ => exact within_argc hs _ (by simp)
  | [key, bgnArg, endArg] =>
    refine within_expects hs fun l hl => ?_
    dsimp only
    split
    · exact within_refuse hs .intid
    · split
      · exact within_array hs fun _ hr => nomatch hr
      · split
        · refine within_array hs fun r hr => ?_
          obtain ⟨a, ha, rfl⟩ := List.mem_map.mp hr
          exact scalarWithin_element (hs.list hl a (List.mem_of_mem_take (List.mem_of_mem_drop ha)))
        · exact within_refuse hs .intid

theorem lset_within (hown : ownTexts ⊆ T) (hargv : ∀ a ∈ argv, a ∈ T) : Verdict.Within T (s.lset argv) := by
  match argv with
  | [] | [_] | [_, _] | _ :: _ :: _ :: _ :: _ => exact within_argc hs _ (by simp)
  | [key, arg, value] =>
    refine within_expects hs fun l hl => ?_
    dsimp only
    split
    · exact within_refuse hs .intid
    · split
      · exact within_reply hs trivial
      · split
        · refine within_reply (hs.putList fun b hb => ?_) (hown (.inr (.inl rfl)))
          rcases List.mem_or_eq_of_mem_set hb with hb | rfl
          · exact hs.list hl b hb
          · exact hargv b (by simp)
        · exact within_refuse hs .intid

theorem lrem_within : Verdict.Within T (s.lrem argv) := by
  match argv with
  | [] | [_] | [_, _] | _ :: _ :: _ :: _ :: _ => exact within_argc hs _ (by simp)
  | [key, arg, value] =>
    refine within_expects hs fun l hl => ?_
    dsimp only
    split
    · refine within_reply (hs.putList fun b hb => ?_) ?_
      · exact hs.list hl b (removal_subset _ _ _ hb)
      · trivial
    · exact within_refuse hs .intid

theorem lpos_within : Verdict.Within T (s.lpos argv) := by
  match argv with
  | [] | [_] | _ :: _ :: _ :: _ => exact within_argc hs _ (by simp)
  | [key, value] =>
    refine within_expects hs fun l _ => within_reply hs ?_
    split <;> trivial

/-! ### Sets -/

theorem sadd_within (hargv : ∀ a ∈ argv, a ∈ T) : Verdict.Within T (s.sadd argv) := by
  match argv with
  | [] | [_] => exact within_argc hs _ (by simp)
  | key :: value :: values =>
    refine within_expects hs fun t ht => within_reply (hs.putSet ?_) ?_
    · refine List.foldlRecOn (motive := fun t => ∀ value ∈ t, value ∈ T) (value :: values) _ (hs.set ht) ?_
      intro t ht a ha b hb
      rcases Finset.mem_insert.mp hb with rfl | hb
      · exact hargv b (List.mem_cons_of_mem key ha)
      · exact ht b hb
    · trivial

theorem srem_within : Verdict.Within T (s.srem argv) := by
  match argv with
  | [] | [_] => exact within_argc hs _ (by simp)
  | key :: value :: values =>
    refine within_expects hs fun t ht => within_reply (hs.putSet ?_) ?_
    · refine List.foldlRecOn (motive := fun t => ∀ value ∈ t, value ∈ T) (value :: values) _ (hs.set ht) ?_
      exact fun t ht a _ b hb => ht b (Finset.mem_of_mem_erase hb)
    · trivial

theorem sismember_within : Verdict.Within T (s.sismember argv) := by
  match argv with
  | [] | [_] | _ :: _ :: _ :: _ => exact within_argc hs _ (by simp)
  | [key, value] => exact within_expects hs fun _ _ => within_reply hs trivial

theorem smembers_within : Verdict.Within T (s.smembers argv) := by
  match argv with
  | [] | _ :: _ :: _ => exact within_argc hs _ (by simp)
  | [key] =>
    refine within_expects hs fun t ht => within_some hs ?_
    rintro reply ⟨l, hl, rfl⟩
    refine ⟨_, rfl, fun r hr => ?_⟩
    obtain ⟨a, ha, rfl⟩ := List.mem_map.mp hr
    exact scalarWithin_element (hs.set ht a ((hl.mem a).mp ha))

theorem smismember_within : Verdict.Within T (s.smismember argv) := by
  match argv with
  | [] | [_] => exact within_argc hs _ (by simp)
  | key :: value :: values =>
    refine within_expects hs fun t _ => within_array hs fun r hr => ?_
    split at hr
    · cases hr
    · obtain ⟨value', -, rfl⟩ := List.mem_map.mp hr
      trivial

/-! ### Commands -/

theorem exec_within (hown : ownTexts ⊆ T) {cmd : Command} (hargv : ∀ a ∈ cmd.argv, a ∈ T)
    (hb : bareReply cmd.type = none) : Verdict.Within T (s.exec cmd) := by
  obtain ⟨type, argv⟩ := cmd
  cases type with
  | DEL => exact del_within hs
  | EXISTS => exact exists_within hs
  | TYPE => exact type_within hs hown
  | SET => exact set_within hs hown hargv
  | GET => exact get_within hs
  | MSET => exact mset_within hs hown hargv
  | MGET => exact mget_within hs
  | INCR => exact step_within hs hown ⟨by decide, by decide⟩
  | DECR => exact step_within hs hown ⟨by decide, by decide⟩
  | INCRBY => exact stepBy_within hs hown (· + ·)
  | DECRBY => exact stepBy_within hs hown (· - ·)
  | STRLEN => exact strlen_within hs
  | HSET => exact hset_within hs hargv
  | HGET => exact hget_within hs
  | HDEL => exact hdel_within hs
  | HGETALL => exact hbindings_within hs (by simp)
  | HEXISTS => exact hexists_within hs
  | HKEYS => exact hbindings_within hs (by simp)
  | HVALS => exact hbindings_within hs (by simp)
  | HMGET => exact hmget_within hs
  | HLEN => exact hlen_within hs
  | LPUSH => exact push_within hs hargv .LEFT
  | LPOP => exact pop_within hs .LEFT
  | RPUSH => exact push_within hs hargv .RIGHT
  | RPOP => exact pop_within hs .RIGHT
  | LLEN => exact llen_within hs
  | LINDEX => exact lindex_within hs
  | LRANGE => exact lrange_within hs
  | LSET => exact lset_within hs hown hargv
  | LREM => exact lrem_within hs
  | LPOS => exact lpos_within hs
  | SADD => exact sadd_within hs hargv
  | SREM => exact srem_within hs
  | SISMEMBER => exact sismember_within hs
  | SMEMBERS => exact smembers_within hs
  | SMISMEMBER => exact smismember_within hs
  | UNKNOWN => exact within_refuse hs .unknown
  | QUIT | SHUTDOWN | NOOP => cases hb

end Commands

theorem exec_bare {cmd : Command} {reply : Bytes} (hb : bareReply cmd.type = some reply) : s.exec cmd = s.refuse reply := by
  rcases bareReply_cases hb with ⟨htype, rfl⟩ | ⟨htype, rfl⟩ | ⟨htype, rfl⟩ <;> rw [Store.exec, htype]

/-! ### Runs -/

theorem plays_within {cmds : List Command} {os : List Bytes} (h : Simulation.Plays Store.exec s cmds s' os)
    (hs : s.Within T) (hown : ownTexts ⊆ T) (hargv : arguments cmds ⊆ T) :
    s'.Within T ∧ List.Forall₂ (AnswerWithin T) cmds os := by
  induction h with
  | nil => exact ⟨hs, .nil⟩
  | @cons s s₁ s' cmd cmds replies o os hexec ho _ ih =>
    have hcmd : ∀ a ∈ cmd.argv, a ∈ T := fun a ha => hargv ⟨cmd, List.mem_cons_self, ha⟩
    have hrest : arguments cmds ⊆ T := fun a ⟨c, hc, ha⟩ => hargv ⟨c, List.mem_cons_of_mem cmd hc, ha⟩
    cases hb : bareReply cmd.type with
    | none =>
      obtain ⟨hs₁, hreplies⟩ := exec_within hs hown hcmd hb s₁ replies hexec
      obtain ⟨hs', hall⟩ := ih hs₁ hrest
      exact ⟨hs', .cons (.inr (hreplies o ho)) hall⟩
    | some reply =>
      rw [exec_bare hb] at hexec
      cases hexec
      obtain ⟨hs', hall⟩ := ih hs hrest
      obtain rfl : o = reply := ho
      exact ⟨hs', .cons (.inl hb) hall⟩

/-- No reply shows a text that the server has not been given, but for a few of its own: the n-th one shows only
    arguments of the first n commands. -/
theorem replies_show_given_texts {m : IntMode} {cmds : List Command}
    (hs : Runs.Along (serve m) (Command.Meets m (HtableOp.Lossless m)) (htableInit htBaseSize) cmds) :
    Ensures (Simulation.run (interpret m) (htableInit htBaseSize) cmds)
      (fun r => ∀ n reply, r.2[n]? = some reply → ∃ cmd, cmds[n]? = some cmd ∧
        AnswerWithin (ownTexts ∪ arguments (cmds.take (n + 1))) cmd reply)
      (fun e => Escapes m e ∨ Simulation.MayFail Store.exec ∅ cmds) := by
  refine (interpret_simulates.run_spec Maps.init hs).post fun r ⟨s, hplays, _⟩ n reply hreply => ?_
  obtain ⟨s₁, hplays⟩ := hplays.take (n + 1)
  have hempty : Store.Within (ownTexts ∪ arguments (cmds.take (n + 1))) ∅ := fun _ _ h => nomatch h
  obtain ⟨-, hall⟩ := plays_within hplays hempty Set.subset_union_left Set.subset_union_right
  have hlast : (r.2.take (n + 1))[n]? = some reply := by rw [List.getElem?_take_of_lt (Nat.lt_succ_self n), hreply]
  obtain ⟨hn, rfl⟩ := List.getElem?_eq_some_iff.mp hlast
  obtain ⟨hlength, hget⟩ := List.forall₂_iff_get.mp hall
  have hanswer := hget n (hlength ▸ hn) hn
  refine ⟨_, ?_, hanswer⟩
  rw [← List.getElem?_take_of_lt (Nat.lt_succ_self n)]
  exact List.getElem?_eq_getElem _

/-! ### NULs -/

theorem nul_notMem_own : ownTexts ⊆ {s : Bytes | 0 ∉ s} := by
  rintro s (rfl | rfl | rfl | ⟨type, rfl⟩ | ⟨x, -, rfl⟩)
  · exact List.not_mem_nil
  · decide
  · decide
  · cases type <;> decide
  · exact nul_notMem_intostr x

theorem nul_notMem_refusal {line : Bytes} (h : Refusal line) : 0 ∉ line := by
  cases h with
  | @argc given expected h =>
    have hexp : 0 ∉ str expected := by fin_cases h <;> decide
    simp only [replyErrArgc, List.mem_append, not_or]
    exact ⟨⟨⟨⟨⟨by decide, nul_notMem_intostr _⟩, by decide⟩, hexp⟩, by decide⟩, by decide⟩
  | type | intid | unknown => decide

theorem nul_notMem_scalar {r : Scalar} (h : ScalarWithin {s : Bytes | 0 ∉ s} r) : 0 ∉ r.encode := by
  have hint (x : Int) : 0 ∉ Decimal.int x := nul_notMem_intostr x
  cases r with
  | nil => decide
  | bulk s =>
    simp only [Scalar.encode, List.cons_append, List.mem_cons, List.mem_append, not_or]
    exact ⟨by decide, ⟨⟨hint _, by decide⟩, h⟩, by decide⟩
  | int x =>
    simp only [Scalar.encode, List.cons_append, List.mem_cons, List.mem_append, not_or]
    exact ⟨by decide, hint x, by decide⟩

/-- A reply that shows only texts without NULs is a C string as it stands. -/
theorem nul_notMem_encode {r : Reply} (h : ReplyWithin {s : Bytes | 0 ∉ s} r) : 0 ∉ r.encode := by
  cases r with
  | scalar r => exact nul_notMem_scalar h
  | array l =>
    simp only [Reply.encode, List.cons_append, List.mem_cons, List.mem_append, List.mem_flatMap, not_or]
    refine ⟨by decide, ⟨nul_notMem_intostr _, by decide⟩, ?_⟩
    rintro ⟨r, hr, hmem⟩
    exact nul_notMem_scalar (h r hr) hmem
  | error line => exact nul_notMem_refusal h

end Texts

theorem replies_show_given_texts_mixed : ∃ r, Simulation.run (interpret .wrap) (htableInit htBaseSize) mixed = .ok r ∧
    r.2 = mixedReplies ∧ ∀ n reply, r.2[n]? = some reply → ∃ cmd, mixed[n]? = some cmd ∧
      AnswerWithin (ownTexts ∪ arguments (mixed.take (n + 1))) cmd reply := by
  obtain ⟨r, hrun, hreplies⟩ := mixed_run
  exact ⟨r, hrun, hreplies, Ensures.of_ok (replies_show_given_texts mixed_lossless) hrun⟩

end MemKey
