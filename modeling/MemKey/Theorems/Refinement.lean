import MemKey.Lib.Simulation
import MemKey.Theorems.Reading

/-! The commands on a keyspace that stands for a store. A command whose operations lose nothing leaves a keyspace that
    stands for the store it is meant to leave, gives a reply that the store allows, and crashes when the store says so. -/

namespace MemKey
open Outcome Listing Resp

/-- The handler does what the verdict says, unless a probe wraps. -/
def Agrees (m : IntMode) (x : Exec) (v : Verdict) : Prop :=
  Ensures x (fun r => ∃ s replies, v = some (s, replies) ∧ Represents m r.1 s ∧ r.2 ∈ replies)
    fun e => Escapes m e ∨ v = none

/-- What a command reads that expects a content of type `T`. -/
structure Views {α : Type} (view : Option Content → Option α) (T : ItemType) : Prop where
  missing : (view none).isSome = true
  found : ∀ c, (view (some c)).isSome = true ↔ c.type = T

/-- The operations that a run performs all lose nothing. -/
abbrev Spared (m : IntMode) (ht : Keyspace) (ops : List HtableOp) : Prop :=
  Runs.Along (HtableOp.step m) (HtableOp.Lossless m) ht ops

theorem views_str : Views Content.asStr .STR_T := ⟨rfl, fun c => by cases c <;> simp [Content.asStr, Content.type]⟩

theorem views_hash : Views Content.asHash .HASH_T := ⟨rfl, fun c => by cases c <;> simp [Content.asHash, Content.type]⟩

theorem views_list : Views Content.asList .LIST_T := ⟨rfl, fun c => by cases c <;> simp [Content.asList, Content.type]⟩

theorem views_set : Views Content.asSet .SET_T := ⟨rfl, fun c => by cases c <;> simp [Content.asSet, Content.type]⟩

section Refinement
variable {m : IntMode} {ht ht' : Keyspace} {s s' : Store} {key : Bytes} {cmd : Command} {α σ ρ : Type} {v : Verdict}
  {expected : String} {T : ItemType} {Q : ρ → Prop}

/-! ### Replies -/

theorem agrees_of_mem {replies : Set Bytes} {reply : Bytes} (h : Represents m ht s) (hr : reply ∈ replies) :
    Agrees m (.ok (ht, reply)) (some (s, replies)) := ⟨s, replies, rfl, h, hr⟩

theorem agrees_line (h : Represents m ht s) (line : Bytes) : Agrees m (.ok (ht, line)) (s.refuse line) :=
  agrees_of_mem h rfl

theorem agrees_string (h : Represents m ht s) (v : Option Bytes) : Agrees m (.ok (ht, replyString v)) (s.reply (single v)) :=
  agrees_of_mem h (replyString_eq v)

theorem agrees_integer (h : Represents m ht s) (x : Int) : Agrees m (.ok (ht, replyInteger x)) (s.reply (.int x)) :=
  agrees_of_mem h rfl

theorem agrees_count {x y : Int} (h : Represents m ht s) (hx : x = y) :
    Agrees m (.ok (ht, replyInteger x)) (s.reply (.int y)) := hx ▸ agrees_integer h x

theorem Agrees.bind {x : Except Fault ρ} {f : ρ → Exec} (hx : Ensures x Q (Escapes m))
    (hf : ∀ a, x = .ok a → Q a → Agrees m (f a) v) : Agrees m (x >>= f) v :=
  Ensures.bind (hx.mono (fun _ => id) fun _ => .inl) hf

/-! ### The guard -/

theorem Agrees.typed {view : Option Content → Option α} (h : Represents m ht s) (hview : Views view T)
    (hexp : str expected = typeName T) {body : Exec} {verdict : α → Verdict}
    (hbody : ∀ x, view (s.lookup key) = some x → (∀ ops, guarded m ht key expected ops = ops) →
      Agrees m body (verdict x)) :
    Agrees m (typed m ht key expected body) (s.expects (view (s.lookup key)) verdict) := by
  have hspec := h.type_spec key
  unfold MemKey.typed
  cases htype : htableType m ht key with
  | error e => exact .inl (hspec.of_error htype)
  | ok type =>
    have hguard (ops : List HtableOp) : guarded m ht key expected ops = if isType type (str expected) then ops else [] := by
      rw [guarded, htype]
    have hopen : isType type (str expected) = (view (s.lookup key)).isSome := by
      rw [hspec.of_ok htype]
      cases hlookup : s.lookup key with
      | none =>
        rw [hview.missing]
        simp [isType]
      | some c =>
        rw [hexp, Bool.eq_iff_iff, hview.found]
        exact isType_typeName
    rw [ok_bind]
    cases hv : view (s.lookup key) with
    | none =>
      rw [hv] at hopen
      rw [if_neg (by simp [hopen])]
      exact agrees_line h _
    | some x =>
      rw [hv] at hopen
      rw [if_pos (by simp [hopen])]
      exact hbody x hv fun ops => by rw [hguard, if_pos (by simp [hopen])]

/-! ### Loops -/

/-- A loop of operations, each of which changes the store as `g` says and counts if that changes the size. -/
theorem oksLoop_agrees {f : Keyspace → α → Except Fault (Keyspace × Bool)} (op : α → HtableOp) (St : σ → Store)
    (g : σ → α → σ) (size : σ → Int) (hop : ∀ ht a, (op a).step m ht = do .ok (← f ht a).1)
    (hf : ∀ ht x a, Represents m ht (St x) → (op a).Lossless m ht →
      Ensures (f ht a) (fun r => Represents m r.1 (St (g x a)) ∧ size (g x a) = size x + if r.2 then 1 else 0) (Escapes m))
    {x : σ} {args : List α} (h : Represents m ht (St x)) (hs : Spared m ht (args.map op)) (oks : Int) :
    Ensures (oksLoop f ht oks args)
      (fun r => Represents m r.1 (St (args.foldl g x)) ∧ r.2 = oks + (size (args.foldl g x) - size x)) (Escapes m) := by
  induction args generalizing ht x oks with
  | nil => exact ⟨h, by simp⟩
  | cons a args ih =>
    refine (hf ht x a h hs.1).bind fun ⟨ht', ok⟩ hrun hr => ?_
    have hstep : (op a).step m ht = .ok ht' := by rw [hop, hrun]; rfl
    refine (ih hr.1 (hs.2 ht' hstep) _).post fun r hr' => ⟨hr'.1, ?_⟩
    have hsize : size (g x a) = size x + if ok then 1 else 0 := hr.2
    rw [hr'.2, List.foldl_cons, hsize]
    ring

theorem pushLoop_agrees {dir : ListDirection} {l : List Bytes} {args : List Bytes}
    (h : Represents m ht (s.put key (Content.ofList l))) (hs : Spared m ht (args.map (.push key · dir))) :
    Ensures (pushLoop m dir key ht l.length args)
      (fun r => Represents m r.1 (s.put key (Content.ofList (args.foldl (Store.pushed dir) l))) ∧
        r.2 = (args.foldl (Store.pushed dir) l).length) (Escapes m) := by
  induction args generalizing ht l with
  | nil => exact ⟨h, rfl⟩
  | cons a args ih =>
    have hpush := h.push_spec hs.1 (l := l) (by simp)
    rw [Store.put_put] at hpush
    refine hpush.bind fun ⟨ht', len⟩ hrun hr => ?_
    have hstep : (HtableOp.push key a dir).step m ht = .ok ht' := by rw [HtableOp.step, hrun]; rfl
    obtain ⟨hr, hlen⟩ := hr
    obtain rfl : len = (Store.pushed dir l a).length := hlen
    exact ih hr (hs.2 ht' hstep)

/-- The store is the one with what is read put back. -/
theorem Maps.put_hash (h : Represents m ht s) {f : Finmap fun _ : Bytes => Bytes}
    (hv : Content.asHash (s.lookup key) = some f) : s.put key (Content.ofHash f) = s := by
  rcases asHash_eq_some.mp hv with ⟨hnone, rfl⟩ | hsome
  · rw [Content.ofHash, if_pos rfl, ← hnone, Store.put_lookup]
  · obtain ⟨a, -, hshows⟩ := h.content hsome
    obtain ⟨tmp, -, -, hne⟩ := hshows.of_hash
    rw [Content.ofHash, if_neg hne, ← hsome, Store.put_lookup]

theorem Maps.put_list (h : Represents m ht s) {l : List Bytes} (hv : Content.asList (s.lookup key) = some l) :
    s.put key (Content.ofList l) = s := by
  rcases asList_eq_some.mp hv with ⟨hnone, rfl⟩ | hsome
  · rw [Content.ofList, if_pos rfl, ← hnone, Store.put_lookup]
  · obtain ⟨a, -, hshows⟩ := h.content hsome
    obtain ⟨ls, -, -, hne⟩ := hshows.of_list
    rw [Content.ofList, if_neg hne, ← hsome, Store.put_lookup]

theorem Maps.put_set (h : Represents m ht s) {t : Finset Bytes} (hv : Content.asSet (s.lookup key) = some t) :
    s.put key (Content.ofSet t) = s := by
  rcases asSet_eq_some.mp hv with ⟨hnone, rfl⟩ | hsome
  · rw [Content.ofSet, if_pos rfl, ← hnone, Store.put_lookup]
  · obtain ⟨a, -, hshows⟩ := h.content hsome
    obtain ⟨st, -, -, hne⟩ := hshows.of_set
    rw [Content.ofSet, if_neg hne, ← hsome, Store.put_lookup]

/-! ### Sizes -/

section Sizes
variable {γ : Type} {f : Finmap fun _ : Bytes => γ} {k : Bytes} {c : γ} {t : Finset Bytes} {b : Bool}

theorem card_insert (hb : b = true ↔ k ∉ f) : ((f.insert k c).keys.card : Int) = f.keys.card + if b then 1 else 0 := by
  have hkeys : (f.insert k c).keys = insert k f.keys := by
    ext k'
    rw [Finmap.mem_keys, Finmap.mem_insert, Finset.mem_insert, Finmap.mem_keys]
  rw [hkeys]
  by_cases hk : k ∈ f
  · rw [Finset.insert_eq_of_mem (Finmap.mem_keys.mpr hk), if_neg (fun h => hb.mp h hk), Int.add_zero]
  · rw [Finset.card_insert_of_notMem (fun h => hk (Finmap.mem_keys.mp h)), if_pos (hb.mpr hk)]
    rfl

theorem card_erase (hb : b = true ↔ k ∈ f) : -((f.erase k).keys.card : Int) = -f.keys.card + if b then 1 else 0 := by
  rw [Finmap.keys_erase]
  by_cases hk : k ∈ f
  · have hcard := Finset.card_erase_add_one (Finmap.mem_keys.mpr hk)
    rw [if_pos (hb.mpr hk)]
    omega
  · rw [Finset.erase_eq_of_notMem (fun h => hk (Finmap.mem_keys.mp h)), if_neg (fun h => hk (hb.mp h)), Int.add_zero]

theorem card_insert_set (hb : b = true ↔ k ∉ t) : ((insert k t).card : Int) = t.card + if b then 1 else 0 := by
  by_cases hk : k ∈ t
  · rw [Finset.insert_eq_of_mem hk, if_neg (fun h => hb.mp h hk), Int.add_zero]
  · rw [Finset.card_insert_of_notMem hk, if_pos (hb.mpr hk)]
    rfl

theorem card_erase_set (hb : b = true ↔ k ∈ t) : -((t.erase k).card : Int) = -t.card + if b then 1 else 0 := by
  by_cases hk : k ∈ t
  · have hcard := Finset.card_erase_add_one hk
    rw [if_pos (hb.mpr hk)]
    omega
  · rw [Finset.erase_eq_of_notMem hk, if_neg (fun h => hk (hb.mp h)), Int.add_zero]

end Sizes

/-! ### Keys -/

theorem execDel_agrees (h : Represents m ht s) (argv : List Bytes) (hs : Spared m ht (argv.map .del)) :
    Agrees m (execDel m ht ⟨.DEL, argv⟩) (s.del argv) := by
  cases argv with
  | nil => exact agrees_line h _
  | cons key keys =>
    have hloop := oksLoop_agrees (f := htableDel m) .del id (fun s key => s.erase key)
      (fun s => -(s.keys.card : Int)) (fun _ _ => rfl)
      (fun ht x a hx hl => (hx.keyspace_del_spec hl).post fun r hr => ⟨hr.1, card_erase hr.2⟩) h hs 0
    refine Agrees.bind hloop fun r _ hr => agrees_count hr.1 ?_
    rw [hr.2]
    ring

theorem execExists_agrees (h : Represents m ht s) (cmd : Command) :
    Agrees m (execExists m ht cmd) (s.exists_ cmd.argv) := by
  obtain ⟨type, argv⟩ := cmd
  cases argv with
  | nil => exact agrees_line h _
  | cons key keys =>
    have hloop (oks : Int) (argv : List Bytes) :
        Ensures (oksLoop (fun ht key => do .ok (ht, ← htableExists m ht key)) ht oks argv)
          (fun r => r.1 = ht ∧ r.2 = oks + argv.countP (· ∈ s)) (Escapes m) := by
      induction argv generalizing oks with
      | nil => exact ⟨rfl, (Int.add_zero _).symm⟩
      | cons key keys ih =>
        refine Ensures.bind (Q := fun r => r.1 = ht ∧ (r.2 = true ↔ key ∈ s)) ?_ fun r _ hr => ?_
        · exact (h.exists_spec key).bind fun b _ hb => ⟨rfl, hb⟩
        · obtain ⟨t, b⟩ := r
          obtain ⟨rfl, hb⟩ := hr
          refine (ih _).post fun r hr => ⟨hr.1, ?_⟩
          rw [hr.2, List.countP_cons, if_congr (decide_eq_true_iff.trans hb.symm) rfl rfl]
          push_cast
          ring
    refine Agrees.bind (hloop 0 (key :: keys)) fun r _ hr => ?_
    obtain ⟨t, oks⟩ := r
    obtain ⟨rfl, rfl⟩ := hr
    rw [Int.zero_add]
    exact agrees_integer h _

theorem execType_agrees (h : Represents m ht s) (cmd : Command) : Agrees m (execType m ht cmd) (s.type cmd.argv) := by
  obtain ⟨type, argv⟩ := cmd
  match argv with
  | [] | _ :: _ :: _ => exact agrees_line h _
  | [key] =>
    refine Agrees.bind (h.type_spec key) fun type _ htype => ?_
    subst htype
    exact agrees_string h (some _)

/-! ### Strings -/

theorem execSet_agrees (h : Represents m ht s) (argv : List Bytes)
    (hs : Spared m ht (Command.ops m ht ⟨.SET, argv⟩)) : Agrees m (execSet m ht ⟨.SET, argv⟩) (s.set argv) := by
  match argv with
  | [] => exact agrees_string h (some _)
  | [key] => exact Agrees.bind (h.keyspace_set_spec hs.1) fun r _ hr => agrees_string hr.1 (some _)
  | [key, value] => exact Agrees.bind (h.keyspace_set_spec hs.1) fun r _ hr => agrees_string hr.1 (some _)
  | _ :: _ :: _ :: _ => exact agrees_line h _

theorem execGet_agrees (h : Represents m ht s) (cmd : Command) : Agrees m (execGet m ht cmd) (s.get cmd.argv) := by
  obtain ⟨type, argv⟩ := cmd
  match argv with
  | [] | _ :: _ :: _ => exact agrees_line h _
  | [key] =>
    refine Agrees.typed h views_str rfl fun v hv _ => Agrees.bind (h.get_spec hv) fun r _ hr => ?_
    subst hr
    exact agrees_string h r

theorem execMset_agrees (h : Represents m ht s) (argv : List Bytes)
    (hs : Spared m ht (Command.ops m ht ⟨.MSET, argv⟩)) : Agrees m (execMset m ht ⟨.MSET, argv⟩) (s.mset argv) := by
  by_cases harity : argv.length ≥ 2 ∧ argv.length % 2 = 0
  · rw [show Command.ops m ht ⟨.MSET, argv⟩ = _ from if_pos harity] at hs
    rw [show execMset m ht ⟨.MSET, argv⟩ = _ from if_pos harity, Store.mset, if_pos harity]
    have hloop := oksLoop_agrees (f := fun ht (p : Bytes × Bytes) => htableSet m ht p.1 p.2) (fun p => .set p.1 p.2)
      id (fun s p => s.insert p.1 (.str p.2)) (fun s => (s.keys.card : Int)) (fun _ _ => rfl)
      (fun ht x p hx hl => (hx.keyspace_set_spec hl).post fun r hr => ⟨hr.1, card_insert hr.2⟩) h hs 0
    exact Agrees.bind hloop fun r _ hr => agrees_string hr.1 (some _)
  · rw [show execMset m ht ⟨.MSET, argv⟩ = _ from if_neg harity, Store.mset, if_neg harity]
    exact agrees_line h _

theorem agrees_number {x : Int} (h : Represents m ht s) (hs : Spared m ht [.set key (intostr x)]) :
    Agrees m (do
      let (ht, _) ← htableSet m ht key (intostr x)
      .ok (ht, replyInteger x)) (s.number key x) :=
  Agrees.bind (h.keyspace_set_spec hs.1) fun _ _ hr => agrees_integer hr.1 x

/-- `exec_incr` and `exec_decr`. -/
theorem execStep_agrees (h : Represents m ht s) (type : CommandType) (argv : List Bytes) (delta : Int)
    (hs : ∀ key, argv = [key] → Spared m ht (guarded m ht key "string" (stepOps m ht key delta))) :
    Agrees m (execStep m ht ⟨type, argv⟩ delta) (s.step delta argv) := by
  match argv with
  | [] | _ :: _ :: _ => exact agrees_line h _
  | [key] =>
    have hs := hs key rfl
    refine Agrees.typed h views_str rfl fun v hv hopen => Agrees.bind (h.get_spec hv) fun r hget hr => ?_
    rw [hopen, stepOps, hget] at hs
    subst hr
    cases r with
    | none => exact agrees_number h hs
    | some res =>
      dsimp only at hs ⊢
      split
      · rw [if_pos ‹_›] at hs
        exact agrees_number h hs
      · exact agrees_line h _

/-- `exec_incrby` and `exec_decrby`. -/
theorem execStepBy_agrees (h : Represents m ht s) (type : CommandType) (argv : List Bytes) (op : Int → Int → Int)
    (hs : ∀ key arg, argv = [key, arg] → Spared m ht (guarded m ht key "string" (stepByOps m ht key arg op))) :
    Agrees m (execStepBy m ht ⟨type, argv⟩ op) (s.stepBy op argv) := by
  match argv with
  | [] | [_] | _ :: _ :: _ :: _ => exact agrees_line h _
  | [key, arg] =>
    have hs := hs key arg rfl
    refine Agrees.typed h views_str rfl fun v hv hopen => Agrees.bind (h.get_spec hv) fun r hget hr => ?_
    rw [hopen, stepByOps, hget] at hs
    subst hr
    cases r with
    | none =>
      cases hnum : isNumber arg with
      | true =>
        rw [hnum] at hs
        exact agrees_number h hs
      | false => exact .inr rfl
    | some res =>
      have hfound : ¬(some res = none ∧ isNumber arg = true) := fun hnone => nomatch hnone.1
      dsimp only at hs ⊢
      rw [if_neg hfound, isNumberPtr, ok_bind]
      split
      · rw [if_pos ‹_›] at hs
        exact agrees_number h hs
      · exact agrees_line h _

theorem execStrlen_agrees (h : Represents m ht s) (cmd : Command) : Agrees m (execStrlen m ht cmd) (s.strlen cmd.argv) := by
  obtain ⟨type, argv⟩ := cmd
  match argv with
  | [] | _ :: _ :: _ => exact agrees_line h _
  | [key] =>
    refine Agrees.typed h views_str rfl fun v hv _ => Agrees.bind (h.get_spec hv) fun r _ hr => ?_
    subst hr
    cases r with
    | none => exact agrees_integer h 0
    | some res => exact agrees_integer h res.length

/-! ### Hashes -/

theorem execHset_agrees (h : Represents m ht s) (argv : List Bytes)
    (hs : Spared m ht (Command.ops m ht ⟨.HSET, argv⟩)) : Agrees m (execHset m ht ⟨.HSET, argv⟩) (s.hset argv) := by
  cases argv with
  | nil => exact agrees_line h _
  | cons key args =>
    have harity : (key :: args).length ≥ 3 ∧ (key :: args).length % 2 = 1 ↔ args.length ≥ 2 ∧ args.length % 2 = 0 := by
      rw [List.length_cons]
      omega
    by_cases hargs : args.length ≥ 2 ∧ args.length % 2 = 0
    · rw [show Command.ops m ht ⟨.HSET, key :: args⟩ = _ from if_pos hargs] at hs
      rw [show execHset m ht ⟨.HSET, key :: args⟩ = _ from if_pos (harity.mpr hargs), Store.hset, if_pos hargs]
      refine Agrees.typed h views_hash rfl fun f hv hopen => ?_
      rw [hopen] at hs
      have hloop := oksLoop_agrees (f := fun ht (p : Bytes × Bytes) => htableHset m ht key p.1 p.2)
        (fun p => .hset key p.1 p.2) (fun f => s.put key (Content.ofHash f)) (fun f p => f.insert p.1 p.2)
        (fun f => (f.keys.card : Int)) (fun _ _ => rfl)
        (fun ht f p hx hl => (hx.hset_spec (f := f) hl (by simp)).post fun r hr =>
          ⟨Store.put_put (s := s) ▸ hr.1, card_insert hr.2⟩) (x := f) (by rw [h.put_hash hv]; exact h) hs 0
      exact Agrees.bind hloop fun r _ hr => agrees_count hr.1 (hr.2.trans (Int.zero_add _))
    · rw [show execHset m ht ⟨.HSET, key :: args⟩ = _ from if_neg fun h => hargs (harity.mp h), Store.hset, if_neg hargs]
      exact agrees_line h _

theorem execHget_agrees (h : Represents m ht s) (cmd : Command) : Agrees m (execHget m ht cmd) (s.hget cmd.argv) := by
  obtain ⟨type, argv⟩ := cmd
  match argv with
  | [] | [_] | _ :: _ :: _ :: _ => exact agrees_line h _
  | [key, field] =>
    refine Agrees.typed h views_hash rfl fun f hv _ => Agrees.bind (h.hget_spec hv field) fun r _ hr => ?_
    subst hr
    exact agrees_string h _

theorem execHdel_agrees (h : Represents m ht s) (argv : List Bytes)
    (hs : Spared m ht (Command.ops m ht ⟨.HDEL, argv⟩)) : Agrees m (execHdel m ht ⟨.HDEL, argv⟩) (s.hdel argv) := by
  match argv with
  | [] | [_] => exact agrees_line h _
  | key :: field :: fields =>
    refine Agrees.typed h views_hash rfl fun f hv hopen => ?_
    rw [show Command.ops m ht ⟨.HDEL, key :: field :: fields⟩ = _ from hopen _] at hs
    have hloop := oksLoop_agrees (f := fun ht arg => htableHdel m ht key arg)
      (.hdel key) (fun f => s.put key (Content.ofHash f)) (fun f field => f.erase field)
      (fun f => -(f.keys.card : Int)) (fun _ _ => rfl)
      (fun ht f field hx hl => (hx.hdel_spec (f := f) hl (by simp)).post fun r hr =>
        ⟨Store.put_put (s := s) ▸ hr.1, card_erase hr.2⟩) (x := f) (by rw [h.put_hash hv]; exact h) hs 0
    refine Agrees.bind hloop fun r _ hr => agrees_count hr.1 ?_
    rw [hr.2]
    ring

/-- `exec_hgetall` and `exec_hkeyvals`. -/
theorem hbindings_agrees (h : Represents m ht s) {out : Bytes × Bytes → List Bytes}
    {read : Except Fault (Option (List Bytes))} (hread : ∀ f, Content.asHash (s.lookup key) = some f →
      Ensures read (fun r => ∃ l, Bindings l f ∧ replyArray r = (Reply.array ((l.flatMap out).map element)).encode)
        (Escapes m)) :
    Agrees m (typed m ht key "hash" do .ok (ht, replyArray (← read))) (s.hbindings out [key]) :=
  Agrees.typed h views_hash rfl fun f hv _ => Agrees.bind (hread f hv) fun _ _ hr => agrees_of_mem h hr

theorem execHgetall_agrees (h : Represents m ht s) (cmd : Command) :
    Agrees m (execHgetall m ht cmd) (s.hbindings (fun p => [p.1, p.2]) cmd.argv) := by
  obtain ⟨type, argv⟩ := cmd
  match argv with
  | [] | _ :: _ :: _ => exact agrees_line h _
  | [key] => exact hbindings_agrees h fun _ => h.hgetall_spec

theorem execHkeys_agrees (h : Represents m ht s) (cmd : Command) :
    Agrees m (execHkeys m ht cmd) (s.hbindings (fun p => [p.1]) cmd.argv) := by
  obtain ⟨type, argv⟩ := cmd
  match argv with
  | [] | _ :: _ :: _ => exact agrees_line h _
  | [key] => exact hbindings_agrees h fun _ => h.hkeys_spec

theorem execHvals_agrees (h : Represents m ht s) (cmd : Command) :
    Agrees m (execHvals m ht cmd) (s.hbindings (fun p => [p.2]) cmd.argv) := by
  obtain ⟨type, argv⟩ := cmd
  match argv with
  | [] | _ :: _ :: _ => exact agrees_line h _
  | [key] => exact hbindings_agrees h fun _ => h.hvals_spec

theorem execHexists_agrees (h : Represents m ht s) (cmd : Command) :
    Agrees m (execHexists m ht cmd) (s.hexists cmd.argv) := by
  obtain ⟨type, argv⟩ := cmd
  match argv with
  | [] | [_] | _ :: _ :: _ :: _ => exact agrees_line h _
  | [key, field] =>
    refine Agrees.typed h views_hash rfl fun f hv _ => Agrees.bind (h.hget_spec hv field) fun r _ hr => ?_
    subst hr
    refine agrees_count h ?_
    by_cases hf : field ∈ f
    · rw [if_neg (fun hnone => Finmap.lookup_eq_none.mp hnone hf), if_pos hf]
    · rw [if_pos (Finmap.lookup_eq_none.mpr hf), if_neg hf]

theorem execHlen_agrees (h : Represents m ht s) (cmd : Command) : Agrees m (execHlen m ht cmd) (s.hlen cmd.argv) := by
  obtain ⟨type, argv⟩ := cmd
  match argv with
  | [] | _ :: _ :: _ => exact agrees_line h _
  | [key] => exact Agrees.typed h views_hash rfl fun f hv _ => Agrees.bind (h.hlen_spec hv) fun r _ hr => agrees_count h hr

/-- A batched read replies with what each name gives. -/
theorem mapM_eq {f : α → Except Fault ρ} {g : α → ρ} {args : List α} (hf : ∀ a, Ensures (f a) (· = g a) (Escapes m)) :
    Ensures (args.mapM f) (· = args.map g) (Escapes m) := by
  refine (Ensures.mapM (R := fun a r => r = g a) fun a _ => hf a).post fun rs hrs => ?_
  induction hrs with
  | nil => rfl
  | cons ha _ ih => rw [List.map_cons, ha, ih]

theorem agrees_array (h : Represents m ht s) {cells : List (Option Bytes)} {l : List Scalar} (hl : cells.map cell = l) :
    Agrees m (.ok (ht, replyArrayN cells)) (s.array l) :=
  agrees_of_mem h (hl ▸ replyArrayN_eq cells)

/-- The handlers of a batched read tell a missing key from a container. -/
theorem Maps.exists_container (h : Represents m ht s) {body other : Exec} {empty : Prop} [Decidable empty]
    (hempty : key ∈ s ↔ ¬empty) {l : List Scalar} (hbody : ¬empty → Agrees m body (s.array l))
    (hother : Agrees m other (s.array [])) :
    Agrees m (do if ← htableExists m ht key then body else other) (s.array (if empty then [] else l)) := by
  refine Agrees.bind (h.exists_spec key) fun b _ hb => ?_
  cases b with
  | true =>
    have hne := hempty.mp (hb.mp rfl)
    rw [if_neg hne]
    exact hbody hne
  | false =>
    have he : empty := by
      by_contra hne
      exact Bool.noConfusion (hb.mpr (hempty.mpr hne))
    rw [if_pos he]
    exact hother

theorem Maps.mem_hash (h : Represents m ht s) {f : Finmap fun _ : Bytes => Bytes}
    (hv : Content.asHash (s.lookup key) = some f) : key ∈ s ↔ ¬f = ∅ := by
  rcases asHash_eq_some.mp hv with ⟨hnone, rfl⟩ | hsome
  · exact iff_of_false (Finmap.lookup_eq_none.mp hnone) (by simp)
  · obtain ⟨a, -, hshows⟩ := h.content hsome
    obtain ⟨tmp, -, -, hne⟩ := hshows.of_hash
    exact iff_of_true (Finmap.mem_of_lookup_eq_some hsome) hne

theorem Maps.mem_set (h : Represents m ht s) {t : Finset Bytes} (hv : Content.asSet (s.lookup key) = some t) :
    key ∈ s ↔ ¬t = ∅ := by
  rcases asSet_eq_some.mp hv with ⟨hnone, rfl⟩ | hsome
  · exact iff_of_false (Finmap.lookup_eq_none.mp hnone) (by simp)
  · obtain ⟨a, -, hshows⟩ := h.content hsome
    obtain ⟨st, -, -, hne⟩ := hshows.of_set
    exact iff_of_true (Finmap.mem_of_lookup_eq_some hsome) hne

theorem agrees_empty (h : Represents m ht s) : Agrees m (.ok (ht, replyArray none)) (s.array []) :=
  agrees_of_mem h replyArray_none_eq

theorem execHmget_agrees (h : Represents m ht s) (cmd : Command) : Agrees m (execHmget m ht cmd) (s.hmget cmd.argv) := by
  obtain ⟨type, argv⟩ := cmd
  match argv with
  | [] | [_] => exact agrees_line h _
  | key :: field :: fields =>
    refine Agrees.typed h views_hash rfl fun f hv _ => h.exists_container (h.mem_hash hv) (fun _ => ?_) (agrees_empty h)
    refine Agrees.bind (mapM_eq fun field => h.hget_spec hv field) fun r _ hr => agrees_array h ?_
    rw [hr, List.map_map]
    rfl

/-- A string is read, or the key is of another type. -/
theorem Maps.get_total (h : Represents m ht s) (key : Bytes) :
    Ensures (htableGet m ht key) (fun v => Content.asStr (s.lookup key) = some v)
      (fun e => Escapes m e ∨ Content.asStr (s.lookup key) = none) := by
  cases hv : Content.asStr (s.lookup key) with
  | some v => exact (h.get_spec hv).mono (fun _ hr => congrArg some hr.symm) fun _ => .inl
  | none =>
    refine Ensures.bind ((h.search_spec key).mono (fun _ => id) fun _ => .inl) fun r _ hr => ?_
    rcases hr with ⟨rfl, hnone⟩ | ⟨a, c, rfl, -, hsome, hshows⟩
    · rw [hnone] at hv
      cases hv
    · rw [hsome] at hv
      cases hshows with
      | str => cases hv
      | hash | list | set => exact .inr rfl

theorem Maps.mget_spec (h : Represents m ht s) (keys : List Bytes) :
    Ensures (keys.mapM fun key => htableGet m ht key)
      (fun r => (keys.mapM fun key => Content.asStr (s.lookup key)) = some r)
      (fun e => Escapes m e ∨ (keys.mapM fun key => Content.asStr (s.lookup key)) = none) := by
  induction keys with
  | nil => rfl
  | cons key keys ih =>
    rw [List.mapM_cons, List.mapM_cons]
    have hget := h.get_total key
    cases hrun : htableGet m ht key with
    | error e =>
      refine (hget.of_error hrun).imp_right fun hnone => ?_
      rw [hnone]
      rfl
    | ok v =>
      rw [hget.of_ok hrun, ok_bind]
      refine Ensures.bind (ih.mono (fun _ => id) fun e he => he.imp_right fun hnone => ?_) fun vs _ hvs => ?_
      · rw [hnone]
        rfl
      · rw [hvs]
        rfl

theorem execMget_agrees (h : Represents m ht s) (cmd : Command) : Agrees m (execMget m ht cmd) (s.mget cmd.argv) := by
  obtain ⟨type, argv⟩ := cmd
  cases argv with
  | nil => exact agrees_line h _
  | cons key keys =>
    refine Agrees.typed h views_str rfl fun v _ _ => ?_
    have hmget := (h.mget_spec (key :: keys)).bind (f := fun r => .ok (ht, replyArrayN r))
      (R := fun r => ∃ s' replies, (do s.array ((← (key :: keys).mapM fun key => Content.asStr (s.lookup key)).map cell)) =
        some (s', replies) ∧ Represents m r.1 s' ∧ r.2 ∈ replies) fun r _ hr => ?_
    · refine hmget.mono (fun _ => id) fun e he => he.imp_right fun hnone => ?_
      rw [hnone]
      rfl
    · rw [hr]
      exact ⟨s, _, rfl, h, replyArrayN_eq r⟩

/-! ### Lists -/

/-- `exec_lpush` and `exec_rpush`. -/
theorem execPush_agrees (h : Represents m ht s) (type : CommandType) (argv : List Bytes) (dir : ListDirection)
    (hs : ∀ key args, argv = key :: args → Spared m ht (guarded m ht key "list" (args.map (.push key · dir)))) :
    Agrees m (execPush m ht ⟨type, argv⟩ dir) (s.push dir argv) := by
  match argv with
  | [] | [_] => exact agrees_line h _
  | key :: value :: values =>
    refine Agrees.typed h views_list rfl fun l hv hopen => ?_
    have hs := hs key (value :: values) rfl
    rw [hopen] at hs
    -- The handler starts the loop with length 0, which the first push replaces.
    have hloop := pushLoop_agrees (l := l) (by rw [h.put_list hv]; exact h) hs
    have hstart : pushLoop m dir key ht l.length (value :: values) = pushLoop m dir key ht 0 (value :: values) := rfl
    rw [hstart] at hloop
    exact Agrees.bind hloop fun r _ hr => agrees_count hr.1 hr.2

/-- `exec_lpop` and `exec_rpop`. -/
theorem execPop_agrees (h : Represents m ht s) (type : CommandType) (argv : List Bytes) (dir : ListDirection)
    (hs : ∀ key, argv = [key] → Spared m ht (guarded m ht key "list" [.pop key dir])) :
    Agrees m (execPop m ht ⟨type, argv⟩ dir) (s.pop dir argv) := by
  match argv with
  | [] | _ :: _ :: _ => exact agrees_line h _
  | [key] =>
    refine Agrees.typed h views_list rfl fun l hv hopen => ?_
    have hs := hs key rfl
    rw [hopen] at hs
    refine Agrees.bind (h.pop_spec hs.1 hv) fun r _ hr => ?_
    obtain ⟨ht', res⟩ := r
    obtain ⟨hr, rfl⟩ := hr
    exact agrees_string hr _

theorem execLlen_agrees (h : Represents m ht s) (cmd : Command) : Agrees m (execLlen m ht cmd) (s.llen cmd.argv) := by
  obtain ⟨type, argv⟩ := cmd
  match argv with
  | [] | _ :: _ :: _ => exact agrees_line h _
  | [key] => exact Agrees.typed h views_list rfl fun l hv _ => Agrees.bind (h.llen_spec hv) fun r _ hr => agrees_count h hr

/-- What `htable_check_id` says of a list that is there. -/
theorem Maps.check_found {ls : CList} {l : List Bytes}
    (hsearch : htableSearch m ht key = .ok (some ⟨.LIST_T, key, .list ls⟩)) (hls : Strings ls l) (id : Int) :
    htableCheckId m ht key id =
      .ok (if 0 ≤ normId l.length id ∧ normId l.length id < l.length then 1 else 0, normId l.length id) := by
  rw [htableCheckId, htableRead_found hsearch, ← hls.len]
  rfl

theorem execLindex_agrees (h : Represents m ht s) (cmd : Command) : Agrees m (execLindex m ht cmd) (s.lindex cmd.argv) := by
  obtain ⟨type, argv⟩ := cmd
  match argv with
  | [] | [_] | _ :: _ :: _ :: _ => exact agrees_line h _
  | [key, arg] =>
    refine Agrees.typed h views_list rfl fun l hv _ => ?_
    cases hnum : isNumber arg with
    | false => exact agrees_line h _
    | true =>
      rw [if_pos rfl, if_neg (by simp)]
      rcases h.list_cases hv with ⟨rfl, hnone⟩ | ⟨hne, -, ls, hsearch, hls⟩
      · refine Agrees.bind (h.check_missing hnone _) fun r _ hr => ?_
        subst hr
        exact agrees_string h none
      · rw [Maps.check_found hsearch hls, ok_bind, if_neg hne]
        dsimp only
        by_cases hin : 0 ≤ normId l.length (strtoi arg) ∧ normId l.length (strtoi arg) < l.length
        · obtain ⟨cells, hrep, rfl⟩ := hls
          rw [if_pos hin, if_pos hin, if_neg (by decide), if_pos (by decide), lindex_eq hsearch hrep]
          exact agrees_string h _
        · rw [if_neg hin, if_neg hin, if_pos rfl]
          exact agrees_line h _

theorem execLrange_agrees (h : Represents m ht s) (cmd : Command) : Agrees m (execLrange m ht cmd) (s.lrange cmd.argv) := by
  obtain ⟨type, argv⟩ := cmd
  match argv with
  | [] | [_] | [_, _] | _ :: _ :: _ :: _ :: _ => exact agrees_line h _
  | [key, bgnArg, endArg] =>
    refine Agrees.typed h views_list rfl fun l hv _ => ?_
    cases hnum : isNumber bgnArg && isNumber endArg with
    | false => exact agrees_line h _
    | true =>
      rw [if_pos rfl, if_neg (by simp)]
      rcases h.list_cases hv with ⟨rfl, hnone⟩ | ⟨hne, -, ls, hsearch, cells, hrep, rfl⟩
      · refine Agrees.bind (h.checks_missing hnone _ _) fun r _ hr => ?_
        subst hr
        exact agrees_empty h
      · rw [checkIds_eq hsearch hrep, ok_bind, if_neg hne, List.length_map]
        dsimp only
        by_cases hin : InRange cells.length (strtoi bgnArg) (strtoi endArg)
        · have hbounds : 0 ≤ normId cells.length (strtoi bgnArg) ∧ _ ∧ _ := hin
          rw [if_pos hin, if_neg (by decide), if_pos (by decide), if_pos hbounds]
          obtain ⟨h0, hle, hlt⟩ := hbounds
          obtain ⟨b, hb⟩ := Int.eq_ofNat_of_zero_le h0
          obtain ⟨e, he⟩ := Int.eq_ofNat_of_zero_le (h0.trans hle)
          rw [hb, he] at hle ⊢
          rw [he] at hlt
          rw [htableLrange_slice hsearch rfl rfl hrep (by omega) (by omega), ok_bind, Int.toNat_natCast, Int.toNat_natCast]
          refine agrees_of_mem h ((replyArray_some_eq _).trans ?_)
          rw [List.map_take, List.map_drop, List.drop_take]
        · have hbounds : ¬(0 ≤ normId cells.length (strtoi bgnArg) ∧ _ ∧ _) := hin
          rw [if_neg hin, if_pos rfl, if_neg hbounds]
          exact agrees_line h _

theorem execLset_agrees (h : Represents m ht s) (argv : List Bytes) :
    Agrees m (execLset m ht ⟨.LSET, argv⟩) (s.lset argv) := by
  match argv with
  | [] | [_] | [_, _] | _ :: _ :: _ :: _ :: _ => exact agrees_line h _
  | [key, arg, value] =>
    refine Agrees.typed h views_list rfl fun l hv _ => ?_
    cases hnum : isNumber arg with
    | false => exact agrees_line h _
    | true =>
      rw [if_pos rfl, if_neg (by simp)]
      rcases h.list_cases hv with ⟨rfl, hnone⟩ | ⟨hne, hsome, ls, hsearch, hls⟩
      · refine Agrees.bind (h.check_missing hnone _) fun r _ hr => ?_
        subst hr
        refine Agrees.bind (Q := (·.1 = ht)) ((h.find_spec key).bind fun r _ hr => ?_) fun r _ hr => ?_
        · rcases hr with ⟨rfl, -⟩ | ⟨ix, a, c, rfl, -, hsome, -⟩
          · rfl
          · cases hnone.symm.trans hsome
        · obtain ⟨t, b⟩ := r
          obtain rfl : t = ht := hr
          exact agrees_string h none
      · rw [Maps.check_found hsearch hls, ok_bind, if_neg hne]
        dsimp only
        by_cases hin : 0 ≤ normId l.length (strtoi arg) ∧ normId l.length (strtoi arg) < l.length
        · rw [if_pos hin, if_pos hin, if_neg (by decide)]
          exact Agrees.bind (h.lset_spec hsome value) fun r _ hr => agrees_string hr (some _)
        · rw [if_neg hin, if_neg hin, if_pos rfl]
          exact agrees_line h _

theorem execLrem_agrees (h : Represents m ht s) (argv : List Bytes)
    (hs : Spared m ht (Command.ops m ht ⟨.LREM, argv⟩)) : Agrees m (execLrem m ht ⟨.LREM, argv⟩) (s.lrem argv) := by
  match argv with
  | [] | [_] | [_, _] | _ :: _ :: _ :: _ :: _ => exact agrees_line h _
  | [key, arg, value] =>
    refine Agrees.typed h views_list rfl fun l hv hopen => ?_
    rw [show Command.ops m ht ⟨.LREM, [key, arg, value]⟩ = _ from hopen _] at hs
    dsimp only
    split
    · rw [if_pos ‹_›] at hs
      exact Agrees.bind (h.lrem_spec hs.1 hv) fun r _ hr => agrees_count hr.1 hr.2
    · exact agrees_line h _

theorem execLpos_agrees (h : Represents m ht s) (cmd : Command) : Agrees m (execLpos m ht cmd) (s.lpos cmd.argv) := by
  obtain ⟨type, argv⟩ := cmd
  match argv with
  | [] | [_] | _ :: _ :: _ :: _ => exact agrees_line h _
  | [key, value] =>
    refine Agrees.typed h views_list rfl fun l hv _ => Agrees.bind (h.lpos_spec hv value) fun r _ hr => ?_
    subst hr
    cases l.findIdx? (· = value) with
    | none => exact agrees_string h none
    | some i =>
      dsimp only
      rw [if_neg (Int.natCast_nonneg i).not_gt]
      exact agrees_integer h i

/-! ### Sets -/

theorem execSadd_agrees (h : Represents m ht s) (argv : List Bytes)
    (hs : Spared m ht (Command.ops m ht ⟨.SADD, argv⟩)) : Agrees m (execSadd m ht ⟨.SADD, argv⟩) (s.sadd argv) := by
  match argv with
  | [] | [_] => exact agrees_line h _
  | key :: value :: values =>
    refine Agrees.typed h views_set rfl fun t hv hopen => ?_
    rw [show Command.ops m ht ⟨.SADD, key :: value :: values⟩ = _ from hopen _] at hs
    have hloop := oksLoop_agrees (f := fun ht arg => htableSadd m ht key arg)
      (.sadd key) (fun t => s.put key (Content.ofSet t)) (fun t value => insert value t)
      (fun t => (t.card : Int)) (fun _ _ => rfl)
      (fun ht t value hx hl => (hx.sadd_spec (t := t) hl (by simp)).post fun r hr =>
        ⟨Store.put_put (s := s) ▸ hr.1, card_insert_set hr.2⟩) (x := t) (by rw [h.put_set hv]; exact h) hs 0
    exact Agrees.bind hloop fun r _ hr => agrees_count hr.1 (hr.2.trans (Int.zero_add _))

theorem execSrem_agrees (h : Represents m ht s) (argv : List Bytes)
    (hs : Spared m ht (Command.ops m ht ⟨.SREM, argv⟩)) : Agrees m (execSrem m ht ⟨.SREM, argv⟩) (s.srem argv) := by
  match argv with
  | [] | [_] => exact agrees_line h _
  | key :: value :: values =>
    refine Agrees.typed h views_set rfl fun t hv hopen => ?_
    rw [show Command.ops m ht ⟨.SREM, key :: value :: values⟩ = _ from hopen _] at hs
    have hloop := oksLoop_agrees (f := fun ht arg => htableSrem m ht key arg)
      (.srem key) (fun t => s.put key (Content.ofSet t)) (fun t value => t.erase value)
      (fun t => -(t.card : Int)) (fun _ _ => rfl)
      (fun ht t value hx hl => (hx.srem_spec (t := t) hl (by simp)).post fun r hr =>
        ⟨Store.put_put (s := s) ▸ hr.1, card_erase_set hr.2⟩) (x := t) (by rw [h.put_set hv]; exact h) hs 0
    refine Agrees.bind hloop fun r _ hr => agrees_count hr.1 ?_
    rw [hr.2]
    ring

theorem execSismember_agrees (h : Represents m ht s) (cmd : Command) :
    Agrees m (execSismember m ht cmd) (s.sismember cmd.argv) := by
  obtain ⟨type, argv⟩ := cmd
  match argv with
  | [] | [_] | _ :: _ :: _ :: _ => exact agrees_line h _
  | [key, value] =>
    refine Agrees.typed h views_set rfl fun t hv _ => Agrees.bind (h.sismember_spec hv value) fun b _ hb => ?_
    exact agrees_count h (if_congr hb rfl rfl)

theorem execSmembers_agrees (h : Represents m ht s) (cmd : Command) :
    Agrees m (execSmembers m ht cmd) (s.smembers cmd.argv) := by
  obtain ⟨type, argv⟩ := cmd
  match argv with
  | [] | _ :: _ :: _ => exact agrees_line h _
  | [key] =>
    exact Agrees.typed h views_set rfl fun t hv _ => Agrees.bind (h.smembers_spec hv) fun _ _ hr => agrees_of_mem h hr

theorem execSmismember_agrees (h : Represents m ht s) (cmd : Command) :
    Agrees m (execSmismember m ht cmd) (s.smismember cmd.argv) := by
  obtain ⟨type, argv⟩ := cmd
  match argv with
  | [] | [_] => exact agrees_line h _
  | key :: value :: values =>
    refine Agrees.typed h views_set rfl fun t hv _ => h.exists_container (h.mem_set hv) (fun _ => ?_) (agrees_empty h)
    refine Agrees.bind (mapM_eq (g := fun value => some (intostr (if value ∈ t then 1 else 0))) fun value => ?_)
      fun r _ hr => agrees_array h ?_
    · exact (h.sismember_spec hv value).bind fun b _ hb => congrArg (fun x => some (intostr x)) (if_congr hb rfl rfl)
    · rw [hr, List.map_map]
      refine List.map_congr_left fun value _ => ?_
      have hflag := cell_flag (decide (value ∈ t))
      simpa using hflag

/-! ### Commands -/

/-- A command whose operations lose nothing does what the store says. -/
theorem interpret_agrees (h : Represents m ht s) (hs : cmd.Meets m (HtableOp.Lossless m) ht) :
    Agrees m (interpret m ht cmd) (s.exec cmd) := by
  obtain ⟨type, argv⟩ := cmd
  have hs : Spared m ht (Command.ops m ht ⟨type, argv⟩) := hs
  cases type with
  | DEL => exact execDel_agrees h argv hs
  | EXISTS => exact execExists_agrees h _
  | TYPE => exact execType_agrees h _
  | SET => exact execSet_agrees h argv hs
  | GET => exact execGet_agrees h _
  | MSET => exact execMset_agrees h argv hs
  | MGET => exact execMget_agrees h _
  | INCR => exact execStep_agrees h .INCR argv 1 fun key heq => by subst heq; exact hs
  | DECR => exact execStep_agrees h .DECR argv (-1) fun key heq => by subst heq; exact hs
  | INCRBY => exact execStepBy_agrees h .INCRBY argv (· + ·) fun key arg heq => by subst heq; exact hs
  | DECRBY => exact execStepBy_agrees h .DECRBY argv (· - ·) fun key arg heq => by subst heq; exact hs
  | STRLEN => exact execStrlen_agrees h _
  | HSET => exact execHset_agrees h argv hs
  | HGET => exact execHget_agrees h _
  | HDEL => exact execHdel_agrees h argv hs
  | HGETALL => exact execHgetall_agrees h _
  | HEXISTS => exact execHexists_agrees h _
  | HKEYS => exact execHkeys_agrees h _
  | HVALS => exact execHvals_agrees h _
  | HMGET => exact execHmget_agrees h _
  | HLEN => exact execHlen_agrees h _
  | LPUSH => exact execPush_agrees h .LPUSH argv .LEFT fun key args heq => by subst heq; exact hs
  | LPOP => exact execPop_agrees h .LPOP argv .LEFT fun key heq => by subst heq; exact hs
  | RPUSH => exact execPush_agrees h .RPUSH argv .RIGHT fun key args heq => by subst heq; exact hs
  | RPOP => exact execPop_agrees h .RPOP argv .RIGHT fun key heq => by subst heq; exact hs
  | LLEN => exact execLlen_agrees h _
  | LINDEX => exact execLindex_agrees h _
  | LRANGE => exact execLrange_agrees h _
  | LSET => exact execLset_agrees h argv
  | LREM => exact execLrem_agrees h argv hs
  | LPOS => exact execLpos_agrees h _
  | SADD => exact execSadd_agrees h argv hs
  | SREM => exact execSrem_agrees h argv hs
  | SISMEMBER => exact execSismember_agrees h _
  | SMEMBERS => exact execSmembers_agrees h _
  | SMISMEMBER => exact execSmismember_agrees h _
  | UNKNOWN => exact agrees_line h _
  | QUIT => exact agrees_line h _
  | SHUTDOWN => exact agrees_line h _
  | NOOP => exact agrees_line h _

/-! ### Runs -/

theorem interpret_simulates :
    Simulation.Simulates (interpret m) Store.exec (Represents m) (Command.Meets m (HtableOp.Lossless m)) (Escapes m) :=
  fun _ _ _ h hs => (interpret_agrees h hs).mono (fun _ ⟨s', replies, hv, hr, hmem⟩ => ⟨s', replies, hv, hr, hmem⟩)
    fun _ => id

/-- From the empty keyspace on, commands whose operations lose nothing get the replies that the empty store allows for
    them, and leave a keyspace that stands for the store that is then reached. The server crashes only where the store
    says that it does, unless a probe wraps. -/
theorem server_is_store {cmds : List Command}
    (hs : Runs.Along (serve m) (Command.Meets m (HtableOp.Lossless m)) (htableInit htBaseSize) cmds) :
    Ensures (Simulation.run (interpret m) (htableInit htBaseSize) cmds)
      (fun r => ∃ s, Simulation.Plays Store.exec ∅ cmds s r.2 ∧ Represents m r.1 s)
      (fun e => Escapes m e ∨ Simulation.MayFail Store.exec ∅ cmds) :=
  interpret_simulates.run_spec Maps.init hs

end Refinement

/-- A hash, a set, a list and a string. The hash, the set and the keyspace grow, elements go and are read, and at last
    the keyspace shrinks. -/
-- Irreducible, so that nothing but the kernel runs it.
@[irreducible] def mixed : List Command :=
  [⟨.HSET, [str "h", str "a", str "1", str "f", str "2"]⟩, ⟨.SADD, [str "m", str "a", str "f"]⟩,
    ⟨.RPUSH, [str "l", str "x", str "y"]⟩, ⟨.SET, [str "a", str "1"]⟩, ⟨.HDEL, [str "h", str "f"]⟩,
    ⟨.SREM, [str "m", str "a"]⟩, ⟨.LPOP, [str "l"]⟩, ⟨.INCR, [str "a"]⟩, ⟨.HGETALL, [str "h"]⟩,
    ⟨.SMEMBERS, [str "m"]⟩, ⟨.LRANGE, [str "l", str "0", str "0"]⟩, ⟨.DEL, [str "h", str "m", str "l"]⟩,
    ⟨.GET, [str "a"]⟩]

def mixedReplies : List Bytes :=
  [replyInteger 2, replyInteger 2, replyInteger 2, replyString (some (str "OK")), replyInteger 1, replyInteger 1,
    replyString (some (str "x")), replyInteger 2, replyArray (some [str "a", str "1"]), replyArray (some [str "f"]),
    replyArray (some [str "y"]), replyInteger 3, replyString (some (str "2"))]

theorem mixed_run : ∃ r, Simulation.run (interpret .wrap) (htableInit htBaseSize) mixed = .ok r ∧ r.2 = mixedReplies := by
  have h : (Simulation.run (interpret .wrap) (htableInit htBaseSize) mixed).map Prod.snd = .ok mixedReplies := by
    decide +kernel
  rwa [map_eq_ok] at h

theorem mixed_lossless :
    Runs.Along (serve .wrap) (Command.Meets .wrap (HtableOp.Lossless .wrap)) (htableInit htBaseSize) mixed := by
  decide +kernel

theorem server_is_store_mixed : ∃ r s, Simulation.run (interpret .wrap) (htableInit htBaseSize) mixed = .ok r ∧
    r.2 = mixedReplies ∧ Simulation.Plays Store.exec ∅ mixed s r.2 ∧ Represents .wrap r.1 s := by
  obtain ⟨r, hrun, hreplies⟩ := mixed_run
  obtain ⟨s, hplays, hrep⟩ := Ensures.of_ok (server_is_store mixed_lossless) hrun
  exact ⟨r, s, hrun, hreplies, hplays, hrep⟩

end MemKey
