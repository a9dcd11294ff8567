import MemKey.Theorems.Calls
import MemKey.Theorems.Pointer.Reads

/-! What a run of the server does to the memory of the keyspace: its calls leave the keyspace, every node that was
    popped, the copies that the reads have made, and the values that an insertion or a resize has lost. -/

namespace MemKey.Pointer
open Memory Outcome

/-! ### Calls -/

/-- The string of a pointer that a call replies, read after the call has returned. -/
def readText : Option ℕ → Prog (Option Bytes)
  | none => pure none
  | some a => do
    let s ← load Block.asChars a
    pure (some s)

/-- The strings of an array that a call replies. -/
def readStrings : Option ℕ → Prog (Option (List Bytes))
  | none => pure none
  | some res => do
    let cells ← load Block.asArray res
    let l ← stringsFrom res 0 cells.length
    pure (some l)

/-- An operation with its reply. -/
def opAt (m : IntMode) (ht : ℕ) : HtableOp → Prog Answer
  | .set key value => .flag <$> htableSet m ht key value
  | .hset key field value => .flag <$> htableHset m ht key field value
  | .push key value dir => .count <$> htablePush m ht key value dir
  | .sadd key value => .flag <$> htableSadd m ht key value
  | .del key => .flag <$> htableDel m ht key
  | .pop key dir => .popped <$> (htablePop m ht key dir >>= readText)
  | .hdel key field => .flag <$> htableHdel m ht key field
  | .lrem key count value => .count <$> htableLrem m ht key count value
  | .srem key value => .flag <$> htableSrem m ht key value
  | .lset key id value => .flag <$> htableLset m ht key id value

/-- A read with its reply. -/
def queryAt (m : IntMode) (ht : ℕ) : Query → Prog Answer
  | .exists_ key => .flag <$> htableExists m ht key
  | .type key => do
    let a ← htableType m ht key
    let name ← load Block.asChars a
    pure (.type name false)
  | .guard key expected => do
    let a ← htableType m ht key
    let name ← load Block.asChars a
    if isType name (str expected) then
      free (some a)
      pure (.type name true)
    else pure (.type name false)
  | .get key => .text <$> (htableGet m ht key >>= readText)
  | .hget key field => .text <$> (htableHget m ht key field >>= readText)
  | .hgetall key => .strings <$> (htableHgetall m ht key >>= readStrings)
  | .hkeyvals key ky => .strings <$> (htableHkeyvals m ht key ky >>= readStrings)
  | .hlen key => .count <$> htableHlen m ht key
  | .llen key => .count <$> htableLlen m ht key
  | .checkId key id => (fun r => .counts [r.1, r.2]) <$> htableCheckId m ht key id
  | .lindex key id => .text <$> (htableLindex m ht key id >>= readText)
  | .lrange key begin_ end_ => do
    let r ← htableCheckIds m ht key begin_ end_
    if r.1 > 0 then .range r.1 <$> (htableLrange m ht key r.2.1 r.2.2 >>= readStrings) else pure (.range r.1 none)
  | .lpos key value => .count <$> htableLpos m ht key value
  | .sismember key value => .flag <$> htableSismember m ht key value
  | .smembers key => .strings <$> (htableSmembers m ht key >>= readStrings)

def callAt (m : IntMode) (ht : ℕ) : Call → Prog Answer
  | .query q => queryAt m ht q
  | .change op => opAt m ht op

/-- The calls one after another. -/
def callsAt (m : IntMode) (ht : ℕ) : List Call → Prog (List Answer)
  | [] => pure []
  | c :: cs => do
    let r ← callAt m ht c
    let rs ← callsAt m ht cs
    pure (r :: rs)

/-! ### What the calls leave -/

/-- The string of a popped node. -/
def poppedBy : Answer → List Bytes
  | .popped s => s.toList
  | _ => []

/-- The copies that a call leaves, by its reply. -/
def CopiesOf : Answer → Owned → Prop
  | .type name false, x => ∃ a, x = own a (.chars name)
  | .strings l, x => ∃ q, Copied q l x
  | .range code l, x => if code > 0 then ∃ q, Copied q l x else x = 0
  | _, x => x = 0

/-- The blocks of popped nodes. -/
def popped (nodes : List (ℕ × ℕ × Bytes)) : Owned := (nodes.map fun c => loneAt c.1 c.2.1 c.2.2).sum

/-- What calls with the replies `rs` leave: the keyspace, the popped nodes, the copies and, unless `C`, lost values. -/
def Remains (C : Prop) (p : ℕ) (ht : HashTable Value) (rs : List Answer) (m : Owned) : Prop :=
  ∃ n nodes copies, m = n + popped nodes + copies.sum ∧ texts nodes = rs.flatMap poppedBy ∧
    List.Forall₂ CopiesOf rs copies ∧ Leaves ValueAt (IsKeyspace p ht) C n

section Runs
variable {mode : IntMode} {p : ℕ} {ht ht' : HashTable Value} {m : Owned} {op : HtableOp} {q : Query} {c : Call}
  {r : Answer} {rs : List Answer} {C D E : Prop}

theorem popped_append (xs ys : List (ℕ × ℕ × Bytes)) : popped (xs ++ ys) = popped xs + popped ys := by
  rw [popped, List.map_append, List.sum_append]
  rfl

theorem Remains.nil (h : IsKeyspace p ht m) : Remains C p ht [] m := ⟨m, [], [], by simp [popped], rfl, .nil, .of h⟩

/-- A call that leaves no node behind. -/
theorem Remains.one {n x : Owned} (hn : Leaves ValueAt (IsKeyspace p ht) C n) (hr : poppedBy r = [])
    (hx : CopiesOf r x) : Remains C p ht [r] (n + x) :=
  ⟨n, [], [x], by simp [popped], by simp [hr, texts], .cons hx .nil, hn⟩

/-- What comes after a call works on the keyspace that the call has left. -/
theorem Remains.call {c : Prog (List Answer)} (h : Remains C p ht [r] m) (hE : E → C ∧ D)
    (hc : ∀ n, IsKeyspace p ht n → Does c n fun rs' m' => rs' = rs ∧ Remains D p ht' rs m') :
    Does c m fun rs' m' => rs' = rs ∧ Remains E p ht' (r :: rs) m' := by
  obtain ⟨_, nodes, copies, rfl, htexts, hcopies, k, x, hk, rfl, hx⟩ := h
  have hm : k + x + popped nodes + copies.sum = k + (x + popped nodes + copies.sum) := by
    rw [add_assoc, add_assoc, add_assoc]
  refine .call (hc k hk) hm ?_
  rintro _ _ ⟨rfl, n, nodes', copies', rfl, htexts', hcopies', hn⟩
  refine ⟨rfl, n + x, nodes ++ nodes', copies ++ copies', ?_, ?_, List.rel_append hcopies hcopies', ?_⟩
  · rw [popped_append, List.sum_append]
    abel
  · rw [texts, List.map_append, List.flatMap_cons, ← htexts', ← List.flatMap_singleton poppedBy r, ← htexts]
    rfl
  · exact (hn.mono fun hc => (hE hc).2).add (hx.mono fun hc => (hE hc).1)

/-! ### Operations -/

/-- An operation that pops no node. -/
theorem does_answer {ρ : Type} {c : Prog ρ} {e : Except Fault (HashTable Value × ρ)} {f : ρ → Answer}
    (hf : ∀ b, poppedBy (f b) = [] ∧ CopiesOf (f b) 0) (hop : e.map (replying f) = .ok (ht', r))
    (h : ∀ b, e = .ok (ht', b) → Does c m (Done C p ht' b)) :
    Does (f <$> c) m fun r' m' => r' = r ∧ Remains C p ht' [r] m' := by
  obtain ⟨⟨t, b⟩, hrun, heq⟩ := map_eq_ok.mp hop
  cases heq
  rw [map_eq_pure_bind]
  refine .seq ((h b hrun).mono ?_)
  rintro _ m' ⟨rfl, hm⟩
  exact .pure ⟨rfl, add_zero m' ▸ .one hm (hf _).1 (hf _).2⟩

theorem readText_does {a : Option ℕ} {s : Option Bytes} (h : PointsTo m a s) :
    Does (readText a) m fun s' m' => s' = s ∧ m' = m := by
  cases h with
  | none => exact .pure ⟨rfl, rfl⟩
  | some hm => exact .seq (.loadAs hm rfl (.pure ⟨rfl, rfl⟩))

theorem htablePop_answer {key : Bytes} {dir : ListDirection} (h : IsKeyspace p ht m)
    (hop : (HtableOp.pop key dir).answer mode ht = .ok (ht', r)) : Does (opAt mode p (.pop key dir)) m fun r' m' =>
      r' = r ∧ Remains (Safe mode ht (.pop key dir)) p ht' [r] m' := by
  obtain ⟨⟨t, s⟩, hrun, heq⟩ := map_eq_ok.mp hop
  cases heq
  rw [opAt, map_eq_pure_bind]
  refine .seq (.seq ((htablePop_does h hrun).mono ?_))
  rintro _ _ ⟨n, x, rfl, hx, hn⟩
  cases hx with
  | none => exact .pure (.pure ⟨rfl, .one hn rfl rfl⟩)
  | @some a v s =>
    have hchars : n + loneAt a v s = own v (.chars s) + (n + own a (.node ⟨v, none, none⟩)) := by
      rw [loneAt]
      abel
    refine (readText_does (.some hchars)).mono ?_
    rintro _ _ ⟨rfl, rfl⟩
    refine .pure ⟨rfl, n, [(a, v, s)], [0], ?_, rfl, .cons rfl .nil, hn⟩
    rw [popped, List.map_singleton, List.sum_singleton, List.sum_singleton, add_zero]

theorem opAt_does (h : IsKeyspace p ht m) (hop : op.answer mode ht = .ok (ht', r)) : Does (opAt mode p op) m fun r' m' =>
    r' = r ∧ Remains (Safe mode ht op) p ht' [r] m' := by
  cases op with
  | set => exact does_answer (fun _ => ⟨rfl, rfl⟩) hop fun _ => htableSet_keyspace_does h
  | hset => exact does_answer (fun _ => ⟨rfl, rfl⟩) hop fun _ => htableHset_does h
  | push => exact does_answer (fun _ => ⟨rfl, rfl⟩) hop fun _ => htablePush_does h
  | sadd => exact does_answer (fun _ => ⟨rfl, rfl⟩) hop fun _ => htableSadd_does h
  | del => exact does_answer (fun _ => ⟨rfl, rfl⟩) hop fun _ => htableDel_keyspace_does h
  | pop key dir => exact htablePop_answer h hop
  | hdel => exact does_answer (fun _ => ⟨rfl, rfl⟩) hop fun _ => htableHdel_does h
  | lrem => exact does_answer (fun _ => ⟨rfl, rfl⟩) hop fun _ => htableLrem_does h
  | srem => exact does_answer (fun _ => ⟨rfl, rfl⟩) hop fun _ => htableSrem_does h
  | lset => exact does_answer (fun _ => ⟨rfl, rfl⟩) hop fun _ => htableLset_does h

/-! ### Reads -/

/-- The reply of the model, with its copies. -/
def Told (_ : Owned) (r' r : Answer) (x : Owned) : Prop := r' = r ∧ poppedBy r = [] ∧ CopiesOf r x

/-- A read that copies nothing. -/
theorem told_same {ρ : Type} {c : Prog ρ} {e : Except Fault ρ} {f : ρ → Answer}
    (hf : ∀ b, poppedBy (f b) = [] ∧ CopiesOf (f b) 0) (hq : e.map f = .ok r) (h : ∀ b, e = .ok b → Reads Same c m b) :
    Reads Told (f <$> c) m r := by
  obtain ⟨b, hb, rfl⟩ := map_eq_ok.mp hq
  rw [map_eq_pure_bind]
  refine .seq ((h b hb).mono ?_)
  rintro _ _ ⟨_, rfl, rfl, rfl⟩
  exact .pure ⟨0, rfl, rfl, hf _⟩

theorem told_text {c : Prog (Option ℕ)} {e : Except Fault (Option Bytes)} (hq : e.map .text = .ok r)
    (h : ∀ s, e = .ok s → Reads Shown c m s) : Reads Told (.text <$> (c >>= readText)) m r := by
  obtain ⟨s, hs, rfl⟩ := map_eq_ok.mp hq
  rw [map_eq_pure_bind]
  refine .seq (.seq ((h s hs).mono ?_))
  rintro a _ ⟨_, rfl, hpoints, rfl⟩
  refine (readText_does hpoints.frame).mono ?_
  rintro _ _ ⟨rfl, rfl⟩
  exact .pure ⟨0, rfl, rfl, rfl, rfl⟩

theorem readStrings_does {a : Option ℕ} {l : Option (List Bytes)} {x : Owned} (h : Copied a l x) :
    Does (readStrings a) (m + x) fun l' m' => l' = l ∧ m' = m + x := by
  cases h with
  | some hlt =>
    refine .seq (.loadAs (add_left_comm ..) rfl ?_)
    rw [length_pointers hlt.le]
    refine .seq ((stringsFrom_does [] hlt hlt).mono ?_)
    rintro _ _ ⟨rfl, rfl⟩
    exact .pure ⟨rfl, rfl⟩
  | none => exact .pure ⟨rfl, rfl⟩
  | lost => exact .pure ⟨rfl, rfl⟩

theorem told_strings {c : Prog (Option ℕ)} {e : Except Fault (Option (List Bytes))} {f : Option (List Bytes) → Answer}
    (hf : ∀ {a l x}, Copied a l x → poppedBy (f l) = [] ∧ CopiesOf (f l) x) (hq : e.map f = .ok r)
    (h : ∀ l, e = .ok l → Reads (fun _ => Copied) c m l) : Reads Told (f <$> (c >>= readStrings)) m r := by
  obtain ⟨l, hl, rfl⟩ := map_eq_ok.mp hq
  rw [map_eq_pure_bind]
  refine .seq (.seq ((h l hl).mono ?_))
  rintro a _ ⟨x, rfl, hx⟩
  refine (readStrings_does hx).mono ?_
  rintro _ _ ⟨rfl, rfl⟩
  exact .pure ⟨x, rfl, rfl, hf hx⟩

theorem queryAt_does (h : IsKeyspace p ht m) (hs : Sound mode (Tagged mode) ht) (hq : q.answer mode ht = .ok r) :
    Reads Told (queryAt mode p q) m r := by
  cases q with
  | exists_ => exact told_same (fun _ => ⟨rfl, rfl⟩) hq fun _ hb => reads_same (htableExists_does h hb)
  | type key =>
    obtain ⟨name, htype, rfl⟩ := map_eq_ok.mp hq
    refine .seq ((htableType_does h htype).mono ?_)
    rintro a _ rfl
    exact .seq (.loadAs (add_comm ..) rfl (.pure ⟨_, rfl, rfl, rfl, a, rfl⟩))
  | guard key expected =>
    obtain ⟨name, htype, rfl⟩ := map_eq_ok.mp hq
    refine .seq ((htableType_does h htype).mono ?_)
    rintro a _ rfl
    refine .seq (.loadAs (add_comm ..) rfl ?_)
    cases his : isType name (str expected) with
    | true => exact .seq (.release (add_comm ..) (.pure ⟨0, (add_zero m).symm, rfl, rfl, rfl⟩))
    | false => exact .pure ⟨_, rfl, rfl, rfl, a, rfl⟩
  | get => exact told_text hq fun _ => htableGet_does h fun v _ => held_str v
  | hget => exact told_text hq fun _ => htableHget_does h
  | hgetall => exact told_strings (fun hx => ⟨rfl, _, hx⟩) hq fun _ => htableHgetall_does h hs
  | hkeyvals => exact told_strings (fun hx => ⟨rfl, _, hx⟩) hq fun _ => htableHkeyvals_does h hs
  | hlen => exact told_same (fun _ => ⟨rfl, rfl⟩) hq fun _ => htableHlen_does h
  | llen => exact told_same (fun _ => ⟨rfl, rfl⟩) hq fun _ => htableLlen_does h
  | checkId => exact told_same (fun _ => ⟨rfl, rfl⟩) hq fun _ => htableCheckId_does h
  | lindex => exact told_text hq fun _ => htableLindex_does h
  | lrange key begin_ end_ =>
    obtain ⟨⟨code, b, e⟩, hids, hr⟩ := bind_eq_ok.mp hq
    refine .seq ((htableCheckIds_does h hids).mono ?_)
    rintro _ _ ⟨_, rfl, rfl, rfl⟩
    rw [add_zero]
    dsimp only at hr ⊢
    by_cases hcode : code > 0
    · rw [if_pos hcode] at hr ⊢
      obtain ⟨a, ls, hsearch, hls, hb, hbe, he⟩ := checkIds_allows hids hcode
      exact told_strings (fun hx => ⟨rfl, (if_pos hcode).mpr ⟨_, hx⟩⟩) hr fun _ =>
        htableLrange_does h hs hsearch hls hb hbe he
    · rw [if_neg hcode] at hr ⊢
      cases hr
      exact .pure ⟨0, (add_zero m).symm, rfl, rfl, (if_neg hcode).mpr rfl⟩
  | lpos => exact told_same (fun _ => ⟨rfl, rfl⟩) hq fun _ => htableLpos_does h
  | sismember => exact told_same (fun _ => ⟨rfl, rfl⟩) hq fun _ => htableSismember_does h
  | smembers => exact told_strings (fun hx => ⟨rfl, _, hx⟩) hq fun _ => htableSmembers_does h

/-! ### Runs -/

theorem sound_call (hs : Sound mode (Tagged mode) ht) (hc : c.answer mode ht = .ok (ht', r)) :
    Sound mode (Tagged mode) ht' := by
  cases c with
  | query q =>
    obtain ⟨r, -, heq⟩ := map_eq_ok.mp hc
    cases heq
    exact hs
  | change op =>
    refine hs.step (HtableOp.answer_step hc) (fun _ => HtableOp.create_tagged) ?_
    exact fun _ _ _ _ ha hact => HtableOp.act_tagged ha hact

theorem callAt_does (h : IsKeyspace p ht m) (hs : Sound mode (Tagged mode) ht) (hc : c.answer mode ht = .ok (ht', r)) :
    Does (callAt mode p c) m fun r' m' =>
      r' = r ∧ Remains (Runs.Along (HtableOp.step mode) (Retains mode) ht c.ops) p ht' [r] m' := by
  cases c with
  | query q =>
    obtain ⟨r, hq, heq⟩ := map_eq_ok.mp hc
    cases heq
    refine (queryAt_does h hs hq).mono ?_
    rintro _ _ ⟨x, rfl, rfl, hnone, hx⟩
    exact ⟨rfl, .one (.of h) hnone hx⟩
  | change op =>
    refine (opAt_does h hc).mono ?_
    rintro _ _ ⟨rfl, n, nodes, copies, hm, htexts, hcopies, hn⟩
    exact ⟨rfl, n, nodes, copies, hm, htexts, hcopies, hn.mono fun ha => ⟨hs, ha.1⟩⟩

/-- Every call of a run leaves what it has to leave, from whatever the ones before it have left. -/
theorem callsAt_does {cs : List Call} (h : IsKeyspace p ht m) (hs : Sound mode (Tagged mode) ht)
    (hrun : Call.answers mode ht cs = .ok (ht', rs)) : Does (callsAt mode p cs) m fun rs' m' =>
      rs' = rs ∧ Remains (Runs.Along (HtableOp.step mode) (Retains mode) ht (changes cs)) p ht' rs m' := by
  induction cs generalizing ht m rs with
  | nil =>
    cases hrun
    exact .pure ⟨rfl, .nil h⟩
  | cons c cs ih =>
    obtain ⟨⟨ht₁, r⟩, hc, htail⟩ := bind_eq_ok.mp hrun
    obtain ⟨⟨t, rs₁⟩, hrest, heq⟩ := bind_eq_ok.mp htail
    cases heq
    refine .seq ((callAt_does h hs hc).mono ?_)
    rintro _ _ ⟨rfl, hm⟩
    refine .seq ((hm.call (along_changes_cons hc) fun _ hn => ih hn (sound_call hs hc) hrest).mono ?_)
    rintro _ _ ⟨rfl, hm⟩
    exact .pure ⟨rfl, hm⟩

/-! ### The server -/

/-- The calls on the memory from `htable_init` in `main` on: the keyspace with the replies. -/
def keyspaceAt (m : IntMode) (cs : List Call) : Prog (ℕ × List Answer) := do
  let ht ← htableInit htBaseSize
  let rs ← callsAt m ht cs
  pure (ht, rs)

end Runs

/-- A hash and a set that grow and lose an element, and a list that loses its first one, all of them read before. -/
-- Irreducible, so that nothing but the kernel runs it.
@[irreducible] def growThenPop : List Command :=
  [⟨.HSET, [str "h", str "a", str "1", str "f", str "2"]⟩, ⟨.SADD, [str "m", str "a", str "f"]⟩,
    ⟨.RPUSH, [str "l", str "x", str "y"]⟩, ⟨.GET, [str "h"]⟩, ⟨.HGETALL, [str "h"]⟩, ⟨.SMEMBERS, [str "m"]⟩,
    ⟨.LRANGE, [str "l", str "0", str "1"]⟩, ⟨.HDEL, [str "h", str "a"]⟩, ⟨.SREM, [str "m", str "f"]⟩,
    ⟨.LPOP, [str "l"]⟩, ⟨.DEL, [str "h"]⟩]

end MemKey.Pointer
