import MemKey.Theorems.Resize
import MemKey.Theorems.Interpret

/-! The counter commands on one key. As long as the numbers fit an `int` and the table stores what is written, a
    sequence of them adds up the deltas, unless it starts with `DECRBY` on a missing key: that stores its argument
    as it is. -/

namespace MemKey
open Outcome Decimal

/-- A counter command, on a key that is given apart. -/
inductive CounterOp where
  | incr
  | decr
  | incrby (arg : Bytes)
  | decrby (arg : Bytes)

def CounterOp.command (key : Bytes) : CounterOp → Command
  | incr => ⟨.INCR, [key]⟩
  | decr => ⟨.DECR, [key]⟩
  | incrby arg => ⟨.INCRBY, [key, arg]⟩
  | decrby arg => ⟨.DECRBY, [key, arg]⟩

/-- What a command adds to the number of its key. -/
inductive CounterOp.Adds : CounterOp → Int → Prop
  | incr : Adds .incr 1
  | decr : Adds .decr (-1)
  | incrby {arg : Bytes} {n : Int} (h : readInt arg = some n) (hn : FitsInt n) : Adds (.incrby arg) n
  | decrby {arg : Bytes} {n : Int} (h : readInt arg = some n) (hn : FitsInt n) : Adds (.decrby arg) (-n)

/-- The number that a key holds; a missing key counts as 0. -/
inductive Counts (m : IntMode) (ht : Keyspace) (key : Bytes) : Int → Prop
  | missing (hsearch : htableSearch m ht key = .ok none) : Counts m ht key 0
  | text {s : Bytes} {v : Int} (hsearch : htableSearch m ht key = .ok (some ⟨.STR_T, key, .str s⟩))
      (hs : readInt s = some v) : Counts m ht key v

/-- The commands one after another: the keyspace that each leaves, with its reply. -/
def trace (m : IntMode) (ht : Keyspace) : List Command → Except Fault (List (Keyspace × Bytes))
  | [] => .ok []
  | cmd :: cmds => do
    let after ← interpret m ht cmd
    .ok (after :: (← trace m after.1 cmds))

/-- Each reply and the value stored with it are the start value plus the deltas so far. -/
def AddsUp (m : IntMode) (key : Bytes) (v : Int) (deltas : List Int) (steps : List (Keyspace × Bytes)) : Prop :=
  steps.length = deltas.length ∧ ∀ (i : ℕ) after, steps[i]? = some after →
    after.2 = replyInteger (v + (deltas.take (i + 1)).sum) ∧
    htableGet m after.1 key = .ok (some (intostr (v + (deltas.take (i + 1)).sum)))

/-- The sequence starts with `DECRBY` of a missing key by a number other than 0. -/
def NegatesMissing (m : IntMode) (ht : Keyspace) (key : Bytes) (ops : List CounterOp) : Prop :=
  htableSearch m ht key = .ok none ∧ ∃ arg n rest, ops = .decrby arg :: rest ∧ readInt arg = some n ∧ n ≠ 0

section Counter
variable {m : IntMode} {ht ht' : Keyspace} {key s arg arg' : Bytes} {v d n x y : Int} {op : CounterOp}
  {ops : List CounterOp} {deltas : List Int}

/-- What a counter command does once it knows the number to store. -/
def storeNumber (m : IntMode) (ht : Keyspace) (key : Bytes) (x : Int) : Exec := do
  let (ht, _) ← htableSet m ht key (intostr x)
  .ok (ht, replyInteger x)

theorem get_missing (hsearch : htableSearch m ht key = .ok none) : htableGet m ht key = .ok none := by
  rw [htableGet, htableRead, hsearch]
  rfl

theorem get_text {a : HashTableItem Value} (hsearch : htableSearch m ht key = .ok (some a)) (ha : a.value = .str s) :
    htableGet m ht key = .ok (some s) := by
  rw [htableGet, htableRead, hsearch, ok_bind]
  dsimp only
  rw [ha]
  rfl

theorem execStep_missing (hsearch : htableSearch m ht key = .ok none) (type : CommandType) (d : Int) :
    execStep m ht ⟨type, [key]⟩ d = storeNumber m ht key d := by
  unfold execStep
  dsimp only
  rw [typed_missing hsearch, get_missing hsearch]
  rfl

theorem execStep_number (hsearch : htableSearch m ht key = .ok (some ⟨.STR_T, key, .str s⟩)) (type : CommandType)
    (d : Int) : execStep m ht ⟨type, [key]⟩ d =
      if isNumber s then storeNumber m ht key (wrap32 (strtoi s + d)) else .ok (ht, replyErrIntid) := by
  unfold execStep
  dsimp only
  rw [typed_found hsearch rfl, get_text hsearch rfl, ok_bind]
  rfl

theorem execStep_text (hsearch : htableSearch m ht key = .ok (some ⟨.STR_T, key, .str s⟩)) (hs : readInt s = some v)
    (hv : FitsInt v) (type : CommandType) (d : Int) :
    execStep m ht ⟨type, [key]⟩ d = storeNumber m ht key (wrap32 (v + d)) := by
  obtain ⟨hnum, hval⟩ := strtoi_readInt hs
  rw [execStep_number hsearch, if_pos hnum, hval, hv.wrap]

theorem execStepBy_missing (hsearch : htableSearch m ht key = .ok none) (harg : readInt arg = some n)
    (hn : FitsInt n) (type : CommandType) (f : Int → Int → Int) :
    execStepBy m ht ⟨type, [key, arg]⟩ f = storeNumber m ht key n := by
  obtain ⟨hnum, hval⟩ := strtoi_readInt harg
  unfold execStepBy
  dsimp only
  rw [typed_missing hsearch, get_missing hsearch, ok_bind, if_pos ⟨rfl, hnum⟩, hval, hn.wrap]
  rfl

theorem execStepBy_number (hsearch : htableSearch m ht key = .ok (some ⟨.STR_T, key, .str s⟩)) (type : CommandType)
    (f : Int → Int → Int) : execStepBy m ht ⟨type, [key, arg]⟩ f =
      if isNumber s && isNumber arg then storeNumber m ht key (wrap32 (f (strtoi s) (strtoi arg)))
      else .ok (ht, replyErrIntid) := by
  unfold execStepBy
  dsimp only
  rw [typed_found hsearch rfl, get_text hsearch rfl, ok_bind, if_neg fun h => Option.some_ne_none s h.1, isNumberPtr,
    ok_bind]
  rfl

theorem execStepBy_text (hsearch : htableSearch m ht key = .ok (some ⟨.STR_T, key, .str s⟩))
    (hs : readInt s = some v) (hv : FitsInt v) (harg : readInt arg = some n) (hn : FitsInt n) (type : CommandType)
    (f : Int → Int → Int) :
    execStepBy m ht ⟨type, [key, arg]⟩ f = storeNumber m ht key (wrap32 (f v n)) := by
  obtain ⟨hnum, hval⟩ := strtoi_readInt hs
  obtain ⟨hnum', hval'⟩ := strtoi_readInt harg
  rw [execStepBy_number hsearch, if_pos (by rw [hnum, hnum', Bool.and_true]), hval, hval', hv.wrap, hn.wrap]

/-- A counter command stores the sum, except that `DECRBY` of a missing key does not change the sign. -/
theorem CounterOp.Adds.exec (hop : op.Adds d) (hc : Counts m ht key v) (hv : FitsInt v) (hsum : FitsInt (v + d))
    (hok : ¬NegatesMissing m ht key (op :: ops)) : interpret m ht (op.command key) = storeNumber m ht key (v + d) := by
  cases hc with
  | missing hsearch =>
    cases hop with
    | incr => exact execStep_missing hsearch .INCR 1
    | decr => exact execStep_missing hsearch .DECR (-1)
    | incrby harg hn =>
      rw [Int.zero_add]
      exact execStepBy_missing hsearch harg hn .INCRBY (· + ·)
    | @decrby arg n harg hn =>
      have hzero : n = 0 := by
        by_contra hne
        exact hok ⟨hsearch, arg, n, ops, rfl, harg, hne⟩
      subst hzero
      exact execStepBy_missing hsearch harg hn .DECRBY (· - ·)
  | text hsearch hs =>
    rw [← hsum.wrap]
    cases hop with
    | incr => exact execStep_text hsearch hs hv .INCR 1
    | decr => exact execStep_text hsearch hs hv .DECR (-1)
    | incrby harg hn => exact execStepBy_text hsearch hs hv harg hn .INCRBY (· + ·)
    | decrby harg hn => exact execStepBy_text hsearch hs hv harg hn .DECRBY (· - ·)

/-- A number that the table stores is the number of its key from then on. -/
theorem storeNumber_spec (h : Sound m (Tagged m) ht) (hstores : Stores m ht key (intostr x)) :
    ∃ ht', storeNumber m ht key x = .ok (ht', replyInteger x) ∧ Sound m (Tagged m) ht' ∧
      htableSearch m ht' key = .ok (some ⟨.STR_T, key, .str (intostr x)⟩) := by
  obtain ⟨ht', new, hset, hget, -⟩ := hstores
  have hsound : Sound m (Tagged m) ht' := (h.set_spec (tagged_str key (intostr x))).of_ok hset
  refine ⟨ht', by rw [storeNumber, hset]; rfl, hsound, ?_⟩
  obtain ⟨r, hsearch, hread⟩ := bind_eq_ok.mp hget
  cases r with
  | none => cases hread
  | some a =>
    obtain ⟨type, k, value⟩ := a
    obtain ⟨htag, rfl⟩ := (hsound.search_spec key).of_ok hsearch _ rfl
    obtain ⟨s, hs, heq⟩ := bind_eq_ok.mp hread
    obtain rfl : s = intostr x := Option.some.inj (Except.ok.inj heq)
    have htag : Holds m type value := htag
    cases htag with
    | str s =>
      obtain rfl : s = intostr x := Except.ok.inj hs
      exact hsearch
    | hash h => cases hs
    | list h hne => cases hs
    | set h => cases hs

/-- In every keyspace that a command of the sequence meets, the table stores a number written under the key. -/
def StoresAll (m : IntMode) (ht : Keyspace) (key : Bytes) (ops : List CounterOp) : Prop :=
  Runs.Along (serve m) (fun ht _ => ∀ value, Stores m ht key value) ht (ops.map (·.command key))

theorem AddsUp.cons {deltas : List Int} {steps : List (Keyspace × Bytes)}
    (hget : htableGet m ht key = .ok (some (intostr (v + d)))) (h : AddsUp m key (v + d) deltas steps) :
    AddsUp m key v (d :: deltas) ((ht, replyInteger (v + d)) :: steps) := by
  refine ⟨congrArg Nat.succ h.1, fun i after hi => ?_⟩
  cases i with
  | zero =>
    cases hi
    simpa using hget
  | succ i =>
    rw [List.take_succ_cons, List.sum_cons, ← Int.add_assoc]
    exact h.2 i after hi

theorem counts_addsUp (h : Sound m (Tagged m) ht) (hc : Counts m ht key v) (hops : List.Forall₂ CounterOp.Adds ops deltas)
    (hrange : ∀ i ≤ deltas.length, FitsInt (v + (deltas.take i).sum)) (hstore : StoresAll m ht key ops)
    (hok : ¬NegatesMissing m ht key ops) :
    ∃ steps, trace m ht (ops.map (·.command key)) = .ok steps ∧ AddsUp m key v deltas steps := by
  induction hops generalizing ht v with
  | nil => exact ⟨[], rfl, rfl, fun i after hi => nomatch hi⟩
  | @cons op d ops deltas hop hops ih =>
    have hv : FitsInt v := by simpa using hrange 0 (Nat.zero_le _)
    have hsum : FitsInt (v + d) := by simpa using hrange 1 (by simp)
    obtain ⟨hfirst, hrest⟩ := hstore
    obtain ⟨ht', hrun, hsound, hsearch⟩ := storeNumber_spec h (hfirst (intostr (v + d)))
    rw [← hop.exec hc hv hsum hok] at hrun
    have hserve : serve m ht (op.command key) = .ok ht' := by
      rw [serve, hrun]
      rfl
    have hc' : Counts m ht' key (v + d) := .text hsearch (readInt_int _)
    have hrange' : ∀ i ≤ deltas.length, FitsInt (v + d + (deltas.take i).sum) := by
      intro i hi
      have := hrange (i + 1) (by simpa using hi)
      rwa [List.take_succ_cons, List.sum_cons, ← Int.add_assoc] at this
    -- The key is there from now on.
    have hok' : ¬NegatesMissing m ht' key ops := fun hneg => nomatch hsearch.symm.trans hneg.1
    obtain ⟨steps, htrace, hadds⟩ := ih hsound hc' hrange' (hrest ht' hserve) hok'
    refine ⟨(ht', replyInteger (v + d)) :: steps, ?_, hadds.cons (get_text hsearch rfl)⟩
    rw [List.map_cons, trace, hrun, ok_bind, htrace]
    rfl

theorem replyInteger_inj (h : replyInteger x = replyInteger y) : x = y := by
  rw [replyInteger, replyInteger, List.append_left_inj, List.append_right_inj] at h
  have hread := readInt_int x
  rw [show Decimal.int x = Decimal.int y from h, readInt_int] at hread
  exact (Option.some.inj hread).symm

theorem storeNumber_reply {r : Keyspace × Bytes} (h : storeNumber m ht key x = .ok r) : r.2 = replyInteger x := by
  obtain ⟨_, -, heq⟩ := bind_eq_ok.mp h
  cases heq
  rfl

theorem Counts.eq_zero (hc : Counts m ht key v) (hsearch : htableSearch m ht key = .ok none) : v = 0 := by
  cases hc with
  | missing _ => rfl
  | text hfound _ => exact nomatch hfound.symm.trans hsearch

theorem NegatesMissing.not_addsUp (hneg : NegatesMissing m ht key ops) (hc : Counts m ht key v)
    (hops : List.Forall₂ CounterOp.Adds ops deltas) {steps : List (Keyspace × Bytes)}
    (htrace : trace m ht (ops.map (·.command key)) = .ok steps) : ¬AddsUp m key v deltas steps := by
  intro hadds
  obtain ⟨hsearch, arg, n, rest, rfl, harg, hne⟩ := hneg
  cases hops with
  | @cons _ d _ deltas hop hops =>
    obtain _ | _ | _ | ⟨harg', hn⟩ := hop
    obtain rfl := Option.some.inj (harg.symm.trans harg')
    obtain ⟨after, hrun, htrace⟩ := bind_eq_ok.mp htrace
    obtain ⟨steps, -, heq⟩ := bind_eq_ok.mp htrace
    cases heq
    have hreply := storeNumber_reply ((execStepBy_missing hsearch harg hn .DECRBY (· - ·)).symm.trans hrun)
    have hsum := (hadds.2 0 after rfl).1
    rw [hreply, hc.eq_zero hsearch] at hsum
    have heq := replyInteger_inj hsum
    simp at heq
    omega

/-- `DECRBY` by `n` is `INCRBY` by `-n`, unless it meets a missing key. -/
theorem decrby_eq_incrby (h : Sound m (Tagged m) ht) (hc : Counts m ht key v) (hv : FitsInt v)
    (harg : readInt arg = some n) (harg' : readInt arg' = some (-n)) (hn : FitsInt n) (hn' : FitsInt (-n))
    (hstores : ∀ value, Stores m ht key value) :
    interpret m ht ((CounterOp.decrby arg).command key) = interpret m ht ((CounterOp.incrby arg').command key) ↔
      ¬NegatesMissing m ht key [.decrby arg] := by
  cases hc with
  | missing hsearch =>
    have hdecr := execStepBy_missing hsearch harg hn .DECRBY (· - ·)
    have hincr := execStepBy_missing hsearch harg' hn' .INCRBY (· + ·)
    change execStepBy m ht ⟨.DECRBY, [key, arg]⟩ (· - ·) = execStepBy m ht ⟨.INCRBY, [key, arg']⟩ (· + ·) ↔ _
    rw [hdecr, hincr]
    constructor
    · rintro heq ⟨-, arg₁, n₁, rest, hop, harg₁, hne⟩
      cases hop
      obtain rfl := Option.some.inj (harg.symm.trans harg₁)
      obtain ⟨ht', hrun, -⟩ := storeNumber_spec h (hstores (intostr n))
      have hreply := replyInteger_inj (storeNumber_reply (heq.symm.trans hrun))
      omega
    · intro hok
      have hzero : n = 0 := by
        by_contra hne
        exact hok ⟨hsearch, arg, n, [], rfl, harg, hne⟩
      rw [hzero, Int.neg_zero]
  | text hsearch hs =>
    have hdecr := execStepBy_text hsearch hs hv harg hn .DECRBY (· - ·)
    have hincr := execStepBy_text hsearch hs hv harg' hn' .INCRBY (· + ·)
    change execStepBy m ht ⟨.DECRBY, [key, arg]⟩ (· - ·) = execStepBy m ht ⟨.INCRBY, [key, arg']⟩ (· + ·) ↔ _
    rw [hdecr, hincr, Int.sub_eq_add_neg]
    exact iff_of_true rfl fun hneg => nomatch hsearch.symm.trans hneg.1

/-- Counter commands on a key that is missing or holds an integer add up: each reply and the value stored with it
    are the start value plus the deltas so far, exactly if the sequence does not start with `DECRBY` of a missing
    key by a number other than 0. `DECRBY` by `n` is `INCRBY` by `-n` under the same condition. -/
theorem counters_add_up (h : Reachable m ht) (hc : Counts m ht key v) (hops : List.Forall₂ CounterOp.Adds ops deltas)
    (hrange : ∀ i ≤ deltas.length, FitsInt (v + (deltas.take i).sum)) (hstore : StoresAll m ht key ops) :
    ((∃ steps, trace m ht (ops.map (·.command key)) = .ok steps ∧ AddsUp m key v deltas steps) ↔
      ¬NegatesMissing m ht key ops) ∧
    ∀ arg arg' n, readInt arg = some n → readInt arg' = some (-n) → FitsInt n → FitsInt (-n) →
      (∀ value, Stores m ht key value) →
      (interpret m ht ((CounterOp.decrby arg).command key) = interpret m ht ((CounterOp.incrby arg').command key) ↔
        ¬NegatesMissing m ht key [.decrby arg]) := by
  have hv : FitsInt v := by simpa using hrange 0 (Nat.zero_le _)
  refine ⟨⟨?_, counts_addsUp h.sound hc hops hrange hstore⟩, fun arg arg' n harg harg' hn hn' hstores =>
    decrby_eq_incrby h.sound hc hv harg harg' hn hn' hstores⟩
  rintro ⟨steps, htrace, hadds⟩ hneg
  exact hneg.not_addsUp hc hops htrace hadds

end Counter

/-- `INCR a; DECRBY a 5` -/
theorem counters_add_up_two : ∃ steps,
    trace .wrap (htableInit htBaseSize) [⟨.INCR, [str "a"]⟩, ⟨.DECRBY, [str "a", str "5"]⟩] = .ok steps ∧
      AddsUp .wrap (str "a") 0 [1, -5] steps := by
  have hserve : serve .wrap (htableInit htBaseSize) ⟨.INCR, [str "a"]⟩ = .ok (oneString 0 (str "a") (str "1")) := rfl
  have hstore : StoresAll .wrap (htableInit htBaseSize) (str "a") [.incr, .decrby (str "5")] := by
    refine ⟨fun value => ?_, fun ht hht => ⟨fun value => ?_, fun _ _ => trivial⟩⟩
    · exact htableInit_keyed.stores (r := none) value rfl fun _ => htableInit_fits .wrap _
    · obtain rfl : oneString 0 (str "a") (str "1") = ht := Except.ok.inj (hserve.symm.trans hht)
      have hreach : HtableReached .wrap (fun _ _ => True) (oneString 0 (str "a") (str "1")) :=
        .step .init trivial (show HtableOp.step .wrap _ (.set (str "a") (str "1")) = _ from rfl)
      refine hreach.keyed.stores (r := some _) value rfl fun habsent => ?_
      exact absurd rfl (habsent _ (Probing.mem_entries.mpr ⟨0, rfl⟩))
  have hops : List.Forall₂ CounterOp.Adds [.incr, .decrby (str "5")] [1, -5] :=
    .cons .incr (.cons (.decrby (n := 5) rfl (by decide)) .nil)
  have hrange : ∀ i ≤ [1, -5].length, FitsInt (0 + ([1, -5].take i).sum) := by decide
  refine (counters_add_up .init (.missing rfl) hops hrange hstore).1.mpr ?_
  rintro ⟨-, arg, n, rest, hop, -⟩
  cases hop

/-- `DECRBY a 5` on the empty keyspace replies 5 and stores it, where `INCRBY a -5` replies -5. -/
theorem decrby_of_missing_key : ∃ ht ht', Reachable .wrap (htableInit htBaseSize) ∧
    StoresAll .wrap (htableInit htBaseSize) (str "a") [.decrby (str "5")] ∧
    interpret .wrap (htableInit htBaseSize) ⟨.DECRBY, [str "a", str "5"]⟩ = .ok (ht, replyInteger 5) ∧
    htableGet .wrap ht (str "a") = .ok (some (str "5")) ∧
    interpret .wrap (htableInit htBaseSize) ⟨.INCRBY, [str "a", str "-5"]⟩ = .ok (ht', replyInteger (-5)) ∧
    ¬∃ steps, trace .wrap (htableInit htBaseSize) [⟨.DECRBY, [str "a", str "5"]⟩] = .ok steps ∧
      AddsUp .wrap (str "a") 0 [-5] steps := by
  have hstore : StoresAll .wrap (htableInit htBaseSize) (str "a") [.decrby (str "5")] :=
    ⟨fun value => htableInit_keyed.stores (r := none) value rfl fun _ => htableInit_fits .wrap _, fun _ _ => trivial⟩
  have hop : (CounterOp.decrby (str "5")).Adds (-5) := .decrby (n := 5) rfl (by decide)
  have hneg : NegatesMissing .wrap (htableInit htBaseSize) (str "a") [.decrby (str "5")] :=
    ⟨rfl, str "5", 5, [], rfl, rfl, by decide⟩
  refine ⟨oneString 0 (str "a") (str "5"), oneString 0 (str "a") (str "-5"), .init, hstore, rfl, rfl, rfl, ?_⟩
  rintro ⟨steps, htrace, hadds⟩
  exact hneg.not_addsUp (.missing rfl) (.cons hop .nil) htrace hadds

end MemKey
