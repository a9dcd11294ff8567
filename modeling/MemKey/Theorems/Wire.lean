import MemKey.Wire
import MemKey.Theorems.Interpret

/-! What passes between the server and a client: every reply is one RESP value, only `QUIT` and `SHUTDOWN`
    end a session, and the client reads back what the server has written. -/

namespace MemKey
open Outcome Resp

section Session
variable {m : IntMode} {ht ht' : Keyspace} {cmd : Command} {reply : Bytes}

theorem sessionEnd_encode (v : Reply) : sessionEnd v.encode = none := by
  have hhead : ∃ b t, v.encode = b :: t ∧ [b] ≠ str "q" ∧ [b] ≠ str "x" := by
    cases v with
    | scalar s =>
      obtain ⟨b, t, henc, hb⟩ := s.head_encode
      refine ⟨b, t, henc, ?_⟩
      rcases hb with rfl | rfl <;> decide
    | array l => exact ⟨_, _, rfl, by decide⟩
    | error e => exact ⟨_, _, rfl, by decide⟩
  obtain ⟨b, t, henc, hq, hx⟩ := hhead
  rw [henc, sessionEnd, List.take_succ_cons, List.take_zero, if_neg hq, if_neg hx]

theorem Answers.resp {r : Keyspace × Bytes} (h : Answers m ht r) : ∃ v : Reply, r.2 = v.encode := by
  rcases h.reply with (⟨s, hs⟩ | ⟨l, hl⟩) | ⟨⟨e, he⟩, -⟩
  · exact ⟨_, hs⟩
  · exact ⟨_, hl⟩
  · exact ⟨_, he⟩

/-- Every reply is the encoding of one value and nothing else, and the session goes on unless the command is
    `QUIT` or `SHUTDOWN`. -/
theorem replies_are_resp (h : Reachable m ht) (hrun : interpret m ht cmd = .ok (ht', reply)) :
    (cmd.type ≠ .QUIT → cmd.type ≠ .SHUTDOWN → cmd.type ≠ .NOOP →
      ∃ v : Reply, reply = v.encode ∧ Reply.decode reply = some (v, [])) ∧
    (sessionEnd reply ≠ none ↔ cmd.type = .QUIT ∨ cmd.type = .SHUTDOWN) ∧
    ∀ arr, replyArray (some arr) = replyArrayN (arr.map some) := by
  cases hb : bareReply cmd.type with
  | none =>
    obtain ⟨v, rfl⟩ := ((interpret_spec h.sound hb).of_ok hrun).resp
    have hdec := v.decode_encode []
    rw [List.append_nil] at hdec
    refine ⟨fun _ _ _ => ⟨v, rfl, hdec⟩, ?_, replyArray_eq_replyArrayN⟩
    rw [sessionEnd_encode]
    refine ⟨fun hne => absurd rfl hne, ?_⟩
    rintro (htype | htype) <;> rw [htype] at hb <;> cases hb
  | some bare =>
    rw [interpret_bare hb] at hrun
    cases hrun
    refine ⟨fun hq hs hn => ?_, ?_, replyArray_eq_replyArrayN⟩
    · rcases bareReply_cases hb with ⟨htype, -⟩ | ⟨htype, -⟩ | ⟨htype, -⟩
      · exact absurd htype hq
      · exact absurd htype hs
      · exact absurd htype hn
    · rcases bareReply_cases hb with ⟨htype, rfl⟩ | ⟨htype, rfl⟩ | ⟨htype, rfl⟩ <;> rw [htype] <;> decide

theorem replies_are_resp_array : ∃ (ht' : Keyspace) (reply : Bytes) (v : Reply),
    interpret .wrap oneHash ⟨.HGETALL, [str "h"]⟩ = .ok (ht', reply) ∧ Reply.decode reply = some (v, []) := by
  have hrun : interpret .wrap oneHash ⟨.HGETALL, [str "h"]⟩ =
      .ok (oneHash, str "*2" ++ crlf ++ str "$1" ++ crlf ++ str "a" ++ crlf ++ str ":1" ++ crlf) := rfl
  obtain ⟨v, -, hdec⟩ := (replies_are_resp oneHash_reached hrun).1 (by decide) (by decide) (by decide)
  exact ⟨_, _, v, hrun, hdec⟩

end Session

/-! ### From the server to the client -/

section Client
variable {s : Bytes} {mem rest : List UInt8}

theorem cstr_append (h : 0 ∉ s) (rest : List UInt8) : cstr (s ++ 0 :: rest) = .ok s := by
  have hs : ∀ c ∈ s, decide (c ≠ 0) = true := fun c hc => decide_eq_true fun h0 => h (h0 ▸ hc)
  rw [cstr, if_pos (by simp), List.takeWhile_append_of_pos hs]
  simp

theorem Buffer.read_prefix (msg : Buffer) {got : List UInt8} (hfit : got.length ≤ bufSize) (more : List UInt8) :
    (msg.read (got ++ more) got.length).1.bytes = got ++ msg.bytes.drop got.length ∧
      (msg.read (got ++ more) got.length).2 = more := by
  simp only [Buffer.read, min_eq_left hfit, List.take_left, List.drop_left, and_self]

/-- A message that one read delivers whole: its newline is cut off, and what was in the memory lies behind
    its NUL. -/
theorem readline_writeline (msg : Buffer) {line : Bytes} (h : 0 ∉ line) (hfit : (writeline line).length ≤ bufSize)
    (more : List UInt8) :
    ∃ rest, readline msg (writeline line ++ more) (writeline line).length = .ok (line ++ 0 :: rest, more) := by
  obtain ⟨hbytes, htail⟩ := msg.read_prefix hfit more
  refine ⟨0 :: msg.bytes.drop (writeline line).length, ?_⟩
  unfold readline
  generalize msg.read (writeline line ++ more) (writeline line).length = got at hbytes htail ⊢
  obtain ⟨buf, tail⟩ := got
  obtain rfl : tail = more := htail
  have hbuf : buf.bytes = (line ++ [10]) ++ 0 :: msg.bytes.drop (writeline line).length := by
    simpa [writeline, str] using hbytes
  have hs : cstr buf.bytes = .ok (line ++ [10]) := by
    rw [hbuf]
    exact cstr_append (by simpa using h) _
  have hset : buf.bytes.set ((line ++ [10]).length - 1) 0 =
      line ++ 0 :: 0 :: msg.bytes.drop (writeline line).length := by
    rw [hbuf]
    simp
  dsimp only
  rw [hs, ok_bind, if_neg (by simp), hset]

/-! ### The client's parsers -/

theorem parseInt_loop (hs : ∀ c ∈ s, Decimal.isDigit c = true) (n : Int) (rest : List UInt8) :
    parseInt.loop n (s ++ 13 :: rest) = .ok (s.foldl strtoiStep n) := by
  induction s generalizing n with
  | nil => rfl
  | cons c s ih =>
    obtain ⟨hc, hs⟩ := List.forall_mem_cons.mp hs
    have hne : c ≠ 13 := by
      rintro rfl
      exact absurd hc (by decide)
    rw [List.cons_append, parseInt.loop, if_neg hne, ih hs, List.foldl_cons]

/-- `parse_int` reads what `strtoi` reads, up to the carriage return. -/
theorem parseInt_intostr (b : UInt8) (x : Int) (rest : List UInt8) :
    parseInt (b :: (intostr x ++ 13 :: rest)) = .ok (strtoi (intostr x)) := by
  have hdigits := Decimal.nat_digits x.natAbs
  unfold intostr Decimal.int
  split
  · rw [List.cons_append, parseInt, if_pos rfl, parseInt_loop hdigits, ok_bind, strtoi, if_pos rfl]
  · cases hn : Decimal.nat x.natAbs with
    | nil => exact absurd hn (Decimal.nat_ne_nil _)
    | cons c s =>
      rw [hn] at hdigits
      have hc := Decimal.head_nat_ne_minus hn
      rw [List.cons_append, parseInt, if_neg hc, ← List.cons_append, parseInt_loop hdigits, strtoi, if_neg hc]

theorem skipLine_append (h : 10 ∉ s) (rest : List UInt8) : skipLine (s ++ 10 :: rest) = .ok rest := by
  induction s with
  | nil => rfl
  | cons c s ih =>
    obtain ⟨hc, hs⟩ := List.mem_cons.not.mp h |> not_or.mp
    rw [List.cons_append, skipLine, if_neg (Ne.symm hc), ih hs]

theorem nul_notMem_intostr (x : Int) : 0 ∉ intostr x := fun h => by
  rcases Decimal.mem_int h with h | h <;> exact absurd h (by decide)

theorem parseStr_replyString (h : 0 ∉ s) (hlen : s.length < 2 ^ 31) (rest : List UInt8) :
    parseStr (replyString (some s) ++ rest) = .ok (some s) := by
  have hreply : replyString (some s) ++ rest =
      36 :: (intostr s.length ++ 13 :: 10 :: (s ++ crlf ++ rest)) := by
    simp [replyString, crlf, str]
  have hint : parseInt (replyString (some s) ++ rest) = .ok (s.length : Int) := by
    rw [hreply, parseInt_intostr, strtoi_intostr (by omega) (by omega)]
  have hskip : skipLine (replyString (some s) ++ rest) = .ok (s ++ crlf ++ rest) := by
    have hlf : (10 : UInt8) ∉ 36 :: intostr s.length ++ [13] := by
      simp only [List.cons_append, List.mem_cons, List.mem_append, List.not_mem_nil, or_false, not_or]
      refine ⟨by decide, fun hmem => ?_, by decide⟩
      rcases Decimal.mem_int hmem with h | h <;> exact absurd h (by decide)
    have happ := skipLine_append hlf (s ++ crlf ++ rest)
    rw [hreply]
    simpa using happ
  rw [parseStr, hint, ok_bind, if_neg (by omega), hskip, ok_bind, if_neg (by simp; omega), Int.toNat_natCast,
    List.append_assoc, List.take_left, cstr_append h []]
  rfl

theorem parseStr_null (rest : List UInt8) : parseStr (replyString none ++ rest) = .ok none := by
  have hreply : replyString none ++ rest = 36 :: (intostr (-1) ++ 13 :: 10 :: rest) := by
    have hnull : replyString none = 36 :: (intostr (-1) ++ [13, 10]) := by decide
    simp [hnull]
  rw [parseStr, hreply, parseInt_intostr, strtoi_intostr (by omega) (by omega)]
  rfl

/-- What the client holds after the server has written a reply and one read has delivered all of it. -/
def received (msg : Buffer) (reply : Bytes) : Except Fault (List UInt8) := do
  let (resp, _) ← readline msg (writeline reply) (writeline reply).length
  .ok resp

theorem received_eq (msg : Buffer) {reply : Bytes} (h : 0 ∉ reply) (hfit : (writeline reply).length ≤ bufSize) :
    ∃ rest, received msg reply = .ok (reply ++ 0 :: rest) := by
  obtain ⟨rest, hread⟩ := readline_writeline msg h hfit []
  rw [List.append_nil] at hread
  exact ⟨rest, by rw [received, hread]; rfl⟩

/-- The client reads a string, NULL and an `int` back from what the server writes. -/
theorem client_reads_back (msg : Buffer) :
    (∀ v, 0 ∉ v → (writeline (replyString (some v))).length ≤ bufSize →
      (received msg (replyString (some v)) >>= parseStr) = .ok (some v)) ∧
    (received msg (replyString none) >>= parseStr) = .ok none ∧
    ∀ x : Int, -2 ^ 31 ≤ x → x < 2 ^ 31 → (received msg (replyInteger x) >>= parseInt) = .ok x := by
  refine ⟨fun v hv hfit => ?_, ?_, fun x h₁ h₂ => ?_⟩
  · have hz : 0 ∉ replyString (some v) := by
      simp only [replyString, List.mem_append, not_or]
      exact ⟨⟨⟨⟨by decide, nul_notMem_intostr _⟩, by decide⟩, hv⟩, by decide⟩
    obtain ⟨rest, hread⟩ := received_eq msg hz hfit
    have hlen : v.length < 2 ^ 31 := by
      simp only [writeline, replyString, List.length_append, bufSize] at hfit
      omega
    rw [hread, ok_bind, parseStr_replyString hv hlen]
  · obtain ⟨rest, hread⟩ := received_eq msg (show 0 ∉ replyString none by decide) (by decide)
    rw [hread, ok_bind, parseStr_null]
  · have hz : 0 ∉ replyInteger x := by
      simp only [replyInteger, List.mem_append, not_or]
      exact ⟨⟨by decide, nul_notMem_intostr _⟩, by decide⟩
    have hlen : (intostr x).length ≤ 11 := Decimal.length_int_le (by omega) (by omega)
    have hfit : (writeline (replyInteger x)).length ≤ bufSize := by
      simp [writeline, replyInteger, crlf, str, bufSize]
      omega
    obtain ⟨rest, hread⟩ := received_eq msg hz hfit
    have hreply : replyInteger x ++ 0 :: rest = 58 :: (intostr x ++ 13 :: 10 :: 0 :: rest) := by
      simp [replyInteger, crlf, str]
    rw [hread, ok_bind, hreply, parseInt_intostr, strtoi_intostr h₁ h₂]

theorem client_reads_back_line :
    (received ⟨List.replicate bufSize 170, List.length_replicate⟩ (replyString (some (str "a\r\n\"7"))) >>= parseStr) =
      .ok (some (str "a\r\n\"7")) :=
  (client_reads_back _).1 _ (by decide) (by decide)

end Client
end MemKey
