import MemKey.Client
import MemKey.Theorems.Wire

/-! What the client prints of each reply. -/

namespace MemKey
open Outcome Resp

/-- What the client is to print of a reply: an array is not printed. -/
def display : Reply → Bytes
  | .scalar .nil => str "(nil)\n"
  | .scalar (.bulk s) => printQuoteEncase s
  | .scalar (.int x) => str "(integer) " ++ intostr (wrap32 x) ++ str "\n"
  | .array _ => []
  | .error line => line ++ str "\n"

/-- The reply is an error line, and the byte behind its text in memory is no NUL. -/
def Unterminated (left : UInt8) (r : Reply) : Prop := left ≠ 0 ∧ ∃ line, r = .error line

section Client
variable {left : UInt8} {rest : List UInt8}

theorem parseInt_int (b : UInt8) (x : Int) (rest : List UInt8) :
    parseInt (b :: (intostr x ++ 13 :: 10 :: rest)) = .ok (wrap32 x) := by
  have hread : strtoi (intostr x) = wrap32 x := (strtoi_readInt (Decimal.readInt_int x)).2
  rw [parseInt_intostr, hread]

theorem encode_int (x : Int) (rest : List UInt8) :
    (Scalar.int x).encode ++ rest = 58 :: (intostr x ++ 13 :: 10 :: rest) := by
  simp [Scalar.encode, eol, colon, cr, lf, intostr]

theorem encode_error (line : ErrorLine) (rest : List UInt8) :
    (Reply.error line).encode ++ rest = 45 :: (line.val ++ [13, 10] ++ rest) := by
  simp [Reply.encode, eol, dash, cr, lf]

theorem parseErr_line {line : Bytes} (h : 0 ∉ line) (rest : List UInt8) :
    parseErr (45 :: (line ++ [13, 10] ++ 0 :: rest)) left = .ok (line ++ [left]) := by
  have hnul : 0 ∉ line ++ [13, 10] := by simpa using h
  have hlen : (line ++ [13, 10]).length = line.length + 2 := List.length_append
  rw [parseErr, List.tail_cons, cstr_append hnul, ok_bind, hlen]
  dsimp only
  rw [List.take_left]

theorem parseResp_string {v : Option Bytes} (h : parseStr (replyString v ++ rest) = .ok v) :
    parseResp ((Reply.scalar (single v)).encode ++ rest) left = .ok (display (.scalar (single v))) := by
  obtain ⟨t, ht⟩ : ∃ t, (Reply.scalar (single v)).encode ++ rest = 36 :: t := by
    cases v <;> exact ⟨_, rfl⟩
  rw [replyString_eq, ht] at h
  rw [ht, parseResp, if_pos rfl, h, ok_bind]
  cases v <;> rfl

/-- What is printed of a reply that arrives whole. -/
theorem parseResp_encode {r : Reply} (hnul : 0 ∉ r.encode) (hlen : r.encode.length < 2 ^ 31) (left : UInt8)
    (rest : List UInt8) :
    (¬Unterminated left r → parseResp (r.encode ++ 0 :: rest) left = .ok (display r)) ∧
    (Unterminated left r → parseResp (r.encode ++ 0 :: rest) left = .error .outOfBounds) := by
  cases r with
  | scalar s =>
    refine ⟨fun _ => ?_, fun h => Reply.noConfusion h.2.choose_spec⟩
    cases s with
    | nil => exact parseResp_string (v := none) (parseStr_null _)
    | bulk s =>
      have hreply : (Reply.scalar (.bulk s)).encode = replyString (some s) := (replyString_eq (some s)).symm
      rw [hreply, replyString] at hnul hlen
      have hs : 0 ∉ s := by
        simp only [List.mem_append, not_or] at hnul
        exact hnul.1.2
      have hslen : s.length < 2 ^ 31 := by
        simp only [List.length_append] at hlen
        omega
      exact parseResp_string (v := some s) (parseStr_replyString hs hslen _)
    | int x =>
      change parseResp ((Scalar.int x).encode ++ 0 :: rest) left = _
      rw [encode_int, parseResp, if_neg (by decide), if_pos rfl, parseInt_int]
      rfl
  | array l => exact ⟨fun _ => rfl, fun h => Reply.noConfusion h.2.choose_spec⟩
  | error line =>
    have hline : 0 ∉ line.val := by
      rw [← List.append_nil (Reply.error line).encode, encode_error] at hnul
      simp only [List.mem_cons, List.mem_append, not_or] at hnul
      exact hnul.2.1.1
    have hparse : parseResp ((Reply.error line).encode ++ 0 :: rest) left =
        (cstr (line.val ++ [left]) >>= fun text => .ok (text ++ str "\n")) := by
      rw [encode_error, parseResp, if_neg (by decide), if_neg (by decide), if_neg (by decide), if_pos rfl,
        parseErr_line hline, ok_bind]
    rw [hparse]
    refine ⟨fun h => ?_, fun h => ?_⟩
    · obtain rfl : left = 0 := by
        by_contra hleft
        exact h ⟨hleft, line, rfl⟩
      rw [cstr_append hline []]
      rfl
    · have hnone : 0 ∉ line.val ++ [left] := by
        simp only [List.mem_append, List.mem_singleton, not_or]
        exact ⟨hline, Ne.symm h.1⟩
      rw [cstr, if_neg hnone]
      rfl

/-- One read that delivers a reply whole makes the client print what the reply says. The text of an error has no NUL
    behind it, so that the client prints on into foreign memory unless the byte that is there happens to be one. -/
theorem client_shows_replies (msg : Buffer) (left : UInt8) {r : Reply} (hnul : 0 ∉ r.encode)
    (hfit : (writeline r.encode).length ≤ bufSize) :
    (¬Unterminated left r → (received msg r.encode >>= fun resp => parseResp resp left) = .ok (display r)) ∧
    (Unterminated left r → (received msg r.encode >>= fun resp => parseResp resp left) = .error .outOfBounds) := by
  obtain ⟨rest, hread⟩ := received_eq msg hnul hfit
  have hlen : r.encode.length < 2 ^ 31 := by
    simp only [writeline, List.length_append, bufSize] at hfit
    omega
  rw [hread, ok_bind]
  exact parseResp_encode hnul hlen left rest

end Client

/-- An error line, behind which `malloc` has left an `X`. -/
theorem client_shows_replies_error : ∃ r : Reply, r.encode = replyErrType ∧
    (received ⟨List.replicate bufSize 170, List.length_replicate⟩ r.encode >>= fun resp => parseResp resp 88) =
      .error .outOfBounds := by
  obtain ⟨line, hline⟩ := replyErrType_isError
  have hnul : 0 ∉ (Reply.error line).encode := hline ▸ (by decide : 0 ∉ replyErrType)
  have hfit : (writeline (Reply.error line).encode).length ≤ bufSize :=
    hline ▸ (by decide : (writeline replyErrType).length ≤ bufSize)
  exact ⟨.error line, hline.symm, (client_shows_replies _ 88 hnul hfit).2 ⟨by decide, line, rfl⟩⟩

end MemKey
