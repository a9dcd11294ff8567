import MemKey.Interpreter
import MemKey.Lib.Resp
import MemKey.Theorems.Numbers

/-! The replies as values of the protocol: what each `reply_*` function encodes, and when an array shows the
    text of its strings. -/

namespace MemKey

/-- A string shows as itself if, in case it looks like a number, it is the text of an `int`. -/
def ShowsExactly (s : Bytes) : Prop :=
  isNumber s = true → ∃ x : Int, -2 ^ 31 ≤ x ∧ x < 2 ^ 31 ∧ s = intostr x

/-! ### Replies as values of the protocol -/

open Resp (Scalar Reply)

/-- The scalar that a string becomes in an array. -/
def element (s : Bytes) : Scalar := if isNumber s then .int (strtoi s) else .bulk s

/-- The scalar that a string or NULL becomes on its own. -/
def single : Option Bytes → Scalar
  | none => .nil
  | some s => .bulk s

/-- The scalar that a string or NULL becomes in an array. -/
def cell : Option Bytes → Scalar
  | none => .nil
  | some s => element s

theorem replyString_eq (s : Option Bytes) : replyString s = (Reply.scalar (single s)).encode := by
  cases s with
  | none => decide
  | some s => rfl

theorem replyInteger_eq (x : Int) : replyInteger x = (Reply.scalar (.int x)).encode := rfl

theorem replyElement_eq (s : Bytes) : replyElement s = (element s).encode := by
  unfold replyElement element
  split
  · rfl
  · exact replyString_eq (some s)

theorem replyCell_eq (e : Option Bytes) : replyCell e = (cell e).encode := by
  cases e with
  | none => exact replyString_eq none
  | some s => exact replyElement_eq s

theorem replyArrayN_eq (arr : List (Option Bytes)) : replyArrayN arr = (Reply.array (arr.map cell)).encode := by
  have hfold (res : Bytes) :
      arr.foldl (fun res e => res ++ replyCell e) res = res ++ (arr.map cell).flatMap Scalar.encode := by
    induction arr generalizing res with
    | nil => simp
    | cons e arr ih =>
      rw [List.foldl_cons, ih, List.map_cons, List.flatMap_cons, List.append_assoc, replyCell_eq]
  rw [replyArrayN, hfold, Reply.encode, List.length_map]
  rfl

theorem replyArray_some_eq (arr : List Bytes) : replyArray (some arr) = (Reply.array (arr.map element)).encode := by
  have hfold (res : Bytes) (n : Int) : arr.foldl (fun (res, n) s => (res ++ replyElement s, n + 1)) (res, n) =
      (res ++ (arr.map element).flatMap Scalar.encode, n + arr.length) := by
    induction arr generalizing res n with
    | nil => simp
    | cons s arr ih =>
      rw [List.foldl_cons, ih, List.map_cons, List.flatMap_cons, List.append_assoc, replyElement_eq,
        List.length_cons]
      congr 1
      push_cast
      omega
  rw [replyArray, hfold, Reply.encode, List.length_map, Int.zero_add, List.nil_append]
  rfl

theorem replyArray_none_eq : replyArray none = (Reply.array []).encode := by decide

theorem replyArray_eq_replyArrayN (arr : List Bytes) : replyArray (some arr) = replyArrayN (arr.map some) := by
  rw [replyArray_some_eq, replyArrayN_eq, List.map_map]
  rfl

/-! ### Error lines -/

/-- The reply is one error line. -/
def IsError (reply : Bytes) : Prop := ∃ e, reply = (Reply.error e).encode

theorem replyErrType_isError : IsError replyErrType :=
  ⟨⟨str "ERR wrongtype operation", by decide⟩, by decide⟩

theorem replyErrIntid_isError : IsError replyErrIntid :=
  ⟨⟨str "ERR value is not an integer or out of range", by decide⟩, by decide⟩

theorem replyErrArgc_isError (given : ℕ) {expected : String} (h : Resp.cr ∉ str expected ∧ Resp.lf ∉ str expected) :
    IsError (replyErrArgc given expected) := by
  have hlf : Resp.lf ∉ intostr given := fun hmem => by
    rcases Decimal.mem_int hmem with h | h <;> exact absurd h (by decide)
  refine ⟨⟨str "ERR wrong number of arguments (given " ++ intostr given ++ str ", expected " ++ str expected ++
    str ")", ?_, ?_, ?_⟩, ?_⟩
  · rfl
  · simp only [List.mem_append, not_or]
    exact ⟨⟨⟨⟨by decide, Resp.cr_notMem_int _⟩, by decide⟩, h.1⟩, by decide⟩
  · simp only [List.mem_append, not_or]
    exact ⟨⟨⟨⟨by decide, hlf⟩, by decide⟩, h.2⟩, by decide⟩
  · simp only [replyErrArgc, Reply.encode]
    rfl

/-! ### Arrays show the text of their strings -/

theorem text_element_iff {s : Bytes} : (element s).text = some s ↔ ShowsExactly s := by
  unfold element ShowsExactly
  by_cases h : isNumber s = true
  · simp only [h, if_true, Scalar.text, Option.some.injEq, forall_const]
    exact intostr_strtoi_iff
  · simp [h, Scalar.text]

theorem text_cell_iff {e : Option Bytes} : (cell e).text = e ↔ ∀ s, e = some s → ShowsExactly s := by
  cases e with
  | none => simp [cell, Scalar.text]
  | some s => simpa [cell] using text_element_iff

/-- The reply decodes to an array with the given texts, and nothing is left over. -/
def ShowsText (reply : Bytes) (arr : List (Option Bytes)) : Prop :=
  ∃ l, Reply.decode reply = some (.array l, []) ∧ l.map Scalar.text = arr

theorem showsText_encode {l : List Scalar} {arr : List (Option Bytes)} :
    ShowsText (Reply.array l).encode arr ↔ l.map Scalar.text = arr := by
  have hdec := Reply.decode_encode (.array l) []
  rw [List.append_nil] at hdec
  simp [ShowsText, hdec]

theorem showsText_replyArray {strings : List Bytes} :
    ShowsText (replyArray (some strings)) (strings.map some) ↔ ∀ s ∈ strings, ShowsExactly s := by
  rw [replyArray_some_eq, showsText_encode, List.map_map, List.map_inj_left]
  exact forall₂_congr fun s _ => text_element_iff

theorem showsText_replyArrayN {arr : List (Option Bytes)} :
    ShowsText (replyArrayN arr) arr ↔ ∀ s, some s ∈ arr → ShowsExactly s := by
  rw [replyArrayN_eq, showsText_encode, List.map_map]
  conv_lhs => rw [← List.map_id arr, List.map_map, List.map_inj_left]
  constructor
  · exact fun h s hs => text_cell_iff.mp (h (some s) hs) s rfl
  · exact fun h e he => text_cell_iff.mpr fun s hs => h s (hs ▸ he)

/-- An array reply shows the text of its strings exactly when every string that looks like a number is the
    text of an `int`; a reply of one string always shows it. -/
theorem arrays_show_text (strings : List Bytes) (arr : List (Option Bytes)) (value : Option Bytes) :
    (ShowsText (replyArray (some strings)) (strings.map some) ↔ ∀ s ∈ strings, ShowsExactly s) ∧
    (ShowsText (replyArrayN arr) arr ↔ ∀ s, some s ∈ arr → ShowsExactly s) ∧
    ∃ v, Reply.decode (replyString value) = some (.scalar v, []) ∧ v.text = value := by
  refine ⟨showsText_replyArray, showsText_replyArrayN, single value, ?_, by cases value <;> rfl⟩
  have hdec := Reply.decode_encode (.scalar (single value)) []
  rwa [List.append_nil, ← replyString_eq] at hdec

/-- `007` and the empty string come out of an array as the numbers 7 and 0. -/
theorem arrays_change_text :
    Reply.decode (replyArray (some [str "007", []])) = some (.array [.int 7, .int 0], []) ∧
    ¬ShowsText (replyArray (some [str "007", []])) [some (str "007"), some []] := by
  have hdec : Reply.decode (replyArray (some [str "007", []])) = some (.array [.int 7, .int 0], []) := by
    decide +kernel
  refine ⟨hdec, ?_⟩
  rintro ⟨l, hl, htext⟩
  rw [hdec] at hl
  cases hl
  exact absurd htext (by decide)

end MemKey
