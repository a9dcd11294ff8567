import Mathlib.Data.List.TakeWhile
import MemKey.Parser
import MemKey.Lib.Outcome

/-! The parser against the grammar of its tokens, and the round trip of quoted tokens. -/

namespace MemKey
open Outcome

/-! ### The grammar -/

/-- The first token of a text and the text after it. White space is skipped; at a quote the token is
    everything up to the next quote of either kind, or the end; elsewhere it is a run of other characters. -/
def nextToken (text : Bytes) : Option (Bytes × Bytes) :=
  match text.dropWhile isSpace with
  | [] => none
  | c :: rest =>
    if isQuote c then some (rest.takeWhile (!isQuote ·), (rest.dropWhile (!isQuote ·)).drop 1)
    else some ((c :: rest).takeWhile (!isSpace ·), (c :: rest).dropWhile (!isSpace ·))

theorem nextToken_nil {text : Bytes} (h : text.dropWhile isSpace = []) : nextToken text = none := by
  rw [nextToken, h]

theorem nextToken_string {text rest : Bytes} {c : UInt8} (h : text.dropWhile isSpace = c :: rest)
    (hc : isQuote c = true) :
    nextToken text = some (rest.takeWhile (!isQuote ·), (rest.dropWhile (!isQuote ·)).drop 1) := by
  rw [nextToken, h]
  exact if_pos hc

theorem nextToken_id {text rest : Bytes} {c : UInt8} (h : text.dropWhile isSpace = c :: rest)
    (hc : isQuote c = false) :
    nextToken text = some ((c :: rest).takeWhile (!isSpace ·), (c :: rest).dropWhile (!isSpace ·)) := by
  rw [nextToken, h]
  exact if_neg (by simp [hc])

theorem length_dropWhile_le {α : Type} (p : α → Bool) (l : List α) : (l.dropWhile p).length ≤ l.length :=
  (List.dropWhile_suffix p).length_le

theorem head_dropWhile {α : Type} {p : α → Bool} {l rest : List α} {c : α} (h : l.dropWhile p = c :: rest) :
    p c = false := by
  have hne : l.dropWhile p ≠ [] := by simp [h]
  simpa [h] using List.head_dropWhile_not p hne

theorem nextToken_shorter {text token rest : Bytes} (h : nextToken text = some (token, rest)) :
    rest.length < text.length := by
  have hskip := length_dropWhile_le isSpace text
  unfold nextToken at h
  split at h
  · cases h
  · rename_i c cs hcs
    rw [hcs, List.length_cons] at hskip
    split at h
    · cases h
      have := length_dropWhile_le (!isQuote ·) cs
      rw [List.length_drop]
      omega
    · cases h
      have hc : (!isSpace c) = true := by simp [head_dropWhile hcs]
      have := length_dropWhile_le (!isSpace ·) cs
      simp only [List.dropWhile_cons, hc, if_true]
      omega

/-- The tokens of a text. -/
def tokens (text : Bytes) : List Bytes :=
  match _h : nextToken text with
  | none => []
  | some (token, rest) => token :: tokens rest
termination_by text.length
decreasing_by exact nextToken_shorter _h

theorem tokens_none {text : Bytes} (h : nextToken text = none) : tokens text = [] := by
  rw [tokens]
  split
  · rfl
  · rename_i hsome
    rw [h] at hsome
    cases hsome

theorem tokens_some {text token rest : Bytes} (h : nextToken text = some (token, rest)) :
    tokens text = token :: tokens rest := by
  rw [tokens]
  split
  · rename_i hnone
    rw [h] at hnone
    cases hnone
  · rename_i hsome
    rw [h] at hsome
    cases hsome
    rfl

/-! ### The cursor -/

/-- The cursor stands before `rest`. -/
structure Parser.At (parser : Parser) (rest : Bytes) : Prop where
  suffix : parser.string.drop parser.pos = rest
  inside : parser.pos ≤ parser.string.length
  current : parser.currentChar = rest.headD 0

section Parser
variable {parser : Parser} {rest text : Bytes} {c : UInt8}

theorem charAt_eq (str : Bytes) (i : ℕ) : charAt str i = (str.drop i).headD 0 := by
  rw [charAt, List.headD_eq_head?_getD, List.head?_drop, List.getD_eq_getElem?_getD]

theorem parserInit_at (msg : Bytes) : (parserInit msg).At msg := ⟨rfl, Nat.zero_le _, charAt_eq msg 0⟩

theorem Parser.At.length (h : parser.At rest) : parser.pos + rest.length = parser.string.length := by
  have := h.inside
  rw [← h.suffix, List.length_drop]
  omega

theorem Parser.At.more (h : parser.At rest) : parser.pos < parser.string.length ↔ rest ≠ [] := by
  have := h.length
  cases rest with
  | nil => simp_all
  | cons c rest =>
    simp only [List.length_cons] at this
    simp
    omega

theorem parserAdvance_string : (parserAdvance parser).string = parser.string := by
  unfold parserAdvance
  split <;> rfl

theorem Parser.At.advance (h : parser.At (c :: rest)) : (parserAdvance parser).At rest := by
  have hlt : parser.pos < parser.string.length := h.more.mpr (List.cons_ne_nil _ _)
  have hdrop : parser.string.drop (parser.pos + 1) = rest := by
    rw [← List.drop_drop, h.suffix]
    rfl
  rw [parserAdvance, if_pos hlt]
  exact ⟨hdrop, hlt, by rw [← hdrop]; exact charAt_eq _ _⟩

theorem Parser.At.advance_nil (h : parser.At []) : (parserAdvance parser).At [] := by
  rw [parserAdvance, if_neg (by simpa using h.more)]
  exact h

theorem Parser.At.fuel (h : parser.At rest) : rest.length < parser.rounds := by
  have := h.length
  rw [Parser.rounds]
  omega

theorem skipSpace_spec {fuel : ℕ} (h : parser.At text) (hfuel : text.length < fuel) :
    ∃ parser', skipSpace parser fuel = .ok parser' ∧ parser'.string = parser.string ∧
      parser'.At (text.dropWhile isSpace) := by
  induction fuel generalizing parser text with
  | zero => omega
  | succ fuel ih =>
    unfold skipSpace
    cases text with
    | nil =>
      rw [h.current]
      exact ⟨parser, rfl, rfl, h⟩
    | cons c text =>
      have hc : parser.currentChar = c := h.current
      rw [hc, List.dropWhile_cons]
      cases hs : isSpace c with
      | true =>
        obtain ⟨parser', hskip, hstr, hat⟩ := ih h.advance (by simpa using hfuel)
        exact ⟨parser', hskip, hstr.trans parserAdvance_string, hat⟩
      | false => exact ⟨parser, rfl, rfl, h⟩

theorem gather_spec {fuel : ℕ} (stop : UInt8 → Bool) (token : Bytes) (h : parser.At text) (hfuel : text.length < fuel) :
    ∃ parser', gather stop parser token fuel = .ok (parser', token ++ text.takeWhile (!stop ·)) ∧
      parser'.string = parser.string ∧ parser'.At (text.dropWhile (!stop ·)) := by
  induction fuel generalizing parser text token with
  | zero => omega
  | succ fuel ih =>
    unfold gather
    cases text with
    | nil =>
      have hend : ¬parser.pos < parser.string.length := by simpa using h.more
      exact ⟨parser, by simp [hend], rfl, h⟩
    | cons c text =>
      have hc : parser.currentChar = c := h.current
      have hmore : parser.pos < parser.string.length := h.more.mpr (List.cons_ne_nil _ _)
      rw [hc, List.takeWhile_cons, List.dropWhile_cons]
      cases hs : stop c with
      | true => exact ⟨parser, by simp, rfl, h⟩
      | false =>
        obtain ⟨parser', hgo, hstr, hat⟩ := ih (token ++ [c]) h.advance (by simpa using hfuel)
        refine ⟨parser', ?_, hstr.trans parserAdvance_string, hat⟩
        simpa [hmore] using hgo

/-- The token that the parser reads is the one of the grammar, and the cursor stands behind it. -/
theorem getNextToken_spec (h : parser.At text) (hnul : 0 ∉ text) :
    ∃ parser', getNextToken parser = .ok (parser', (nextToken text).map (·.1)) ∧
      parser'.string = parser.string ∧ parser'.At ((nextToken text).elim [] (·.2)) := by
  unfold getNextToken
  by_cases hmore : parser.pos < parser.string.length
  · rw [if_pos hmore]
    obtain ⟨skipped, hskip, hstr, hat⟩ := skipSpace_spec h h.fuel
    rw [hskip, ok_bind]
    cases hrest : text.dropWhile isSpace with
    | nil =>
      rw [hrest] at hat
      have hcur : skipped.currentChar = 0 := hat.current
      rw [nextToken_nil hrest, if_pos hcur]
      exact ⟨skipped, rfl, hstr, hat⟩
    | cons c rest =>
      rw [hrest] at hat
      have hcur : skipped.currentChar = c := hat.current
      have hmem : c ∈ text := (List.dropWhile_suffix isSpace).subset (hrest ▸ List.mem_cons_self)
      have hspace : isSpace c = false := head_dropWhile hrest
      have hne : c ≠ 0 := fun heq => hnul (heq ▸ hmem)
      have hfuel := hat.fuel
      rw [hcur, if_neg hne]
      cases hq : isQuote c with
      | true =>
        -- The opening quote is passed, and so is the closing one if there is one.
        have hrounds : rest.length < skipped.rounds := Nat.lt_of_succ_lt hfuel
        obtain ⟨parser', hgo, hstr', hat'⟩ := gather_spec isQuote [] hat.advance hrounds
        rw [nextToken_string hrest hq, if_pos rfl, parseString, hgo]
        refine ⟨parserAdvance parser', rfl, ?_, ?_⟩
        · rw [parserAdvance_string, hstr', parserAdvance_string, hstr]
        · rw [Option.elim_some]
          cases hdrop : rest.dropWhile (!isQuote ·) with
          | nil => exact (hdrop ▸ hat').advance_nil
          | cons d rest' => exact (hdrop ▸ hat').advance
      | false =>
        obtain ⟨parser', hgo, hstr', hat'⟩ := gather_spec isSpace [] hat hfuel
        rw [nextToken_id hrest hq, if_neg (by simp), if_pos hspace, parseId, hgo]
        exact ⟨parser', rfl, hstr'.trans hstr, hat'⟩
  · have hnil : text = [] := by simpa [h.more] using hmore
    subst hnil
    rw [if_neg hmore]
    exact ⟨parser, rfl, rfl, h⟩

theorem getNextToken_none (h : parser.At text) (hnul : 0 ∉ text) (htok : nextToken text = none) :
    ∃ parser', getNextToken parser = .ok (parser', none) := by
  obtain ⟨parser', hnext, -, -⟩ := getNextToken_spec h hnul
  rw [htok] at hnext
  exact ⟨parser', hnext⟩

theorem getNextToken_some {token : Bytes} (h : parser.At text) (hnul : 0 ∉ text)
    (htok : nextToken text = some (token, rest)) :
    ∃ parser', getNextToken parser = .ok (parser', some token) ∧ parser'.string = parser.string ∧
      parser'.At rest := by
  obtain ⟨parser', hnext, hstr, hat⟩ := getNextToken_spec h hnul
  rw [htok] at hnext hat
  exact ⟨parser', hnext, hstr, hat⟩

theorem nextToken_subset {token : Bytes} (h : nextToken text = some (token, rest)) : rest ⊆ text := by
  have hskip : text.dropWhile isSpace ⊆ text := (List.dropWhile_suffix isSpace).subset
  cases hdrop : text.dropWhile isSpace with
  | nil =>
    rw [nextToken_nil hdrop] at h
    cases h
  | cons c cs =>
    rw [hdrop] at hskip
    cases hq : isQuote c with
    | true =>
      rw [nextToken_string hdrop hq] at h
      cases h
      intro d hd
      have hcs : d ∈ cs := (List.dropWhile_suffix (!isQuote ·)).subset (List.mem_of_mem_drop hd)
      exact hskip (List.mem_cons_of_mem c hcs)
    | false =>
      rw [nextToken_id hdrop hq] at h
      cases h
      intro d hd
      exact hskip ((List.dropWhile_suffix (!isSpace ·)).subset hd)

/-! ### The two passes -/

theorem getArgc_loop {fuel : ℕ} (h : parser.At text) (hnul : 0 ∉ text) (argc : Int)
    (hfuel : text.length < fuel) : getArgc.loop parser argc fuel = .ok (argc + (tokens text).length) := by
  induction fuel generalizing parser text argc with
  | zero => omega
  | succ fuel ih =>
    rw [getArgc.loop]
    cases htok : nextToken text with
    | none =>
      obtain ⟨parser', hnext⟩ := getNextToken_none h hnul htok
      simp [hnext, tokens_none htok]
    | some p =>
      obtain ⟨token, rest⟩ := p
      obtain ⟨parser', hnext, -, hat⟩ := getNextToken_some h hnul htok
      have hlt := nextToken_shorter htok
      have hrest : 0 ∉ rest := fun hmem => hnul (nextToken_subset htok hmem)
      rw [hnext, ok_bind]
      dsimp only
      rw [ih hat hrest (argc + 1) (by omega), tokens_some htok, List.length_cons]
      congr 1
      omega

/-- The second parser counts the tokens of the whole string, wherever the first one stands. -/
theorem getArgc_spec (hnul : 0 ∉ parser.string) :
    getArgc parser = .ok ((tokens parser.string).length - 1) := by
  have hfuel := (parserInit_at parser.string).fuel
  rw [getArgc, getArgc_loop (parserInit_at parser.string) hnul 0 hfuel, ok_bind, zero_add]

theorem parseArgs_spec (h : parser.At text) (hnul : 0 ∉ text) :
    ∃ parser', parseArgs parser (tokens text).length = .ok (parser', tokens text) ∧
      ∃ parser'', getNextToken parser' = .ok (parser'', none) := by
  induction text using tokens.induct generalizing parser with
  | case1 text htok =>
    exact ⟨parser, by rw [tokens_none htok]; rfl, getNextToken_none h hnul htok⟩
  | case2 text token rest htok ih =>
    obtain ⟨next, hnext, -, hat⟩ := getNextToken_some h hnul htok
    obtain ⟨parser', hargs, hend⟩ := ih hat fun hmem => hnul (nextToken_subset htok hmem)
    refine ⟨parser', ?_, hend⟩
    rw [tokens_some htok, List.length_cons, parseArgs, hnext, ok_bind]
    dsimp only
    rw [hargs, ok_bind]

theorem commandType_ne_noop (token : Bytes) : commandType token ≠ .NOOP := by
  unfold commandType
  split
  · rename_i name type hfind
    have hmem := List.mem_of_find?_eq_some hfind
    have hall : ∀ p ∈ commandNames, p.2 ≠ .NOOP := by decide
    exact hall (name, type) hmem
  · simp

end Parser

/-- The command that the tokens of a message make. -/
def commandOf : List Bytes → Command
  | [] => ⟨.NOOP, []⟩
  | token :: args => ⟨commandType token, args⟩

/-- `parse` makes the command of the tokens of its message. Its two parsers agree: the count of the one is the
    number of tokens that the other has left, so that none of these is NULL and the next one is. -/
theorem parse_tokens (msg : Bytes) (hnul : 0 ∉ msg) :
    parse msg = .ok (commandOf (tokens msg)) ∧
    ((∃ cmd, parse msg = .ok cmd ∧ cmd.type = .NOOP ∧ cmd.argc = 0) ↔ tokens msg = []) ∧
    ∃ parser, getNextToken (parserInit msg) = .ok (parser, (tokens msg).head?) ∧
      getArgc parser = .ok ((tokens msg).length - 1) ∧
      ∃ parser', parseArgs parser ((tokens msg).length - 1) = .ok (parser', (tokens msg).tail) ∧
        ∃ parser'', getNextToken parser' = .ok (parser'', none) := by
  have hinit := parserInit_at msg
  have hparse : parse msg = .ok (commandOf (tokens msg)) ∧
      ∃ parser, getNextToken (parserInit msg) = .ok (parser, (tokens msg).head?) ∧
        getArgc parser = .ok ((tokens msg).length - 1) ∧
        ∃ parser', parseArgs parser ((tokens msg).length - 1) = .ok (parser', (tokens msg).tail) ∧
          ∃ parser'', getNextToken parser' = .ok (parser'', none) := by
    obtain ⟨parser, hnext, hstr, hat⟩ := getNextToken_spec hinit hnul
    have hmsg : parser.string = msg := hstr
    have hargc : getArgc parser = .ok ((tokens msg).length - 1) := by
      rw [getArgc_spec (hmsg.symm ▸ hnul), hmsg]
    cases htok : nextToken msg with
    | none =>
      rw [htok] at hnext hat
      obtain ⟨parser', hend⟩ := getNextToken_none hat (by simp) rfl
      rw [tokens_none htok] at hargc ⊢
      refine ⟨?_, parser, hnext, hargc, parser, rfl, parser', hend⟩
      rw [parse, hnext, ok_bind]
      dsimp only
      rw [hargc, ok_bind]
      rfl
    | some p =>
      obtain ⟨token, rest⟩ := p
      rw [htok] at hnext hat
      obtain ⟨parser', hargs, hend⟩ := parseArgs_spec hat fun hmem => hnul (nextToken_subset htok hmem)
      rw [Option.elim_some] at hargs
      rw [tokens_some htok, List.length_cons] at hargc ⊢
      refine ⟨?_, parser, hnext, hargc, parser', hargs, hend⟩
      have hcount : (((tokens rest).length + 1 : ℕ) : Int) - 1 = (tokens rest).length := by omega
      rw [parse, hnext, ok_bind]
      dsimp only
      rw [hargc, ok_bind, hcount, if_pos (Int.natCast_nonneg _), Option.map_some]
      dsimp only
      rw [Int.toNat_natCast, hargs, ok_bind]
      rfl
  obtain ⟨heq, hpasses⟩ := hparse
  refine ⟨heq, ⟨?_, fun hnil => ⟨⟨.NOOP, []⟩, by rw [heq, hnil]; rfl, rfl, rfl⟩⟩, hpasses⟩
  rintro ⟨cmd, hcmd, htype, -⟩
  cases htoks : tokens msg with
  | nil => rfl
  | cons token args =>
    rw [heq, htoks] at hcmd
    cases hcmd
    exact absurd htype (commandType_ne_noop token)

/-- Two literals without a blank between them, the second one open. -/
theorem parse_tokens_literals : commandOf (tokens (str "set \"a b\"'")) = ⟨.SET, [str "a b", []]⟩ := by
  have hnul : 0 ∉ str "set \"a b\"'" := by decide
  have hparse : parse (str "set \"a b\"'") = .ok ⟨.SET, [str "a b", []]⟩ := by decide +kernel
  exact Except.ok.inj ((parse_tokens _ hnul).1.symm.trans hparse)

/-! ### Quoting -/

/-- A token and a quote to write it in, of the two kinds one that the token does not contain. -/
structure Quoted where
  token : Bytes
  quote : UInt8
  literal : isQuote quote = true
  nulFree : 0 ∉ token
  avoids : quote ∉ token

/-- White space between two tokens. -/
structure Gap where
  bytes : Bytes
  ne : bytes ≠ []
  blank : ∀ c ∈ bytes, isSpace c = true

def Quoted.write (t : Quoted) : Bytes := t.quote :: t.token ++ [t.quote]

/-- The token contains neither quote. -/
def Quoted.Plain (t : Quoted) : Prop := ∀ c ∈ t.token, isQuote c = false

/-- The message of the tokens: the first one, and the others each after a gap. -/
def quotedMessage (first : Quoted) (rest : List (Gap × Quoted)) : Bytes :=
  first.write ++ rest.flatMap fun p => p.1.bytes ++ p.2.write

/-- `parse` reads the tokens back: the first one as the name of the command, the others as its arguments. -/
def ReadsBack (first : Quoted) (rest : List (Gap × Quoted)) : Prop :=
  ∃ parser, getNextToken (parserInit (quotedMessage first rest)) = .ok (parser, some first.token) ∧
    parse (quotedMessage first rest) = .ok ⟨commandType first.token, rest.map (·.2.token)⟩

section Quoting
variable {first : Quoted} {rest : List (Gap × Quoted)} {text gap : Bytes}

theorem takeWhile_stop {α : Type} {p : α → Bool} {c : α} (hc : p c = false) (l l' : List α) :
    (l ++ c :: l').takeWhile p = l.takeWhile p := by
  induction l with
  | nil => simp [hc]
  | cons d l ih => simp only [List.cons_append, List.takeWhile_cons, ih]

/-- The token that is read is cut at the first quote of either kind. -/
theorem nextToken_write (t : Quoted) (hgap : ∀ c ∈ gap, isSpace c = true) (text : Bytes) :
    nextToken (gap ++ t.write ++ text) = some (t.token.takeWhile (!isQuote ·),
      ((t.token ++ t.quote :: text).dropWhile (!isQuote ·)).drop 1) := by
  have hspace : isSpace t.quote = false := by
    have := t.literal
    simp only [isQuote, Bool.or_eq_true, decide_eq_true_eq] at this
    rcases this with hq | hq <;> rw [hq] <;> rfl
  have hskip : (gap ++ t.write ++ text).dropWhile isSpace = t.quote :: (t.token ++ t.quote :: text) := by
    rw [List.append_assoc, List.dropWhile_append_of_pos hgap]
    simp [Quoted.write, hspace]
  have hstop : (!isQuote t.quote) = false := by simp [t.literal]
  rw [nextToken_string hskip t.literal, takeWhile_stop (p := (!isQuote ·)) hstop]

/-- Only a plain token is read as it is. -/
theorem Quoted.plain_iff {t : Quoted} : t.Plain ↔ t.token.takeWhile (!isQuote ·) = t.token := by
  simp [Plain, List.takeWhile_eq_self_iff]

theorem tokens_write (t : Quoted) (hgap : ∀ c ∈ gap, isSpace c = true) (text : Bytes) :
    ∃ more, tokens (gap ++ t.write ++ text) = t.token.takeWhile (!isQuote ·) :: more ∧
      (t.Plain → more = tokens text) := by
  refine ⟨_, tokens_some (nextToken_write t hgap text), fun hplain => ?_⟩
  have hpos : ∀ c ∈ t.token, (!isQuote c) = true := fun c hc => by simp [hplain c hc]
  have hstop : (!isQuote t.quote) = false := by simp [t.literal]
  rw [List.dropWhile_append_of_pos hpos, List.dropWhile_cons, hstop]
  rfl

theorem tokens_gaps (rest : List (Gap × Quoted)) :
    tokens (rest.flatMap fun p => p.1.bytes ++ p.2.write) = rest.map (·.2.token) ↔
      ∀ p ∈ rest, p.2.Plain := by
  induction rest with
  | nil =>
    have hnil : tokens [] = [] := tokens_none rfl
    simp [hnil]
  | cons p rest ih =>
    obtain ⟨more, htoks, hmore⟩ := tokens_write p.2 p.1.blank (rest.flatMap fun p => p.1.bytes ++ p.2.write)
    rw [List.flatMap_cons, htoks, List.map_cons, List.cons_eq_cons, ← Quoted.plain_iff, List.forall_mem_cons]
    exact and_congr_right fun hplain => by rw [hmore hplain, ih]

theorem tokens_message : tokens (quotedMessage first rest) = first.token :: rest.map (·.2.token) ↔
    ∀ t ∈ first :: rest.map (·.2), t.Plain := by
  have hnone : ∀ c ∈ ([] : Bytes), isSpace c = true := by simp
  obtain ⟨more, htoks, hmore⟩ := tokens_write first hnone (rest.flatMap fun p => p.1.bytes ++ p.2.write)
  rw [List.nil_append] at htoks
  rw [quotedMessage, htoks, List.cons_eq_cons, ← Quoted.plain_iff, List.forall_mem_cons]
  refine and_congr_right fun hplain => ?_
  rw [hmore hplain, tokens_gaps, List.forall_mem_map]

theorem Quoted.nul_write (t : Quoted) : 0 ∉ t.write := by
  have hq : t.quote ≠ 0 := fun heq => absurd t.literal (by rw [heq]; decide)
  simp [Quoted.write, t.nulFree, hq.symm]

theorem nul_quotedMessage (first : Quoted) (rest : List (Gap × Quoted)) : 0 ∉ quotedMessage first rest := by
  rw [quotedMessage, List.mem_append, List.mem_flatMap]
  rintro (hmem | ⟨p, -, hmem⟩)
  · exact first.nul_write hmem
  · rcases List.mem_append.mp hmem with hmem | hmem
    · exact absurd (p.1.blank 0 hmem) (by decide)
    · exact p.2.nul_write hmem

/-- Quoted tokens are read back exactly when none of them contains a quote of the kind that it is not written
    in either. -/
theorem quoted_tokens_read_back (first : Quoted) (rest : List (Gap × Quoted)) :
    ReadsBack first rest ↔ ∀ t ∈ first :: rest.map (·.2), t.Plain := by
  obtain ⟨hparse, -, parser, hnext, -⟩ := parse_tokens _ (nul_quotedMessage first rest)
  rw [← tokens_message]
  constructor
  · rintro ⟨parser', hfirst, hcmd⟩
    rw [hnext, Except.ok.injEq, Prod.mk.injEq, List.head?_eq_some_iff] at hfirst
    obtain ⟨-, args, htoks⟩ := hfirst
    rw [hparse, htoks] at hcmd
    have hargs : args = rest.map (·.2.token) := congrArg Command.argv (Except.ok.inj hcmd)
    rw [htoks, hargs]
  · intro htoks
    rw [htoks] at hparse hnext
    exact ⟨parser, hnext, hparse⟩

end Quoting

/-- `"set" "k" "it's"` is read as `set k it` and an identifier after it. -/
theorem quoted_token_cut :
    ∃ first rest, quotedMessage first rest = str "\"set\" \"k\" \"it's\"" ∧ ¬ReadsBack first rest ∧
      parse (quotedMessage first rest) = .ok ⟨.SET, [str "k", str "it", str "s\""]⟩ := by
  let quoted (token : Bytes) (h : 0 ∉ token ∧ 34 ∉ token) : Quoted := ⟨token, 34, rfl, h.1, h.2⟩
  let blank : Gap := ⟨[32], by simp, by simp [isSpace]⟩
  have hread : parse (str "\"set\" \"k\" \"it's\"") = .ok ⟨.SET, [str "k", str "it", str "s\""]⟩ := by
    decide +kernel
  refine ⟨quoted (str "set") (by decide), [(blank, quoted (str "k") (by decide)),
    (blank, quoted (str "it's") (by decide))], rfl, ?_, hread⟩
  rintro ⟨-, -, hcmd⟩
  have heq := hread.symm.trans hcmd
  exact absurd (congrArg Command.argc (Except.ok.inj heq)) (by decide)

end MemKey
