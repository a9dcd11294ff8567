import MemKey.Lib.Decimal

/-! The replies of the Redis serialization protocol that a server of flat values sends: a scalar, an array of
    scalars, or an error line. A decoder reads one reply off a byte string, and undoes the encoder whatever
    bytes the strings contain and whatever follows. -/

namespace Resp

def cr : UInt8 := 13
def lf : UInt8 := 10
def dollar : UInt8 := 36
def star : UInt8 := 42
def colon : UInt8 := 58
def dash : UInt8 := 45

/-- The end of a line. -/
def eol : List UInt8 := [cr, lf]

/-- What every error line starts with. -/
def errTag : List UInt8 := [69, 82, 82, 32]

/-- The text of an error: one line with the tag. -/
abbrev ErrorLine := { l : List UInt8 // l.take 4 = errTag ∧ cr ∉ l ∧ lf ∉ l }

inductive Scalar where
  | nil
  | bulk (s : List UInt8)
  | int (x : ℤ)
  deriving DecidableEq, Repr

inductive Reply where
  | scalar (s : Scalar)
  | array (l : List Scalar)
  | error (line : ErrorLine)
  deriving DecidableEq

/-- The text of a scalar: a bulk string as its bytes, an integer in decimal. -/
def Scalar.text : Scalar → Option (List UInt8)
  | nil => none
  | bulk s => some s
  | int x => some (Decimal.int x)

def Scalar.encode : Scalar → List UInt8
  | nil => dollar :: Decimal.int (-1) ++ eol
  | bulk s => dollar :: Decimal.int s.length ++ eol ++ s ++ eol
  | int x => colon :: Decimal.int x ++ eol

def Reply.encode : Reply → List UInt8
  | scalar s => s.encode
  | array l => star :: Decimal.int l.length ++ eol ++ l.flatMap Scalar.encode
  | error line => dash :: line.val ++ eol

/-! ### Decoding -/

/-- The bytes up to the first end of a line, and those after it. -/
def line : List UInt8 → Option (List UInt8 × List UInt8)
  | [] => none
  | b :: t =>
    if b = cr ∧ t.head? = some lf then some ([], t.tail) else (line t).map fun p => (b :: p.1, p.2)

/-- A line with an integer. -/
def intLine (t : List UInt8) : Option (ℤ × List UInt8) := do
  let (l, t) ← line t
  some (← Decimal.readInt l, t)

def Scalar.decode : List UInt8 → Option (Scalar × List UInt8)
  | [] => none
  | b :: t =>
    if b = dollar then do
      let (n, t) ← intLine t
      if n = -1 then some (nil, t)
      else if 0 ≤ n ∧ (t.drop n.toNat).take 2 = eol then some (bulk (t.take n.toNat), t.drop (n.toNat + 2))
      else none
    else if b = colon then do
      let (x, t) ← intLine t
      some (int x, t)
    else none

/-- `n` scalars. -/
def scalars : ℕ → List UInt8 → Option (List Scalar × List UInt8)
  | 0, t => some ([], t)
  | n + 1, t => do
    let (s, t) ← Scalar.decode t
    let (l, t) ← scalars n t
    some (s :: l, t)

/-- One reply, and the bytes left over. -/
def Reply.decode : List UInt8 → Option (Reply × List UInt8)
  | [] => none
  | b :: t =>
    if b = star then do
      let (n, t) ← intLine t
      if 0 ≤ n then do
        let (l, t) ← scalars n.toNat t
        some (array l, t)
      else none
    else if b = dash then do
      let (l, t) ← line t
      if h : l.take 4 = errTag ∧ cr ∉ l ∧ lf ∉ l then some (error ⟨l, h⟩, t) else none
    else do
      let (s, t) ← Scalar.decode (b :: t)
      some (scalar s, t)

theorem line_append {l : List UInt8} (h : cr ∉ l) (rest : List UInt8) : line (l ++ eol ++ rest) = some (l, rest) := by
  induction l with
  | nil => simp [line, eol]
  | cons b l ih =>
    simp only [List.mem_cons, not_or] at h
    rw [List.cons_append, List.cons_append, line, if_neg fun hb => h.1 hb.1.symm, ih h.2]
    rfl

theorem cr_notMem_int (x : ℤ) : cr ∉ Decimal.int x := fun h => by
  rcases Decimal.mem_int h with h | h <;> exact absurd h (by decide)

theorem intLine_append (x : ℤ) (rest : List UInt8) :
    intLine (Decimal.int x ++ eol ++ rest) = some (x, rest) := by
  rw [intLine, line_append (cr_notMem_int x)]
  simp only [Option.bind_eq_bind, Option.bind_some, Decimal.readInt_int]

theorem Scalar.decode_encode (s : Scalar) (rest : List UInt8) : decode (s.encode ++ rest) = some (s, rest) := by
  cases s with
  | nil =>
    have hline := intLine_append (-1) rest
    simp only [encode, List.cons_append, decode, if_true, hline, Option.bind_eq_bind, Option.bind_some]
  | bulk s =>
    have hline := intLine_append s.length (s ++ eol ++ rest)
    have hneg : (s.length : ℤ) ≠ -1 := by omega
    have hend : ((s ++ eol ++ rest).drop s.length).take 2 = eol := by simp [eol]
    have hrest : (s ++ eol ++ rest).drop (s.length + 2) = rest := by simp [eol]
    simp only [List.append_assoc] at hline hend hrest
    simp only [encode, List.cons_append, List.append_assoc, decode, if_true, hline, Option.bind_eq_bind,
      Option.bind_some, hneg, if_false, Int.toNat_natCast, hend, hrest, Nat.cast_nonneg, and_self,
      List.take_left]
  | int x =>
    have hline := intLine_append x rest
    have hne : colon ≠ dollar := by decide
    simp only [encode, List.cons_append, decode, hne, if_false, if_true, hline, Option.bind_eq_bind,
      Option.bind_some]

theorem scalars_encode (l : List Scalar) (rest : List UInt8) :
    scalars l.length (l.flatMap Scalar.encode ++ rest) = some (l, rest) := by
  induction l with
  | nil => rfl
  | cons s l ih =>
    rw [List.flatMap_cons, List.append_assoc, List.length_cons, scalars, Scalar.decode_encode]
    simp only [Option.bind_eq_bind, Option.bind_some, ih]

theorem Scalar.head_encode (s : Scalar) : ∃ b t, s.encode = b :: t ∧ (b = dollar ∨ b = colon) := by
  cases s with
  | nil => exact ⟨_, _, rfl, .inl rfl⟩
  | bulk s => exact ⟨_, _, rfl, .inl rfl⟩
  | int x => exact ⟨_, _, rfl, .inr rfl⟩

/-- Decoding undoes encoding and leaves what follows the reply. -/
theorem Reply.decode_encode (r : Reply) (rest : List UInt8) : decode (r.encode ++ rest) = some (r, rest) := by
  cases r with
  | scalar s =>
    obtain ⟨b, t, henc, hb⟩ := s.head_encode
    have hdec := Scalar.decode_encode s rest
    rw [henc] at hdec
    have hstar : b ≠ star := by rcases hb with rfl | rfl <;> decide
    have hdash : b ≠ dash := by rcases hb with rfl | rfl <;> decide
    rw [encode, henc, List.cons_append, decode, if_neg hstar, if_neg hdash, ← List.cons_append, hdec]
    rfl
  | array l =>
    have hline := intLine_append l.length (l.flatMap Scalar.encode ++ rest)
    simp only [List.append_assoc] at hline
    simp only [encode, List.cons_append, List.append_assoc, decode, if_true, hline, Option.bind_eq_bind,
      Option.bind_some, Nat.cast_nonneg, Int.toNat_natCast, scalars_encode]
  | error l =>
    obtain ⟨l, hl⟩ := l
    have hline := line_append hl.2.1 rest
    have hne : dash ≠ star := by decide
    rw [encode, List.cons_append, List.cons_append, decode, if_neg hne, if_pos rfl, hline]
    simp only [Option.bind_eq_bind, Option.bind_some, dif_pos hl]

theorem Reply.encode_inj {r r' : Reply} : r.encode = r'.encode ↔ r = r' := by
  refine ⟨fun h => ?_, congrArg encode⟩
  have hdec := decode_encode r []
  rw [h, decode_encode] at hdec
  exact (Prod.mk.inj (Option.some.inj hdec)).1.symm

end Resp
