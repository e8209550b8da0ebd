import Mathlib.Data.Nat.Digits.Defs
import Mathlib.Data.List.TakeWhile
import Kronos.Base.ByteString

/-!
# Formatted text

Reading formatted text from a character stream in the "C" locale: lines, tokens between white
space, decimal numbers, and strings that `std::quoted` wrote. A stream is the bytes that are left,
and `eofbit`. An extraction returns nothing when it sets `failbit`.

What is written is read back: a token up to the white space behind it (`readToken_eq`), a number
(`readUnsigned_eq`), and any byte string between quotes (`readQuoted_eq`).
-/

/-- A character stream without `failbit`: the bytes that are left, and `eofbit`. -/
structure TextStream where
  rest : Bytes
  eof : Bool
  deriving DecidableEq, Repr

namespace TextStream

/-- `isspace`. -/
def isSpace (c : UInt8) : Bool := (9 ≤ c && c ≤ 13) || c = 32

/-- `isdigit`. -/
def isDigit (c : UInt8) : Bool := 48 ≤ c && c ≤ 57

/-! ## Extraction -/

/-- A stream over the bytes of a file. -/
def ofBytes (bytes : Bytes) : TextStream := ⟨bytes, false⟩

/-- The stream behind the bytes that an extraction took; it has seen the end if it looked for more
of them there. -/
def after (rest : Bytes) : TextStream := ⟨rest, rest.isEmpty⟩

/-- The stream behind the white space that an extraction skips. -/
def skipSpace (s : TextStream) : TextStream :=
  ⟨s.rest.dropWhile isSpace, s.eof || (s.rest.dropWhile isSpace).isEmpty⟩

/-- `std::getline`, for a stream that has not seen its end: the bytes up to a newline, which is
dropped, or to the end. -/
def getline (s : TextStream) : Bytes × TextStream :=
  match s.rest.dropWhile (· ≠ 10) with
  | [] => (s.rest, ⟨[], true⟩)
  | _ :: rest => (s.rest.takeWhile (· ≠ 10), ⟨rest, s.eof⟩)

/-- `operator>>` for a string: the bytes up to the next white space. -/
def readToken (s : TextStream) : Option Bytes × TextStream :=
  let s' := s.skipSpace
  if s'.eof then (none, s')
  else (some (s'.rest.takeWhile (!isSpace ·)), after (s'.rest.dropWhile (!isSpace ·)))

/-- The number that decimal digits represent. -/
def ofDecimal (digits : Bytes) : ℕ := digits.foldl (fun n c => 10 * n + (c.toNat - 48)) 0

/-- `operator>>` for an unsigned number up to `bound`. A sign is accepted, and a minus negates
modulo `bound + 1`. -/
def readUnsigned (bound : ℕ) (s : TextStream) : Option ℕ × TextStream :=
  let s' := s.skipSpace
  if s'.eof then (none, s')
  else
    let negative := s'.rest.head? = some 45
    let unsigned := if s'.rest.head? = some 43 ∨ s'.rest.head? = some 45 then s'.rest.tail
      else s'.rest
    let digits := unsigned.takeWhile isDigit
    let behind := after (unsigned.dropWhile isDigit)
    if digits = [] then (none, behind)
    else if ofDecimal digits > bound then (none, behind)
    else if negative then (some ((bound + 1 - ofDecimal digits) % (bound + 1)), behind)
    else (some (ofDecimal digits), behind)

/-- The loop of `operator>>` for `std::quoted`, behind the opening quote: the bytes up to the
closing one, and what follows it. The byte behind a backslash is kept as it is. -/
def unquote (escaped : Bool) : Bytes → Option (Bytes × Bytes)
  | [] => none
  | c :: cs =>
    if !escaped && c = 92 then unquote true cs
    else if !escaped && c = 34 then some ([], cs)
    else (unquote false cs).map fun (text, rest) => (c :: text, rest)

/-- `operator>>` for `std::quoted`; a string without quotes is read as a token. -/
def readQuoted (s : TextStream) : Option Bytes × TextStream :=
  let s' := s.skipSpace
  if s'.eof then (none, s')
  else if s'.rest.head? = some 34 then
    match unquote false s'.rest.tail with
    | none => (none, ⟨[], true⟩)
    | some (text, rest) => (some text, ⟨rest, false⟩)
  else s'.readToken

/-- `std::from_chars` for an unsigned number up to `bound` in base ten. -/
inductive FromChars where
  /-- No digit stands at the beginning, or something else than a digit behind the digits. -/
  | invalid
  /-- The digits at the beginning represent a number above the bound. -/
  | outOfRange
  | parsed (n : ℕ)
  deriving DecidableEq, Repr

/-- `std::from_chars` over a whole token. -/
def fromChars (bound : ℕ) (token : Bytes) : FromChars :=
  let digits := token.takeWhile isDigit
  if digits = [] then .invalid
  else if ofDecimal digits > bound then .outOfRange
  else if token.dropWhile isDigit ≠ [] then .invalid
  else .parsed (ofDecimal digits)

/-! ## Insertion -/

/-- `operator<<` for an unsigned number: its decimal digits. -/
def decimal (n : ℕ) : Bytes :=
  if n = 0 then [48] else ((Nat.digits 10 n).reverse.map fun d => UInt8.ofNat (48 + d))

/-- The bytes between the quotes of `std::quoted`: quotes and backslashes get a backslash. -/
def escape : Bytes → Bytes
  | [] => []
  | c :: cs => if c = 34 ∨ c = 92 then 92 :: c :: escape cs else c :: escape cs

/-- `operator<<` for `std::quoted`. -/
def quoted (text : Bytes) : Bytes := 34 :: escape text ++ [34]

/-! ## What is written is read back -/

/-- A line is read up to its newline. -/
theorem getline_eq {line rest : Bytes} (h : ∀ c ∈ line, c ≠ 10) :
    getline (ofBytes (line ++ 10 :: rest)) = (line, ofBytes rest) := by
  have hdrop : (line ++ 10 :: rest).dropWhile (· ≠ 10) = 10 :: rest := by
    rw [List.dropWhile_append_of_pos (by simpa using h)]
    simp
  have htake : (line ++ 10 :: rest).takeWhile (· ≠ 10) = line := by
    rw [List.takeWhile_append_of_pos (by simpa using h)]
    simp
  unfold getline ofBytes
  dsimp only
  rw [hdrop, htake]

/-- White space is skipped up to what follows it. -/
theorem skipSpace_eq {space : Bytes} {c : UInt8} {rest : Bytes} (h : ∀ b ∈ space, isSpace b = true)
    (hc : isSpace c = false) : skipSpace (ofBytes (space ++ c :: rest)) = ofBytes (c :: rest) := by
  have hdrop : (space ++ c :: rest).dropWhile isSpace = c :: rest := by
    rw [List.dropWhile_append_of_pos h, List.dropWhile_cons_of_neg (by simp [hc])]
  unfold skipSpace ofBytes
  dsimp only
  rw [hdrop]
  rfl

/-- A token is read up to the white space behind it. -/
theorem readToken_eq {space token rest : Bytes} {c : UInt8} (h : ∀ b ∈ space, isSpace b = true)
    (hne : token ≠ []) (htoken : ∀ b ∈ token, isSpace b = false) (hc : isSpace c = true) :
    readToken (ofBytes (space ++ token ++ c :: rest)) = (some token, ofBytes (c :: rest)) := by
  obtain ⟨b, bs, rfl⟩ := List.exists_cons_of_ne_nil hne
  have hskip : skipSpace (ofBytes (space ++ (b :: bs) ++ c :: rest)) =
      ofBytes ((b :: bs) ++ c :: rest) := by
    rw [List.append_assoc]
    exact skipSpace_eq h (htoken b (.head _))
  have htake : ((b :: bs) ++ c :: rest).takeWhile (!isSpace ·) = b :: bs := by
    rw [List.takeWhile_append_of_pos (by simpa using htoken)]
    simp [hc]
  have hdrop : ((b :: bs) ++ c :: rest).dropWhile (!isSpace ·) = c :: rest := by
    rw [List.dropWhile_append_of_pos (by simpa using htoken)]
    simp [hc]
  unfold readToken
  rw [hskip]
  dsimp only [ofBytes]
  rw [htake, hdrop]
  rfl

/-- The digits of a number. -/
theorem isDigit_decimal (n : ℕ) : ∀ c ∈ decimal n, isDigit c = true := by
  intro c hc
  unfold decimal at hc
  split_ifs at hc with hn
  · rw [List.mem_singleton.1 hc]
    rfl
  · obtain ⟨d, hd, rfl⟩ := List.mem_map.1 hc
    have hlt : d < 10 := Nat.digits_lt_base (by norm_num) (List.mem_reverse.1 hd)
    have hcases : ∀ d < 10, isDigit (UInt8.ofNat (48 + d)) = true := by decide
    exact hcases d hlt

/-- A number has a digit. -/
theorem decimal_ne_nil (n : ℕ) : decimal n ≠ [] := by
  unfold decimal
  split_ifs with hn
  · simp
  · simpa using Nat.digits_ne_nil_iff_ne_zero.2 hn

/-- Reading digits from the left evaluates the little-endian digits. -/
theorem foldl_digits (ds : List ℕ) (h : ∀ d ∈ ds, d < 10) :
    (ds.reverse.map fun d => UInt8.ofNat (48 + d)).foldl (fun n c => 10 * n + (c.toNat - 48)) 0 =
      Nat.ofDigits 10 ds := by
  induction ds with
  | nil => rfl
  | cons d ds ih =>
    have hbyte : (UInt8.ofNat (48 + d)).toNat = 48 + d := by
      have hd := h d (.head _)
      rw [UInt8.toNat_ofNat']
      exact Nat.mod_eq_of_lt (by omega)
    rw [List.reverse_cons, List.map_append, List.foldl_append, ih fun d' hd' => h d' (.tail _ hd'),
      List.map_singleton, List.foldl_cons, List.foldl_nil, hbyte, Nat.ofDigits_cons]
    rw [Nat.add_sub_cancel_left, Nat.add_comm]

/-- The digits of a number represent it. -/
theorem ofDecimal_decimal (n : ℕ) : ofDecimal (decimal n) = n := by
  unfold ofDecimal decimal
  split_ifs with hn
  · rw [hn]
    rfl
  · calc ((Nat.digits 10 n).reverse.map fun d => UInt8.ofNat (48 + d)).foldl
          (fun n c => 10 * n + (c.toNat - 48)) 0
        = Nat.ofDigits 10 (Nat.digits 10 n) :=
          foldl_digits _ fun d hd => Nat.digits_lt_base (by norm_num) hd
      _ = n := Nat.ofDigits_digits 10 n

/-- A digit is no white space, and no sign. -/
theorem isSpace_of_isDigit {c : UInt8} (h : isDigit c = true) : isSpace c = false := by
  unfold isDigit at h
  unfold isSpace
  simp only [Bool.and_eq_true, decide_eq_true_eq, UInt8.le_iff_toNat_le, Bool.or_eq_false_iff,
    Bool.and_eq_false_iff, decide_eq_false_iff_not, ← UInt8.toNat_inj] at h ⊢
  obtain ⟨hlo, hhi⟩ := h
  have h48 : (48 : UInt8).toNat = 48 := rfl
  have h13 : (13 : UInt8).toNat = 13 := rfl
  have h32 : (32 : UInt8).toNat = 32 := rfl
  omega

/-- A number is read up to what follows it, if that is no digit. -/
theorem readUnsigned_eq {space rest : Bytes} {c : UInt8} {bound n : ℕ}
    (h : ∀ b ∈ space, isSpace b = true) (hn : n ≤ bound) (hc : isDigit c = false) :
    readUnsigned bound (ofBytes (space ++ decimal n ++ c :: rest)) =
      (some n, ofBytes (c :: rest)) := by
  have hdigits := isDigit_decimal n
  obtain ⟨d, ds, hdecimal⟩ := List.exists_cons_of_ne_nil (decimal_ne_nil n)
  have hd : isDigit d = true := hdigits d (by rw [hdecimal]; exact .head _)
  have hskip : skipSpace (ofBytes (space ++ decimal n ++ c :: rest)) =
      ofBytes (decimal n ++ c :: rest) := by
    rw [List.append_assoc, hdecimal]
    exact skipSpace_eq h (isSpace_of_isDigit hd)
  have hsign : d ≠ 43 ∧ d ≠ 45 := by
    constructor <;> rintro rfl <;> exact absurd hd (by decide)
  have hhead : (decimal n ++ c :: rest).head? = some d := by
    rw [hdecimal]
    rfl
  have htake : (decimal n ++ c :: rest).takeWhile isDigit = decimal n := by
    rw [List.takeWhile_append_of_pos hdigits, List.takeWhile_cons_of_neg (by simp [hc]),
      List.append_nil]
  have hdrop : (decimal n ++ c :: rest).dropWhile isDigit = c :: rest := by
    rw [List.dropWhile_append_of_pos hdigits, List.dropWhile_cons_of_neg (by simp [hc])]
  unfold readUnsigned
  rw [hskip]
  simp only [ofBytes, hhead, Option.some.injEq, hsign.1, hsign.2, or_self, if_false, htake,
    hdrop, decimal_ne_nil, ofDecimal_decimal, Nat.not_lt.2 hn, Bool.false_eq_true]
  rfl

/-- A whole token of digits is read as its number. -/
theorem fromChars_decimal {bound n : ℕ} (hn : n ≤ bound) :
    fromChars bound (decimal n) = .parsed n := by
  have htake : (decimal n).takeWhile isDigit = decimal n :=
    List.takeWhile_eq_self_iff.2 (isDigit_decimal n)
  have hdrop : (decimal n).dropWhile isDigit = [] :=
    List.dropWhile_eq_nil_iff.2 (isDigit_decimal n)
  unfold fromChars
  dsimp only
  rw [htake, hdrop, if_neg (decimal_ne_nil n), ofDecimal_decimal, if_neg (Nat.not_lt.2 hn),
    if_neg (by simp)]

/-- What stands between quotes is read up to the closing one. -/
theorem unquote_escape (text rest : Bytes) :
    unquote false (escape text ++ 34 :: rest) = some (text, rest) := by
  induction text with
  | nil => rfl
  | cons c cs ih =>
    unfold escape
    split_ifs with hc
    · -- The backslash is dropped, and the byte behind it kept.
      rw [List.cons_append, List.cons_append, unquote, if_pos (by rfl), unquote, if_neg (by simp),
        if_neg (by simp), ih]
      rfl
    · push Not at hc
      rw [List.cons_append, unquote, if_neg (by simpa using hc.2), if_neg (by simpa using hc.1), ih]
      rfl

/-- Every byte string is read back from its quotes. -/
theorem readQuoted_eq {space rest : Bytes} (text : Bytes) (h : ∀ b ∈ space, isSpace b = true) :
    readQuoted (ofBytes (space ++ quoted text ++ rest)) = (some text, ofBytes rest) := by
  have hskip : skipSpace (ofBytes (space ++ quoted text ++ rest)) =
      ofBytes (34 :: (escape text ++ 34 :: rest)) := by
    have hsplit : space ++ quoted text ++ rest = space ++ 34 :: (escape text ++ 34 :: rest) := by
      simp [quoted]
    rw [hsplit]
    exact skipSpace_eq h (by decide)
  unfold readQuoted
  rw [hskip]
  dsimp only [ofBytes, List.head?_cons, List.tail_cons]
  rw [unquote_escape]
  rfl

end TextStream
