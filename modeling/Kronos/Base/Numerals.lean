import Kronos.Base.TextGrammar

/-!
# Conversions of strings to numbers

`std::stoi` and `std::stoull` in base ten, for an `int` of 32 bits and an `unsigned long long` of
64. Both take white space, a sign and digits from the beginning of a string, as `strtol` and
`strtoull` do, and ignore what is behind the digits (`stoi_eq`, `stoull_eq`). `IsDecimal` says that
a whole string is an integer.
-/

namespace TextStream

/-- How a conversion ends: with `std::invalid_argument`, with `std::out_of_range`, or with a
number. -/
inductive Conversion (α : Type) where
  | invalidArgument
  | outOfRange
  | value (a : α)
  deriving DecidableEq, Repr

/-- The sign and the digits at the beginning of a string, behind white space. -/
def splitNumber (text : Bytes) : Bytes × Bytes :=
  let behind := text.dropWhile isSpace
  let sign := if behind.head? = some 43 ∨ behind.head? = some 45 then behind.take 1 else []
  (sign, (behind.drop sign.length).takeWhile isDigit)

/-- The integer that a sign and digits represent. -/
def integerOf (sign digits : Bytes) : ℤ :=
  if sign = [45] then -(ofDecimal digits : ℤ) else ofDecimal digits

/-- `std::stoi`. -/
def stoi (text : Bytes) : Conversion ℤ :=
  let (sign, digits) := splitNumber text
  if digits = [] then .invalidArgument
  else if integerOf sign digits < -2^31 ∨ 2^31 - 1 < integerOf sign digits then .outOfRange
  else .value (integerOf sign digits)

/-- `std::stoull`. The digits have to be in range, and a minus negates modulo `2^64`. -/
def stoull (text : Bytes) : Conversion ℕ :=
  let (sign, digits) := splitNumber text
  if digits = [] then .invalidArgument
  else if 2^64 - 1 < ofDecimal digits then .outOfRange
  else .value (signedValue (2^64 - 1) sign digits)

/-- The sign and the digits are those of the text. -/
theorem splitNumber_eq {text space sign digits rest : Bytes}
    (h : NumberText text space sign digits rest) : splitNumber text = (sign, digits) := by
  have hbehind : text.dropWhile isSpace = sign ++ (digits ++ rest) := by
    rw [h.split]
    exact (span_eq h.allSpace h.behind_space).2
  have hdigits : (digits ++ rest).takeWhile isDigit = digits := (span_eq h.allDigits h.ends).1
  unfold splitNumber
  rw [hbehind]
  rcases h.isSign with rfl | rfl | rfl
  · obtain ⟨hplus, hminus⟩ := h.head_of_unsigned
    dsimp only [List.nil_append]
    rw [if_neg (not_or.2 ⟨hplus, hminus⟩), List.length_nil, List.drop_zero, hdigits]
  · exact congrArg (Prod.mk [43]) hdigits
  · exact congrArg (Prod.mk [45]) hdigits

/-- What `std::stoi` reads of a text. -/
theorem stoi_eq {text space sign digits rest : Bytes} (h : NumberText text space sign digits rest) :
    stoi text = if digits = [] then .invalidArgument
      else if integerOf sign digits < -2^31 ∨ 2^31 - 1 < integerOf sign digits then .outOfRange
      else .value (integerOf sign digits) := by
  rw [stoi, splitNumber_eq h]

/-- What `std::stoull` reads of a text. -/
theorem stoull_eq {text space sign digits rest : Bytes}
    (h : NumberText text space sign digits rest) :
    stoull text = if digits = [] then .invalidArgument
      else if 2^64 - 1 < ofDecimal digits then .outOfRange
      else .value (signedValue (2^64 - 1) sign digits) := by
  rw [stoull, splitNumber_eq h]

/-! ## Integers -/

/-- A whole text is an integer: a sign or none, and digits. -/
inductive IsDecimal : Bytes → ℤ → Prop where
  | intro {sign digits : Bytes} : sign = [] ∨ sign = [43] ∨ sign = [45] → digits ≠ [] →
    (∀ b ∈ digits, isDigit b = true) → IsDecimal (sign ++ digits) (integerOf sign digits)

/-- The parts of a text that is an integer. -/
theorem numberText_of_decimal {sign digits : Bytes} (hsign : sign = [] ∨ sign = [43] ∨ sign = [45])
    (hne : digits ≠ []) (hdigits : ∀ b ∈ digits, isDigit b = true) :
    NumberText (sign ++ digits) [] sign digits [] where
  split := by simp
  allSpace := nofun
  isSign := hsign
  allDigits := hdigits
  ends := nofun
  starts := fun _ hnil => absurd hnil hne

/-- The parts of a text are those into which it splits. -/
theorem NumberText.parts_eq {text space sign digits rest space' sign' digits' rest' : Bytes}
    (h : NumberText text space sign digits rest)
    (h' : NumberText text space' sign' digits' rest') :
    space = space' ∧ sign = sign' ∧ digits = digits' ∧ rest = rest' := by
  obtain ⟨rfl, rfl⟩ := Prod.mk.inj ((splitNumber_eq h).symm.trans (splitNumber_eq h'))
  have hspace : space = space' := by
    have htake := (span_eq h.allSpace h.behind_space).1
    have htake' := (span_eq h'.allSpace h'.behind_space).1
    rw [← h.split] at htake
    rw [← h'.split] at htake'
    exact htake.symm.trans htake'
  subst hspace
  have hsplit := h.split.symm.trans h'.split
  exact ⟨rfl, rfl, rfl, by simpa using hsplit⟩

/-- A text is an integer exactly when there is nothing before its sign, and nothing behind its
digits. -/
theorem NumberText.isDecimal_iff {text space sign digits rest : Bytes}
    (h : NumberText text space sign digits rest) {n : ℤ} : IsDecimal text n ↔
      space = [] ∧ rest = [] ∧ digits ≠ [] ∧ n = integerOf sign digits := by
  constructor
  · rintro ⟨hsign, hne, hdigits⟩
    obtain ⟨rfl, rfl, rfl, rfl⟩ := h.parts_eq (numberText_of_decimal hsign hne hdigits)
    exact ⟨rfl, rfl, hne, rfl⟩
  · rintro ⟨rfl, rfl, hne, rfl⟩
    have hsplit : text = sign ++ digits := by simpa using h.split
    rw [hsplit]
    exact .intro h.isSign hne h.allDigits

end TextStream
