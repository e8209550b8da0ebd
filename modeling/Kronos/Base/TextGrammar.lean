import Kronos.Base.TextStream

/-!
# What an extraction reads

The texts that the extractions of `Kronos.Base.TextStream` accept, and what each of them takes: a
number with its sign and its digits (`readUnsigned_eq_split`), a field that is quoted or goes on to
the next white space (`readQuoted_iff`), and a token (`readToken_iff`). Each says how the text
splits, and so what is behind the extraction.
-/

namespace TextStream

/-- A stream that has seen its end has nothing left. What it reads depends on what is left only. -/
def Consistent (s : TextStream) : Prop := s.eof = true → s.rest = []

/-- The rest of a text is empty, or begins with a byte of another kind. -/
def EndsBefore (p : UInt8 → Bool) (rest : Bytes) : Prop := ∀ c ∈ rest.head?, p c = false

/-- A stream over a text is consistent before anything is read. -/
theorem consistent_ofBytes (bytes : Bytes) : (ofBytes bytes).Consistent := nofun

/-- So is one behind a token. -/
theorem consistent_after (rest : Bytes) : (after rest).Consistent := List.isEmpty_iff.1

/-! ## Splitting a text -/

/-- A text splits into the bytes of a kind at its beginning, and a rest that begins with another. -/
theorem exists_span (p : UInt8 → Bool) (text : Bytes) :
    ∃ a rest, text = a ++ rest ∧ (∀ b ∈ a, p b = true) ∧ EndsBefore p rest := by
  refine ⟨text.takeWhile p, text.dropWhile p, List.takeWhile_append_dropWhile.symm,
    fun b hb => List.mem_takeWhile_imp hb, fun c hc => ?_⟩
  have h := List.head?_dropWhile_not p text
  rw [Option.mem_def.1 hc] at h
  exact h

/-- It does so in one way. -/
theorem span_eq {p : UInt8 → Bool} {a rest : Bytes} (ha : ∀ b ∈ a, p b = true)
    (hrest : EndsBefore p rest) :
    (a ++ rest).takeWhile p = a ∧ (a ++ rest).dropWhile p = rest := by
  rw [List.takeWhile_append_of_pos ha, List.dropWhile_append_of_pos ha]
  cases rest with
  | nil => exact ⟨List.append_nil a, rfl⟩
  | cons c rest =>
    have hc : p c = false := hrest c rfl
    rw [List.takeWhile_cons_of_neg (by simp [hc]), List.dropWhile_cons_of_neg (by simp [hc]),
      List.append_nil]
    exact ⟨rfl, rfl⟩

/-- White space is skipped up to what is behind it. -/
theorem Consistent.skipSpace_eq {s : TextStream} (hs : s.Consistent) {space rest : Bytes}
    (hsplit : s.rest = space ++ rest) (hspace : ∀ b ∈ space, isSpace b = true)
    (hrest : EndsBefore isSpace rest) : s.skipSpace = after rest := by
  have hdrop : s.rest.dropWhile isSpace = rest := by rw [hsplit, (span_eq hspace hrest).2]
  rw [skipSpace, hdrop, after]
  cases heof : s.eof with
  | false => rw [Bool.false_or]
  | true =>
    have hnil : rest = [] := (List.append_eq_nil_iff.1 (hsplit.symm.trans (hs heof))).2
    rw [hnil]
    rfl

/-! ## Lines and tokens -/

/-- A line goes up to a newline, or to the end. -/
theorem getline_cases (text : Bytes) :
    (∃ line rest, text = line ++ 10 :: rest ∧ (∀ c ∈ line, c ≠ 10) ∧
      getline (ofBytes text) = (line, ofBytes rest)) ∨
    (∀ c ∈ text, c ≠ 10) ∧ getline (ofBytes text) = (text, ⟨[], true⟩) := by
  obtain ⟨line, rest, rfl, hline, hrest⟩ := exists_span (· ≠ 10) text
  have hline : ∀ c ∈ line, c ≠ 10 := fun c hc => of_decide_eq_true (hline c hc)
  cases rest with
  | nil =>
    right
    rw [List.append_nil]
    have hdrop : line.dropWhile (· ≠ 10) = [] :=
      List.dropWhile_eq_nil_iff.2 fun c hc => by simpa using hline c hc
    refine ⟨hline, ?_⟩
    unfold getline ofBytes
    dsimp only
    rw [hdrop]
  | cons c rest =>
    obtain rfl : c = 10 := by simpa using hrest c rfl
    exact .inl ⟨line, rest, rfl, hline, getline_eq hline⟩

/-- A token is what stands up to the next white space, or up to the end. -/
theorem readToken_iff {s s' : TextStream} (hs : s.Consistent) {token : Bytes} :
    s.readToken = (some token, s') ↔ ∃ space rest, s.rest = space ++ (token ++ rest) ∧
      (∀ b ∈ space, isSpace b = true) ∧ token ≠ [] ∧ (∀ b ∈ token, isSpace b = false) ∧
      EndsBefore (!isSpace ·) rest ∧ s' = after rest := by
  constructor
  · intro h
    obtain ⟨space, behind, hsplit, hspace, hbehind⟩ := exists_span isSpace s.rest
    unfold readToken at h
    rw [hs.skipSpace_eq hsplit hspace hbehind] at h
    obtain ⟨token', rest, rfl, htoken, hrest⟩ := exists_span (!isSpace ·) behind
    dsimp only [after] at h
    rw [(span_eq htoken hrest).1, (span_eq htoken hrest).2] at h
    split_ifs at h with hempty
    · cases h
    obtain ⟨htok, hs'⟩ := Prod.mk.inj h
    cases htok
    refine ⟨space, rest, hsplit, hspace, ?_, fun b hb => by simpa using htoken b hb, hrest,
      hs'.symm⟩
    rintro rfl
    -- Without a token, the rest begins with white space and with something else.
    cases rest with
    | nil => exact hempty rfl
    | cons c rest =>
      have hspace : (!isSpace c) = false := hrest c rfl
      have hnot : isSpace c = false := hbehind c rfl
      rw [hnot] at hspace
      cases hspace
  · rintro ⟨space, rest, hsplit, hspace, hne, htoken, hrest, rfl⟩
    obtain ⟨c, cs, rfl⟩ := List.exists_cons_of_ne_nil hne
    have hbehind : EndsBefore isSpace ((c :: cs) ++ rest) := by
      intro c' hc'
      cases hc'
      exact htoken c (.head _)
    have htoken' : ∀ b ∈ c :: cs, (!isSpace b) = true := fun b hb => by simp [htoken b hb]
    unfold readToken
    rw [hs.skipSpace_eq hsplit hspace hbehind]
    dsimp only [after]
    rw [(span_eq htoken' hrest).1, (span_eq htoken' hrest).2, if_neg (by simp)]

/-- A whole token is a number when it has digits only. -/
theorem fromChars_parsed_iff {bound n : ℕ} {token : Bytes} : fromChars bound token = .parsed n ↔
    token ≠ [] ∧ (∀ b ∈ token, isDigit b = true) ∧ ofDecimal token ≤ bound ∧
      n = ofDecimal token := by
  obtain ⟨digits, rest, rfl, hdigits, hrest⟩ := exists_span isDigit token
  unfold fromChars
  dsimp only
  rw [(span_eq hdigits hrest).1, (span_eq hdigits hrest).2]
  constructor
  · intro h
    split_ifs at h with hnil hbound hbehind
    cases h
    rw [not_not.1 hbehind, List.append_nil]
    exact ⟨hnil, hdigits, not_lt.1 hbound, rfl⟩
  · rintro ⟨hne, hall, hbound, rfl⟩
    -- A rest would begin with something else than a digit.
    have hnil : rest = [] := by
      cases rest with
      | nil => rfl
      | cons c rest =>
        have hdigit := hall c (by simp)
        rw [hrest c rfl] at hdigit
        cases hdigit
    subst hnil
    rw [List.append_nil] at hne hbound ⊢
    rw [if_neg hne, if_neg (not_lt.2 hbound), if_neg (not_not.2 rfl)]

/-! ## Numbers -/

/-- A text that begins with white space, a sign or none, and digits up to a rest. -/
structure NumberText (text space sign digits rest : Bytes) : Prop where
  split : text = space ++ (sign ++ (digits ++ rest))
  allSpace : ∀ b ∈ space, isSpace b = true
  isSign : sign = [] ∨ sign = [43] ∨ sign = [45]
  allDigits : ∀ b ∈ digits, isDigit b = true
  ends : EndsBefore isDigit rest
  starts : sign = [] → digits = [] → EndsBefore (fun c => isSpace c || c = 43 || c = 45) rest

/-- The value of a sign and digits: a minus negates modulo `bound + 1`. -/
def signedValue (bound : ℕ) (sign digits : Bytes) : ℕ :=
  if sign = [45] then (bound + 1 - ofDecimal digits) % (bound + 1) else ofDecimal digits

/-- Every text splits so. -/
theorem exists_numberText (text : Bytes) :
    ∃ space sign digits rest, NumberText text space sign digits rest := by
  obtain ⟨space, behind, rfl, hspace, hbehind⟩ := exists_span isSpace text
  have hsplit : ∃ sign unsigned, behind = sign ++ unsigned ∧
      (sign = [] ∨ sign = [43] ∨ sign = [45]) ∧
      (sign = [] → EndsBefore (fun c => isSpace c || c = 43 || c = 45) unsigned) := by
    cases behind with
    | nil => exact ⟨[], [], rfl, .inl rfl, fun _ c hc => nomatch hc⟩
    | cons c behind =>
      by_cases hplus : c = 43
      · exact ⟨[43], behind, by rw [hplus]; rfl, .inr (.inl rfl), nofun⟩
      by_cases hminus : c = 45
      · exact ⟨[45], behind, by rw [hminus]; rfl, .inr (.inr rfl), nofun⟩
      refine ⟨[], c :: behind, rfl, .inl rfl, fun _ c' hc' => ?_⟩
      cases hc'
      have hc := hbehind c rfl
      simp [hc, hplus, hminus]
  obtain ⟨sign, unsigned, rfl, hsign, hstarts⟩ := hsplit
  obtain ⟨digits, rest, rfl, hdigits, hrest⟩ := exists_span isDigit unsigned
  refine ⟨space, sign, digits, rest, rfl, hspace, hsign, hdigits, hrest, fun hnone hnil => ?_⟩
  rw [hnil] at hstarts
  exact hstarts hnone

/-- The white space ends where the sign or the digits begin. -/
theorem NumberText.behind_space {text space sign digits rest : Bytes}
    (h : NumberText text space sign digits rest) :
    EndsBefore isSpace (sign ++ (digits ++ rest)) := by
  intro c hc
  rcases h.isSign with rfl | rfl | rfl
  · cases digits with
    | nil =>
      have hstarts := h.starts rfl rfl c hc
      simp only [Bool.or_eq_false_iff] at hstarts
      exact hstarts.1.1
    | cons d digits =>
      cases hc
      exact isSpace_of_isDigit (h.allDigits c (.head _))
  · cases hc
    decide
  · cases hc
    decide

/-- Without a sign, none stands behind the white space. -/
theorem NumberText.head_of_unsigned {text space digits rest : Bytes}
    (h : NumberText text space [] digits rest) :
    (digits ++ rest).head? ≠ some 43 ∧ (digits ++ rest).head? ≠ some 45 := by
  cases digits with
  | nil =>
    have hstarts := h.starts rfl rfl
    constructor
    · intro hplus
      exact absurd (hstarts 43 hplus) (by decide)
    · intro hminus
      exact absurd (hstarts 45 hminus) (by decide)
  | cons d digits =>
    have hd := h.allDigits d (.head _)
    constructor
    · intro hplus
      cases hplus
      exact absurd hd (by decide)
    · intro hminus
      cases hminus
      exact absurd hd (by decide)

/-- A number is read where there are digits, and they do not exceed the bound. -/
theorem readUnsigned_eq_split {s : TextStream} (hs : s.Consistent) {space sign digits rest : Bytes}
    (h : NumberText s.rest space sign digits rest) (bound : ℕ) :
    s.readUnsigned bound =
      (if digits = [] ∨ bound < ofDecimal digits then none
        else some (signedValue bound sign digits), after rest) := by
  have htake := (span_eq h.allDigits h.ends).1
  have hdrop := (span_eq h.allDigits h.ends).2
  unfold readUnsigned
  rw [hs.skipSpace_eq h.split h.allSpace h.behind_space]
  have hlast : ∀ negative : Bool, (if digits = [] then (none, after rest)
      else if ofDecimal digits > bound then (none, after rest)
      else if negative = true then
        (some ((bound + 1 - ofDecimal digits) % (bound + 1)), after rest)
      else (some (ofDecimal digits), after rest)) =
      (if digits = [] ∨ bound < ofDecimal digits then none
        else some (if negative = true then (bound + 1 - ofDecimal digits) % (bound + 1)
          else ofDecimal digits), after rest) := by
    intro negative
    by_cases hnil : digits = []
    · rw [if_pos hnil, if_pos (.inl hnil)]
    by_cases hbound : ofDecimal digits > bound
    · rw [if_neg hnil, if_pos hbound, if_pos (.inr hbound)]
    rw [if_neg hnil, if_neg hbound, if_neg (not_or.2 ⟨hnil, hbound⟩)]
    cases negative <;> rfl
  rcases h.isSign with rfl | rfl | rfl
  · -- Without a sign, the text begins with a digit, or with nothing that is read.
    have hhead := h.head_of_unsigned
    by_cases hempty : digits ++ rest = []
    · obtain ⟨rfl, rfl⟩ := List.append_eq_nil_iff.1 hempty
      rfl
    · have hnot : ¬(after ([] ++ (digits ++ rest))).eof = true := by
        simpa [after] using hempty
      have hlast := hlast false
      simp only [Bool.false_eq_true, if_false] at hlast
      dsimp only
      rw [if_neg hnot]
      simp only [after, List.nil_append, hhead.1, hhead.2, or_self, if_false, htake, hdrop]
      simp only [signedValue, List.nil_eq, reduceCtorEq, if_false]
      exact hlast
  · have hlast := hlast false
    simp only [Bool.false_eq_true, if_false] at hlast
    simp only [after, List.cons_append, List.nil_append, List.isEmpty_cons, Bool.false_eq_true,
      if_false, List.head?_cons, List.tail_cons, true_or, if_true, htake, hdrop]
    simpa [signedValue, after] using hlast
  · have hlast := hlast true
    simp only [if_true] at hlast
    simp only [after, List.cons_append, List.nil_append, List.isEmpty_cons, Bool.false_eq_true,
      if_false, List.head?_cons, List.tail_cons, or_true, if_true, htake, hdrop]
    simpa [signedValue, after] using hlast

/-! ## Fields -/

/-- What stands between quotes, and the text that it represents: a backslash stands before each
quote and each backslash, and may stand before other bytes. -/
inductive Escaped : Bytes → Bytes → Prop where
  | nil : Escaped [] []
  | plain {c : UInt8} {body value : Bytes} : c ≠ 34 → c ≠ 92 → Escaped body value →
    Escaped (c :: body) (c :: value)
  | escape {c : UInt8} {body value : Bytes} : Escaped body value →
    Escaped (92 :: c :: body) (c :: value)

/-- The bytes up to the closing quote. -/
theorem unquote_iff (text : Bytes) : ∀ {value rest : Bytes},
    (unquote false text = some (value, rest) ↔
      ∃ body, Escaped body value ∧ text = body ++ 34 :: rest) ∧
    (unquote true text = some (value, rest) ↔
      ∃ c body value', Escaped body value' ∧ value = c :: value' ∧
        text = c :: (body ++ 34 :: rest)) := by
  induction text with
  | nil =>
    intro value rest
    simp [unquote]
  | cons c text ih =>
    intro value rest
    have hescaped : unquote true (c :: text) = some (value, rest) ↔
        ∃ c' body value', Escaped body value' ∧ value = c' :: value' ∧
          c :: text = c' :: (body ++ 34 :: rest) := by
      rw [unquote, if_neg (by simp), if_neg (by simp), Option.map_eq_some_iff]
      constructor
      · rintro ⟨⟨value', rest'⟩, hread, heq⟩
        cases heq
        obtain ⟨body, hbody, rfl⟩ := ih.1.1 hread
        exact ⟨c, body, value', hbody, rfl, rfl⟩
      · rintro ⟨c', body, value', hbody, rfl, heq⟩
        obtain ⟨rfl, rfl⟩ := List.cons.inj heq
        exact ⟨(value', rest), ih.1.2 ⟨body, hbody, rfl⟩, rfl⟩
    refine ⟨?_, hescaped⟩
    by_cases hbackslash : c = 92
    · subst hbackslash
      rw [unquote, if_pos (by rfl), ih.2]
      constructor
      · rintro ⟨c', body, value', hbody, rfl, rfl⟩
        exact ⟨_, hbody.escape, rfl⟩
      · rintro ⟨body, hbody, heq⟩
        cases hbody with
        | nil => cases heq
        | plain hquote hback hbody =>
          obtain ⟨rfl, -⟩ := List.cons.inj heq
          exact absurd rfl hback
        | @escape c' body value' hbody =>
          obtain ⟨-, rfl⟩ := List.cons.inj heq
          exact ⟨c', body, value', hbody, rfl, rfl⟩
    by_cases hquote : c = 34
    · subst hquote
      rw [unquote, if_neg (by simp), if_pos (by rfl)]
      constructor
      · intro h
        cases h
        exact ⟨[], .nil, rfl⟩
      · rintro ⟨body, hbody, heq⟩
        cases hbody with
        | nil =>
          obtain ⟨-, rfl⟩ := List.cons.inj heq
          rfl
        | plain hquote hback hbody =>
          obtain ⟨rfl, -⟩ := List.cons.inj heq
          exact absurd rfl hquote
        | escape hbody => cases heq
    · rw [unquote, if_neg (by simpa using hbackslash), if_neg (by simpa using hquote),
        Option.map_eq_some_iff]
      constructor
      · rintro ⟨⟨value', rest'⟩, hread, heq⟩
        cases heq
        obtain ⟨body, hbody, rfl⟩ := ih.1.1 hread
        exact ⟨c :: body, hbody.plain hquote hbackslash, rfl⟩
      · rintro ⟨body, hbody, heq⟩
        cases hbody with
        | nil =>
          obtain ⟨rfl, -⟩ := List.cons.inj heq
          exact absurd rfl hquote
        | @plain c' body value' hquote' hback hbody =>
          obtain ⟨rfl, rfl⟩ := List.cons.inj heq
          exact ⟨(value', rest), ih.1.2 ⟨body, hbody, rfl⟩, rfl⟩
        | escape hbody =>
          obtain ⟨rfl, -⟩ := List.cons.inj heq
          exact absurd rfl hbackslash

/-- The text of a field, before a rest: it stands between quotes, or goes on to the next white space
or to the end. -/
inductive FieldText (rest : Bytes) : Bytes → Bytes → Prop where
  | quoted {body value : Bytes} : Escaped body value → FieldText rest (34 :: (body ++ [34])) value
  | bare {value : Bytes} : value ≠ [] → value.head? ≠ some 34 →
    (∀ b ∈ value, isSpace b = false) → EndsBefore (!isSpace ·) rest → FieldText rest value value

/-- What a field begins with is no white space. -/
theorem FieldText.head {rest token value : Bytes} (h : FieldText rest token value) :
    ∃ c cs, token = c :: cs ∧ isSpace c = false := by
  cases h with
  | quoted hbody => exact ⟨34, _, rfl, by decide⟩
  | bare hne hhead hspace hrest =>
    obtain ⟨c, cs, rfl⟩ := List.exists_cons_of_ne_nil hne
    exact ⟨c, cs, rfl, hspace c (.head _)⟩

/-- A stream that a field was read from has seen its end only if nothing is left. -/
theorem readQuoted_consistent {s s' : TextStream} {value : Bytes}
    (h : s.readQuoted = (some value, s')) : s'.Consistent := by
  unfold readQuoted at h
  dsimp only at h
  split_ifs at h
  · cases h
  · cases hunquote : unquote false s.skipSpace.rest.tail with
    | none =>
      rw [hunquote] at h
      cases h
    | some result =>
      rw [hunquote] at h
      cases h
      exact nofun
  · unfold readToken at h
    dsimp only at h
    split_ifs at h
    · cases h
    · cases h
      exact consistent_after _

/-- A field is read as the text that it represents, up to its end. -/
theorem readQuoted_iff {s : TextStream} (hs : s.Consistent) {value rest : Bytes} :
    (∃ s', s.readQuoted = (some value, s') ∧ s'.Consistent ∧ s'.rest = rest) ↔
      ∃ space token, s.rest = space ++ (token ++ rest) ∧ (∀ b ∈ space, isSpace b = true) ∧
        FieldText rest token value := by
  obtain ⟨space, behind, hsplit, hspace, hbehind⟩ := exists_span isSpace s.rest
  have hskip := hs.skipSpace_eq hsplit hspace hbehind
  -- White space and what is behind it are determined.
  have hunique : ∀ space' token, s.rest = space' ++ (token ++ rest) →
      (∀ b ∈ space', isSpace b = true) → FieldText rest token value → behind = token ++ rest := by
    intro space' token hsplit' hspace' htoken
    obtain ⟨c, cs, rfl, hc⟩ := htoken.head
    have hends : EndsBefore isSpace ((c :: cs) ++ rest) := fun c' hc' => by
      cases hc'
      exact hc
    have hdrop := (span_eq hspace' hends).2
    rw [← hsplit', hsplit, (span_eq hspace hbehind).2] at hdrop
    exact hdrop
  unfold readQuoted
  rw [hskip]
  cases hnil : behind with
  | nil =>
    subst hnil
    simp only [after, List.isEmpty_nil, if_true, Prod.mk.injEq, reduceCtorEq, false_and,
      exists_false, false_iff]
    rintro ⟨space', token, hsplit', hspace', htoken⟩
    obtain ⟨c, cs, rfl, -⟩ := htoken.head
    cases hunique _ _ hsplit' hspace' htoken
  | cons c cs =>
    subst hnil
    simp only [after, List.isEmpty_cons, Bool.false_eq_true, if_false, List.head?_cons,
      List.tail_cons, Option.some.injEq]
    by_cases hquote : c = 34
    · subst hquote
      rw [if_pos rfl]
      constructor
      · rintro ⟨s', hread, -, rfl⟩
        cases hunquote : unquote false cs with
        | none =>
          rw [hunquote] at hread
          cases hread
        | some result =>
          obtain ⟨text, behind⟩ := result
          rw [hunquote] at hread
          cases hread
          obtain ⟨body, hbody, rfl⟩ := (unquote_iff cs).1.1 hunquote
          refine ⟨space, 34 :: (body ++ [34]), ?_, hspace, .quoted hbody⟩
          simpa using hsplit
      · rintro ⟨space', token, hsplit', hspace', htoken⟩
        have htext := hunique _ _ hsplit' hspace' htoken
        cases htoken with
        | @quoted body value hbody =>
          have hcs : cs = body ++ 34 :: rest := by simpa using htext
          rw [(unquote_iff cs).1.2 ⟨body, hbody, hcs⟩]
          exact ⟨_, rfl, nofun, rfl⟩
        | bare hne hhead hspace hrest =>
          obtain ⟨c, cs', rfl⟩ := List.exists_cons_of_ne_nil hne
          obtain ⟨rfl, -⟩ := List.cons.inj htext
          exact absurd rfl hhead
    · rw [if_neg hquote]
      have hconsistent : (⟨c :: cs, false⟩ : TextStream).Consistent := nofun
      constructor
      · rintro ⟨s', hread, -, rfl⟩
        obtain ⟨space', rest, hsplit', hspace', hne, htoken, hrest, rfl⟩ :=
          (readToken_iff hconsistent).1 hread
        -- The white space is skipped already.
        have hnone : space' = [] := by
          cases space' with
          | nil => rfl
          | cons b space' =>
            obtain ⟨rfl, -⟩ := List.cons.inj hsplit'
            have hc := hbehind c rfl
            rw [hspace' c (.head _)] at hc
            cases hc
        subst hnone
        refine ⟨space, value, ?_, hspace, .bare hne ?_ htoken hrest⟩
        · have hcs : c :: cs = value ++ rest := hsplit'
          rw [hsplit, hcs]
          rfl
        · intro hhead
          obtain ⟨c', cs', rfl⟩ := List.exists_cons_of_ne_nil hne
          obtain ⟨rfl, -⟩ := List.cons.inj hsplit'
          exact hquote (Option.some.inj hhead)
      · rintro ⟨space', token, hsplit', hspace', htoken⟩
        have htext := hunique _ _ hsplit' hspace' htoken
        cases htoken with
        | quoted hbody =>
          obtain ⟨rfl, -⟩ := List.cons.inj htext
          exact absurd rfl hquote
        | bare hne hhead htoken hrest =>
          refine ⟨after rest, ?_, consistent_after rest, rfl⟩
          exact (readToken_iff hconsistent).2
            ⟨[], rest, htext, fun b hb => absurd hb List.not_mem_nil, hne, htoken, hrest, rfl⟩

end TextStream
