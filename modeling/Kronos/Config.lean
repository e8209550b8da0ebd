import Mathlib.Data.List.DropRight
import Kronos.Base.Numerals
import Kronos.Types

/-!
# The configuration file

`Config` of `src/config.cpp`: a file of lines `key=value`, of which the last one for a key counts
(`find_of_new`), and the settings that the engine reads from it. The values are kept as texts, and
converted to numbers when they are asked for. Which texts are taken for numbers is in `SizeText` and
`TriggerText`; more texts are than those that are integers as a whole.
-/

namespace Kronos

open TextStream

/-- A space or a tab, which `trim` removes. -/
def isBlank (c : UInt8) : Bool := c = 32 || c = 9

/-- `trim`. -/
def trim (str : Bytes) : Bytes := (str.dropWhile isBlank).rdropWhile isBlank

/-- A `Config`. Of `configurations_`, an unordered map, only lookups matter: the first pair with a
key has its value. -/
structure Config where
  configurations : List (Bytes × Bytes)
  deriving DecidableEq, Repr

/-- The keys of the settings. The engine reads the size of the Memtables and the trigger. -/
def memtableSizeKey : Bytes :=
  ofChars ['m', 'e', 'm', 't', 'a', 'b', 'l', 'e', '_', 's', 'i', 'z', 'e', '_', 'm', 'b']

/-- The key `l0_compaction_trigger`. -/
def l0CompactionTriggerKey : Bytes :=
  ofChars ['l', '0', '_', 'c', 'o', 'm', 'p', 'a', 'c', 't', 'i', 'o', 'n', '_', 't', 'r', 'i', 'g',
    'g', 'e', 'r']

/-- The key `bloom_filter`. -/
def bloomFilterKey : Bytes :=
  ofChars ['b', 'l', 'o', 'o', 'm', '_', 'f', 'i', 'l', 't', 'e', 'r']

/-- The key `log_path`. -/
def logPathKey : Bytes := ofChars ['l', 'o', 'g', '_', 'p', 'a', 't', 'h']

namespace Config

/-- `configurations_[key] = value`. -/
def insert (config : Config) (key value : Bytes) : Config := ⟨(key, value) :: config.configurations⟩

/-- `configurations_.find`. -/
def find (config : Config) (key : Bytes) : Option Bytes := config.configurations.lookup key

/-- The body of the loop of the constructor. -/
def readLine (config : Config) (line : Bytes) : Except Failure Config :=
  let line := trim line
  if line = [] then .ok config
  else
    match line.dropWhile (· ≠ 61) with
    | [] => .error (.exception "Missing '=' in configuration line")
    | _ :: value =>
      let key := trim (line.takeWhile (· ≠ 61))
      if key = [] then .error (.exception "Configuration key cannot be empty")
      else .ok (config.insert key (trim value))

/-- The loop of the constructor, which ends when `std::getline` extracts nothing. Each pass that
goes on has taken a byte, so the bytes that are left bound the number of passes; `fuel` counts
them. -/
def readLines : ℕ → Config → TextStream → Except Failure Config
  | 0, _, _ => .error (.undefined "out of fuel")
  | fuel + 1, config, s =>
    if s.rest = [] then .ok config
    else do
      let (line, s) := s.getline
      let config ← config.readLine line
      readLines fuel config s

/-- The constructor, over the bytes of the file if it can be opened. -/
def new : Option Bytes → Except Failure Config
  | none => .error (.exception "Failed to open configuration file")
  | some bytes => readLines (bytes.length + 1) ⟨[]⟩ (ofBytes bytes)

/-- `getMemtableSize`. -/
def getMemtableSize (config : Config) : Except Failure ℤ :=
  match config.find memtableSizeKey with
  | none => .error (.exception "memtable_size_mb key is missing in your config file")
  | some value =>
    match stoi value with
    | .value n => .ok n
    | .invalidArgument =>
      .error (.exception "Invalid memtable_size_mb value: expected an integer")
    | .outOfRange => .error (.exception "memtable_size_mb value is out of range")

/-- `getBloomFilterEnabled`. -/
def getBloomFilterEnabled (config : Config) : Except Failure Bool :=
  match config.find bloomFilterKey with
  | none => .error (.exception "bloom_filter key is missing in your config file")
  | some value =>
    if value = ofChars ['t', 'r', 'u', 'e'] then .ok true
    else if value = ofChars ['f', 'a', 'l', 's', 'e'] then .ok false
    else .error (.exception "Invalid bloom_filter value: expected 'true' or 'false'")

/-- `getLogPath`. -/
def getLogPath (config : Config) : Except Failure Bytes :=
  match config.find logPathKey with
  | none => .error (.exception "log_path key is missing in your config file")
  | some value =>
    if value = [] then .error (.exception "log_path cannot be empty") else .ok value

/-- `getL0CompactionTrigger`. -/
def getL0CompactionTrigger (config : Config) : Except Failure ℕ :=
  match config.find l0CompactionTriggerKey with
  | none => .ok 4
  | some text =>
    match stoull text with
    | .value value =>
      if value = 0 then .error (.exception "l0_compaction_trigger must be greater than zero")
      else .ok value
    | .invalidArgument =>
      .error (.exception "Invalid l0_compaction_trigger: expected a positive integer")
    | .outOfRange => .error (.exception "l0_compaction_trigger value is out of range")

end Config

/-! ## Trimming -/

/-- A text that neither begins nor ends with a space or a tab. -/
def Trimmed (text : Bytes) : Prop := EndsBefore isBlank text ∧ EndsBefore isBlank text.reverse

/-- What is left of a trimmed text, between the blanks around it. -/
theorem trim_spec (str : Bytes) : ∃ blanks blanks', str = blanks ++ (trim str ++ blanks') ∧
    (∀ b ∈ blanks, isBlank b = true) ∧ (∀ b ∈ blanks', isBlank b = true) ∧ Trimmed (trim str) := by
  obtain ⟨blanks, behind, rfl, hblanks, hbehind⟩ := exists_span isBlank str
  have hdrop : (blanks ++ behind).dropWhile isBlank = behind := (span_eq hblanks hbehind).2
  have htrim : trim (blanks ++ behind) = behind.rdropWhile isBlank := by rw [trim, hdrop]
  have hsplit : behind.rdropWhile isBlank ++ behind.rtakeWhile isBlank = behind :=
    List.rdropWhile_append_rtakeWhile
  rw [htrim]
  refine ⟨blanks, behind.rtakeWhile isBlank, by rw [hsplit], hblanks,
    fun b hb => List.mem_rtakeWhile_imp hb, ?_, ?_⟩
  · intro c hc
    apply hbehind c
    rw [← hsplit, List.head?_append_of_ne_nil]
    · exact hc
    · rintro hnil
      rw [hnil] at hc
      cases hc
  · intro c hc
    rw [List.rdropWhile, List.reverse_reverse] at hc
    have h := List.head?_dropWhile_not isBlank behind.reverse
    rw [Option.mem_def.1 hc] at h
    exact h

/-- Blanks around a text are all that is trimmed of it. -/
theorem trim_eq {blanks text blanks' : Bytes} (hblanks : ∀ b ∈ blanks, isBlank b = true)
    (hblanks' : ∀ b ∈ blanks', isBlank b = true) (htext : Trimmed text) :
    trim (blanks ++ (text ++ blanks')) = text := by
  have hright : (text ++ blanks').rdropWhile isBlank = text := by
    have hreverse : ∀ b ∈ blanks'.reverse, isBlank b = true := fun b hb =>
      hblanks' b (List.mem_reverse.1 hb)
    rw [List.rdropWhile, List.reverse_append, (span_eq hreverse htext.2).2, List.reverse_reverse]
  rw [trim]
  cases text with
  | nil =>
    have hall : ∀ b ∈ blanks ++ ([] ++ blanks'), isBlank b = true := fun b hb =>
      (List.mem_append.1 hb).elim (hblanks b) (hblanks' b)
    rw [List.dropWhile_eq_nil_iff.2 hall]
    rfl
  | cons c text =>
    have hbegin : EndsBefore isBlank ((c :: text) ++ blanks') := htext.1
    rw [(span_eq hblanks hbegin).2, hright]

/-- Nothing is left of blanks only. -/
theorem trim_eq_nil_iff {str : Bytes} : trim str = [] ↔ ∀ b ∈ str, isBlank b = true := by
  constructor
  · intro hnil b hb
    obtain ⟨blanks, blanks', hsplit, hblanks, hblanks', -⟩ := trim_spec str
    rw [hsplit, hnil] at hb
    exact (List.mem_append.1 hb).elim (hblanks b) (hblanks' b)
  · intro hall
    have htrim := @trim_eq str [] [] hall nofun ⟨nofun, nofun⟩
    simpa using htrim

/-- Blanks before and behind a text are trimmed with those of the text. -/
theorem trim_append {blanks blanks' : Bytes} (hblanks : ∀ b ∈ blanks, isBlank b = true)
    (hblanks' : ∀ b ∈ blanks', isBlank b = true) (str : Bytes) :
    trim (blanks ++ (str ++ blanks')) = trim str := by
  obtain ⟨left, right, hsplit, hleft, hright, htrimmed⟩ := trim_spec str
  have hregroup : blanks ++ (str ++ blanks') =
      (blanks ++ left) ++ (trim str ++ (right ++ blanks')) := by
    nth_rewrite 1 [hsplit]
    simp only [List.append_assoc]
  rw [hregroup]
  refine trim_eq (fun b hb => ?_) (fun b hb => ?_) htrimmed
  · exact (List.mem_append.1 hb).elim (hblanks b) (hleft b)
  · exact (List.mem_append.1 hb).elim (hright b) (hblanks' b)

namespace Config

/-! ## Lines -/

/-- A line sets a key to a text, with blanks around both. -/
structure Sets (line key text : Bytes) : Prop where
  split : ∃ blanks₁ blanks₂ blanks₃ blanks₄, line =
      blanks₁ ++ (key ++ (blanks₂ ++ 61 :: (blanks₃ ++ (text ++ blanks₄)))) ∧
    ∀ b ∈ blanks₁ ++ blanks₂ ++ blanks₃ ++ blanks₄, isBlank b = true
  key_ne : key ≠ []
  key_trimmed : Trimmed key
  key_plain : 61 ∉ key
  text_trimmed : Trimmed text

/-- The last line that sets a key sets it to a text. -/
def LastSets (lines : List Bytes) (key text : Bytes) : Prop :=
  ∃ before line behind, lines = before ++ line :: behind ∧ Sets line key text ∧
    ∀ line' ∈ behind, ∀ text', ¬Sets line' key text'

/-- A line sets a key when the trimmed text before its first `=` is that key. -/
theorem sets_iff {line key text : Bytes} : Sets line key text ↔
    ∃ left right, line = left ++ 61 :: right ∧ 61 ∉ left ∧ trim left = key ∧ key ≠ [] ∧
      trim right = text := by
  constructor
  · rintro ⟨⟨blanks₁, blanks₂, blanks₃, blanks₄, rfl, hblanks⟩, hne, hkey, hplain, htext⟩
    simp only [List.mem_append, or_imp, forall_and] at hblanks
    obtain ⟨⟨⟨h₁, h₂⟩, h₃⟩, h₄⟩ := hblanks
    refine ⟨blanks₁ ++ (key ++ blanks₂), blanks₃ ++ (text ++ blanks₄), by simp, ?_,
      trim_eq h₁ h₂ hkey, hne, trim_eq h₃ h₄ htext⟩
    simp only [List.mem_append, not_or]
    exact ⟨fun h => absurd (h₁ 61 h) (by decide), hplain, fun h => absurd (h₂ 61 h) (by decide)⟩
  · rintro ⟨left, right, rfl, hleft, rfl, hne, rfl⟩
    obtain ⟨blanks₁, blanks₂, hl, h₁, h₂, hkey⟩ := trim_spec left
    obtain ⟨blanks₃, blanks₄, hr, h₃, h₄, htext⟩ := trim_spec right
    refine ⟨⟨blanks₁, blanks₂, blanks₃, blanks₄, ?_, ?_⟩, hne, hkey, ?_, htext⟩
    · rw [← hr]
      nth_rewrite 1 [hl]
      simp only [List.append_assoc]
    · simp only [List.mem_append, or_imp, forall_and]
      exact ⟨⟨⟨h₁, h₂⟩, h₃⟩, h₄⟩
    · intro h
      apply hleft
      rw [hl]
      exact List.mem_append_right _ (List.mem_append_left _ h)

/-- A byte stands first in one place. -/
theorem first_unique {c : UInt8} {left right left' right' : Bytes} (h : c ∉ left) (h' : c ∉ left')
    (heq : left ++ c :: right = left' ++ c :: right') : left = left' ∧ right = right' := by
  have hspan : ∀ left right : Bytes, c ∉ left →
      (left ++ c :: right).takeWhile (· ≠ c) = left := by
    intro left right h
    refine (span_eq (fun b hb => ?_) (fun b hb => ?_)).1
    · simpa using ne_of_mem_of_not_mem hb h
    · cases hb
      simp
  have hleft : left = left' := by rw [← hspan left right h, heq, hspan left' right' h']
  subst hleft
  exact ⟨rfl, (List.cons.inj (List.append_cancel_left heq)).2⟩

/-- A line sets one key, to one text. -/
theorem Sets.unique {line key text key' text' : Bytes} (h : Sets line key text)
    (h' : Sets line key' text') : key = key' ∧ text = text' := by
  obtain ⟨left, right, rfl, hleft, rfl, -, rfl⟩ := sets_iff.1 h
  obtain ⟨left', right', heq, hleft', rfl, -, rfl⟩ := sets_iff.1 h'
  obtain ⟨rfl, rfl⟩ := first_unique hleft hleft' heq
  exact ⟨rfl, rfl⟩

/-- A line of blanks sets nothing. -/
theorem not_sets_of_blank {line : Bytes} (h : ∀ b ∈ line, isBlank b = true) (key text : Bytes) :
    ¬Sets line key text := by
  intro hsets
  obtain ⟨left, right, rfl, -⟩ := sets_iff.1 hsets
  exact absurd (h 61 (List.mem_append_right _ (.head _))) (by decide)

/-- A line of blanks is skipped, a line that sets a key is taken, and every other line throws. -/
theorem readLine_cases (config : Config) (line : Bytes) :
    ((∀ b ∈ line, isBlank b = true) ∧ config.readLine line = .ok config) ∨
    (∃ key text, Sets line key text ∧ config.readLine line = .ok (config.insert key text)) ∨
    ¬(∀ b ∈ line, isBlank b = true) ∧ (∀ key text, ¬Sets line key text) ∧
      ∃ message, config.readLine line = .error (.exception message) := by
  unfold readLine
  by_cases hblank : trim line = []
  · exact .inl ⟨trim_eq_nil_iff.1 hblank, if_pos hblank⟩
  right
  dsimp only
  rw [if_neg hblank]
  obtain ⟨blanks, blanks', hsplit, hblanks, hblanks', -⟩ := trim_spec line
  obtain ⟨left, right, hfirst, hleft, hright⟩ := exists_span (· ≠ 61) (trim line)
  have hplain : 61 ∉ blanks ++ left := by
    intro h
    rcases List.mem_append.1 h with h | h
    · exact absurd (hblanks 61 h) (by decide)
    · simpa using hleft 61 h
  rw [hfirst, (span_eq hleft hright).1, (span_eq hleft hright).2]
  have hnot : ¬∀ b ∈ line, isBlank b = true := fun h => hblank (trim_eq_nil_iff.2 h)
  cases right with
  | nil =>
    refine .inr ⟨hnot, fun key text hsets => ?_, _, rfl⟩
    obtain ⟨left', right', heq, -⟩ := sets_iff.1 hsets
    have hmem : (61 : UInt8) ∈ line := by
      rw [heq]
      exact List.mem_append_right _ (.head _)
    rw [hsplit, hfirst, List.append_nil, ← List.append_assoc] at hmem
    rcases List.mem_append.1 hmem with h | h
    · exact hplain h
    · exact absurd (hblanks' 61 h) (by decide)
  | cons c value =>
    obtain rfl : c = 61 := by simpa using hright c rfl
    have hline : line = (blanks ++ left) ++ 61 :: (value ++ blanks') := by
      rw [hsplit, hfirst]
      simp only [List.append_assoc, List.cons_append]
    have hkey : trim (blanks ++ left) = trim left := by
      simpa using @trim_append blanks [] hblanks nofun left
    have hvalue : trim (value ++ blanks') = trim value :=
      @trim_append [] blanks' nofun hblanks' value
    dsimp only
    by_cases hempty : trim left = []
    · refine .inr ⟨hnot, fun key text hsets => ?_, _, if_pos hempty⟩
      obtain ⟨left', right', heq, hleft', rfl, hne, -⟩ := sets_iff.1 hsets
      obtain ⟨rfl, -⟩ := first_unique hplain hleft' (hline.symm.trans heq)
      exact hne (hkey.trans hempty)
    · exact .inl ⟨trim left, trim value, sets_iff.2 ⟨_, _, hline, hplain, hkey, hempty, hvalue⟩,
        if_neg hempty⟩

/-! ## The file -/

/-- The lines of a file. -/
def linesOf (file : Bytes) : List Bytes := file.splitOn 10

/-- The loop reads the lines of the file, one after another. -/
theorem readLines_eq (fuel : ℕ) : ∀ {bytes : Bytes} {config : Config}, bytes.length < fuel →
    readLines fuel config (ofBytes bytes) = (linesOf bytes).foldlM readLine config := by
  induction fuel with
  | zero => exact fun h => absurd h (Nat.not_lt_zero _)
  | succ fuel ih =>
    intro bytes config hfuel
    rw [readLines]
    by_cases hnil : bytes = []
    · subst hnil
      rfl
    have hrest : ¬(ofBytes bytes).rest = [] := hnil
    rw [if_neg hrest]
    rcases getline_cases bytes with ⟨line, rest, rfl, hline, hread⟩ | ⟨hline, hread⟩
    · have hplain : (10 : UInt8) ∉ line := fun h => hline 10 h rfl
      have hlines : linesOf (line ++ 10 :: rest) = line :: linesOf rest :=
        List.splitOn_append_cons_self_of_not_mem hplain rest
      rw [hread, hlines, List.foldlM_cons]
      refine bind_congr fun config' => ih ?_
      simp only [List.length_append, List.length_cons] at hfuel
      omega
    · -- The last line has no newline behind it, and the pass behind it finds nothing.
      have hplain : (10 : UInt8) ∉ bytes := fun h => hline 10 h rfl
      have hlines : linesOf bytes = [bytes] := List.splitOn_eq_singleton hplain
      rw [hread, hlines, List.foldlM_cons]
      refine bind_congr fun config' => ?_
      have hpos : 0 < bytes.length := List.length_pos_of_ne_nil hnil
      obtain ⟨fuel', rfl⟩ : ∃ fuel', fuel = fuel' + 1 := ⟨fuel - 1, by omega⟩
      rfl

/-- A configuration is the fold of the lines of its file. -/
theorem new_eq (file : Bytes) : new (some file) = (linesOf file).foldlM readLine ⟨[]⟩ :=
  readLines_eq _ (Nat.lt_succ_self _)

/-- Every line is blank, or sets a key. -/
def Accepts (lines : List Bytes) : Prop :=
  ∀ line ∈ lines, (∀ b ∈ line, isBlank b = true) ∨ ∃ key text, Sets line key text

/-- Lines are read when every one is blank or sets a key, and otherwise an exception is thrown. -/
theorem foldlM_readLine_cases (lines : List Bytes) : ∀ config : Config,
    (Accepts lines ∧ ∃ config', lines.foldlM readLine config = .ok config') ∨
    (¬Accepts lines ∧ ∃ message, lines.foldlM readLine config = .error (.exception message)) := by
  induction lines with
  | nil => exact fun config => .inl ⟨nofun, config, rfl⟩
  | cons line lines ih =>
    intro config
    rw [List.foldlM_cons]
    have hgo : ∀ config', config.readLine line = .ok config' →
        ((∀ b ∈ line, isBlank b = true) ∨ ∃ key text, Sets line key text) →
        (Accepts (line :: lines) ∧
          ∃ config'', (config.readLine line >>= lines.foldlM readLine) = .ok config'') ∨
        (¬Accepts (line :: lines) ∧ ∃ message,
          (config.readLine line >>= lines.foldlM readLine) = .error (.exception message)) := by
      intro config' hread hline
      rw [hread, ok_bind]
      rcases ih config' with ⟨haccepts, hok⟩ | ⟨haccepts, herror⟩
      · exact .inl ⟨List.forall_mem_cons.2 ⟨hline, haccepts⟩, hok⟩
      · exact .inr ⟨fun h => haccepts (List.forall_mem_cons.1 h).2, herror⟩
    rcases config.readLine_cases line with
      ⟨hblank, hread⟩ | ⟨key, text, hsets, hread⟩ | ⟨hblank, hsets, message, hread⟩
    · exact hgo _ hread (.inl hblank)
    · exact hgo _ hread (.inr ⟨key, text, hsets⟩)
    · rw [hread]
      refine .inr ⟨fun h => ?_, message, rfl⟩
      rcases (List.forall_mem_cons.1 h).1 with h | ⟨key, text, h⟩
      · exact hblank h
      · exact hsets key text h

/-- The last line that sets a key, behind another line. -/
theorem lastSets_cons {line key text : Bytes} {lines : List Bytes} :
    LastSets (line :: lines) key text ↔ LastSets lines key text ∨
      Sets line key text ∧ ∀ line' ∈ lines, ∀ text', ¬Sets line' key text' := by
  constructor
  · rintro ⟨before, last, behind, hsplit, hsets, hlast⟩
    cases before with
    | nil =>
      obtain ⟨rfl, rfl⟩ := List.cons.inj hsplit
      exact .inr ⟨hsets, hlast⟩
    | cons line' before =>
      obtain ⟨-, rfl⟩ := List.cons.inj hsplit
      exact .inl ⟨before, last, behind, rfl, hsets, hlast⟩
  · rintro (⟨before, last, behind, rfl, hsets, hlast⟩ | ⟨hsets, hlast⟩)
    · exact ⟨line :: before, last, behind, rfl, hsets, hlast⟩
    · exact ⟨[], line, lines, rfl, hsets, hlast⟩

/-- What a line leaves under a key is what it sets it to, or what was there. -/
theorem find_of_readLine {config config' : Config} {line key text : Bytes}
    (h : config.readLine line = .ok config') : config'.find key = some text ↔
      Sets line key text ∨ (∀ text', ¬Sets line key text') ∧ config.find key = some text := by
  rcases config.readLine_cases line with
    ⟨hblank, hread⟩ | ⟨key', text', hsets, hread⟩ | ⟨-, -, message, hread⟩
  · cases hread.symm.trans h
    have hnot := not_sets_of_blank hblank key
    simp [hnot]
  · cases hread.symm.trans h
    have hfind : (config.insert key' text').find key =
        if key = key' then some text' else config.find key := by
      unfold insert find
      rw [List.lookup_cons]
      by_cases heq : key = key'
      · simp [heq]
      · simp [heq, beq_eq_false_iff_ne.2 heq]
    rw [hfind]
    by_cases heq : key = key'
    · subst heq
      rw [if_pos rfl]
      constructor
      · rintro ⟨⟩
        exact .inl hsets
      · rintro (h | ⟨h, -⟩)
        · rw [(h.unique hsets).2]
        · exact absurd hsets (h text')
    · have hnot : ∀ text, ¬Sets line key text := fun text h => heq (h.unique hsets).1
      simp [heq, hnot]
  · cases hread.symm.trans h

/-- What lines leave under a key is what the last of them that sets it sets it to. -/
theorem find_of_foldlM {lines : List Bytes} {key text : Bytes} : ∀ {config config' : Config},
    lines.foldlM readLine config = .ok config' → (config'.find key = some text ↔
      LastSets lines key text ∨
        (∀ line ∈ lines, ∀ text', ¬Sets line key text') ∧ config.find key = some text) := by
  induction lines with
  | nil =>
    intro config config' h
    cases h
    simp [LastSets]
  | cons line lines ih =>
    intro config config' h
    rw [List.foldlM_cons] at h
    obtain ⟨config'', hread, h⟩ := bind_eq_ok h
    rw [ih h, find_of_readLine hread, lastSets_cons, List.forall_mem_cons]
    tauto

/-- A file is a configuration when every line is blank or sets a key; the last line for a key
counts. -/
theorem find_of_new {file : Bytes} {config : Config} (h : new (some file) = .ok config)
    {key text : Bytes} : config.find key = some text ↔ LastSets (linesOf file) key text := by
  rw [new_eq] at h
  rw [find_of_foldlM h]
  have hempty : ¬(⟨[]⟩ : Config).find key = some text := nofun
  simp [hempty]

/-! ## Settings -/

/-- A text that is taken for a size: a number in the range of an `int` and above zero, behind white
space, with anything behind its digits. -/
def SizeText (text : Bytes) (n : ℕ) : Prop :=
  ∃ space sign digits rest, NumberText text space sign digits rest ∧ sign ≠ [45] ∧
    n = ofDecimal digits ∧ 0 < ofDecimal digits ∧ ofDecimal digits ≤ 2^31 - 1

/-- A text that is taken for a trigger: digits in the range of an `unsigned long long` and above
zero, behind white space and any sign, with anything behind them. -/
def TriggerText (text : Bytes) (n : ℕ) : Prop :=
  ∃ space sign digits rest, NumberText text space sign digits rest ∧
    n = signedValue (2^64 - 1) sign digits ∧ 0 < ofDecimal digits ∧ ofDecimal digits ≤ 2^64 - 1

/-- A text with white space before its number, or anything behind it. -/
def Loose (text : Bytes) : Prop :=
  ∃ space sign digits rest, NumberText text space sign digits rest ∧ (space ≠ [] ∨ rest ≠ [])

/-- A text with a minus before its digits. -/
def Negative (text : Bytes) : Prop := ∃ space digits rest, NumberText text space [45] digits rest

/-- A text that is taken for a size is that integer, unless there is something around the number. -/
theorem SizeText.isDecimal_iff {text : Bytes} {n : ℕ} (h : SizeText text n) :
    IsDecimal text n ↔ ¬Loose text := by
  obtain ⟨space, sign, digits, rest, hparts, hsign, rfl, hpos, -⟩ := h
  have hne : digits ≠ [] := by
    rintro rfl
    exact absurd hpos (lt_irrefl 0)
  rw [hparts.isDecimal_iff]
  constructor
  · rintro ⟨rfl, rfl, -⟩ ⟨space', sign', digits', rest', hparts', haround⟩
    obtain ⟨rfl, -, -, rfl⟩ := hparts.parts_eq hparts'
    exact haround.elim (· rfl) (· rfl)
  · intro htight
    have haround : ¬(space ≠ [] ∨ rest ≠ []) := fun h =>
      htight ⟨space, sign, digits, rest, hparts, h⟩
    push Not at haround
    exact ⟨haround.1, haround.2, hne, (if_neg hsign).symm⟩

/-- A text that is taken for a trigger is that integer, unless there is something around the number,
or a minus before it. -/
theorem TriggerText.isDecimal_iff {text : Bytes} {n : ℕ} (h : TriggerText text n) :
    IsDecimal text n ↔ ¬(Loose text ∨ Negative text) := by
  obtain ⟨space, sign, digits, rest, hparts, rfl, hpos, -⟩ := h
  have hne : digits ≠ [] := by
    rintro rfl
    exact absurd hpos (lt_irrefl 0)
  rw [hparts.isDecimal_iff]
  constructor
  · rintro ⟨rfl, rfl, -, hvalue⟩ (⟨space', sign', digits', rest', hparts', haround⟩ | hminus)
    · obtain ⟨rfl, -, -, rfl⟩ := hparts.parts_eq hparts'
      exact haround.elim (· rfl) (· rfl)
    · obtain ⟨space', digits', rest', hparts'⟩ := hminus
      obtain ⟨-, rfl, rfl, -⟩ := hparts.parts_eq hparts'
      -- The integer is below zero, and the value is not.
      rw [integerOf, if_pos rfl] at hvalue
      omega
  · intro htight
    push Not at htight
    have haround : ¬(space ≠ [] ∨ rest ≠ []) := fun h =>
      htight.1 ⟨space, sign, digits, rest, hparts, h⟩
    push Not at haround
    have hsign : sign ≠ [45] := by
      rintro rfl
      exact htight.2 ⟨space, digits, rest, hparts⟩
    rw [signedValue, if_neg hsign, integerOf, if_neg hsign]
    exact ⟨haround.1, haround.2, hne, rfl⟩

/-- What `getMemtableSize` returns for a text. -/
theorem getMemtableSize_eq {config : Config} {text space sign digits rest : Bytes}
    (hfind : config.find memtableSizeKey = some text)
    (h : NumberText text space sign digits rest) (hne : digits ≠ [])
    (hlo : -2^31 ≤ integerOf sign digits) (hhi : integerOf sign digits ≤ 2^31 - 1) :
    config.getMemtableSize = .ok (integerOf sign digits) := by
  rw [getMemtableSize, hfind]
  dsimp only
  rw [stoi_eq h, if_neg hne, if_neg (not_or.2 ⟨not_lt.2 hlo, not_lt.2 hhi⟩)]

/-- `getMemtableSize` returns the number at the beginning of its text, or throws an exception. -/
theorem getMemtableSize_cases (config : Config) :
    (∃ text space sign digits rest, config.find memtableSizeKey = some text ∧
      NumberText text space sign digits rest ∧ integerOf sign digits ≤ 2^31 - 1 ∧
      config.getMemtableSize = .ok (integerOf sign digits)) ∨
    ∃ message, config.getMemtableSize = .error (.exception message) := by
  unfold getMemtableSize
  cases hfind : config.find memtableSizeKey with
  | none => exact .inr ⟨_, rfl⟩
  | some text =>
    obtain ⟨space, sign, digits, rest, h⟩ := exists_numberText text
    dsimp only
    rw [stoi_eq h]
    by_cases hnil : digits = []
    · rw [if_pos hnil]
      exact .inr ⟨_, rfl⟩
    rw [if_neg hnil]
    by_cases hrange : integerOf sign digits < -2^31 ∨ 2^31 - 1 < integerOf sign digits
    · rw [if_pos hrange]
      exact .inr ⟨_, rfl⟩
    rw [if_neg hrange]
    push Not at hrange
    exact .inl ⟨text, space, sign, digits, rest, rfl, h, hrange.2, rfl⟩

/-- The value of digits in range is zero if they are. -/
theorem signedValue_eq_zero_iff {bound : ℕ} {sign digits : Bytes} (h : ofDecimal digits ≤ bound) :
    signedValue bound sign digits = 0 ↔ ofDecimal digits = 0 := by
  unfold signedValue
  split_ifs
  · constructor
    · intro hmod
      by_contra hpos
      have hlt : bound + 1 - ofDecimal digits < bound + 1 := by omega
      rw [Nat.mod_eq_of_lt hlt] at hmod
      omega
    · intro hzero
      rw [hzero, Nat.sub_zero, Nat.mod_self]
  · exact Iff.rfl

/-- `getL0CompactionTrigger` returns the default without a text, and with one what the text is taken
for. -/
theorem getL0CompactionTrigger_ok_iff {config : Config} {n : ℕ} :
    config.getL0CompactionTrigger = .ok n ↔
      config.find l0CompactionTriggerKey = none ∧ n = 4 ∨
      ∃ text, config.find l0CompactionTriggerKey = some text ∧ TriggerText text n := by
  unfold getL0CompactionTrigger
  cases hfind : config.find l0CompactionTriggerKey with
  | none => simp [eq_comm]
  | some text =>
    obtain ⟨space, sign, digits, rest, h⟩ := exists_numberText text
    have htaken : (∃ text', some text = some text' ∧ TriggerText text' n) ↔
        n = signedValue (2^64 - 1) sign digits ∧ 0 < ofDecimal digits ∧
          ofDecimal digits ≤ 2^64 - 1 := by
      constructor
      · rintro ⟨text', heq, space', sign', digits', rest', h', hvalue⟩
        cases heq
        obtain ⟨-, rfl, rfl, -⟩ := h.parts_eq h'
        exact hvalue
      · exact fun hvalue => ⟨text, rfl, space, sign, digits, rest, h, hvalue⟩
    have hsome : ¬(some text = none ∧ n = 4) := fun h => nomatch h.1
    rw [or_iff_right hsome, htaken]
    dsimp only
    rw [stoull_eq h]
    by_cases hnil : digits = []
    · subst hnil
      simp [ofDecimal]
    rw [if_neg hnil]
    by_cases hrange : 2^64 - 1 < ofDecimal digits
    · rw [if_pos hrange]
      constructor
      · exact fun h => nomatch h
      · exact fun h => absurd h.2.2 (not_le.2 hrange)
    rw [if_neg hrange]
    dsimp only
    have hzero := @signedValue_eq_zero_iff _ sign _ (not_lt.1 hrange)
    split_ifs with h0
    · constructor
      · exact fun h => nomatch h
      · exact fun h => absurd (hzero.1 h0) h.2.1.ne'
    · have hpos : 0 < ofDecimal digits := Nat.pos_of_ne_zero fun h => h0 (hzero.2 h)
      rw [Except.ok.injEq]
      exact ⟨fun h => ⟨h.symm, hpos, not_lt.1 hrange⟩, fun h => h.1.symm⟩

/-- Every other text of a trigger throws an exception. -/
theorem exception_of_getL0CompactionTrigger {config : Config} {failure : Failure}
    (h : config.getL0CompactionTrigger = .error failure) :
    ∃ message, failure = .exception message := by
  unfold getL0CompactionTrigger at h
  cases hfind : config.find l0CompactionTriggerKey with
  | none =>
    rw [hfind] at h
    cases h
  | some text =>
    rw [hfind] at h
    dsimp only at h
    cases hread : stoull text with
    | invalidArgument =>
      rw [hread] at h
      cases h
      exact ⟨_, rfl⟩
    | outOfRange =>
      rw [hread] at h
      cases h
      exact ⟨_, rfl⟩
    | value n =>
      rw [hread] at h
      dsimp only at h
      split_ifs at h
      cases h
      exact ⟨_, rfl⟩

end Config

end Kronos
