import Kronos.Base.LastWrite
import Kronos.Config

/-!
# Writing a configuration file

A `Setting` is a key and a text that can stand on a line of a configuration file. Settings that are
written one a line are read back, and lines that are added behind a file override what it says
(`new_append`). Everything that a configuration file can say can be written so (`exists_file`).
-/

namespace Kronos

open TextStream

namespace Config

/-- A key and a text that can stand on a line. -/
structure Setting where
  key : Bytes
  text : Bytes
  key_ne : key ≠ []
  key_trimmed : Trimmed key
  key_plain : 61 ∉ key
  text_trimmed : Trimmed text
  one_line : 10 ∉ key ++ text

namespace Setting

/-- The line of a setting. -/
def line (s : Setting) : Bytes := s.key ++ 61 :: s.text

/-- The lines of some settings. -/
def file (settings : List Setting) : Bytes := settings.flatMap fun s => s.line ++ [10]

/-- The text of a key in some settings: the last one counts. -/
def textOf (settings : List Setting) (key : Bytes) : Option Bytes :=
  (lastWrite Setting.key key settings).map Setting.text

/-- The last setting of a key decides. -/
theorem textOf_concat (settings : List Setting) (s : Setting) (key : Bytes) :
    textOf (settings ++ [s]) key = if s.key = key then some s.text else textOf settings key := by
  unfold textOf
  rw [lastWrite_concat]
  split_ifs <;> rfl

/-- The line of a setting sets its key. -/
theorem sets_line (s : Setting) : Sets s.line s.key s.text :=
  ⟨⟨[], [], [], [], by simp [line], by simp⟩, s.key_ne, s.key_trimmed, s.key_plain, s.text_trimmed⟩

/-- It is one line. -/
theorem not_mem_line (s : Setting) : 10 ∉ s.line := by
  have h := s.one_line
  simp only [line, List.mem_append, List.mem_cons, not_or] at h ⊢
  exact ⟨h.1, by decide, h.2⟩

/-- The lines of settings, and an empty one. -/
theorem linesOf_file (settings : List Setting) :
    linesOf (file settings) = settings.map line ++ [[]] := by
  induction settings with
  | nil => rfl
  | cons s settings ih =>
    have hfile : file (s :: settings) = s.line ++ 10 :: file settings := by
      simp [file, List.flatMap_cons]
    rw [hfile, linesOf, List.splitOn_append_cons_self_of_not_mem s.not_mem_line]
    exact congrArg _ ih

end Setting

/-- A configuration with more settings. -/
def insertAll (config : Config) (settings : List Setting) : Config :=
  settings.foldl (fun config s => config.insert s.key s.text) config

/-- A line that sets a key is taken. -/
theorem readLine_of_sets (config : Config) {line key text : Bytes} (h : Sets line key text) :
    config.readLine line = .ok (config.insert key text) := by
  rcases config.readLine_cases line with ⟨hblank, -⟩ | ⟨key', text', hsets, hread⟩ | ⟨-, hnot, -⟩
  · exact absurd h (not_sets_of_blank hblank key text)
  · obtain ⟨rfl, rfl⟩ := hsets.unique h
    exact hread
  · exact absurd h (hnot key text)

/-- The lines of settings are taken, one after another. -/
theorem foldlM_file (settings : List Setting) : ∀ config : Config,
    (linesOf (Setting.file settings)).foldlM readLine config = .ok (config.insertAll settings) := by
  intro config
  rw [Setting.linesOf_file, List.foldlM_append]
  have hlines : (settings.map Setting.line).foldlM readLine config =
      .ok (config.insertAll settings) := by
    induction settings generalizing config with
    | nil => rfl
    | cons s settings ih =>
      rw [List.map_cons, List.foldlM_cons, readLine_of_sets config s.sets_line, ok_bind]
      exact ih _
  rw [hlines, ok_bind]
  rfl

/-- An insertion decides its own key, and leaves the others. -/
theorem find_insert (config : Config) (key' text key : Bytes) :
    (config.insert key' text).find key = if key = key' then some text else config.find key := by
  unfold insert find
  rw [List.lookup_cons]
  by_cases heq : key = key'
  · simp [heq]
  · simp [heq, beq_eq_false_iff_ne.2 heq]

/-- The last setting of a key counts, and what was there before if there is none. -/
theorem find_insertAll (config : Config) (settings : List Setting) (key : Bytes) :
    (config.insertAll settings).find key = (Setting.textOf settings key).or (config.find key) := by
  induction settings using List.reverseRecOn with
  | nil => rfl
  | append_singleton settings s ih =>
    have hinsert : config.insertAll (settings ++ [s]) =
        (config.insertAll settings).insert s.key s.text := by
      unfold insertAll
      rw [List.foldl_append]
      rfl
    rw [hinsert, find_insert, ih, Setting.textOf_concat]
    by_cases heq : key = s.key
    · rw [if_pos heq, if_pos heq.symm, Option.some_or]
    · rw [if_neg heq, if_neg (Ne.symm heq)]

/-! ## Every configuration can be written -/

/-- A line of a file has no newline. -/
theorem not_mem_linesOf (file : Bytes) : ∀ line ∈ linesOf file, 10 ∉ line := by
  unfold linesOf
  induction file with
  | nil => simp [List.splitOn_nil]
  | cons c file ih =>
    rw [List.splitOn_cons_eq_if_modifyHead]
    intro line hline
    split_ifs at hline with hc
    · rcases List.mem_cons.1 hline with rfl | hline
      · exact List.not_mem_nil
      · exact ih line hline
    · cases hlines : file.splitOn 10 with
      | nil => exact absurd hlines (List.splitOn_ne_nil 10 file)
      | cons first rest =>
        rw [hlines, List.modifyHead_cons] at hline
        rw [hlines] at ih
        rcases List.mem_cons.1 hline with rfl | hline
        · refine List.not_mem_cons_of_ne_of_not_mem (fun h => hc ?_) (ih first (.head _))
          rw [h, beq_self_eq_true]
        · exact ih line (.tail _ hline)

/-- What lines without a newline make of a configuration, settings make of it. -/
theorem exists_insertAll {lines : List Bytes} (hplain : ∀ line ∈ lines, 10 ∉ line) :
    ∀ {config config' : Config}, lines.foldlM readLine config = .ok config' →
      ∃ settings, config' = config.insertAll settings := by
  induction lines with
  | nil =>
    intro config config' h
    cases h
    exact ⟨[], rfl⟩
  | cons line lines ih =>
    intro config config' h
    rw [List.foldlM_cons] at h
    obtain ⟨config'', hread, h⟩ := bind_eq_ok h
    obtain ⟨hline, hlines⟩ := List.forall_mem_cons.1 hplain
    obtain ⟨settings, rfl⟩ := ih hlines h
    rcases config.readLine_cases line with
      ⟨-, hsame⟩ | ⟨key, text, hsets, htaken⟩ | ⟨-, -, message, herror⟩
    · cases hsame.symm.trans hread
      exact ⟨settings, rfl⟩
    · cases htaken.symm.trans hread
      obtain ⟨⟨blanks₁, blanks₂, blanks₃, blanks₄, rfl, -⟩, hne, hkey, hequals, htext⟩ := hsets
      have hone : 10 ∉ key ++ text := by
        intro h
        apply hline
        rcases List.mem_append.1 h with h | h <;> simp [h]
      exact ⟨⟨key, text, hne, hkey, hequals, htext, hone⟩ :: settings, rfl⟩
    · cases herror.symm.trans hread

/-- A file of settings alone means the same as a file that is accepted. -/
theorem exists_file {file : Bytes} {config : Config} (h : new (some file) = .ok config) :
    ∃ settings, new (some (Setting.file settings)) = .ok config := by
  rw [new_eq] at h
  obtain ⟨settings, rfl⟩ := exists_insertAll (not_mem_linesOf file) h
  exact ⟨settings, (new_eq _).trans (foldlM_file settings ⟨[]⟩)⟩

/-- The lines of settings behind a file. -/
theorem new_append (file : Bytes) (settings : List Setting) :
    new (some (file ++ 10 :: Setting.file settings)) =
      new (some file) >>= fun config => .ok (config.insertAll settings) := by
  have hlines : linesOf (file ++ 10 :: Setting.file settings) =
      linesOf file ++ linesOf (Setting.file settings) := List.splitOn_append_cons_self _ _
  rw [new_eq, new_eq, hlines, List.foldlM_append]
  exact bind_congr fun config => foldlM_file settings config

/-! ## The settings of the engine -/

/-- Values for all settings, in the range of their types. -/
structure Settings where
  memtableSizeMb : ℕ
  bloomFilter : Bool
  logPath : Bytes
  l0CompactionTrigger : ℕ
  memtableSizeMb_le : memtableSizeMb ≤ 2^31 - 1
  logPath_ne : logPath ≠ []
  logPath_trimmed : Trimmed logPath
  logPath_line : 10 ∉ logPath
  l0CompactionTrigger_pos : 0 < l0CompactionTrigger
  l0CompactionTrigger_le : l0CompactionTrigger ≤ 2^64 - 1

/-- The text of a truth value. -/
def boolText : Bool → Bytes
  | true => ofChars ['t', 'r', 'u', 'e']
  | false => ofChars ['f', 'a', 'l', 's', 'e']

/-- Neither a blank nor a newline. -/
def isSolid (c : UInt8) : Bool := !isBlank c && c != 10

/-- A key without blanks, newlines and equals signs. -/
def SolidKey (key : Bytes) : Prop := key ≠ [] ∧ key.all (fun c => isSolid c && c != 61) = true

instance (key : Bytes) : Decidable (SolidKey key) := inferInstanceAs (Decidable (_ ∧ _))

/-- A text of solid characters is trimmed, and on one line. -/
theorem trimmed_of_solid {text : Bytes} (h : text.all isSolid = true) :
    Trimmed text ∧ 10 ∉ text := by
  have hsolid : ∀ c ∈ text, isBlank c = false ∧ c ≠ 10 := by
    simpa [isSolid] using h
  exact ⟨⟨fun c hc => (hsolid c (List.mem_of_mem_head? hc)).1,
    fun c hc => (hsolid c (List.mem_reverse.1 (List.mem_of_mem_head? hc))).1⟩,
    fun hline => (hsolid 10 hline).2 rfl⟩

/-- A digit is solid. -/
theorem isSolid_of_isDigit {c : UInt8} (h : isDigit c = true) : isSolid c = true := by
  by_contra hc
  rw [isSolid, Bool.and_eq_true_iff, not_and_or, Bool.not_eq_true', Bool.not_eq_false, isBlank,
    Bool.or_eq_true_iff, bne_iff_ne, not_not] at hc
  rcases hc with (hc | hc) | rfl
  · rw [of_decide_eq_true hc] at h
    cases h
  · rw [of_decide_eq_true hc] at h
    cases h
  · cases h

/-- The digits of a number survive the trimming of a line. -/
theorem all_isSolid_decimal (n : ℕ) : (decimal n).all isSolid = true :=
  List.all_eq_true.2 fun c hc => isSolid_of_isDigit (isDigit_decimal n c hc)

/-- A solid key survives it, and has no `=`. -/
theorem SolidKey.solid {key : Bytes} (h : SolidKey key) : key.all isSolid = true ∧ 61 ∉ key := by
  have hall := List.all_eq_true.1 h.2
  simp only [Bool.and_eq_true, bne_iff_ne] at hall
  exact ⟨List.all_eq_true.2 fun c hc => (hall c hc).1, fun hc => (hall 61 hc).2 rfl⟩

/-- The setting of a key of the source to a text. -/
def Setting.of (key text : Bytes) (hkey : SolidKey key) (htext : Trimmed text ∧ 10 ∉ text) :
    Setting where
  key := key
  text := text
  key_ne := hkey.1
  key_trimmed := (trimmed_of_solid hkey.solid.1).1
  key_plain := hkey.solid.2
  text_trimmed := htext.1
  one_line := fun h =>
    (List.mem_append.1 h).elim (trimmed_of_solid hkey.solid.1).2 htext.2

/-- So does the text of a truth value. -/
theorem all_isSolid_boolText (b : Bool) : (boolText b).all isSolid = true := by
  cases b <;> decide

/-- The lines of the settings. -/
def Settings.lines (s : Settings) : List Setting :=
  [.of memtableSizeKey (decimal s.memtableSizeMb) (by decide)
      (trimmed_of_solid (all_isSolid_decimal _)),
    .of bloomFilterKey (boolText s.bloomFilter) (by decide)
      (trimmed_of_solid (all_isSolid_boolText _)),
    .of logPathKey s.logPath (by decide) ⟨s.logPath_trimmed, s.logPath_line⟩,
    .of l0CompactionTriggerKey (decimal s.l0CompactionTrigger) (by decide)
      (trimmed_of_solid (all_isSolid_decimal _))]

/-- A configuration has some settings. -/
structure Has (config : Config) (s : Settings) : Prop where
  memtableSize : config.getMemtableSize = .ok s.memtableSizeMb
  bloomFilterEnabled : config.getBloomFilterEnabled = .ok s.bloomFilter
  logPath : config.getLogPath = .ok s.logPath
  l0CompactionTrigger : config.getL0CompactionTrigger = .ok s.l0CompactionTrigger

/-- Of settings with different keys, each one counts. -/
theorem textOf_of_mem {settings : List Setting} (hkeys : (settings.map Setting.key).Nodup)
    {s : Setting} (hs : s ∈ settings) : Setting.textOf settings s.key = some s.text := by
  induction settings using List.reverseRecOn with
  | nil => cases hs
  | append_singleton settings last ih =>
    rw [List.map_append, List.map_singleton, List.nodup_append] at hkeys
    rw [Setting.textOf_concat]
    rcases List.mem_append.1 hs with hs | hs
    · have hne : last.key ≠ s.key := Ne.symm
        (hkeys.2.2 _ (List.mem_map_of_mem hs) _ (List.mem_singleton_self _))
      rw [if_neg hne, ih hkeys.1 hs]
    · obtain rfl := List.mem_singleton.1 hs
      rw [if_pos rfl]

/-- The keys of the settings are different. -/
theorem Settings.nodup_lines (s : Settings) : (s.lines.map Setting.key).Nodup := by
  show [memtableSizeKey, bloomFilterKey, logPathKey, l0CompactionTriggerKey].Nodup
  decide

/-- A configuration with the texts of settings has the settings. -/
theorem Settings.has (s : Settings) {config : Config}
    (h : ∀ line ∈ s.lines, config.find line.key = some line.text) : config.Has s := by
  have hdigits : ∀ n, NumberText (decimal n) [] [] (decimal n) [] := fun n =>
    numberText_of_decimal (.inl rfl) (decimal_ne_nil n) (isDigit_decimal n)
  have hplus : ([] : Bytes) ≠ [45] := by decide
  have hinteger : ∀ n, integerOf [] (decimal n) = n := fun n => by
    rw [integerOf, if_neg hplus, ofDecimal_decimal]
  obtain ⟨hsize, hbloom, hpath, htrigger⟩ :
      config.find memtableSizeKey = some (decimal s.memtableSizeMb) ∧
      config.find bloomFilterKey = some (boolText s.bloomFilter) ∧
      config.find logPathKey = some s.logPath ∧
      config.find l0CompactionTriggerKey = some (decimal s.l0CompactionTrigger) := by
    simpa [Settings.lines, Setting.of] using h
  refine ⟨?_, ?_, ?_, ?_⟩
  · have hle := s.memtableSizeMb_le
    rw [getMemtableSize_eq hsize (hdigits _) (decimal_ne_nil _), hinteger]
    · rw [hinteger]
      omega
    · rw [hinteger]
      omega
  · unfold getBloomFilterEnabled
    rw [hbloom]
    cases s.bloomFilter <;> rfl
  · unfold getLogPath
    rw [hpath]
    exact if_neg s.logPath_ne
  · refine getL0CompactionTrigger_ok_iff.2 (.inr ⟨_, htrigger, ?_⟩)
    have hvalue : signedValue (2^64 - 1) [] (decimal s.l0CompactionTrigger) =
        s.l0CompactionTrigger := by
      rw [signedValue, if_neg hplus, ofDecimal_decimal]
    refine ⟨[], [], _, [], hdigits _, hvalue.symm, ?_, ?_⟩ <;> rw [ofDecimal_decimal]
    · exact s.l0CompactionTrigger_pos
    · exact s.l0CompactionTrigger_le

/-- **Configuration files can be written.** Whatever a file means, a file of settings alone means
the same. The lines of settings behind a file override what it sets their keys to and leave
everything else, so that with the lines for some values all getters return these values. A file that
is refused is refused with them as without. -/
theorem written (file : Bytes) :
    (∀ config, new (some file) = .ok config →
      (∃ settings, new (some (Setting.file settings)) = .ok config) ∧
      (∀ settings, ∃ config', new (some (file ++ 10 :: Setting.file settings)) = .ok config' ∧
        ∀ key, config'.find key = (Setting.textOf settings key).or (config.find key)) ∧
      ∀ s : Settings, ∃ config', new (some (file ++ 10 :: Setting.file s.lines)) = .ok config' ∧
        config'.Has s) ∧
    ∀ failure, new (some file) = .error failure → ∀ settings,
      new (some (file ++ 10 :: Setting.file settings)) = .error failure := by
  refine ⟨fun config h => ?_, fun failure h settings => ?_⟩
  · have happend : ∀ settings, new (some (file ++ 10 :: Setting.file settings)) =
        .ok (config.insertAll settings) := fun settings => by rw [new_append, h, ok_bind]
    refine ⟨exists_file h, fun settings => ⟨_, happend _, find_insertAll config settings⟩,
      fun s => ⟨_, happend _, s.has fun line hline => ?_⟩⟩
    rw [find_insertAll, textOf_of_mem s.nodup_lines hline, Option.some_or]
  · rw [new_append, h]
    rfl

end Config

end Kronos
