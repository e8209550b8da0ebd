import Kronos.Config
import Kronos.Engine.Model

/-!
# An engine and its configuration

The constructor of `KronosEngine` in `src/engine.cpp` as far as it depends on its `Config`: the
target of the Memtables and the trigger of compactions.

Both are numbers at the beginning of a text, and the conversions ignore what is behind the digits;
`std::stoull` also negates. So a file that is accepted can mean something else than it says:
`l0_compaction_trigger=-1` is a trigger of `2^64 - 1` files, which no level reaches. The settings of
a file mean what they say exactly when it is not `Misread` (`settingsMean_iff`).
-/

namespace Kronos

open TextStream Config

namespace KronosEngine

/-- `memtableBytesFromConfig`. -/
def memtableBytesFromConfig (config : Config) : Except Failure ℕ := do
  let configuredMb ← config.getMemtableSize
  if configuredMb ≤ 0 then .error (.exception "memtable_size_mb must be greater than zero")
  else if configuredMb.toNat > uint64Max / (1024 * 1024) then
    .error (.exception "Configured Memtable size is too large")
  else .ok (configuredMb.toNat * (1024 * 1024))

/-- The fields that the constructor takes from the configuration. -/
def configure (config : Config) : Except Failure (ℕ × CompactionPolicy) := do
  let memtableTargetBytes ← memtableBytesFromConfig config
  let l0FileTrigger ← config.getL0CompactionTrigger
  let compactionPolicy ← CompactionPolicy.new l0FileTrigger
  .ok (memtableTargetBytes, compactionPolicy)

/-- The constructor, over the SSTables and the log of a directory. The log is opened between the two
settings. -/
def create {F R : Type} (H : Hashing) (fmt : TableFormat F R) (config : Config) (s : Store F)
    (log : Option Bytes) : Except Failure (KronosEngine F) := do
  let memtableTargetBytes ← memtableBytesFromConfig config
  let wal ← Wal.construct log
  let l0FileTrigger ← config.getL0CompactionTrigger
  let compactionPolicy ← CompactionPolicy.new l0FileTrigger
  let (active, wal) ← recover H fmt s wal (.new memtableTargetBytes)
  .ok (opened s active wal memtableTargetBytes compactionPolicy)

/-- An engine that is created has the fields of its configuration. -/
theorem configure_of_create {F R : Type} {H : Hashing} {fmt : TableFormat F R} {config : Config}
    {s : Store F} {log : Option Bytes} {e : KronosEngine F}
    (h : create H fmt config s log = .ok e) :
    configure config = .ok (e.memtableTargetBytes, e.compactionPolicy) := by
  obtain ⟨memtableTargetBytes, hbytes, h⟩ := bind_eq_ok h
  obtain ⟨wal, -, h⟩ := bind_eq_ok h
  obtain ⟨l0FileTrigger, htrigger, h⟩ := bind_eq_ok h
  obtain ⟨compactionPolicy, hpolicy, h⟩ := bind_eq_ok h
  obtain ⟨⟨active, wal'⟩, -, h⟩ := bind_eq_ok h
  cases h
  rw [configure, hbytes, ok_bind, htrigger, ok_bind, hpolicy]
  rfl

/-- The texts from which the target is read, and its failures. -/
theorem memtableBytesFromConfig_cases (config : Config) :
    (∃ text n, config.find memtableSizeKey = some text ∧ SizeText text n ∧
      memtableBytesFromConfig config = .ok (n * 2^20)) ∨
    ∃ message, memtableBytesFromConfig config = .error (.exception message) := by
  unfold memtableBytesFromConfig
  rcases config.getMemtableSize_cases with
    ⟨text, space, sign, digits, rest, hfind, hparts, hhi, hread⟩ | ⟨message, hread⟩
  · rw [hread, ok_bind]
    by_cases hzero : integerOf sign digits ≤ 0
    · rw [if_pos hzero]
      exact .inr ⟨_, rfl⟩
    rw [if_neg hzero]
    have hsign : sign ≠ [45] := by
      rintro rfl
      rw [integerOf, if_pos rfl] at hzero
      omega
    rw [integerOf, if_neg hsign] at hzero hhi ⊢
    rw [Int.toNat_natCast, if_neg (by unfold uint64Max; omega)]
    exact .inl ⟨text, _, hfind, ⟨space, sign, digits, rest, hparts, hsign, rfl, by omega, by omega⟩,
      rfl⟩
  · rw [hread]
    exact .inr ⟨message, rfl⟩

/-- A text that is taken for a size gives the target. -/
theorem memtableBytesFromConfig_eq {config : Config} {text : Bytes} {n : ℕ}
    (hfind : config.find memtableSizeKey = some text) (h : SizeText text n) :
    memtableBytesFromConfig config = .ok (n * 2^20) := by
  obtain ⟨space, sign, digits, rest, hparts, hsign, rfl, hpos, hhi⟩ := h
  have hne : digits ≠ [] := by
    rintro rfl
    exact absurd hpos (lt_irrefl 0)
  have hvalue : integerOf sign digits = ofDecimal digits := if_neg hsign
  have hread := getMemtableSize_eq hfind hparts hne (by omega) (by omega)
  rw [memtableBytesFromConfig, hread, ok_bind, hvalue, if_neg (by omega), Int.toNat_natCast,
    if_neg (by unfold uint64Max; omega)]
  rfl

/-- An engine gets past its configuration when both texts are taken for numbers. -/
theorem configure_ok_iff {config : Config} {memtableTargetBytes : ℕ}
    {compactionPolicy : CompactionPolicy} :
    configure config = .ok (memtableTargetBytes, compactionPolicy) ↔
      (∃ text n, config.find memtableSizeKey = some text ∧ SizeText text n ∧
        memtableTargetBytes = n * 2^20) ∧
      config.getL0CompactionTrigger = .ok compactionPolicy.l0FileTrigger := by
  constructor
  · intro h
    obtain ⟨bytes, hbytes, h⟩ := bind_eq_ok h
    obtain ⟨trigger, htrigger, h⟩ := bind_eq_ok h
    obtain ⟨policy, hpolicy, h⟩ := bind_eq_ok h
    cases h
    unfold CompactionPolicy.new at hpolicy
    split_ifs at hpolicy
    cases hpolicy
    refine ⟨?_, htrigger⟩
    rcases memtableBytesFromConfig_cases config with ⟨text, n, hfind, htext, hread⟩ | ⟨_, hread⟩
    · cases hread.symm.trans hbytes
      exact ⟨text, n, hfind, htext, rfl⟩
    · cases hread.symm.trans hbytes
  · rintro ⟨⟨text, n, hfind, htext, rfl⟩, htrigger⟩
    have hpolicy : CompactionPolicy.new compactionPolicy.l0FileTrigger = .ok compactionPolicy := by
      rw [CompactionPolicy.new, dif_neg compactionPolicy.trigger_pos.ne']
    rw [configure, memtableBytesFromConfig_eq hfind htext, ok_bind, htrigger, ok_bind, hpolicy]
    rfl

/-- Otherwise it throws an exception. -/
theorem exception_of_configure {config : Config} {failure : Failure}
    (h : configure config = .error failure) : ∃ message, failure = .exception message := by
  unfold configure at h
  rcases memtableBytesFromConfig_cases config with ⟨text, n, -, -, hread⟩ | ⟨message, hread⟩
  · rw [hread, ok_bind] at h
    cases htrigger : config.getL0CompactionTrigger with
    | error failure' =>
      rw [htrigger] at h
      cases h
      exact exception_of_getL0CompactionTrigger htrigger
    | ok trigger =>
      rw [htrigger, ok_bind, CompactionPolicy.new] at h
      split_ifs at h
      · cases h
        exact ⟨_, rfl⟩
      · cases h
  · rw [hread] at h
    cases h
    exact ⟨message, rfl⟩

/-! ## What a file means -/

/-- A setting is the integer that its text is, above zero and in range. -/
def Denotes (file key : Bytes) (bound n : ℕ) : Prop :=
  ∀ text, LastSets (linesOf file) key text → IsDecimal text n ∧ 0 < n ∧ n ≤ bound

/-- The fields of an engine are what the file says. -/
structure Means (file : Bytes) (memtableTargetBytes l0FileTrigger : ℕ) : Prop where
  target : ∃ megabytes, Denotes file memtableSizeKey (2^31 - 1) megabytes ∧
    memtableTargetBytes = megabytes * 2^20
  given : ∃ text, LastSets (linesOf file) memtableSizeKey text
  trigger : Denotes file l0CompactionTriggerKey (2^64 - 1) l0FileTrigger

/-- An engine gets past the configuration of a file only with the fields that the file says, and
otherwise throws an exception. -/
structure SettingsMean (file : Bytes) : Prop where
  past : ∀ config, Config.new (some file) = .ok config →
    ∀ memtableTargetBytes compactionPolicy,
      configure config = .ok (memtableTargetBytes, compactionPolicy) →
      Means file memtableTargetBytes compactionPolicy.l0FileTrigger
  rejected : ∀ failure, (Config.new (some file) >>= configure) = .error failure →
    ∃ message, failure = .exception message
  created : ∀ config, Config.new (some file) = .ok config →
    ∀ {F R : Type} (H : Hashing) (fmt : TableFormat F R) (s : Store F) (log : Option Bytes)
      (e : KronosEngine F), create H fmt config s log = .ok e →
      Means file e.memtableTargetBytes e.compactionPolicy.l0FileTrigger

/-- A file whose lines are read, and whose settings are taken for numbers, though one of them has
white space before its number or something behind it, or is a trigger with a minus. -/
structure Misread (file : Bytes) : Prop where
  accepts : Accepts (linesOf file)
  size : ∃ text n, LastSets (linesOf file) memtableSizeKey text ∧ SizeText text n
  trigger : ∀ text, LastSets (linesOf file) l0CompactionTriggerKey text → ∃ n, TriggerText text n
  wrong : (∃ text, LastSets (linesOf file) memtableSizeKey text ∧ Loose text) ∨
    ∃ text, LastSets (linesOf file) l0CompactionTriggerKey text ∧ (Loose text ∨ Negative text)

/-- A text that is taken for a trigger gives one in range. -/
theorem range_of_triggerText {text : Bytes} {n : ℕ} (h : TriggerText text n) :
    0 < n ∧ n ≤ 2^64 - 1 := by
  obtain ⟨space, sign, digits, rest, -, rfl, hpos, hhi⟩ := h
  constructor
  · rw [Nat.pos_iff_ne_zero, ne_eq, signedValue_eq_zero_iff hhi]
    exact hpos.ne'
  · unfold signedValue
    split_ifs
    · exact Nat.le_of_lt_succ (Nat.mod_lt _ (Nat.succ_pos _))
    · exact hhi

/-- A file whose settings are taken for numbers gets an engine past its configuration. -/
theorem configure_of_misread {file : Bytes} (h : Misread file) :
    ∃ config text n compactionPolicy, Config.new (some file) = .ok config ∧
      LastSets (linesOf file) memtableSizeKey text ∧ SizeText text n ∧
      configure config = .ok (n * 2^20, compactionPolicy) ∧
      ∀ text, LastSets (linesOf file) l0CompactionTriggerKey text →
        TriggerText text compactionPolicy.l0FileTrigger := by
  obtain ⟨config, hnew⟩ : ∃ config, Config.new (some file) = .ok config := by
    rw [new_eq]
    rcases foldlM_readLine_cases (linesOf file) ⟨[]⟩ with ⟨-, hok⟩ | ⟨hnot, -⟩
    · exact hok
    · exact absurd h.accepts hnot
  obtain ⟨text, n, hlast, hsize⟩ := h.size
  -- The trigger is the one that the file gives, or the default.
  have htrigger : ∃ trigger, 0 < trigger ∧ config.getL0CompactionTrigger = .ok trigger ∧
      ∀ text, LastSets (linesOf file) l0CompactionTriggerKey text → TriggerText text trigger := by
    cases hfind : config.find l0CompactionTriggerKey with
    | none =>
      have hread := getL0CompactionTrigger_ok_iff.2 (.inl ⟨hfind, rfl⟩)
      refine ⟨4, by decide, hread, fun text hset => ?_⟩
      rw [(find_of_new hnew).2 hset] at hfind
      cases hfind
    | some text =>
      obtain ⟨trigger, htext⟩ := h.trigger text ((find_of_new hnew).1 hfind)
      refine ⟨trigger, (range_of_triggerText htext).1,
        getL0CompactionTrigger_ok_iff.2 (.inr ⟨text, hfind, htext⟩), fun text' hset => ?_⟩
      rw [(find_of_new hnew).2 hset] at hfind
      cases hfind
      exact htext
  obtain ⟨trigger, hpos, hread, htaken⟩ := htrigger
  exact ⟨config, text, n, ⟨trigger, hpos⟩, hnew, hlast, hsize,
    configure_ok_iff.2 ⟨⟨text, n, (find_of_new hnew).2 hlast, hsize, rfl⟩, hread⟩, htaken⟩

/-- A file that is not misread is taken for what it says. -/
theorem means_of_not_misread {file : Bytes} (h : ¬Misread file) {config : Config}
    (hnew : Config.new (some file) = .ok config) {memtableTargetBytes : ℕ}
    {compactionPolicy : CompactionPolicy}
    (hpast : configure config = .ok (memtableTargetBytes, compactionPolicy)) :
    Means file memtableTargetBytes compactionPolicy.l0FileTrigger := by
  obtain ⟨⟨text, n, hfind, hsize, rfl⟩, htrigger⟩ := configure_ok_iff.1 hpast
  have hlast := (find_of_new hnew).1 hfind
  -- The constructor has returned, so that it has accepted all lines.
  have haccepts : Accepts (linesOf file) := by
    rcases foldlM_readLine_cases (linesOf file) ⟨[]⟩ with ⟨haccepts, -⟩ | ⟨-, message, herror⟩
    · exact haccepts
    · rw [← new_eq, hnew] at herror
      cases herror
  have htaken : ∀ text, LastSets (linesOf file) l0CompactionTriggerKey text →
      TriggerText text compactionPolicy.l0FileTrigger := by
    intro text hset
    have hfound := (find_of_new hnew).2 hset
    rcases getL0CompactionTrigger_ok_iff.1 htrigger with ⟨hnone, -⟩ | ⟨text', hsome, htext⟩
    · cases hfound.symm.trans hnone
    · cases hfound.symm.trans hsome
      exact htext
  have htaken' : ∀ text, LastSets (linesOf file) l0CompactionTriggerKey text →
      ∃ n, TriggerText text n := fun text hset => ⟨_, htaken text hset⟩
  have hgiven : ∃ text n, LastSets (linesOf file) memtableSizeKey text ∧ SizeText text n :=
    ⟨text, n, hlast, hsize⟩
  refine ⟨⟨n, fun text' hset => ?_, rfl⟩, ⟨text, hlast⟩, fun text' hset => ?_⟩
  · -- A size that is no decimal would make the file one that is misread.
    cases ((find_of_new hnew).2 hset).symm.trans hfind
    have htight : ¬Loose text := fun hloose =>
      h ⟨haccepts, hgiven, htaken', .inl ⟨text, hlast, hloose⟩⟩
    refine ⟨hsize.isDecimal_iff.2 htight, ?_⟩
    obtain ⟨space, sign, digits, rest, -, -, rfl, hpos, hhi⟩ := hsize
    exact ⟨hpos, hhi⟩
  · -- So would a trigger.
    have htext := htaken text' hset
    have htight : ¬(Loose text' ∨ Negative text') := fun hwrong =>
      h ⟨haccepts, hgiven, htaken', .inr ⟨text', hset, hwrong⟩⟩
    exact ⟨htext.isDecimal_iff.2 htight, range_of_triggerText htext⟩

/-- The settings of a file mean what they say exactly when it is not misread. -/
theorem settingsMean_iff (file : Bytes) : SettingsMean file ↔ ¬Misread file := by
  constructor
  · intro h hmisread
    obtain ⟨config, text, n, compactionPolicy, hnew, hlast, hsize, hpast, htaken⟩ :=
      configure_of_misread hmisread
    obtain ⟨⟨megabytes, hdenotes, htarget⟩, -, htrigger⟩ := h.past config hnew _ _ hpast
    have hmegabytes : megabytes = n := by omega
    subst hmegabytes
    rcases hmisread.wrong with ⟨text', hset, hloose⟩ | ⟨text', hset, hwrong⟩
    · have hfind := (find_of_new hnew).2 hlast
      cases ((find_of_new hnew).2 hset).symm.trans hfind
      exact hsize.isDecimal_iff.1 (hdenotes text hset).1 hloose
    · exact (htaken text' hset).isDecimal_iff.1 (htrigger text' hset).1 hwrong
  · intro h
    refine ⟨fun config hnew _ _ hpast => means_of_not_misread h hnew hpast, ?_, ?_⟩
    · intro failure hfailure
      rw [new_eq] at hfailure
      rcases foldlM_readLine_cases (linesOf file) ⟨[]⟩ with ⟨-, config, hread⟩ | ⟨-, message, hread⟩
      · rw [hread] at hfailure
        exact exception_of_configure hfailure
      · rw [hread] at hfailure
        cases hfailure
        exact ⟨message, rfl⟩
    · exact fun config hnew F R H fmt s log e hcreate =>
        means_of_not_misread h hnew (configure_of_create hcreate)

/-- A size of one, and a trigger of minus one. -/
def minusOneFile : Bytes :=
  memtableSizeKey ++ [61, 49, 10] ++ l0CompactionTriggerKey ++ [61, 45, 49]

/-- It is accepted, with a trigger of `2^64 - 1` files. -/
theorem configure_minusOne : ∃ config compactionPolicy,
    Config.new (some minusOneFile) = .ok config ∧
    config.find l0CompactionTriggerKey = some [45, 49] ∧
    configure config = .ok (2^20, compactionPolicy) ∧
    compactionPolicy.l0FileTrigger = 2^64 - 1 := by
  refine ⟨⟨[(l0CompactionTriggerKey, [45, 49]), (memtableSizeKey, [49])]⟩,
    ⟨2^64 - 1, by norm_num⟩, ?_, ?_, ?_, rfl⟩
  · decide +kernel
  · decide +kernel
  · rfl

/-- The file says something else. -/
theorem minusOne_not_meant : ¬SettingsMean minusOneFile := by
  intro h
  obtain ⟨config, compactionPolicy, hnew, hfind, hpast, -⟩ := configure_minusOne
  obtain ⟨hdecimal, -⟩ :=
    (h.past config hnew _ _ hpast).trigger [45, 49] ((find_of_new hnew).1 hfind)
  have hdigits : ∀ b ∈ ([49] : Bytes), isDigit b = true := by
    intro b hb
    rw [List.mem_singleton.1 hb]
    rfl
  have hparts : NumberText [45, 49] [] [45] [49] [] :=
    numberText_of_decimal (.inr (.inr rfl)) (by simp) hdigits
  rw [hparts.isDecimal_iff] at hdecimal
  obtain ⟨-, -, -, hvalue⟩ := hdecimal
  -- The integer is below zero, and the trigger is not.
  have hnegative : integerOf [45] [49] < 0 := by decide
  rw [← hvalue] at hnegative
  exact absurd hnegative (not_lt.2 (Int.natCast_nonneg _))

end KronosEngine

end Kronos
