import Kronos.Lsm.Levels

/-!
# The visible database

What the live files answer for a key (`Store.answer`), and that a compaction does not change it.
The versions of a key that a plan takes are all that there are, because the plan is closed under
overlap, or it takes none of them. In the first case the merge keeps the newest, or drops it when it
is a tombstone with nothing left below.

The versions of a key in different files have different sequence numbers (`Store.Sequenced`).
Flushes keep this, since each Memtable is filled from the log, which numbers every write once.
-/

namespace Kronos

/-- The logical answer for the newest version of a key. -/
def answerOf (winner : Option InternalEntry) : Option Bytes := (GetResult.of winner).answer

/-- Dropping a tombstone does not change the answer. -/
theorem answerOf_kept (winner : Option InternalEntry) :
    answerOf (winner.bind (Compactor.kept true)) = answerOf winner := by
  cases winner with
  | none => rfl
  | some entry =>
    rw [Option.bind_some, Compactor.kept]
    split_ifs with hdrop
    · rw [answerOf, answerOf, GetResult.of, GetResult.of, if_pos hdrop.1]
      rfl
    · rfl

namespace Store

variable {F R : Type} {fmt : TableFormat F R}

/-- The logical answer of the live files. -/
def answer (fmt : TableFormat F R) (s : Store F) (key : Bytes) : Except Failure (Option Bytes) := do
  let winner ← s.lookupFiles fmt s.manifest.liveFiles key
  .ok (answerOf winner)

/-- The logical answer of the tables that the live files hold: that of the newest version of the
key, whatever the search of the code does. -/
def Answers (fmt : TableFormat F R) (s : Store F) (key : Bytes) (result : Option Bytes) : Prop :=
  ∃ winner, Newest InternalEntry.sequence (s.versions fmt key) winner ∧ answerOf winner = result

/-- The sequence numbers tell the versions of a key apart. -/
def Sequenced (fmt : TableFormat F R) (s : Store F) : Prop :=
  ∀ key, Set.InjOn InternalEntry.sequence (s.versions fmt key)

/-- The answer for a key that a lookup takes is that of its newest version. -/
theorem answer_eq {s : Store F} (htabled : s.Tabled fmt) (hsequenced : s.Sequenced fmt)
    {key : Bytes}
    (hkey : fmt.Takes key) {winner : Option InternalEntry}
    (hwinner : Newest InternalEntry.sequence (s.versions fmt key) winner) :
    s.answer fmt key = .ok (answerOf winner) := by
  obtain ⟨winner', hreturns, hnewest⟩ := lookupFiles_spec htabled.exact hkey
  rw [answer, hreturns, ok_bind, hnewest.unique (hsequenced key) hwinner]

/-- The search of the code finds the logical answer for a key that a lookup takes. -/
theorem Answers.answer {s : Store F} {key : Bytes} {result : Option Bytes}
    (h : s.Answers fmt key result) (htabled : s.Tabled fmt) (hsequenced : s.Sequenced fmt)
    (hkey : fmt.Takes key) : s.answer fmt key = .ok result := by
  obtain ⟨winner, hwinner, rfl⟩ := h
  exact answer_eq htabled hsequenced hkey hwinner

/-- Then there is one logical answer. -/
theorem Answers.unique {s : Store F} (hsequenced : s.Sequenced fmt) {key : Bytes}
    {result result' : Option Bytes}
    (h : s.Answers fmt key result) (h' : s.Answers fmt key result') : result = result' := by
  obtain ⟨winner, hwinner, rfl⟩ := h
  obtain ⟨winner', hwinner', rfl⟩ := h'
  rw [hwinner.unique (hsequenced key) hwinner']

/-- There is a newest version, or there is none. -/
theorem Tabled.exists_newest {s : Store F} (htabled : s.Tabled fmt) (key : Bytes) :
    ∃ winner, Newest InternalEntry.sequence (s.versions fmt key) winner :=
  exists_newestIn htabled.exact key

/-! ## Versions behind an update -/

/-- The versions behind an update are those of the files that stay, and those of the added files. -/
theorem Updates.versions {s s' : Store F} {removed : List SstablePath}
    {added : List SstableMetadata} (h : Updates s s' removed added) (htabled : s.Tabled fmt)
    {key : Bytes} {entry : InternalEntry} : entry ∈ s'.versions fmt key ↔
      (∃ f ∈ s.manifest.liveFiles, f.path ∉ removed ∧ ∃ rs, s.Holds fmt f rs ∧ (key, entry) ∈ rs) ∨
        ∃ f ∈ added, ∃ rs, s'.Holds fmt f rs ∧ (key, entry) ∈ rs := by
  constructor
  · rintro ⟨f, hf, rs, hholds, hmem⟩
    rcases (h.live f).1 hf with ⟨hlive, hstays⟩ | hadded
    · obtain ⟨rs', hrecords⟩ := htabled.exact f hlive
      rw [hholds.unique (hrecords.holds.mono h.keeps)] at hmem
      exact .inl ⟨f, hlive, hstays, rs', hrecords.holds, hmem⟩
    · exact .inr ⟨f, hadded, rs, hholds, hmem⟩
  · rintro (⟨f, hlive, hstays, rs, hholds, hmem⟩ | ⟨f, hadded, rs, hholds, hmem⟩)
    · exact ⟨f, (h.live f).2 (.inl ⟨hlive, hstays⟩), rs, hholds.mono h.keeps, hmem⟩
    · exact ⟨f, (h.live f).2 (.inr hadded), rs, hholds, hmem⟩

/-- A flush adds the versions of its Memtable. -/
theorem Flushed.versions {s s' : Store F} {memtable : Memtable} {f : SstableMetadata} {through : ℕ}
    (h : Flushed fmt s s' memtable f through) (htabled : s.Tabled fmt) (key : Bytes) :
    s'.versions fmt key = s.versions fmt key ∪ {entry | (key, entry) ∈ memtable.table.entries} := by
  ext entry
  rw [h.updates.versions htabled]
  constructor
  · rintro (⟨f', hlive, -, hmem⟩ | ⟨f', hadded, rs, hholds, hmem⟩)
    · exact .inl ⟨f', hlive, hmem⟩
    · rw [List.mem_singleton.1 hadded] at hholds
      exact .inr (hholds.unique h.records.holds ▸ hmem)
  · rintro (⟨f', hlive, hmem⟩ | hmem)
    · exact .inl ⟨f', hlive, List.not_mem_nil, hmem⟩
    · exact .inr ⟨f, .head _, _, h.records.holds, hmem⟩

/-! ## A compaction -/

section Compacted

variable {s s' : Store F} {plan : CompactionPlan} {smallest largest : Bytes}
  {inputs : List (List TableRecord)} {output : List TableRecord} {added : List SstableMetadata}

/-- The versions in the files that a plan leaves. -/
def versionsLeft (fmt : TableFormat F R) (s : Store F) (plan : CompactionPlan) (key : Bytes) :
    Set InternalEntry :=
  {entry | ∃ f ∈ s.manifest.liveFiles, f ∉ plan.inputFiles ∧
    ∃ rs, s.Holds fmt f rs ∧ (key, entry) ∈ rs}

/-- Before a compaction, the versions are those of its inputs, and those that it leaves. -/
theorem Compacted.versions_before (h : Compacted fmt s s' plan smallest largest inputs output added)
    (key : Bytes) :
    s.versions fmt key = Compactor.versions inputs key ∪ versionsLeft fmt s plan key := by
  ext entry
  rw [Set.mem_union, mem_versions_inputs h.holds]
  constructor
  · rintro ⟨f, hf, hmem⟩
    by_cases hinput : f ∈ plan.inputFiles
    · exact .inl ⟨f, hinput, hmem⟩
    · exact .inr ⟨f, hf, hinput, hmem⟩
  · rintro (⟨f, hf, hmem⟩ | ⟨f, hf, -, hmem⟩)
    · exact ⟨f, h.input_live hf, hmem⟩
    · exact ⟨f, hf, hmem⟩

/-- Behind it, they are those of its output, and those that it leaves. -/
theorem Compacted.versions_after (h : Compacted fmt s s' plan smallest largest inputs output added)
    (htabled : s.Tabled fmt) (key : Bytes) :
    s'.versions fmt key = {entry | (key, entry) ∈ output} ∪ versionsLeft fmt s plan key := by
  ext entry
  rw [h.updates.versions htabled, Set.mem_union, or_comm]
  have hleft : (∃ f ∈ s.manifest.liveFiles, f.path ∉ plan.inputFiles.map (·.path) ∧
      ∃ rs, s.Holds fmt f rs ∧ (key, entry) ∈ rs) ↔ entry ∈ versionsLeft fmt s plan key := by
    constructor
    · exact fun ⟨f, hf, hstays, hmem⟩ => ⟨f, hf, (h.stays_iff htabled hf).1 hstays, hmem⟩
    · exact fun ⟨f, hf, hnot, hmem⟩ => ⟨f, hf, (h.stays_iff htabled hf).2 hnot, hmem⟩
  refine or_congr ?_ hleft
  rcases h.output with ⟨hempty, hadded⟩ | ⟨f, hadded, -, hrecords⟩
  · simp [hempty, hadded]
  · rw [hadded]
    constructor
    · rintro ⟨f', hf', rs, hholds, hmem⟩
      rw [List.mem_singleton.1 hf'] at hholds
      exact hholds.unique hrecords.holds ▸ hmem
    · exact fun hmem => ⟨f, .head _, output, hrecords.holds, hmem⟩

/-- If a plan takes a version of a key, then it leaves none. -/
theorem Compacted.versionsLeft_eq_empty
    (h : Compacted fmt s s' plan smallest largest inputs output added) (hlayered : s.Layered fmt)
    {key : Bytes} {entry : InternalEntry} (hentry : entry ∈ Compactor.versions inputs key) :
    versionsLeft fmt s plan key = ∅ := by
  obtain ⟨f, hf, rs, hholds, hmem⟩ := (mem_versions_inputs h.holds).1 hentry
  obtain ⟨rs', hrecords⟩ := hlayered.tabled.exact f (h.input_live hf)
  rw [hholds.unique hrecords.holds] at hmem
  refine Set.eq_empty_of_forall_notMem ?_
  rintro entry' ⟨g, hg, hnot, rsg, hholds', hmem'⟩
  obtain ⟨rsg', hrecords'⟩ := hlayered.tabled.exact g hg
  rw [hholds'.unique hrecords'.holds] at hmem'
  exact hnot
    (h.selects.closed hlayered.levels hf (hrecords.covers hmem) hg (hrecords'.covers hmem'))

/-- A compaction adds no version. -/
theorem Compacted.versions_subset (h : Compacted fmt s s' plan smallest largest inputs output added)
    (htabled : s.Tabled fmt) (key : Bytes) : s'.versions fmt key ⊆ s.versions fmt key := by
  rw [h.versions_before, h.versions_after htabled]
  exact Set.union_subset_union_left _ fun entry hmem => (h.merged.mem_versions hmem).1

/-- So it keeps the versions apart. -/
theorem Sequenced.compact (hsequenced : s.Sequenced fmt)
    (h : Compacted fmt s s' plan smallest largest inputs output added) (htabled : s.Tabled fmt) :
    s'.Sequenced fmt := fun key => (hsequenced key).mono (h.versions_subset htabled key)

/-- What is newest behind a compaction answers as what was newest before. -/
theorem Compacted.newest (h : Compacted fmt s s' plan smallest largest inputs output added)
    (hlayered : s.Layered fmt) (hsequenced : s.Sequenced fmt) {key : Bytes}
    {winner : Option InternalEntry}
    (hwinner : Newest InternalEntry.sequence (s.versions fmt key) winner) :
    ∃ winner', Newest InternalEntry.sequence (s'.versions fmt key) winner' ∧
      answerOf winner' = answerOf winner := by
  obtain ⟨input, hinput, hlookup⟩ := h.merged.newest key
  have houtput := newest_lookup h.merged.sorted key
  rw [hlookup] at houtput
  cases input with
  | none =>
    -- The inputs have no version of the key, and neither has the output.
    have hinputs : Compactor.versions inputs key = ∅ := Set.eq_empty_of_forall_notMem hinput
    have hempty : {entry | (key, entry) ∈ output} = ∅ := Set.eq_empty_of_forall_notMem houtput
    refine ⟨winner, hwinner.congr ?_, rfl⟩
    rw [h.versions_before, h.versions_after hlayered.tabled, hinputs, hempty]
  | some entry =>
    -- The inputs have all versions of the key.
    have hleft := h.versionsLeft_eq_empty hlayered hinput.1
    have hbefore := h.versions_before key
    have hafter := h.versions_after hlayered.tabled key
    rw [hleft, Set.union_empty] at hbefore hafter
    refine ⟨_, houtput.congr hafter.symm, ?_⟩
    rw [answerOf_kept, (hinput.congr hbefore.symm).unique (hsequenced key) hwinner]

/-- A compaction does not change what the live files answer. -/
theorem Compacted.answers (h : Compacted fmt s s' plan smallest largest inputs output added)
    (hlayered : s.Layered fmt) (hsequenced : s.Sequenced fmt) (key : Bytes) :
    ∃ result, s.Answers fmt key result ∧ s'.Answers fmt key result := by
  obtain ⟨winner, hwinner⟩ := hlayered.tabled.exists_newest key
  obtain ⟨winner', hwinner', hanswer⟩ := h.newest hlayered hsequenced hwinner
  exact ⟨answerOf winner, ⟨winner, hwinner, rfl⟩, winner', hwinner', hanswer⟩

end Compacted

end Store

end Kronos
