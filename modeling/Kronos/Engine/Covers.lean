import Kronos.Engine.Replay
import Kronos.Lsm.Visible
import Kronos.Sstable.Limits

/-!
# What the live files hold

The live files cover some records (`Store.Covers`): their versions stand for records, and the newest
version of each key answers as its last record. A flush of the Memtable that holds the next records
covers these too (`Store.Covers.flush`), and a compaction keeps what is covered
(`Store.Covers.compact`), also where it drops a tombstone. A flush and a compaction are prepared in
one step and committed in another one; `Store.FlushPrepared` and `Store.CompactionPrepared` say what
stands between them.

All of this is about tables that the format represents. `TableFormat.Holds` says that those do which
fit, and whose records the log takes.
-/

namespace Kronos

/-- The tables that fit are represented, if their records are those of the log. -/
def TableFormat.Holds {F R : Type} (fmt : TableFormat F R) (Fits : List TableRecord → Prop) :
    Prop :=
  ∀ rs, rs ≠ [] → Sorted rs → (∀ r ∈ rs, Sstable.AcceptedRecord r) → Fits rs → fmt.Represents rs

/-- The version of a record of the log is one that a table takes. -/
theorem Wal.ValidHistory.accepted {rs : List Record} (h : Wal.ValidHistory rs) {r : Record}
    (hr : r ∈ rs) : Sstable.AcceptedRecord (r.key, r.entry) := by
  obtain ⟨hop, hkey, hvalue⟩ := h.writable r hr
  have hsequence : r.sequence < 2^64 := by
    have hlt := h.sequence_lt r hr
    rw [uint64Max] at hlt
    omega
  unfold Record.entry
  split_ifs with hput
  · exact ⟨⟨hsequence, .inl rfl⟩, hkey, hvalue⟩
  · exact ⟨⟨hsequence, .inr rfl⟩, hkey, Nat.zero_le _⟩

/-- The versions of the records of a key have sequence numbers of their own. -/
theorem Wal.ValidHistory.entry_injOn {rs : List Record} (h : Wal.ValidHistory rs) {r r' : Record}
    (hr : r ∈ rs) (hr' : r' ∈ rs) (heq : r.sequence = r'.sequence) : r = r' := by
  have hnodup : (rs.map Record.sequence).Nodup :=
    List.pairwise_map.2 (h.increasing.imp fun hlt => hlt.ne)
  exact List.inj_on_of_nodup_map hnodup hr hr' heq

namespace Store

variable {F R : Type} {fmt : TableFormat F R}

/-- The live files hold versions that some records stand for, and answer every key as the last of
them does. -/
structure Covers (fmt : TableFormat F R) (s : Store F) (rs : List Record) : Prop where
  layered : s.Layered fmt
  versions : ∀ key, ∀ v ∈ s.versions fmt key, ∃ r ∈ rs, r.key = key ∧ r.entry = v
  newest : ∀ key, ∃ winner, Newest InternalEntry.sequence (s.versions fmt key) winner ∧
    answerOf winner = answerOf (lastEntry key rs)

/-- An empty directory covers no record. -/
theorem covers_empty : (empty : Store F).Covers fmt [] := by
  refine ⟨layered_empty, fun key v hv => ?_, fun key => ⟨none, fun v hv => ?_, rfl⟩⟩
  all_goals
    obtain ⟨f, hf, -⟩ := hv
    cases hf

namespace Covers

variable {s s' : Store F} {rs rs' : List Record}

/-- The sequence numbers tell the versions of a key apart. -/
theorem sequenced (h : s.Covers fmt rs) (hv : Wal.ValidHistory rs) : s.Sequenced fmt := by
  intro key v hmem v' hmem' heq
  obtain ⟨r, hr, -, rfl⟩ := h.versions key v hmem
  obtain ⟨r', hr', -, rfl⟩ := h.versions key v' hmem'
  rw [Record.entry_sequence, Record.entry_sequence] at heq
  rw [hv.entry_injOn hr hr' heq]

/-- New files beside the live ones cover nothing more, and nothing less. -/
theorem congr (hmanifest : s'.manifest = s.manifest) (hkeeps : KeepsFiles s s')
    (htabled : s.Tabled fmt) : s'.Covers fmt rs ↔ s.Covers fmt rs := by
  have hversions : ∀ key, s'.versions fmt key = s.versions fmt key := by
    intro key
    rw [Store.versions, hmanifest, versionsIn_eq hkeeps htabled.exact]
    rfl
  constructor
  · intro h
    refine ⟨⟨htabled, hmanifest ▸ h.layered.levels⟩, fun key v hv => ?_, fun key => ?_⟩
    · exact h.versions key v (hversions key ▸ hv)
    · rw [← hversions key]
      exact h.newest key
  · intro h
    refine ⟨⟨htabled.of_manifest_eq hmanifest hkeeps, hmanifest ▸ h.layered.levels⟩,
      fun key v hv => ?_, fun key => ?_⟩
    · exact h.versions key v (hversions key ▸ hv)
    · rw [hversions key]
      exact h.newest key

/-- A store with the same MANIFEST and more files still covers the records. -/
theorem mono (h : s.Covers fmt rs) (hmanifest : s'.manifest = s.manifest)
    (hkeeps : KeepsFiles s s') : s'.Covers fmt rs :=
  (congr hmanifest hkeeps h.layered.tabled).2 h

/-- The search of `get` in the live files returns the newest version of a key that a lookup takes,
which answers as its last record. -/
theorem lookupFiles (h : s.Covers fmt rs) {key : Bytes} (hkey : fmt.Takes key) :
    ∃ winner, s.lookupFiles fmt s.manifest.liveFiles key = .ok winner ∧
      Newest InternalEntry.sequence (s.versions fmt key) winner :=
  lookupFiles_spec h.layered.tabled.exact hkey

/-- The same, with the answer. -/
theorem answer (h : s.Covers fmt rs) (hv : Wal.ValidHistory rs) {key : Bytes}
    {winner : Option InternalEntry}
    (hwinner : Newest InternalEntry.sequence (s.versions fmt key) winner) :
    answerOf winner = answerOf (lastEntry key rs) := by
  obtain ⟨winner', hwinner', hanswer⟩ := h.newest key
  rw [hwinner.unique (h.sequenced hv key) hwinner', hanswer]

/-- The live files open. -/
theorem validates (h : s.Covers fmt rs) : KronosEngine.validateManifestSstables fmt s = .ok () := by
  have hopens : ∀ f ∈ s.manifest.liveFiles,
      s.fileExists f.path = true ∧ ∃ reader, s.openSstable fmt f.path = .ok reader := by
    intro f hf
    refine ⟨h.layered.tabled.fileExists hf, ?_⟩
    obtain ⟨rs, ⟨file, hfile, reader, hopen, -⟩, -, -⟩ := h.layered.tabled.exact f hf
    exact ⟨reader, by rw [openSstable, hfile, ← hopen]⟩
  unfold KronosEngine.validateManifestSstables
  generalize s.manifest.liveFiles = files at hopens
  induction files with
  | nil => rfl
  | cons f files ih =>
    obtain ⟨hexists, reader, hopen⟩ := hopens f (.head _)
    rw [List.forM_eq_forM] at ih ⊢
    rw [List.forM_cons, hexists, hopen]
    exact ih fun f' hf' => hopens f' (.tail _ hf')

/-! ## A flush -/

/-- A flush of a Memtable that holds the next records. -/
theorem flush (h : s.Covers fmt rs) (hv : Wal.ValidHistory (rs ++ rs')) {memtable : Memtable}
    (hreplays : memtable.Replays rs') {f : SstableMetadata} {through : ℕ}
    (hflushed : Flushed fmt s s' memtable f through) : s'.Covers fmt (rs ++ rs') := by
  have hversions := hflushed.versions h.layered.tabled
  refine ⟨h.layered.flush hflushed, fun key v hmem => ?_, fun key => ?_⟩
  · -- A version comes from the records that were covered, or from those of the Memtable.
    rw [hversions key] at hmem
    rcases hmem with hmem | hmem
    · obtain ⟨r, hr, hentry⟩ := h.versions key v hmem
      exact ⟨r, List.mem_append_left _ hr, hentry⟩
    · obtain ⟨r, hr, hentry⟩ := hreplays.exists_record hmem
      exact ⟨r, List.mem_append_right _ hr, hentry⟩
  · obtain ⟨winner, hwinner, hanswer⟩ := h.newest key
    have hmemtable : Newest InternalEntry.sequence
        {entry | (key, entry) ∈ memtable.table.entries} (lastEntry key rs') := by
      have hlookup := newest_lookup memtable.table.sorted key
      rwa [← hreplays key]
    refine ⟨_, (hwinner.union hmemtable).congr (hversions key).symm, ?_⟩
    rw [lastEntry_append]
    cases hlast : lastEntry key rs' with
    | none =>
      rw [Option.none_or, ← hanswer]
      cases winner <;> rfl
    | some entry =>
      -- A version that is covered is older than one in the Memtable.
      rw [Option.some_or]
      congr 1
      cases winner with
      | none => rfl
      | some old =>
        obtain ⟨r', hr', -, rfl⟩ := mem_of_lastEntry hlast
        obtain ⟨r, hr, -, rfl⟩ := h.versions key old hwinner.1
        have hlt : r.sequence < r'.sequence :=
          (List.pairwise_append.1 hv.increasing).2.2 r hr r' hr'
        rw [newer, if_pos (by rwa [Record.entry_sequence, Record.entry_sequence])]

/-! ## A compaction -/

/-- A compaction. -/
theorem compact (h : s.Covers fmt rs) (hv : Wal.ValidHistory rs) {plan : CompactionPlan}
    {smallest largest : Bytes} {inputs : List (List TableRecord)} {output : List TableRecord}
    {added : List SstableMetadata}
    (hcompacted : Compacted fmt s s' plan smallest largest inputs output added) :
    s'.Covers fmt rs := by
  have htabled := h.layered.tabled
  refine ⟨h.layered.compact hcompacted, fun key v hmem => ?_, fun key => ?_⟩
  · exact h.versions key v (hcompacted.versions_subset htabled key hmem)
  · obtain ⟨winner, hwinner, hanswer⟩ := h.newest key
    obtain ⟨winner', hwinner', hsame⟩ :=
      hcompacted.newest h.layered (h.sequenced hv) hwinner
    exact ⟨winner', hwinner', hsame.trans hanswer⟩

end Covers

/-! ## Between preparation and commit -/

/-- The table of a Memtable is written, and the edit adds it. -/
def FlushPrepared (fmt : TableFormat F R) (s : Store F) (memtable : Memtable)
    (edit : ManifestEdit) :
    Prop :=
  ∃ f through, edit = ⟨[], [f], some through⟩ ∧ s.Valid edit ∧
    s.Records fmt f memtable.table.entries ∧ f.level = 0 ∧
    IsHighest memtable.table.entries through

/-- A flush of a table that is represented is prepared. -/
theorem flushPrepared_of_prepareFlush {s s' : Store F} {memtable : Memtable} {edit : ManifestEdit}
    (htabled : s.Tabled fmt) (hrep : fmt.Represents memtable.table.entries)
    (h : s.prepareFlush fmt memtable = .ok (s', edit)) : s'.FlushPrepared fmt memtable edit := by
  obtain ⟨s₁, f, through, hprepare, hwrites, hlevel, hhighest⟩ :=
    s.prepareFlush_spec (flushable_of_prepareFlush h) hrep
  obtain ⟨rfl, rfl⟩ := Prod.mk.inj (Except.ok.inj (h.symm.trans hprepare))
  exact ⟨f, through, rfl, hwrites.valid htabled (some through), hwrites.records, hlevel, hhighest⟩

/-- What its commit does. -/
theorem FlushPrepared.commit {s s' : Store F} {memtable : Memtable} {edit : ManifestEdit}
    (h : s.FlushPrepared fmt memtable edit) (htabled : s.Tabled fmt)
    (hcommit : s.commit edit = .ok s') : ∃ f through, Flushed fmt s s' memtable f through := by
  obtain ⟨f, through, rfl, hvalid, hrecords, hlevel, hhighest⟩ := h
  rw [commit_eq hvalid htabled.distinct] at hcommit
  obtain ⟨checkpoint, hadvance, hcommit⟩ := bind_eq_ok hcommit
  cases hcommit
  have hupdates := updates_commit hvalid htabled.distinct checkpoint
  exact ⟨f, through, hupdates, hrecords.mono hupdates.keeps, hlevel, hhighest, hadvance⟩

/-- The merge of a plan over these live files is written, and the edit replaces what was taken. -/
def CompactionPrepared (fmt : TableFormat F R) (s : Store F) (edit : ManifestEdit) : Prop :=
  ∃ s₀ plan smallest largest inputs output added, s₀.Tabled fmt ∧
    Compacts fmt s₀ s plan smallest largest inputs output added ∧
    edit = ⟨plan.inputFiles.map (·.path), added, none⟩

/-- A compaction whose output is represented is prepared, unless there is nothing to do. -/
theorem prepareCompaction_returns {s : Store F} (htabled : s.Tabled fmt) (policy : CompactionPolicy)
    (hrep : ∀ plan output, policy.pickCompaction s.manifest.liveFiles = .ok (some plan) →
      s.planOutput fmt plan = .ok output → output ≠ [] → fmt.Represents output) :
    s.prepareCompaction fmt policy = .ok none ∨
      ∃ s' edit, s.prepareCompaction fmt policy = .ok (some (s', edit)) ∧
        s'.CompactionPrepared fmt edit := by
  rcases prepareCompaction_spec htabled policy hrep with hnone |
    ⟨s', plan, smallest, largest, inputs, output, added, -, hprepare, hcompacts⟩
  · exact .inl hnone
  · exact .inr ⟨s', _, hprepare, s, plan, smallest, largest, inputs, output, added, htabled,
      hcompacts, rfl⟩

/-- What its commit leaves covered. -/
theorem CompactionPrepared.commit {s s' : Store F} {edit : ManifestEdit} {rs : List Record}
    (h : s.CompactionPrepared fmt edit) (hcovers : s.Covers fmt rs) (hv : Wal.ValidHistory rs)
    (hcommit : s.commit edit = .ok s') : s'.Covers fmt rs := by
  obtain ⟨s₀, plan, smallest, largest, inputs, output, added, htabled, hcompacts, rfl⟩ := h
  have hcovers₀ := (Covers.congr hcompacts.manifest hcompacts.keeps htabled).1 hcovers
  obtain ⟨s'', hcommit', hcompacted⟩ := hcompacts.commit htabled
  obtain rfl := Except.ok.inj (hcommit.symm.trans hcommit')
  exact hcovers₀.compact hv hcompacted

end Store

end Kronos
