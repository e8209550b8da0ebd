import Kronos.Lsm.Tables

/-!
# What a flush and a compaction do

Over a store whose live files hold tables (`Store.Tabled`), a flush adds one table with exact
metadata (`prepareFlush_spec`), and a compaction replaces what its plan takes by their merge
(`prepareCompaction_spec`). Neither reads a file that is not live, nor overwrites one. The commit is
accepted (`commit_eq`), unless it would move the checkpoint backwards.
-/

namespace Kronos

namespace Store

variable {F R : Type} {fmt : TableFormat F R}

/-- Every live file has a path of its own, and holds a table with exact metadata. -/
structure Tabled (fmt : TableFormat F R) (s : Store F) : Prop where
  distinct : Manifest.DistinctPaths s.manifest.liveFiles
  exact : ∀ f ∈ s.manifest.liveFiles, ∃ rs, s.Records fmt f rs

/-- A live file exists. -/
theorem Tabled.fileExists {s : Store F} (h : s.Tabled fmt) {f : SstableMetadata}
    (hf : f ∈ s.manifest.liveFiles) : s.fileExists f.path = true := by
  obtain ⟨rs, ⟨file, hfile, -⟩, -, -⟩ := h.exact f hf
  rw [Store.fileExists, hfile]
  rfl

/-! ## The commit -/

/-- The live files behind an edit. -/
def liveAfter (s : Store F) (edit : ManifestEdit) : List SstableMetadata :=
  sortMetadata ((s.manifest.liveFiles.filter fun f => f.path ∉ edit.removeFiles) ++ edit.addFiles)

/-- What the commit relies on in an edit: it removes live files, each once, and adds at most one
file, with an ordered range, under a path that no live file has. -/
structure Valid (s : Store F) (edit : ManifestEdit) : Prop where
  remove_nodup : edit.removeFiles.Nodup
  remove_live : ∀ path ∈ edit.removeFiles, ∃ f ∈ s.manifest.liveFiles, f.path = path
  add : edit.addFiles = [] ∨ ∃ f, edit.addFiles = [f] ∧ f.smallestKey ≤ f.largestKey ∧
    ∀ g ∈ s.manifest.liveFiles, g.path ≠ f.path

/-- The files behind a valid edit have distinct paths. -/
theorem Valid.distinct {s : Store F} {edit : ManifestEdit} (h : s.Valid edit)
    (hdistinct : Manifest.DistinctPaths s.manifest.liveFiles) : Manifest.DistinctPaths
      ((s.manifest.liveFiles.filter fun f => f.path ∉ edit.removeFiles) ++ edit.addFiles) :=
  hdistinct.edit _ (h.add.imp_right fun ⟨f, hadd, _, hfresh⟩ => ⟨f, hadd, hfresh⟩)

/-- The commit of a valid edit takes effect, unless its checkpoint moves backwards. -/
theorem commit_eq {s : Store F} {edit : ManifestEdit} (h : s.Valid edit)
    (hdistinct : Manifest.DistinctPaths s.manifest.liveFiles) :
    s.commit edit =
      (Manifest.advanceCheckpoint s.manifest.persistedThrough edit.persistedThrough >>=
      fun checkpoint => .ok { s with manifest := ⟨s.liveAfter edit, checkpoint⟩ }) := by
  have hrange : ∀ f ∈ edit.addFiles, f.smallestKey ≤ f.largestKey := by
    rcases h.add with hadd | ⟨f, hadd, hle, -⟩
    · rw [hadd]
      exact fun f hf => absurd hf List.not_mem_nil
    · rw [hadd]
      exact fun f' hf' => List.mem_singleton.1 hf' ▸ hle
  rw [commit, Manifest.applyEdit_eq h.remove_nodup h.remove_live hrange (h.distinct hdistinct)]
  cases Manifest.advanceCheckpoint s.manifest.persistedThrough edit.persistedThrough <;> rfl

/-- A commit leaves the files. -/
theorem keepsFiles_of_commit {s s' : Store F} {edit : ManifestEdit} (h : s.commit edit = .ok s') :
    KeepsFiles s s' := by
  obtain ⟨manifest, -, h⟩ := bind_eq_ok h
  cases h
  exact .refl s

/-- The effect of the commit of a valid edit. -/
theorem updates_commit {s : Store F} {edit : ManifestEdit} (h : s.Valid edit)
    (hdistinct : Manifest.DistinctPaths s.manifest.liveFiles) (checkpoint : Option ℕ) :
    Updates s { s with manifest := ⟨s.liveAfter edit, checkpoint⟩ } edit.removeFiles
      edit.addFiles := by
  refine ⟨fun f => ?_, Manifest.distinctPaths_sortMetadata.2 (h.distinct hdistinct),
    KeepsFiles.refl s⟩
  rw [liveAfter, Manifest.mem_sortMetadata, List.mem_append, List.mem_filter, decide_eq_true_eq]

/-! ## A flush -/

/-- A sorted table was built, and published with its range: the MANIFEST is as it was, and so are
the files that were there. -/
structure Publishes (fmt : TableFormat F R) (s s' : Store F) (f : SstableMetadata)
    (rs : List TableRecord) : Prop where
  manifest : s'.manifest = s.manifest
  keeps : KeepsFiles s s'
  /-- No file had the path. -/
  fresh : s.fileExists f.path = false
  built : ∃ file, s'.files.lookup f.path = some file ∧ fmt.build rs = .ok file
  sorted : Sorted rs
  range : HasRange rs f.smallestKey f.largestKey

/-- The range of a published table is not reversed. -/
theorem Publishes.smallestKey_le {s s' : Store F} {f : SstableMetadata} {rs : List TableRecord}
    (h : Publishes fmt s s' f rs) : f.smallestKey ≤ f.largestKey := h.range.le h.sorted

/-- A table was written: it was published, and a reader finds it. -/
structure Writes (fmt : TableFormat F R) (s s' : Store F) (f : SstableMetadata)
    (rs : List TableRecord) : Prop extends Publishes fmt s s' f rs where
  records : s'.Records fmt f rs

/-- The highest sequence number of some records. -/
def IsHighest (rs : List TableRecord) (sequence : ℕ) : Prop :=
  (∃ r ∈ rs, r.2.sequence = sequence) ∧ ∀ r ∈ rs, r.2.sequence ≤ sequence

/-- The walk of a flush bounds the number that it starts with and those of the records. -/
theorem le_flushedThrough (rs : List TableRecord) (through : ℕ) :
    through ≤ flushedThrough through rs ∧ ∀ r ∈ rs, r.2.sequence ≤ flushedThrough through rs := by
  induction rs generalizing through with
  | nil => exact ⟨le_rfl, fun r hr => absurd hr List.not_mem_nil⟩
  | cons r rs ih =>
    obtain ⟨hle, hall⟩ := ih (max through r.2.sequence)
    refine ⟨(le_max_left _ _).trans hle, fun r' hr' => ?_⟩
    rcases List.mem_cons.1 hr' with rfl | hr'
    · exact (le_max_right _ _).trans hle
    · exact hall r' hr'

/-- It ends with one of these numbers. -/
theorem flushedThrough_mem (rs : List TableRecord) (through : ℕ) :
    flushedThrough through rs = through ∨ ∃ r ∈ rs, r.2.sequence = flushedThrough through rs := by
  induction rs generalizing through with
  | nil => exact .inl rfl
  | cons r rs ih =>
    have hcons :
        flushedThrough through (r :: rs) = flushedThrough (max through r.2.sequence) rs := rfl
    rw [hcons]
    rcases ih (max through r.2.sequence) with heq | ⟨r', hr', heq⟩
    · rw [heq]
      rcases max_choice through r.2.sequence with hmax | hmax
      · exact .inl hmax
      · exact .inr ⟨r, .head _, hmax.symm⟩
    · exact .inr ⟨r', .tail _ hr', heq⟩

/-- So it finds the highest sequence number. -/
theorem isHighest_flushedThrough (first : TableRecord) (rest : List TableRecord) :
    IsHighest (first :: rest) (flushedThrough first.2.sequence (first :: rest)) := by
  refine ⟨?_, (le_flushedThrough _ _).2⟩
  rcases flushedThrough_mem (first :: rest) first.2.sequence with heq | hmem
  · exact ⟨first, .head _, heq.symm⟩
  · exact hmem

/-- A Memtable as `rotateActiveMemtableLocked` hands it over: frozen, and not empty. -/
structure Flushable (memtable : Memtable) : Prop where
  state : memtable.state = .immutable
  nonempty : memtable.table.entries ≠ []

/-- Only such a Memtable is flushed. -/
theorem flushable_of_prepareFlush {s s' : Store F} {memtable : Memtable} {edit : ManifestEdit}
    (h : s.prepareFlush fmt memtable = .ok (s', edit)) : Flushable memtable := by
  unfold prepareFlush at h
  split_ifs at h with hstate
  refine ⟨not_not.1 hstate, fun hnil => ?_⟩
  rw [hnil] at h
  cases h

/-- Publishing a table that was built under a free path. -/
theorem publishes_publish (s : Store F) (f : SstableMetadata) {rs : List TableRecord} {file : F}
    (hfresh : s.fileExists f.path = false) (hbuild : fmt.build rs = .ok file) (hsorted : Sorted rs)
    (hrange : HasRange rs f.smallestKey f.largestKey) (next : ℕ) :
    Publishes fmt s (publish { s with nextSstableId := next } f.path file) f rs :=
  ⟨rfl, keepsFiles_publish s f.path file, hfresh, ⟨file, lookup_publish hfresh file, hbuild⟩,
    hsorted, hrange⟩

/-- A reader finds it, if it is stored. -/
theorem Publishes.writes {s s' : Store F} {f : SstableMetadata} {rs : List TableRecord}
    (h : Publishes fmt s s' f rs) (hstores : ∀ file, fmt.build rs = .ok file → fmt.Stores file rs) :
    Writes fmt s s' f rs := by
  obtain ⟨file, hfile, hbuild⟩ := h.built
  exact ⟨h, ⟨file, hfile, hstores file hbuild⟩, h.sorted, h.range⟩

/-- A flush whose table is built publishes it on level 0, and its edit adds it, with the highest
sequence number as the checkpoint. -/
theorem prepareFlush_built (s : Store F) {memtable : Memtable} (h : Flushable memtable) {file : F}
    (hbuild : fmt.build memtable.table.entries = .ok file) :
    ∃ s' f through, s.prepareFlush fmt memtable = .ok (s', ⟨[], [f], some through⟩) ∧
      Publishes fmt s s' f memtable.table.entries ∧ f.level = 0 ∧
      IsHighest memtable.table.entries through := by
  obtain ⟨path, next, halloc, hfresh, -⟩ := s.allocateSstablePath_returns 0
  have hsorted := memtable.table.sorted
  cases hentries : memtable.table.entries with
  | nil => exact absurd hentries h.nonempty
  | cons first rest =>
    rw [hentries] at hbuild hsorted
    have hpublishes := s.publishes_publish ⟨path, 0, first.1, lastKey first.1 (first :: rest)⟩
      hfresh hbuild hsorted (hasRange_walk first rest) next
    refine ⟨_, _, _, ?_, hpublishes, rfl, isHighest_flushedThrough first rest⟩
    rw [prepareFlush, if_neg (not_not.2 h.state), hentries]
    simp only [halloc, hbuild, ok_bind]

/-- A flush that is prepared has built its table. -/
theorem build_of_prepareFlush {s s' : Store F} {memtable : Memtable} {edit : ManifestEdit}
    (h : s.prepareFlush fmt memtable = .ok (s', edit)) :
    ∃ file, fmt.build memtable.table.entries = .ok file := by
  unfold prepareFlush at h
  split_ifs at h
  cases hentries : memtable.table.entries with
  | nil =>
    rw [hentries] at h
    cases h
  | cons first rest =>
    rw [hentries] at h
    obtain ⟨allocated, -, h⟩ := bind_eq_ok h
    obtain ⟨file, hbuild, -⟩ := bind_eq_ok h
    exact ⟨file, hbuild⟩

/-- What a flush that is prepared has published. -/
theorem publishes_of_prepareFlush {s s' : Store F} {memtable : Memtable} {edit : ManifestEdit}
    (h : s.prepareFlush fmt memtable = .ok (s', edit)) :
    ∃ f through, edit = ⟨[], [f], some through⟩ ∧ Publishes fmt s s' f memtable.table.entries ∧
      f.level = 0 ∧ IsHighest memtable.table.entries through := by
  obtain ⟨file, hbuild⟩ := build_of_prepareFlush h
  obtain ⟨s₁, f, through, hprepare, hpublishes, hlevel, hhighest⟩ :=
    s.prepareFlush_built (flushable_of_prepareFlush h) hbuild
  obtain ⟨rfl, rfl⟩ := Prod.mk.inj (Except.ok.inj (h.symm.trans hprepare))
  exact ⟨f, through, rfl, hpublishes, hlevel, hhighest⟩

/-- Where the table is represented, a reader finds it. -/
theorem prepareFlush_spec (s : Store F) {memtable : Memtable} (h : Flushable memtable)
    (hrep : fmt.Represents memtable.table.entries) :
    ∃ s' f through, s.prepareFlush fmt memtable = .ok (s', ⟨[], [f], some through⟩) ∧
      Writes fmt s s' f memtable.table.entries ∧ f.level = 0 ∧
      IsHighest memtable.table.entries through := by
  obtain ⟨file, hbuild, hstores⟩ := hrep
  obtain ⟨s', f, through, hprepare, hpublishes, hlevel, hhighest⟩ := s.prepareFlush_built h hbuild
  refine ⟨s', f, through, hprepare, hpublishes.writes fun file' hbuild' => ?_, hlevel, hhighest⟩
  obtain rfl := Except.ok.inj (hbuild.symm.trans hbuild')
  exact hstores

/-- A flush is prepared, if its table is built. -/
theorem prepareFlush_returns (s : Store F) {memtable : Memtable} (h : Flushable memtable) {file : F}
    (hbuild : fmt.build memtable.table.entries = .ok file) :
    ∃ s' edit, s.prepareFlush fmt memtable = .ok (s', edit) := by
  obtain ⟨s', f, through, hprepare, -⟩ := s.prepareFlush_built h hbuild
  exact ⟨s', _, hprepare⟩

/-- The edit of a flush is valid. -/
theorem valid_flush {s s' : Store F} {f : SstableMetadata} (hmanifest : s'.manifest = s.manifest)
    (hfresh : s.fileExists f.path = false) (hle : f.smallestKey ≤ f.largestKey)
    (hlive : ∀ g ∈ s.manifest.liveFiles, s.fileExists g.path = true) (through : Option ℕ) :
    s'.Valid ⟨[], [f], through⟩ := by
  refine ⟨.nil, fun path hpath => absurd hpath List.not_mem_nil, .inr ⟨f, rfl, hle, ?_⟩⟩
  intro g hg heq
  have hexists := hlive g (hmanifest ▸ hg)
  rw [heq, hfresh] at hexists
  cases hexists

/-- An edit that adds the written table leaves a valid store. -/
theorem Writes.valid {s s' : Store F} {f : SstableMetadata} {rs : List TableRecord}
    (h : Writes fmt s s' f rs) (htabled : s.Tabled fmt) (through : Option ℕ) :
    s'.Valid ⟨[], [f], through⟩ :=
  valid_flush h.manifest h.fresh h.smallestKey_le (fun _ => htabled.fileExists) through

/-! ## A compaction -/

/-- A compaction up to its commit: what the policy selects is read and merged, and the merge is
written to level 1, unless it is empty. -/
structure Compacts (fmt : TableFormat F R) (s s' : Store F) (plan : CompactionPlan)
    (smallest largest : Bytes) (inputs : List (List TableRecord)) (output : List TableRecord)
    (added : List SstableMetadata) : Prop where
  selects : CompactionPolicy.Selects s.manifest.liveFiles plan smallest largest
  holds : List.Forall₂ (s.Holds fmt) plan.inputFiles inputs
  merged : Compactor.Merged true inputs output
  manifest : s'.manifest = s.manifest
  keeps : KeepsFiles s s'
  output : output = [] ∧ added = [] ∨
    ∃ f, added = [f] ∧ f.level = 1 ∧ Writes fmt s s' f output

/-- The versions of a key in the inputs are those in the files of the plan. -/
theorem mem_versions_inputs {s : Store F} {files : List SstableMetadata}
    {inputs : List (List TableRecord)} (h : List.Forall₂ (s.Holds fmt) files inputs) {key : Bytes}
    {entry : InternalEntry} : entry ∈ Compactor.versions inputs key ↔
      ∃ f ∈ files, ∃ rs, s.Holds fmt f rs ∧ (key, entry) ∈ rs := by
  induction h with
  | nil => simp [Compactor.versions]
  | @cons f rs files inputs hf _ ih =>
    have hhead : (∃ rs', s.Holds fmt f rs' ∧ (key, entry) ∈ rs') ↔ (key, entry) ∈ rs := by
      constructor
      · rintro ⟨rs', hf', hmem⟩
        rwa [hf.unique hf']
      · exact fun hmem => ⟨rs, hf, hmem⟩
    rw [List.exists_mem_cons_iff, hhead, ← ih]
    exact List.exists_mem_cons_iff _ _ _

/-- The files of a plan can be read. -/
theorem readTables_returns {s : Store F} (htabled : s.Tabled fmt) {files : List SstableMetadata}
    (hlive : ∀ f ∈ files, f ∈ s.manifest.liveFiles) :
    ∃ inputs, (files.map (·.path)).mapM (s.readTable fmt) = .ok inputs ∧
      List.Forall₂ (s.Holds fmt) files inputs ∧ ∀ l ∈ inputs, Sorted l := by
  have hread : ∀ path ∈ files.map (·.path), ∃ rs, s.readTable fmt path = .ok rs := by
    intro path hpath
    obtain ⟨f, hf, rfl⟩ := List.mem_map.1 hpath
    obtain ⟨rs, hrecords⟩ := htabled.exact f (hlive f hf)
    exact ⟨rs, hrecords.holds.readTable⟩
  obtain ⟨inputs, hinputs⟩ := mapM_returns hread
  have hall := mapM_eq_ok_iff.1 hinputs
  rw [List.forall₂_map_left_iff] at hall
  -- What is read from a live file is the table that it holds.
  have hrecords : List.Forall₂ (fun f rs => s.Records fmt f rs) files inputs := by
    clear hinputs hread
    induction hall with
    | nil => exact .nil
    | @cons f rs files inputs hf _ ih =>
      obtain ⟨rs', hrecords⟩ := htabled.exact f (hlive f (.head _))
      have heq : rs' = rs := Except.ok.inj (hrecords.holds.readTable.symm.trans hf)
      exact .cons (heq ▸ hrecords) (ih fun f' hf' => hlive f' (.tail _ hf'))
  refine ⟨inputs, hinputs, hrecords.imp fun _ _ h => h.holds, ?_⟩
  clear hinputs hread hall
  induction hrecords with
  | nil => exact fun l hl => absurd hl List.not_mem_nil
  | cons hf _ ih =>
    intro l hl
    rcases List.mem_cons.1 hl with rfl | hl
    · exact hf.sorted
    · exact ih (fun f' hf' => hlive f' (.tail _ hf')) l hl

/-- The merge of what a plan takes. -/
def planOutput (fmt : TableFormat F R) (s : Store F) (plan : CompactionPlan) :
    Except Failure (List TableRecord) := do
  let inputs ← (plan.inputFiles.map (·.path)).mapM (s.readTable fmt)
  Compactor.merge plan.canDropTombstones inputs

/-- The merge of live tables is sorted, and its records are versions of the live files. -/
theorem planOutput_spec {s : Store F} (htabled : s.Tabled fmt) {plan : CompactionPlan}
    {smallest largest : Bytes}
    (hselects : CompactionPolicy.Selects s.manifest.liveFiles plan smallest largest) :
    ∃ inputs output, (plan.inputFiles.map (·.path)).mapM (s.readTable fmt) = .ok inputs ∧
      Compactor.merge plan.canDropTombstones inputs = .ok output ∧
      s.planOutput fmt plan = .ok output ∧ List.Forall₂ (s.Holds fmt) plan.inputFiles inputs ∧
      Compactor.Merged true inputs output ∧ ∀ r ∈ output, r.2 ∈ s.versions fmt r.1 := by
  have hlive : ∀ f ∈ plan.inputFiles, f ∈ s.manifest.liveFiles :=
    fun f hf => ((hselects.inputs f).1 hf).1
  obtain ⟨inputs, hinputs, hholds, hsorted⟩ := readTables_returns htabled hlive
  obtain ⟨output, houtput, hmerged⟩ := Compactor.merge_spec true hsorted
  rw [← hselects.canDropTombstones] at houtput
  refine ⟨inputs, output, hinputs, houtput, ?_, hholds, hmerged, fun r hr => ?_⟩
  · rw [planOutput, hinputs, ok_bind, houtput]
  · obtain ⟨f, hf, hmem⟩ := (mem_versions_inputs hholds).1 (hmerged.mem_versions hr).1
    exact ⟨f, hlive f hf, hmem⟩

/-- A merge is written unless it is empty, and its metadata are those of its first and last key. -/
theorem compact_returns {s : Store F} (htabled : s.Tabled fmt) {plan : CompactionPlan}
    {smallest largest : Bytes}
    (hselects : CompactionPolicy.Selects s.manifest.liveFiles plan smallest largest)
    {path : SstablePath} {next : ℕ} (hfresh : s.fileExists path = false)
    (hrep : ∀ output, s.planOutput fmt plan = .ok output → output ≠ [] → fmt.Represents output) :
    ∃ s' inputs output added,
      (do
        let (s, result) ← compact fmt { s with nextSstableId := next }
          (plan.inputFiles.map (·.path)) path plan.canDropTombstones
        let addFiles ← result.outputFiles.mapM (s.metadataForSstable fmt plan.outputLevel)
        .ok (some (s, (⟨result.inputFiles, addFiles, none⟩ : ManifestEdit)))) =
        Except.ok (some (s', ⟨plan.inputFiles.map (·.path), added, none⟩)) ∧
      Compacts fmt s s' plan smallest largest inputs output added := by
  have hlive : ∀ f ∈ plan.inputFiles, f ∈ s.manifest.liveFiles :=
    fun f hf => ((hselects.inputs f).1 hf).1
  obtain ⟨inputs, output, hinputs, houtput, hplanned, hholds, hmerged, -⟩ :=
    planOutput_spec htabled hselects
  have hnonempty : plan.inputFiles.map (·.path) ≠ [] := by simpa using hselects.nonempty
  have hpath : path ∉ plan.inputFiles.map (·.path) := by
    intro hmem
    obtain ⟨f, hf, rfl⟩ := List.mem_map.1 hmem
    rw [htabled.fileExists (hlive f hf)] at hfresh
    cases hfresh
  have hcompact : compact fmt { s with nextSstableId := next } (plan.inputFiles.map (·.path)) path
      plan.canDropTombstones = (if output = [] then
        .ok ({ s with nextSstableId := next }, ⟨plan.inputFiles.map (·.path), []⟩)
      else do
        let file ← fmt.build output
        .ok (publish { s with nextSstableId := next } path file,
          ⟨plan.inputFiles.map (·.path), [path]⟩)) := by
    have hinputs' : (plan.inputFiles.map (·.path)).mapM
        (readTable fmt { s with nextSstableId := next }) = .ok inputs := hinputs
    have hfresh' : ¬fileExists { s with nextSstableId := next } path = true :=
      ne_true_of_eq_false hfresh
    rw [compact, if_neg hnonempty, if_neg hfresh', if_neg hpath, hinputs', ok_bind, houtput,
      ok_bind]
  rw [hcompact]
  by_cases hempty : output = []
  · rw [if_pos hempty]
    exact ⟨_, inputs, output, [], rfl, hselects, hholds, hmerged, rfl, KeepsFiles.refl s,
      .inl ⟨hempty, rfl⟩⟩
  · rw [if_neg hempty]
    obtain ⟨file, hbuild, hstores⟩ := hrep output hplanned hempty
    rw [hbuild, ok_bind, ok_bind, hselects.outputLevel]
    obtain ⟨first, rest, rfl⟩ := List.exists_cons_of_ne_nil hempty
    -- The metadata are read back from the file that was just written.
    have hpublishes := s.publishes_publish ⟨path, 1, first.1, lastKey first.1 (first :: rest)⟩
      hfresh hbuild hmerged.sorted (hasRange_walk first rest) next
    have hwrites := hpublishes.writes fun file' hbuild' =>
      Except.ok.inj (hbuild.symm.trans hbuild') ▸ hstores
    have hmetadata : (publish { s with nextSstableId := next } path file).metadataForSstable fmt 1
        path = .ok ⟨path, 1, first.1, lastKey first.1 (first :: rest)⟩ := by
      rw [metadataForSstable, hwrites.records.holds.readTable, ok_bind]
    refine ⟨_, inputs, first :: rest, _, ?_, hselects, hholds, hmerged,
      hwrites.manifest, hwrites.keeps, .inr ⟨_, rfl, rfl, hwrites⟩⟩
    dsimp only
    rw [List.mapM_cons, hmetadata]
    rfl

/-- A compaction is prepared without an error: the policy picks nothing, or what it selects is
replaced by its merge. -/
theorem prepareCompaction_spec {s : Store F} (htabled : s.Tabled fmt) (policy : CompactionPolicy)
    (hrep : ∀ plan output, policy.pickCompaction s.manifest.liveFiles = .ok (some plan) →
      s.planOutput fmt plan = .ok output → output ≠ [] → fmt.Represents output) :
    s.prepareCompaction fmt policy = .ok none ∨
      ∃ s' plan smallest largest inputs output added,
        policy.pickCompaction s.manifest.liveFiles = .ok (some plan) ∧
        s.prepareCompaction fmt policy =
          .ok (some (s', ⟨plan.inputFiles.map (·.path), added, none⟩)) ∧
        Compacts fmt s s' plan smallest largest inputs output added := by
  have hranges : ∀ f ∈ s.manifest.liveFiles, f.smallestKey ≤ f.largestKey := by
    intro f hf
    obtain ⟨rs, hrecords⟩ := htabled.exact f hf
    exact hrecords.smallestKey_le
  obtain ⟨plan, hplan⟩ := policy.pickCompaction_returns hranges
  cases plan with
  | none => exact .inl (by rw [prepareCompaction, hplan, ok_bind])
  | some plan =>
    obtain ⟨smallest, largest, hselects⟩ := CompactionPolicy.pickCompaction_ok hplan
    obtain ⟨path, next, halloc, hfresh, -⟩ := s.allocateSstablePath_returns plan.outputLevel
    obtain ⟨s', inputs, output, added, hcompact, hspec⟩ :=
      @compact_returns _ _ _ _ htabled _ _ _ hselects _ next hfresh fun output =>
        hrep plan output hplan
    refine .inr ⟨s', plan, smallest, largest, inputs, output, added, hplan, ?_, hspec⟩
    rw [prepareCompaction, hplan, ok_bind]
    dsimp only
    rw [halloc, ok_bind]
    exact hcompact

/-- Nothing is prepared only when the policy picks nothing. -/
theorem pickCompaction_of_nothing {s : Store F} {policy : CompactionPolicy}
    (h : s.prepareCompaction fmt policy = .ok none) :
    policy.pickCompaction s.manifest.liveFiles = .ok none := by
  unfold prepareCompaction at h
  obtain ⟨plan, hplan, h⟩ := bind_eq_ok h
  cases plan with
  | none => exact hplan
  | some plan =>
    obtain ⟨_, -, h⟩ := bind_eq_ok h
    obtain ⟨_, -, h⟩ := bind_eq_ok h
    obtain ⟨_, -, h⟩ := bind_eq_ok h
    cases h

/-- The edit of a compaction is valid. -/
theorem Compacts.valid {s s' : Store F} {plan : CompactionPlan} {smallest largest : Bytes}
    {inputs : List (List TableRecord)} {output : List TableRecord} {added : List SstableMetadata}
    (h : Compacts fmt s s' plan smallest largest inputs output added) (htabled : s.Tabled fmt) :
    s'.Valid ⟨plan.inputFiles.map (·.path), added, none⟩ := by
  refine ⟨h.selects.nodup htabled.distinct, fun path hpath => ?_, ?_⟩
  · obtain ⟨f, hf, rfl⟩ := List.mem_map.1 hpath
    exact ⟨f, h.manifest ▸ ((h.selects.inputs f).1 hf).1, rfl⟩
  · rcases h.output with ⟨-, hadded⟩ | ⟨f, hadded, -, hwrites⟩
    · exact .inl hadded
    · exact hadded ▸ (hwrites.valid htabled none).add

/-- What is written next to the live files leaves them tabled. -/
theorem Tabled.of_manifest_eq {s s' : Store F} (h : s.Tabled fmt)
    (hmanifest : s'.manifest = s.manifest) (hkeeps : KeepsFiles s s') : s'.Tabled fmt := by
  refine ⟨hmanifest ▸ h.distinct, fun f hf => ?_⟩
  obtain ⟨rs, hrecords⟩ := h.exact f (hmanifest ▸ hf)
  exact ⟨rs, hrecords.mono hkeeps⟩

end Store

end Kronos
