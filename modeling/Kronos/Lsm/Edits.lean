import Kronos.Lsm.Operations

/-!
# What an edit names

The part of a flush and of a compaction that does not depend on what is read back from the SSTables.
The files that the MANIFEST names exist, under paths of their own (`Store.Named`). An edit removes
some of them and adds a file that exists, under a path that none of them has (`Store.Edits`). So
`applyEdit` finds every path that it looks for, and no path twice: all that it can reject is a
checkpoint that moves backwards, or the range of a compaction's output, if what is read back is not
in the order of the keys (`Store.Edits.commit`).
-/

namespace Kronos

namespace Store

variable {F R : Type} {fmt : TableFormat F R}

/-- The live files exist, and have paths of their own. -/
structure Named (s : Store F) : Prop where
  distinct : Manifest.DistinctPaths s.manifest.liveFiles
  exist : ∀ f ∈ s.manifest.liveFiles, s.fileExists f.path = true

/-- An empty store has no live files. -/
theorem named_empty : (empty : Store F).Named := ⟨.nil, fun _ hf => absurd hf List.not_mem_nil⟩

/-- A file that exists stays. -/
theorem KeepsFiles.fileExists {s s' : Store F} (h : KeepsFiles s s') {path : SstablePath}
    (hpath : s.fileExists path = true) : s'.fileExists path = true := by
  obtain ⟨file, hfile⟩ := Option.isSome_iff_exists.1 hpath
  exact Option.isSome_iff_exists.2 ⟨file, h _ _ hfile⟩

/-- New files leave the live ones where they are. -/
theorem Named.of_manifest_eq {s s' : Store F} (h : s.Named) (hmanifest : s'.manifest = s.manifest)
    (hkeeps : KeepsFiles s s') : s'.Named :=
  ⟨hmanifest ▸ h.distinct, fun f hf => hkeeps.fileExists (h.exist f (hmanifest ▸ hf))⟩

/-- An edit removes live files, each once, and adds at most one file, which exists under a path that
no live file has. -/
structure Edits (s : Store F) (edit : ManifestEdit) : Prop where
  remove_nodup : edit.removeFiles.Nodup
  remove_live : ∀ path ∈ edit.removeFiles, ∃ f ∈ s.manifest.liveFiles, f.path = path
  add : edit.addFiles = [] ∨ ∃ f, edit.addFiles = [f] ∧ s.fileExists f.path = true ∧
    ∀ g ∈ s.manifest.liveFiles, g.path ≠ f.path

/-- The exception of an edit whose ranges are reversed. -/
def rangeFailure : Failure := .exception "Invalid SSTable key range"

/-- The ranges of the files that an edit adds are not reversed. -/
def RangesInOrder (edit : ManifestEdit) : Prop :=
  ∀ f ∈ edit.addFiles, f.smallestKey ≤ f.largestKey

/-- The files behind an edit have distinct paths. -/
theorem Edits.distinct {s : Store F} {edit : ManifestEdit} (h : s.Edits edit) (hnamed : s.Named) :
    Manifest.DistinctPaths
      ((s.manifest.liveFiles.filter fun f => f.path ∉ edit.removeFiles) ++ edit.addFiles) :=
  hnamed.distinct.edit _ (h.add.imp_right fun ⟨f, hadd, _, hfresh⟩ => ⟨f, hadd, hfresh⟩)

/-- The commit of an edit is accepted, unless its checkpoint moves backwards or its range is
reversed. -/
theorem Edits.commit {s : Store F} {edit : ManifestEdit} (h : s.Edits edit) (hnamed : s.Named) :
    RangesInOrder edit ∧
        s.commit edit =
          (Manifest.advanceCheckpoint s.manifest.persistedThrough edit.persistedThrough >>=
            fun checkpoint => .ok { s with manifest := ⟨s.liveAfter edit, checkpoint⟩ }) ∨
      ¬RangesInOrder edit ∧ s.commit edit = .error rangeFailure := by
  by_cases hrange : RangesInOrder edit
  · refine .inl ⟨hrange, ?_⟩
    rw [Store.commit, Manifest.applyEdit_eq h.remove_nodup h.remove_live hrange (h.distinct hnamed)]
    cases Manifest.advanceCheckpoint s.manifest.persistedThrough edit.persistedThrough <;> rfl
  · refine .inr ⟨hrange, ?_⟩
    rcases h.add with hadd | ⟨f, hadd, -, -⟩
    · exact (hrange fun f hf => absurd (hadd ▸ hf) List.not_mem_nil).elim
    · have hreversed : f.smallestKey > f.largestKey := by
        by_contra hle
        refine hrange fun f' hf' => ?_
        rw [hadd] at hf'
        rw [List.mem_singleton.1 hf']
        exact not_lt.1 hle
      have hremove := Manifest.foldlM_removeFile h.remove_nodup h.remove_live
      rw [Store.commit, Manifest.applyEdit, hremove, ok_bind, hadd, List.foldlM_cons,
        Manifest.addFile, if_pos hreversed]
      rfl

/-- The store behind a commit. -/
theorem Edits.commit_ok {s s' : Store F} {edit : ManifestEdit} (h : s.Edits edit)
    (hnamed : s.Named) (hcommit : s.commit edit = .ok s') :
    ∃ checkpoint, s' = { s with manifest := ⟨s.liveAfter edit, checkpoint⟩ } ∧
      Manifest.advanceCheckpoint s.manifest.persistedThrough edit.persistedThrough =
        .ok checkpoint := by
  rcases h.commit hnamed with ⟨-, heq⟩ | ⟨-, heq⟩
  · rw [heq] at hcommit
    obtain ⟨checkpoint, hadvance, hok⟩ := bind_eq_ok hcommit
    exact ⟨checkpoint, (Except.ok.inj hok).symm, hadvance⟩
  · rw [heq] at hcommit
    cases hcommit

/-- The live files behind an edit exist, and have paths of their own. -/
theorem Edits.named {s : Store F} {edit : ManifestEdit} (h : s.Edits edit) (hnamed : s.Named)
    (checkpoint : Option ℕ) :
    Named { s with manifest := ⟨s.liveAfter edit, checkpoint⟩ } := by
  refine ⟨Manifest.distinctPaths_sortMetadata.2 (h.distinct hnamed), fun f hf => ?_⟩
  have hmem := Manifest.mem_sortMetadata.1 hf
  rcases List.mem_append.1 hmem with hf | hf
  · exact hnamed.exist f (List.mem_of_mem_filter hf)
  · rcases h.add with hadd | ⟨g, hadd, hexists, -⟩
    · rw [hadd] at hf
      cases hf
    · rw [hadd] at hf
      rw [List.mem_singleton.1 hf]
      exact hexists

/-- A file that did not exist is no live file. -/
theorem Named.ne_of_fresh {s : Store F} (h : s.Named) {path : SstablePath}
    (hfresh : s.fileExists path = false) : ∀ g ∈ s.manifest.liveFiles, g.path ≠ path := by
  rintro g hg rfl
  rw [h.exist g hg] at hfresh
  cases hfresh

/-- What the allocator returns. -/
theorem allocateSstablePath_ok {s s' : Store F} {level : ℕ} {path : SstablePath}
    (h : s.allocateSstablePath level = .ok (path, s')) :
    s'.manifest = s.manifest ∧ s'.files = s.files ∧ s.fileExists path = false := by
  obtain ⟨path', next, halloc, hfresh, -⟩ := s.allocateSstablePath_returns level
  rw [halloc] at h
  cases h
  exact ⟨rfl, rfl, hfresh⟩

/-- A table that was published exists, and the files that were there stay. -/
theorem publish_of_fresh {s s' : Store F} (hfiles : s'.files = s.files) {path : SstablePath}
    (hfresh : s.fileExists path = false) (file : F) :
    KeepsFiles s (s'.publish path file) ∧ (s'.publish path file).fileExists path = true := by
  have hfresh' : s'.fileExists path = false := by rwa [fileExists, hfiles]
  refine ⟨fun path' file' h => ?_, ?_⟩
  · exact keepsFiles_publish s' path file path' file' (hfiles ▸ h)
  · rw [fileExists, lookup_publish hfresh']
    rfl

/-- What a flush does before its commit. -/
theorem prepareFlush_ok {s s' : Store F} {memtable : Memtable} {edit : ManifestEdit}
    (h : s.prepareFlush fmt memtable = .ok (s', edit)) (hnamed : s.Named) :
    s'.manifest = s.manifest ∧ KeepsFiles s s' ∧ s'.Edits edit ∧ RangesInOrder edit ∧
      edit.removeFiles = [] ∧
      ∃ through, edit.persistedThrough = some through ∧
      IsHighest memtable.table.entries through := by
  obtain ⟨f, through, rfl, hpublishes, -, hhighest⟩ := publishes_of_prepareFlush h
  obtain ⟨file, hfile, -⟩ := hpublishes.built
  have hexists : s'.fileExists f.path = true := Option.isSome_iff_exists.2 ⟨file, hfile⟩
  refine ⟨hpublishes.manifest, hpublishes.keeps,
    ⟨.nil, fun _ hmem => absurd hmem List.not_mem_nil, .inr ⟨f, rfl, hexists, fun g hg => ?_⟩⟩,
    fun f' hf' => ?_, rfl, through, rfl, hhighest⟩
  · exact hnamed.ne_of_fresh hpublishes.fresh g (hpublishes.manifest ▸ hg)
  · rw [List.mem_singleton.1 hf']
    exact hpublishes.smallestKey_le

/-- A first flush leaves one live file, which has the table of the Memtable. -/
theorem live_of_flush {s s' s'' : Store F} {memtable : Memtable} {edit : ManifestEdit}
    (hempty : s.manifest.liveFiles = []) (hnamed : s.Named)
    (h : s.prepareFlush fmt memtable = .ok (s', edit)) (hcommit : s'.commit edit = .ok s'') :
    ∃ f, s''.manifest.liveFiles = [f] ∧ s''.files = s'.files ∧
      Publishes fmt s s' f memtable.table.entries := by
  obtain ⟨hmanifest, hkeeps, hedits, -⟩ := prepareFlush_ok h hnamed
  obtain ⟨checkpoint, rfl, -⟩ :=
    hedits.commit_ok (hnamed.of_manifest_eq hmanifest hkeeps) hcommit
  obtain ⟨f, through, rfl, hpublishes, -⟩ := publishes_of_prepareFlush h
  refine ⟨f, ?_, rfl, hpublishes⟩
  show s'.liveAfter ⟨[], [f], some through⟩ = [f]
  rw [liveAfter, hmanifest, hempty, List.filter_nil, List.nil_append]
  rfl

/-- What a compaction reads, merges and writes. -/
theorem compact_ok {s s' : Store F} {inputFiles : List SstablePath} {outputPath : SstablePath}
    {canDropTombstones : Bool} {result : CompactionResult}
    (h : s.compact fmt inputFiles outputPath canDropTombstones = .ok (s', result)) :
    result.inputFiles = inputFiles ∧
    ∃ inputs output, inputFiles.mapM (s.readTable fmt) = .ok inputs ∧
      Compactor.merge canDropTombstones inputs = .ok output ∧
      (output = [] ∧ s' = s ∧ result.outputFiles = [] ∨
        ∃ file, fmt.build output = .ok file ∧ s' = s.publish outputPath file ∧
          result.outputFiles = [outputPath]) := by
  unfold compact at h
  split_ifs at h
  obtain ⟨inputs, hinputs, h⟩ := bind_eq_ok h
  obtain ⟨output, houtput, h⟩ := bind_eq_ok h
  split_ifs at h with hempty
  · cases h
    exact ⟨rfl, inputs, output, hinputs, houtput, .inl ⟨hempty, rfl, rfl⟩⟩
  · obtain ⟨file, hbuild, h⟩ := bind_eq_ok h
    cases h
    exact ⟨rfl, inputs, output, hinputs, houtput, .inr ⟨file, hbuild, rfl, rfl⟩⟩

/-- The metadata of a file name the file. -/
theorem metadataForSstable_ok {s : Store F} {level : ℕ} {path : SstablePath} {f : SstableMetadata}
    (h : s.metadataForSstable fmt level path = .ok f) : f.path = path := by
  unfold metadataForSstable at h
  obtain ⟨rs, -, h⟩ := bind_eq_ok h
  cases rs with
  | nil => cases h
  | cons first rest =>
    cases h
    rfl

/-- What a compaction does before its commit. -/
theorem prepareCompaction_ok {s s' : Store F} {policy : CompactionPolicy} {edit : ManifestEdit}
    (h : s.prepareCompaction fmt policy = .ok (some (s', edit))) (hnamed : s.Named) :
    s'.manifest = s.manifest ∧ KeepsFiles s s' ∧ s'.Edits edit ∧ edit.persistedThrough = none := by
  unfold prepareCompaction at h
  obtain ⟨plan, hplan, h⟩ := bind_eq_ok h
  cases plan with
  | none => cases h
  | some plan =>
    obtain ⟨smallest, largest, hselects⟩ := CompactionPolicy.pickCompaction_ok hplan
    obtain ⟨⟨path, s₁⟩, halloc, h⟩ := bind_eq_ok h
    obtain ⟨hmanifest, hfiles, hfresh⟩ := allocateSstablePath_ok halloc
    obtain ⟨⟨s₂, result⟩, hcompact, h⟩ := bind_eq_ok h
    obtain ⟨hinputs, _, _, -, -, houtput⟩ := compact_ok hcompact
    obtain ⟨addFiles, hadd, h⟩ := bind_eq_ok h
    cases h
    have hlive : ∀ path ∈ result.inputFiles, ∃ f ∈ s.manifest.liveFiles, f.path = path := by
      intro path hpath
      rw [hinputs] at hpath
      obtain ⟨f, hf, rfl⟩ := List.mem_map.1 hpath
      exact ⟨f, ((hselects.inputs f).1 hf).1, rfl⟩
    have hnodup : result.inputFiles.Nodup := hinputs ▸ hselects.nodup hnamed.distinct
    rcases houtput with ⟨-, rfl, hnone⟩ | ⟨file, -, rfl, hone⟩
    · rw [hnone] at hadd
      cases hadd
      refine ⟨hmanifest, fun path file hfile => hfiles ▸ hfile, ⟨hnodup, ?_, .inl rfl⟩, rfl⟩
      exact hmanifest ▸ hlive
    · rw [hone, List.mapM_cons] at hadd
      obtain ⟨f, hf, hadd⟩ := bind_eq_ok hadd
      cases hadd
      obtain ⟨hkeeps, hexists⟩ := publish_of_fresh hfiles hfresh file
      have hpath := metadataForSstable_ok hf
      refine ⟨hmanifest, hkeeps, ⟨hnodup, ?_, .inr ⟨f, rfl, hpath ▸ hexists, ?_⟩⟩, rfl⟩
      · exact fun path hpath => hmanifest.symm ▸ hlive path hpath
      · intro g hg
        rw [hpath]
        exact hnamed.ne_of_fresh hfresh g (hmanifest ▸ hg)

end Store

end Kronos
