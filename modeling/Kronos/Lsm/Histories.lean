import Kronos.Lsm.Edits
import Kronos.Lsm.Garbage
import Kronos.Lsm.StoredTables
import Kronos.Sstable.Overflow

/-!
# The history of a directory

The stores that flushes and compactions lead to from an empty directory (`Store.Reachable`), over a
format that can fail: a flush commits its table without reading it back, so that a live file of
level 0 may hold a table that no reader can walk through. A compaction reads all of level 0, and its
own output before the commit. What an iterator walks through is the table that was built
(`TableFormat.Honest`). So a compaction that gets as far as its edit has read tables that are
stored, and level 1 has no other ones (`Store.Written`). From this come the levels
(`Store.levels_of_reachable`), what a compaction answers (`Store.maybeCompact_answer`) and what it
leaves (`Store.maybeCompact_collects`), for the SSTables of `src/sstable.cpp`. -/

namespace Kronos

/-- What an iterator walks through is what was built: a file that was built from sorted records of
the log, and that is opened and walked through, stores them. -/
def TableFormat.Honest {F R : Type} (fmt : TableFormat F R) : Prop :=
  ∀ rs file reader rs', (∀ r ∈ rs, Sstable.AcceptedRecord r) → fmt.build rs = .ok file →
    fmt.openTable file = .ok reader → fmt.records reader = .ok rs' → fmt.Stores file rs

namespace Store

variable {F R : Type} {fmt : TableFormat F R}

/-! ## What was built -/

/-- A live file was built from sorted records that the log took, and its metadata have their
range. -/
structure Built (fmt : TableFormat F R) (s : Store F) (f : SstableMetadata)
    (rs : List TableRecord) : Prop where
  file : ∃ file, s.files.lookup f.path = some file ∧ fmt.build rs = .ok file
  accepted : ∀ r ∈ rs, Sstable.AcceptedRecord r
  sorted : Sorted rs
  range : HasRange rs f.smallestKey f.largestKey

/-- A table that was published was built. -/
theorem Publishes.toBuilt {s s' : Store F} {f : SstableMetadata} {rs : List TableRecord}
    (h : Publishes fmt s s' f rs) (haccepted : ∀ r ∈ rs, Sstable.AcceptedRecord r) :
    s'.Built fmt f rs := ⟨h.built, haccepted, h.sorted, h.range⟩

/-- A file that was built so is still there in a store with more files. -/
theorem Built.mono {s s' : Store F} {f : SstableMetadata} {rs : List TableRecord}
    (h : s.Built fmt f rs) (hkeeps : KeepsFiles s s') : s'.Built fmt f rs := by
  obtain ⟨file, hfile, hbuild⟩ := h.file
  exact ⟨⟨file, hkeeps _ _ hfile, hbuild⟩, h.accepted, h.sorted, h.range⟩

/-- The file stays what it was. -/
theorem Built.holds_of_keeps {s s' : Store F} {f : SstableMetadata} {rs rs' : List TableRecord}
    (h : s.Built fmt f rs) (hkeeps : KeepsFiles s s') (hholds : s'.Holds fmt f rs') :
    s.Holds fmt f rs' := by
  obtain ⟨file, hfile, -⟩ := h.file
  obtain ⟨file', hfile', hstores⟩ := hholds
  obtain rfl := Option.some.inj ((hkeeps _ _ hfile).symm.trans hfile')
  exact ⟨file, hfile, hstores⟩

/-- What is read from it is what it was built from, and then its metadata are exact. -/
theorem Built.records_of_read (hhonest : fmt.Honest) {s : Store F} {f : SstableMetadata}
    {rs rs' : List TableRecord} (h : s.Built fmt f rs) (hread : s.readTable fmt f.path = .ok rs') :
    s.Records fmt f rs ∧ rs' = rs := by
  obtain ⟨file, hfile, hbuild⟩ := h.file
  have hread' := hread
  unfold readTable openSstable at hread'
  rw [hfile] at hread'
  obtain ⟨reader, hopen, hrecords⟩ := bind_eq_ok hread'
  have hholds : s.Holds fmt f rs :=
    ⟨file, hfile, hhonest rs file reader rs' h.accepted hbuild hopen hrecords⟩
  exact ⟨⟨hholds, h.sorted, h.range⟩, Except.ok.inj (hread.symm.trans hholds.readTable)⟩

/-- So is what it holds. -/
theorem Built.eq_of_holds (hhonest : fmt.Honest) {s : Store F} {f : SstableMetadata}
    {rs rs' : List TableRecord} (h : s.Built fmt f rs) (hholds : s.Holds fmt f rs') : rs' = rs :=
  (h.records_of_read hhonest hholds.readTable).2

/-! ## The invariant -/

/-- The invariant of a history: the live files have paths of their own and were built from what
their metadata say, those of level 1 hold what they were built from, and there are two levels. -/
structure Written (fmt : TableFormat F R) (s : Store F) : Prop where
  distinct : Manifest.DistinctPaths s.manifest.liveFiles
  built : ∀ f ∈ s.manifest.liveFiles, ∃ rs, s.Built fmt f rs
  read : ∀ f ∈ s.manifest.liveFiles, f.level = 1 → ∃ rs, s.Records fmt f rs
  levels : TwoLevels s.manifest.liveFiles

/-- An empty store has nothing that was not written. -/
theorem written_empty : (empty : Store F).Written fmt where
  distinct := .nil
  built _ hf := absurd hf List.not_mem_nil
  read _ hf := absurd hf List.not_mem_nil
  levels := Layered.levels (layered_empty : (empty : Store F).Layered fmt)

/-- The live files exist. -/
theorem Written.named {s : Store F} (h : s.Written fmt) : s.Named := by
  refine ⟨h.distinct, fun f hf => ?_⟩
  obtain ⟨rs, hbuilt⟩ := h.built f hf
  obtain ⟨file, hfile, -⟩ := hbuilt.file
  exact Option.isSome_iff_exists.2 ⟨file, hfile⟩

/-- New files leave what was written. -/
theorem Written.of_manifest_eq {s s' : Store F} (h : s.Written fmt)
    (hmanifest : s'.manifest = s.manifest) (hkeeps : KeepsFiles s s') : s'.Written fmt := by
  refine ⟨hmanifest ▸ h.distinct, fun f hf => ?_, fun f hf hlevel => ?_, hmanifest ▸ h.levels⟩
  · obtain ⟨rs, hbuilt⟩ := h.built f (hmanifest ▸ hf)
    exact ⟨rs, hbuilt.mono hkeeps⟩
  · obtain ⟨rs, hrecords⟩ := h.read f (hmanifest ▸ hf) hlevel
    exact ⟨rs, hrecords.mono hkeeps⟩

/-- The versions of the live files were there before, or are in the files that were added. -/
theorem Written.mem_versions {s s' : Store F} {removed : List SstablePath}
    {added : List SstableMetadata} (h : s.Written fmt) (hupdates : Updates s s' removed added)
    {key : Bytes} {entry : InternalEntry} (hmem : entry ∈ s'.versions fmt key) :
    entry ∈ s.versions fmt key ∨ ∃ f ∈ added, ∃ rs, s'.Holds fmt f rs ∧ (key, entry) ∈ rs := by
  obtain ⟨f, hf, rs, hholds, hentry⟩ := hmem
  rcases (hupdates.live f).1 hf with ⟨hlive, -⟩ | hadded
  · obtain ⟨rs', hbuilt⟩ := h.built f hlive
    exact .inl ⟨f, hlive, rs, hbuilt.holds_of_keeps hupdates.keeps hholds, hentry⟩
  · exact .inr ⟨f, hadded, rs, hholds, hentry⟩

/-- What an update does to them: the files that stay were written, and so were those that it adds.
-/
theorem Written.update {s s' : Store F} {removed : List SstablePath}
    {added : List SstableMetadata} (h : s.Written fmt) (hupdates : Updates s s' removed added)
    (hbuilt : ∀ f ∈ added, ∃ rs, s'.Built fmt f rs)
    (hread : ∀ f ∈ added, f.level = 1 → ∃ rs, s'.Records fmt f rs)
    (hlevels : TwoLevels s'.manifest.liveFiles) : s'.Written fmt := by
  refine ⟨hupdates.distinct, fun f hf => ?_, fun f hf hlevel => ?_, hlevels⟩
  · rcases (hupdates.live f).1 hf with ⟨hlive, -⟩ | hadded
    · obtain ⟨rs, hrs⟩ := h.built f hlive
      exact ⟨rs, hrs.mono hupdates.keeps⟩
    · exact hbuilt f hadded
  · rcases (hupdates.live f).1 hf with ⟨hlive, -⟩ | hadded
    · obtain ⟨rs, hrs⟩ := h.read f hlive hlevel
      exact ⟨rs, hrs.mono hupdates.keeps⟩
    · exact hread f hadded hlevel

/-- No tombstone comes to level 1, if the files that are added there have none. -/
theorem Written.clean_update {s s' : Store F} {removed : List SstablePath}
    {added : List SstableMetadata} (h : s.Written fmt) (hclean : s.Clean fmt)
    (hupdates : Updates s s' removed added) (hadded : ∀ f ∈ added, f.level = 0) :
    s'.Clean fmt := by
  intro f hf hlevel rs hholds r hr
  rcases (hupdates.live f).1 hf with ⟨hlive, -⟩ | hnew
  · obtain ⟨rs', hbuilt⟩ := h.built f hlive
    exact hclean f hlive hlevel rs (hbuilt.holds_of_keeps hupdates.keeps hholds) r hr
  · rw [hadded f hnew] at hlevel
    cases hlevel

/-! ## The steps -/

/-- A step of the maintenance worker on the store, with the Memtables that may be flushed. A job
that ends before its commit, or a reopen, leaves the MANIFEST, and the files that were there. -/
inductive Step (fmt : TableFormat F R) (Flushes : Store F → Memtable → Prop) (s : Store F) :
    Store F → Prop where
  | flush {s' : Store F} (memtable : Memtable) : Flushes s memtable →
    s.flushMemtable fmt memtable = .ok s' → Step fmt Flushes s s'
  | compact {s' : Store F} (policy : CompactionPolicy) : s.maybeCompact fmt policy = .ok s' →
    Step fmt Flushes s s'
  | abandon {s' : Store F} : s'.manifest = s.manifest → KeepsFiles s s' → Step fmt Flushes s s'

/-- The stores that flushes and compactions lead to from an empty directory. -/
def Reachable (fmt : TableFormat F R) (Flushes : Store F → Memtable → Prop) : Store F → Prop :=
  Relation.ReflTransGen (Step fmt Flushes) empty

/-- A Memtable whose records the log has taken. -/
def Logged (_ : Store F) (memtable : Memtable) : Prop :=
  ∀ r ∈ memtable.table.entries, Sstable.AcceptedRecord r

/-- One whose sequence numbers no live version of the same key has: the log gives each number
once. -/
structure Numbered (fmt : TableFormat F R) (s : Store F) (memtable : Memtable) : Prop where
  logged : s.Logged memtable
  fresh : ∀ r ∈ memtable.table.entries, ∀ v ∈ s.versions fmt r.1, v.sequence ≠ r.2.sequence

variable {s s' : Store F}

/-- What an abandoned step does to the live files. -/
theorem updates_of_manifest_eq (hdistinct : Manifest.DistinctPaths s.manifest.liveFiles)
    (hmanifest : s'.manifest = s.manifest) (hkeeps : KeepsFiles s s') : Updates s s' [] [] :=
  ⟨fun f => by simp [hmanifest], hmanifest ▸ hdistinct, hkeeps⟩

/-- A flush that returns adds a table of level 0, which was built from the Memtable. -/
theorem Written.flush (h : s.Written fmt) {memtable : Memtable} (hlogged : s.Logged memtable)
    (hflush : s.flushMemtable fmt memtable = .ok s') :
    s'.Written fmt ∧ ∃ f, Updates s s' [] [f] ∧ f.level = 0 ∧
      s'.Built fmt f memtable.table.entries := by
  obtain ⟨⟨s₁, edit⟩, hprepare, hcommit⟩ := bind_eq_ok hflush
  obtain ⟨f, through, rfl, hpublishes, hlevel, -⟩ := publishes_of_prepareFlush hprepare
  have h₁ := h.of_manifest_eq hpublishes.manifest hpublishes.keeps
  have hvalid := valid_flush hpublishes.manifest hpublishes.fresh hpublishes.smallestKey_le
    h.named.exist (some through)
  dsimp only at hcommit
  rw [commit_eq hvalid h₁.distinct] at hcommit
  obtain ⟨checkpoint, -, hcommit⟩ := bind_eq_ok hcommit
  cases hcommit
  have hupdates := updates_commit hvalid h₁.distinct checkpoint
  have hbuilt := (hpublishes.toBuilt hlogged).mono hupdates.keeps
  have hupdates' : Updates s { s₁ with manifest := ⟨s₁.liveAfter _, checkpoint⟩ } [] [f] :=
    ⟨hpublishes.manifest ▸ hupdates.live, hupdates.distinct,
      hpublishes.keeps.trans hupdates.keeps⟩
  refine ⟨h.update hupdates' (fun g hg => ?_) (fun g hg hone => ?_) ?_, f, hupdates', hlevel,
    hbuilt⟩
  · rw [List.mem_singleton.1 hg]
    exact ⟨_, hbuilt⟩
  · rw [List.mem_singleton.1 hg, hlevel] at hone
    cases hone
  · refine hupdates'.twoLevels h.levels (fun g hg => ?_) (fun g hg => ?_) (fun g hg g' hg' => ?_)
      fun g hg hone => ?_
    · exact List.mem_singleton.1 hg ▸ hpublishes.smallestKey_le
    · exact List.mem_singleton.1 hg ▸ .inl hlevel
    · rw [List.mem_singleton.1 hg, List.mem_singleton.1 hg']
    · rw [List.mem_singleton.1 hg, hlevel] at hone
      cases hone

/-- A compaction that gets as far as its edit has read what its plan takes, and its own output. -/
theorem read_of_prepareCompaction {policy : CompactionPolicy} {s₁ : Store F} {edit : ManifestEdit}
    (h : s.prepareCompaction fmt policy = .ok (some (s₁, edit))) :
    ∃ plan, policy.pickCompaction s.manifest.liveFiles = .ok (some plan) ∧
      (∀ f ∈ plan.inputFiles, ∃ rs, s.readTable fmt f.path = .ok rs) ∧
      ∀ output, s.planOutput fmt plan = .ok output → output ≠ [] → ∃ file reader rs,
        fmt.build output = .ok file ∧ fmt.openTable file = .ok reader ∧
          fmt.records reader = .ok rs := by
  unfold prepareCompaction at h
  obtain ⟨plan, hplan, h⟩ := bind_eq_ok h
  cases plan with
  | none => cases h
  | some plan =>
    obtain ⟨path, next, halloc, hfresh, -⟩ := s.allocateSstablePath_returns plan.outputLevel
    dsimp only at h
    rw [halloc, ok_bind] at h
    obtain ⟨⟨s₂, result⟩, hcompact, h⟩ := bind_eq_ok h
    obtain ⟨-, inputs, output, hinputs, houtput, hwritten⟩ := compact_ok hcompact
    obtain ⟨addFiles, hadd, -⟩ := bind_eq_ok h
    have hread : (plan.inputFiles.map (·.path)).mapM (s.readTable fmt) = .ok inputs := hinputs
    refine ⟨plan, hplan, fun f hf => ?_, fun output' houtput' hne => ?_⟩
    · have hall := List.forall₂_map_left_iff.1 (mapM_eq_ok_iff.1 hread)
      exact ((List.forall₂_and_left (p := fun f => ∃ rs, s.readTable fmt f.path = .ok rs) _ _).1
        (hall.imp fun f rs hrs => ⟨⟨rs, hrs⟩, hrs⟩)).1 f hf
    · rw [planOutput, hread, ok_bind, houtput] at houtput'
      obtain rfl := Except.ok.inj houtput'
      rcases hwritten with ⟨hempty, -⟩ | ⟨file, hbuild, rfl, hone⟩
      · exact absurd hempty hne
      · -- The metadata are read back from the file.
        rw [hone, List.mapM_cons] at hadd
        obtain ⟨f, hf, -⟩ := bind_eq_ok hadd
        obtain ⟨rs, hrs, -⟩ := bind_eq_ok hf
        unfold readTable openSstable at hrs
        rw [lookup_publish (s := { s with nextSstableId := next }) hfresh] at hrs
        obtain ⟨reader, hopen, hrecords⟩ := bind_eq_ok hrs
        exact ⟨file, reader, rs, hbuild, hopen, hrecords⟩

/-- The log took the records of a merge of live tables. -/
theorem Written.accepted_of_merged (hhonest : fmt.Honest) (h : s.Written fmt)
    {files : List SstableMetadata} {inputs : List (List TableRecord)} {output : List TableRecord}
    (hlive : ∀ f ∈ files, f ∈ s.manifest.liveFiles)
    (hholds : List.Forall₂ (s.Holds fmt) files inputs)
    (hmerged : Compactor.Merged true inputs output) : ∀ r ∈ output, Sstable.AcceptedRecord r := by
  intro r hr
  obtain ⟨f, hf, rs, hrs, hmem⟩ := (mem_versions_inputs hholds).1 (hmerged.mem_versions hr).1
  obtain ⟨rs', hbuilt⟩ := h.built f (hlive f hf)
  exact hbuilt.accepted _ (hbuilt.eq_of_holds hhonest hrs ▸ hmem)

/-- A compaction that gets so far finds tables in the live files, and its output is represented. -/
theorem Written.layered_of_prepareCompaction (hhonest : fmt.Honest) (h : s.Written fmt)
    {policy : CompactionPolicy} {s₁ : Store F} {edit : ManifestEdit}
    (hprepare : s.prepareCompaction fmt policy = .ok (some (s₁, edit))) :
    s.Layered fmt ∧ ∀ plan output,
      policy.pickCompaction s.manifest.liveFiles = .ok (some plan) →
        s.planOutput fmt plan = .ok output → output ≠ [] → fmt.Represents output := by
  obtain ⟨plan, hplan, hinputs, hbuilt⟩ := read_of_prepareCompaction hprepare
  obtain ⟨smallest, largest, hselects⟩ := CompactionPolicy.pickCompaction_ok hplan
  have htabled : s.Tabled fmt := by
    refine ⟨h.distinct, fun f hf => ?_⟩
    rcases h.levels.level f hf with hzero | hone
    · -- The plan takes all of level 0.
      obtain ⟨rs, hread⟩ := hinputs f ((hselects.inputs f).2 ⟨hf, .inl hzero⟩)
      obtain ⟨rs', hrs'⟩ := h.built f hf
      exact ⟨rs', (hrs'.records_of_read hhonest hread).1⟩
    · exact h.read f hf hone
  refine ⟨⟨htabled, h.levels⟩, fun plan' output hplan' houtput hne => ?_⟩
  obtain rfl := Option.some.inj (Except.ok.inj (hplan.symm.trans hplan'))
  obtain ⟨file, reader, rs, hbuild, hopen, hrecords⟩ := hbuilt output houtput hne
  obtain ⟨_, output', -, -, houtput', hholds, hmerged, -⟩ := planOutput_spec htabled hselects
  obtain rfl := Except.ok.inj (houtput.symm.trans houtput')
  have haccepted := h.accepted_of_merged hhonest (fun f hf => ((hselects.inputs f).1 hf).1) hholds
    hmerged
  exact ⟨file, hbuild, hhonest output file reader rs haccepted hbuild hopen hrecords⟩

/-- So it returns, and replaces what its plan takes by the merge. -/
theorem Written.compact (hhonest : fmt.Honest) (h : s.Written fmt) {policy : CompactionPolicy}
    {s₁ : Store F} {edit : ManifestEdit}
    (hprepare : s.prepareCompaction fmt policy = .ok (some (s₁, edit))) :
    s.Layered fmt ∧ ∃ s' plan smallest largest inputs output added,
      s.maybeCompact fmt policy = .ok s' ∧ s'.Written fmt ∧
        Compacted fmt s s' plan smallest largest inputs output added := by
  obtain ⟨hlayered, hrep⟩ := h.layered_of_prepareCompaction hhonest hprepare
  refine ⟨hlayered, ?_⟩
  rcases prepareCompaction_spec hlayered.tabled policy hrep with hnone |
    ⟨s₂, plan, smallest, largest, inputs, output, added, hplan, hprepare', hcompacts⟩
  · cases hprepare.symm.trans hnone
  · obtain ⟨s', hcommit, hcompacted⟩ := hcompacts.commit hlayered.tabled
    have hlayered' := hlayered.compact hcompacted
    have hcompact : s.maybeCompact fmt policy = .ok s' := by
      rw [maybeCompact, hprepare', ok_bind]
      exact hcommit
    refine ⟨s', plan, smallest, largest, inputs, output, added, hcompact,
      h.update hcompacted.updates (fun f hf => ?_) (fun f hf hone => ?_) hlayered'.levels,
      hcompacted⟩
    · rcases hcompacts.output with ⟨-, hnone⟩ | ⟨g, hone, -, hwrites⟩
      · exact absurd hf (hnone ▸ List.not_mem_nil)
      · rw [hone] at hf
        rw [List.mem_singleton.1 hf]
        have haccepted := h.accepted_of_merged hhonest
          (fun f hf => ((hcompacts.selects.inputs f).1 hf).1) hcompacts.holds hcompacts.merged
        exact ⟨output, (hwrites.toBuilt haccepted).mono (keepsFiles_of_commit hcommit)⟩
    · exact hlayered'.tabled.exact f ((hcompacted.updates.live f).2 (.inr hf))

/-- What a step does to the live files: nothing, it adds the table of a Memtable to level 0, or it
compacts tables that can be read. -/
inductive Effect (fmt : TableFormat F R) (Flushes : Store F → Memtable → Prop) (s s' : Store F) :
    Prop where
  | same : Updates s s' [] [] → Effect fmt Flushes s s'
  | flushed (memtable : Memtable) (f : SstableMetadata) : Flushes s memtable →
    Updates s s' [] [f] → f.level = 0 → s'.Built fmt f memtable.table.entries →
    Effect fmt Flushes s s'
  | compacted (plan : CompactionPlan) (smallest largest : Bytes)
    (inputs : List (List TableRecord)) (output : List TableRecord)
    (added : List SstableMetadata) : s.Layered fmt →
    Compacted fmt s s' plan smallest largest inputs output added → Effect fmt Flushes s s'

variable {Flushes : Store F → Memtable → Prop}

/-- A step keeps the invariant. -/
theorem Written.step (hhonest : fmt.Honest) (hlogged : ∀ s memtable, Flushes s memtable →
    s.Logged memtable) (h : s.Written fmt) (hstep : Step fmt Flushes s s') :
    s'.Written fmt ∧ Effect fmt Flushes s s' := by
  cases hstep with
  | flush memtable hflushes hflush =>
    obtain ⟨hwritten, f, hupdates, hlevel, hbuilt⟩ := h.flush (hlogged s memtable hflushes) hflush
    exact ⟨hwritten, .flushed memtable f hflushes hupdates hlevel hbuilt⟩
  | compact policy hcompact =>
    obtain ⟨prepared, hprepare, hcommit⟩ := bind_eq_ok hcompact
    rcases prepared with _ | ⟨s₁, edit⟩
    · cases hcommit
      exact ⟨h, .same (updates_of_manifest_eq h.distinct rfl (.refl s))⟩
    · obtain ⟨hlayered, s₂, plan, smallest, largest, inputs, output, added, hcompact', hwritten,
        hcompacted⟩ := h.compact hhonest hprepare
      cases hcompact.symm.trans hcompact'
      exact ⟨hwritten, .compacted plan smallest largest inputs output added hlayered hcompacted⟩
  | abandon hmanifest hkeeps =>
    exact ⟨h.of_manifest_eq hmanifest hkeeps,
      .same (updates_of_manifest_eq h.distinct hmanifest hkeeps)⟩

/-! ## Reachable stores -/

/-- The log has taken the records of a Memtable that it has numbered. -/
theorem Reachable.logged (h : Reachable fmt (Numbered fmt) s) : Reachable fmt Logged s := by
  refine Relation.ReflTransGen.mono (r := Step fmt (Numbered fmt)) (fun s s' hstep => ?_) _ _ h
  cases hstep with
  | flush memtable hnumbered hflush => exact .flush memtable hnumbered.logged hflush
  | compact policy hcompact => exact .compact policy hcompact
  | abandon hmanifest hkeeps => exact .abandon hmanifest hkeeps

/-- Every reachable store was written so, and has no tombstone on level 1. -/
theorem Reachable.isWritten (hhonest : fmt.Honest) (h : Reachable fmt Logged s) :
    s.Written fmt ∧ s.Clean fmt := by
  induction h with
  | refl => exact ⟨written_empty, fun f hf => absurd hf List.not_mem_nil⟩
  | tail _ hstep ih =>
    obtain ⟨hwritten, hclean⟩ := ih
    obtain ⟨hwritten', heffect⟩ := hwritten.step hhonest (fun _ _ => id) hstep
    refine ⟨hwritten', ?_⟩
    cases heffect with
    | same hupdates =>
      exact hwritten.clean_update hclean hupdates fun f hf => absurd hf List.not_mem_nil
    | flushed memtable f _ hupdates hlevel _ =>
      exact hwritten.clean_update hclean hupdates fun g hg => List.mem_singleton.1 hg ▸ hlevel
    | compacted plan smallest largest inputs output added hlayered hcompacted =>
      exact hclean.compact hcompacted hlayered.tabled

/-- Where the log numbers the records, the versions of a key have numbers of their own. -/
theorem Reachable.sequenced (hhonest : fmt.Honest) (h : Reachable fmt (Numbered fmt) s) :
    s.Sequenced fmt := by
  induction h with
  | refl =>
    rintro key v ⟨f, hf, -⟩
    cases hf
  | @tail t t' hreachable hstep ih =>
    obtain ⟨hwritten, -⟩ := (Reachable.logged hreachable).isWritten hhonest
    obtain ⟨-, heffect⟩ := hwritten.step hhonest (fun _ _ hnumbered => hnumbered.logged) hstep
    cases heffect with
    | same hupdates =>
      refine fun key => (ih key).mono fun v hv => ?_
      exact (hwritten.mem_versions hupdates hv).resolve_right fun ⟨f, hf, _⟩ =>
        absurd hf List.not_mem_nil
    | flushed memtable f hnumbered hupdates _ hbuilt =>
      -- A version was there before, or is one of the Memtable.
      have hcases : ∀ key, ∀ v ∈ t'.versions fmt key,
          v ∈ t.versions fmt key ∨ (key, v) ∈ memtable.table.entries := by
        intro key v hv
        refine (hwritten.mem_versions hupdates hv).imp_right ?_
        rintro ⟨g, hg, rs, hholds, hmem⟩
        rw [List.mem_singleton.1 hg] at hholds
        exact hbuilt.eq_of_holds hhonest hholds ▸ hmem
      intro key v hv v' hv' heq
      rcases hcases key v hv, hcases key v' hv' with ⟨hold | hnew, hold' | hnew'⟩
      · exact ih key hold hold' heq
      · exact absurd heq (hnumbered.fresh _ hnew' v hold)
      · exact absurd heq.symm (hnumbered.fresh _ hnew v' hold')
      · exact Option.some.inj ((memtable.table.sorted.lookup_eq_some_iff.2 hnew).symm.trans
          (memtable.table.sorted.lookup_eq_some_iff.2 hnew'))
    | compacted plan smallest largest inputs output added hlayered hcompacted =>
      exact ih.compact hcompacted hlayered.tabled

/-! ## A small history -/

/-- A flush over tables that returns is one over files. -/
theorem Reachable.flush_tables (h : Reachable fmt Flushes s) (hlayered : s.Layered fmt)
    {t t' : Store (List TableRecord)} (htables : s.tables fmt = t) {memtable : Memtable}
    (hflushes : Flushes s memtable) (hrep : fmt.Represents memtable.table.entries)
    (hflush : t.flushMemtable .logical memtable = .ok t') :
    ∃ s', Reachable fmt Flushes s' ∧ s'.Layered fmt ∧ s'.tables fmt = t' := by
  rw [← htables, flushMemtable_tables s fun _ => hrep] at hflush
  cases hresult : s.flushMemtable fmt memtable with
  | error failure =>
    rw [hresult] at hflush
    cases hflush
  | ok s' =>
    rw [hresult] at hflush
    obtain ⟨f, through, hflushed⟩ := flushMemtable_ok hlayered.tabled hrep hresult
    exact ⟨s', h.tail (.flush memtable hflushes hresult), hlayered.flush hflushed,
      Except.ok.inj hflush⟩

/-- The merges of a compaction over tables are those over files. -/
theorem represents_of_tables (hlayered : s.Layered fmt) {t : Store (List TableRecord)}
    (htables : s.tables fmt = t) {policy : CompactionPolicy}
    (hrep : ∀ plan output, policy.pickCompaction t.manifest.liveFiles = .ok (some plan) →
      t.planOutput .logical plan = .ok output → output ≠ [] → fmt.Represents output) :
    ∀ plan output, policy.pickCompaction s.manifest.liveFiles = .ok (some plan) →
      s.planOutput fmt plan = .ok output → output ≠ [] → fmt.Represents output := by
  subst htables
  intro plan output hplan houtput
  obtain ⟨smallest, largest, hselects⟩ := CompactionPolicy.pickCompaction_ok hplan
  exact hrep plan output hplan ((planOutput_tables hlayered.tabled hselects).trans houtput)

/-- So a compaction over tables is one over files. -/
theorem Reachable.compact_tables (h : Reachable fmt Flushes s) (hlayered : s.Layered fmt)
    {t t' : Store (List TableRecord)} (htables : s.tables fmt = t) {policy : CompactionPolicy}
    (hrep : ∀ plan output, policy.pickCompaction t.manifest.liveFiles = .ok (some plan) →
      t.planOutput .logical plan = .ok output → output ≠ [] → fmt.Represents output)
    (hcompact : t.maybeCompact .logical policy = .ok t') :
    ∃ s', Reachable fmt Flushes s' ∧ s'.Layered fmt ∧ s'.tables fmt = t' := by
  have hrep' := represents_of_tables hlayered htables hrep
  subst htables
  rw [maybeCompact_tables hlayered.tabled policy hrep'] at hcompact
  rcases maybeCompact_spec hlayered.tabled policy hrep' with hsame |
    ⟨s', plan, smallest, largest, inputs, output, added, hresult, -, hcompacted⟩
  · rw [hsame] at hcompact
    exact ⟨s, h, hlayered, Except.ok.inj hcompact⟩
  · rw [hresult] at hcompact
    exact ⟨s', h.tail (.compact policy hresult), hlayered.compact hcompacted,
      Except.ok.inj hcompact⟩

/-- A frozen Memtable with one `PUT`. -/
def frozenPut (key value : Bytes) (sequence : ℕ) : Memtable :=
  ((Memtable.new 0).put key value sequence).2.freeze.2

/-- A frozen Memtable with one `DELETE`. -/
def frozenDelete (key : Bytes) (sequence : ℕ) : Memtable :=
  ((Memtable.new 0).remove key sequence).2.freeze.2

/-- A store with a `PUT` on level 0, after a flush. -/
def putAbove : Store (List TableRecord) :=
  ⟨⟨[⟨⟨0, 1⟩, 0, [1], [1]⟩], some 0⟩, [(⟨0, 1⟩, [([1], ⟨[10], 0, .put⟩)])], 2⟩

/-- The same, with the `PUT` on level 1, after a compaction. -/
def putBelow : Store (List TableRecord) :=
  ⟨⟨[⟨⟨1, 2⟩, 1, [1], [1]⟩], some 0⟩,
    [(⟨0, 1⟩, [([1], ⟨[10], 0, .put⟩)]), (⟨1, 2⟩, [([1], ⟨[10], 0, .put⟩)])], 3⟩

/-- The same, with a tombstone of the key on level 0, after another flush. -/
def deleteAbove : Store (List TableRecord) :=
  ⟨⟨[⟨⟨0, 3⟩, 0, [1], [1]⟩, ⟨⟨1, 2⟩, 1, [1], [1]⟩], some 1⟩,
    [(⟨0, 1⟩, [([1], ⟨[10], 0, .put⟩)]), (⟨1, 2⟩, [([1], ⟨[10], 0, .put⟩)]),
      (⟨0, 3⟩, [([1], ⟨[], 1, .delete⟩)])], 4⟩

/-- These are behind SSTables that a history leads to. -/
theorem exists_deleteAbove (crc32 : Bytes → UInt32) : ∃ s : Store Bytes,
    Reachable (Sstable.format crc32) (Numbered (Sstable.format crc32)) s ∧
      s.Layered (Sstable.format crc32) ∧ s.tables (Sstable.format crc32) = deleteAbove := by
  have hput : Sstable.AcceptedRecord ([1], ⟨[10], 0, .put⟩) :=
    ⟨⟨by decide, .inl rfl⟩, by decide, by decide⟩
  have hdelete : Sstable.AcceptedRecord ([1], ⟨[], 1, .delete⟩) :=
    ⟨⟨by decide, .inr rfl⟩, by decide, by decide⟩
  have hrep : ∀ {r}, Sstable.AcceptedRecord r → Sstable.TableFits [r] →
      (Sstable.format crc32).Represents [r] := fun haccepted hfits =>
    Sstable.format_represents crc32 (List.cons_ne_nil _ _) (List.pairwise_singleton _ _)
      (List.forall_mem_singleton.2 haccepted) hfits
  have hempty : Reachable (Sstable.format crc32) (Numbered (Sstable.format crc32)) empty := .refl
  have hnumbered : empty.Numbered (Sstable.format crc32) (frozenPut [1] [10] 0) :=
    ⟨List.forall_mem_singleton.2 hput, fun r _ v ⟨f, hf, _⟩ => by cases hf⟩
  obtain ⟨s₀, hs₀, hlayered₀, htables₀⟩ := hempty.flush_tables layered_empty rfl hnumbered
    (hrep hput ⟨by decide, by decide, by decide⟩)
    (show empty.flushMemtable .logical (frozenPut [1] [10] 0) = .ok putAbove from rfl)
  obtain ⟨s₁, hs₁, hlayered₁, htables₁⟩ := hs₀.compact_tables hlayered₀ htables₀
    (fun plan output hplan houtput _ => by
      cases hplan
      cases houtput
      exact hrep hput ⟨by decide, by decide, by decide⟩)
    (show putAbove.maybeCompact .logical ⟨1, Nat.one_pos⟩ = .ok putBelow from rfl)
  -- The one version below has sequence number 0.
  have hnumbered₁ : s₁.Numbered (Sstable.format crc32) (frozenDelete [1] 1) := by
    refine ⟨List.forall_mem_singleton.2 hdelete, fun r hr v hv => ?_⟩
    obtain rfl := List.mem_singleton.1 hr
    rw [← hlayered₁.tabled.versions_tables, htables₁] at hv
    obtain ⟨f, hf, rs, ⟨file, hfile, reader, hopen, hrecords, -⟩, hmem⟩ := hv
    obtain rfl := List.mem_singleton.1 hf
    cases hfile
    cases hopen
    cases hrecords
    cases List.mem_singleton.1 hmem
    decide
  exact hs₁.flush_tables hlayered₁ htables₁ hnumbered₁
    (hrep hdelete ⟨by decide, by decide, by decide⟩)
    (show putBelow.flushMemtable .logical (frozenDelete [1] 1) = .ok deleteAbove from rfl)

/-- There, the plan of a compaction takes both tables, and nothing is left to write. -/
theorem exists_prepared (crc32 : Bytes → UInt32) {s : Store Bytes}
    (hlayered : s.Layered (Sstable.format crc32))
    (htables : s.tables (Sstable.format crc32) = deleteAbove) : ∃ s₁,
    s.prepareCompaction (Sstable.format crc32) ⟨1, Nat.one_pos⟩ =
      .ok (some (s₁, ⟨[⟨0, 3⟩, ⟨1, 2⟩], [], none⟩)) := by
  have hrep := @represents_of_tables _ _ _ _ hlayered _ htables ⟨1, Nat.one_pos⟩
    fun plan output hplan houtput hne => by
      cases hplan
      cases houtput
      exact absurd rfl hne
  have hprepare := prepareCompaction_tables hlayered.tabled ⟨1, Nat.one_pos⟩ hrep
  have hlogical : deleteAbove.prepareCompaction .logical ⟨1, Nat.one_pos⟩ =
      .ok (some ({ deleteAbove with nextSstableId := 5 }, ⟨[⟨0, 3⟩, ⟨1, 2⟩], [], none⟩)) := rfl
  rw [htables, hlogical] at hprepare
  rcases hresult : s.prepareCompaction (Sstable.format crc32) ⟨1, Nat.one_pos⟩ with
    failure | _ | ⟨s₁, edit⟩ <;> rw [hresult] at hprepare
  · cases hprepare
  · cases hprepare
  · obtain rfl := (Prod.mk.inj (Option.some.inj (Except.ok.inj hprepare))).2
    exact ⟨s₁, rfl⟩

/-! ## The SSTables of the engine -/

/-- What is walked through is what was built, with the hash of `src/murmurhash3.cpp`. -/
theorem honest_format (crc32 : Bytes → UInt32) : (Sstable.format crc32).Honest :=
  fun _ _ _ _ => Sstable.format_honest

variable {crc32 : Bytes → UInt32} {s : Store Bytes}

/-- **The levels.** In every store that flushes and compactions lead to, the recorded range of each
live file is that of the first and the last key of the table that it was built from, which is all
that a walk through it can find, the live files of level 1 are apart, and every plan is closed under
overlap. -/
theorem levels_of_reachable (h : Reachable (Sstable.format crc32) Logged s) :
    (∀ f ∈ s.manifest.liveFiles, ∃ file rs, s.files.lookup f.path = some file ∧
      (Sstable.format crc32).build rs = .ok file ∧
      rs.head?.map Prod.fst = some f.smallestKey ∧ rs.getLast?.map Prod.fst = some f.largestKey ∧
      ∀ rs', s.readTable (Sstable.format crc32) f.path = .ok rs' → rs' = rs) ∧
    (∀ f ∈ s.manifest.liveFiles, ∀ g ∈ s.manifest.liveFiles, f.level = 1 → g.level = 1 → f ≠ g →
      f.Apart g) ∧
    ∀ (policy : CompactionPolicy) (plan : CompactionPlan),
      policy.pickCompaction s.manifest.liveFiles = .ok (some plan) →
      ∀ f ∈ plan.inputFiles, ∀ key, f.Covers key →
        ∀ g ∈ s.manifest.liveFiles, g.Covers key → g ∈ plan.inputFiles := by
  obtain ⟨hwritten, -⟩ := h.isWritten (honest_format crc32)
  refine ⟨fun f hf => ?_, hwritten.levels.apart,
    fun policy plan hplan f hf key hfkey g hg hgkey => ?_⟩
  · obtain ⟨rs, hbuilt⟩ := hwritten.built f hf
    obtain ⟨file, hfile, hbuild⟩ := hbuilt.file
    exact ⟨file, rs, hfile, hbuild, hbuilt.range.1, hbuilt.range.2,
      fun rs' hread => (hbuilt.records_of_read (honest_format crc32) hread).2⟩
  · obtain ⟨smallest, largest, hselects⟩ := CompactionPolicy.pickCompaction_ok hplan
    exact hselects.closed hwritten.levels hf hfkey hg hgkey

/-- So it is for a tombstone above a `PUT`, where the plan takes both tables. -/
theorem levels_of_reachable_two : ∃ s : Store Bytes,
    s.tables (Sstable.format byteSum.crc32) = deleteAbove ∧
    (∀ f ∈ s.manifest.liveFiles, ∃ file rs, s.files.lookup f.path = some file ∧
      (Sstable.format byteSum.crc32).build rs = .ok file ∧
      rs.head?.map Prod.fst = some f.smallestKey ∧ rs.getLast?.map Prod.fst = some f.largestKey ∧
      ∀ rs', s.readTable (Sstable.format byteSum.crc32) f.path = .ok rs' → rs' = rs) ∧
    ∃ plan, CompactionPolicy.pickCompaction ⟨1, Nat.one_pos⟩ s.manifest.liveFiles =
      .ok (some plan) ∧ ∀ f ∈ plan.inputFiles, f.Covers [1] →
        ∀ g ∈ s.manifest.liveFiles, g.Covers [1] → g ∈ plan.inputFiles := by
  obtain ⟨s, hs, -, htables⟩ := exists_deleteAbove byteSum.crc32
  obtain ⟨hranges, -, hclosed⟩ := levels_of_reachable hs.logged
  have hplan : ∃ plan, CompactionPolicy.pickCompaction ⟨1, Nat.one_pos⟩ s.manifest.liveFiles =
      .ok (some plan) := by
    rw [show s.manifest = deleteAbove.manifest from htables ▸ rfl]
    exact ⟨_, rfl⟩
  obtain ⟨plan, hplan⟩ := hplan
  exact ⟨s, htables, hranges, plan, hplan, fun f hf => hclosed _ plan hplan f hf [1]⟩

/-- **Compaction preserves the visible database.** In every store that flushes and compactions lead
to, a compaction that gets as far as its edit returns, since the edit is accepted, and the live
files have the same logical answer as before for every key. A lookup finds it, where the key can be
hashed. -/
theorem maybeCompact_answer
    (h : Reachable (Sstable.format crc32) (Numbered (Sstable.format crc32)) s)
    (policy : CompactionPolicy) :
    (s.prepareCompaction (Sstable.format crc32) policy = .ok none →
      s.maybeCompact (Sstable.format crc32) policy = .ok s) ∧
    ∀ s₁ edit, s.prepareCompaction (Sstable.format crc32) policy = .ok (some (s₁, edit)) →
      ∃ s', s₁.commit edit = .ok s' ∧ s.maybeCompact (Sstable.format crc32) policy = .ok s' ∧
        ∀ key, ∃ result, (∀ r, s.Answers (Sstable.format crc32) key r ↔ r = result) ∧
          (∀ r, s'.Answers (Sstable.format crc32) key r ↔ r = result) ∧
          (MurmurHash3.Fits key → s.answer (Sstable.format crc32) key = .ok result ∧
            s'.answer (Sstable.format crc32) key = .ok result) := by
  have hhonest := honest_format crc32
  obtain ⟨hwritten, -⟩ := h.logged.isWritten hhonest
  have hsequenced := h.sequenced hhonest
  refine ⟨fun hnone => by rw [maybeCompact, hnone, ok_bind], fun s₁ edit hprepare => ?_⟩
  obtain ⟨hlayered, s', plan, smallest, largest, inputs, output, added, hcompact, -, hcompacted⟩ :=
    hwritten.compact hhonest hprepare
  have hlayered' := hlayered.compact hcompacted
  have hsequenced' := hsequenced.compact hcompacted hlayered.tabled
  have hcommit : s₁.commit edit = .ok s' := by
    rwa [maybeCompact, hprepare, ok_bind] at hcompact
  refine ⟨s', hcommit, hcompact, fun key => ?_⟩
  obtain ⟨result, hbefore, hafter⟩ := hcompacted.answers hlayered hsequenced key
  refine ⟨result, fun r => ⟨fun hr => hr.unique hsequenced hbefore, fun hr => hr ▸ hbefore⟩,
    fun r => ⟨fun hr => hr.unique hsequenced' hafter, fun hr => hr ▸ hafter⟩, fun hkey => ?_⟩
  exact ⟨hbefore.answer hlayered.tabled hsequenced hkey,
    hafter.answer hlayered'.tabled hsequenced' hkey⟩

/-- A tombstone above a `PUT` is compacted away with it, and the key stays deleted. -/
theorem maybeCompact_answer_deleted : ∃ s s₁ s' : Store Bytes,
    s.tables (Sstable.format byteSum.crc32) = deleteAbove ∧
    s.prepareCompaction (Sstable.format byteSum.crc32) ⟨1, Nat.one_pos⟩ =
      .ok (some (s₁, ⟨[⟨0, 3⟩, ⟨1, 2⟩], [], none⟩)) ∧
    s.maybeCompact (Sstable.format byteSum.crc32) ⟨1, Nat.one_pos⟩ = .ok s' ∧
    ∃ result, s.answer (Sstable.format byteSum.crc32) [1] = .ok result ∧
      s'.answer (Sstable.format byteSum.crc32) [1] = .ok result := by
  obtain ⟨s, hs, hlayered, htables⟩ := exists_deleteAbove byteSum.crc32
  obtain ⟨s₁, hprepare⟩ := exists_prepared byteSum.crc32 hlayered htables
  obtain ⟨s', -, hcompact, hanswers⟩ := (maybeCompact_answer hs _).2 s₁ _ hprepare
  obtain ⟨result, -, -, hfound⟩ := hanswers [1]
  exact ⟨s, s₁, s', htables, hprepare, hcompact, result, hfound (by decide)⟩

/-- **A compaction leaves no garbage.** In every store that flushes and compactions lead to, a
compaction that gets as far as its edit returns with all live files on level 1. There, a key that
had an answer is live in one record of one file, which is no tombstone and has this answer, and a
key that had none is in no live file. -/
theorem maybeCompact_collects
    (h : Reachable (Sstable.format crc32) (Numbered (Sstable.format crc32)) s)
    {policy : CompactionPolicy} {s₁ : Store Bytes} {edit : ManifestEdit}
    (hprepare : s.prepareCompaction (Sstable.format crc32) policy = .ok (some (s₁, edit))) :
    ∃ s', s.maybeCompact (Sstable.format crc32) policy = .ok s' ∧
      (∀ f ∈ s'.manifest.liveFiles, f.level = 1) ∧
      ∀ key,
        (s.Answers (Sstable.format crc32) key none ∧ s'.placed (Sstable.format crc32) key = ∅) ∨
          ∃ f entry, s.Answers (Sstable.format crc32) key (some entry.value) ∧
            entry.operation ≠ .delete ∧ s'.placed (Sstable.format crc32) key = {(f, entry)} := by
  have hhonest := honest_format crc32
  obtain ⟨hwritten, hclean⟩ := h.logged.isWritten hhonest
  obtain ⟨hlayered, s', plan, smallest, largest, inputs, output, added, hcompact, -, hcompacted⟩ :=
    hwritten.compact hhonest hprepare
  have hlevel : ∀ f ∈ s'.manifest.liveFiles, f.level = 1 := fun _ => hcompacted.level hlayered
  refine ⟨s', hcompact, hlevel, fun key => ?_⟩
  obtain ⟨result, hbefore, hafter⟩ := hcompacted.answers hlayered (h.sequenced hhonest) key
  rcases (hclean.compact hcompacted hlayered.tabled).collected (hlayered.compact hcompacted) hlevel
    hafter with ⟨rfl, hplaced⟩ | ⟨f, entry, rfl, hoperation, hplaced⟩
  · exact .inl ⟨hbefore, hplaced⟩
  · exact .inr ⟨f, entry, hbefore, hoperation, hplaced⟩

/-- Behind the tombstone above a `PUT`, all live files are on level 1, and each key is live once or
nowhere. -/
theorem maybeCompact_collects_deleted : ∃ s s' : Store Bytes,
    s.tables (Sstable.format byteSum.crc32) = deleteAbove ∧
    s.maybeCompact (Sstable.format byteSum.crc32) ⟨1, Nat.one_pos⟩ = .ok s' ∧
    (∀ f ∈ s'.manifest.liveFiles, f.level = 1) ∧
    ∀ key,
      (s.Answers (Sstable.format byteSum.crc32) key none ∧
        s'.placed (Sstable.format byteSum.crc32) key = ∅) ∨
      ∃ f entry, s.Answers (Sstable.format byteSum.crc32) key (some entry.value) ∧
        entry.operation ≠ .delete ∧
          s'.placed (Sstable.format byteSum.crc32) key = {(f, entry)} := by
  obtain ⟨s, hs, hlayered, htables⟩ := exists_deleteAbove byteSum.crc32
  obtain ⟨s₁, hprepare⟩ := exists_prepared byteSum.crc32 hlayered htables
  obtain ⟨s', hcompact, hcollected⟩ := maybeCompact_collects hs hprepare
  exact ⟨s, s', htables, hcompact, hcollected⟩

end Store

end Kronos
