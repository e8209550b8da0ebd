import Kronos.Lsm.Edits

/-!
# The names in the database directory

`Store.prepareFlush` and `Store.prepareCompaction` say what a job of the worker leaves behind when
its output path is free. Here the jobs work name by name, as `SstableBuilder` does: its constructor
opens a `.tmp` file, whatever is there under that name, and `finish` renames it to `.sst`, which
replaces a file that has this name. A job can fail at any of these points.

The allocator returns a path that no file has. So no job replaces a file (`Extends.replaced`), and a
job that returns leaves the store that the other two say (`flushMemtable_ok`,
`maybeCompact_returns`).
-/

namespace Kronos

/-- A failure of the I/O of a job: before its builder opens the `.tmp` file, before the rename, or
behind it. -/
inductive JobFault where
  | beforeOpen (failure : Failure)
  | beforeRename (failure : Failure)
  | behindRename (failure : Failure)
  deriving DecidableEq, Repr

/-- The database directory: the store, and the paths whose `.tmp` files are there. No code reads
what a `.tmp` file holds. The history has the tables whose builder has returned, which are durable,
and the paths whose files a rename has replaced. -/
structure Directory (F : Type) where
  store : Store F
  temporary : List SstablePath
  finished : List (SstablePath × F)
  replaced : List SstablePath

namespace Directory

variable {F R : Type} (fmt : TableFormat F R)

/-! ## The jobs of the worker -/

/-- `::open` of the `.tmp` file, with `O_CREAT` and `O_TRUNC`. -/
def openTemporary (d : Directory F) (path : SstablePath) : Directory F :=
  { d with temporary := path :: d.temporary.filter (· ≠ path) }

/-- `std::rename` of the `.tmp` file, which holds a finished table. -/
def rename (d : Directory F) (path : SstablePath) (file : F) : Directory F where
  store := { d.store with files := (d.store.files.filter (·.1 ≠ path)) ++ [(path, file)] }
  temporary := d.temporary.filter (· ≠ path)
  finished := d.finished
  replaced := if d.store.fileExists path then path :: d.replaced else d.replaced

/-- `finish` returns. -/
def finish (d : Directory F) (path : SstablePath) (file : F) : Directory F :=
  { d with finished := d.finished ++ [(path, file)] }

/-- An `SstableBuilder` over the records of a table, from its constructor to the end of `finish`. A
destructor closes the file, and leaves it under its name. -/
def build (d : Directory F) (path : SstablePath) (rs : List TableRecord)
    (fault : Option JobFault) : Except Failure Unit × Directory F :=
  match fault with
  | some (.beforeOpen failure) => (.error failure, d)
  | some (.beforeRename failure) => (.error failure, d.openTemporary path)
  | some (.behindRename failure) =>
    match fmt.build rs with
    | .error failure => (.error failure, d.openTemporary path)
    | .ok file => (.error failure, (d.openTemporary path).rename path file)
  | none =>
    match fmt.build rs with
    | .error failure => (.error failure, d.openTemporary path)
    | .ok file => (.ok (), ((d.openTemporary path).rename path file).finish path file)

/-- `flushMemtable`, up to its commit. -/
def flushMemtable (d : Directory F) (memtable : Memtable) (fault : Option JobFault) :
    Except Failure ManifestEdit × Directory F :=
  if memtable.state ≠ .immutable then
    (.error (.exception "Background worker received a mutable Memtable"), d)
  else
    match memtable.table.entries with
    | [] => (.error (.exception "Background worker received an empty Memtable"), d)
    | first :: rest =>
      match d.store.allocateSstablePath 0 with
      | .error failure => (.error failure, d)
      | .ok (outputPath, store) =>
        match build fmt { d with store := store } outputPath (first :: rest) fault with
        | (.error failure, d) => (.error failure, d)
        | (.ok (), d) =>
          (.ok ⟨[], [⟨outputPath, 0, first.1, Store.lastKey first.1 (first :: rest)⟩],
            some (Store.flushedThrough first.2.sequence (first :: rest))⟩, d)

/-- `Compactor::compact`. A merge that throws behind its first record leaves a `.tmp` file, as
`JobFault.beforeRename` does. -/
def compact (d : Directory F) (inputFiles : List SstablePath) (outputPath : SstablePath)
    (canDropTombstones : Bool) (fault : Option JobFault) :
    Except Failure CompactionResult × Directory F :=
  if inputFiles = [] then
    (.error (.exception "Compaction requires at least one input SSTable"), d)
  else if d.store.fileExists outputPath then
    (.error (.exception "Compaction output path already exists"), d)
  else if outputPath ∈ inputFiles then
    (.error (.exception "Compaction output cannot overwrite an input SSTable"), d)
  else
    match inputFiles.mapM (d.store.readTable fmt) >>= Compactor.merge canDropTombstones with
    | .error failure => (.error failure, d)
    | .ok [] => (.ok ⟨inputFiles, []⟩, d)
    | .ok output =>
      match d.build fmt outputPath output fault with
      | (.error failure, d) => (.error failure, d)
      | (.ok (), d) => (.ok ⟨inputFiles, [outputPath]⟩, d)

/-- `maybeCompact`, from its copy of the live files up to its commit. -/
def maybeCompact (d : Directory F) (policy : CompactionPolicy) (liveFiles : List SstableMetadata)
    (fault : Option JobFault) : Except Failure (Option ManifestEdit) × Directory F :=
  match policy.pickCompaction liveFiles with
  | .error failure => (.error failure, d)
  | .ok none => (.ok none, d)
  | .ok (some plan) =>
    match d.store.allocateSstablePath plan.outputLevel with
    | .error failure => (.error failure, d)
    | .ok (outputPath, store) =>
      match compact fmt { d with store := store } (plan.inputFiles.map (·.path)) outputPath
          plan.canDropTombstones fault with
      | (.error failure, d) => (.error failure, d)
      | (.ok result, d) =>
        match result.outputFiles.mapM (d.store.metadataForSstable fmt plan.outputLevel) with
        | .error failure => (.error failure, d)
        | .ok addFiles => (.ok (some ⟨result.inputFiles, addFiles, none⟩), d)

/-! ## What a job changes -/

/-- Every finished table is there under its path, and no file has been replaced. -/
structure Intact (d : Directory F) : Prop where
  kept : ∀ path file, (path, file) ∈ d.finished → d.store.files.lookup path = some file
  replaced : d.replaced = []

/-- A directory has new files beside those of another, and perhaps tables that were finished
since. -/
structure Extends (d d' : Directory F) : Prop where
  manifest : d'.store.manifest = d.store.manifest
  files : Store.KeepsFiles d.store d'.store
  finished : ∀ entry ∈ d.finished, entry ∈ d'.finished
  added : ∀ path file, (path, file) ∈ d'.finished →
    (path, file) ∈ d.finished ∨ d'.store.files.lookup path = some file
  replaced : d'.replaced = d.replaced

/-- A table that is finished under a path. -/
def Finished (d : Directory F) (path : SstablePath) : Prop := ∃ file, (path, file) ∈ d.finished

/-- A directory extends itself. -/
theorem Extends.refl (d : Directory F) : d.Extends d :=
  ⟨rfl, .refl _, fun _ => id, fun _ _ => .inl, rfl⟩

/-- A directory that extends an intact one is intact. -/
theorem Extends.intact {d d' : Directory F} (h : d.Extends d') (hintact : d.Intact) :
    d'.Intact := by
  refine ⟨fun path file hmem => ?_, h.replaced.trans hintact.replaced⟩
  rcases h.added path file hmem with hold | hnew
  · exact h.files path file (hintact.kept path file hold)
  · exact hnew

/-- What is finished in a directory is finished in one that extends it. -/
theorem Extends.of_finished {d d' : Directory F} (h : d.Extends d') {path : SstablePath}
    (hfinished : d.Finished path) : d'.Finished path := by
  obtain ⟨file, hfile⟩ := hfinished
  exact ⟨file, h.finished _ hfile⟩

/-- The files, the MANIFEST and the history are all that counts. -/
theorem Extends.of_eq {d₀ d d' : Directory F} (h : d.Extends d')
    (hmanifest : d.store.manifest = d₀.store.manifest) (hfiles : d.store.files = d₀.store.files)
    (hfinished : d.finished = d₀.finished) (hreplaced : d.replaced = d₀.replaced) :
    d₀.Extends d' where
  manifest := h.manifest.trans hmanifest
  files path file hlookup := h.files path file (hfiles ▸ hlookup)
  finished entry hmem := h.finished entry (hfinished ▸ hmem)
  added path file hmem := hfinished ▸ h.added path file hmem
  replaced := h.replaced.trans hreplaced

/-! ## The builder -/

/-- Under a path that no file has, a rename publishes the table. -/
theorem rename_of_fresh {d : Directory F} {path : SstablePath}
    (hfresh : d.store.fileExists path = false) (file : F) :
    (d.rename path file).store = d.store.publish path file ∧
      (d.rename path file).replaced = d.replaced := by
  have hfilter : (d.store.files.filter (·.1 ≠ path)) = d.store.files := by
    refine List.filter_eq_self.2 fun entry hentry => decide_eq_true ?_
    rintro rfl
    have hnone : d.store.files.lookup entry.1 = none := by simpa [Store.fileExists] using hfresh
    have hne := List.lookup_eq_none_iff.1 hnone entry hentry
    simp at hne
  refine ⟨?_, ?_⟩
  · rw [rename, hfilter, Store.publish]
  · simp [rename, hfresh]

/-- A builder under a free path extends the directory, wherever it fails. -/
theorem build_extends {d : Directory F} {path : SstablePath}
    (hfresh : d.store.fileExists path = false) (rs : List TableRecord) (fault : Option JobFault) :
    d.Extends (d.build fmt path rs fault).2 := by
  have hopen : d.Extends (d.openTemporary path) :=
    ⟨rfl, .refl _, fun _ => id, fun _ _ => .inl, rfl⟩
  have hrename : ∀ file, d.Extends ((d.openTemporary path).rename path file) := by
    intro file
    obtain ⟨hstore, hreplaced⟩ := @rename_of_fresh F (d.openTemporary path) path hfresh file
    refine ⟨?_, ?_, fun _ => id, fun _ _ => .inl, hreplaced⟩
    · rw [hstore]
      rfl
    · rw [hstore]
      exact Store.keepsFiles_publish _ path file
  have hfinish : ∀ file,
      d.Extends (((d.openTemporary path).rename path file).finish path file) := by
    intro file
    obtain ⟨hstore, -⟩ := @rename_of_fresh F (d.openTemporary path) path hfresh file
    refine ⟨(hrename file).manifest, (hrename file).files,
      fun entry hmem => List.mem_append_left _ hmem, fun path' file' hmem => ?_,
      (hrename file).replaced⟩
    rcases List.mem_append.1 hmem with hold | hnew
    · exact .inl hold
    · obtain ⟨rfl, rfl⟩ := Prod.mk.inj (List.mem_singleton.1 hnew)
      refine .inr ?_
      show ((d.openTemporary path').rename path' file').store.files.lookup path' = some file'
      rw [hstore]
      exact Store.lookup_publish hfresh file'
  unfold build
  rcases fault with _ | failure | failure | failure
  · cases fmt.build rs with
    | error failure => exact hopen
    | ok file => exact hfinish file
  · exact .refl d
  · exact hopen
  · cases fmt.build rs with
    | error failure => exact hopen
    | ok file => exact hrename file

/-- A builder that returns has published its table. -/
theorem build_ok {d d' : Directory F} {path : SstablePath} {rs : List TableRecord}
    {fault : Option JobFault} (h : d.build fmt path rs fault = (.ok (), d'))
    (hfresh : d.store.fileExists path = false) :
    ∃ file, fmt.build rs = .ok file ∧ d'.store = d.store.publish path file ∧ d'.Finished path := by
  unfold build at h
  rcases fault with _ | failure | failure | failure
  · cases hbuild : fmt.build rs with
    | error failure =>
      rw [hbuild] at h
      cases h
    | ok file =>
      rw [hbuild] at h
      cases h
      exact ⟨file, rfl, (@rename_of_fresh F (d.openTemporary path) path hfresh file).1, file,
        List.mem_append_right _ (.head _)⟩
  · cases h
  · cases h
  · cases hbuild : fmt.build rs with
    | error failure =>
      rw [hbuild] at h
      cases h
    | ok file =>
      rw [hbuild] at h
      cases h

/-- A builder throws without a failing I/O only if its table is not built. -/
theorem build_throws {d d' : Directory F} {path : SstablePath} {rs : List TableRecord}
    {failure : Failure} (h : d.build fmt path rs none = (.error failure, d')) :
    fmt.build rs = .error failure := by
  unfold build at h
  cases hbuild : fmt.build rs with
  | error failure' =>
    rw [hbuild] at h
    cases h
    rfl
  | ok file =>
    rw [hbuild] at h
    cases h

/-! ## The jobs -/

/-- A flush extends the directory, wherever it fails. -/
theorem flushMemtable_extends (d : Directory F) (memtable : Memtable) (fault : Option JobFault) :
    d.Extends (d.flushMemtable fmt memtable fault).2 := by
  unfold flushMemtable
  split_ifs
  · exact .refl d
  · cases memtable.table.entries with
    | nil => exact .refl d
    | cons first rest =>
      obtain ⟨path, next, halloc, hfresh, -⟩ := d.store.allocateSstablePath_returns 0
      have hbuild := @build_extends F R fmt
        { d with store := { d.store with nextSstableId := next } } path hfresh (first :: rest) fault
      simp only [halloc]
      generalize build fmt _ path (first :: rest) fault = built at hbuild ⊢
      rcases built with ⟨failure | _, d'⟩
      · exact hbuild.of_eq rfl rfl rfl rfl
      · exact hbuild.of_eq rfl rfl rfl rfl

/-- A flush that returns has done what `prepareFlush` says, and its table is finished. -/
theorem flushMemtable_ok {d d' : Directory F} {memtable : Memtable} {fault : Option JobFault}
    {edit : ManifestEdit} (h : d.flushMemtable fmt memtable fault = (.ok edit, d')) :
    d.store.prepareFlush fmt memtable = .ok (d'.store, edit) ∧
      ∀ f ∈ edit.addFiles, d'.Finished f.path := by
  unfold flushMemtable at h
  unfold Store.prepareFlush
  split_ifs at h ⊢ with hstate
  · cases h
  · cases hentries : memtable.table.entries with
    | nil =>
      rw [hentries] at h
      cases h
    | cons first rest =>
      obtain ⟨path, next, halloc, hfresh, -⟩ := d.store.allocateSstablePath_returns 0
      simp only [hentries, halloc] at h
      rcases hbuild : build fmt { d with store := { d.store with nextSstableId := next } } path
        (first :: rest) fault with ⟨failure | _, built⟩
      · rw [hbuild] at h
        cases h
      · rw [hbuild] at h
        cases h
        obtain ⟨file, hfile, hstore, hfinished⟩ := build_ok fmt hbuild hfresh
        refine ⟨?_, fun f hf => ?_⟩
        · simp only [halloc, ok_bind, hfile, hstore]
        · rw [List.mem_singleton.1 hf]
          exact hfinished

/-- A flush throws without a failing I/O only what `prepareFlush` throws. -/
theorem flushMemtable_throws {d d' : Directory F} {memtable : Memtable} {failure : Failure}
    (h : d.flushMemtable fmt memtable none = (.error failure, d')) :
    d.store.prepareFlush fmt memtable = .error failure := by
  unfold flushMemtable at h
  unfold Store.prepareFlush
  split_ifs at h ⊢ with hstate
  · cases h
    rfl
  · cases hentries : memtable.table.entries with
    | nil =>
      rw [hentries] at h
      cases h
      rfl
    | cons first rest =>
      obtain ⟨path, next, halloc, -, -⟩ := d.store.allocateSstablePath_returns 0
      simp only [hentries, halloc] at h
      rcases hbuild : build fmt { d with store := { d.store with nextSstableId := next } } path
        (first :: rest) none with ⟨failure' | _, built⟩
      · rw [hbuild] at h
        cases h
        simp only [halloc, ok_bind, build_throws fmt hbuild]
        rfl
      · rw [hbuild] at h
        cases h

/-- The result of a merge extends the directory, wherever its writing fails. -/
theorem compact_extends (d : Directory F) (inputFiles : List SstablePath)
    (outputPath : SstablePath) (canDropTombstones : Bool) (fault : Option JobFault) :
    d.Extends (d.compact fmt inputFiles outputPath canDropTombstones fault).2 := by
  unfold compact
  split_ifs with hnil hexists hinput
  · exact .refl d
  · exact .refl d
  · exact .refl d
  · rcases inputFiles.mapM (d.store.readTable fmt) >>= Compactor.merge canDropTombstones with
      failure | _ | ⟨first, rest⟩
    · exact .refl d
    · exact .refl d
    · have hbuild :=
        @build_extends F R fmt d outputPath (by simpa using hexists) (first :: rest) fault
      dsimp only
      generalize build fmt d outputPath (first :: rest) fault = built at hbuild ⊢
      rcases built with ⟨failure | _, d'⟩
      · exact hbuild
      · exact hbuild

/-- A compaction that returns has done what `Store.compact` says, and its output is finished. -/
theorem compact_ok {d d' : Directory F} {inputFiles : List SstablePath} {outputPath : SstablePath}
    {canDropTombstones : Bool} {fault : Option JobFault} {result : CompactionResult}
    (h : d.compact fmt inputFiles outputPath canDropTombstones fault = (.ok result, d')) :
    d.store.compact fmt inputFiles outputPath canDropTombstones = .ok (d'.store, result) ∧
      ∀ path ∈ result.outputFiles, d'.Finished path := by
  unfold compact at h
  unfold Store.compact
  split_ifs at h ⊢ with hnil hexists hinput
  · cases h
  · cases h
  · cases h
  cases hmerge : inputFiles.mapM (d.store.readTable fmt) >>= Compactor.merge canDropTombstones with
  | error failure =>
    rw [hmerge] at h
    cases h
  | ok output =>
    rw [hmerge] at h
    obtain ⟨inputs, hinputs, houtput⟩ := bind_eq_ok hmerge
    rw [hinputs, ok_bind, houtput, ok_bind]
    cases output with
    | nil =>
      cases h
      exact ⟨rfl, nofun⟩
    | cons first rest =>
      dsimp only at h
      rcases hbuild : build fmt d outputPath (first :: rest) fault with ⟨failure | _, built⟩
      · rw [hbuild] at h
        cases h
      · rw [hbuild] at h
        cases h
        obtain ⟨file, hfile, hstore, hfinished⟩ := build_ok fmt hbuild (by simpa using hexists)
        refine ⟨?_, fun path hpath => ?_⟩
        · rw [if_neg (List.cons_ne_nil _ _), hfile, ok_bind, hstore]
        · rw [List.mem_singleton.1 hpath]
          exact hfinished

/-- A compaction throws without a failing I/O only what `Store.compact` throws. -/
theorem compact_throws {d d' : Directory F} {inputFiles : List SstablePath}
    {outputPath : SstablePath} {canDropTombstones : Bool} {failure : Failure}
    (h : d.compact fmt inputFiles outputPath canDropTombstones none = (.error failure, d')) :
    d.store.compact fmt inputFiles outputPath canDropTombstones = .error failure := by
  unfold compact at h
  unfold Store.compact
  split_ifs at h ⊢ with hnil hexists hinput
  · cases h
    rfl
  · cases h
    rfl
  · cases h
    rfl
  cases hinputs : inputFiles.mapM (d.store.readTable fmt) with
  | error failure' =>
    rw [hinputs] at h
    cases h
    rfl
  | ok inputs =>
    rw [hinputs, ok_bind] at h
    rw [ok_bind]
    cases houtput : Compactor.merge canDropTombstones inputs with
    | error failure' =>
      rw [houtput] at h
      cases h
      rfl
    | ok output =>
      rw [houtput] at h
      rw [ok_bind]
      cases output with
      | nil => cases h
      | cons first rest =>
        dsimp only at h
        rcases hbuild : build fmt d outputPath (first :: rest) none with ⟨failure' | _, built⟩
        · rw [hbuild] at h
          cases h
          rw [if_neg (List.cons_ne_nil _ _), build_throws fmt hbuild]
          rfl
        · rw [hbuild] at h
          cases h

/-- The metadata of finished tables name finished tables. -/
theorem finished_of_metadata {d : Directory F} {s : Store F} {level : ℕ}
    {paths : List SstablePath} (hpaths : ∀ path ∈ paths, d.Finished path)
    {addFiles : List SstableMetadata}
    (h : paths.mapM (s.metadataForSstable fmt level) = .ok addFiles) :
    ∀ f ∈ addFiles, d.Finished f.path := by
  induction paths generalizing addFiles with
  | nil =>
    cases h
    exact fun f hf => absurd hf List.not_mem_nil
  | cons path paths ih =>
    rw [List.mapM_cons] at h
    obtain ⟨f, hf, h⟩ := bind_eq_ok h
    obtain ⟨rest, hrest, h⟩ := bind_eq_ok h
    cases h
    intro g hg
    rcases List.mem_cons.1 hg with rfl | hg
    · rw [Store.metadataForSstable_ok hf]
      exact hpaths path (.head _)
    · exact ih (fun path' hpath' => hpaths path' (.tail _ hpath')) hrest g hg

/-- A compaction extends the directory, wherever it fails. -/
theorem maybeCompact_extends (d : Directory F) (policy : CompactionPolicy)
    (liveFiles : List SstableMetadata) (fault : Option JobFault) :
    d.Extends (d.maybeCompact fmt policy liveFiles fault).2 := by
  unfold maybeCompact
  rcases policy.pickCompaction liveFiles with failure | _ | plan
  · exact .refl d
  · exact .refl d
  · obtain ⟨path, next, halloc, -, -⟩ := d.store.allocateSstablePath_returns plan.outputLevel
    have hcompact := compact_extends fmt { d with store := { d.store with nextSstableId := next } }
      (plan.inputFiles.map (·.path)) path plan.canDropTombstones fault
    simp only [halloc]
    generalize compact fmt _ (plan.inputFiles.map (·.path)) path plan.canDropTombstones fault =
      compacted at hcompact ⊢
    rcases compacted with ⟨failure | result, d'⟩
    · exact hcompact.of_eq rfl rfl rfl rfl
    · dsimp only
      rcases result.outputFiles.mapM (d'.store.metadataForSstable fmt plan.outputLevel) with
        failure | addFiles
      · exact hcompact.of_eq rfl rfl rfl rfl
      · exact hcompact.of_eq rfl rfl rfl rfl

/-- The allocator does not depend on the MANIFEST. -/
theorem allocate_of_manifest {s : Store F} {level next : ℕ} {path : SstablePath}
    (h : s.allocateSstablePath level = .ok (path, { s with nextSstableId := next }))
    (m : Manifest) : Store.allocateSstablePath { s with manifest := m } level =
      .ok (path, { s with manifest := m, nextSstableId := next }) := by
  have hfrom : ∀ fuel id, Store.allocateFrom ({ s with manifest := m } : Store F) level fuel id =
      s.allocateFrom level fuel id := by
    intro fuel
    induction fuel with
    | zero => exact fun _ => rfl
    | succ fuel ih =>
      intro id
      rw [Store.allocateFrom, Store.allocateFrom, ih]
      rfl
  unfold Store.allocateSstablePath at h ⊢
  obtain ⟨⟨path', next'⟩, hallocated, hok⟩ := bind_eq_ok h
  cases hok
  rw [hfrom, hallocated, ok_bind]

/-- What a compaction does to the files does not depend on the MANIFEST. -/
theorem compact_of_manifest (s : Store F) (m : Manifest) (inputFiles : List SstablePath)
    (outputPath : SstablePath) (canDropTombstones : Bool) :
    Store.compact fmt { s with manifest := m } inputFiles outputPath canDropTombstones =
      (s.compact fmt inputFiles outputPath canDropTombstones).map fun done =>
        ({ done.1 with manifest := m }, done.2) := by
  have hread : Store.readTable fmt ({ s with manifest := m } : Store F) = s.readTable fmt := rfl
  have hexists : Store.fileExists ({ s with manifest := m } : Store F) = s.fileExists := rfl
  unfold Store.compact
  rw [hread, hexists]
  split_ifs
  · rfl
  · rfl
  · rfl
  · cases inputFiles.mapM (s.readTable fmt) with
    | error failure => rfl
    | ok inputs =>
      rw [ok_bind, ok_bind]
      cases Compactor.merge canDropTombstones inputs with
      | error failure => rfl
      | ok output =>
        rw [ok_bind, ok_bind]
        split_ifs
        · rfl
        · cases fmt.build output with
          | error failure => rfl
          | ok file => rfl

/-- A compaction that returns found nothing to do, or has done what `prepareCompaction` says over
its copy of the live files, and the files that its edit adds are finished. -/
theorem maybeCompact_returns {d d' : Directory F} {policy : CompactionPolicy}
    {liveFiles : List SstableMetadata} {fault : Option JobFault} {result : Option ManifestEdit}
    (h : d.maybeCompact fmt policy liveFiles fault = (.ok result, d')) :
    (result = none ∧ d' = d ∧ policy.pickCompaction liveFiles = .ok none) ∨
      ∃ edit, result = some edit ∧ (∀ f ∈ edit.addFiles, d'.Finished f.path) ∧
        ∀ m : Manifest, m.liveFiles = liveFiles →
          Store.prepareCompaction fmt policy { d.store with manifest := m } =
            .ok (some ({ d'.store with manifest := m }, edit)) := by
  unfold maybeCompact at h
  rcases hplan : policy.pickCompaction liveFiles with failure | _ | plan
  · rw [hplan] at h
    cases h
  · rw [hplan] at h
    cases h
    exact .inl ⟨rfl, rfl, rfl⟩
  · obtain ⟨path, next, halloc, -, -⟩ := d.store.allocateSstablePath_returns plan.outputLevel
    simp only [hplan, halloc] at h
    rcases hcompact : compact fmt { d with store := { d.store with nextSstableId := next } }
      (plan.inputFiles.map (·.path)) path plan.canDropTombstones fault with
      ⟨failure | output, built⟩
    · rw [hcompact] at h
      cases h
    · rw [hcompact] at h
      dsimp only at h
      cases hadd :
        output.outputFiles.mapM (built.store.metadataForSstable fmt plan.outputLevel) with
      | error failure =>
        rw [hadd] at h
        cases h
      | ok addFiles =>
        rw [hadd] at h
        cases h
        obtain ⟨hcompacted, hfinished⟩ := compact_ok fmt hcompact
        refine .inr ⟨_, rfl, finished_of_metadata fmt hfinished hadd, fun m hm => ?_⟩
        subst hm
        have hcompacted' := compact_of_manifest fmt { d.store with nextSstableId := next } m
          (plan.inputFiles.map (·.path)) path plan.canDropTombstones
        rw [hcompacted] at hcompacted'
        have hadd' : output.outputFiles.mapM (Store.metadataForSstable fmt
            ({ d'.store with manifest := m } : Store F) plan.outputLevel) = .ok addFiles := hadd
        unfold Store.prepareCompaction
        rw [hplan, ok_bind]
        dsimp only
        rw [allocate_of_manifest halloc m, ok_bind]
        dsimp only
        rw [hcompacted']
        simp only [Except.map, ok_bind, hadd']

/-- A compaction throws without a failing I/O only what `prepareCompaction` throws. -/
theorem maybeCompact_throws {d d' : Directory F} {policy : CompactionPolicy} {m : Manifest}
    {failure : Failure}
    (h : d.maybeCompact fmt policy m.liveFiles none = (.error failure, d')) :
    Store.prepareCompaction fmt policy { d.store with manifest := m } = .error failure := by
  unfold maybeCompact at h
  unfold Store.prepareCompaction
  rcases hplan : policy.pickCompaction m.liveFiles with failure' | _ | plan
  · rw [hplan] at h
    cases h
    rfl
  · rw [hplan] at h
    cases h
  · obtain ⟨path, next, halloc, -, -⟩ := d.store.allocateSstablePath_returns plan.outputLevel
    simp only [hplan, halloc] at h
    rw [ok_bind]
    dsimp only
    rw [allocate_of_manifest halloc m, ok_bind]
    dsimp only
    have hcompacted := compact_of_manifest fmt { d.store with nextSstableId := next } m
      (plan.inputFiles.map (·.path)) path plan.canDropTombstones
    rcases hcompact : compact fmt { d with store := { d.store with nextSstableId := next } }
      (plan.inputFiles.map (·.path)) path plan.canDropTombstones none with
      ⟨failure' | output, built⟩
    · rw [hcompact] at h
      cases h
      rw [compact_throws fmt hcompact] at hcompacted
      rw [hcompacted]
      rfl
    · rw [hcompact] at h
      dsimp only at h
      obtain ⟨hdone, -⟩ := compact_ok fmt hcompact
      rw [hdone] at hcompacted
      rw [hcompacted]
      cases hadd :
        output.outputFiles.mapM (built.store.metadataForSstable fmt plan.outputLevel) with
      | error failure' =>
        rw [hadd] at h
        cases h
        have hadd' : output.outputFiles.mapM (Store.metadataForSstable fmt
            ({ d'.store with manifest := m } : Store F) plan.outputLevel) =
              .error failure := hadd
        simp only [Except.map, ok_bind, hadd']
        rfl
      | ok addFiles =>
        rw [hadd] at h
        cases h

end Directory

end Kronos
