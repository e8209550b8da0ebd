import Kronos.Lsm.Operations

/-!
# The tables behind the files

A store over files has a store over tables behind it, in which every file is replaced by the table
that a walk through it finds (`Store.tables`). Where the live files hold tables, and those that are
built are represented, the operations of the worker and the search of `get` do the same on both:
they return the same metadata, edits, versions and failures (`Store.prepareFlush_tables`,
`Store.prepareCompaction_tables`, `Store.Records.lookupFile_tables`).
-/

namespace Kronos

variable {F R : Type}

/-- The table in a file, or an empty one where no walk through the file returns. -/
def TableFormat.table (fmt : TableFormat F R) (file : F) : List TableRecord :=
  match fmt.openTable file >>= fmt.records with
  | .ok rs => rs
  | .error _ => []

/-- The table of a file that stores some records are these records. -/
theorem TableFormat.Stores.table_eq {fmt : TableFormat F R} {file : F} {rs : List TableRecord}
    (h : fmt.Stores file rs) : fmt.table file = rs := by
  obtain ⟨reader, hopen, hrecords, -⟩ := h
  rw [table, hopen, ok_bind, hrecords]

namespace Store

/-- The store over tables behind one over files. -/
def tables (fmt : TableFormat F R) (s : Store F) : Store (List TableRecord) where
  manifest := s.manifest
  files := s.files.map fun file => (file.1, fmt.table file.2)
  nextSstableId := s.nextSstableId

variable {fmt : TableFormat F R} {s s' : Store F}

/-- The tables of a store lie under the paths of its files. -/
theorem lookup_tables (s : Store F) (path : SstablePath) :
    (s.tables fmt).files.lookup path = (s.files.lookup path).map fmt.table := by
  obtain ⟨manifest, files, next⟩ := s
  show (files.map _).lookup path = (files.lookup path).map fmt.table
  induction files with
  | nil => rfl
  | cons file files ih =>
    rw [List.map_cons, List.lookup_cons, List.lookup_cons, ih]
    cases path == file.1 <;> rfl

/-- They exist where the files do. -/
theorem fileExists_tables (s : Store F) (path : SstablePath) :
    (s.tables fmt).fileExists path = s.fileExists path := by
  rw [fileExists, fileExists, lookup_tables, Option.isSome_map]

/-- A table that is published is published behind the files. -/
theorem tables_publish (s : Store F) (path : SstablePath) {file : F} {rs : List TableRecord}
    (h : fmt.Stores file rs) :
    (s.publish path file).tables fmt = (s.tables fmt).publish path rs := by
  simp [tables, publish, h.table_eq]

/-- Files that are kept are tables that are kept. -/
theorem KeepsFiles.tables (h : KeepsFiles s s') :
    KeepsFiles (s.tables fmt) (s'.tables fmt) := by
  intro path rs hlookup
  rw [lookup_tables] at hlookup ⊢
  obtain ⟨file, hfile, rfl⟩ := Option.map_eq_some_iff.1 hlookup
  rw [h path file hfile]
  rfl

/-- A table that a file holds is the one behind it. -/
theorem Holds.tables {f : SstableMetadata} {rs : List TableRecord} (h : s.Holds fmt f rs) :
    (s.tables fmt).Holds .logical f rs := by
  obtain ⟨file, hfile, hstores⟩ := h
  refine ⟨rs, ?_, TableFormat.logical_stores rs⟩
  rw [lookup_tables, hfile, Option.map_some, hstores.table_eq]

/-- A file that has some records has them as a table. -/
theorem Records.tables {f : SstableMetadata} {rs : List TableRecord} (h : s.Records fmt f rs) :
    (s.tables fmt).Records .logical f rs := ⟨h.holds.tables, h.sorted, h.range⟩

/-- A store whose files are tables is one of tables. -/
theorem Tabled.tables (h : s.Tabled fmt) : (s.tables fmt).Tabled .logical := by
  refine ⟨h.distinct, fun f hf => ?_⟩
  obtain ⟨rs, hrecords⟩ := h.exact f hf
  exact ⟨rs, hrecords.tables⟩

/-- The versions of a key are the same. -/
theorem Tabled.versions_tables (h : s.Tabled fmt) (key : Bytes) :
    (s.tables fmt).versions .logical key = s.versions fmt key := by
  ext entry
  constructor
  · rintro ⟨f, hf, rs, hholds, hmem⟩
    obtain ⟨rs', hrecords⟩ := h.exact f hf
    rw [hholds.unique hrecords.holds.tables] at hmem
    exact ⟨f, hf, rs', hrecords.holds, hmem⟩
  · exact fun ⟨f, hf, rs, hholds, hmem⟩ => ⟨f, hf, rs, hholds.tables, hmem⟩

/-- A pass of the search of `get` finds the same, for a key that a lookup takes. -/
theorem Records.lookupFile_tables {f : SstableMetadata} {rs : List TableRecord}
    (h : s.Records fmt f rs) {key : Bytes} (hkey : fmt.Takes key) (winner : Option InternalEntry) :
    (s.tables fmt).lookupFile .logical key winner f = s.lookupFile fmt key winner f :=
  (h.tables.lookupFile trivial winner).trans (h.lookupFile hkey winner).symm

/-- Paths are allocated by the names of the files alone. -/
theorem allocateSstablePath_tables (s : Store F) (level : ℕ) :
    (s.tables fmt).allocateSstablePath level =
      (s.allocateSstablePath level).map (Prod.map id (tables fmt)) := by
  have hfrom : ∀ fuel id, (s.tables fmt).allocateFrom level fuel id =
      s.allocateFrom level fuel id := by
    intro fuel
    induction fuel with
    | zero => exact fun _ => rfl
    | succ fuel ih =>
      intro id
      rw [allocateFrom, allocateFrom, fileExists_tables, ih]
  have hlength : (s.tables fmt).files.length = s.files.length := List.length_map _
  rw [allocateSstablePath, allocateSstablePath, hfrom, hlength]
  show (s.allocateFrom level (s.files.length + 1) s.nextSstableId >>= _) = _
  cases s.allocateFrom level (s.files.length + 1) s.nextSstableId <;> rfl

/-- A commit does not look at the files. -/
theorem commit_tables (s : Store F) (edit : ManifestEdit) :
    (s.tables fmt).commit edit = (s.commit edit).map (tables fmt) := by
  unfold commit
  show (s.manifest.applyEdit edit >>= _) = _
  cases s.manifest.applyEdit edit <;> rfl

/-- A flush whose table is represented. -/
theorem prepareFlush_tables (s : Store F) {memtable : Memtable}
    (hrep : memtable.table.entries ≠ [] → fmt.Represents memtable.table.entries) :
    (s.tables fmt).prepareFlush .logical memtable =
      (s.prepareFlush fmt memtable).map (Prod.map (tables fmt) id) := by
  unfold prepareFlush
  split_ifs with hstate
  · rfl
  · cases hentries : memtable.table.entries with
    | nil => rfl
    | cons first rest =>
      rw [hentries] at hrep
      obtain ⟨path, next, halloc, -, -⟩ := s.allocateSstablePath_returns 0
      obtain ⟨file, hbuild, hstores⟩ := hrep (List.cons_ne_nil _ _)
      dsimp only
      rw [allocateSstablePath_tables, halloc]
      show Except.ok _ = Except.map _ (fmt.build _ >>= _)
      rw [hbuild, ok_bind]
      exact congrArg (fun store => Except.ok (store, _)) (tables_publish _ path hstores).symm

/-- A flush writes the same table in both stores, if the format represents the entries. -/
theorem flushMemtable_tables (s : Store F) {memtable : Memtable}
    (hrep : memtable.table.entries ≠ [] → fmt.Represents memtable.table.entries) :
    (s.tables fmt).flushMemtable .logical memtable =
      (s.flushMemtable fmt memtable).map (tables fmt) := by
  unfold flushMemtable
  rw [prepareFlush_tables s hrep]
  cases s.prepareFlush fmt memtable with
  | error failure => rfl
  | ok prepared => exact commit_tables prepared.1 prepared.2

/-- What a compaction that has a plan prepares: it reads and merges what the plan takes, and writes
the merge to a new path, unless it is empty. -/
theorem prepareCompaction_eq {policy : CompactionPolicy} {plan : CompactionPlan}
    {smallest largest : Bytes} {path : SstablePath} {next : ℕ} {output : List TableRecord}
    (htabled : s.Tabled fmt) (hplan : policy.pickCompaction s.manifest.liveFiles = .ok (some plan))
    (hselects : CompactionPolicy.Selects s.manifest.liveFiles plan smallest largest)
    (halloc : s.allocateSstablePath plan.outputLevel =
      .ok (path, { s with nextSstableId := next })) (hfresh : s.fileExists path = false)
    (houtput : s.planOutput fmt plan = .ok output) :
    (output = [] → s.prepareCompaction fmt policy =
      .ok (some ({ s with nextSstableId := next }, ⟨plan.inputFiles.map (·.path), [], none⟩))) ∧
    ∀ first rest file, output = first :: rest → fmt.build output = .ok file →
      fmt.Stores file output → s.prepareCompaction fmt policy =
        .ok (some (publish { s with nextSstableId := next } path file,
          ⟨plan.inputFiles.map (·.path),
            [⟨path, plan.outputLevel, first.1, lastKey first.1 output⟩], none⟩)) := by
  obtain ⟨inputs, output', hinputs, hmerge, hplanned, -, -, -⟩ := planOutput_spec htabled hselects
  obtain rfl := Except.ok.inj (houtput.symm.trans hplanned)
  have hnonempty : plan.inputFiles.map (·.path) ≠ [] := by simpa using hselects.nonempty
  have hpath : path ∉ plan.inputFiles.map (·.path) := by
    intro hmem
    obtain ⟨f, hf, rfl⟩ := List.mem_map.1 hmem
    rw [htabled.fileExists ((hselects.inputs f).1 hf).1] at hfresh
    cases hfresh
  have hinputs' : (plan.inputFiles.map (·.path)).mapM
      (readTable fmt { s with nextSstableId := next }) = .ok inputs := hinputs
  have hfresh' : ¬fileExists { s with nextSstableId := next } path = true :=
    ne_true_of_eq_false hfresh
  have hcompact : compact fmt { s with nextSstableId := next } (plan.inputFiles.map (·.path)) path
      plan.canDropTombstones = (if output = [] then
        .ok ({ s with nextSstableId := next }, ⟨plan.inputFiles.map (·.path), []⟩)
      else do
        let file ← fmt.build output
        .ok (publish { s with nextSstableId := next } path file,
          ⟨plan.inputFiles.map (·.path), [path]⟩)) := by
    rw [compact, if_neg hnonempty, if_neg hfresh', if_neg hpath, hinputs', ok_bind, hmerge, ok_bind]
  rw [prepareCompaction, hplan, ok_bind]
  dsimp only
  rw [halloc, ok_bind]
  dsimp only
  rw [hcompact]
  refine ⟨fun hempty => ?_, fun first rest file hcons hbuild hstores => ?_⟩
  · rw [if_pos hempty]
    rfl
  · rw [if_neg (hcons ▸ List.cons_ne_nil _ _), hbuild, ok_bind, ok_bind]
    dsimp only
    -- The metadata are read back from the file that was just written.
    have hholds : (publish { s with nextSstableId := next } path file).Holds fmt
        ⟨path, plan.outputLevel, first.1, lastKey first.1 output⟩ output :=
      ⟨file, lookup_publish (s := { s with nextSstableId := next }) hfresh file, hstores⟩
    have hread := hholds.readTable
    rw [List.mapM_cons, metadataForSstable, hread, ok_bind, hcons]
    rfl

/-- A plan merges the same tables. -/
theorem planOutput_tables (htabled : s.Tabled fmt) {plan : CompactionPlan}
    {smallest largest : Bytes}
    (hselects : CompactionPolicy.Selects s.manifest.liveFiles plan smallest largest) :
    (s.tables fmt).planOutput .logical plan = s.planOutput fmt plan := by
  obtain ⟨inputs, -, hinputs, -, -, hholds, -, -⟩ := planOutput_spec htabled hselects
  have hinputs' : (plan.inputFiles.map (·.path)).mapM ((s.tables fmt).readTable .logical) =
      .ok inputs :=
    mapM_eq_ok_iff.2 (List.forall₂_map_left_iff.2 (hholds.imp fun _ _ h => h.tables.readTable))
  rw [planOutput, planOutput, hinputs, hinputs']

/-- A compaction whose merge is represented. -/
theorem prepareCompaction_tables (htabled : s.Tabled fmt) (policy : CompactionPolicy)
    (hrep : ∀ plan output, policy.pickCompaction s.manifest.liveFiles = .ok (some plan) →
      s.planOutput fmt plan = .ok output → output ≠ [] → fmt.Represents output) :
    (s.tables fmt).prepareCompaction .logical policy =
      (s.prepareCompaction fmt policy).map (Option.map (Prod.map (tables fmt) id)) := by
  cases hplan : policy.pickCompaction s.manifest.liveFiles with
  | error failure =>
    rw [prepareCompaction, prepareCompaction, hplan]
    show (policy.pickCompaction s.manifest.liveFiles >>= _) = _
    rw [hplan]
    rfl
  | ok plan =>
    cases plan with
    | none =>
      rw [prepareCompaction, prepareCompaction, hplan]
      show (policy.pickCompaction s.manifest.liveFiles >>= _) = _
      rw [hplan]
      rfl
    | some plan =>
      obtain ⟨smallest, largest, hselects⟩ := CompactionPolicy.pickCompaction_ok hplan
      obtain ⟨path, next, halloc, hfresh, -⟩ := s.allocateSstablePath_returns plan.outputLevel
      obtain ⟨-, output, -, -, houtput, -, -, -⟩ := planOutput_spec htabled hselects
      have hfile := prepareCompaction_eq htabled hplan hselects halloc hfresh houtput
      have halloc' := @allocateSstablePath_tables _ _ fmt s plan.outputLevel
      rw [halloc] at halloc'
      have htable := prepareCompaction_eq htabled.tables hplan hselects halloc'
        ((s.fileExists_tables path).trans hfresh)
        ((planOutput_tables htabled hselects).trans houtput)
      cases output with
      | nil =>
        rw [hfile.1 rfl, htable.1 rfl]
        rfl
      | cons first rest =>
        obtain ⟨file, hbuild, hstores⟩ := hrep plan _ hplan houtput (List.cons_ne_nil _ _)
        rw [hfile.2 first rest file rfl hbuild hstores,
          htable.2 first rest _ rfl rfl (TableFormat.logical_stores _)]
        have hpublish := tables_publish { s with nextSstableId := next } path hstores
        exact congrArg (fun store => Except.ok (some (store, _))) hpublish.symm

/-- A compaction writes the same tables in both stores, if the format represents its output. -/
theorem maybeCompact_tables (htabled : s.Tabled fmt) (policy : CompactionPolicy)
    (hrep : ∀ plan output, policy.pickCompaction s.manifest.liveFiles = .ok (some plan) →
      s.planOutput fmt plan = .ok output → output ≠ [] → fmt.Represents output) :
    (s.tables fmt).maybeCompact .logical policy = (s.maybeCompact fmt policy).map (tables fmt) := by
  unfold maybeCompact
  rw [prepareCompaction_tables htabled policy hrep]
  rcases s.prepareCompaction fmt policy with failure | _ | ⟨store, edit⟩
  · rfl
  · rfl
  · exact commit_tables store edit

end Store

end Kronos
