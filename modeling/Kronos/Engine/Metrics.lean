import Kronos.Base.Traces
import Kronos.Engine.Idle

/-!
# What the metrics say

`flush_count_` and `compaction_count_` go up behind the commit of a job, in a step of their own, and
`getMetrics` reads them and the number of live files one after the other. The counters bound what
the job has done to the MANIFEST: a flush adds one file, and a compaction takes away as many as its
trigger asks for, and all of level 0, and adds one at most. So the compactions are paid for by the
flushes before them (`metricsAddUp`).
-/

namespace Kronos

open KronosEngine

/-! ## The counters -/

/-- A job that is counted. -/
inductive Job where
  | flush
  | compaction
  deriving DecidableEq, Repr

/-- The job that the worker has committed between two points. -/
def WorkerPc.committed : WorkerPc → WorkerPc → Option Job
  | commitFlush .., clear .. => some .flush
  | commitCompaction .., pop => some .compaction
  | _, _ => none

/-- A process with its counters, and the job that the worker is about to count. -/
structure Metered (F ι : Type) where
  system : System F ι
  flushCount : ℕ
  compactionCount : ℕ
  counting : Option Job

/-- A step of the worker. -/
def ProcessLabel.MovesWorker {F ι : Type} : ProcessLabel F ι → Prop
  | .workerAcquire | .worker _ => True
  | _ => False

/-- What a step is: one of the process, or the worker counts a job. -/
inductive MeteredLabel (F ι : Type) where
  | process (label : ProcessLabel F ι)
  | count

/-- The steps of a process with its counters. The worker counts a job before it goes on. -/
inductive MeteredStep {F ι : Type} (M : Lts (System F ι) (ProcessLabel F ι)) (m : Metered F ι) :
    MeteredLabel F ι → Metered F ι → Prop where
  | process (label : ProcessLabel F ι) (s : System F ι) : M.step m.system label s →
    (label.MovesWorker → m.counting = none) →
    MeteredStep M m (.process label)
      { m with system := s, counting := m.counting.or (m.system.worker.committed s.worker) }
  | countFlush : m.counting = some .flush →
    MeteredStep M m .count { m with flushCount := m.flushCount + 1, counting := none }
  | countCompaction : m.counting = some .compaction →
    MeteredStep M m .count { m with compactionCount := m.compactionCount + 1, counting := none }

/-- A process with its counters, which start from zero. -/
def metered {F ι : Type} (M : Lts (System F ι) (ProcessLabel F ι)) :
    Lts (Metered F ι) (MeteredLabel F ι) where
  initial m := ∃ s, M.initial s ∧ m = ⟨s, 0, 0, none⟩
  step := MeteredStep M

/-- `EngineMetrics`, without the time that compactions took. -/
structure EngineMetrics where
  flushCount : ℕ
  sstableCount : ℕ
  compactionCount : ℕ
  deriving DecidableEq, Repr

namespace Metered

variable {F ι : Type}

/-- The live files. -/
def liveFiles (m : Metered F ι) : List SstableMetadata := m.system.engine.store.manifest.liveFiles

/-- `getMetrics`, over the states in which it reads the two counters and, last, the MANIFEST. -/
def getMetrics (flushes compactions m : Metered F ι) : EngineMetrics :=
  ⟨flushes.flushCount, m.liveFiles.length, compactions.compactionCount⟩

/-- What is seen of a step beside the counters: the job that the worker commits in it. -/
def commits (m : Metered F ι) (_ : MeteredLabel F ι) (m' : Metered F ι) : Option Job :=
  m.system.worker.committed m'.system.worker

end Metered

/-! ## What a job does to the live files -/

/-- How many live files are on level 0. -/
def level0Count (files : List SstableMetadata) : ℕ := files.countP (·.level = 0)

/-- What a job that is committed has done to the live files: nothing else changes them. -/
def Job.Changes (policy : CompactionPolicy) (before after : List SstableMetadata) :
    Option Job → Prop
  | none => after = before
  | some flush => after.length ≤ before.length + 1 ∧ level0Count after ≤ level0Count before + 1
  | some compaction => after.length + policy.l0FileTrigger ≤ before.length + 1 ∧
    level0Count after = 0 ∧ policy.l0FileTrigger ≤ level0Count before

namespace Store

variable {F : Type} {s : Store F} {edit : ManifestEdit}

/-- The live files behind an edit, counted. -/
theorem Edits.length_liveAfter (h : s.Edits edit) (hnamed : s.Named) :
    (s.liveAfter edit).length + edit.removeFiles.length =
      s.manifest.liveFiles.length + edit.addFiles.length := by
  -- What the edit removes are the paths of the live files that it does not keep.
  have hremoved : ((s.manifest.liveFiles.filter fun f => f.path ∈ edit.removeFiles).map
      (·.path)).Perm edit.removeFiles := by
    refine (List.perm_ext_iff_of_nodup ?_ h.remove_nodup).2 fun path => ?_
    · exact hnamed.distinct.sublist ((List.filter_sublist).map _)
    · rw [List.mem_map]
      constructor
      · rintro ⟨f, hf, rfl⟩
        exact of_decide_eq_true (List.mem_filter.1 hf).2
      · intro hpath
        obtain ⟨f, hf, rfl⟩ := h.remove_live path hpath
        exact ⟨f, List.mem_filter.2 ⟨hf, decide_eq_true hpath⟩, rfl⟩
  have hlength := hremoved.length_eq
  rw [List.length_map] at hlength
  have hsplit := List.length_eq_length_filter_add (l := s.manifest.liveFiles)
    fun f => decide (f.path ∈ edit.removeFiles)
  have hkept : (s.manifest.liveFiles.filter fun f => decide (f.path ∉ edit.removeFiles)).length =
      (s.manifest.liveFiles.filter fun f => !decide (f.path ∈ edit.removeFiles)).length := by
    simp
  rw [liveAfter, sortMetadata, List.length_insertionSort, List.length_append, hkept]
  omega

/-- Level 0 grows by one file at most. -/
theorem Edits.level0Count_le (h : s.Edits edit) :
    level0Count (s.liveAfter edit) ≤ level0Count s.manifest.liveFiles + 1 := by
  have hadded : level0Count edit.addFiles ≤ 1 := by
    rcases h.add with hadd | ⟨f, hadd, -⟩
    · rw [hadd]
      exact Nat.zero_le 1
    · rw [hadd]
      exact List.countP_le_length
  have hkept := (List.filter_sublist (p := fun f => decide (f.path ∉ edit.removeFiles))
    (l := s.manifest.liveFiles)).countP_le (p := (·.level = 0))
  calc level0Count (s.liveAfter edit)
      = level0Count ((s.manifest.liveFiles.filter fun f => f.path ∉ edit.removeFiles) ++
          edit.addFiles) := (List.perm_insertionSort _ _).countP_eq _
    _ = level0Count (s.manifest.liveFiles.filter fun f => f.path ∉ edit.removeFiles) +
          level0Count edit.addFiles := List.countP_append
    _ ≤ level0Count s.manifest.liveFiles + 1 := Nat.add_le_add hkept hadded

/-- The commit of a flush. -/
theorem Edits.changes_flush (h : s.Edits edit) (hnamed : s.Named) (policy : CompactionPolicy) :
    Job.Changes policy s.manifest.liveFiles (s.liveAfter edit) (some .flush) := by
  have hlength := h.length_liveAfter hnamed
  refine ⟨?_, h.level0Count_le⟩
  rcases h.add with hadd | ⟨f, hadd, -⟩ <;> rw [hadd] at hlength
  · rw [List.length_nil] at hlength
    omega
  · rw [List.length_singleton] at hlength
    omega

/-- The commit of a compaction. -/
theorem Edits.changes_compaction (h : s.Edits edit) (hnamed : s.Named) {policy : CompactionPolicy}
    (hlowers : Lowers policy s.manifest.liveFiles edit) :
    Job.Changes policy s.manifest.liveFiles (s.liveAfter edit) (some .compaction) := by
  have hlength := h.length_liveAfter hnamed
  have hremoved := hlowers.removed
  have hadded := hlowers.added
  refine ⟨by omega, List.countP_eq_zero.2 fun f hf => ?_, hlowers.due⟩
  simpa using hlowers.level_ne_zero f hf

end Store

section Changes

variable {F R ι : Type} {H : Hashing} {fmt : TableFormat F R} {s s' : System F ι}

/-- The edit of a compaction that the worker is about to commit lowers what is live. -/
def System.Planned (s : System F ι) : Prop :=
  ∀ edit locked, s.worker = .commitCompaction edit locked →
    Store.Lowers s.engine.compactionPolicy s.engine.store.manifest.liveFiles edit

/-- A worker that stays where it is has committed nothing. -/
theorem WorkerPc.committed_self (pc : WorkerPc) : pc.committed pc = none := by
  cases pc <;> rfl

/-- Nor has one that acquires a mutex. -/
theorem WorkerPc.committed_of_acquires {pc pc' : WorkerPc} {m : Mutex}
    (h : pc.acquires = some (m, pc')) : pc.committed pc' = none := by
  unfold acquires at h
  split at h <;> cases h <;> rfl

/-- A worker that is about to commit a compaction has just acquired the mutex for it. -/
theorem WorkerPc.of_acquires_commitCompaction {pc : WorkerPc} {m : Mutex} {edit : ManifestEdit}
    {locked : Bool} (h : pc.acquires = some (m, .commitCompaction edit locked)) :
    pc = .commitCompaction edit false := by
  unfold acquires at h
  split at h <;> cases h
  rfl

/-- What a section of the worker changes, and that it plans the next compaction. -/
theorem System.Invariant.changes_work (hs : s.Invariant H) (hplanned : s.Planned)
    {fault : Option (WorkerFault F)} {e : KronosEngine F} {pc : WorkerPc}
    (hstep : WorkerStep H fmt s.engine fault s.worker e pc) :
    Job.Changes s.engine.compactionPolicy s.engine.store.manifest.liveFiles
        e.store.manifest.liveFiles (s.worker.committed pc) ∧
      e.compactionPolicy = s.engine.compactionPolicy ∧
      System.Planned { s with engine := e, worker := pc } := by
  obtain ⟨g, hd, -⟩ := hs.data
  unfold System.Planned at hplanned
  generalize hworker : s.worker = worker at hstep hd hplanned
  cases hstep with
  | flush task store edit hprepare =>
    obtain ⟨hmanifest, -⟩ := Store.prepareFlush_ok hprepare hd.live
    exact ⟨congrArg Manifest.liveFiles hmanifest, rfl, nofun⟩
  | flushThrows task store failure _ hmanifest _ =>
    exact ⟨congrArg Manifest.liveFiles hmanifest, rfl, nofun⟩
  | flushFails task store failure hmanifest _ =>
    exact ⟨congrArg Manifest.liveFiles hmanifest, rfl, nofun⟩
  | commitFlush task edit fault =>
    have hcases := s.engine.commitEdit_cases edit fault
    generalize s.engine.commitEdit edit fault = result at hcases ⊢
    cases hcases with
    | committed store hcommit =>
      obtain ⟨hedits, -, -⟩ := hd.worker
      obtain ⟨checkpoint, rfl, -⟩ := hedits.commit_ok hd.live hcommit
      exact ⟨hedits.changes_flush hd.live _, rfl, nofun⟩
    | _ => exact ⟨rfl, rfl, nofun⟩
  | clear task flushedThrough =>
    have hclear := s.engine.onlyMemtables_clear task
    refine ⟨?_, ?_, ?_⟩
    · rw [hclear.tables.1]
      cases (s.engine.clearImmutable task).1 <;> rfl
    · unfold clearImmutable
      split_ifs <;> rfl
    · cases (s.engine.clearImmutable task).1 <;> exact nofun
  | reclaim flushedThrough fault =>
    cases (Wal.reclaimThrough H flushedThrough fault s.engine.log).1 <;> exact ⟨rfl, rfl, nofun⟩
  | checkSlot => split_ifs <;> exact ⟨rfl, rfl, nofun⟩
  -- The edit in hand lowers the files as planned.
  | compact liveFiles store edit hprepare =>
    obtain rfl : liveFiles = s.engine.store.manifest.liveFiles := hd.worker
    obtain ⟨store', hprepared, rfl⟩ := KronosEngine.prepareCompaction_ok hprepare
    refine ⟨rfl, rfl, fun edit' locked h => ?_⟩
    cases h
    have hlowers := Store.lowers_of_prepareCompaction hprepared
    exact hlowers
  | compactThrows liveFiles store failure _ hmanifest _ =>
    exact ⟨congrArg Manifest.liveFiles hmanifest, rfl, nofun⟩
  | compactFails liveFiles store failure hmanifest _ =>
    exact ⟨congrArg Manifest.liveFiles hmanifest, rfl, nofun⟩
  | commitCompaction edit fault =>
    have hcases := s.engine.commitEdit_cases edit fault
    generalize s.engine.commitEdit edit fault = result at hcases ⊢
    cases hcases with
    | committed store hcommit =>
      obtain ⟨hedits, -⟩ := hd.worker
      obtain ⟨checkpoint, rfl, -⟩ := hedits.commit_ok hd.live hcommit
      exact ⟨hedits.changes_compaction hd.live (hplanned edit true rfl), rfl, nofun⟩
    | _ => exact ⟨rfl, rfl, nofun⟩
  | record task failure =>
    unfold recordFailure
    split_ifs <;> exact ⟨rfl, rfl, nofun⟩
  | _ => exact ⟨rfl, rfl, nofun⟩

variable [DecidableEq ι]

/-- What a step changes, and that a compaction stays planned. -/
theorem System.Invariant.changes (hs : s.Invariant H) (hplanned : s.Planned)
    {label : ProcessLabel F ι} (hstep : ProcessStep H fmt s label s') :
    Job.Changes s.engine.compactionPolicy s.engine.store.manifest.liveFiles
        s'.engine.store.manifest.liveFiles (s.worker.committed s'.worker) ∧
      s'.engine.compactionPolicy = s.engine.compactionPolicy ∧ s'.Planned ∧
      (¬label.MovesWorker → s'.worker = s.worker) := by
  -- A step that leaves the engine and the worker commits nothing.
  have hstays : ∀ {s' : System F ι}, s'.engine = s.engine → s'.worker = s.worker →
      Job.Changes s.engine.compactionPolicy s.engine.store.manifest.liveFiles
          s'.engine.store.manifest.liveFiles (s.worker.committed s'.worker) ∧
        s'.engine.compactionPolicy = s.engine.compactionPolicy ∧ s'.Planned ∧
        (¬label.MovesWorker → s'.worker = s.worker) := by
    intro s' hengine hworker
    rw [hengine, hworker, WorkerPc.committed_self]
    refine ⟨rfl, rfl, fun edit locked h => ?_, fun _ => rfl⟩
    rw [hengine]
    exact hplanned edit locked (hworker ▸ h)
  cases hstep with
  | call i e h pc hcall =>
    obtain ⟨hstore, -⟩ := hcall.sameTables
    have hpolicy := hs.compactionPolicy_call hcall
    refine ⟨?_, hpolicy, fun edit locked hw => ?_, fun _ => rfl⟩
    · show Job.Changes _ _ e.store.manifest.liveFiles (s.worker.committed s.worker)
      rw [hstore, WorkerPc.committed_self]
      rfl
    · show Store.Lowers e.compactionPolicy e.store.manifest.liveFiles edit
      rw [hpolicy, hstore]
      exact hplanned edit locked hw
  | worker fault e pc hwork =>
    obtain ⟨hchanges, hpolicy, hnext⟩ := hs.changes_work hplanned hwork
    exact ⟨hchanges, hpolicy, hnext, fun hnot => absurd trivial hnot⟩
  -- The worker that acquires the mutex for its commit keeps its edit.
  | workerAcquire m pc hacquires _ =>
    refine ⟨?_, rfl, fun edit locked hw => ?_, fun hnot => absurd trivial hnot⟩
    · show Job.Changes _ _ s.engine.store.manifest.liveFiles (s.worker.committed pc)
      rw [WorkerPc.committed_of_acquires hacquires]
      rfl
    · have hpc : pc = .commitCompaction edit locked := hw
      rw [hpc] at hacquires
      exact hplanned edit false (WorkerPc.of_acquires_commitCompaction hacquires)
  | notifyCleared through hworker =>
    refine ⟨?_, rfl, nofun, fun hnot => absurd trivial hnot⟩
    rw [hworker]
    rfl
  | notifyFailed hworker =>
    refine ⟨?_, rfl, nofun, fun hnot => absurd trivial hnot⟩
    rw [hworker]
    rfl
  | _ => exact hstays rfl rfl

end Changes

/-! ## The account -/

/-- The compactions are paid for by the flushes, for the live files that there were before: one that
has turned `trigger` files of level 0 into one file at most has paid back all but one of them. -/
structure Account (policy : CompactionPolicy) (files₀ files : List SstableMetadata)
    (flushes compactions : ℕ) : Prop where
  tables : files.length + (policy.l0FileTrigger - 1) * compactions ≤ files₀.length + flushes
  level0 : level0Count files + policy.l0FileTrigger * compactions ≤ level0Count files₀ + flushes

/-- A step that commits a job, or none, keeps the account. -/
theorem Account.job {policy : CompactionPolicy} {files₀ before after : List SstableMetadata}
    {flushes compactions : ℕ} (h : Account policy files₀ before flushes compactions)
    {job : Option Job} (hchanges : Job.Changes policy before after job) :
    Account policy files₀ after (flushes + job.toList.count .flush)
      (compactions + job.toList.count .compaction) := by
  obtain ⟨htables, hlevel0⟩ := h
  cases job with
  | none =>
    obtain rfl : after = before := hchanges
    exact ⟨htables, hlevel0⟩
  | some job =>
    cases job with
    -- A flush adds one table, to level 0.
    | flush =>
      obtain ⟨hlength, hcount⟩ := hchanges
      refine ⟨?_, ?_⟩
      · show after.length + (policy.l0FileTrigger - 1) * compactions ≤ files₀.length + (flushes + 1)
        omega
      · show level0Count after + policy.l0FileTrigger * compactions ≤
          level0Count files₀ + (flushes + 1)
        omega
    -- A compaction takes at least the trigger's number of tables from level 0, and adds one at
    -- most.
    | compaction =>
      obtain ⟨hlength, hnone, hdue⟩ := hchanges
      have htrigger := policy.trigger_pos
      refine ⟨?_, ?_⟩
      · show after.length + (policy.l0FileTrigger - 1) * (compactions + 1) ≤ files₀.length + flushes
        rw [Nat.mul_add_one]
        omega
      · show level0Count after + policy.l0FileTrigger * (compactions + 1) ≤
          level0Count files₀ + flushes
        rw [Nat.mul_add_one]
        omega

/-- Fewer compactions are paid for as well. -/
theorem Account.mono {policy : CompactionPolicy} {files₀ files : List SstableMetadata}
    {flushes compactions compactions' : ℕ} (h : Account policy files₀ files flushes compactions)
    (hle : compactions' ≤ compactions) : Account policy files₀ files flushes compactions' :=
  ⟨(Nat.add_le_add_left (Nat.mul_le_mul_left _ hle) _).trans h.tables,
    (Nat.add_le_add_left (Nat.mul_le_mul_left _ hle) _).trans h.level0⟩

/-! ## Runs -/

/-- What holds in a process that began in the state `s₀` and has committed the jobs `jobs` since:
each of them is counted, or about to be, and they keep the account. -/
structure Metered.Accounts {F ι : Type} (s₀ : System F ι) (jobs : List Job) (m : Metered F ι) :
    Prop where
  policy : m.system.engine.compactionPolicy = s₀.engine.compactionPolicy
  planned : m.system.Planned
  flushes : m.flushCount + m.counting.toList.count .flush = jobs.count .flush
  compactions : m.compactionCount + m.counting.toList.count .compaction = jobs.count .compaction
  account : Account s₀.engine.compactionPolicy s₀.engine.store.manifest.liveFiles m.liveFiles
    (jobs.count .flush) (jobs.count .compaction)

section Runs

variable {F R ι : Type} [DecidableEq ι] {H : Hashing} {fmt : TableFormat F R} {m m' : Metered F ι}
  {s₀ : System F ι} {jobs : List Job}

/-- A step of the process keeps the account. -/
theorem Metered.Accounts.process (h : m.Accounts s₀ jobs) (hs : m.system.Invariant H)
    {label : ProcessLabel F ι} {s : System F ι} (hstep : ProcessStep H fmt m.system label s)
    (hfree : label.MovesWorker → m.counting = none) :
    Metered.Accounts s₀ (jobs ++ (m.system.worker.committed s.worker).toList) { m with
      system := s, counting := m.counting.or (m.system.worker.committed s.worker) } := by
  obtain ⟨hchanges, hpolicy, hplanned, hstays⟩ := hs.changes h.planned hstep
  rw [h.policy] at hchanges
  have haccount := h.account.job hchanges
  rw [← List.count_append, ← List.count_append] at haccount
  -- A job that the step commits is the next to be counted.
  have hcounted : ∀ job n, n + m.counting.toList.count job = jobs.count job →
      n + (m.counting.or (m.system.worker.committed s.worker)).toList.count job =
        (jobs ++ (m.system.worker.committed s.worker).toList).count job := by
    intro job n hn
    rw [List.count_append, ← hn]
    cases hcounting : m.counting with
    | none => rfl
    | some counted =>
      -- The worker stands where it committed the job that is about to be counted.
      have hstands : m.system.worker.committed s.worker = none := by
        rw [hstays, WorkerPc.committed_self]
        intro hmoves
        cases (hfree hmoves).symm.trans hcounting
      rw [hstands]
      rfl
  exact ⟨hpolicy.trans h.policy, hplanned, hcounted _ _ h.flushes, hcounted _ _ h.compactions,
    haccount⟩

/-- A step keeps the account. -/
theorem MeteredStep.accounts (h : m.Accounts s₀ jobs) (hs : m.system.Invariant H)
    {label : MeteredLabel F ι} (hstep : MeteredStep (logWorks H fmt) m label m') :
    m'.Accounts s₀ (jobs ++ (m.commits label m').toList) ∧ m'.system.Invariant H := by
  cases hstep with
  | process label s hprocess hfree =>
    exact ⟨h.process hs hprocess.1 hfree, hs.step hprocess.1 hprocess.2⟩
  | countFlush hcounting =>
    have hflushes := h.flushes
    have hcompactions := h.compactions
    rw [hcounting] at hflushes hcompactions
    unfold Metered.commits
    rw [WorkerPc.committed_self, Option.toList_none, List.append_nil]
    exact ⟨⟨h.policy, h.planned, hflushes, hcompactions, h.account⟩, hs⟩
  | countCompaction hcounting =>
    have hflushes := h.flushes
    have hcompactions := h.compactions
    rw [hcounting] at hflushes hcompactions
    unfold Metered.commits
    rw [WorkerPc.committed_self, Option.toList_none, List.append_nil]
    exact ⟨⟨h.policy, h.planned, hflushes, hcompactions, h.account⟩, hs⟩

/-- So does a run. -/
theorem Metered.Accounts.run (h : m.Accounts s₀ jobs) (hs : m.system.Invariant H) {jobs' : List Job}
    (hrun : (metered (logWorks H fmt)).Traced Metered.commits m jobs' m') :
    m'.Accounts s₀ (jobs ++ jobs') ∧ m'.system.Invariant H := by
  induction hrun with
  | nil =>
    rw [List.append_nil]
    exact ⟨h, hs⟩
  | snoc _ hstep ih =>
    rw [← List.append_assoc]
    exact hstep.accounts ih.1 ih.2

/-- **The metrics add up.** A call of `getMetrics` reads the counters and the number of live files
in three states of a run, between which anything may happen; `jobs₁`, `jobs₂` and `jobs₃` are the
jobs that the worker commits before the first, the second and the third. It reports the flushes and
the compactions that were committed when it read their counter, except for one that was not yet
counted. Every compaction that it reports has turned as many files as its trigger asks for into one
at most, so that, with the files that the process found, the flushes that were committed until it
returns bound the compactions, and the live files together with what the compactions have saved. -/
def MetricsAddUp (M : Lts (System F ι) (ProcessLabel F ι)) : Prop :=
  ∀ m₀ jobs₁ m₁ jobs₂ m₂ jobs₃ m₃, (metered M).initial m₀ →
    (metered M).Traced Metered.commits m₀ jobs₁ m₁ →
    (metered M).Traced Metered.commits m₁ jobs₂ m₂ →
    (metered M).Traced Metered.commits m₂ jobs₃ m₃ →
    let metrics := Metered.getMetrics m₁ m₂ m₃
    metrics.flushCount ≤ jobs₁.count .flush ∧ jobs₁.count .flush ≤ metrics.flushCount + 1 ∧
      metrics.compactionCount ≤ (jobs₁ ++ jobs₂).count .compaction ∧
      (jobs₁ ++ jobs₂).count .compaction ≤ metrics.compactionCount + 1 ∧
      Account m₀.system.engine.compactionPolicy m₀.liveFiles m₃.liveFiles
        ((jobs₁ ++ jobs₂ ++ jobs₃).count .flush) metrics.compactionCount ∧
      metrics.sstableCount = m₃.liveFiles.length

end Runs

/-- What is about to be counted is one job at most. -/
theorem count_toList_le (counting : Option Job) (job : Job) : counting.toList.count job ≤ 1 :=
  List.count_le_length.trans (by cases counting <;> simp)

/-- The metrics of an engine add up, if its log can be reclaimed. -/
theorem metricsAddUp {F R ι : Type} [DecidableEq ι] (H : Hashing) (fmt : TableFormat F R) :
    MetricsAddUp (logWorks H fmt : Lts (System F ι) (ProcessLabel F ι)) := by
  rintro _ jobs₁ m₁ jobs₂ m₂ jobs₃ m₃ ⟨s₀, hopened, rfl⟩ hrun₁ hrun₂ hrun₃
  have hplanned : s₀.Planned := by
    intro edit locked h
    cases h.symm.trans hopened.worker
  have hfirst : Metered.Accounts s₀ [] ⟨s₀, 0, 0, none⟩ := ⟨rfl, hplanned, rfl, rfl, le_rfl, le_rfl⟩
  obtain ⟨haccounts₁, hinv₁⟩ := hfirst.run (invariant_of_opened hopened) hrun₁
  obtain ⟨haccounts₂, hinv₂⟩ := haccounts₁.run hinv₁ hrun₂
  obtain ⟨haccounts₃, -⟩ := haccounts₂.run hinv₂ hrun₃
  rw [List.nil_append] at haccounts₁ haccounts₂ haccounts₃
  have hflushes := haccounts₁.flushes
  have hcompactions := haccounts₂.compactions
  have hpending₁ := count_toList_le m₁.counting .flush
  have hpending₂ := count_toList_le m₂.counting .compaction
  have hlater : m₂.compactionCount ≤ (jobs₁ ++ jobs₂ ++ jobs₃).count .compaction := by
    rw [List.count_append]
    omega
  show m₁.flushCount ≤ _ ∧ _ ≤ m₁.flushCount + 1 ∧ m₂.compactionCount ≤ _ ∧
    _ ≤ m₂.compactionCount + 1 ∧ _
  exact ⟨by omega, by omega, by omega, by omega, haccounts₃.account.mono hlater, rfl⟩

/-- Every run of a process is one with counters, in which each job is counted at once. -/
theorem exists_metered {F ι : Type} {M : Lts (System F ι) (ProcessLabel F ι)} {s₀ s : System F ι}
    {ls : List (ProcessLabel F ι)} (hrun : M.Run s₀ ls s) :
    ∃ jobs flushCount compactionCount,
      (metered M).Traced Metered.commits ⟨s₀, 0, 0, none⟩ jobs
        ⟨s, flushCount, compactionCount, none⟩ := by
  induction hrun with
  | nil => exact ⟨[], 0, 0, .nil⟩
  | @snoc ls s t label _ hstep ih =>
    obtain ⟨jobs, flushCount, compactionCount, htraced⟩ := ih
    have hnext := htraced.snoc (MeteredStep.process label t hstep fun _ => rfl)
    rw [Option.none_or] at hnext
    cases hcommitted : s.worker.committed t.worker with
    | none =>
      rw [hcommitted] at hnext
      exact ⟨_, _, _, hnext⟩
    | some job =>
      rw [hcommitted] at hnext
      cases job with
      | flush => exact ⟨_, _, _, hnext.snoc (.countFlush rfl)⟩
      | compaction => exact ⟨_, _, _, hnext.snoc (.countCompaction rfl)⟩

/-- Behind the flush of one write, the metrics add up. -/
theorem metricsAddUp_put : ∃ (s₀ s : System Bytes ℕ) (jobs : List Job)
    (flushCount compactionCount : ℕ),
      s.history.applied = [(Write.put [97] [1]).record 0] ∧ s.engine.activeMemtable = none ∧
      flushCount ≤ jobs.count .flush ∧ jobs.count .flush ≤ flushCount + 1 ∧
      Account s₀.engine.compactionPolicy s₀.engine.store.manifest.liveFiles
        s.engine.store.manifest.liveFiles (jobs.count .flush) compactionCount := by
  have hbuild := @Sstable.format_builds byteSum.crc32 [([97], ⟨[1], 0, .put⟩)]
    (List.cons_ne_nil _ _) (List.pairwise_singleton _ _) (by decide) (by simpa using by decide)
  obtain ⟨wal, active, store, through, -, -, hcommitted⟩ :=
    @oneCommitted_reachable _ _ vendoredSum (Sstable.format byteSum.crc32) 1048576 ⟨4, by decide⟩
      (.put [97] [1]) (by decide) (by decide) hbuild
  obtain ⟨s₀, ls, hopened, hrun⟩ := logWorks_of_faultless hcommitted
  obtain ⟨jobs, flushCount, compactionCount, htraced⟩ := exists_metered hrun
  obtain ⟨hle, hge, -, -, haccount, -⟩ := metricsAddUp _ _ _ jobs _ [] _ [] _ ⟨s₀, hopened, rfl⟩
    htraced .nil .nil
  rw [List.append_nil, List.append_nil] at haccount
  exact ⟨s₀, _, jobs, flushCount, compactionCount, rfl, rfl, hle, hge, haccount⟩

end Kronos
