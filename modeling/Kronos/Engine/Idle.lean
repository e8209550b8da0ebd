import Kronos.Engine.Alert
import Kronos.Engine.Contents

/-!
# A worker that waits owes nothing

The maintenance worker takes up a Memtable, flushes it, reclaims the log behind it, and compacts
when level 0 has reached its trigger. When it waits for the next one, it has nothing left to do: the
slot is free, the MANIFEST file is the one in memory, the log has the records that the MANIFEST does
not cover and no others, and level 0 is below its trigger (`System.CaughtUp`). Only an engine that
has flushed nothing since it was opened can have a log and a level 0 that the last process left.

The worker skips a compaction when another Memtable is in the slot. That one is queued then, and
the worker comes back behind its flush.
-/

namespace Kronos

open KronosEngine

/-! ## What a compaction leaves -/

/-- A policy that plans nothing finds level 0 below its trigger. -/
theorem CompactionPolicy.shouldCompact_of_none {policy : CompactionPolicy}
    {liveFiles : List SstableMetadata} (h : policy.pickCompaction liveFiles = .ok none) :
    policy.shouldCompact liveFiles = false := by
  unfold pickCompaction at h
  obtain ⟨l0Files, hl0, h⟩ := bind_eq_ok h
  obtain rfl := filesOfLevel_ok hl0
  split_ifs at h with hcount
  · rw [shouldCompact, decide_eq_false_iff_not, List.countP_eq_length_filter]
    exact not_le.2 hcount
  · cases hfiles : liveFiles.filter (·.level = 0) with
    | nil =>
      rw [hfiles] at h
      cases h
    | cons first rest =>
      rw [hfiles] at h
      obtain ⟨l1Files, -, h⟩ := bind_eq_ok h
      cases h

/-- A plan is made when level 0 has reached its trigger, and takes as many files as this asks
for. -/
theorem CompactionPolicy.trigger_le_of_plan {policy : CompactionPolicy}
    {liveFiles : List SstableMetadata} {plan : CompactionPlan}
    (h : policy.pickCompaction liveFiles = .ok (some plan)) :
    policy.l0FileTrigger ≤ liveFiles.countP (·.level = 0) ∧
      policy.l0FileTrigger ≤ plan.inputFiles.length := by
  unfold pickCompaction at h
  obtain ⟨l0Files, hl0, h⟩ := bind_eq_ok h
  obtain rfl := filesOfLevel_ok hl0
  split_ifs at h with hcount
  · cases h
  · refine ⟨by rw [List.countP_eq_length_filter]; omega, ?_⟩
    cases hfiles : liveFiles.filter (·.level = 0) with
    | nil =>
      rw [hfiles] at h
      cases h
    | cons first rest =>
      rw [hfiles] at h
      obtain ⟨l1Files, -, h⟩ := bind_eq_ok h
      cases h
      rw [← hfiles, sortMetadata, List.length_insertionSort, List.length_append]
      omega

namespace Store

variable {F R : Type} {fmt : TableFormat F R} {s s' : Store F} {policy : CompactionPolicy}

/-- The edit of a compaction, by levels: level 0 has reached its trigger, and the edit removes all
of it, as many files as the trigger asks for, and adds one file at most, on level 1. -/
structure Lowers (policy : CompactionPolicy) (liveFiles : List SstableMetadata)
    (edit : ManifestEdit) : Prop where
  due : policy.l0FileTrigger ≤ liveFiles.countP (·.level = 0)
  all : ∀ f ∈ liveFiles, f.level = 0 → f.path ∈ edit.removeFiles
  removed : policy.l0FileTrigger ≤ edit.removeFiles.length
  level : ∀ f ∈ edit.addFiles, f.level = 1
  added : edit.addFiles.length ≤ 1

/-- The metadata of a file are on the level that it is written to. -/
theorem level_of_metadataForSstable {level : ℕ} {path : SstablePath} {f : SstableMetadata}
    (h : s.metadataForSstable fmt level path = .ok f) : f.level = level := by
  unfold metadataForSstable at h
  obtain ⟨rs, -, h⟩ := bind_eq_ok h
  cases rs with
  | nil => cases h
  | cons first rest =>
    cases h
    rfl

/-- The edit that `maybeCompact` prepares is one. -/
theorem lowers_of_prepareCompaction {edit : ManifestEdit}
    (h : s.prepareCompaction fmt policy = .ok (some (s', edit))) :
    Lowers policy s.manifest.liveFiles edit := by
  unfold prepareCompaction at h
  obtain ⟨plan, hplan, h⟩ := bind_eq_ok h
  cases plan with
  | none => cases h
  | some plan =>
    obtain ⟨smallest, largest, hselects⟩ := CompactionPolicy.pickCompaction_ok hplan
    obtain ⟨⟨path, s₁⟩, -, h⟩ := bind_eq_ok h
    obtain ⟨⟨s₂, result⟩, hcompact, h⟩ := bind_eq_ok h
    obtain ⟨hinputs, _, _, -, -, houtput⟩ := compact_ok hcompact
    obtain ⟨addFiles, hadd, h⟩ := bind_eq_ok h
    cases h
    -- All of level 0 is in the inputs.
    have hall : ∀ f ∈ s.manifest.liveFiles, f.level = 0 → f.path ∈ result.inputFiles := by
      intro f hf hlevel
      rw [hinputs]
      exact List.mem_map_of_mem ((hselects.inputs f).2 ⟨hf, .inl hlevel⟩)
    obtain ⟨hdue, hremoved⟩ := CompactionPolicy.trigger_le_of_plan hplan
    rw [← List.length_map (·.path), ← hinputs] at hremoved
    rcases houtput with ⟨-, -, hnone⟩ | ⟨file, -, -, hone⟩
    · -- Nothing survived the merge, so that no file is added.
      rw [hnone] at hadd
      cases hadd
      exact ⟨hdue, hall, hremoved, nofun, Nat.zero_le 1⟩
    · -- The one output goes to level 1.
      rw [hone, List.mapM_cons] at hadd
      obtain ⟨f, hf, hadd⟩ := bind_eq_ok hadd
      cases hadd
      refine ⟨hdue, hall, hremoved, fun g hg => ?_, le_rfl⟩
      rw [List.mem_singleton.1 hg, ← hselects.outputLevel]
      exact level_of_metadataForSstable hf

/-- Behind such an edit, level 0 is empty. -/
theorem Lowers.level_ne_zero {edit : ManifestEdit} (h : Lowers policy s.manifest.liveFiles edit) :
    ∀ f ∈ s.liveAfter edit, f.level ≠ 0 := by
  intro f hf hlevel
  rcases List.mem_append.1 (Manifest.mem_sortMetadata.1 hf) with hf | hf
  · obtain ⟨hlive, hkept⟩ := List.mem_filter.1 hf
    exact of_decide_eq_true hkept (h.all f hlive hlevel)
  · rw [h.level f hf] at hlevel
    cases hlevel

end Store

/-- No file of level 0 is below every trigger. -/
theorem CompactionPolicy.shouldCompact_of_noLevel0 (policy : CompactionPolicy)
    {liveFiles : List SstableMetadata} (h : ∀ f ∈ liveFiles, f.level ≠ 0) :
    policy.shouldCompact liveFiles = false := by
  rw [shouldCompact, decide_eq_false_iff_not, List.countP_eq_zero.2]
  · exact not_le.2 policy.trigger_pos
  · intro f hf
    simpa using h f hf

/-! ## The log and the MANIFEST -/

/-- The log has the records that the MANIFEST does not cover, and no others. -/
def System.Trimmed {F ι : Type} (H : Hashing) (s : System F ι) : Prop :=
  s.engine.log.atPath = Wal.header ++
    Wal.encodeRecords H (newerThan s.engine.store.manifest.persistedThrough s.history.records)

section Trimmed

variable {F R ι : Type} {H : Hashing} {fmt : TableFormat F R} {s : System F ι}

/-- What a section of a call does to the log: nothing, or it appends a record that the MANIFEST does
not cover. -/
theorem System.Invariant.logs (hs : s.Invariant H) {i : ι} {e : KronosEngine F} {h : History ι}
    {pc : Pc} (hstep : CallStep H fmt i s.engine s.history (s.calls i) e h pc) :
    e.log = s.engine.log ∧ h.records = s.history.records ∨
      ∃ r, h.records = s.history.records ++ [r] ∧
        e.log.atPath = s.engine.log.atPath ++ Wal.encodeRecords H [r] ∧
        ¬s.engine.store.manifest.persistedThrough.any (r.sequence ≤ ·) := by
  obtain ⟨g, hd, hp⟩ := hs.data
  generalize hcall : s.calls i = pc₀ at hstep
  cases hstep with
  -- The append is the only section that writes to the log.
  | append w =>
    have hheld : Mutex.write ∈ (s.calls i).held := hcall ▸ .head _
    have hpending := hs.nothing_pending hp hheld (hcall ▸ rfl)
    rcases hd.append hpending i w with ⟨failure, hrun⟩ | ⟨sequence, wal, hrun, hd'⟩
    · rw [hrun]
      exact .inl ⟨rfl, rfl⟩
    · rw [hrun]
      refine .inr ⟨w.record sequence, List.map_append, ?_, ?_⟩
      · have hlogged : Generations.logged { g with pending := [w.record sequence] } =
            g.logged ++ [w.record sequence] := by
          simp [Generations.logged, hpending]
        rw [hd'.atPath_eq, hlogged, Wal.encodeRecords_append, ← List.append_assoc, ← hd.atPath_eq]
      · -- The checkpoint covers the records that it covered before.
        have hsame : coveredBy s.engine.store.manifest.persistedThrough
            (s.history.records ++ [w.record sequence]) =
              coveredBy s.engine.store.manifest.persistedThrough s.history.records := by
          have hrecords : (s.history.append i w (.ok sequence)).records =
              s.history.records ++ [w.record sequence] := List.map_append
          rw [← hrecords]
          exact hd'.coveredBy_live.trans hd.coveredBy_live.symm
        rw [coveredBy, List.filter_append] at hsame
        exact List.filter_eq_nil_iff.1 (List.append_right_eq_self.1 hsame) _ (.head _)
  | prepare w woken =>
    have hprepares := hs.prepares woken w
    generalize s.engine.prepareForWriteLocked woken w = result at hprepares
    cases hprepares <;> exact .inl ⟨rfl, rfl⟩
  | insert w sequence =>
    obtain ⟨active, hinsert⟩ := hs.inserts hcall
    rw [hinsert]
    exact .inl ⟨rfl, rfl⟩
  | drain =>
    have hschedules := hs.schedules hcall
    generalize s.engine.scheduleFinalMemtable = result at hschedules
    cases hschedules <;> exact .inl ⟨rfl, rfl⟩
  | _ => exact .inl ⟨rfl, rfl⟩

/-- A section of a call leaves the log trimmed. -/
theorem System.Invariant.trimmed_call (hs : s.Invariant H) {i : ι} {e : KronosEngine F}
    {h : History ι} {pc : Pc} (hstep : CallStep H fmt i s.engine s.history (s.calls i) e h pc)
    (htrimmed : s.Trimmed H) (calls : ι → Pc) :
    System.Trimmed H ⟨e, s.worker, calls, h⟩ := by
  unfold System.Trimmed at htrimmed ⊢
  rw [hstep.sameTables.1]
  rcases hs.logs hstep with ⟨hlog, hrecords⟩ | ⟨r, hrecords, hlog, hnewer⟩
  · rw [hlog, hrecords]
    exact htrimmed
  · have hkept : newerThan s.engine.store.manifest.persistedThrough [r] = [r] := by
      refine List.filter_eq_self.2 fun r' hr' => ?_
      rw [List.mem_singleton.1 hr']
      simpa using hnewer
    have hsplit : newerThan s.engine.store.manifest.persistedThrough (s.history.records ++ [r]) =
        newerThan s.engine.store.manifest.persistedThrough s.history.records ++ [r] := by
      rw [newerThan, List.filter_append, ← newerThan, ← newerThan, hkept]
    rw [hlog, hrecords, hsplit, htrimmed, Wal.encodeRecords_append, List.append_assoc]

/-- A log without records that are released is trimmed. -/
theorem Data.trimmed {g : Generations} {e : KronosEngine F} {h : History ι} {worker : WorkerPc}
    (hd : Data H g e h worker) (hclearing : worker.clearing = false) (hflushed : g.flushed = [])
    (calls : ι → Pc) : System.Trimmed H ⟨e, worker, calls, h⟩ := by
  have hrecords : g.records = [] ++ g.old ++ (g.sealed ++ g.recent ++ g.pending) := by
    simp [Generations.records, Generations.applied]
  have hlogged : g.logged = g.sealed ++ g.recent ++ g.pending := by
    simp [Generations.logged, hflushed]
  have hcheckpoint : e.store.manifest.persistedThrough = lastSequence ([] ++ g.old) := by
    rw [hd.checkpoint, hclearing]
    rfl
  have hnewer := newerThan_append (hrecords ▸ hd.history)
  show e.log.atPath = Wal.header ++ Wal.encodeRecords H
    (newerThan e.store.manifest.persistedThrough h.records)
  rw [hd.atPath_eq, hlogged, hcheckpoint, hd.records, hrecords]
  exact congrArg _ (congrArg _ hnewer.symm)

end Trimmed

/-! ## What the worker has left to do -/

/-- The worker stands before the commit of a flush. -/
def WorkerPc.flushing : WorkerPc → Bool
  | pop | flush _ | commitFlush .. => true
  | _ => false

/-- The worker stands behind the reclamation of the log, in `maybeCompact`. -/
def WorkerPc.compacting : WorkerPc → Bool
  | checkSlot _ | copyLive _ | compact _ | commitCompaction .. => true
  | _ => false

/-- What the worker has done, in a process that found the MANIFEST `m` when it was opened. -/
structure System.Tidy {F ι : Type} (H : Hashing) (m : Manifest) (s : System F ι) : Prop where
  /-- The MANIFEST file is the one in memory. -/
  durable : s.worker.healthy = true → s.engine.durable = s.engine.store.manifest
  /-- Behind the reclamation of a flush, the log is trimmed. -/
  reclaimed : s.worker.compacting = true → s.Trimmed H
  /-- It stays so until the next flush is committed. -/
  log : s.worker.flushing = true → s.engine.store.manifest = m ∨ s.Trimmed H
  /-- The worker waits with level 0 below its trigger, or behind it a Memtable is queued. -/
  levels : s.worker = .pop → s.engine.flushQueue = [] → s.engine.store.manifest = m ∨
    s.engine.compactionPolicy.shouldCompact s.engine.store.manifest.liveFiles = false
  /-- A compaction empties level 0. -/
  compacts : ∀ edit locked, s.worker = .commitCompaction edit locked →
    ∀ f ∈ s.engine.store.liveAfter edit, f.level ≠ 0

section Tidy

variable {F R ι : Type} {H : Hashing} {fmt : TableFormat F R} {s s' : System F ι} {m : Manifest}

/-- The settings of an engine stay. -/
theorem System.Invariant.compactionPolicy_call (hs : s.Invariant H) {i : ι} {e : KronosEngine F}
    {h : History ι} {pc : Pc} (hstep : CallStep H fmt i s.engine s.history (s.calls i) e h pc) :
    e.compactionPolicy = s.engine.compactionPolicy := by
  generalize hcall : s.calls i = pc₀ at hstep
  cases hstep with
  | prepare w woken =>
    have hprepares := hs.prepares woken w
    generalize s.engine.prepareForWriteLocked woken w = result at hprepares
    cases hprepares <;> rfl
  | insert w sequence =>
    obtain ⟨active, hinsert⟩ := hs.inserts hcall
    rw [hinsert]
  | drain =>
    have hschedules := hs.schedules hcall
    generalize s.engine.scheduleFinalMemtable = result at hschedules
    cases hschedules <;> rfl
  | _ => rfl

/-- A section of a call. -/
theorem System.Tidy.call [DecidableEq ι] (ht : s.Tidy H m) (hs : s.Invariant H) {i : ι}
    {e : KronosEngine F} {h : History ι} {pc : Pc}
    (hstep : CallStep H fmt i s.engine s.history (s.calls i) e h pc) :
    System.Tidy H m { s.goto i pc with engine := e, history := h } := by
  obtain ⟨hstore, hdurable⟩ := hstep.sameTables
  have hqueue : e.flushQueue = [] → s.engine.flushQueue = [] := by
    intro hempty
    rcases hstep.hands (hs.stages.openFor i) with ⟨-, hsame⟩ | ⟨-, -, task, -, hqueued⟩
    · exact hsame.symm.trans hempty
    · rw [hqueued] at hempty
      simp at hempty
  refine ⟨fun hhealthy => ?_, fun hcompacting => ?_, fun hflushing => ?_, fun hpop hempty => ?_,
    fun edit locked hw => ?_⟩
  · exact hdurable.trans ((ht.durable hhealthy).trans (congrArg Store.manifest hstore.symm))
  · exact hs.trimmed_call hstep (ht.reclaimed hcompacting) _
  · refine (ht.log hflushing).imp (fun hsame => ?_) fun htrimmed => ?_
    · exact (congrArg Store.manifest hstore).trans hsame
    · exact hs.trimmed_call hstep htrimmed _
  · show e.store.manifest = m ∨ e.compactionPolicy.shouldCompact e.store.manifest.liveFiles = false
    rw [hstore, hs.compactionPolicy_call hstep]
    exact ht.levels hpop (hqueue hempty)
  · show ∀ f ∈ e.store.liveAfter edit, f.level ≠ 0
    rw [hstore]
    exact ht.compacts edit locked hw

/-- A section of the worker. -/
theorem System.Tidy.work (ht : s.Tidy H m) (hs : s.Invariant H) {fault : Option (WorkerFault F)}
    {e : KronosEngine F} {pc : WorkerPc}
    (hstep : WorkerStep H fmt s.engine fault s.worker e pc)
    (hworks : ProcessLabel.LogWorks (ι := ι) (.worker fault)) :
    System.Tidy H m { s with engine := e, worker := pc } := by
  obtain ⟨g, hd, -⟩ := hs.data
  have hnoError := hs.stages.noError
  -- A worker that has failed owes nothing, and one with a task has not come to the others.
  have hfails : ∀ {e : KronosEngine F} {task : Option SharedMemtable} {failure : Failure},
      System.Tidy H m { s with engine := e, worker := .failed task failure false } :=
    fun {_ _ _} => ⟨nofun, nofun, nofun, nofun, nofun⟩
  generalize hworker : s.worker = worker at hstep hd hnoError
  have hdurable := ht.durable
  have hreclaimed := ht.reclaimed
  have hlog := ht.log
  have hcompacts := ht.compacts
  rw [hworker] at hdurable hreclaimed hlog hcompacts
  cases hstep with
  | pop task rest _ => exact ⟨fun _ => hdurable rfl, nofun, fun _ => hlog rfl, nofun, nofun⟩
  | drained _ _ => exact ⟨nofun, nofun, nofun, nofun, nofun⟩
  -- The table is written, and the MANIFEST is as before.
  | flush task store edit hprepare =>
    obtain ⟨hmanifest, -⟩ := Store.prepareFlush_ok hprepare hd.live
    refine ⟨fun _ => (hdurable rfl).trans hmanifest.symm, nofun, fun _ => ?_, nofun, nofun⟩
    refine (hlog rfl).imp hmanifest.trans fun htrimmed => ?_
    show s.engine.log.atPath =
      _ ++ Wal.encodeRecords H (newerThan store.manifest.persistedThrough _)
    rw [hmanifest]
    exact htrimmed
  | commitFlush task edit fault =>
    have hcases := s.engine.commitEdit_cases edit fault
    generalize s.engine.commitEdit edit fault = result at hcases ⊢
    cases hcases with
    | committed store _ => exact ⟨fun _ => rfl, nofun, nofun, nofun, nofun⟩
    | _ => exact hfails
  -- From the release of the slot on, the log is to be reclaimed.
  | clear task flushedThrough =>
    obtain ⟨hclear, -⟩ := hd.clear (hnoError rfl nofun)
    rw [hclear]
    exact ⟨fun _ => hdurable rfl, nofun, nofun, nofun, nofun⟩
  -- Behind the reclamation the log holds what the checkpoint does not cover.
  | reclaim flushedThrough fault =>
    cases fault with
    | some fault => exact hworks.elim
    | none =>
      obtain ⟨log, hreclaim, hd'⟩ := hd.reclaim
      rw [hreclaim]
      exact ⟨fun _ => hdurable rfl, fun _ => hd'.trimmed rfl rfl s.calls, nofun, nofun, nofun⟩
  | checkSlot =>
    cases hslot : s.engine.immutableMemtable with
    | none => exact ⟨fun _ => hdurable rfl, fun _ => hreclaimed rfl, nofun, nofun, nofun⟩
    | some task =>
      refine ⟨fun _ => hdurable rfl, nofun, fun _ => .inr (hreclaimed rfl), fun _ hempty => ?_,
        nofun⟩
      -- The Memtable in the slot is queued.
      have htasks := hd.tasks (hnoError rfl nofun)
      rw [hslot, show s.engine.flushQueue = [] from hempty] at htasks
      cases htasks
  | copyLive => exact ⟨fun _ => hdurable rfl, fun _ => hreclaimed rfl, nofun, nofun, nofun⟩
  -- There was nothing to compact, so that the policy has no plan.
  | compactNothing liveFiles hprepare =>
    obtain rfl : liveFiles = s.engine.store.manifest.liveFiles := hd.worker
    refine ⟨fun _ => hdurable rfl, nofun, fun _ => .inr (hreclaimed rfl), fun _ _ => .inr ?_, nofun⟩
    unfold KronosEngine.prepareCompaction at hprepare
    obtain ⟨prepared, hprepared, hnothing⟩ := bind_eq_ok hprepare
    rcases prepared with _ | ⟨store', edit'⟩
    · exact CompactionPolicy.shouldCompact_of_none (Store.pickCompaction_of_nothing hprepared)
    · cases hnothing
  -- The edit takes all of level 0 away.
  | compact liveFiles store edit hprepare =>
    obtain rfl : liveFiles = s.engine.store.manifest.liveFiles := hd.worker
    obtain ⟨store', hprepared, rfl⟩ := KronosEngine.prepareCompaction_ok hprepare
    refine ⟨fun _ => hdurable rfl, fun _ => hreclaimed rfl, nofun, nofun, fun edit' locked h => ?_⟩
    cases h
    exact (Store.lowers_of_prepareCompaction hprepared).level_ne_zero
  | commitCompaction edit fault =>
    have hcases := s.engine.commitEdit_cases edit fault
    generalize s.engine.commitEdit edit fault = result at hcases ⊢
    cases hcases with
    | committed store hcommit =>
      obtain ⟨hedits, hthrough⟩ := hd.worker
      obtain ⟨checkpoint, rfl, hadvance⟩ := hedits.commit_ok hd.live hcommit
      rw [hthrough] at hadvance
      cases hadvance
      refine ⟨fun _ => rfl, nofun, fun _ => .inr (hreclaimed rfl), fun _ _ => .inr ?_, nofun⟩
      exact CompactionPolicy.shouldCompact_of_noLevel0 _ (hcompacts edit true rfl)
    | _ => exact hfails
  | record task failure => exact ⟨nofun, nofun, nofun, nofun, nofun⟩
  | closeQueue => exact ⟨nofun, nofun, nofun, nofun, nofun⟩
  | _ => exact hfails

/-- A state that differs from a tidy one in its calls only, and in a worker that has moved between
two sections. -/
theorem System.Tidy.congr (ht : s.Tidy H m) (hengine : s'.engine = s.engine)
    (hhistory : s'.history = s.history) (hhealthy : s'.worker.healthy = s.worker.healthy)
    (hcompacting : s'.worker.compacting = s.worker.compacting)
    (hflushing : s'.worker.flushing = s.worker.flushing) (hpop : s'.worker = .pop → s.worker = .pop)
    (hcommits : ∀ edit locked, s'.worker = .commitCompaction edit locked →
      ∃ locked, s.worker = .commitCompaction edit locked) : s'.Tidy H m := by
  have htrimmed : s.Trimmed H → s'.Trimmed H := by
    intro h
    unfold System.Trimmed at h ⊢
    rw [hengine, hhistory]
    exact h
  refine ⟨fun h => ?_, fun h => htrimmed (ht.reclaimed (hcompacting ▸ h)), fun h => ?_,
    fun h hempty => ?_, fun edit locked h => ?_⟩
  · rw [hengine]
    exact ht.durable (hhealthy ▸ h)
  · rw [hengine]
    exact (ht.log (hflushing ▸ h)).imp_right htrimmed
  · rw [hengine] at hempty ⊢
    exact ht.levels (hpop h) hempty
  · obtain ⟨locked, hcommit⟩ := hcommits edit locked h
    rw [hengine]
    exact ht.compacts edit locked hcommit

variable [DecidableEq ι]

/-- A step of a process keeps it tidy. -/
theorem System.Tidy.step (ht : s.Tidy H m) (hs : s.Invariant H) {label : ProcessLabel F ι}
    (hstep : ProcessStep H fmt s label s') (hworks : label.LogWorks) : s'.Tidy H m := by
  have hcalls : ∀ {s' : System F ι}, s'.engine = s.engine → s'.history = s.history →
      s'.worker = s.worker → s'.Tidy H m := by
    intro s' hengine hhistory hworker
    exact ht.congr hengine hhistory (by rw [hworker]) (by rw [hworker]) (by rw [hworker])
      (fun h => hworker ▸ h) fun edit locked h => ⟨locked, hworker ▸ h⟩
  cases hstep with
  | call i e h pc hcall => exact ht.call hs hcall
  | worker fault e pc hwork => exact ht.work hs hwork hworks
  | workerAcquire m pc hacquires _ =>
    generalize hworker : s.worker = worker at hacquires
    unfold WorkerPc.acquires at hacquires
    split at hacquires <;> cases hacquires <;>
      refine ht.congr rfl rfl (hworker ▸ rfl) (hworker ▸ rfl) (hworker ▸ rfl) nofun ?_
    case h_6 =>
      rintro edit locked ⟨⟩
      exact ⟨false, hworker⟩
    all_goals exact nofun
  | notifyCleared through hworker =>
    refine ht.congr rfl rfl (hworker ▸ rfl) (hworker ▸ rfl) (hworker ▸ rfl) nofun nofun
  | notifyFailed hworker =>
    refine ht.congr rfl rfl (hworker ▸ rfl) (hworker ▸ rfl) (hworker ▸ rfl) nofun nofun
  | _ => exact hcalls rfl rfl rfl

end Tidy

/-! ## Processes -/

/-- The worker has caught up: the slot is free, the MANIFEST file is the one in memory, the log has
what the MANIFEST does not cover, and level 0 is below its trigger. -/
structure System.CaughtUp {F ι : Type} (H : Hashing) (s : System F ι) : Prop where
  slot : s.engine.immutableMemtable = none
  durable : s.engine.durable = s.engine.store.manifest
  log : s.Trimmed H
  levels : s.engine.compactionPolicy.shouldCompact s.engine.store.manifest.liveFiles = false

/-- **A worker that waits owes nothing.** When it finds no Memtable in the queue, it has caught up,
unless it has committed nothing since the engine was opened. -/
def IdleOwesNothing {F ι : Type} (H : Hashing) (M : Lts (System F ι) (ProcessLabel F ι)) : Prop :=
  ∀ s₀ ls s, M.initial s₀ → M.Run s₀ ls s → s.worker = .pop → s.engine.flushQueue = [] →
    s.CaughtUp H ∨ s.engine.immutableMemtable = none ∧
      s.engine.store.manifest = s₀.engine.store.manifest ∧ s.engine.durable = s₀.engine.durable

/-- A worker that waits owes nothing, in every process whose log can be reclaimed. -/
theorem idleOwesNothing {F R ι : Type} [DecidableEq ι] (H : Hashing) (fmt : TableFormat F R) :
    IdleOwesNothing H (logWorks H fmt : Lts (System F ι) (ProcessLabel F ι)) := by
  intro s₀ ls s hopened hrun hpop hempty
  obtain ⟨store, active, wal, memtableTargetBytes, compactionPolicy, hengine⟩ :=
    Opened.engine hopened
  have hdurable : s₀.engine.durable = s₀.engine.store.manifest := by
    rw [hengine]
    rfl
  have hworker := hopened.worker
  have hfirst : s₀.Tidy H s₀.engine.store.manifest := by
    refine ⟨fun _ => hdurable, fun h => ?_, fun _ => .inl rfl, fun _ _ => .inl rfl,
      fun _ _ h => ?_⟩
    · rw [hworker] at h
      cases h
    · rw [hworker] at h
      cases h
  have hkept : ∀ (t : System F ι) (label : ProcessLabel F ι) (t' : System F ι),
      t.Invariant H ∧ t.Tidy H s₀.engine.store.manifest → (logWorks H fmt).step t label t' →
        t'.Invariant H ∧ t'.Tidy H s₀.engine.store.manifest := by
    rintro t label t' ⟨ht, htidy⟩ ⟨hstep, hworks⟩
    exact ⟨ht.step hstep hworks, htidy.step ht hstep hworks⟩
  obtain ⟨hs, ht⟩ := hrun.invariant hkept ⟨invariant_of_opened hopened, hfirst⟩
  obtain ⟨g, hd, -⟩ := hs.data
  -- An idle worker with an empty queue leaves the slot empty.
  have hslot : s.engine.immutableMemtable = none := by
    have htasks := hd.tasks (hs.stages.noError (hpop ▸ rfl) (hpop ▸ nofun))
    rw [hpop, hempty] at htasks
    exact Option.toList_eq_nil_iff.1 htasks.symm
  have hsame := ht.durable (hpop ▸ rfl)
  -- If the MANIFEST has changed, the last job behind it was finished.
  by_cases hmanifest : s.engine.store.manifest = s₀.engine.store.manifest
  · exact .inr ⟨hslot, hmanifest, hsame.trans (hmanifest.trans hdurable.symm)⟩
  · exact .inl ⟨hslot, hsame, (ht.log (hpop ▸ rfl)).resolve_left hmanifest,
      (ht.levels hpop hempty).resolve_left hmanifest⟩

/-- Behind the flush of one write, the worker has caught up, unless it has committed nothing. -/
theorem idleOwesNothing_put : ∃ s₀ s : System Bytes ℕ,
    s.history.applied = [(Write.put [97] [1]).record 0] ∧ s.engine.activeMemtable = none ∧
      (s.CaughtUp vendoredSum ∨ s.engine.immutableMemtable = none ∧
        s.engine.store.manifest = s₀.engine.store.manifest ∧
        s.engine.durable = s₀.engine.durable) := by
  have hbuild := @Sstable.format_builds byteSum.crc32 [([97], ⟨[1], 0, .put⟩)]
    (List.cons_ne_nil _ _) (List.pairwise_singleton _ _) (by decide) (by simpa using by decide)
  obtain ⟨wal, active, store, through, -, ⟨f, file, htable⟩, hcommitted⟩ :=
    @oneCommitted_reachable _ _ vendoredSum (Sstable.format byteSum.crc32) 1048576 ⟨4, by decide⟩
      (.put [97] [1]) (by decide) (by decide) hbuild
  have hcalls := @oneHandedOver_calls Bytes vendoredSum 1048576 ⟨4, by decide⟩ (.put [97] [1]) wal
    active
  have hinv : ∀ t : System Bytes ℕ,
    (faultless vendoredSum (Sstable.format byteSum.crc32)).Reachable t →
      t.Invariant vendoredSum := fun _ => invariant_of_faultless
  have hcleared := Reachable.clear hasWorker_faultless hinv (fun j => (hcalls j).1)
    (fun j => (hcalls j).2) hcommitted
  obtain ⟨log, hreclaimed⟩ := Reachable.reclaim hasWorker_faultless hinv (fun j => (hcalls j).1)
    hcleared rfl (htable.live ▸ show 1 < 4 by decide) htable.smallestKey_le
  obtain ⟨s₀, ls, hopened, hrun⟩ := logWorks_of_faultless hreclaimed
  exact ⟨s₀, _, rfl, rfl, idleOwesNothing _ _ s₀ ls _ hopened hrun rfl rfl⟩

end Kronos
