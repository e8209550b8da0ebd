import Kronos.Base.Simulation
import Kronos.Engine.Linearized
import Kronos.Engine.Paths
import Kronos.Lsm.StoredTables

/-!
# An engine over tables

Behind an engine that keeps its SSTables in files stands one that keeps them as tables
(`Node.tables`). As long as the tables that are built fit, and the keys that are looked up can be
hashed, each step of the one is a step of the other, with the same calls, answers, failures, log and
MANIFEST, also over crashes and openings (`runsOverTables`). So the bytes of `src/sstable.cpp`
matter to nobody who uses the engine.

A file that a reader still has to search can have left the MANIFEST. It stays in the directory, and
holds the table that it held when the reader copied its name (`System.Searches`).
-/

namespace Kronos

open KronosEngine

variable {F R ι : Type} {H : Hashing} {fmt : TableFormat F R} {Fits : List TableRecord → Prop}

/-- What a store covers, the one behind it covers. -/
theorem Store.Covers.tables {s : Store F} {rs : List Record} (h : s.Covers fmt rs) :
    (s.tables fmt).Covers .logical rs := by
  have hversions := h.layered.tabled.versions_tables
  refine ⟨⟨h.layered.tabled.tables, h.layered.levels⟩, fun key v hv => ?_, fun key => ?_⟩
  · exact h.versions key v (hversions key ▸ hv)
  · rw [hversions key]
    exact h.newest key

/-! ## The engine -/

namespace KronosEngine

/-- The engine over the tables behind the files. -/
def tables (fmt : TableFormat F R) (e : KronosEngine F) : KronosEngine (List TableRecord) :=
  { e with store := e.store.tables fmt }

/-- Pushing a Memtable does not look at the files. -/
theorem push_tables (e : KronosEngine F) (task : SharedMemtable) :
    (e.tables fmt).push task = (e.push task).map id (tables fmt) := by
  unfold push
  show (if e.queueClosed then _ else _) = _
  split_ifs <;> rfl

/-- Nor does a rotation. -/
theorem rotateActiveMemtableLocked_tables (e : KronosEngine F) :
    (e.tables fmt).rotateActiveMemtableLocked =
      e.rotateActiveMemtableLocked.map id (tables fmt) := by
  have hpush : ∀ frozen next task, (share (e.tables fmt) frozen next).push task =
      ((e.share frozen next).push task).map id (tables fmt) :=
    fun frozen next task => (e.share frozen next).push_tables task
  have hactive : (e.tables fmt).activeMemtable = e.activeMemtable := rfl
  have himmutable : (e.tables fmt).immutableMemtable = e.immutableMemtable := rfl
  have htarget : (e.tables fmt).memtableTargetBytes = e.memtableTargetBytes := rfl
  have haddress : (e.tables fmt).nextAddress = e.nextAddress := rfl
  unfold rotateActiveMemtableLocked
  rw [hactive, himmutable, htarget, haddress]
  cases e.activeMemtable with
  | none => rfl
  | some active =>
    dsimp only
    split_ifs
    · rfl
    · rfl
    · rcases active.freeze with ⟨_ | _, frozen⟩
      · rfl
      · dsimp only
        rw [hpush]
        rcases (e.share frozen _).push _ with ⟨_ | _, e'⟩ <;> rfl

/-- Nor does the check of a writer. -/
theorem prepareForWriteLocked_tables (e : KronosEngine F) (woken : Bool) (w : Write) :
    (e.tables fmt).prepareForWriteLocked woken w =
      (e.prepareForWriteLocked woken w).map id (tables fmt) := by
  have hgo : (e.tables fmt).writerMayGoOn = e.writerMayGoOn := rfl
  have hshutdown : (e.tables fmt).shuttingDown = e.shuttingDown := rfl
  have herror : (e.tables fmt).backgroundError = e.backgroundError := rfl
  have hactive : (e.tables fmt).activeMemtable = e.activeMemtable := rfl
  have himmutable : (e.tables fmt).immutableMemtable = e.immutableMemtable := rfl
  unfold prepareForWriteLocked
  rw [hgo, hshutdown, herror, hactive, himmutable, rotateActiveMemtableLocked_tables]
  split_ifs
  · rfl
  · rfl
  · cases e.backgroundError with
    | some failure => rfl
    | none =>
      cases e.activeMemtable with
      | none => rfl
      | some active =>
        dsimp only
        split_ifs
        · rfl
        · rcases e.rotateActiveMemtableLocked with ⟨_ | _, e'⟩ <;> rfl
        · rfl

/-- Nor does an insertion. -/
theorem insertLocked_tables (e : KronosEngine F) (w : Write) (sequence : ℕ) :
    (e.tables fmt).insertLocked w sequence = (e.insertLocked w sequence).map id (tables fmt) := by
  have hactive : (e.tables fmt).activeMemtable = e.activeMemtable := rfl
  unfold insertLocked
  rw [hactive]
  cases e.activeMemtable with
  | none => rfl
  | some active =>
    cases w with
    | put key value =>
      dsimp only
      rcases active.put key value sequence with ⟨_ | _ | _, active'⟩ <;> rfl
    | remove key =>
      dsimp only
      rcases active.remove key sequence with ⟨_ | _ | _, active'⟩ <;> rfl

/-- Nor does the hand-over of the last Memtable. -/
theorem scheduleFinalMemtable_tables (e : KronosEngine F) :
    (e.tables fmt).scheduleFinalMemtable = e.scheduleFinalMemtable.map id (tables fmt) := by
  have hpush : ∀ frozen task, (share (e.tables fmt) frozen none).push task =
      ((e.share frozen none).push task).map id (tables fmt) :=
    fun frozen task => (e.share frozen none).push_tables task
  have hactive : (e.tables fmt).activeMemtable = e.activeMemtable := rfl
  have herror : (e.tables fmt).backgroundError = e.backgroundError := rfl
  have haddress : (e.tables fmt).nextAddress = e.nextAddress := rfl
  unfold scheduleFinalMemtable
  rw [hactive, herror, haddress]
  cases e.activeMemtable with
  | none => rfl
  | some active =>
    dsimp only
    split_ifs
    · rcases active.freeze with ⟨_ | _, frozen⟩
      · rfl
      · dsimp only
        rw [hpush]
        rcases (e.share frozen none).push _ with ⟨_ | _, e'⟩ <;> rfl
    · rfl

/-- Nor does a commit. -/
theorem commitEdit_tables (e : KronosEngine F) (edit : ManifestEdit) (fault : Option CommitFault) :
    (e.tables fmt).commitEdit edit fault = (e.commitEdit edit fault).map id (tables fmt) := by
  have hcommit : (e.tables fmt).store.commit edit =
      (e.store.commit edit).map (Store.tables fmt) := e.store.commit_tables edit
  unfold commitEdit
  rw [hcommit]
  cases e.store.commit edit with
  | error failure => rfl
  | ok store => rcases fault with _ | _ | _ <;> rfl

/-- Nor does the release of the slot. -/
theorem clearImmutable_tables (e : KronosEngine F) (task : SharedMemtable) :
    (e.tables fmt).clearImmutable task = (e.clearImmutable task).map id (tables fmt) := by
  unfold clearImmutable
  show (if e.immutableMemtable.map (·.address) ≠ some task.address then _ else _) = _
  split_ifs <;> rfl

/-- Nor does the recording of a failure. -/
theorem recordFailure_tables (e : KronosEngine F) (failure : Failure) :
    (e.tables fmt).recordFailure failure = (e.recordFailure failure).tables fmt := by
  unfold recordFailure
  show (if e.backgroundError.isNone then _ else _) = _
  split_ifs <;> rfl

/-- A job that writes the merge of a compaction. -/
theorem prepareCompaction_tables (e : KronosEngine F) (htabled : e.store.Tabled fmt)
    (hrep : ∀ plan output,
      e.compactionPolicy.pickCompaction e.store.manifest.liveFiles = .ok (some plan) →
      e.store.planOutput fmt plan = .ok output → output ≠ [] → fmt.Represents output) :
    (e.tables fmt).prepareCompaction .logical e.store.manifest.liveFiles =
      (e.prepareCompaction fmt e.store.manifest.liveFiles).map
        (Option.map (Prod.map (Store.tables fmt) id)) := by
  have hprepare := Store.prepareCompaction_tables htabled e.compactionPolicy hrep
  unfold prepareCompaction
  show ((e.store.tables fmt).prepareCompaction .logical e.compactionPolicy >>= _) =
    Except.map _ (e.store.prepareCompaction fmt e.compactionPolicy >>= _)
  rw [hprepare]
  rcases e.store.prepareCompaction fmt e.compactionPolicy with failure | _ | ⟨store, edit⟩ <;> rfl

/-- An engine is opened over the tables as over the files. -/
theorem construct_tables {store : Store F} {rs : List Record} (hcovers : store.Covers fmt rs)
    (log : Option Bytes) (memtableTargetBytes : ℕ) (compactionPolicy : CompactionPolicy) :
    construct H .logical (store.tables fmt) log memtableTargetBytes compactionPolicy =
      (construct H fmt store log memtableTargetBytes compactionPolicy).map (tables fmt) := by
  have hvalid := hcovers.validates
  have hvalid' := hcovers.tables.validates
  have hstart : start H .logical (store.tables fmt) log memtableTargetBytes =
      start H fmt store log memtableTargetBytes := by
    unfold start recover
    rw [hvalid, hvalid']
    rfl
  unfold construct
  rw [hstart]
  cases start H fmt store log memtableTargetBytes <;> rfl

end KronosEngine

/-! ## The processes -/

/-- A failure of the I/O, over the tables. -/
def WorkerFault.tables (fmt : TableFormat F R) : WorkerFault F → WorkerFault (List TableRecord)
  | job failure store => .job failure (store.tables fmt)
  | commit fault => .commit fault
  | reclaim fault => .reclaim fault

/-- The same process, over the tables behind its files. -/
def System.tables (fmt : TableFormat F R) (s : System F ι) : System (List TableRecord) ι :=
  { s with engine := s.engine.tables fmt }

/-- The label of a step, over the tables that the files hold. -/
def ProcessLabel.tables (fmt : TableFormat F R) :
    ProcessLabel F ι → ProcessLabel (List TableRecord) ι
  | invoke i request => .invoke i request
  | acquire i => .acquire i
  | call i => .call i
  | wake i => .wake i
  | workerAcquire => .workerAcquire
  | worker fault => .worker (fault.map (WorkerFault.tables fmt))

/-- The files that a reader still has to search hold tables. -/
def System.Searches (fmt : TableFormat F R) (s : System F ι) : Prop :=
  ∀ i, ∀ f ∈ (s.calls i).snapshot, ∃ rs, s.engine.store.Records fmt f rs

section Steps

variable {s s' : System F ι}

/-- A section of a call is one over the tables. -/
theorem CallStep.tables {i : ι} {e e' : KronosEngine F} {h h' : History ι} {pc pc' : Pc}
    (hstep : CallStep H fmt i e h pc e' h' pc')
    (hsearches : ∀ f ∈ pc.snapshot, ∃ rs, e.store.Records fmt f rs)
    (hlooks : ∀ key ∈ pc.lookedUp, fmt.Takes key) :
    CallStep H .logical i (e.tables fmt) h pc (e'.tables fmt) h' pc' := by
  -- Only the search of a file looks at the files.
  cases hstep with
  | prepare w woken =>
    have htables := @CallStep.prepare _ _ _ H .logical i (e.tables fmt) h w woken
    rw [prepareForWriteLocked_tables] at htables
    exact htables
  | insert w sequence =>
    have htables := @CallStep.insert _ _ _ H .logical i (e.tables fmt) h w sequence
    rw [insertLocked_tables] at htables
    exact htables
  | drain hgo =>
    have htables := @CallStep.drain _ _ _ H .logical i (e.tables fmt) h hgo
    rw [scheduleFinalMemtable_tables] at htables
    exact htables
  -- The file holds a table, so that the reader finds what the table has.
  | file key f rest winner =>
    obtain ⟨rs, hrecords⟩ := hsearches f (.head _)
    have htables := @CallStep.file _ _ _ H .logical i (e.tables fmt) h key f rest winner
    rw [show (e.tables fmt).store.lookupFile .logical key winner f =
      e.store.lookupFile fmt key winner f from
        hrecords.lookupFile_tables (hlooks key rfl) winner] at htables
    exact htables
  | wait hwait => exact .wait hwait
  | append w => exact .append w
  | leave w result => exact .leave w result
  | active key => exact .active key
  | immutable key snapshot => exact .immutable key snapshot
  | copy key => exact .copy key
  | answer key winner => exact .answer key winner
  | publish => exact .publish
  | barrier => exact .barrier
  | close error => exact .close error
  | report error => exact .report error

/-- A table that the worker builds is represented, if it fits. -/
theorem Contents.represents (hfmt : fmt.Holds Fits) (hc : Contents fmt s) (hs : s.Invariant H)
    (hfits : ∀ rs ∈ s.building fmt, Fits rs) {rs : List TableRecord} (hrs : rs ∈ s.building fmt)
    (hne : rs ≠ []) : fmt.Represents rs := by
  obtain ⟨g, hd, -⟩ := hs.data
  have hnoError := hs.stages.noError
  suffices h : Sorted rs ∧ ∀ r ∈ rs, Sstable.AcceptedRecord r from
    hfmt rs hne h.1 h.2 (hfits rs hrs)
  unfold System.building at hrs
  split at hrs
  · next task hworker =>
    -- The Memtable has the entries of records of the log.
    cases hrs
    rw [hworker] at hd hnoError
    obtain ⟨hslot, -⟩ := hd.slot_of_task (hnoError rfl nofun) rfl
    obtain ⟨-, hreplays, -⟩ := hd.slot task hslot
    refine ⟨task.memtable.table.sorted, fun r hr => ?_⟩
    obtain ⟨record, hrecord, hkey, hentry⟩ := hreplays.exists_record hr
    have haccepted := hd.history_sealed.accepted (List.mem_append_right _ hrecord)
    rwa [hkey, hentry] at haccepted
  · next liveFiles hworker =>
    -- The output has versions of the live files, which stand for records of the log.
    rw [hworker] at hd
    obtain rfl : liveFiles = s.engine.store.manifest.liveFiles := hd.worker
    have hlive := hc.live
    rw [hd.coveredBy_live] at hlive
    split at hrs
    · next plan hplan =>
      obtain ⟨smallest, largest, hselects⟩ := CompactionPolicy.pickCompaction_ok hplan
      obtain ⟨inputs, output, -, -, houtput, -, hmerged, hversions⟩ :=
        Store.planOutput_spec hlive.layered.tabled hselects
      rw [houtput] at hrs
      cases hrs
      refine ⟨hmerged.sorted, fun r hr => ?_⟩
      obtain ⟨record, hrecord, hkey, hentry⟩ := hlive.versions r.1 r.2 (hversions r hr)
      have haccepted := hd.history.accepted ((Data.isPrefix_covered g _).subset hrecord)
      rwa [hkey, hentry] at haccepted
    · cases hrs
  · cases hrs

/-- A section of the worker is one over the tables, if a table that it builds fits. -/
theorem WorkerStep.tables (hfmt : fmt.Holds Fits) (hc : Contents fmt s) (hs : s.Invariant H)
    {fault : Option (WorkerFault F)} {e : KronosEngine F} {pc : WorkerPc}
    (hstep : WorkerStep H fmt s.engine fault s.worker e pc)
    (hfits : ProcessLabel.Fitting (ι := ι) fmt Fits s (.worker fault)) :
    WorkerStep H .logical (s.engine.tables fmt) (fault.map (WorkerFault.tables fmt)) s.worker
      (e.tables fmt) pc := by
  -- The table that a flush builds fits, so that the file represents it.
  have hflush : fault = none → ∀ task, s.worker = .flush task →
      (s.engine.store.tables fmt).prepareFlush .logical task.memtable =
        (s.engine.store.prepareFlush fmt task.memtable).map (Prod.map (Store.tables fmt) id) := by
    rintro rfl task hworker
    refine s.engine.store.prepareFlush_tables fun hne => hc.represents hfmt hs hfits ?_ hne
    rw [System.building, hworker]
    rfl
  -- So does the output of a compaction.
  have hcompact : fault = none → ∀ liveFiles, s.worker = .compact liveFiles →
      liveFiles = s.engine.store.manifest.liveFiles ∧
        (s.engine.tables fmt).prepareCompaction .logical liveFiles =
          (s.engine.prepareCompaction fmt liveFiles).map
            (Option.map (Prod.map (Store.tables fmt) id)) := by
    rintro rfl liveFiles hworker
    obtain ⟨g, hd, -⟩ := hs.data
    rw [hworker] at hd
    obtain rfl : liveFiles = s.engine.store.manifest.liveFiles := hd.worker
    refine ⟨rfl, s.engine.prepareCompaction_tables hc.live.layered.tabled fun plan output hplan
      houtput hne => hc.represents hfmt hs hfits ?_ hne⟩
    rw [System.building, hworker]
    dsimp only
    rw [hplan]
    dsimp only
    rw [houtput]
    rfl
  generalize hworker : s.worker = worker at hstep
  cases hstep with
  | flush task store edit hprepare =>
    refine .flush task (store.tables fmt) edit ?_
    show (s.engine.store.tables fmt).prepareFlush .logical task.memtable = _
    rw [hflush rfl task hworker, hprepare]
    rfl
  | flushThrows task store failure hprepare hmanifest hkeeps =>
    refine .flushThrows task (store.tables fmt) failure ?_ hmanifest hkeeps.tables
    show (s.engine.store.tables fmt).prepareFlush .logical task.memtable = _
    rw [hflush rfl task hworker, hprepare]
    rfl
  | compactNothing liveFiles hprepare =>
    refine .compactNothing liveFiles ?_
    rw [(hcompact rfl liveFiles hworker).2, hprepare]
    rfl
  | compact liveFiles store edit hprepare =>
    refine .compact liveFiles (store.tables fmt) edit ?_
    rw [(hcompact rfl liveFiles hworker).2, hprepare]
    rfl
  | compactThrows liveFiles store failure hprepare hmanifest hkeeps =>
    refine .compactThrows liveFiles (store.tables fmt) failure ?_ hmanifest hkeeps.tables
    rw [(hcompact rfl liveFiles hworker).2, hprepare]
    rfl
  | commitFlush task edit fault =>
    have htables := @WorkerStep.commitFlush _ _ H .logical (s.engine.tables fmt) task edit fault
    rw [commitEdit_tables] at htables
    cases fault <;> exact htables
  | commitCompaction edit fault =>
    have htables := @WorkerStep.commitCompaction _ _ H .logical (s.engine.tables fmt) edit fault
    rw [commitEdit_tables] at htables
    cases fault <;> exact htables
  | clear task flushedThrough =>
    have htables := @WorkerStep.clear _ _ H .logical (s.engine.tables fmt) task flushedThrough
    rw [clearImmutable_tables] at htables
    exact htables
  | reclaim flushedThrough fault =>
    have htables := @WorkerStep.reclaim _ _ H .logical (s.engine.tables fmt) flushedThrough fault
    cases fault <;> exact htables
  | record task failure =>
    have htables := @WorkerStep.record _ _ H .logical (s.engine.tables fmt) task failure
    rw [recordFailure_tables] at htables
    exact htables
  | flushFails task store failure hmanifest hkeeps =>
    exact .flushFails task (store.tables fmt) failure hmanifest hkeeps.tables
  | compactFails liveFiles store failure hmanifest hkeeps =>
    exact .compactFails liveFiles (store.tables fmt) failure hmanifest hkeeps.tables
  | pop task rest hqueue => exact .pop task rest hqueue
  | drained hempty hclosed => exact .drained hempty hclosed
  | checkSlot => exact .checkSlot
  | copyLive => exact .copyLive
  | closeQueue => exact .closeQueue

variable [DecidableEq ι]

/-- A step of a process is one over the tables, if a table that it builds fits. -/
theorem ProcessStep.tables (hfmt : fmt.Holds Fits) (hc : Contents fmt s) (hs : s.Invariant H)
    (hsearches : s.Searches fmt) (hlooks : (Node.running s).LooksUpTaken fmt)
    {label : ProcessLabel F ι} (hstep : ProcessStep H fmt s label s')
    (hfits : label.Fitting fmt Fits s) :
    ProcessStep H .logical (s.tables fmt) (label.tables fmt) (s'.tables fmt) := by
  cases hstep with
  | invoke i request hidle => exact .invoke i request hidle
  | acquire i m pc hacquires hfree => exact .acquire i m pc hacquires hfree
  | call i e h pc hcall => exact .call i (e.tables fmt) h pc (hcall.tables (hsearches i) (hlooks i))
  | notify i hpoint => exact .notify i hpoint
  | join i error hpoint hexited => exact .join i error hpoint hexited
  | wake i => exact .wake i
  | workerAcquire m pc hacquires hfree => exact .workerAcquire m pc hacquires hfree
  | worker fault e pc hwork =>
    exact .worker _ (e.tables fmt) pc (hwork.tables hfmt hc hs hfits)
  | notifyCleared flushedThrough hworker => exact .notifyCleared flushedThrough hworker
  | notifyFailed hworker => exact .notifyFailed hworker

/-- Readers search files that are live, or that have been. -/
theorem System.Searches.step (hsearches : s.Searches fmt) (hc : Contents fmt s)
    (hs : s.Invariant H) (hs' : s'.Invariant H) {label : ProcessLabel F ι}
    (hstep : ProcessStep H fmt s label s') : s'.Searches fmt := by
  intro i f hf
  have hkept : f ∈ (s.calls i).snapshot ∨ f ∈ s.engine.store.manifest.liveFiles := by
    cases hstep.moves i with
    | stays hsame => exact .inl (hsame ▸ hf)
    | woken hwoken =>
      rw [hwoken, Pc.snapshot_woken] at hf
      exact .inl hf
    | begins request _ hstart =>
      rw [hstart] at hf
      cases request <;> cases hf
    | acquires m pc hacquires hpc =>
      rw [hpc, Pc.snapshot_of_acquires hacquires] at hf
      cases hf
    | runs pc hcall hpc => exact hcall.refers.2 f (hpc ▸ hf)
    | notifies _ hpc =>
      rw [hpc] at hf
      cases hf
    | joins error _ _ hpc =>
      rw [hpc] at hf
      cases hf
  have hrecords : ∃ rs, s.engine.store.Records fmt f rs :=
    hkept.elim (hsearches i f) (hc.live.layered.tabled.exact f)
  obtain ⟨rs, hrecords⟩ := hrecords
  exact ⟨rs, hrecords.mono (hstep.grows hs hs').files⟩

end Steps

/-! ## The life of a directory -/

/-- The same directory, with the tables behind its files. -/
def Node.tables (fmt : TableFormat F R) : Node F ι → Node (List TableRecord) ι
  | running s => .running (s.tables fmt)
  | closed log store calls history => .closed log (store.tables fmt) calls history

/-- The label of a step in the life of a directory, over the tables that the files hold. -/
def LifeLabel.tables (fmt : TableFormat F R) : LifeLabel F ι → LifeLabel (List TableRecord) ι
  | process label => .process (label.tables fmt)
  | crash => .crash
  | crashInAppend i fault => .crashInAppend i fault
  | crashInCommit => .crashInCommit
  | crashInReclaim point => .crashInReclaim point
  | crashInRecovery point => .crashInRecovery point
  | reopen memtableTargetBytes compactionPolicy => .reopen memtableTargetBytes compactionPolicy

/-- The files that the readers of a process still have to search hold tables. -/
def Node.Searches (fmt : TableFormat F R) : Node F ι → Prop
  | running s => s.Searches fmt
  | closed .. => True

/-- A call that does not run has no file to search. -/
theorem Pc.snapshot_of_resting {pc : Pc} (h : pc.resting = true) : pc.snapshot = [] := by
  cases pc with
  | get key point => cases h
  | _ => rfl

section Life

variable [DecidableEq ι] {node node' : Node F ι} {label : LifeLabel F ι}

/-- A step in the life of a directory is one over the tables. -/
theorem LifeStep.tables (hfmt : fmt.Holds Fits) (hc : node.Contents fmt) (hs : node.Invariant H)
    (hsearches : node.Searches fmt) (hlooks : node.LooksUpTaken fmt)
    (hstep : LifeStep H fmt node label node')
    (hfits : LifeLabel.Fitting fmt Fits node label) :
    LifeStep H .logical (node.tables fmt) (label.tables fmt) (node'.tables fmt) := by
  cases hstep with
  | process label hprocess hworks =>
    refine .process (label.tables fmt) (hprocess.tables hfmt hc hs hsearches hlooks hfits) ?_
    rcases label with _ | _ | _ | _ | _ | _ | _ | _ | _ <;> exact hworks
  | crash store hmanifest hkeeps => exact .crash (store.tables fmt) hmanifest hkeeps.tables
  | crashInAppend i w fault hpc => exact .crashInAppend i w fault hpc
  | @crashInCommit s edit store hcommitting hcommit =>
    refine .crashInCommit edit (store.tables fmt) hcommitting ?_
    show (s.engine.store.tables fmt).commit edit = _
    rw [Store.commit_tables, hcommit]
    rfl
  | crashInReclaim flushedThrough point hworker =>
    exact .crashInReclaim flushedThrough point hworker
  | crashInRecovery point hconstruct => exact .crashInRecovery point hconstruct
  | @reopen log store calls history e memtableTargetBytes compactionPolicy hok =>
    refine @LifeStep.reopen _ _ _ _ H .logical log (store.tables fmt) calls history (e.tables fmt)
      memtableTargetBytes compactionPolicy ?_
    rw [construct_tables hc, hok]
    rfl

/-- A step keeps the files of the readers tables. -/
theorem Node.Searches.step (hsearches : node.Searches fmt) (hc : node.Contents fmt)
    (hs : node.Invariant H) (hs' : node'.Invariant H) (hstep : LifeStep H fmt node label node') :
    node'.Searches fmt := by
  cases hstep with
  | process label hprocess _ => exact System.Searches.step hsearches hc hs hs' hprocess
  | reopen memtableTargetBytes compactionPolicy _ =>
    -- No call is under way.
    intro i f hf
    rw [Pc.snapshot_of_resting (hs.resting i)] at hf
    cases hf
  | _ => trivial

end Life

/-- Every run in the life of a directory is, with every file replaced by the table in it, a run over
tables. -/
def RunsOverTables [DecidableEq ι] (H : Hashing) (fmt : TableFormat F R)
    (M : Lts (Node F ι) (LifeLabel F ι)) : Prop :=
  ∀ node₀ ls node, M.initial node₀ → M.Run node₀ ls node →
    (life H .logical).initial (node₀.tables fmt) ∧
      (life H .logical).Run (node₀.tables fmt) (ls.map (LifeLabel.tables fmt)) (node.tables fmt)

/-- **An engine over tables.** As long as the tables that are built fit, and the keys that are
looked up can be hashed, the life of a directory with SSTable files is the life of one with tables:
call by call, with the same answers and failures, and over every crash. -/
theorem runsOverTables {ι : Type} [DecidableEq ι] (crc32 : Bytes → UInt32) :
    RunsOverTables (.vendored crc32) (Sstable.format crc32)
      (fittingLife (.vendored crc32) (Sstable.format crc32) Sstable.TableFits :
        Lts (Node Bytes ι) (LifeLabel Bytes ι)) := by
  have hfmt : (Sstable.format crc32).Holds Sstable.TableFits :=
    fun _ => Sstable.format_represents crc32
  rintro _ ls node ⟨s, hopened, rfl⟩ hrun
  have hinvariant := invariant_of_firstOpened hopened
  have hcontents := contents_of_firstOpened hopened
  obtain ⟨e, memtableTargetBytes, compactionPolicy, hok, rfl⟩ := hopened
  constructor
  · refine ⟨_, ⟨e.tables (Sstable.format crc32), memtableTargetBytes, compactionPolicy, ?_, rfl⟩,
      rfl⟩
    have hconstruct :=
      @construct_tables _ _ (.vendored crc32) (Sstable.format crc32) _ _ Store.covers_empty none
      memtableTargetBytes compactionPolicy
    rw [hok] at hconstruct
    exact hconstruct
  · refine @Lts.Run.map _ _ _ _ _ _ (fun node : Node Bytes ι => node.Invariant (.vendored crc32) ∧
      node.Contents (Sstable.format crc32) ∧ node.Searches (Sstable.format crc32) ∧
        node.LooksUpTaken (Sstable.format crc32)) _ _ ?_ _ _ _ hrun
      ⟨hinvariant, hcontents, fun i f hf => absurd hf List.not_mem_nil,
        fun i key hkey => absurd hkey (Option.not_mem_none _)⟩
    rintro node label node' ⟨hs, hc, hsearches, hlooks⟩ ⟨hstep, hfits⟩
    have hs' := hs.step hstep
    exact ⟨⟨hs', hc.step hfmt hs hstep hfits, hsearches.step hc hs hs' hstep,
      hlooks.step hstep hfits⟩, hstep.tables hfmt hc hs hsearches hlooks hfits⟩

end Kronos
