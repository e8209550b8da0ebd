import Kronos.Engine.Covers
import Kronos.Engine.Reachable

/-!
# What the engine answers

In a run whose tables fit, the live SSTables hold what the checkpoint covers, and so does the state
that the MANIFEST file holds (`Contents`). Together with the invariant of the Memtables, this gives
the answer of a lookup that nothing interrupts (`KronosEngine.lookup`): it is that of the last
record that was applied to the key (`System.Invariant.lookup`).

Which tables a run builds is a matter of its states: those of the Memtables that are flushed, and
those of the merges that a compaction writes (`System.building`).
-/

namespace Kronos

open KronosEngine

/-! ## What a checkpoint covers -/

/-- The records that a checkpoint covers. -/
def coveredBy (checkpoint : Option ℕ) (rs : List Record) : List Record :=
  rs.filter fun r => checkpoint.any (r.sequence ≤ ·)

/-- The sequence number of the last record of a part covers this part. -/
theorem coveredBy_lastSequence {front back : List Record} (hv : Wal.ValidHistory (front ++ back)) :
    coveredBy (lastSequence front) (front ++ back) = front := by
  unfold coveredBy
  rw [List.filter_append]
  cases hlast : lastSequence front with
  | none =>
    have hnil : front = [] := List.getLast?_eq_none_iff.1 (Option.map_eq_none_iff.1 hlast)
    subst hnil
    simp
  | some through =>
    obtain ⟨hle, r, hr, rfl⟩ := le_lastSequence (hv.sublist (List.sublist_append_left _ _)) hlast
    have hback : ∀ r' ∈ back, r.sequence < r'.sequence := fun r' hr' =>
      (List.pairwise_append.1 hv.increasing).2.2 r hr r' hr'
    rw [List.filter_eq_self.2, List.filter_eq_nil_iff.2, List.append_nil]
    · intro r' hr'
      simpa using hback r' hr'
    · intro r' hr'
      simpa using hle r' hr'

namespace Data

variable {F ι : Type} {H : Hashing} {g : Generations} {e : KronosEngine F} {h : History ι}
  {worker : WorkerPc}

/-- What the sequence number of a first part of the records covers. -/
theorem coveredBy_first (hd : Data H g e h worker) {d : List Record} (hfirst : d <+: g.records) :
    coveredBy (lastSequence d) h.records = d := by
  obtain ⟨back, hback⟩ := hfirst
  have hv := hd.history
  rw [hd.records, ← hback]
  rw [← hback] at hv
  exact coveredBy_lastSequence hv

/-- The records of the Memtables that were released come first. -/
theorem isPrefix_old (g : Generations) : g.old <+: g.records := by
  unfold Generations.records Generations.applied
  rw [List.append_assoc, List.append_assoc]
  exact List.prefix_append _ _

/-- Those of the immutable Memtable come behind them. -/
theorem isPrefix_old_sealed (g : Generations) : g.old ++ g.sealed <+: g.records := by
  unfold Generations.records Generations.applied
  rw [List.append_assoc]
  exact List.prefix_append _ _

/-- Either way the covered records come first. -/
theorem isPrefix_covered (g : Generations) (clearing : Bool) :
    g.covered clearing <+: g.records := by
  cases clearing with
  | false => exact isPrefix_old g
  | true => exact isPrefix_old_sealed g

/-- The live SSTables are to hold the records whose generations are covered. -/
theorem coveredBy_live (hd : Data H g e h worker) :
    coveredBy e.store.manifest.persistedThrough h.records = g.covered worker.clearing := by
  rw [hd.checkpoint]
  exact hd.coveredBy_first (isPrefix_covered g _)

/-- So are those that the MANIFEST file names. -/
theorem coveredBy_durable (hd : Data H g e h worker) :
    coveredBy e.durable.persistedThrough h.records = g.durable := by
  rw [hd.durableCheckpoint]
  refine hd.coveredBy_first ?_
  rcases hd.durable_cases with hdurable | hdurable
  · exact hdurable ▸ isPrefix_old g
  · exact hdurable ▸ isPrefix_old_sealed g

end Data

/-! ## The tables of a run -/

/-- The records of the table that the worker builds next, if it builds one. -/
def System.building {F R ι : Type} (fmt : TableFormat F R) (s : System F ι) :
    Option (List TableRecord) :=
  match s.worker with
  | .flush task => some task.memtable.table.entries
  | .compact liveFiles =>
    match s.engine.compactionPolicy.pickCompaction liveFiles with
    | .ok (some plan) => (s.engine.store.planOutput fmt plan).toOption
    | _ => none
  | _ => none

/-- A `get` asks for a key that a lookup takes. -/
def Request.Taken {F R : Type} (fmt : TableFormat F R) : Request → Prop
  | get key => fmt.Takes key
  | _ => True

/-- A table that is built in a step of a process fits, and a lookup takes the key of a `get` that is
invoked. -/
def ProcessLabel.Fitting {F R ι : Type} (fmt : TableFormat F R) (Fits : List TableRecord → Prop)
    (s : System F ι) : ProcessLabel F ι → Prop
  | .invoke _ request => request.Taken fmt
  | .worker none => ∀ rs ∈ s.building fmt, Fits rs
  | _ => True

/-- So it is in a step in the life of a directory. -/
def LifeLabel.Fitting {F R ι : Type} (fmt : TableFormat F R) (Fits : List TableRecord → Prop) :
    Node F ι → LifeLabel F ι → Prop
  | .running s, .process label => label.Fitting fmt Fits s
  | _, _ => True

/-! ## The contents of the SSTables -/

/-- What the worker has written at a point, and what it has committed of a Memtable whose slot it
has not released. -/
def WorkerPc.Prepared {F R : Type} (fmt : TableFormat F R) (store : Store F) : WorkerPc → Prop
  | commitFlush task edit _ => store.FlushPrepared fmt task.memtable edit
  | clear task _ _ => ∀ r ∈ task.memtable.table.entries, r.2 ∈ store.versions fmt r.1
  | commitCompaction edit _ => store.CompactionPrepared fmt edit
  | _ => True

/-- The SSTables hold what the checkpoint covers, in memory and in the MANIFEST file. -/
structure Contents {F R ι : Type} (fmt : TableFormat F R) (s : System F ι) : Prop where
  live : s.engine.store.Covers fmt
    (coveredBy s.engine.store.manifest.persistedThrough s.history.records)
  durable : Store.Covers fmt { s.engine.store with manifest := s.engine.durable }
    (coveredBy s.engine.durable.persistedThrough s.history.records)
  worker : s.worker.Prepared fmt s.engine.store

/-- The acquisition of a mutex leaves what the worker has written. -/
theorem WorkerPc.acquires_prepared {F R : Type} {fmt : TableFormat F R} {store : Store F}
    {pc pc' : WorkerPc} {m : Mutex} (h : pc.acquires = some (m, pc'))
    (hpc : pc.Prepared fmt store) :
    pc'.Prepared fmt store := by
  unfold acquires at h
  split at h <;> cases h <;> exact hpc

/-- A failure leaves nothing prepared. -/
theorem WorkerPc.prepared_behind {F R : Type} {fmt : TableFormat F R} {store : Store F}
    {task : Option SharedMemtable} {next : WorkerPc} (hnext : next.Prepared fmt store)
    (result : Except Failure Unit) : (behind task next result).Prepared fmt store := by
  cases result with
  | ok _ => exact hnext
  | error failure => trivial

section Steps

variable {F R ι : Type} {H : Hashing} {fmt : TableFormat F R} {Fits : List TableRecord → Prop}
  {s s' : System F ι}

/-- A section of a call leaves the SSTables. -/
theorem CallStep.sameTables {i : ι} {e e' : KronosEngine F} {h h' : History ι} {pc pc' : Pc}
    (hstep : CallStep H fmt i e h pc e' h' pc') : e.SameTables e' := by
  cases hstep with
  | prepare w woken => exact (e.onlyMemtables_prepare woken w).tables
  | insert w sequence => exact (e.onlyMemtables_insert w sequence).tables
  | drain => exact e.scheduleFinal_frame.2.2.2
  | _ => exact ⟨rfl, rfl⟩

/-- A section of a call takes no record back. -/
theorem CallStep.records_grow {i : ι} {e e' : KronosEngine F} {h h' : History ι} {pc pc' : Pc}
    (hstep : CallStep H fmt i e h pc e' h' pc') : h.records <+: h'.records := by
  cases hstep with
  | append w =>
    cases ((w.call none).run H e.log.wal).1 with
    | error failure => exact List.prefix_refl _
    | ok sequence =>
      show h.logged.map Prod.snd <+: (h.logged ++ [_]).map Prod.snd
      rw [List.map_append]
      exact List.prefix_append _ _
  | insert w sequence => cases (e.insertLocked w sequence).1 <;> exact List.prefix_refl _
  | _ => exact List.prefix_refl _

/-- What is committed covers what its checkpoint covers. -/
theorem Contents.commit (hc : Contents fmt s) (hs : s.Invariant H) {edit : ManifestEdit}
    {store : Store F}
    (hworker : (∃ task locked, s.worker = .commitFlush task edit locked) ∨
      ∃ locked, s.worker = .commitCompaction edit locked)
    (hcommit : s.engine.store.commit edit = .ok store) :
    store.Covers fmt (coveredBy store.manifest.persistedThrough s.history.records) := by
  obtain ⟨g, hd, -⟩ := hs.data
  have hlive := hc.live
  have hprepared := hc.worker
  have hnoError := hs.stages.noError
  rw [hd.coveredBy_live] at hlive
  rcases hworker with ⟨task, locked, hworker⟩ | ⟨locked, hworker⟩
  · -- A flush moves the checkpoint behind the sealed records.
    rw [hworker] at hd hlive hprepared hnoError
    have herror := hnoError rfl nofun
    obtain ⟨hslot, -⟩ := hd.slot_of_task herror rfl
    obtain ⟨-, hreplays, -⟩ := hd.slot task hslot
    have hthrough : store.manifest.persistedThrough = lastSequence (g.old ++ g.sealed) := by
      obtain rfl := Except.ok.inj ((hd.commit_of_flush herror).symm.trans hcommit)
      rfl
    rw [hthrough, hd.coveredBy_first (Data.isPrefix_old_sealed g)]
    obtain ⟨f, through, hflushed⟩ :=
      Store.FlushPrepared.commit hprepared hlive.layered.tabled hcommit
    exact hlive.flush hd.history_sealed hreplays hflushed
  · -- A compaction leaves the checkpoint where it is.
    rw [hworker] at hd hlive hprepared
    have hthrough : store.manifest.persistedThrough = lastSequence g.old := by
      obtain ⟨hedits, hnone⟩ := hd.worker
      obtain ⟨checkpoint, rfl, hadvance⟩ := hedits.commit_ok hd.live hcommit
      rw [hnone] at hadvance
      cases hadvance
      exact hd.checkpoint
    rw [hthrough, hd.coveredBy_first (Data.isPrefix_old g)]
    exact Store.CompactionPrepared.commit hprepared hlive
      (hd.history_sealed.sublist (List.sublist_append_left _ _)) hcommit

/-- A worker that has committed, or failed to, leaves the SSTables with what they are to hold. -/
theorem Contents.committed (hc : Contents fmt s) (hs : s.Invariant H) {edit : ManifestEdit}
    {task : Option SharedMemtable} {next : WorkerPc} (fault : Option CommitFault)
    (hworker : (∃ task locked, s.worker = .commitFlush task edit locked) ∨
      ∃ locked, s.worker = .commitCompaction edit locked)
    (hnext : ∀ store, s.engine.store.commit edit = .ok store → next.Prepared fmt store) :
    Contents fmt { s with
      engine := (s.engine.commitEdit edit fault).2
      worker := .behind task next (s.engine.commitEdit edit fault).1 } := by
  have hcases := s.engine.commitEdit_cases edit fault
  generalize s.engine.commitEdit edit fault = result at hcases
  cases hcases with
  | rejected fault failure _ => exact ⟨hc.live, hc.durable, trivial⟩
  | committed store hcommit =>
    have hcovers := hc.commit hs hworker hcommit
    exact ⟨hcovers, hcovers, hnext store hcommit⟩
  | before failure => exact ⟨hc.live, hc.durable, trivial⟩
  | behind failure store hcommit =>
    have hstore : { s.engine.store with manifest := store.manifest } = store := by
      obtain ⟨manifest, -, hok⟩ := bind_eq_ok hcommit
      cases hok
      rfl
    refine ⟨hc.live, ?_, trivial⟩
    show Store.Covers fmt { s.engine.store with manifest := store.manifest } _
    rw [hstore]
    exact hc.commit hs hworker hcommit

/-- Files that are written beside the live ones change nothing that is read. -/
theorem Contents.files (hc : Contents fmt s) {store : Store F}
    (hmanifest : store.manifest = s.engine.store.manifest)
    (hkeeps : Store.KeepsFiles s.engine.store store) {worker : WorkerPc}
    (hworker : worker.Prepared fmt store) :
    Contents fmt { s with engine := { s.engine with store := store }, worker := worker } := by
  refine ⟨?_, hc.durable.mono rfl hkeeps, hworker⟩
  show store.Covers fmt (coveredBy store.manifest.persistedThrough _)
  rw [hmanifest]
  exact hc.live.mono hmanifest hkeeps

/-- A step of the worker keeps the contents, if a table that it builds fits. -/
theorem Contents.work (hfmt : fmt.Holds Fits) (hc : Contents fmt s) (hs : s.Invariant H)
    {fault : Option (WorkerFault F)} {e : KronosEngine F} {pc : WorkerPc}
    (hstep : WorkerStep H fmt s.engine fault s.worker e pc)
    (hfits : ProcessLabel.Fitting (ι := ι) fmt Fits s (.worker fault)) :
    Contents fmt { s with engine := e, worker := pc } := by
  obtain ⟨g, hd, -⟩ := hs.data
  have hnoError := hs.stages.noError
  generalize hworker : s.worker = worker at hd hstep hnoError
  cases hstep with
  -- The table is in the store, and the edit is in hand. The MANIFEST is the same.
  | flush task store edit hprepare =>
    obtain ⟨hmanifest, hkeeps, -⟩ := Store.prepareFlush_ok hprepare hd.live
    refine hc.files hmanifest hkeeps ?_
    refine Store.flushPrepared_of_prepareFlush hc.live.layered.tabled ?_ hprepare
    -- The Memtable has the entries of records of the log.
    obtain ⟨hslot, -⟩ := hd.slot_of_task (hnoError rfl nofun) rfl
    obtain ⟨-, hreplays, -⟩ := hd.slot task hslot
    refine hfmt _ (Store.flushable_of_prepareFlush hprepare).nonempty task.memtable.table.sorted
      (fun r hr => ?_) (hfits _ ?_)
    · obtain ⟨record, hrecord, hkey, hentry⟩ := hreplays.exists_record hr
      have haccepted := hd.history_sealed.accepted (List.mem_append_right _ hrecord)
      rwa [hkey, hentry] at haccepted
    · rw [System.building, hworker]
      rfl
  | compact liveFiles store edit hprepare =>
    obtain rfl : liveFiles = s.engine.store.manifest.liveFiles := hd.worker
    obtain ⟨store', hprepared, rfl⟩ := KronosEngine.prepareCompaction_ok hprepare
    obtain ⟨hmanifest, hkeeps, -⟩ := Store.prepareCompaction_ok hprepared hd.live
    have hstore : { store' with manifest := s.engine.store.manifest } = store' := by
      rw [← hmanifest]
    rw [hstore]
    refine hc.files hmanifest hkeeps ?_
    have hlive := hc.live
    rw [hd.coveredBy_live] at hlive
    have hreturns := Store.prepareCompaction_returns hlive.layered.tabled s.engine.compactionPolicy
      fun plan output hplan houtput hne => ?_
    · rcases hreturns with hnone | ⟨store'', edit', hsome, hcompaction⟩
      · cases hnone.symm.trans hprepared
      · cases hsome.symm.trans hprepared
        exact hcompaction
    -- The output has versions of the live files, which stand for records of the log.
    obtain ⟨smallest, largest, hselects⟩ := CompactionPolicy.pickCompaction_ok hplan
    obtain ⟨inputs, output', -, -, houtput', -, hmerged, hversions⟩ :=
      Store.planOutput_spec hlive.layered.tabled hselects
    obtain rfl := Except.ok.inj (houtput.symm.trans houtput')
    refine hfmt _ hne hmerged.sorted (fun r hr => ?_) (hfits _ ?_)
    · obtain ⟨record, hrecord, hkey, hentry⟩ := hlive.versions r.1 r.2 (hversions r hr)
      have hmem : record ∈ g.records := (Data.isPrefix_covered g _).subset hrecord
      have haccepted := hd.history.accepted hmem
      rwa [hkey, hentry] at haccepted
    · rw [System.building, hworker]
      dsimp only
      rw [hplan]
      dsimp only
      rw [houtput]
      rfl
  | flushThrows task store failure _ hmanifest hkeeps => exact hc.files hmanifest hkeeps trivial
  | flushFails task store failure hmanifest hkeeps => exact hc.files hmanifest hkeeps trivial
  | compactThrows liveFiles store failure _ hmanifest hkeeps =>
    exact hc.files hmanifest hkeeps trivial
  | compactFails liveFiles store failure hmanifest hkeeps => exact hc.files hmanifest hkeeps trivial
  -- What is committed of the Memtable is among the versions, until the slot is released.
  | commitFlush task edit fault =>
    refine hc.committed hs fault (.inl ⟨task, true, hworker⟩) fun store hcommit r hr => ?_
    have hprepared := hc.worker
    rw [hworker] at hprepared
    obtain ⟨f, through, hflushed⟩ :=
      Store.FlushPrepared.commit hprepared hc.live.layered.tabled hcommit
    rw [hflushed.versions hc.live.layered.tabled]
    exact .inr hr
  | commitCompaction edit fault =>
    exact hc.committed hs fault (.inr ⟨true, hworker⟩) fun _ _ => trivial
  -- The release touches neither the store nor the durable MANIFEST.
  | clear task flushedThrough =>
    have hclear : (s.engine.clearImmutable task).2.store = s.engine.store ∧
        (s.engine.clearImmutable task).2.durable = s.engine.durable := by
      unfold clearImmutable
      split_ifs <;> exact ⟨rfl, rfl⟩
    have hbehind := @WorkerPc.prepared_behind F R fmt (s.engine.clearImmutable task).2.store
      (some task) (.notifyCleared flushedThrough) trivial (s.engine.clearImmutable task).1
    refine ⟨?_, ?_, hbehind⟩
    · show Store.Covers fmt (s.engine.clearImmutable task).2.store (coveredBy
        (s.engine.clearImmutable task).2.store.manifest.persistedThrough _)
      rw [hclear.1]
      exact hc.live
    · show Store.Covers fmt { (s.engine.clearImmutable task).2.store with
        manifest := (s.engine.clearImmutable task).2.durable } (coveredBy
        (s.engine.clearImmutable task).2.durable.persistedThrough _)
      rw [hclear.1, hclear.2]
      exact hc.durable
  | reclaim flushedThrough fault =>
    have hbehind := @WorkerPc.prepared_behind F R fmt s.engine.store none (.checkSlot false) trivial
      (Wal.reclaimThrough H flushedThrough fault s.engine.log).1
    exact ⟨hc.live, hc.durable, hbehind⟩
  | checkSlot =>
    refine ⟨hc.live, hc.durable, ?_⟩
    cases s.engine.immutableMemtable.isSome <;> trivial
  -- Nor does the record of a failure.
  | record task failure =>
    have hrecord : (s.engine.recordFailure failure).store = s.engine.store ∧
        (s.engine.recordFailure failure).durable = s.engine.durable := by
      unfold recordFailure
      split_ifs <;> exact ⟨rfl, rfl⟩
    refine ⟨?_, ?_, trivial⟩
    · show Store.Covers fmt (s.engine.recordFailure failure).store (coveredBy
        (s.engine.recordFailure failure).store.manifest.persistedThrough _)
      rw [hrecord.1]
      exact hc.live
    · show Store.Covers fmt { (s.engine.recordFailure failure).store with
        manifest := (s.engine.recordFailure failure).durable } (coveredBy
        (s.engine.recordFailure failure).durable.persistedThrough _)
      rw [hrecord.1, hrecord.2]
      exact hc.durable
  | _ => exact ⟨hc.live, hc.durable, trivial⟩

/-- More records above the checkpoints change nothing that is covered. -/
theorem Contents.extend (hc : Contents fmt s) (hs : s.Invariant H) {rs : List Record}
    (hv : Wal.ValidHistory (s.history.records ++ rs)) :
    s.engine.store.Covers fmt
        (coveredBy s.engine.store.manifest.persistedThrough (s.history.records ++ rs)) ∧
      Store.Covers fmt { s.engine.store with manifest := s.engine.durable }
        (coveredBy s.engine.durable.persistedThrough (s.history.records ++ rs)) := by
  obtain ⟨g, hd, -⟩ := hs.data
  have hextend : ∀ d, d <+: g.records →
      coveredBy (lastSequence d) (s.history.records ++ rs) = d := by
    rintro d ⟨back, hback⟩
    rw [hd.records, ← hback, List.append_assoc] at hv ⊢
    exact coveredBy_lastSequence hv
  have hlive := hc.live
  have hdurable := hc.durable
  rw [hd.coveredBy_live] at hlive
  rw [hd.coveredBy_durable] at hdurable
  constructor
  · rw [hd.checkpoint, hextend _ (Data.isPrefix_covered g _)]
    exact hlive
  · have hfirst : g.durable <+: g.records := by
      rcases hd.durable_cases with heq | heq
      · exact heq ▸ Data.isPrefix_old g
      · exact heq ▸ Data.isPrefix_old_sealed g
    rw [hd.durableCheckpoint, hextend _ hfirst]
    exact hdurable

variable [DecidableEq ι]

/-- **The contents.** A step of a process keeps them, if a table that it builds fits, and the
reclamation of the log does not fail. -/
theorem Contents.step {label : ProcessLabel F ι} (hfmt : fmt.Holds Fits) (hc : Contents fmt s)
    (hs : s.Invariant H) (hstep : ProcessStep H fmt s label s') (hworks : label.LogWorks)
    (hfits : label.Fitting fmt Fits s) : Contents fmt s' := by
  have hs' := hs.step hstep hworks
  cases hstep with
  -- A call leaves the tables, and adds records behind the checkpoint at most.
  | call i e h pc hcall =>
    obtain ⟨hstore, hdurable⟩ := hcall.sameTables
    obtain ⟨rs, hrecords⟩ := hcall.records_grow
    obtain ⟨g, hd, -⟩ := hs'.data
    have hv : Wal.ValidHistory (s.history.records ++ rs) := by
      rw [hrecords]
      exact hd.records ▸ hd.history
    obtain ⟨hlive, hdurable'⟩ := hc.extend hs hv
    rw [hrecords] at hlive hdurable'
    refine ⟨?_, ?_, ?_⟩
    · show e.store.Covers fmt (coveredBy e.store.manifest.persistedThrough h.records)
      rw [hstore]
      exact hlive
    · show Store.Covers fmt { e.store with manifest := e.durable }
        (coveredBy e.durable.persistedThrough h.records)
      rw [hstore, hdurable]
      exact hdurable'
    · show s.worker.Prepared fmt e.store
      rw [hstore]
      exact hc.worker
  | workerAcquire m pc hacquires hfree =>
    exact ⟨hc.live, hc.durable, WorkerPc.acquires_prepared hacquires hc.worker⟩
  | worker fault e pc hworker => exact hc.work hfmt hs hworker hfits
  | notifyCleared flushedThrough hpc => exact ⟨hc.live, hc.durable, trivial⟩
  | notifyFailed hpc => exact ⟨hc.live, hc.durable, trivial⟩
  | _ => exact ⟨hc.live, hc.durable, hc.worker⟩

end Steps

/-! ## The life of a directory -/

/-- The SSTables of a directory hold what their checkpoint covers. -/
def Node.Contents {F R ι : Type} (fmt : TableFormat F R) : Node F ι → Prop
  | running s => Kronos.Contents fmt s
  | closed _ store _ h => store.Covers fmt (coveredBy store.manifest.persistedThrough h.records)

section Life

variable {F R ι : Type} {H : Hashing} {fmt : TableFormat F R} {Fits : List TableRecord → Prop}
  {s : System F ι}

/-- The contents behind a crash that leaves the log. -/
theorem contents_of_crash {log : Bytes} {store : Store F}
    (h : store.Covers fmt (coveredBy store.manifest.persistedThrough s.history.records)) :
    (s.crashed log store []).Contents fmt := by
  show store.Covers fmt (coveredBy store.manifest.persistedThrough
    ((s.history.logged ++ []).map Prod.snd))
  rwa [List.append_nil]

/-- An engine that was just constructed has the contents of its directory. -/
theorem contents_of_constructed {store : Store F} {e : KronosEngine F}
    {dropped front back : List Record} (h : Constructed H store e dropped front back)
    {calls : ι → Pc} {history : History ι}
    (hcovers : store.Covers fmt (coveredBy store.manifest.persistedThrough history.records)) :
    Contents fmt (⟨e, .pop, calls, { history with applied := history.records }⟩ : System F ι) := by
  have hlive : Store.Covers fmt { store with nextSstableId := 1 }
      (coveredBy store.manifest.persistedThrough history.records) :=
    hcovers.mono rfl (Store.KeepsFiles.refl _)
  refine ⟨?_, ?_, trivial⟩
  · show e.store.Covers fmt (coveredBy e.store.manifest.persistedThrough history.records)
    rw [h.store]
    exact hlive
  · show Store.Covers fmt { e.store with manifest := e.durable }
      (coveredBy e.durable.persistedThrough history.records)
    rw [h.store, h.durable]
    exact hlive

/-- Behind the opening of an empty directory there is nothing to hold. -/
theorem contents_of_firstOpened (h : FirstOpened H fmt s) : Contents fmt s := by
  obtain ⟨e, memtableTargetBytes, compactionPolicy, hok, rfl⟩ := h
  rw [construct_none] at hok
  exact @contents_of_constructed F R ι H fmt _ e [] [] [] (constructed_of_ok (reopens_empty H) hok)
    (fun _ => .idle) .empty Store.covers_empty

variable [DecidableEq ι]

/-- Every step in the life of a directory keeps the contents, if a table that it builds fits. -/
theorem Node.Contents.step {node node' : Node F ι} {label : LifeLabel F ι} (hfmt : fmt.Holds Fits)
    (hc : node.Contents fmt) (hs : node.Invariant H) (hstep : LifeStep H fmt node label node')
    (hfits : LifeLabel.Fitting fmt Fits node label) : node'.Contents fmt := by
  cases hstep with
  | process label hstep hworks => exact Kronos.Contents.step hfmt hc hs hstep hworks hfits
  -- The durable MANIFEST is what the next process reads.
  | @crash s store hmanifest hkeeps =>
    have hc : Kronos.Contents fmt s := hc
    refine contents_of_crash ?_
    rw [hmanifest]
    exact hc.durable.mono hmanifest hkeeps
  -- A record that the crash has left is behind the checkpoint.
  | @crashInAppend s i w fault hpc =>
    have hc : Kronos.Contents fmt s := hc
    have hs : s.Invariant H := hs
    obtain ⟨g, hd, -⟩ := hs.data
    have hv := hd.history_kept (w.call (some fault))
    rw [← hd.records] at hv
    have hrecords : (s.lostHistory (((w.call (some fault)).kept H s.engine.log.wal).map
        fun r => (i, r))).records =
          s.history.records ++ (w.call (some fault)).kept H s.engine.log.wal := by
      simp [System.lostHistory, History.records, Function.comp_def]
    show Store.Covers fmt _ (coveredBy _ (s.lostHistory _).records)
    rw [hrecords]
    exact (hc.extend hs hv).2
  -- The commit that was cut short may have taken effect.
  | @crashInCommit s edit store hcommitting hcommit =>
    refine contents_of_crash (Kronos.Contents.commit hc hs ?_ hcommit)
    unfold System.committing at hcommitting
    split at hcommitting
    · next task _ hworker =>
      cases hcommitting
      exact .inl ⟨task, true, hworker⟩
    · next _ hworker =>
      cases hcommitting
      exact .inr ⟨true, hworker⟩
    · cases hcommitting
  | @crashInReclaim s flushedThrough point hworker =>
    exact contents_of_crash (Kronos.Contents.durable hc)
  | crashInRecovery point hconstruct => exact hc
  | @reopen log store calls history e memtableTargetBytes compactionPolicy hok =>
    obtain ⟨⟨dropped, front, back, hreopens, -⟩, -, -⟩ := hs
    exact contents_of_constructed (constructed_of_ok hreopens hok) hc

/-- The life of a directory whose tables all fit, and whose readers ask for keys that a lookup
takes. -/
def fittingLife (H : Hashing) (fmt : TableFormat F R) (Fits : List TableRecord → Prop) :
    Lts (Node F ι) (LifeLabel F ι) :=
  (life H fmt).restrict (LifeLabel.Fitting fmt Fits)

/-- Every state of such a life has the invariant, and the contents. -/
theorem contents_of_reachable (hfmt : fmt.Holds Fits) {node : Node F ι}
    (h : (fittingLife H fmt Fits).Reachable node) : node.Invariant H ∧ node.Contents fmt := by
  refine @Lts.Reachable.invariant _ _ (fittingLife H fmt Fits)
    (fun node => node.Invariant H ∧ node.Contents fmt) ?_ ?_ node h
  · rintro _ ⟨s, hopened, rfl⟩
    exact ⟨invariant_of_firstOpened hopened, contents_of_firstOpened hopened⟩
  · exact fun node label node' hs hstep =>
      ⟨hs.1.step hstep.1, hs.2.step hfmt hs.1 hstep.1 hstep.2⟩

/-- A process over such a directory, from any state on. The reclamation of its log may fail. -/
def fittingProcess (H : Hashing) (fmt : TableFormat F R) (Fits : List TableRecord → Prop) :
    Lts (System F ι) (ProcessLabel F ι) where
  initial s := (fittingLife H fmt Fits).Reachable (.running s)
  step s label s' := ProcessStep H fmt s label s' ∧ label.Fitting fmt Fits s

/-- The processes over such a directory whose log works. -/
def workingProcess (H : Hashing) (fmt : TableFormat F R) (Fits : List TableRecord → Prop) :
    Lts (System F ι) (ProcessLabel F ι) :=
  (fittingProcess H fmt Fits).restrict fun _ label => label.LogWorks

/-- Their states are those in the life of the directory. -/
theorem life_of_workingProcess (h : (workingProcess H fmt Fits).Reachable s) :
    (fittingLife H fmt Fits).Reachable (.running s) := by
  refine @Lts.Reachable.invariant _ _ (workingProcess H fmt Fits)
    (fun s => (fittingLife H fmt Fits).Reachable (.running s)) (fun s hs => hs) ?_ s h
  rintro s label s' hs ⟨⟨hstep, hfits⟩, hworks⟩
  exact hs.step ⟨.process label hstep hworks, hfits⟩

end Life

end Kronos
