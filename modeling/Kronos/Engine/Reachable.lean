import Kronos.Engine.Invariant

/-!
# Every reachable state

The invariant of a process (`System.Invariant`), that its steps keep it as long as the reclamation
of the log does not fail, and the invariant of a directory that no process has open
(`ClosedInvariant`), which every crash establishes and from which every opening starts. So both hold
in every state of the life of a directory (`invariant_of_reachable`).
-/

namespace Kronos

open KronosEngine

/-- The record that a call has in the log, and not in the active Memtable yet. -/
def Pc.pending : Pc → List Record
  | write w (.insert sequence _) => [w.record sequence]
  | _ => []

/-- What is pending is so for a call. -/
structure Pending {ι : Type} (pending : List Record) (calls : ι → Pc) : Prop where
  only : ∀ i, (calls i).pending ≠ [] → (calls i).pending = pending
  found : pending ≠ [] → ∃ i, (calls i).pending = pending

/-- The invariant of a process. -/
structure System.Invariant {F ι : Type} (H : Hashing) (s : System F ι) : Prop where
  exclusive : Exclusive s
  stages : Stages s
  data : ∃ g, Data H g s.engine s.history s.worker ∧ Pending g.pending s.calls

/-- Waking a call leaves its pending record. -/
@[simp] theorem Pc.pending_woken (pc : Pc) : pc.woken.pending = pc.pending := by
  unfold woken
  split <;> rfl

/-- So does the acquisition of a mutex. -/
theorem Pc.acquires_pending {pc pc' : Pc} {m : Mutex} (h : pc.acquires = some (m, pc')) :
    pc'.pending = pc.pending := by
  unfold acquires at h
  split at h <;> cases h <;> rfl

/-- A call with a pending record is past its check. -/
theorem Pc.writing_of_pending {pc : Pc} (h : pc.pending ≠ []) : pc.writing = true := by
  unfold pending at h
  split at h
  · rfl
  · exact absurd rfl h

section Process

variable {F R ι : Type} {H : Hashing} {fmt : TableFormat F R} {s s' : System F ι}

/-- Calls with the same pending records have them at the same place. -/
theorem Pending.congr {pending : List Record} {calls calls' : ι → Pc} (h : Pending pending calls)
    (hcalls : ∀ j, (calls' j).pending = (calls j).pending) : Pending pending calls' where
  only i hi := (hcalls i).trans (h.only i (hcalls i ▸ hi))
  found hne := by
    obtain ⟨i, hi⟩ := h.found hne
    exact ⟨i, (hcalls i).trans hi⟩

/-- The worker that has not recorded a failure finds none recorded. -/
theorem Stages.noError (hs : Stages s) (hending : s.worker.ending = false)
    (hexited : s.worker ≠ .exited) : s.engine.backgroundError = none := by
  cases herror : s.engine.backgroundError with
  | none => rfl
  | some failure =>
    rcases hs.failed (by rw [herror]; rfl) with h | h
    · rw [hending] at h
      cases h
    · exact absurd h hexited

/-- Before a shutdown is published, there is an active Memtable. -/
theorem Stages.active (hs : Stages s) (hshutdown : s.engine.shuttingDown = false) :
    s.engine.activeMemtable ≠ none := by
  intro hnone
  obtain ⟨i, hi⟩ := hs.noActive hnone
  rw [hs.published i (Nat.zero_lt_of_lt hi)] at hshutdown
  cases hshutdown

/-- The queue is open, unless the worker has failed or a shutdown has closed it. -/
theorem Stages.queueOpen (hs : Stages s) (herror : s.engine.backgroundError = none)
    (hclose : ∀ i, ¬5 ≤ (s.calls i).stage) : s.engine.queueClosed = false := by
  rw [Bool.eq_false_iff]
  intro hclosed
  rcases hs.closed hclosed with h | ⟨i, hi⟩
  · rw [herror] at h
    cases h
  · exact hclose i hi

/-- The check of a writer, while the active Memtable is mutable. -/
theorem Stages.prepares (hs : Stages s)
    (hstate : ∀ active, s.engine.activeMemtable = some active → active.state = .mutable)
    (woken : Bool) (w : Write) :
    Prepares s.engine woken w (s.engine.prepareForWriteLocked woken w) := by
  refine prepareForWriteLocked_spec woken w (fun hshutdown _ => ?_) fun hshutdown herror => ?_
  · obtain ⟨active, hactive⟩ := Option.ne_none_iff_exists'.1 (hs.active hshutdown)
    exact ⟨active, hactive, hstate active hactive⟩
  · refine hs.queueOpen herror fun i hi => ?_
    rw [hs.published i (Nat.zero_lt_of_lt hi)] at hshutdown
    cases hshutdown

/-- The hand-over of a shutdown, while the active Memtable is mutable. -/
theorem Stages.schedules (hs : Stages s)
    (hstate : ∀ active, s.engine.activeMemtable = some active → active.state = .mutable) {i : ι}
    {locked : Bool} (hpc : s.calls i = .shutdown (.drain locked)) :
    Schedules s.engine s.engine.scheduleFinalMemtable := by
  refine scheduleFinalMemtable_spec hstate fun herror => hs.queueOpen herror fun j hj => ?_
  -- The first shutdown is the only one, and it has not closed the queue.
  have hi : 0 < (s.calls i).stage := hpc ▸ Nat.succ_pos 2
  have hji := hs.unique j i (Nat.zero_lt_of_lt hj) hi
  rw [hji, hpc] at hj
  exact absurd hj (by show ¬5 ≤ 3; decide)

/-- The active Memtable of a process is mutable. -/
theorem System.Invariant.mutable (hs : s.Invariant H) (active : Memtable)
    (hactive : s.engine.activeMemtable = some active) : active.state = .mutable := by
  obtain ⟨g, hd, -⟩ := hs.data
  exact (hd.active active hactive).1

/-- The check of a writer, in a process. -/
theorem System.Invariant.prepares (hs : s.Invariant H) (woken : Bool) (w : Write) :
    Prepares s.engine woken w (s.engine.prepareForWriteLocked woken w) :=
  hs.stages.prepares hs.mutable woken w

/-- The hand-over of a shutdown, in a process. -/
theorem System.Invariant.schedules (hs : s.Invariant H) {i : ι} {locked : Bool}
    (hpc : s.calls i = .shutdown (.drain locked)) :
    Schedules s.engine s.engine.scheduleFinalMemtable :=
  hs.stages.schedules hs.mutable hpc

/-- While a call is between its check and its append, nothing is pending. -/
theorem System.Invariant.nothing_pending (hs : s.Invariant H) {g : Generations}
    (hp : Pending g.pending s.calls) {i : ι} (hheld : Mutex.write ∈ (s.calls i).held)
    (hi : (s.calls i).pending = []) : g.pending = [] := by
  by_contra hne
  obtain ⟨j, hj⟩ := hp.found hne
  have hheld' := Pc.write_mem_held (Pc.writing_of_pending (hj ▸ hne))
  rw [hs.exclusive.calls .write i j hheld hheld', hj] at hi
  exact hne hi

/-- Another call than the one that holds `write_mutex_` has nothing pending. -/
theorem System.Invariant.pending_of_ne (hs : s.Invariant H) {i j : ι}
    (hheld : Mutex.write ∈ (s.calls i).held) (hne : j ≠ i) : (s.calls j).pending = [] := by
  by_contra hpending
  exact hne
    (hs.exclusive.calls .write j i (Pc.write_mem_held (Pc.writing_of_pending hpending)) hheld)

/-- The insertion of a writer finds an active Memtable. -/
theorem System.Invariant.active_of_insert (hs : s.Invariant H) {i : ι} {w : Write} {sequence : ℕ}
    {locked : Bool} (hpc : s.calls i = .write w (.insert sequence locked)) :
    s.engine.activeMemtable ≠ none := by
  intro hnone
  obtain ⟨j, hj⟩ := hs.stages.noActive hnone
  have hwriting := hs.stages.barrier j i (Nat.le_of_succ_le hj)
  rw [hpc] at hwriting
  cases hwriting

/-- The insertion of a writer succeeds. -/
theorem System.Invariant.inserts (hs : s.Invariant H) {i : ι} {w : Write} {sequence : ℕ}
    {locked : Bool} (hpc : s.calls i = .write w (.insert sequence locked)) :
    ∃ active, s.engine.insertLocked w sequence =
      (.ok (), { s.engine with activeMemtable := some active }) := by
  obtain ⟨g, hd, hp⟩ := hs.data
  have hpending : g.pending = [w.record sequence] :=
    (hp.only i (hpc ▸ List.cons_ne_nil _ _)).symm.trans (hpc ▸ rfl)
  obtain ⟨active, hinsert, -⟩ := hd.insert hpending (hs.active_of_insert hpc)
  exact ⟨active, hinsert⟩

/-- A step of the worker keeps the data, unless the log fails. -/
theorem Data.work {g : Generations} (hd : Data H g s.engine s.history s.worker) (hs : Stages s)
    {fault : Option (WorkerFault F)} {e : KronosEngine F} {pc : WorkerPc}
    (hstep : WorkerStep H fmt s.engine fault s.worker e pc)
    (hworks : ProcessLabel.LogWorks (ι := ι) (.worker fault)) :
    ∃ g', Data H g' e s.history pc ∧ g'.pending = g.pending := by
  have hnoError := hs.noError
  generalize hworker : s.worker = worker at hd hstep hnoError
  -- Each section of the worker moves the generations, or leaves them.
  cases hstep with
  | pop task rest hqueue => exact ⟨g, hd.pop hqueue, rfl⟩
  | drained hempty hclosed => exact ⟨g, hd.move rfl rfl trivial, rfl⟩
  | flush task store edit hprepare =>
    exact ⟨g, hd.flush (hnoError rfl nofun) rfl hprepare, rfl⟩
  | flushThrows task store failure _ hmanifest hkeeps =>
    exact ⟨g, hd.files hmanifest hkeeps rfl rfl trivial, rfl⟩
  | flushFails task store failure hmanifest hkeeps =>
    exact ⟨g, hd.files hmanifest hkeeps rfl rfl trivial, rfl⟩
  | commitFlush task edit fault => exact hd.commitFlush (hnoError rfl nofun) fault
  | clear task flushedThrough =>
    obtain ⟨hclear, hd'⟩ := hd.clear (hnoError rfl nofun)
    rw [hclear]
    exact ⟨_, hd', rfl⟩
  | reclaim flushedThrough fault =>
    cases fault with
    | some fault => exact hworks.elim
    | none =>
      obtain ⟨log, hreclaim, hd'⟩ := hd.reclaim
      rw [hreclaim]
      exact ⟨_, hd', rfl⟩
  | checkSlot =>
    cases s.engine.immutableMemtable.isSome <;> exact ⟨g, hd.move rfl rfl trivial, rfl⟩
  | copyLive => exact ⟨g, hd.move rfl rfl rfl, rfl⟩
  | compactNothing liveFiles hprepare => exact ⟨g, hd.move rfl rfl trivial, rfl⟩
  | compact liveFiles store edit hprepare => exact ⟨g, hd.compact hprepare, rfl⟩
  | compactThrows liveFiles store failure _ hmanifest hkeeps =>
    exact ⟨g, hd.files hmanifest hkeeps rfl rfl trivial, rfl⟩
  | compactFails liveFiles store failure hmanifest hkeeps =>
    exact ⟨g, hd.files hmanifest hkeeps rfl rfl trivial, rfl⟩
  | commitCompaction edit fault => exact hd.commitCompaction fault
  | record task failure => exact ⟨g, hd.record, rfl⟩
  -- With the queue closed behind a failure, nothing is known of the tasks.
  | closeQueue =>
    have hexited : Data H g s.engine s.history .exited := hd.move rfl rfl trivial
    exact ⟨g, { hexited with tasks := hexited.tasks }, rfl⟩

variable [DecidableEq ι]

/-- A call that moves on with its pending record leaves that where it is. -/
theorem Pending.goto {pending : List Record} (h : Pending pending s.calls) {i : ι} {pc : Pc}
    (hpc : pc.pending = (s.calls i).pending) : Pending pending (s.goto i pc).calls := by
  refine h.congr fun j => ?_
  rw [System.calls_goto]
  split_ifs with hj
  · rw [hpc, hj]
  · rfl

/-- What is pending behind the step of the call that holds `write_mutex_`. -/
theorem System.Invariant.pending_goto (hs : s.Invariant H) {i : ι}
    (hheld : Mutex.write ∈ (s.calls i).held) (pc : Pc) :
    Pending pc.pending (s.goto i pc).calls := by
  have hself : (s.goto i pc).calls i = pc := by rw [System.calls_goto, if_pos rfl]
  refine ⟨fun j hj => ?_, fun _ => ⟨i, congrArg Pc.pending hself⟩⟩
  by_cases hne : j = i
  · rw [hne, hself]
  · rw [System.calls_goto, if_neg hne] at hj
    exact absurd (hs.pending_of_ne hheld hne) hj

/-- A section of a call keeps the data. -/
theorem System.Invariant.call (hs : s.Invariant H) {i : ι} {e : KronosEngine F} {h : History ι}
    {pc : Pc} (hstep : CallStep H fmt i s.engine s.history (s.calls i) e h pc) :
    ∃ g, Data H g e h s.worker ∧ Pending g.pending (s.goto i pc).calls := by
  obtain ⟨g, hd, hp⟩ := hs.data
  generalize hcall : s.calls i = pc₀ at hstep
  have hquiet : ∀ {pc : Pc}, pc.pending = pc₀.pending → Pending g.pending (s.goto i pc).calls :=
    fun h => hp.goto (hcall ▸ h)
  cases hstep with
  | prepare w woken =>
    obtain ⟨g', hd', hpending⟩ := hd.prepare (hs.prepares woken w)
    refine ⟨g', hd', hpending ▸ hquiet ?_⟩
    cases (s.engine.prepareForWriteLocked woken w).1 <;> rfl
  -- The record of the append is pending, since no other call has one.
  | append w =>
    have hheld : Mutex.write ∈ (s.calls i).held := hcall ▸ .head _
    have hpending := hs.nothing_pending hp hheld (hcall ▸ rfl)
    rcases hd.append hpending i w with ⟨failure, hrun⟩ | ⟨sequence, wal, hrun, hd'⟩
    · rw [hrun]
      exact ⟨g, hd, hquiet rfl⟩
    · rw [hrun]
      exact ⟨_, hd', hs.pending_goto hheld (.write w (.insert sequence false))⟩
  -- It reaches the active Memtable.
  | insert w sequence =>
    have hheld : Mutex.write ∈ (s.calls i).held := hcall ▸ .head _
    have hpending : g.pending = [w.record sequence] :=
      (hp.only i (hcall ▸ List.cons_ne_nil _ _)).symm.trans (hcall ▸ rfl)
    obtain ⟨active, hinsert, hd'⟩ := hd.insert hpending (hs.active_of_insert hcall)
    rw [hinsert]
    exact ⟨_, hd', hs.pending_goto hheld (.write w (.leave (.ok ())))⟩
  | active key => cases s.engine.lookupActive key <;> exact ⟨g, hd, hquiet rfl⟩
  | immutable key snapshot =>
    cases snapshot.bind (·.memtable.lookupEntry key) <;> exact ⟨g, hd, hquiet rfl⟩
  | file key f rest winner =>
    cases s.engine.store.lookupFile fmt key winner f <;> exact ⟨g, hd, hquiet rfl⟩
  | publish =>
    refine ⟨g, { hd with tasks := hd.tasks }, hquiet ?_⟩
    cases s.engine.shuttingDown <;> rfl
  | drain hgo =>
    obtain ⟨g', hd', hpending⟩ := hd.drain hgo (hs.schedules hcall)
    exact ⟨g', hd', hpending ▸ hquiet rfl⟩
  | close error => exact ⟨g, { hd with tasks := hd.tasks }, hquiet rfl⟩
  | _ => exact ⟨g, hd, hquiet rfl⟩

/-- **The invariant of a process.** It is kept by every step, as long as the reclamation of the log
does not fail. -/
theorem System.Invariant.step {label : ProcessLabel F ι} (hs : s.Invariant H)
    (hstep : ProcessStep H fmt s label s') (hworks : label.LogWorks) : s'.Invariant H := by
  refine ⟨hs.exclusive.step hstep, hs.stages.step hs.exclusive hstep, ?_⟩
  obtain ⟨g, hd, hp⟩ := hs.data
  cases hstep with
  | invoke i request hidle =>
    refine ⟨g, hd, hp.goto ?_⟩
    cases request <;> exact hidle ▸ rfl
  | acquire i m pc hacquires hfree => exact ⟨g, hd, hp.goto (Pc.acquires_pending hacquires)⟩
  | call i e h pc hcall => exact hs.call hcall
  | notify i hpc =>
    exact ⟨g, hd, (hp.goto (hpc ▸ rfl)).congr fun j => Pc.pending_woken _⟩
  | join i error hpc hexited => exact ⟨g, hd, hp.goto (hpc ▸ rfl)⟩
  | wake i => exact ⟨g, hd, hp.goto (Pc.pending_woken _)⟩
  | workerAcquire m pc hacquires hfree =>
    obtain ⟨htask, hclearing, hknows⟩ := WorkerPc.acquires_task hacquires
    exact ⟨g, hd.move htask hclearing (hknows _ _ hd.worker), hp⟩
  | worker fault e pc hworker =>
    obtain ⟨g', hd', hpending⟩ := hd.work hs.stages hworker hworks
    exact ⟨g', hd', hpending ▸ hp⟩
  | notifyCleared flushedThrough hpc =>
    rw [hpc] at hd
    exact ⟨g, hd.move rfl rfl hd.worker, hp.congr fun j => Pc.pending_woken _⟩
  | notifyFailed hpc =>
    rw [hpc] at hd
    exact ⟨g, hd.move rfl rfl trivial, hp.congr fun j => Pc.pending_woken _⟩

end Process

/-! ## A closed directory -/

/-- A call that is not running. -/
def Pc.resting : Pc → Bool
  | idle | wrote .. | got .. | lost _ => true
  | write .. | get .. | shutdown _ | stopped .. => false

/-- The invariant of a directory that no process has open: the log has the records that the MANIFEST
does not cover, with a torn tail, and the live SSTables exist. -/
structure ClosedInvariant {F ι : Type} (H : Hashing) (log : Bytes) (store : Store F)
    (calls : ι → Pc) (h : History ι) : Prop where
  directory : ∃ dropped front back, Reopens H store log dropped front back ∧
    h.records = dropped ++ front ++ back
  named : store.Named
  resting : ∀ i, (calls i).resting = true

/-- The invariant of the life of a directory. -/
def Node.Invariant {F ι : Type} (H : Hashing) : Node F ι → Prop
  | running s => s.Invariant H
  | closed log store calls h => ClosedInvariant H log store calls h

/-- Behind a crash no call runs. -/
theorem Pc.resting_lose (n : ℕ) (pc : Pc) : (pc.lose n).resting = true := by
  cases pc <;> rfl

/-- A call that does not run holds nothing, and has nothing on its way. -/
theorem Pc.quiet_of_resting {pc : Pc} (h : pc.resting = true) :
    pc.held = [] ∧ pc.stage = 0 ∧ pc.writing = false ∧ pc.pending = [] := by
  cases pc with
  | idle => exact ⟨rfl, rfl, rfl, rfl⟩
  | wrote w result => exact ⟨rfl, rfl, rfl, rfl⟩
  | got key result => exact ⟨rfl, rfl, rfl, rfl⟩
  | lost crash => exact ⟨rfl, rfl, rfl, rfl⟩
  | _ => cases h

section Life

variable {F R ι : Type} {H : Hashing} {fmt : TableFormat F R}

/-- A directory with the log of an engine, perhaps with one record more and a torn tail, and with a
MANIFEST file that covers the released records, perhaps with those of the slot. -/
theorem Generations.reopens {g : Generations} {d : List Record}
    (hcovered : d = g.old ∨ d = g.old ++ g.sealed) {store : Store F}
    (hcheckpoint : store.manifest.persistedThrough = lastSequence d) {kept : List Record}
    (hv : Wal.ValidHistory (g.records ++ kept)) {t : Bytes} (ht : Wal.TornTail H t) :
    ∃ dropped front back,
      Reopens H store (Wal.header ++ Wal.encodeRecords H (g.logged ++ kept) ++ t)
        dropped front back ∧ g.records ++ kept = dropped ++ front ++ back := by
  rcases hcovered with rfl | rfl
  · have hrecords : g.records ++ kept =
        g.reclaimed ++ g.flushed ++ (g.sealed ++ g.recent ++ g.pending ++ kept) := by
      simp [Generations.records, Generations.applied, Generations.old]
    have hlogged : g.logged ++ kept =
        g.flushed ++ (g.sealed ++ g.recent ++ g.pending ++ kept) := by
      simp [Generations.logged]
    exact ⟨_, _, _, ⟨hrecords ▸ hv, hcheckpoint, t, by rw [hlogged], ht⟩, hrecords⟩
  · have hrecords : g.records ++ kept =
        g.reclaimed ++ (g.flushed ++ g.sealed) ++ (g.recent ++ g.pending ++ kept) := by
      simp [Generations.records, Generations.applied, Generations.old]
    have hlogged : g.logged ++ kept =
        (g.flushed ++ g.sealed) ++ (g.recent ++ g.pending ++ kept) := by
      simp [Generations.logged]
    have hold : g.old ++ g.sealed = g.reclaimed ++ (g.flushed ++ g.sealed) :=
      List.append_assoc _ _ _
    exact ⟨_, _, _, ⟨hrecords ▸ hv, hold ▸ hcheckpoint, t, by rw [hlogged], ht⟩, hrecords⟩

namespace Data

variable {g : Generations} {e : KronosEngine F} {h : History ι} {worker : WorkerPc}

/-- What the MANIFEST file covers are the released records, perhaps with those of the slot. -/
theorem durable_cases (hd : Data H g e h worker) :
    g.durable = g.old ∨ g.durable = g.old ++ g.sealed := by
  refine hd.durable.elim (fun hcovered => ?_) .inr
  rw [hcovered, Generations.covered]
  split_ifs
  · exact .inr rfl
  · exact .inl rfl

/-- The file of the log. -/
theorem file_eq (hd : Data H g e h worker) :
    e.log.wal.file = Wal.header ++ Wal.encodeRecords H g.logged := by
  obtain ⟨t, hfile, -, htail⟩ := hd.log.file
  obtain rfl : t = [] := htail.resolve_left nofun
  rw [hfile, List.append_nil]

/-- The log that a crash leaves. -/
theorem atPath_eq (hd : Data H g e h worker) :
    e.log.atPath = Wal.header ++ Wal.encodeRecords H g.logged := by
  rw [LogFiles.atPath, hd.named, Option.getD_none, hd.file_eq]

/-- The same, with the log as it is. -/
theorem reopens_log (hd : Data H g e h worker) {d : List Record}
    (hcovered : d = g.old ∨ d = g.old ++ g.sealed) {store : Store F}
    (hcheckpoint : store.manifest.persistedThrough = lastSequence d) :
    ∃ dropped front back, Reopens H store (Wal.header ++ Wal.encodeRecords H g.logged)
      dropped front back ∧ h.records = dropped ++ front ++ back := by
  have hreopens := @Generations.reopens F H g d hcovered store hcheckpoint []
    (by rw [List.append_nil]; exact hd.history) [] (Wal.tornTail_nil H)
  rw [List.append_nil, List.append_nil, List.append_nil] at hreopens
  rw [hd.records]
  exact hreopens

/-- A record that an interrupted append leaves whole extends the history. -/
theorem history_kept (hd : Data H g e h worker) (c : Wal.Call) :
    Wal.ValidHistory (g.records ++ c.kept H e.log.wal) := by
  have hrecord : ∀ tail, c.leaves H e.log.wal = some tail →
      Wal.ValidHistory (g.records ++ [c.record e.log.wal.nextSequence]) := by
    intro tail hleaves
    obtain ⟨hmax, hwritable⟩ := Wal.Call.leaves_some hleaves
    exact hd.history.append hwritable (lt_of_le_of_ne hd.log.bounded hmax) hd.fresh
  have hnone : Wal.ValidHistory (g.records ++ []) := by
    rw [List.append_nil]
    exact hd.history
  unfold Wal.Call.kept
  cases hleaves : c.leaves H e.log.wal with
  | none => exact hnone
  | some tail =>
    cases tail with
    | synced => exact hrecord _ hleaves
    | unsynced => exact hrecord _ hleaves
    | torn => exact hnone

end Data

variable {s : System F ι}

/-- A crash leaves a directory with the invariant. -/
theorem closedInvariant_of_crash {log : Bytes} {store : Store F} {kept : List (ι × Record)}
    (hdirectory : ∃ dropped front back, Reopens H store log dropped front back ∧
      s.history.records ++ kept.map Prod.snd = dropped ++ front ++ back)
    (hnamed : store.Named) : (s.crashed log store kept).Invariant H := by
  refine ⟨?_, hnamed, fun i => Pc.resting_lose _ _⟩
  have hrecords : (s.lostHistory kept).records = s.history.records ++ kept.map Prod.snd :=
    List.map_append
  rw [hrecords]
  exact hdirectory

/-- What the worker commits covers the released records, perhaps with those of the slot. -/
theorem System.Invariant.commit_covers (hs : s.Invariant H) {g : Generations}
    (hd : Data H g s.engine s.history s.worker) {edit : ManifestEdit} {store : Store F}
    (hcommitting : s.committing = some edit) (hcommit : s.engine.store.commit edit = .ok store) :
    store.Named ∧ ∃ d, (d = g.old ∨ d = g.old ++ g.sealed) ∧
      store.manifest.persistedThrough = lastSequence d := by
  have hnoError := hs.stages.noError
  unfold System.committing at hcommitting
  generalize s.worker = worker at hd hcommitting hnoError
  split at hcommitting
  · cases hcommitting
    have hok := hd.commit_of_flush (hnoError rfl nofun)
    obtain rfl := Except.ok.inj (hok.symm.trans hcommit)
    exact ⟨hd.worker.1.named hd.live _, _, .inr rfl, rfl⟩
  · cases hcommitting
    obtain ⟨hedits, hthrough⟩ := hd.worker
    obtain ⟨checkpoint, rfl, hadvance⟩ := hedits.commit_ok hd.live hcommit
    rw [hthrough] at hadvance
    cases hadvance
    exact ⟨hedits.named hd.live _, _, .inl rfl, hd.checkpoint⟩
  · cases hcommitting

/-- An engine that was just constructed has the invariant. -/
theorem invariant_of_constructed {store : Store F} {e : KronosEngine F}
    {dropped front back : List Record} {log : Bytes}
    (hreopens : Reopens H store log dropped front back)
    (h : Constructed H store e dropped front back) (hnamed : store.Named) {calls : ι → Pc}
    (hresting : ∀ i, (calls i).resting = true) {history : History ι}
    (hrecords : history.records = dropped ++ front ++ back) :
    System.Invariant H ⟨e, .pop, calls, { history with applied := history.records }⟩ := by
  -- No call is under way, so that everything about calls is void.
  have hquiet := fun i => Pc.quiet_of_resting (hresting i)
  have hstage : ∀ {i : ι} {n : ℕ}, 0 < n → ¬n ≤ (calls i).stage := by
    intro i n hn hle
    rw [(hquiet i).2.1] at hle
    exact absurd (hn.trans_le hle) (lt_irrefl 0)
  obtain ⟨active, hactive, hstate, hreplays⟩ := h.active
  -- What the log had is in the active Memtable, and the rest in the SSTables.
  have hg : Generations.records ⟨dropped, front, [], back, [], dropped ++ front⟩ =
      dropped ++ front ++ back := by
    simp [Generations.records, Generations.applied, Generations.old]
  refine ⟨⟨fun m i j hi => ?_, fun m i hi => ?_⟩,
    ⟨fun i j hi => absurd hi (hstage Nat.one_pos), fun i hi => absurd hi (hstage Nat.one_pos),
      fun hflag => ?_, fun i j hi => absurd hi (hstage (Nat.succ_pos 2)), fun hnone => ?_,
      fun hclosed => ?_, fun i hi => absurd hi (hstage (Nat.succ_pos 5)),
      fun hexited => absurd hexited WorkerPc.noConfusion,
      fun hending => absurd hending Bool.false_ne_true, fun herror => ?_⟩,
    ⟨⟨dropped, front, [], back, [], dropped ++ front⟩, ⟨hg ▸ hreopens.history, hg ▸ hrecords, ?_,
      ?_, h.named, hg ▸ h.fresh, fun m hm => ?_, fun hnone => ?_, fun task htask => ?_,
      fun _ => rfl,
      fun _ => ?_, ?_, ?_, ?_, ?_, .inl rfl, trivial⟩, fun i hi => ?_, fun hne => absurd rfl hne⟩⟩
  · rw [(hquiet i).1] at hi
    cases hi
  · rw [(hquiet i).1] at hi
    cases hi
  · rw [h.shuttingDown] at hflag
    cases hflag
  · rw [hactive] at hnone
    cases hnone
  · rw [h.opened] at hclosed
    cases hclosed
  · rw [h.backgroundError] at herror
    cases herror
  · show history.records = _
    rw [hrecords]
    simp [Generations.applied, Generations.old]
  · have hlogged : Generations.logged ⟨dropped, front, [], back, [], dropped ++ front⟩ =
        front ++ back := by
      simp [Generations.logged]
    rw [hlogged]
    exact h.log
  · cases hactive.symm.trans hm
    exact ⟨hstate, hreplays⟩
  · rw [hactive] at hnone
    cases hnone
  · rw [h.immutable] at htask
    cases htask
  · rw [h.queue, h.immutable]
    rfl
  · rw [h.store]
    exact hnamed.of_manifest_eq rfl (Store.KeepsFiles.refl _)
  · rw [h.store]
    exact hreopens.checkpoint
  · rw [h.store, h.durable]
    exact hnamed.of_manifest_eq rfl (Store.KeepsFiles.refl _)
  · rw [h.durable]
    exact hreopens.checkpoint
  · exact absurd (hquiet i).2.2.2 hi

/-- The constructor over a directory without a log starts with an empty one. -/
theorem construct_none (H : Hashing) (fmt : TableFormat F R) (store : Store F)
    (memtableTargetBytes : ℕ) (compactionPolicy : CompactionPolicy) :
    KronosEngine.construct H fmt store none memtableTargetBytes compactionPolicy =
      KronosEngine.construct H fmt store (some Wal.header) memtableTargetBytes
        compactionPolicy := by
  have hconstruct : Wal.construct none = Wal.construct (some Wal.header) := by decide
  unfold KronosEngine.construct start
  rw [hconstruct]

/-- An empty directory. -/
theorem reopens_empty (H : Hashing) : Reopens H (Store.empty : Store F) Wal.header [] [] [] where
  history := ⟨nofun, nofun, .nil⟩
  checkpoint := rfl
  log := ⟨[], by simp, Wal.tornTail_nil H⟩

/-- What is opened over a directory with the invariant. -/
theorem constructed_of_ok {store : Store F} {log : Bytes} {dropped front back : List Record}
    (hreopens : Reopens H store log dropped front back) {memtableTargetBytes : ℕ}
    {compactionPolicy : CompactionPolicy} {e : KronosEngine F}
    (hok : KronosEngine.construct H fmt store (some log) memtableTargetBytes compactionPolicy =
      .ok e) : Constructed H store e dropped front back := by
  obtain ⟨e', hconstruct, hconstructed⟩ :=
    @construct_spec _ _ _ fmt _ _ _ _ _ hreopens memtableTargetBytes compactionPolicy
  rw [hconstruct] at hok
  obtain ⟨_, -, hok⟩ := bind_eq_ok hok
  cases hok
  exact hconstructed

/-- The invariant holds behind the opening of an empty directory. -/
theorem invariant_of_firstOpened (h : FirstOpened H fmt s) : s.Invariant H := by
  obtain ⟨e, memtableTargetBytes, compactionPolicy, hok, rfl⟩ := h
  rw [construct_none] at hok
  exact @invariant_of_constructed F ι H _ e [] [] [] _ (reopens_empty H)
    (constructed_of_ok (reopens_empty H) hok) Store.named_empty (fun _ => .idle) (fun _ => rfl)
    .empty rfl

variable [DecidableEq ι]

omit [DecidableEq ι] in
/-- A crash inside a recovery leaves the records. -/
theorem ClosedInvariant.crashInRecovery {log : Bytes} {store : Store F} {calls : ι → Pc}
    {history : History ι} (h : ClosedInvariant H log store calls history) {w : Wal}
    (point : Option Wal.RecoverFault) (hconstruct : Wal.construct (some log) = .ok w) :
    ClosedInvariant H (Wal.recoverWith H point w).2.file store calls history := by
  obtain ⟨⟨dropped, front, back, hreopens, hrecords⟩, hnamed, hresting⟩ := h
  obtain ⟨t, hlog, ht⟩ := hreopens.log
  have hv : Wal.ValidHistory (front ++ back) := hreopens.history.sublist
    (by rw [List.append_assoc]; exact List.sublist_append_right _ _)
  have hprefix : Wal.header <+: log := by
    rw [hlog, List.append_assoc]
    exact List.prefix_append _ _
  have hw : w.file = log := by
    rw [Wal.construct_of_header hprefix] at hconstruct
    cases hconstruct
    rfl
  have hcontains := Wal.contains_of_tornTail hv ht
  rw [← hlog, ← hw] at hcontains
  have hspec := Wal.recoverWith_spec hcontains point
  refine ⟨⟨dropped, front, back, ⟨hreopens.history, hreopens.checkpoint, ?_⟩, hrecords⟩, hnamed,
    hresting⟩
  -- The recovery leaves the file, or truncates its torn tail.
  have htail : (Wal.recoverWith H point w).2.file = w.file ∨
      (Wal.recoverWith H point w).2.file =
        Wal.header ++ Wal.encodeRecords H (front ++ back) := by
    rcases hresult : Wal.recoverWith H point w with ⟨failure | records, w'⟩
    · rw [hresult] at hspec
      exact hspec.file_of_error
    · rw [hresult] at hspec
      cases hspec
      exact .inr rfl
  rcases htail with hfile | hfile
  · exact ⟨t, by rw [hfile, hw, hlog], ht⟩
  · exact ⟨[], by rw [hfile, List.append_nil], Wal.tornTail_nil H⟩

/-- **The invariant of a directory.** It is kept by every step in its life. -/
theorem Node.Invariant.step {node node' : Node F ι} {label : LifeLabel F ι}
    (hs : node.Invariant H) (hstep : LifeStep H fmt node label node') : node'.Invariant H := by
  cases hstep with
  | process label hstep hworks => exact System.Invariant.step hs hstep hworks
  -- The log and the durable MANIFEST are what a process opens again.
  | @crash s store hmanifest hkeeps =>
    obtain ⟨g, hd, -⟩ := System.Invariant.data hs
    refine closedInvariant_of_crash ?_ (hd.durableLive.of_manifest_eq hmanifest hkeeps)
    rw [hd.atPath_eq, List.map_nil, List.append_nil]
    exact hd.reopens_log hd.durable_cases (hmanifest ▸ hd.durableCheckpoint)
  | @crashInAppend s i w fault hpc =>
    obtain ⟨g, hd, -⟩ := System.Invariant.data hs
    have hend := @Wal.AtEnd.run H .synced s.engine.log.wal g.logged (w.call (some fault)) hd.log
      trivial
    obtain ⟨t, hfile, ht, -⟩ := hend.file
    refine closedInvariant_of_crash ?_ hd.durableLive
    -- The file ends with the record, if it was complete, or with the bytes of one that was not.
    have hpath : LogFiles.atPath { s.engine.log with
        wal := ((w.call (some fault)).run H s.engine.log.wal).2 } =
        Wal.header ++ Wal.encodeRecords H (g.logged ++
          (w.call (some fault)).kept H s.engine.log.wal) ++ t := by
      simp only [LogFiles.atPath, hd.named, Option.getD_none, hfile]
    rw [hpath, List.map_map, hd.records]
    have hmap : ((w.call (some fault)).kept H s.engine.log.wal).map
        (Prod.snd ∘ fun r => (i, r)) = (w.call (some fault)).kept H s.engine.log.wal :=
      List.map_id _
    rw [hmap]
    exact g.reopens hd.durable_cases hd.durableCheckpoint (hd.history_kept _) ht
  -- The edit has been made durable, and covers more of the log.
  | @crashInCommit s edit store hcommitting hcommit =>
    have hs : s.Invariant H := hs
    obtain ⟨g, hd, -⟩ := hs.data
    obtain ⟨hnamed, d, hcovers, hcheckpoint⟩ := hs.commit_covers hd hcommitting hcommit
    refine closedInvariant_of_crash ?_ hnamed
    rw [hd.atPath_eq, List.map_nil, List.append_nil]
    exact hd.reopens_log hcovers hcheckpoint
  -- The name leads to the old log, or to the new one.
  | @crashInReclaim s flushedThrough point hworker =>
    obtain ⟨g, hd, -⟩ := System.Invariant.data hs
    refine closedInvariant_of_crash ?_ hd.durableLive
    rw [List.map_nil, List.append_nil]
    have hcontains := Wal.contains_records H hd.log.history
    rw [← hd.file_eq] at hcontains
    rw [hworker] at hd
    rcases Wal.reclaimCrash_atPath flushedThrough point hcontains hd.named with
      hpath | hpath | hpath
    · rw [hpath, hd.file_eq]
      exact hd.reopens_log hd.durable_cases hd.durableCheckpoint
    · rw [hpath]
      exact hd.reopens_log hd.durable_cases hd.durableCheckpoint
    · obtain ⟨log, -, hd'⟩ := hd.reclaim
      rw [hpath, hd.survivors_logged hd.worker]
      exact hd'.reopens_log hd'.durable_cases hd.durableCheckpoint
  | @crashInRecovery log store calls history w point hconstruct =>
    exact ClosedInvariant.crashInRecovery hs point hconstruct
  | @reopen log store calls history e memtableTargetBytes compactionPolicy hok =>
    obtain ⟨⟨dropped, front, back, hreopens, hrecords⟩, hnamed, hresting⟩ := hs
    exact invariant_of_constructed hreopens
      (constructed_of_ok hreopens hok) hnamed hresting hrecords

/-- Every state in the life of a directory has the invariant. -/
theorem invariant_of_reachable {node : Node F ι} (h : (life H fmt).Reachable node) :
    node.Invariant H := by
  refine @Lts.Reachable.invariant _ _ (life H fmt) (Node.Invariant H) ?_ ?_ node h
  · rintro _ ⟨s, hopened, rfl⟩
    exact invariant_of_firstOpened hopened
  · exact fun node label node' hs hstep => Node.Invariant.step hs hstep

/-- What holds behind every opening, and is kept by the steps of a process, holds of every process
in the life of a directory. -/
theorem running_invariant {P : System F ι → Prop}
    (hopened : ∀ e calls history, (∀ i, (calls i).resting = true) → P ⟨e, .pop, calls, history⟩)
    (hstep : ∀ s label s', s.Invariant H → P s → ProcessStep H fmt s label s' → P s')
    (h : (life H fmt).Reachable (.running s)) : P s := by
  refine (@Lts.Reachable.invariant _ _ (life H fmt)
    (fun node => node.Invariant H ∧ ∀ t, node = .running t → P t) ?_ ?_ _ h).2 s rfl
  · rintro _ ⟨s, hfirst, rfl⟩
    refine ⟨invariant_of_firstOpened hfirst, ?_⟩
    obtain ⟨e, memtableTargetBytes, compactionPolicy, -, rfl⟩ := hfirst
    rintro _ ⟨⟩
    exact hopened _ _ _ fun _ => rfl
  · rintro node label node' ⟨hinv, hP⟩ hlife
    refine ⟨hinv.step hlife, ?_⟩
    cases hlife with
    | process label hprocess _ =>
      rintro _ ⟨⟩
      exact hstep _ _ _ hinv (hP _ rfl) hprocess
    | reopen memtableTargetBytes compactionPolicy _ =>
      rintro _ ⟨⟩
      obtain ⟨-, -, hresting⟩ := hinv
      exact hopened _ _ _ hresting
    | _ =>
      intro t ht
      cases ht

/-- An engine that was just opened has it. -/
theorem invariant_of_opened (h : Opened H fmt s) : s.Invariant H := by
  rcases h with h | ⟨node, memtableTargetBytes, compactionPolicy, hreachable, hstep⟩
  · exact invariant_of_firstOpened h
  · exact Node.Invariant.step (invariant_of_reachable hreachable) hstep

/-- The runs of a process whose reclamations do not fail. -/
def logWorks (H : Hashing) (fmt : TableFormat F R) : Lts (System F ι) (ProcessLabel F ι) :=
  (process H fmt).restrict fun _ label => label.LogWorks

/-- Every state of such a process has the invariant. -/
theorem invariant_of_logWorks (h : (logWorks H fmt).Reachable s) : s.Invariant H := by
  refine @Lts.Reachable.invariant _ _ (logWorks H fmt) (System.Invariant H) ?_ ?_ s h
  · exact fun s hopened => invariant_of_opened hopened
  · exact fun s label s' hs hstep => hs.step hstep.1 hstep.2

/-- What such a process reaches is reached in the life of its directory. -/
theorem life_of_logWorks (h : (logWorks H fmt).Reachable s) :
    (life H fmt).Reachable (.running s) := by
  refine @Lts.Reachable.invariant _ _ (logWorks H fmt)
    (fun s => (life H fmt).Reachable (.running s)) ?_ ?_ s h
  · rintro s (hopened | ⟨node, memtableTargetBytes, compactionPolicy, hreachable, hstep⟩)
    · exact .initial ⟨s, hopened, rfl⟩
    · exact hreachable.step hstep
  · exact fun s label s' hs hstep => hs.step (.process label hstep.1 hstep.2)

end Life

end Kronos
