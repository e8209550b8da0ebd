import Mathlib.Logic.Function.Basic
import Kronos.Base.Lts
import Kronos.Engine.Model
import Kronos.Lsm.Tables

/-!
# The engine as a system of threads

Any number of calls of `put`, `remove`, `get` and `shutdown`, and the maintenance worker, run over
one `KronosEngine`. A program counter says where each of them stands in `src/engine.cpp`. A thread
acquires a mutex in a step of its own, when nobody holds it, and runs a critical section in one
step, so that any order in which threads get a released mutex is a run. A thread that waits on
`immutable_cleared_cv_` sleeps until a notification, or until it wakes for no reason, and then
acquires its mutex again.

`process` is the system of one engine from a state on. `life` adds that the process dies, at any
point between two durable effects or inside one, and that the directory is opened again. Beside the
engine, a state has a history that no step reads: the records that the log has taken, in order, and
those that have reached a Memtable.
-/

namespace Kronos

/-- The mutexes of a `KronosEngine`. The queue has one of its own, which is held for single
operations only. -/
inductive Mutex where
  | write
  | state
  | manifest
  deriving DecidableEq, Repr

/-- A mutex, if a section has it. -/
def Mutex.heldIf (m : Mutex) (locked : Bool) : List Mutex := if locked then [m] else []

/-! ## Program counters -/

/-- The points of `put` and `remove`. From `prepare` on, the call holds `write_mutex_`; `locked`
says whether it holds `state_mutex_` for the section that comes. -/
inductive WritePoint where
  | enter
  | prepare (woken locked : Bool)
  | asleep
  | append
  | insert (sequence : ℕ) (locked : Bool)
  | leave (result : Except Failure Unit)

/-- The points of `get`. -/
inductive GetPoint where
  | active (locked : Bool)
  | immutable (snapshot : Option SharedMemtable)
  | copy (locked : Bool)
  | files (rest : List SstableMetadata) (winner : Option InternalEntry)

/-- The points of `shutdown`, with the exception that it has remembered. -/
inductive ShutdownPoint where
  | publish (locked : Bool)
  | notify
  | barrier (locked : Bool)
  | drain (locked : Bool)
  | asleep
  | close (error : Option Failure)
  | join (error : Option Failure)
  | report (error : Option Failure) (locked : Bool)

/-- Where a call stands. The first call of `shutdown` is the one that does not return at once. A
call that the process dies in is lost, with the number of the crash. -/
inductive Pc where
  | idle
  | write (w : Write) (point : WritePoint)
  | get (key : Bytes) (point : GetPoint)
  | shutdown (point : ShutdownPoint)
  | wrote (w : Write) (result : Except Failure Unit)
  | got (key : Bytes) (result : Except Failure GetResult)
  | stopped (first : Bool) (result : Except Failure Unit)
  | lost (crash : ℕ)

/-- Where the maintenance worker stands in `backgroundWorkerLoop`, `flushMemtable` and
`maybeCompact`. A failure carries the task whose slot is not released. -/
inductive WorkerPc where
  | pop
  | flush (task : SharedMemtable)
  | commitFlush (task : SharedMemtable) (edit : ManifestEdit) (locked : Bool)
  | clear (task : SharedMemtable) (flushedThrough : ℕ) (locked : Bool)
  | notifyCleared (flushedThrough : ℕ)
  | reclaim (flushedThrough : ℕ) (locked : Bool)
  | checkSlot (locked : Bool)
  | copyLive (locked : Bool)
  | compact (liveFiles : List SstableMetadata)
  | commitCompaction (edit : ManifestEdit) (locked : Bool)
  | failed (task : Option SharedMemtable) (failure : Failure) (locked : Bool)
  | notifyFailed
  | closeQueue
  | exited

/-- The mutexes that a writer holds. -/
def WritePoint.held : WritePoint → List Mutex
  | enter => []
  | prepare _ locked | insert _ locked => .write :: Mutex.state.heldIf locked
  | asleep | append | leave _ => [.write]

/-- The mutexes that a reader holds. -/
def GetPoint.held : GetPoint → List Mutex
  | active locked => Mutex.state.heldIf locked
  | copy locked => Mutex.manifest.heldIf locked
  | immutable _ | files .. => []

/-- The mutexes that a call of `shutdown` holds. -/
def ShutdownPoint.held : ShutdownPoint → List Mutex
  | publish locked | drain locked | report _ locked => Mutex.state.heldIf locked
  | barrier locked => Mutex.write.heldIf locked
  | notify | asleep | close _ | join _ => []

/-- The mutexes that a call holds. -/
def Pc.held : Pc → List Mutex
  | write _ point => point.held
  | get _ point => point.held
  | shutdown point => point.held
  | idle | wrote .. | got .. | stopped .. | lost _ => []

/-- The mutexes that the worker holds. -/
def WorkerPc.held : WorkerPc → List Mutex
  | commitFlush _ _ locked | copyLive locked | commitCompaction _ locked =>
    Mutex.manifest.heldIf locked
  | clear _ _ locked | checkSlot locked | failed _ _ locked => Mutex.state.heldIf locked
  | reclaim _ locked => Mutex.write.heldIf locked
  | _ => []

/-- The mutex that a call acquires next, and where it stands then. -/
def Pc.acquires : Pc → Option (Mutex × Pc)
  | write w .enter => some (.write, write w (.prepare false false))
  | write w (.prepare woken false) => some (.state, write w (.prepare woken true))
  | write w (.insert sequence false) => some (.state, write w (.insert sequence true))
  | get key (.active false) => some (.state, get key (.active true))
  | get key (.copy false) => some (.manifest, get key (.copy true))
  | shutdown (.publish false) => some (.state, shutdown (.publish true))
  | shutdown (.barrier false) => some (.write, shutdown (.barrier true))
  | shutdown (.drain false) => some (.state, shutdown (.drain true))
  | shutdown (.report error false) => some (.state, shutdown (.report error true))
  | _ => none

/-- The mutex that the worker acquires next, and where it stands then. -/
def WorkerPc.acquires : WorkerPc → Option (Mutex × WorkerPc)
  | commitFlush task edit false => some (.manifest, commitFlush task edit true)
  | clear task flushedThrough false => some (.state, clear task flushedThrough true)
  | reclaim flushedThrough false => some (.write, reclaim flushedThrough true)
  | checkSlot false => some (.state, checkSlot true)
  | copyLive false => some (.manifest, copyLive true)
  | commitCompaction edit false => some (.manifest, commitCompaction edit true)
  | failed task failure false => some (.state, failed task failure true)
  | _ => none

/-- Where a call stands behind a notification of `immutable_cleared_cv_`. -/
def Pc.woken : Pc → Pc
  | write w .asleep => write w (.prepare true false)
  | shutdown .asleep => shutdown (.drain false)
  | pc => pc

/-- Where a call stands behind the `n`th crash: a write or a read that has returned has returned,
and a shutdown is one of an engine that is gone. -/
def Pc.lose (n : ℕ) : Pc → Pc
  | write .. | get .. | shutdown _ | stopped .. => lost n
  | pc => pc

/-- What a call is made for. -/
inductive Request where
  | write (w : Write)
  | get (key : Bytes)
  | shutdown
  deriving DecidableEq, Repr

/-- Where a call begins. -/
def Request.start : Request → Pc
  | write w => .write w .enter
  | get key => .get key (.active false)
  | shutdown => .shutdown (.publish false)

/-! ## The steps of a call -/

/-- The records that the log has taken, each with the call that it is from, those that have reached
a Memtable, and the number of crashes. -/
structure History (ι : Type) where
  logged : List (ι × Record)
  applied : List Record
  crashes : ℕ

namespace History

variable {ι : Type}

/-- The history at the beginning. -/
def empty : History ι := ⟨[], [], 0⟩

/-- The records of the log, in order. -/
def records (h : History ι) : List Record := h.logged.map Prod.snd

/-- An append that returned has put a record in the log. -/
def append (h : History ι) (i : ι) (w : Write) : Except Failure ℕ → History ι
  | .ok sequence => { h with logged := h.logged ++ [(i, w.record sequence)] }
  | .error _ => h

/-- A record reaches the active Memtable. -/
def insert (h : History ι) (w : Write) (sequence : ℕ) : Except Failure Unit → History ι
  | .ok () => { h with applied := h.applied ++ [w.record sequence] }
  | .error _ => h

end History

/-- Where `prepareForWriteLocked` leaves a writer. -/
def KronosEngine.Prepared.point : KronosEngine.Prepared → WritePoint
  | ready => .append
  | waits => .asleep
  | threw failure => .leave (.error failure)

/-- Where the append leaves a writer. -/
def WritePoint.behindAppend : Except Failure ℕ → WritePoint
  | .ok sequence => .insert sequence false
  | .error failure => .leave (.error failure)

/-- The failure of a result, if it is one. -/
def failureOf {α : Type} : Except Failure α → Option Failure
  | .ok _ => none
  | .error failure => some failure

/-- What a shutdown reports: the exception that it has remembered, or else the worker's failure. -/
def shutdownResult (error backgroundError : Option Failure) : Except Failure Unit :=
  match error.or backgroundError with
  | some failure => .error failure
  | none => .ok ()

section Steps

variable {F R ι : Type} (H : Hashing) (fmt : TableFormat F R)

/-- A step of a call that changes the engine, the history and its own program counter only. -/
inductive CallStep (i : ι) (e : KronosEngine F) (h : History ι) :
    Pc → KronosEngine F → History ι → Pc → Prop where
  | prepare (w : Write) (woken : Bool) :
    CallStep i e h (.write w (.prepare woken true)) (e.prepareForWriteLocked woken w).2 h
      (.write w (e.prepareForWriteLocked woken w).1.point)
  | append (w : Write) :
    CallStep i e h (.write w .append)
      { e with log := { e.log with wal := ((w.call none).run H e.log.wal).2 } }
      (h.append i w ((w.call none).run H e.log.wal).1)
      (.write w (.behindAppend ((w.call none).run H e.log.wal).1))
  | insert (w : Write) (sequence : ℕ) :
    CallStep i e h (.write w (.insert sequence true)) (e.insertLocked w sequence).2
      (h.insert w sequence (e.insertLocked w sequence).1)
      (.write w (.leave (e.insertLocked w sequence).1))
  | leave (w : Write) (result : Except Failure Unit) :
    CallStep i e h (.write w (.leave result)) e h (.wrote w result)
  | active (key : Bytes) :
    CallStep i e h (.get key (.active true)) e h
      (match e.lookupActive key with
      | some entry => .got key (.ok (GetResult.of (some entry)))
      | none => .get key (.immutable e.immutableMemtable))
  | immutable (key : Bytes) (snapshot : Option SharedMemtable) :
    CallStep i e h (.get key (.immutable snapshot)) e h
      (match snapshot.bind (·.memtable.lookupEntry key) with
      | some entry => .got key (.ok (GetResult.of (some entry)))
      | none => .get key (.copy false))
  | copy (key : Bytes) :
    CallStep i e h (.get key (.copy true)) e h (.get key (.files e.store.manifest.liveFiles none))
  | file (key : Bytes) (f : SstableMetadata) (rest : List SstableMetadata)
      (winner : Option InternalEntry) :
    CallStep i e h (.get key (.files (f :: rest) winner)) e h
      (match e.store.lookupFile fmt key winner f with
      | .ok winner => .get key (.files rest winner)
      | .error failure => .got key (.error failure))
  | answer (key : Bytes) (winner : Option InternalEntry) :
    CallStep i e h (.get key (.files [] winner)) e h (.got key (.ok (GetResult.of winner)))
  | publish :
    CallStep i e h (.shutdown (.publish true)) { e with shuttingDown := true } h
      (if e.shuttingDown then .stopped false (.ok ()) else .shutdown .notify)
  | barrier :
    CallStep i e h (.shutdown (.barrier true)) e h (.shutdown (.drain false))
  | wait : e.shutdownMayGoOn = false →
    CallStep i e h (.shutdown (.drain true)) e h (.shutdown .asleep)
  | drain : e.shutdownMayGoOn = true →
    CallStep i e h (.shutdown (.drain true)) e.scheduleFinalMemtable.2 h
      (.shutdown (.close (failureOf e.scheduleFinalMemtable.1)))
  | close (error : Option Failure) :
    CallStep i e h (.shutdown (.close error)) { e with queueClosed := true } h
      (.shutdown (.join error))
  | report (error : Option Failure) :
    CallStep i e h (.shutdown (.report error true)) e h
      (.stopped true (shutdownResult error e.backgroundError))

/-! ## The steps of the worker -/

/-- A failure of the I/O of the worker: of a job before its commit, which leaves the MANIFEST and
the files that were there, of a commit, or of a reclamation. -/
inductive WorkerFault (F : Type) where
  | job (failure : Failure) (store : Store F)
  | commit (fault : KronosEngine.CommitFault)
  | reclaim (fault : Wal.ReclaimFault)

/-- Where a section of a job leaves the worker. -/
def WorkerPc.behind (task : Option SharedMemtable) (next : WorkerPc) :
    Except Failure Unit → WorkerPc
  | .ok () => next
  | .error failure => .failed task failure false

/-- A step of the worker that changes the engine and its own program counter only. A job that throws
before its commit leaves its new files, if it has written any. -/
inductive WorkerStep (e : KronosEngine F) :
    Option (WorkerFault F) → WorkerPc → KronosEngine F → WorkerPc → Prop where
  | pop (task : SharedMemtable) (rest : List SharedMemtable) : e.flushQueue = task :: rest →
    WorkerStep e none .pop { e with flushQueue := rest } (.flush task)
  | drained : e.flushQueue = [] → e.queueClosed = true → WorkerStep e none .pop e .exited
  | flush (task : SharedMemtable) (store : Store F) (edit : ManifestEdit) :
    e.store.prepareFlush fmt task.memtable = .ok (store, edit) →
    WorkerStep e none (.flush task) { e with store := store } (.commitFlush task edit false)
  | flushThrows (task : SharedMemtable) (store : Store F) (failure : Failure) :
    e.store.prepareFlush fmt task.memtable = .error failure →
    store.manifest = e.store.manifest → Store.KeepsFiles e.store store →
    WorkerStep e none (.flush task) { e with store := store } (.failed (some task) failure false)
  | flushFails (task : SharedMemtable) (store : Store F) (failure : Failure) :
    store.manifest = e.store.manifest → Store.KeepsFiles e.store store →
    WorkerStep e (some (.job failure store)) (.flush task) { e with store := store }
      (.failed (some task) failure false)
  | commitFlush (task : SharedMemtable) (edit : ManifestEdit)
      (fault : Option KronosEngine.CommitFault) :
    WorkerStep e (fault.map .commit) (.commitFlush task edit true) (e.commitEdit edit fault).2
      (.behind (some task) (.clear task (edit.persistedThrough.getD 0) false)
        (e.commitEdit edit fault).1)
  | clear (task : SharedMemtable) (flushedThrough : ℕ) :
    WorkerStep e none (.clear task flushedThrough true) (e.clearImmutable task).2
      (.behind (some task) (.notifyCleared flushedThrough) (e.clearImmutable task).1)
  | reclaim (flushedThrough : ℕ) (fault : Option Wal.ReclaimFault) :
    WorkerStep e (fault.map .reclaim) (.reclaim flushedThrough true)
      { e with log := (Wal.reclaimThrough H flushedThrough fault e.log).2 }
      (.behind none (.checkSlot false) (Wal.reclaimThrough H flushedThrough fault e.log).1)
  | checkSlot :
    WorkerStep e none (.checkSlot true) e
      (if e.immutableMemtable.isSome then .pop else .copyLive false)
  | copyLive :
    WorkerStep e none (.copyLive true) e (.compact e.store.manifest.liveFiles)
  | compactNothing (liveFiles : List SstableMetadata) :
    e.prepareCompaction fmt liveFiles = .ok none → WorkerStep e none (.compact liveFiles) e .pop
  | compact (liveFiles : List SstableMetadata) (store : Store F) (edit : ManifestEdit) :
    e.prepareCompaction fmt liveFiles = .ok (some (store, edit)) →
    WorkerStep e none (.compact liveFiles) { e with store := store } (.commitCompaction edit false)
  | compactThrows (liveFiles : List SstableMetadata) (store : Store F) (failure : Failure) :
    e.prepareCompaction fmt liveFiles = .error failure →
    store.manifest = e.store.manifest → Store.KeepsFiles e.store store →
    WorkerStep e none (.compact liveFiles) { e with store := store } (.failed none failure false)
  | compactFails (liveFiles : List SstableMetadata) (store : Store F) (failure : Failure) :
    store.manifest = e.store.manifest → Store.KeepsFiles e.store store →
    WorkerStep e (some (.job failure store)) (.compact liveFiles) { e with store := store }
      (.failed none failure false)
  | commitCompaction (edit : ManifestEdit) (fault : Option KronosEngine.CommitFault) :
    WorkerStep e (fault.map .commit) (.commitCompaction edit true) (e.commitEdit edit fault).2
      (.behind none .pop (e.commitEdit edit fault).1)
  | record (task : Option SharedMemtable) (failure : Failure) :
    WorkerStep e none (.failed task failure true) (e.recordFailure failure) .notifyFailed
  | closeQueue : WorkerStep e none .closeQueue { e with queueClosed := true } .exited

end Steps

/-! ## The process -/

/-- An engine, its worker, the calls that are made on it, and the history. -/
structure System (F ι : Type) where
  engine : KronosEngine F
  worker : WorkerPc
  calls : ι → Pc
  history : History ι

namespace System

variable {F R ι : Type}

/-- Nobody holds a mutex. -/
def Free (s : System F ι) (m : Mutex) : Prop := (∀ i, m ∉ (s.calls i).held) ∧ m ∉ s.worker.held

/-- `immutable_cleared_cv_.notify_all`. -/
def wakeAll (s : System F ι) : System F ι := { s with calls := fun i => (s.calls i).woken }

/-- A call moves on. -/
def goto [DecidableEq ι] (s : System F ι) (i : ι) (pc : Pc) : System F ι :=
  { s with calls := Function.update s.calls i pc }

end System

/-- What a step of a process is: a call begins, acquires a mutex, runs on, or wakes for no reason,
or the worker acquires a mutex, or runs on, perhaps into a failure. -/
inductive ProcessLabel (F ι : Type) where
  | invoke (i : ι) (request : Request)
  | acquire (i : ι)
  | call (i : ι)
  | wake (i : ι)
  | workerAcquire
  | worker (fault : Option (WorkerFault F))

section Process

variable {F R ι : Type} [DecidableEq ι] (H : Hashing) (fmt : TableFormat F R)

/-- The steps of a process. -/
inductive ProcessStep (s : System F ι) : ProcessLabel F ι → System F ι → Prop where
  | invoke (i : ι) (request : Request) : s.calls i = .idle →
    ProcessStep s (.invoke i request) (s.goto i request.start)
  | acquire (i : ι) (m : Mutex) (pc : Pc) : (s.calls i).acquires = some (m, pc) → s.Free m →
    ProcessStep s (.acquire i) (s.goto i pc)
  | call (i : ι) (e : KronosEngine F) (h : History ι) (pc : Pc) :
    CallStep H fmt i s.engine s.history (s.calls i) e h pc →
    ProcessStep s (.call i) { s.goto i pc with engine := e, history := h }
  | notify (i : ι) : s.calls i = .shutdown .notify →
    ProcessStep s (.call i) (s.goto i (.shutdown (.barrier false))).wakeAll
  | join (i : ι) (error : Option Failure) : s.calls i = .shutdown (.join error) →
    s.worker = .exited → ProcessStep s (.call i) (s.goto i (.shutdown (.report error false)))
  | wake (i : ι) : ProcessStep s (.wake i) (s.goto i (s.calls i).woken)
  | workerAcquire (m : Mutex) (pc : WorkerPc) : s.worker.acquires = some (m, pc) → s.Free m →
    ProcessStep s .workerAcquire { s with worker := pc }
  | worker (fault : Option (WorkerFault F)) (e : KronosEngine F) (pc : WorkerPc) :
    WorkerStep H fmt s.engine fault s.worker e pc →
    ProcessStep s (.worker fault) { s with engine := e, worker := pc }
  | notifyCleared (flushedThrough : ℕ) : s.worker = .notifyCleared flushedThrough →
    ProcessStep s (.worker none) { s.wakeAll with worker := .reclaim flushedThrough false }
  | notifyFailed : s.worker = .notifyFailed →
    ProcessStep s (.worker none) { s.wakeAll with worker := .closeQueue }

/-! ## The life of a directory -/

/-- A directory that a process has open, or that no process has open: the bytes of the log, and the
SSTables with what the MANIFEST file holds. -/
inductive Node (F ι : Type) where
  | running (s : System F ι)
  | closed (log : Bytes) (store : Store F) (calls : ι → Pc) (history : History ι)

namespace System

/-- The calls behind a crash. -/
def lostCalls (s : System F ι) : ι → Pc := fun i => (s.calls i).lose s.history.crashes

/-- The history behind a crash that leaves some more records in the log. -/
def lostHistory (s : System F ι) (kept : List (ι × Record)) : History ι :=
  ⟨s.history.logged ++ kept, s.history.applied, s.history.crashes + 1⟩

/-- The directory behind a crash that leaves this log and this store. -/
def crashed (s : System F ι) (log : Bytes) (store : Store F) (kept : List (ι × Record)) :
    Node F ι := .closed log store s.lostCalls (s.lostHistory kept)

/-- The edit that the worker commits. -/
def committing (s : System F ι) : Option ManifestEdit :=
  match s.worker with
  | .commitFlush _ edit true | .commitCompaction edit true => some edit
  | _ => none

end System

/-- What a step in the life of a directory is. -/
inductive LifeLabel (F ι : Type) where
  | process (label : ProcessLabel F ι)
  | crash
  | crashInAppend (i : ι) (fault : Wal.AppendFault)
  | crashInCommit
  | crashInReclaim (point : Option Wal.ReclaimFault)
  | crashInRecovery (point : Option Wal.RecoverFault)
  | reopen (memtableTargetBytes : ℕ) (compactionPolicy : CompactionPolicy)

/-- The I/O of the reclamation of the log does not fail. -/
def ProcessLabel.LogWorks : ProcessLabel F ι → Prop
  | .worker (some (.reclaim _)) => False
  | _ => True

/-- No I/O of the worker fails. -/
def ProcessLabel.Faultless : ProcessLabel F ι → Prop
  | .worker (some _) => False
  | _ => True

/-- The steps in the life of a directory. Within a process any job of the worker can fail but the
reclamation of the log, whose calls succeed as long as the process goes on (`LogWorks`). A crash
between two effects on the directory leaves what is there, with any file that the worker was
writing. One inside an append leaves some bytes of the record, or all of them, and one inside a
commit leaves the old MANIFEST or the new one. A reclamation can be cut short by a crash. -/
inductive LifeStep : Node F ι → LifeLabel F ι → Node F ι → Prop where
  | process {s s' : System F ι} (label : ProcessLabel F ι) : ProcessStep H fmt s label s' →
    label.LogWorks → LifeStep (.running s) (.process label) (.running s')
  | crash {s : System F ι} (store : Store F) : store.manifest = s.engine.durable →
    Store.KeepsFiles s.engine.store store →
    LifeStep (.running s) .crash (s.crashed s.engine.log.atPath store [])
  | crashInAppend {s : System F ι} (i : ι) (w : Write) (fault : Wal.AppendFault) :
    s.calls i = .write w .append →
    LifeStep (.running s) (.crashInAppend i fault)
      (s.crashed
        (LogFiles.atPath
          { s.engine.log with wal := ((w.call (some fault)).run H s.engine.log.wal).2 })
        { s.engine.store with manifest := s.engine.durable }
        (((w.call (some fault)).kept H s.engine.log.wal).map fun r => (i, r)))
  | crashInCommit {s : System F ι} (edit : ManifestEdit) (store : Store F) :
    s.committing = some edit → s.engine.store.commit edit = .ok store →
    LifeStep (.running s) .crashInCommit (s.crashed s.engine.log.atPath store [])
  | crashInReclaim {s : System F ι} (flushedThrough : ℕ) (point : Option Wal.ReclaimFault) :
    s.worker = .reclaim flushedThrough true →
    LifeStep (.running s) (.crashInReclaim point)
      (s.crashed (Wal.reclaimCrash H flushedThrough point s.engine.log).atPath
        { s.engine.store with manifest := s.engine.durable } [])
  | crashInRecovery {log : Bytes} {store : Store F} {calls : ι → Pc} {history : History ι} {w : Wal}
      (point : Option Wal.RecoverFault) : Wal.construct (some log) = .ok w →
    LifeStep (.closed log store calls history) (.crashInRecovery point)
      (.closed (Wal.recoverWith H point w).2.file store calls history)
  | reopen {log : Bytes} {store : Store F} {calls : ι → Pc} {history : History ι}
      {e : KronosEngine F} (memtableTargetBytes : ℕ) (compactionPolicy : CompactionPolicy) :
    KronosEngine.construct H fmt store (some log) memtableTargetBytes compactionPolicy = .ok e →
    LifeStep (.closed log store calls history) (.reopen memtableTargetBytes compactionPolicy)
      (.running ⟨e, .pop, calls, { history with applied := history.records }⟩)

/-- An engine that was just opened over an empty directory. -/
def FirstOpened (s : System F ι) : Prop :=
  ∃ e memtableTargetBytes compactionPolicy,
    KronosEngine.construct H fmt Store.empty none memtableTargetBytes compactionPolicy = .ok e ∧
    s = ⟨e, .pop, fun _ => .idle, .empty⟩

/-- The life of a directory, from its first successful opening on. Reclamations that fail while the
process goes on are left out of it: behind one, the process can write to a file that no name leads
to any more. -/
def life : Lts (Node F ι) (LifeLabel F ι) where
  initial node := ∃ s, FirstOpened H fmt s ∧ node = .running s
  step := LifeStep H fmt

/-- An engine that was just opened, over an empty directory or over one with a life behind it. -/
def Opened (s : System F ι) : Prop :=
  FirstOpened H fmt s ∨ ∃ node memtableTargetBytes compactionPolicy, (life H fmt).Reachable node ∧
    LifeStep H fmt node (.reopen memtableTargetBytes compactionPolicy) (.running s)

/-- One process, from the opening of the engine on. -/
def process : Lts (System F ι) (ProcessLabel F ι) where
  initial := Opened H fmt
  step := ProcessStep H fmt

end Process

end Kronos
