import Kronos.Engine.Reachable
import Kronos.Lsm.Directory

/-!
# The engine over its directory

`Kronos.Engine.System` gives the worker's jobs and the search of `get` by their effect on the store.
Here they work on the directory, name by name: a job runs an `SstableBuilder`, which can fail at any
point (`Directory.flushMemtable`, `Directory.maybeCompact`), and a search goes through the readers
that `getSstableReader` caches under their paths, and never evicts. The other steps are those of the
system. In exchange, a step is not asked that the log works, and a crash may leave anything that is
not durable: any log, any `.tmp` file, any `.sst` file that is not a finished table, and a MANIFEST
from before or from behind the last edit.
-/

namespace Kronos

/-! ## The readers -/

section Readers

variable {F R : Type} (fmt : TableFormat F R)

/-- `getSstableReader`. -/
def Store.getSstableReader (s : Store F) (readers : List (SstablePath × R)) (path : SstablePath) :
    Except Failure (R × List (SstablePath × R)) :=
  match readers.lookup path with
  | some reader => .ok (reader, readers)
  | none => do
    let reader ← s.openSstable fmt path
    .ok (reader, readers ++ [(path, reader)])

/-- One pass of the search of `get`, with the readers that it leaves. -/
def Store.lookupFileCached (s : Store F) (readers : List (SstablePath × R)) (key : Bytes)
    (winner : Option InternalEntry) (f : SstableMetadata) :
    Except Failure (Option InternalEntry) × List (SstablePath × R) :=
  if key < f.smallestKey ∨ key > f.largestKey then (.ok winner, readers)
  else
    match s.getSstableReader fmt readers f.path with
    | .error failure => (.error failure, readers)
    | .ok (reader, readers) => (do
        let candidate ← fmt.lookupEntry reader key
        .ok (considerNewer winner candidate), readers)

end Readers

/-! ## The states -/

/-- A directory that a process has open, or that no process has open, with what is in it beside the
store, and `sstable_readers_`. -/
structure Served (F R ι : Type) where
  node : Node F ι
  temporary : List SstablePath
  finished : List (SstablePath × F)
  replaced : List SstablePath
  readers : List (SstablePath × R)

/-- The store of a directory. -/
def Node.store {F ι : Type} : Node F ι → Store F
  | running s => s.engine.store
  | closed _ store _ _ => store

/-- The files of a MANIFEST snapshot that a call has yet to search. -/
def Pc.snapshot : Pc → List SstableMetadata
  | get _ (.files rest _) => rest
  | _ => []

/-- The files that the worker has in hand: its copy of the live files, or those that its edit
adds. -/
def WorkerPc.inHand : WorkerPc → List SstableMetadata
  | compact liveFiles => liveFiles
  | commitFlush _ edit _ | commitCompaction edit _ => edit.addFiles
  | _ => []

/-- The files that a process refers to: those that are live, in memory or in the MANIFEST file,
those of a snapshot, and those that the worker has in hand. -/
def System.Refers {F ι : Type} (s : System F ι) (f : SstableMetadata) : Prop :=
  f ∈ s.engine.store.manifest.liveFiles ∨ f ∈ s.engine.durable.liveFiles ∨
    (∃ i, f ∈ (s.calls i).snapshot) ∨ f ∈ s.worker.inHand

/-- The files that a directory refers to. -/
def Node.Refers {F ι : Type} : Node F ι → SstableMetadata → Prop
  | running s, f => s.Refers f
  | closed _ store _ _, f => f ∈ store.manifest.liveFiles

namespace Served

variable {F R ι : Type}

/-- The names in the directory. -/
def directory (x : Served F R ι) : Directory F :=
  ⟨x.node.store, x.temporary, x.finished, x.replaced⟩

/-- The paths that stand for a table: of files that the directory refers to, and of the cached
readers. -/
def Names (x : Served F R ι) (path : SstablePath) : Prop :=
  (∃ f, x.node.Refers f ∧ f.path = path) ∨ ∃ reader, (path, reader) ∈ x.readers

/-- A job of the worker leaves this directory, and the worker here. -/
def behindJob (x : Served F R ι) (s : System F ι) (d : Directory F) (worker : WorkerPc) :
    Served F R ι where
  node := .running { s with engine := { s.engine with store := d.store }, worker := worker }
  temporary := d.temporary
  finished := d.finished
  replaced := d.replaced
  readers := x.readers

end Served

/-! ## The steps -/

/-- Where a job leaves the worker. -/
def WorkerPc.behindJob {α : Type} (task : Option SharedMemtable) (next : α → WorkerPc) :
    Except Failure α → WorkerPc
  | .ok result => next result
  | .error failure => .failed task failure false

/-- Where a compaction that does not throw leaves the worker. -/
def WorkerPc.behindCompaction : Option ManifestEdit → WorkerPc
  | some edit => .commitCompaction edit false
  | none => .pop

/-- Where a pass of the search leaves a call of `get`. -/
def Pc.behindFile (key : Bytes) (rest : List SstableMetadata) :
    Except Failure (Option InternalEntry) → Pc
  | .ok winner => .get key (.files rest winner)
  | .error failure => .got key (.error failure)

namespace System

variable {F ι : Type}

/-- A step that searches or writes a table. -/
def UsesTables (s : System F ι) : ProcessLabel F ι → Prop
  | .call i => ∃ key f rest winner, s.calls i = .get key (.files (f :: rest) winner)
  | .worker _ => (∃ task, s.worker = .flush task) ∨ ∃ liveFiles, s.worker = .compact liveFiles
  | _ => False

/-- The MANIFEST that a crash may leave: the file that is there, the one before it, if the rename
was not durable, or the one that is being committed. -/
def CrashLeaves (s : System F ι) (m : Manifest) : Prop :=
  m = s.engine.durable ∨ m = s.engine.store.manifest ∨
    ∃ edit, s.committing = some edit ∧ s.engine.store.manifest.applyEdit edit = .ok m

end System

/-- What a step is. -/
inductive ServedLabel (F ι : Type) where
  | process (label : ProcessLabel F ι)
  | search (i : ι)
  | job (fault : Option JobFault)
  | crash
  | openingFails
  | reopen (memtableTargetBytes : ℕ) (compactionPolicy : CompactionPolicy)

section Steps

variable {F R ι : Type} [DecidableEq ι] (H : Hashing) (fmt : TableFormat F R)

/-- The steps over a directory. -/
inductive ServedStep (x : Served F R ι) : ServedLabel F ι → Served F R ι → Prop where
  | process {s s' : System F ι} (label : ProcessLabel F ι) : x.node = .running s →
    ProcessStep H fmt s label s' → ¬s.UsesTables label →
    ServedStep x (.process label) { x with node := .running s' }
  | search {s : System F ι} (i : ι) (key : Bytes) (f : SstableMetadata)
      (rest : List SstableMetadata) (winner : Option InternalEntry) : x.node = .running s →
    s.calls i = .get key (.files (f :: rest) winner) →
    ServedStep x (.search i) { x with
      node := .running (s.goto i
        (.behindFile key rest (s.engine.store.lookupFileCached fmt x.readers key winner f).1))
      readers := (s.engine.store.lookupFileCached fmt x.readers key winner f).2 }
  | flush {s : System F ι} (task : SharedMemtable) (fault : Option JobFault) :
    x.node = .running s → s.worker = .flush task →
    ServedStep x (.job fault) (x.behindJob s (x.directory.flushMemtable fmt task.memtable fault).2
      (.behindJob (some task) (fun edit => .commitFlush task edit false)
        (x.directory.flushMemtable fmt task.memtable fault).1))
  | compact {s : System F ι} (liveFiles : List SstableMetadata) (fault : Option JobFault) :
    x.node = .running s → s.worker = .compact liveFiles →
    ServedStep x (.job fault) (x.behindJob s
      (x.directory.maybeCompact fmt s.engine.compactionPolicy liveFiles fault).2
      (.behindJob none .behindCompaction
        (x.directory.maybeCompact fmt s.engine.compactionPolicy liveFiles fault).1))
  | crash {s : System F ι} (log : Bytes) (store : Store F) (temporary : List SstablePath) :
    x.node = .running s → s.CrashLeaves store.manifest →
    (∀ path file, (path, file) ∈ x.finished → store.files.lookup path = some file) →
    ServedStep x .crash
      ⟨s.crashed log store [], temporary, x.finished, x.replaced, []⟩
  | openingFails {log : Bytes} {store : Store F} {calls : ι → Pc} {history : History ι}
      (repaired : Bytes) : x.node = .closed log store calls history →
    ServedStep x .openingFails { x with node := .closed repaired store calls history }
  | reopen {log : Bytes} {store : Store F} {calls : ι → Pc} {history : History ι}
      {e : KronosEngine F} (memtableTargetBytes : ℕ) (compactionPolicy : CompactionPolicy) :
    x.node = .closed log store calls history →
    KronosEngine.construct H fmt store (some log) memtableTargetBytes compactionPolicy = .ok e →
    ServedStep x (.reopen memtableTargetBytes compactionPolicy) { x with
      node := .running ⟨e, .pop, calls, { history with applied := history.records }⟩ }

/-- The life of a directory and of the readers over it, from its first successful opening on. -/
def served : Lts (Served F R ι) (ServedLabel F ι) where
  initial x := ∃ s, FirstOpened H fmt s ∧ x = ⟨.running s, [], [], [], []⟩
  step := ServedStep H fmt

end Steps

end Kronos
