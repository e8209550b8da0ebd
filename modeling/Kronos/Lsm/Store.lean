import Kronos.Base.Newest
import Kronos.Memtable
import Kronos.Lsm.CompactionPolicy
import Kronos.Lsm.Compactor

/-!
# The store

The part of `KronosEngine` in `src/engine.cpp` that works on files: the SSTables in the database
directory, the MANIFEST that says which of them are live, and the operations of the maintenance
worker on both, `flushMemtable` and `maybeCompact`, with the search of `get` in the live files.

The operations are written over a `TableFormat`, which says how a table is stored in a file. The
format of `src/sstable.cpp` gives back the records that it was given, up to the sizes that it can
represent; `TableFormat.logical` is the format that stores every table. Each operation is split at
its commit: `prepareFlush` and `prepareCompaction` write the new file and make the edit, and what
follows is the one call of `applyEdit`.
-/

namespace Kronos

/-- How a table is stored: an `SstableBuilder` over its records, an `SstableReader` over the file,
the walk of its iterator from the beginning to the end, and its `lookupEntry`, which is defined for
the keys that it takes. -/
structure TableFormat (F R : Type) where
  build : List TableRecord → Except Failure F
  openTable : F → Except Failure R
  records : R → Except Failure (List TableRecord)
  lookupEntry : R → Bytes → Except Failure (Option InternalEntry)
  Takes : Bytes → Prop

namespace TableFormat

variable {F R : Type} (fmt : TableFormat F R)

/-- A file holds the records of a table: it opens, it is walked through, and every key that a lookup
takes is looked up as in the table. -/
def Stores (file : F) (rs : List TableRecord) : Prop :=
  ∃ reader, fmt.openTable file = .ok reader ∧ fmt.records reader = .ok rs ∧
    ∀ key, fmt.Takes key → fmt.lookupEntry reader key = .ok (rs.lookup key)

/-- A build over the records of a table returns, and stores it. -/
def Represents (rs : List TableRecord) : Prop :=
  ∃ file, fmt.build rs = .ok file ∧ fmt.Stores file rs

/-- The format that stores every table: a file is the list of its records. -/
def logical : TableFormat (List TableRecord) (List TableRecord) where
  build := .ok
  openTable := .ok
  records := .ok
  lookupEntry rs key := .ok (rs.lookup key)
  Takes _ := True

/-- A table that is its own file stores its records. -/
theorem logical_stores (rs : List TableRecord) : logical.Stores rs rs :=
  ⟨rs, rfl, rfl, fun _ _ => rfl⟩

end TableFormat

/-- `CompactionResult`. -/
structure CompactionResult where
  inputFiles : List SstablePath
  outputFiles : List SstablePath
  deriving DecidableEq, Repr

/-- The files of the database directory, with the MANIFEST and the allocator of paths. -/
structure Store (F : Type) where
  manifest : Manifest
  files : List (SstablePath × F)
  nextSstableId : ℕ

/-- `considerNewer`. -/
def considerNewer (winner candidate : Option InternalEntry) : Option InternalEntry :=
  newer InternalEntry.sequence winner candidate

namespace Store

variable {F R : Type} (fmt : TableFormat F R)

/-- An empty directory. -/
def empty : Store F := ⟨Manifest.empty, [], 1⟩

/-- `std::filesystem::exists`. -/
def fileExists (s : Store F) (path : SstablePath) : Bool := (s.files.lookup path).isSome

/-- A finished table is published under its path. -/
def publish (s : Store F) (path : SstablePath) (file : F) : Store F :=
  { s with files := s.files ++ [(path, file)] }

/-- The constructor of an `SstableReader`. -/
def openSstable (s : Store F) (path : SstablePath) : Except Failure R :=
  match s.files.lookup path with
  | none => .error (.exception "Failed to open SSTable for reading")
  | some file => fmt.openTable file

/-- The loop of `allocateSstablePath`. Each pass tries the next number, and more passes than there
are files do not all fail (`allocateSstablePath_returns`). -/
def allocateFrom (s : Store F) (level : ℕ) : ℕ → ℕ → Except Failure (SstablePath × ℕ)
  | 0, _ => .error (.undefined "out of fuel")
  | fuel + 1, id =>
    if s.fileExists ⟨level, id⟩ then s.allocateFrom level fuel (id + 1)
    else .ok (⟨level, id⟩, id + 1)

/-- `allocateSstablePath`. -/
def allocateSstablePath (s : Store F) (level : ℕ) : Except Failure (SstablePath × Store F) := do
  let (path, nextSstableId) ← s.allocateFrom level (s.files.length + 1) s.nextSstableId
  .ok (path, { s with nextSstableId := nextSstableId })

/-! ## Flushing a Memtable -/

/-- The highest sequence number of some records, from that of a first one on. -/
def flushedThrough (first : ℕ) (rs : List TableRecord) : ℕ :=
  rs.foldl (fun through r => max through r.2.sequence) first

/-- The last key of some records, from that of a first one on. -/
def lastKey (first : Bytes) (rs : List TableRecord) : Bytes := rs.foldl (fun _ r => r.1) first

/-- `flushMemtable`, up to its commit: the table is written, and the edit made that adds it. -/
def prepareFlush (s : Store F) (memtable : Memtable) : Except Failure (Store F × ManifestEdit) :=
  if memtable.state ≠ .immutable then
    .error (.exception "Background worker received a mutable Memtable")
  else
    match memtable.table.entries with
    | [] => .error (.exception "Background worker received an empty Memtable")
    | first :: rest => do
      let (outputPath, s) ← s.allocateSstablePath 0
      let file ← fmt.build (first :: rest)
      .ok (s.publish outputPath file,
        ⟨[], [⟨outputPath, 0, first.1, lastKey first.1 (first :: rest)⟩],
          some (flushedThrough first.2.sequence (first :: rest))⟩)

/-- The commit of a prepared edit. -/
def commit (s : Store F) (edit : ManifestEdit) : Except Failure (Store F) := do
  let manifest ← s.manifest.applyEdit edit
  .ok { s with manifest := manifest }

/-- `flushMemtable`, as far as it works on files. -/
def flushMemtable (s : Store F) (memtable : Memtable) : Except Failure (Store F) := do
  let (s, edit) ← s.prepareFlush fmt memtable
  s.commit edit

/-! ## Compacting -/

/-- A reader and an iterator over a table, walked to its end. -/
def readTable (s : Store F) (path : SstablePath) : Except Failure (List TableRecord) := do
  let reader ← s.openSstable fmt path
  fmt.records reader

/-- `Compactor::compact`. The output is written when the first record of the merge reaches it, so
that a merge without records leaves no file. -/
def compact (s : Store F) (inputFiles : List SstablePath) (outputPath : SstablePath)
    (canDropTombstones : Bool) : Except Failure (Store F × CompactionResult) :=
  if inputFiles = [] then
    .error (.exception "Compaction requires at least one input SSTable")
  else if s.fileExists outputPath then
    .error (.exception "Compaction output path already exists")
  else if outputPath ∈ inputFiles then
    .error (.exception "Compaction output cannot overwrite an input SSTable")
  else do
    let inputs ← inputFiles.mapM (s.readTable fmt)
    let output ← Compactor.merge canDropTombstones inputs
    if output = [] then .ok (s, ⟨inputFiles, []⟩)
    else
      let file ← fmt.build output
      .ok (s.publish outputPath file, ⟨inputFiles, [outputPath]⟩)

/-- `metadataForSstable`. -/
def metadataForSstable (s : Store F) (level : ℕ) (path : SstablePath) :
    Except Failure SstableMetadata := do
  match ← s.readTable fmt path with
  | [] => .error (.exception "Cannot create metadata for an empty SSTable")
  | first :: rest => .ok ⟨path, level, first.1, lastKey first.1 (first :: rest)⟩

/-- `maybeCompact`, up to its commit: what the policy picks is merged, and the edit made that
replaces the inputs by the output, if there is one. -/
def prepareCompaction (policy : CompactionPolicy) (s : Store F) :
    Except Failure (Option (Store F × ManifestEdit)) := do
  match ← policy.pickCompaction s.manifest.liveFiles with
  | none => .ok none
  | some plan => do
    let (outputPath, s) ← s.allocateSstablePath plan.outputLevel
    let (s, result) ← s.compact fmt (plan.inputFiles.map (·.path)) outputPath
      plan.canDropTombstones
    let addFiles ← result.outputFiles.mapM (s.metadataForSstable fmt plan.outputLevel)
    .ok (some (s, ⟨result.inputFiles, addFiles, none⟩))

/-- `maybeCompact`, as far as it works on files. -/
def maybeCompact (policy : CompactionPolicy) (s : Store F) : Except Failure (Store F) := do
  match ← s.prepareCompaction fmt policy with
  | none => .ok s
  | some (s, edit) => s.commit edit

/-! ## Searching the live files -/

/-- One pass of the search of `get`: a file whose range excludes the key is not opened. -/
def lookupFile (s : Store F) (key : Bytes) (winner : Option InternalEntry) (f : SstableMetadata) :
    Except Failure (Option InternalEntry) :=
  if key < f.smallestKey ∨ key > f.largestKey then .ok winner
  else do
    let reader ← s.openSstable fmt f.path
    let candidate ← fmt.lookupEntry reader key
    .ok (considerNewer winner candidate)

/-- The search of `get` in a copy of the live files. -/
def lookupFiles (s : Store F) (liveFiles : List SstableMetadata) (key : Bytes) :
    Except Failure (Option InternalEntry) :=
  liveFiles.foldlM (s.lookupFile fmt key) none

end Store

end Kronos
