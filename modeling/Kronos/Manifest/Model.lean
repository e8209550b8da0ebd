import Mathlib.Data.List.Sort
import Kronos.Base.TextStream
import Kronos.Types

/-!
# The MANIFEST file

`Manifest` of `src/manifest.cpp` with the file that it persists: the text of a snapshot, the parser
that loads it, and the protocol of an edit, which validates the edit, writes the whole next snapshot
under a temporary name, and renames it over the old one before it publishes the next state in
memory. Paths and keys are arbitrary byte strings, levels and checkpoints 64-bit numbers.

`Lsm/Manifest.lean` has the same edits over the paths of a database directory, without the file.
-/

namespace Kronos

open ByteString TextStream

/-! ## Paths -/

/-- The elements through which `std::filesystem::path` compares two paths: whether there is a root
directory, and the names between the slashes behind it. Repeated slashes count as one, and a slash
at the end leaves an empty name. -/
def pathElements (path : Bytes) : Bool × List Bytes :=
  let relative := path.dropWhile (· = 47)
  let names := relative.splitOn 47
  (path.head? = some 47,
    if relative = [] then [] else names.dropLast.filter (· ≠ []) ++ names.getLast?.toList)

/-- `operator==` of `std::filesystem::path`. -/
def samePath (a b : Bytes) : Bool := pathElements a = pathElements b

/-- A path is the same as itself. -/
@[simp] theorem samePath_self (path : Bytes) : samePath path path = true := by
  simp [samePath]

/-- `parent_path()`, or `.` when it is empty. -/
def parentPath (path : String) : String :=
  let upToSlash := (path.toList.reverse.dropWhile (· ≠ '/')).reverse
  if upToSlash = [] then "."
  else if upToSlash = ['/'] then "/"
  else String.ofList upToSlash.dropLast

/-! ## The state -/

/-- `SstableMetadata`, with its path as a byte string. -/
structure FileMetadata where
  path : Bytes
  level : UInt64
  smallestKey : Bytes
  largestKey : Bytes
  deriving DecidableEq, Repr

/-- `ManifestEdit`. -/
structure FileEdit where
  removeFiles : List Bytes
  addFiles : List FileMetadata
  persistedThrough : Option UInt64
  deriving DecidableEq, Repr

/-- `live_files_` and `persisted_through_`. -/
structure LiveState where
  liveFiles : List FileMetadata
  persistedThrough : Option UInt64
  deriving DecidableEq, Repr

/-- The files of a MANIFEST: the one at its path, if there is one, and the temporary one. -/
structure ManifestDisk where
  file : Option Bytes
  temp : Option Bytes
  deriving DecidableEq, Repr

/-- A `Manifest` object. -/
structure ManifestObject where
  path : String
  memory : LiveState
  disk : ManifestDisk
  deriving DecidableEq, Repr

/-- The order of `sortMetadata`: by level, then by path. -/
def FileMetadata.le (a b : FileMetadata) : Bool :=
  if a.level ≠ b.level then a.level < b.level else a.path ≤ b.path

/-- `sortMetadata`. -/
def sortFiles (files : List FileMetadata) : List FileMetadata :=
  files.insertionSort fun a b => a.le b = true

/-- `validateMetadata`. -/
def validateMetadata (metadata : FileMetadata) : Except Failure Unit :=
  if metadata.path = [] then .error (.exception "SSTable metadata path cannot be empty")
  else if metadata.smallestKey > metadata.largestKey then
    .error (.exception "Invalid SSTable key range")
  else .ok ()

namespace LiveState

/-- Step 1 of `applyEdit`, for one path. -/
def removeFile (files : List FileMetadata) (path : Bytes) : Except Failure (List FileMetadata) :=
  let next := files.filter fun metadata => !samePath metadata.path path
  if next.length = files.length then
    .error (.exception "MANIFEST edit tried to remove an unknown SSTable")
  else .ok next

/-- Step 2 of `applyEdit`, for one file. -/
def addFile (files : List FileMetadata) (metadata : FileMetadata) :
    Except Failure (List FileMetadata) := do
  validateMetadata metadata
  if files.any fun existing => samePath existing.path metadata.path then
    .error (.exception "MANIFEST edit tried to add a duplicate SSTable")
  else .ok (files ++ [metadata])

/-- Step 3 of `applyEdit`. -/
def advanceCheckpoint (checkpoint edit : Option UInt64) : Except Failure (Option UInt64) :=
  match edit with
  | none => .ok checkpoint
  | some through =>
    if checkpoint.any (through < ·) then
      .error (.exception "MANIFEST checkpoint cannot move backwards")
    else .ok (some through)

/-- The candidate state that `applyEdit` builds before it persists anything. -/
def next (state : LiveState) (edit : FileEdit) : Except Failure LiveState := do
  let nextState ← edit.removeFiles.foldlM removeFile state.liveFiles
  let nextState ← edit.addFiles.foldlM addFile nextState
  let nextCheckpoint ← advanceCheckpoint state.persistedThrough edit.persistedThrough
  .ok ⟨sortFiles nextState, nextCheckpoint⟩

end LiveState

/-! ## The text of a snapshot -/

/-- `MANIFEST_MAGIC`. -/
def manifestMagic : Bytes :=
  ofChars ['K', 'R', 'O', 'N', 'O', 'S', '_', 'M', 'A', 'N', 'I', 'F', 'E', 'S', 'T', '_', 'V', '2']

/-- The label of the checkpoint. -/
def checkpointLabel : Bytes := ofChars ['C', 'H', 'E', 'C', 'K', 'P', 'O', 'I', 'N', 'T']

/-- The value for a state without a checkpoint. -/
def noCheckpoint : Bytes := ofChars ['N', 'O', 'N', 'E']

/-- The value of a checkpoint. -/
def checkpointText (checkpoint : Option UInt64) : Bytes :=
  match checkpoint with
  | none => noCheckpoint
  | some through => decimal through.toNat

/-- The line of a file. -/
def recordText (metadata : FileMetadata) : Bytes :=
  decimal metadata.level.toNat ++ [32] ++ quoted metadata.path ++ [32] ++
    quoted metadata.smallestKey ++ [32] ++ quoted metadata.largestKey ++ [10]

/-- The lines before those of the files. -/
def headText (checkpoint : Option UInt64) : Bytes :=
  manifestMagic ++ [10] ++ checkpointLabel ++ [32] ++ checkpointText checkpoint ++ [10]

/-- The lines of the files, until one of them is invalid. -/
def recordsText : List FileMetadata → Bytes → Except Failure Unit × Bytes
  | [], text => (.ok (), text)
  | metadata :: files, text =>
    match validateMetadata metadata with
    | .error failure => (.error failure, text)
    | .ok () => recordsText files (text ++ recordText metadata)

/-! ## Loading -/

/-- The checkpoint that a token stands for. -/
def parseCheckpoint (value : Bytes) : Except Failure (Option UInt64) :=
  if value = noCheckpoint then .ok none
  else
    match fromChars uint64Max value with
    | .outOfRange => .error (.exception "MANIFEST checkpoint is out of range")
    | .invalid => .error (.exception "Invalid MANIFEST checkpoint value")
    | .parsed n => .ok (some (UInt64.ofNat n))

/-- The quoted fields of a line. -/
def readFields (s : TextStream) : Option (Bytes × Bytes × Bytes × TextStream) := do
  let (some path, s) := s.readQuoted | none
  let (some smallestKey, s) := s.readQuoted | none
  let (some largestKey, s) := s.readQuoted | none
  some (path, smallestKey, largestKey, s)

/-- The loop of `load` over the lines of the files. Each pass that goes on has taken a byte, so the
bytes that are left bound the number of passes; `fuel` counts them. -/
def readFiles : ℕ → List FileMetadata → TextStream →
    Except Failure (List FileMetadata × TextStream)
  | 0, _, _ => .error (.undefined "out of fuel")
  | fuel + 1, loaded, s =>
    match s.readUnsigned uint64Max with
    | (none, s) => .ok (loaded, s)
    | (some level, s) =>
      match readFields s with
      | none => .error (.exception "Malformed MANIFEST record")
      | some (path, smallestKey, largestKey, s) => do
        let metadata : FileMetadata := ⟨path, UInt64.ofNat level, smallestKey, largestKey⟩
        validateMetadata metadata
        if loaded.any fun existing => samePath existing.path metadata.path then
          .error (.exception "Duplicate SSTable in MANIFEST")
        else readFiles fuel (loaded ++ [metadata]) s

/-- `load`, over the bytes of the file if there is one. -/
def loadManifest : Option Bytes → Except Failure LiveState
  | none => .ok ⟨[], none⟩
  | some bytes =>
    let (magic, s) := (ofBytes bytes).getline
    if magic ≠ manifestMagic then .error (.exception "Invalid MANIFEST header")
    else
    match s.readToken with
    | (none, _) => .error (.exception "Missing MANIFEST checkpoint")
    | (some label, s) =>
    match s.readToken with
    | (none, _) => .error (.exception "Missing MANIFEST checkpoint")
    | (some value, s) =>
    if label ≠ checkpointLabel then .error (.exception "Invalid MANIFEST checkpoint header")
    else do
      let checkpoint ← parseCheckpoint value
      let (files, s) ← readFiles (s.rest.length + 1) [] s
      if !s.eof then .error (.exception "Malformed MANIFEST")
      else .ok ⟨sortFiles files, checkpoint⟩

namespace ManifestObject

/-- The constructor: a left-over temporary file is removed, and the other one loaded. -/
def construct (path : String) (disk : ManifestDisk) : Except Failure ManifestObject := do
  let memory ← loadManifest disk.file
  .ok ⟨path, memory, { disk with temp := none }⟩

/-- `load`, on an object: its state in memory is replaced when the whole file was accepted. -/
def load (m : ManifestObject) : Except Failure Unit × ManifestObject :=
  match loadManifest m.disk.file with
  | .error failure => (.error failure, m)
  | .ok memory => (.ok (), { m with memory := memory })

/-! ## Persisting -/

/-- The step of `persistSnapshot` that fails. The temporary file takes `size` bytes before its write
fails. -/
inductive PersistFault where
  | createDirectories
  | create
  | write (size : ℕ)
  | close
  | openForSync
  | sync
  | rename
  | openParent
  | syncParent
  deriving DecidableEq, Repr

/-- `temporaryPath`. -/
def temporaryPath (m : ManifestObject) : String := m.path ++ ".tmp"

/-- `persistSnapshot`, up to the rename: the temporary file, and whether it may be renamed. -/
def writeSnapshot (fault : Option PersistFault) (state : LiveState) (m : ManifestObject) :
    Except Failure Bytes × ManifestObject :=
  let withTemp (text : Bytes) : ManifestObject :=
    { m with disk := { m.disk with temp := some text } }
  if fault = some .createDirectories then (.error (.exception "Failed to create directories"), m)
  else if fault = some .create then (.error (.exception "Failed to create temporary MANIFEST"), m)
  else
    match recordsText state.liveFiles (headText state.persistedThrough) with
    | (.error failure, text) => (.error failure, withTemp text)
    | (.ok (), text) =>
      match fault with
      | some (.write size) =>
        (.error (.exception "Failed to write MANIFEST"), withTemp (text.take size))
      | some .close => (.error (.exception "Failed to close temporary MANIFEST"), withTemp text)
      | some .openForSync =>
        (.error (.exception ("Failed to open file for fsync: " ++ m.temporaryPath)), withTemp text)
      | some .sync =>
        (.error (.exception ("Failed to fsync file: " ++ m.temporaryPath)), withTemp text)
      | _ => (.ok text, withTemp text)

/-- `persistSnapshot`. -/
def persistSnapshot (fault : Option PersistFault) (state : LiveState) (m : ManifestObject) :
    Except Failure Unit × ManifestObject :=
  match m.writeSnapshot fault state with
  | (.error failure, m) => (.error failure, m)
  | (.ok text, m) =>
    if fault = some .rename then
      (.error (.exception "Failed to commit MANIFEST"),
        { m with disk := { m.disk with temp := none } })
    else
      let m : ManifestObject := { m with disk := ⟨some text, none⟩ }
      if fault = some .openParent then
        (.error (.exception ("Failed to open parent directory for fsync: " ++ parentPath m.path)),
          m)
      else if fault = some .syncParent then
        (.error (.exception ("Failed to fsync parent directory: " ++ parentPath m.path)), m)
      else (.ok (), m)

/-- `applyEdit`. -/
def applyEdit (fault : Option PersistFault) (edit : FileEdit) (m : ManifestObject) :
    Except Failure Unit × ManifestObject :=
  match m.memory.next edit with
  | .error failure => (.error failure, m)
  | .ok state =>
    match m.persistSnapshot fault state with
    | (.error failure, m) => (.error failure, m)
    | (.ok (), m) => (.ok (), { m with memory := state })

/-- A point of `persistSnapshot` at which the process can die. -/
inductive CrashPoint where
  /-- Before the temporary file is created. -/
  | beforeCreate
  /-- While it is written: some of its bytes are there, or all of them. -/
  | writing (size : ℕ)
  /-- Behind the rename. -/
  | renamed
  deriving DecidableEq, Repr

/-- The files when the process dies there, on the way to a state. -/
def crash (point : CrashPoint) (state : LiveState) (m : ManifestObject) : ManifestDisk :=
  let text := (recordsText state.liveFiles (headText state.persistedThrough)).2
  match point with
  | .beforeCreate => m.disk
  | .writing size => { m.disk with temp := some (text.take size) }
  | .renamed => ⟨some text, none⟩

end ManifestObject

end Kronos
