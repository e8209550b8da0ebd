import Mathlib.Data.List.Sort
import Kronos.Types

/-!
# The MANIFEST

`Manifest` of `src/manifest.cpp`, as the state that it makes authoritative: the live SSTables and
the recovery checkpoint. A snapshot is persisted under a temporary name and renamed, so an edit
takes effect as a whole or, when it throws, not at all.
-/

namespace Kronos

/-- The path of an SSTable in the database directory, `L<level>-<id>.sst`. -/
structure SstablePath where
  level : ℕ
  id : ℕ
  deriving DecidableEq, Repr

/-- `path.string()`, under the database directory. -/
def SstablePath.string (path : SstablePath) : String :=
  "L" ++ toString path.level ++ "-" ++ toString path.id ++ ".sst"

/-- `SstableMetadata`. -/
structure SstableMetadata where
  path : SstablePath
  level : ℕ
  smallestKey : Bytes
  largestKey : Bytes
  deriving DecidableEq, Repr

/-- The order of files in a snapshot and in a plan: by level, then by path. -/
def SstableMetadata.le (a b : SstableMetadata) : Bool :=
  if a.level ≠ b.level then a.level < b.level else a.path.string ≤ b.path.string

/-- `sortMetadata`. -/
def sortMetadata (files : List SstableMetadata) : List SstableMetadata :=
  files.insertionSort fun a b => a.le b = true

/-- The range of a file contains a key. -/
def SstableMetadata.Covers (f : SstableMetadata) (key : Bytes) : Prop :=
  f.smallestKey ≤ key ∧ key ≤ f.largestKey

instance (f : SstableMetadata) (key : Bytes) : Decidable (f.Covers key) :=
  inferInstanceAs (Decidable (_ ∧ _))

/-- `ManifestEdit`. -/
structure ManifestEdit where
  removeFiles : List SstablePath
  addFiles : List SstableMetadata
  persistedThrough : Option ℕ
  deriving DecidableEq, Repr

/-- The authoritative state of a `Manifest`. -/
structure Manifest where
  liveFiles : List SstableMetadata
  persistedThrough : Option ℕ
  deriving DecidableEq, Repr

namespace Manifest

/-- The state without a MANIFEST file. -/
def empty : Manifest := ⟨[], none⟩

/-- Step 1 of `applyEdit`, for one path: the file is removed, if it is live. -/
def removeFile (files : List SstableMetadata) (path : SstablePath) :
    Except Failure (List SstableMetadata) :=
  let next := files.filter fun f => f.path ≠ path
  if next.length = files.length then
    .error (.exception "MANIFEST edit tried to remove an unknown SSTable")
  else .ok next

/-- Step 2 of `applyEdit`, for one file: it is added, unless its path is live. A path in the
database directory is not empty. -/
def addFile (files : List SstableMetadata) (f : SstableMetadata) :
    Except Failure (List SstableMetadata) :=
  if f.smallestKey > f.largestKey then .error (.exception "Invalid SSTable key range")
  else if files.any fun existing => existing.path = f.path then
    .error (.exception "MANIFEST edit tried to add a duplicate SSTable")
  else .ok (files ++ [f])

/-- Step 3 of `applyEdit`: the checkpoint, which never moves backwards. -/
def advanceCheckpoint (checkpoint edit : Option ℕ) : Except Failure (Option ℕ) :=
  match edit with
  | none => .ok checkpoint
  | some through =>
    if checkpoint.any (through < ·) then
      .error (.exception "MANIFEST checkpoint cannot move backwards")
    else .ok (some through)

/-- `applyEdit`. -/
def applyEdit (m : Manifest) (edit : ManifestEdit) : Except Failure Manifest := do
  let nextState ← edit.removeFiles.foldlM removeFile m.liveFiles
  let nextState ← edit.addFiles.foldlM addFile nextState
  let nextCheckpoint ← advanceCheckpoint m.persistedThrough edit.persistedThrough
  .ok ⟨sortMetadata nextState, nextCheckpoint⟩

/-! ## Accepted edits -/

/-- The paths of the files differ. -/
def DistinctPaths (files : List SstableMetadata) : Prop := (files.map (·.path)).Nodup

/-- Removing a live file is accepted. -/
theorem removeFile_eq {files : List SstableMetadata} {path : SstablePath}
    (h : ∃ f ∈ files, f.path = path) :
    removeFile files path = .ok (files.filter fun f => f.path ≠ path) := by
  obtain ⟨f, hf, hpath⟩ := h
  have hlt : (files.filter fun f => f.path ≠ path).length < files.length :=
    List.length_filter_lt_length_iff_exists.2 ⟨f, hf, by simpa using hpath⟩
  rw [removeFile]
  exact if_neg hlt.ne

/-- Removing live files with distinct paths is accepted, and leaves the others. -/
theorem foldlM_removeFile {paths : List SstablePath} (hpaths : paths.Nodup) :
    ∀ {files : List SstableMetadata}, (∀ path ∈ paths, ∃ f ∈ files, f.path = path) →
      paths.foldlM removeFile files = .ok (files.filter fun f => f.path ∉ paths) := by
  induction paths with
  | nil =>
    intro files _
    simp
    rfl
  | cons path paths ih =>
    intro files hlive
    obtain ⟨hpath, hpaths⟩ := List.nodup_cons.1 hpaths
    have hrest : ∀ path' ∈ paths, ∃ f ∈ files.filter fun f => f.path ≠ path, f.path = path' := by
      intro path' hpath'
      obtain ⟨f, hf, rfl⟩ := hlive path' (.tail _ hpath')
      refine ⟨f, List.mem_filter.2 ⟨hf, ?_⟩, rfl⟩
      simpa using fun heq : f.path = path => hpath (heq ▸ hpath')
    rw [List.foldlM_cons, removeFile_eq (hlive path (.head _))]
    refine (ih hpaths hrest).trans ?_
    rw [List.filter_filter]
    congr 2
    funext f
    simp [Bool.and_comm]

/-- Adding a file with a range and a path of its own is accepted. -/
theorem addFile_eq {files : List SstableMetadata} {f : SstableMetadata}
    (hrange : f.smallestKey ≤ f.largestKey) (hpath : ∀ f' ∈ files, f'.path ≠ f.path) :
    addFile files f = .ok (files ++ [f]) := by
  rw [addFile, if_neg (not_lt.2 hrange), if_neg (by simpa using hpath)]

/-- Adding files with ranges and paths of their own is accepted. -/
theorem foldlM_addFile {adds : List SstableMetadata}
    (hrange : ∀ f ∈ adds, f.smallestKey ≤ f.largestKey) :
    ∀ {files : List SstableMetadata}, DistinctPaths (files ++ adds) →
      adds.foldlM addFile files = .ok (files ++ adds) := by
  induction adds with
  | nil =>
    intro files _
    rw [List.append_nil]
    rfl
  | cons f adds ih =>
    intro files hdistinct
    have hsplit : files ++ f :: adds = (files ++ [f]) ++ adds := by simp
    have hpath : ∀ f' ∈ files, f'.path ≠ f.path := by
      intro f' hf' heq
      rw [DistinctPaths, List.map_append, List.nodup_append] at hdistinct
      exact hdistinct.2.2 _ (List.mem_map_of_mem hf') _ (.head _) heq
    rw [List.foldlM_cons, addFile_eq (hrange f (.head _)) hpath, ok_bind, hsplit]
    exact ih (fun f' hf' => hrange f' (.tail _ hf')) (hsplit ▸ hdistinct)

/-- An edit that removes live files and adds files with ranges and paths of their own is accepted,
unless its checkpoint moves backwards. -/
theorem applyEdit_eq {m : Manifest} {edit : ManifestEdit} (hremove : edit.removeFiles.Nodup)
    (hlive : ∀ path ∈ edit.removeFiles, ∃ f ∈ m.liveFiles, f.path = path)
    (hrange : ∀ f ∈ edit.addFiles, f.smallestKey ≤ f.largestKey)
    (hdistinct : DistinctPaths
      ((m.liveFiles.filter fun f => f.path ∉ edit.removeFiles) ++ edit.addFiles)) :
    m.applyEdit edit = (advanceCheckpoint m.persistedThrough edit.persistedThrough >>=
      fun nextCheckpoint => .ok ⟨sortMetadata
        ((m.liveFiles.filter fun f => f.path ∉ edit.removeFiles) ++ edit.addFiles),
        nextCheckpoint⟩) := by
  rw [applyEdit, foldlM_removeFile hremove hlive, ok_bind, foldlM_addFile hrange hdistinct, ok_bind]

/-! ## What an accepted edit leaves live -/

/-- Removing files adds none. -/
theorem mem_of_foldlM_removeFile {paths : List SstablePath} {files files' : List SstableMetadata}
    (h : paths.foldlM removeFile files = .ok files') {f : SstableMetadata} (hf : f ∈ files') :
    f ∈ files := by
  induction paths generalizing files with
  | nil =>
    cases h
    exact hf
  | cons path paths ih =>
    rw [List.foldlM_cons] at h
    obtain ⟨next, hnext, hrest⟩ := bind_eq_ok h
    rw [removeFile] at hnext
    split_ifs at hnext
    cases hnext
    exact List.mem_of_mem_filter (ih hrest)

/-- What is there behind the additions was there, or is added. -/
theorem mem_of_foldlM_addFile {adds files files' : List SstableMetadata}
    (h : adds.foldlM addFile files = .ok files') {f : SstableMetadata} (hf : f ∈ files') :
    f ∈ files ∨ f ∈ adds := by
  induction adds generalizing files with
  | nil =>
    cases h
    exact .inl hf
  | cons g adds ih =>
    rw [List.foldlM_cons] at h
    obtain ⟨next, hnext, hrest⟩ := bind_eq_ok h
    rw [addFile] at hnext
    split_ifs at hnext
    cases hnext
    rcases ih hrest with hmem | hmem
    · rcases List.mem_append.1 hmem with hold | hnew
      · exact .inl hold
      · exact .inr (List.mem_singleton.1 hnew ▸ .head _)
    · exact .inr (.tail _ hmem)

/-- Sorting keeps the files. -/
theorem mem_sortMetadata {f : SstableMetadata} {files : List SstableMetadata} :
    f ∈ sortMetadata files ↔ f ∈ files := List.mem_insertionSort _

/-- What an accepted edit leaves live was live, or is added. -/
theorem mem_of_applyEdit {m m' : Manifest} {edit : ManifestEdit} (h : m.applyEdit edit = .ok m')
    {f : SstableMetadata} (hf : f ∈ m'.liveFiles) : f ∈ m.liveFiles ∨ f ∈ edit.addFiles := by
  unfold applyEdit at h
  obtain ⟨removed, hremove, h⟩ := bind_eq_ok h
  obtain ⟨added, hadd, h⟩ := bind_eq_ok h
  obtain ⟨checkpoint, -, h⟩ := bind_eq_ok h
  cases h
  rcases mem_of_foldlM_addFile hadd (mem_sortMetadata.1 hf) with hmem | hmem
  · exact .inl (mem_of_foldlM_removeFile hremove hmem)
  · exact .inr hmem

/-- Sorting keeps the paths distinct. -/
theorem distinctPaths_sortMetadata {files : List SstableMetadata} :
    DistinctPaths (sortMetadata files) ↔ DistinctPaths files :=
  ((List.perm_insertionSort _ files).map SstableMetadata.path).nodup_iff

/-- An edit that adds one file at most, under a new path, keeps the paths distinct. -/
theorem DistinctPaths.edit {files addFiles : List SstableMetadata} (h : DistinctPaths files)
    (removeFiles : List SstablePath)
    (hadd : addFiles = [] ∨ ∃ f, addFiles = [f] ∧ ∀ g ∈ files, g.path ≠ f.path) :
    DistinctPaths ((files.filter fun f => f.path ∉ removeFiles) ++ addFiles) := by
  have hfilter : DistinctPaths (files.filter fun f => f.path ∉ removeFiles) :=
    h.sublist (List.filter_sublist.map _)
  rcases hadd with rfl | ⟨f, rfl, hfresh⟩
  · rwa [List.append_nil]
  · rw [DistinctPaths, List.map_append, List.nodup_append]
    refine ⟨hfilter, List.nodup_singleton _, ?_⟩
    rintro path hpath path' hpath' rfl
    obtain ⟨g, hg, rfl⟩ := List.mem_map.1 hpath
    exact hfresh g (List.mem_of_mem_filter hg) (List.mem_singleton.1 hpath')

end Manifest

end Kronos
