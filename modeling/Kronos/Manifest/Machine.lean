import Kronos.Manifest.Commit

/-!
# The MANIFEST as a state machine

Edits and reloads of a MANIFEST whose I/O succeeds, from the empty one on. An edit is accepted or
rejected by what it says about the files that are live and about the checkpoint (`Rejects`),
whatever it repeats: a removal is judged behind the removals before it, and an addition behind all
removals and the additions before it. `next_ok_iff` is what an accepted edit leaves.
-/

namespace Kronos

open ManifestObject

/-! ## Which edits are accepted -/

/-- The files without those at some paths. -/
def without (files : List FileMetadata) (paths : List Bytes) : List FileMetadata :=
  files.filter fun metadata => !paths.any fun path => samePath metadata.path path

/-- A file at the path is live. -/
def LiveAt (files : List FileMetadata) (path : Bytes) : Prop :=
  ∃ metadata ∈ files, samePath metadata.path path = true

/-- What makes an edit unacceptable: it removes a path that is not live at that point, it adds an
invalid file or one whose path is live at that point, or it lowers the checkpoint. -/
def Rejects (state : LiveState) (edit : FileEdit) : Prop :=
  (∃ before path behind, edit.removeFiles = before ++ path :: behind ∧
    ¬LiveAt (without state.liveFiles before) path) ∨
  (∃ before metadata behind, edit.addFiles = before ++ metadata :: behind ∧
    (¬metadata.Valid ∨
      LiveAt (without state.liveFiles edit.removeFiles ++ before) metadata.path)) ∨
  ∃ checkpoint through, state.persistedThrough = some checkpoint ∧
    edit.persistedThrough = some through ∧ through < checkpoint

/-- The state that an acceptable edit describes. -/
def edited (state : LiveState) (edit : FileEdit) : LiveState :=
  ⟨sortFiles (without state.liveFiles edit.removeFiles ++ edit.addFiles),
    edit.persistedThrough.or state.persistedThrough⟩

namespace LiveState

/-- A path is removed when it is live. -/
theorem removeFile_ok_iff (files : List FileMetadata) (path : Bytes) (next : List FileMetadata) :
    removeFile files path = .ok next ↔ LiveAt files path ∧
      next = files.filter fun metadata => !samePath metadata.path path := by
  have hlive : (files.filter fun metadata => !samePath metadata.path path).length = files.length ↔
      ¬LiveAt files path := by
    rw [List.length_filter_eq_length_iff]
    simp [LiveAt]
  unfold removeFile
  dsimp only
  by_cases h : LiveAt files path
  · rw [if_neg fun heq => hlive.1 heq h]
    constructor
    · intro heq
      cases heq
      exact ⟨h, rfl⟩
    · rintro ⟨-, rfl⟩
      rfl
  · rw [if_pos (hlive.2 h)]
    exact iff_of_false nofun fun hnext => h hnext.1

/-- A file is added when it is valid, and its path is not live. -/
theorem addFile_ok_iff (files : List FileMetadata) (metadata : FileMetadata)
    (next : List FileMetadata) :
    addFile files metadata = .ok next ↔
      (metadata.Valid ∧ ¬LiveAt files metadata.path) ∧ next = files ++ [metadata] := by
  have hlive : (files.any fun existing => samePath existing.path metadata.path) = true ↔
      LiveAt files metadata.path := List.any_eq_true
  unfold addFile
  constructor
  · intro h
    obtain ⟨_, hvalid, h⟩ := bind_eq_ok h
    split_ifs at h with hduplicate
    cases h
    exact ⟨⟨validateMetadata_ok_iff.1 hvalid, fun hat => hduplicate (hlive.2 hat)⟩, rfl⟩
  · rintro ⟨⟨hvalid, hat⟩, rfl⟩
    rw [validateMetadata_ok_iff.2 hvalid, ok_bind, if_neg fun h => hat (hlive.1 h)]

/-- The checkpoint advances unless it is lowered. -/
theorem advanceCheckpoint_ok_iff (checkpoint edit next : Option UInt64) :
    advanceCheckpoint checkpoint edit = .ok next ↔
      (∀ c through, checkpoint = some c → edit = some through → ¬through < c) ∧
        next = edit.or checkpoint := by
  cases edit with
  | none =>
    simp only [advanceCheckpoint, Except.ok.injEq, Option.none_or]
    exact ⟨fun h => ⟨nofun, h.symm⟩, fun h => h.2.symm⟩
  | some through =>
    cases checkpoint with
    | none => simp [advanceCheckpoint, eq_comm]
    | some c =>
      by_cases hlt : through < c
      · simp [advanceCheckpoint, hlt]
      · have hle : c ≤ through := UInt64.not_lt.1 hlt
        simp [advanceCheckpoint, hlt, hle, eq_comm]

/-- Removing paths in turn leaves the other files. -/
theorem foldl_removeFile (paths : List Bytes) : ∀ files : List FileMetadata,
    paths.foldl (fun files path =>
      files.filter fun metadata => !samePath metadata.path path) files =
      without files paths := by
  induction paths with
  | nil =>
    intro files
    simp [without]
  | cons path paths ih =>
    intro files
    rw [List.foldl_cons, ih, without, without, List.filter_filter]
    apply List.filter_congr
    intro metadata _
    rw [List.any_cons, Bool.not_or, Bool.and_comm]

/-- Adding files in turn puts them behind the others. -/
theorem foldl_addFile (adds : List FileMetadata) : ∀ files : List FileMetadata,
    adds.foldl (fun files metadata => files ++ [metadata]) files = files ++ adds := by
  induction adds with
  | nil => exact fun files => (List.append_nil files).symm
  | cons metadata adds ih =>
    intro files
    rw [List.foldl_cons, ih, List.append_assoc, List.singleton_append]

/-- An edit is accepted unless there is a reason to reject it, and then leaves the state that it
describes. -/
theorem next_ok_iff (state : LiveState) (edit : FileEdit) (state' : LiveState) :
    state.next edit = .ok state' ↔ ¬Rejects state edit ∧ state' = edited state edit := by
  have hremove := @foldlM_eq_ok_iff _ _ _ removeFile LiveAt _ removeFile_ok_iff edit.removeFiles
    state.liveFiles
  have hadd := @foldlM_eq_ok_iff _ _ _ addFile
    (fun files metadata => metadata.Valid ∧ ¬LiveAt files metadata.path) _ addFile_ok_iff
    edit.addFiles
  simp only [foldl_removeFile, foldl_addFile] at hremove hadd
  unfold LiveState.next
  constructor
  · intro h
    obtain ⟨removed, hremoved, h⟩ := bind_eq_ok h
    obtain ⟨added, hadded, h⟩ := bind_eq_ok h
    obtain ⟨checkpoint, hadvanced, h⟩ := bind_eq_ok h
    obtain ⟨hlive, rfl⟩ := hremove.1 hremoved
    obtain ⟨hfresh, rfl⟩ := hadd.1 hadded
    obtain ⟨hmonotone, rfl⟩ := (advanceCheckpoint_ok_iff _ _ _).1 hadvanced
    cases h
    refine ⟨?_, rfl⟩
    rintro (⟨before, path, behind, hsplit, hnot⟩ | ⟨before, metadata, behind, hsplit, hnot⟩ |
      ⟨c, through, hc, hthrough, hlt⟩)
    · exact hnot (hlive before path behind hsplit)
    · obtain ⟨hvalid, hdead⟩ := hfresh before metadata behind hsplit
      exact hnot.elim (fun h => h hvalid) hdead
    · exact hmonotone c through hc hthrough hlt
  · rintro ⟨hnot, rfl⟩
    obtain ⟨hlive, hrest⟩ := not_or.1 hnot
    obtain ⟨hfresh, hmonotone⟩ := not_or.1 hrest
    have hremoved := hremove.2 ⟨fun before path behind hsplit => by
      by_contra h
      exact hlive ⟨before, path, behind, hsplit, h⟩, rfl⟩
    have hadded := (@hadd (without state.liveFiles edit.removeFiles) _).2
      ⟨fun before metadata behind hsplit => by
        by_contra h
        refine hfresh ⟨before, metadata, behind, hsplit, ?_⟩
        exact (not_and_or.1 h).imp_right not_not.1, rfl⟩
    have hadvanced := (advanceCheckpoint_ok_iff state.persistedThrough edit.persistedThrough _).2
      ⟨fun c through hc hthrough hlt => hmonotone ⟨c, through, hc, hthrough, hlt⟩, rfl⟩
    rw [hremoved, ok_bind, hadded, ok_bind, hadvanced, ok_bind]
    rfl

end LiveState

/-! ## Every history -/

/-- The steps of a MANIFEST whose I/O succeeds: an edit, a reload, or another construction over its
files. -/
inductive MachineLabel where
  | edit (edit : FileEdit)
  | load
  | reopen
  deriving DecidableEq, Repr

/-- What a step leaves. -/
inductive MachineStep (m : ManifestObject) : MachineLabel → ManifestObject → Prop where
  | edit (edit : FileEdit) : MachineStep m (.edit edit) (m.applyEdit none edit).2
  | load : MachineStep m .load m.load.2
  | reopen {m' : ManifestObject} : construct m.path m.disk = .ok m' → MachineStep m .reopen m'

/-- The histories from the empty MANIFEST on. -/
def manifestMachine (path : String) : Lts ManifestObject MachineLabel where
  initial m := ∃ temp, construct path ⟨none, temp⟩ = .ok m
  step := MachineStep

/-- The state in memory is valid, and it is what the file is loaded as. -/
structure ManifestObject.InSync (m : ManifestObject) : Prop where
  valid : m.memory.Valid
  loads : loadManifest m.disk.file = .ok m.memory

/-- No checkpoint is lowered or lost. -/
def CheckpointLe (checkpoint checkpoint' : Option UInt64) : Prop :=
  ∀ c, checkpoint = some c → ∃ c', checkpoint' = some c' ∧ c ≤ c'

/-- A checkpoint is not above itself. -/
theorem CheckpointLe.refl (checkpoint : Option UInt64) : CheckpointLe checkpoint checkpoint :=
  fun c hc => ⟨c, hc, UInt64.le_refl c⟩

/-- The order of checkpoints is transitive. -/
theorem CheckpointLe.trans {a b c : Option UInt64} (h : CheckpointLe a b) (h' : CheckpointLe b c) :
    CheckpointLe a c := by
  intro n hn
  obtain ⟨n', hn', hle⟩ := h n hn
  obtain ⟨n'', hn'', hle'⟩ := h' n' hn'
  exact ⟨n'', hn'', UInt64.le_trans hle hle'⟩

/-- An edit that is not rejected keeps the checkpoint, or raises it. -/
theorem checkpointLe_edited {state : LiveState} {edit : FileEdit} (h : ¬Rejects state edit) :
    CheckpointLe state.persistedThrough (edited state edit).persistedThrough := by
  intro c hc
  cases hthrough : edit.persistedThrough with
  | none =>
    refine ⟨c, ?_, UInt64.le_refl c⟩
    rw [edited, hthrough, Option.none_or]
    exact hc
  | some through =>
    refine ⟨through, by rw [edited, hthrough, Option.some_or], ?_⟩
    by_contra hlt
    exact h (.inr (.inr ⟨c, through, hc, hthrough, UInt64.not_le.1 hlt⟩))

/-- A snapshot is persisted when no system call fails. -/
theorem ManifestObject.persistSnapshot_none {state : LiveState} (h : state.Valid)
    (m : ManifestObject) : m.persistSnapshot none state =
      (.ok (), { m with disk := ⟨some (snapshotText state), none⟩ }) := by
  unfold persistSnapshot writeSnapshot
  rw [h.recordsText_eq]
  rfl

namespace ManifestObject.InSync

variable {m m' : ManifestObject}

/-- A reload changes nothing. -/
theorem load (h : m.InSync) : m.load = (.ok (), m) := by
  rw [ManifestObject.load, h.loads]

/-- Another construction has the same state. -/
theorem construct (h : m.InSync) :
    ManifestObject.construct m.path m.disk =
      .ok { m with disk := { m.disk with temp := none } } := by
  rw [ManifestObject.construct, h.loads, ok_bind]

/-- An edit is accepted, and its state persisted and published, or there is a reason to reject it,
and nothing changes. -/
theorem applyEdit (h : m.InSync) (edit : FileEdit) :
    (Rejects m.memory edit ∧ ∃ failure, m.applyEdit none edit = (.error failure, m)) ∨
    (¬Rejects m.memory edit ∧ m.applyEdit none edit = (.ok (),
      { m with
        memory := edited m.memory edit
        disk := ⟨some (snapshotText (edited m.memory edit)), none⟩ })) := by
  by_cases hrejects : Rejects m.memory edit
  · left
    refine ⟨hrejects, ?_⟩
    unfold ManifestObject.applyEdit
    cases hnext : m.memory.next edit with
    | error failure => exact ⟨failure, rfl⟩
    | ok state => exact absurd hrejects ((LiveState.next_ok_iff _ _ _).1 hnext).1
  · right
    refine ⟨hrejects, ?_⟩
    have hnext := (LiveState.next_ok_iff m.memory edit _).2 ⟨hrejects, rfl⟩
    unfold ManifestObject.applyEdit
    rw [hnext]
    dsimp only
    rw [persistSnapshot_none (h.valid.next hnext)]

/-- The step keeps the state in memory and the file in sync, and the checkpoint from falling. -/
theorem step (h : m.InSync) {label : MachineLabel} (hstep : MachineStep m label m') :
    m'.InSync ∧ CheckpointLe m.memory.persistedThrough m'.memory.persistedThrough := by
  cases hstep with
  | edit edit =>
    rcases h.applyEdit edit with ⟨-, failure, happlied⟩ | ⟨hnot, happlied⟩
    · rw [happlied]
      exact ⟨h, .refl _⟩
    · rw [happlied]
      have hvalid := h.valid.next ((LiveState.next_ok_iff m.memory edit _).2 ⟨hnot, rfl⟩)
      exact ⟨⟨hvalid, loadManifest_snapshot hvalid⟩, checkpointLe_edited hnot⟩
  | load =>
    rw [h.load]
    exact ⟨h, .refl _⟩
  | reopen hconstruct =>
    rw [h.construct] at hconstruct
    cases hconstruct
    exact ⟨⟨h.valid, h.loads⟩, .refl _⟩

/-- So does a run. -/
theorem run (h : m.InSync) {path : String} {labels : List MachineLabel}
    (hrun : (manifestMachine path).Run m labels m') :
    m'.InSync ∧ CheckpointLe m.memory.persistedThrough m'.memory.persistedThrough := by
  apply hrun.invariant (fun s l t hs hstep => ?_) ⟨h, .refl _⟩
  obtain ⟨hsync, hle⟩ := hs.1.step hstep
  exact ⟨hsync, hs.2.trans hle⟩

end ManifestObject.InSync

/-- The object is in step with its file in every state. -/
theorem inSync_of_reachable {path : String} {m : ManifestObject}
    (h : (manifestMachine path).Reachable m) : m.InSync := by
  refine @Lts.Reachable.invariant _ _ _ ManifestObject.InSync ?_ ?_ m h
  · rintro m ⟨temp, hconstruct⟩
    cases hconstruct
    exact ⟨⟨by simp, .nil, .nil⟩, rfl⟩
  · exact fun m label m' hs hstep => (hs.step hstep).1

/-- In every state of every history, the live files differ in their paths, are valid and sorted, and
reloads change nothing. The checkpoint never falls, and is never lost. An edit is rejected when it
removes a path that is not live at that point, adds an invalid file or one whose path is live at
that point, or lowers the checkpoint, and then changes nothing. Otherwise it leaves the live files
without the removed ones and with the added ones, and its own checkpoint if it has one. -/
theorem manifest_machine {path : String} {m : ManifestObject}
    (h : (manifestMachine path).Reachable m) :
    (m.memory.liveFiles.Pairwise (fun a b => samePath a.path b.path = false) ∧
      (∀ metadata ∈ m.memory.liveFiles,
        metadata.path ≠ [] ∧ metadata.smallestKey ≤ metadata.largestKey) ∧
      m.memory.liveFiles.Pairwise fun a b =>
        a.level.toNat < b.level.toNat ∨ a.level.toNat = b.level.toNat ∧ a.path ≤ b.path) ∧
    (m.load = (.ok (), m) ∧ Loads m.path m.disk m.memory) ∧
    (∀ labels m', (manifestMachine path).Run m labels m' →
      ∀ c, m.memory.persistedThrough = some c →
        ∃ c', m'.memory.persistedThrough = some c' ∧ c ≤ c') ∧
    ∀ edit, (Rejects m.memory edit → ∃ failure, m.applyEdit none edit = (.error failure, m)) ∧
      (¬Rejects m.memory edit → ∃ m', m.applyEdit none edit = (.ok (), m') ∧
        m'.memory = ⟨sortFiles (without m.memory.liveFiles edit.removeFiles ++ edit.addFiles),
          edit.persistedThrough.or m.memory.persistedThrough⟩) := by
  have hsync := inSync_of_reachable h
  refine ⟨⟨hsync.valid.paths, hsync.valid.files, ?_⟩, ⟨hsync.load, _, hsync.construct, rfl⟩, ?_, ?_⟩
  · exact hsync.valid.sorted.imp FileMetadata.le_iff.1
  · exact fun labels m' hrun => (hsync.run hrun).2
  · intro edit
    rcases hsync.applyEdit edit with ⟨hrejects, failure, happlied⟩ | ⟨hnot, happlied⟩
    · exact ⟨fun _ => ⟨failure, happlied⟩, fun hnot => absurd hrejects hnot⟩
    · exact ⟨fun hrejects => absurd hrejects hnot, fun _ => ⟨_, happlied, rfl⟩⟩

/-- The empty MANIFEST, an edit that adds a file, and one that adds it again. -/
theorem manifest_machine_addOne :
    (manifestMachine "db/MANIFEST").Reachable newObject ∧
    (newObject.applyEdit none addOne).2.memory = addedOne ∧
    ∃ failure, (newObject.applyEdit none addOne).2.applyEdit none addOne =
      (.error failure, (newObject.applyEdit none addOne).2) := by
  have hempty : (manifestMachine "db/MANIFEST").Reachable newObject := .initial ⟨none, rfl⟩
  have hadded := hempty.step (.edit addOne)
  have hmemory : (newObject.applyEdit none addOne).2.memory = addedOne := by decide
  refine ⟨hempty, hmemory, ?_⟩
  apply ((manifest_machine hadded).2.2.2 addOne).1
  rw [hmemory]
  -- The path is live already.
  refine .inr (.inl ⟨[], _, [], rfl, .inr ⟨_, ?_, samePath_self _⟩⟩)
  decide

end Kronos
