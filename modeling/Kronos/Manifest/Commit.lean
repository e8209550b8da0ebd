import Kronos.Manifest.RoundTrip

/-!
# The commit of an edit

The object and its file as a transition system: constructions over the files that are there, edits
that return or fail at any step, and crashes at any point of an edit. The rename is the commit
point: before it, memory and file are as they were, and behind it, the file is the next snapshot.
What follows the rename, the `fsync` of the parent directory, can still throw. The file is then
ahead of the memory, which the failure of an edit otherwise never causes
(`applyEdit_error_agrees_iff`).
-/

namespace Kronos

/-! ## What persisting leaves behind -/

namespace ManifestObject

/-- The steps behind the rename. -/
def AfterRename (fault : Option PersistFault) : Prop :=
  fault = some .openParent ∨ fault = some .syncParent

/-- Where `persistSnapshot` ends: before the rename, behind it, or at the end. -/
inductive Persisted (fault : Option PersistFault) (state : LiveState) (m : ManifestObject) :
    Except Failure Unit × ManifestObject → Prop where
  | kept (failure : Failure) (temp : Option Bytes) : ¬AfterRename fault →
    Persisted fault state m (.error failure, { m with disk := { m.disk with temp := temp } })
  | renamed (failure : Failure) : AfterRename fault → Persisted fault state m
    (.error failure, { m with disk := ⟨some (snapshotText state), none⟩ })
  | done : ¬AfterRename fault →
    Persisted fault state m (.ok (), { m with disk := ⟨some (snapshotText state), none⟩ })

/-- The publication of a valid state ends in one of these ways. -/
theorem persistSnapshot_spec (fault : Option PersistFault) {state : LiveState} (h : state.Valid)
    (m : ManifestObject) : Persisted fault state m (m.persistSnapshot fault state) := by
  have hkept : ∀ failure temp, fault ≠ some .openParent → fault ≠ some .syncParent →
      Persisted fault state m (.error failure, { m with disk := { m.disk with temp := temp } }) :=
    fun failure temp hopen hsync => .kept failure temp (by rintro (h | h) <;> contradiction)
  unfold persistSnapshot writeSnapshot
  rw [h.recordsText_eq]
  cases fault with
  | none => exact .done (by rintro (h | h) <;> cases h)
  | some f =>
    cases f with
    | createDirectories => exact hkept _ m.disk.temp (by simp) (by simp)
    | create => exact hkept _ m.disk.temp (by simp) (by simp)
    | write size => exact hkept _ _ (by simp) (by simp)
    | close => exact hkept _ _ (by simp) (by simp)
    | openForSync => exact hkept _ _ (by simp) (by simp)
    | sync => exact hkept _ _ (by simp) (by simp)
    | rename => exact hkept _ none (by simp) (by simp)
    | openParent => exact .renamed _ (.inl rfl)
    | syncParent => exact .renamed _ (.inr rfl)

/-- How `applyEdit` ends: rejected, or with the candidate state where `persistSnapshot` ends. -/
inductive Applied (fault : Option PersistFault) (edit : FileEdit) (m : ManifestObject) :
    Except Failure Unit × ManifestObject → Prop where
  | rejected (failure : Failure) : m.memory.next edit = .error failure →
    Applied fault edit m (.error failure, m)
  | kept (state : LiveState) (failure : Failure) (temp : Option Bytes) :
    m.memory.next edit = .ok state → ¬AfterRename fault →
    Applied fault edit m (.error failure, { m with disk := { m.disk with temp := temp } })
  | renamed (state : LiveState) (failure : Failure) : m.memory.next edit = .ok state →
    AfterRename fault →
    Applied fault edit m (.error failure, { m with disk := ⟨some (snapshotText state), none⟩ })
  | done (state : LiveState) : m.memory.next edit = .ok state → ¬AfterRename fault →
    Applied fault edit m
      (.ok (), { m with memory := state, disk := ⟨some (snapshotText state), none⟩ })

/-- An edit ends in one of these ways. -/
theorem applyEdit_spec (fault : Option PersistFault) (edit : FileEdit) {m : ManifestObject}
    (h : m.memory.Valid) : Applied fault edit m (m.applyEdit fault edit) := by
  unfold applyEdit
  cases hnext : m.memory.next edit with
  | error failure => exact .rejected failure hnext
  | ok state =>
    have hpersist := persistSnapshot_spec fault (h.next hnext) m
    dsimp only
    generalize m.persistSnapshot fault state = x at hpersist ⊢
    cases hpersist with
    | kept failure temp hfault => exact .kept state failure temp hnext hfault
    | renamed failure hfault => exact .renamed state failure hnext hfault
    | done hfault => exact .done state hnext hfault

end ManifestObject

/-! ## The life of a MANIFEST -/

open ManifestObject

/-- A MANIFEST: its files without a process, or an object over them. -/
inductive ManifestLife where
  | closed (disk : ManifestDisk)
  | opened (m : ManifestObject)

/-- The steps of a MANIFEST. -/
inductive ManifestLabel where
  | start
  | edit (edit : FileEdit) (fault : Option PersistFault)
  | crash (edit : FileEdit) (point : CrashPoint)
  | stop
  deriving DecidableEq, Repr

/-- What a step does: a construction, an edit with the step of it that fails, a crash in an edit, or
the end of the process between two edits. -/
inductive ManifestStep (path : String) : ManifestLife → ManifestLabel → ManifestLife → Prop where
  | start {disk : ManifestDisk} {m : ManifestObject} : construct path disk = .ok m →
    ManifestStep path (.closed disk) .start (.opened m)
  | edit {m : ManifestObject} (edit : FileEdit) (fault : Option PersistFault) :
    ManifestStep path (.opened m) (.edit edit fault) (.opened (m.applyEdit fault edit).2)
  | crash {m : ManifestObject} {edit : FileEdit} {state : LiveState} (point : CrashPoint) :
    m.memory.next edit = .ok state →
    ManifestStep path (.opened m) (.crash edit point) (.closed (m.crash point state))
  | stop {m : ManifestObject} : ManifestStep path (.opened m) .stop (.closed m.disk)

/-- The life of a MANIFEST, from any files that are there at first. -/
def manifestLife (path : String) : Lts ManifestLife ManifestLabel where
  initial s := ∃ disk, s = .closed disk
  step := ManifestStep path

/-- An edit that does not fail behind its rename, or that leaves the state as it is. -/
def Harmless (m : ManifestObject) (edit : FileEdit) (fault : Option PersistFault) : Prop :=
  AfterRename fault → ∀ state, m.memory.next edit = .ok state → state = m.memory

/-- Every edit is harmless. -/
def HarmlessStep : ManifestLife → ManifestLabel → Prop
  | .opened m, .edit edit fault => Harmless m edit fault
  | _, _ => True

/-- What holds of every object: its state is valid, and its file is loaded. -/
def Sound : ManifestLife → Prop
  | .closed _ => True
  | .opened m => m.memory.Valid ∧ ∃ durable, loadManifest m.disk.file = .ok durable

/-- What holds besides when every edit is harmless: the file is loaded as the state in memory. -/
def Synced : ManifestLife → Prop
  | .closed _ => True
  | .opened m => m.memory.Valid ∧ loadManifest m.disk.file = .ok m.memory

/-- A construction leaves memory and file in agreement. -/
theorem construct_synced {path : String} {disk : ManifestDisk} {m : ManifestObject}
    (h : construct path disk = .ok m) : Synced (.opened m) := by
  unfold construct at h
  obtain ⟨memory, hload, h⟩ := bind_eq_ok h
  cases h
  exact ⟨valid_of_loadManifest hload, hload⟩

/-- A step keeps an object sound. -/
theorem sound_step {path : String} {s s' : ManifestLife} {label : ManifestLabel} (h : Sound s)
    (hstep : ManifestStep path s label s') : Sound s' := by
  cases hstep with
  | start hconstruct =>
    obtain ⟨hvalid, hload⟩ := construct_synced hconstruct
    exact ⟨hvalid, _, hload⟩
  | @edit m edit fault =>
    obtain ⟨hvalid, durable, hload⟩ := h
    have happlied := applyEdit_spec fault edit hvalid
    generalize m.applyEdit fault edit = x at happlied ⊢
    cases happlied with
    | rejected failure => exact ⟨hvalid, durable, hload⟩
    | kept state failure temp => exact ⟨hvalid, durable, hload⟩
    | renamed state failure hnext =>
      exact ⟨hvalid, state, loadManifest_snapshot (hvalid.next hnext)⟩
    | done state hnext =>
      exact ⟨hvalid.next hnext, state, loadManifest_snapshot (hvalid.next hnext)⟩
  | crash point hnext => trivial
  | stop => trivial

/-- A harmless step keeps it in step with its file. -/
theorem synced_step {path : String} {s s' : ManifestLife} {label : ManifestLabel} (h : Synced s)
    (hstep : ManifestStep path s label s') (hharmless : HarmlessStep s label) : Synced s' := by
  cases hstep with
  | start hconstruct => exact construct_synced hconstruct
  | @edit m edit fault =>
    obtain ⟨hvalid, hload⟩ := h
    have happlied := applyEdit_spec fault edit hvalid
    generalize m.applyEdit fault edit = x at happlied ⊢
    cases happlied with
    | rejected failure => exact ⟨hvalid, hload⟩
    | kept state failure temp => exact ⟨hvalid, hload⟩
    | renamed state failure hnext hfault =>
      have hstate : state = m.memory := hharmless hfault state hnext
      subst hstate
      exact ⟨hvalid, loadManifest_snapshot hvalid⟩
    | done state hnext => exact ⟨hvalid.next hnext, loadManifest_snapshot (hvalid.next hnext)⟩
  | crash point hnext => trivial
  | stop => trivial

/-- An object is sound in every state of its life. -/
theorem sound_of_reachable {path : String} {s : ManifestLife}
    (h : (manifestLife path).Reachable s) : Sound s := by
  refine @Lts.Reachable.invariant _ _ _ Sound ?_ ?_ s h
  · rintro s ⟨disk, rfl⟩
    trivial
  · exact fun s label s' hs hstep => sound_step hs hstep

/-- It is in step with its file as long as all steps are harmless. -/
theorem synced_of_reachable {path : String} {s : ManifestLife}
    (h : ((manifestLife path).restrict HarmlessStep).Reachable s) : Synced s := by
  refine @Lts.Reachable.invariant _ _ _ Synced ?_ ?_ s h
  · rintro s ⟨disk, rfl⟩
    trivial
  · exact fun s label s' hs hstep => synced_step hs hstep.1 hstep.2

/-! ## An object over an empty directory -/

/-- The object of a directory without a MANIFEST. -/
def newObject : ManifestObject := ⟨"db/MANIFEST", ⟨[], none⟩, ⟨none, none⟩⟩

/-- An edit that adds a file whose path has a quote, a backslash, a newline and a NUL, from the
empty key to a key of a space and a quote. -/
def addOne : FileEdit := ⟨[], [⟨[34, 92, 10, 0], 0, [], [32, 34]⟩], some 3⟩

/-- The state behind it. -/
def addedOne : LiveState := ⟨addOne.addFiles, some 3⟩

/-- The edit is accepted. -/
theorem next_addOne : newObject.memory.next addOne = .ok addedOne := by decide

/-- The new object is opened over a directory without a MANIFEST. -/
theorem newObject_reachable :
    ((manifestLife "db/MANIFEST").restrict HarmlessStep).Reachable (.opened newObject) := by
  have hclosed : ((manifestLife "db/MANIFEST").restrict HarmlessStep).Reachable
      (.closed ⟨none, none⟩) := .initial ⟨_, rfl⟩
  have hstart : ManifestStep "db/MANIFEST" (.closed ⟨none, none⟩) .start (.opened newObject) :=
    .start rfl
  exact hclosed.step ⟨hstart, trivial⟩

/-! ## Atomicity -/

/-- A construction over the files loads this state. -/
def Loads (path : String) (disk : ManifestDisk) (state : LiveState) : Prop :=
  ∃ m, construct path disk = .ok m ∧ m.memory = state

/-- A file that is loaded as a state lets an object be opened with it. -/
theorem loads_of_loadManifest {path : String} {disk : ManifestDisk} {state : LiveState}
    (h : loadManifest disk.file = .ok state) : Loads path disk state := by
  unfold Loads construct
  rw [h]
  exact ⟨_, rfl, rfl⟩

/-- **Atomicity.** In every state that is reached, whatever failed before: an edit that returns is
loaded again as the state in memory, and a crash at any point of an accepted edit leaves files that
are loaded as what was durable before the edit, or as the state behind it. What is durable is the
state in memory, unless an earlier edit failed behind its rename. -/
theorem applyEdit_atomic {path : String} {m : ManifestObject}
    (h : (manifestLife path).Reachable (.opened m)) :
    (∀ edit fault m', m.applyEdit fault edit = (.ok (), m') → Loads path m'.disk m'.memory) ∧
    (∃ durable, Loads path m.disk durable ∧
      ∀ edit state, m.memory.next edit = .ok state → ∀ point,
        Loads path (m.crash point state) durable ∨ Loads path (m.crash point state) state) ∧
    (((manifestLife path).restrict HarmlessStep).Reachable (.opened m) →
      Loads path m.disk m.memory ∧
      ∀ edit state, m.memory.next edit = .ok state → ∀ point,
        Loads path (m.crash point state) m.memory ∨ Loads path (m.crash point state) state) := by
  obtain ⟨hvalid, durable, hload⟩ := sound_of_reachable h
  have hcrash : ∀ durable, loadManifest m.disk.file = .ok durable → ∀ edit state,
      m.memory.next edit = .ok state → ∀ point,
        Loads path (m.crash point state) durable ∨ Loads path (m.crash point state) state := by
    intro durable hload edit state hnext point
    have hstate := hvalid.next hnext
    cases point with
    | beforeCreate => exact .inl (loads_of_loadManifest hload)
    | writing size => exact .inl (loads_of_loadManifest hload)
    | renamed =>
      refine .inr (loads_of_loadManifest ?_)
      unfold ManifestObject.crash
      rw [hstate.recordsText_eq]
      exact loadManifest_snapshot hstate
  refine ⟨fun edit fault m' hreturn => ?_, ⟨durable, loads_of_loadManifest hload,
    hcrash durable hload⟩, fun hharmless => ?_⟩
  · have happlied := applyEdit_spec fault edit hvalid
    rw [hreturn] at happlied
    cases happlied with
    | done state hnext => exact loads_of_loadManifest (loadManifest_snapshot (hvalid.next hnext))
  · obtain ⟨-, hsynced⟩ := synced_of_reachable hharmless
    exact ⟨loads_of_loadManifest hsynced, hcrash _ hsynced⟩

/-- The first edit of a new object, with and without a crash. -/
theorem applyEdit_atomic_addOne :
    Loads "db/MANIFEST" (newObject.applyEdit none addOne).2.disk addedOne ∧
    ∀ point, Loads "db/MANIFEST" (newObject.crash point addedOne) newObject.memory ∨
      Loads "db/MANIFEST" (newObject.crash point addedOne) addedOne := by
  obtain ⟨hreturn, -, hharmless⟩ := applyEdit_atomic newObject_reachable.of_restrict
  have hreturned : (newObject.applyEdit none addOne).1 = .ok () := by decide
  have hmemory : (newObject.applyEdit none addOne).2.memory = addedOne := by decide
  have hloads := hreturn addOne none (newObject.applyEdit none addOne).2
    (Prod.ext_iff.mpr ⟨hreturned, rfl⟩)
  rw [hmemory] at hloads
  exact ⟨hloads, (hharmless newObject_reachable).2 addOne addedOne next_addOne⟩

/-! ## Failed edits -/

/-- Memory and file are as before: the object has the state that it had, and a construction over its
files loads that state. -/
def Agrees (before after : ManifestObject) : Prop :=
  after.memory = before.memory ∧ Loads after.path after.disk before.memory

/-- **Failed edits.** As long as every edit was harmless, an edit that throws leaves memory and file
as before exactly when it is harmless itself. -/
theorem applyEdit_error_agrees_iff {path : String} {m : ManifestObject}
    (h : ((manifestLife path).restrict HarmlessStep).Reachable (.opened m)) {edit : FileEdit}
    {fault : Option PersistFault} {failure : Failure} {m' : ManifestObject}
    (herror : m.applyEdit fault edit = (.error failure, m')) :
    Agrees m m' ↔ Harmless m edit fault := by
  obtain ⟨hvalid, hload⟩ := synced_of_reachable h
  have happlied := applyEdit_spec fault edit hvalid
  rw [herror] at happlied
  unfold Agrees Harmless
  cases happlied with
  | rejected failure hnext =>
    refine iff_of_true ⟨rfl, loads_of_loadManifest hload⟩ fun _ state hstate => ?_
    rw [hnext] at hstate
    cases hstate
  | kept state failure temp hnext hfault =>
    exact iff_of_true ⟨rfl, loads_of_loadManifest hload⟩ fun hlate => absurd hlate hfault
  | renamed state failure hnext hfault =>
    have hnew := loadManifest_snapshot (hvalid.next hnext)
    constructor
    · rintro ⟨-, m'', hconstruct, hmemory⟩ - state' hstate'
      rw [hnext] at hstate'
      cases hstate'
      unfold construct at hconstruct
      dsimp only at hconstruct
      rw [hnew, ok_bind] at hconstruct
      cases hconstruct
      exact hmemory
    · intro hharmless
      have hstate : state = m.memory := hharmless hfault state hnext
      exact ⟨rfl, loads_of_loadManifest (hstate ▸ hnew)⟩

/-- The same edit, with a rename that fails. -/
theorem applyEdit_error_agrees_rename :
    Agrees newObject (newObject.applyEdit (some .rename) addOne).2 := by
  have herror : newObject.applyEdit (some .rename) addOne =
      (.error (.exception "Failed to commit MANIFEST"),
        (newObject.applyEdit (some .rename) addOne).2) :=
    Prod.ext_iff.mpr ⟨by decide, rfl⟩
  refine (applyEdit_error_agrees_iff newObject_reachable herror).mpr fun hlate => ?_
  rcases hlate with h | h <;> cases h

/-- The `fsync` of the parent directory fails: the edit throws and the memory is as before, but a
construction over the files loads the edit. -/
theorem syncParent_not_agrees :
    ((manifestLife "db/MANIFEST").restrict HarmlessStep).Reachable (.opened newObject) ∧
    (newObject.applyEdit (some .syncParent) addOne).1 =
      .error (.exception "Failed to fsync parent directory: db") ∧
    (newObject.applyEdit (some .syncParent) addOne).2.memory = newObject.memory ∧
    Loads "db/MANIFEST" (newObject.applyEdit (some .syncParent) addOne).2.disk addedOne ∧
    ¬Agrees newObject (newObject.applyEdit (some .syncParent) addOne).2 := by
  have hloaded : loadManifest (newObject.applyEdit (some .syncParent) addOne).2.disk.file =
      .ok addedOne := by decide
  refine ⟨newObject_reachable, by decide, by decide, loads_of_loadManifest hloaded, ?_⟩
  rintro ⟨-, m, hconstruct, hmemory⟩
  unfold construct at hconstruct
  rw [hloaded, ok_bind] at hconstruct
  cases hconstruct
  exact absurd hmemory (by decide)

end Kronos
