import Kronos.Base.Simulation
import Kronos.Engine.Idle
import Kronos.Engine.Paths
import Kronos.Manifest.Commit
import Kronos.Manifest.Encoding
import Kronos.Manifest.Machine

/-!
# The MANIFEST file of an engine

The engine has its MANIFEST as two states, the one in memory and the one that the file holds. Here
these are the state and the bytes of a `Manifest` object under the path of the database directory: a
commit is an edit of the object, which can fail before its rename or behind it, a crash leaves the
files of the object, and an opening constructs another one over them
(`manifestFile_simulates`). So the snapshots that `src/manifest.cpp` writes and parses are what the
engine takes them for, in every state of the life of a directory. The levels and the sequence
numbers that it records are 64-bit numbers there (`Node.Levels`, `System.Invariant.fits64`).
-/

namespace Kronos

open KronosEngine

variable {F R ι : Type} {H : Hashing} {fmt : TableFormat F R}

/-! ## The numbers -/

/-- A flush prepares files of level 0, and leaves the MANIFEST. -/
theorem Store.level_of_prepareFlush {s s' : Store F} {memtable : Memtable} {edit : ManifestEdit}
    (h : s.prepareFlush fmt memtable = .ok (s', edit)) :
    s'.manifest = s.manifest ∧ ∀ f ∈ edit.addFiles, f.level ≤ 1 := by
  unfold prepareFlush at h
  split_ifs at h
  cases hentries : memtable.table.entries with
  | nil =>
    rw [hentries] at h
    cases h
  | cons first rest =>
    rw [hentries] at h
    obtain ⟨⟨path, s₁⟩, halloc, h⟩ := bind_eq_ok h
    obtain ⟨hmanifest, -, -⟩ := allocateSstablePath_ok halloc
    obtain ⟨file, -, h⟩ := bind_eq_ok h
    cases h
    refine ⟨hmanifest, fun f hf => ?_⟩
    rw [List.mem_singleton.1 hf]
    exact Nat.zero_le 1

/-- There are two levels. -/
def KronosEngine.Levels (e : KronosEngine F) (worker : WorkerPc) : Prop :=
  ∀ f, e.RefersWith worker f → f.level ≤ 1

/-- A step of the worker keeps the levels. -/
theorem WorkerStep.levels {e e' : KronosEngine F} {fault : Option (WorkerFault F)}
    {pc pc' : WorkerPc} (hstep : WorkerStep H fmt e fault pc e' pc') (h : e.Levels pc) :
    e'.Levels pc' := by
  have hrefers := fun hflush hcompact => (hstep.refers hflush hcompact).2
  -- A job leaves the live files, and has what its edit adds in hand.
  have hjob : ∀ {store : Store F} {pc' : WorkerPc}, store.manifest = e.store.manifest →
      (∀ f ∈ pc'.inHand, f.level ≤ 1) → Levels { e with store := store } pc' := by
    rintro store pc' hmanifest hlevel f (hf | hf | hf)
    · exact h f (.inl (hmanifest ▸ hf))
    · exact h f (.inr (.inl hf))
    · exact hlevel f hf
  cases hstep with
  | flush task store edit hprepare =>
    obtain ⟨hmanifest, hlevel⟩ := Store.level_of_prepareFlush hprepare
    exact hjob hmanifest hlevel
  | flushThrows task store failure _ hmanifest _ => exact hjob hmanifest nofun
  | flushFails task store failure hmanifest _ => exact hjob hmanifest nofun
  | compactNothing liveFiles _ =>
    exact hjob rfl nofun
  | compact liveFiles store edit hprepare =>
    unfold KronosEngine.prepareCompaction at hprepare
    obtain ⟨prepared, hprepared, hprepare⟩ := bind_eq_ok hprepare
    rcases prepared with _ | ⟨store', edit'⟩
    · cases hprepare
    · cases hprepare
      exact hjob rfl fun f hf => ((Store.lowers_of_prepareCompaction hprepared).level f hf).le
  | compactThrows liveFiles store failure _ hmanifest _ => exact hjob hmanifest nofun
  | compactFails liveFiles store failure hmanifest _ => exact hjob hmanifest nofun
  | _ => exact fun f hf => h f (hrefers nofun nofun f hf)

variable [DecidableEq ι]

/-- A step of a process keeps the two levels. -/
theorem ProcessStep.levels {s s' : System F ι} {label : ProcessLabel F ι}
    (hstep : ProcessStep H fmt s label s') (h : s.engine.Levels s.worker) :
    s'.engine.Levels s'.worker := by
  have hempty : ∀ {pc : WorkerPc}, pc.inHand = [] → s.engine.Levels pc := by
    rintro pc hnil f (hf | hf | hf)
    · exact h f (.inl hf)
    · exact h f (.inr (.inl hf))
    · exact absurd (hnil ▸ hf) List.not_mem_nil
  cases hstep with
  | call i e' h' pc hcall =>
    obtain ⟨hstore, hdurable⟩ := hcall.sameTables
    rintro f (hf | hf | hf)
    · exact h f (.inl (hstore ▸ hf))
    · exact h f (.inr (.inl (hdurable ▸ hf)))
    · exact h f (.inr (.inr hf))
  | worker fault e pc hwork => exact hwork.levels h
  | workerAcquire m pc hacquires _ =>
    intro f hf
    unfold KronosEngine.RefersWith at hf
    rw [WorkerPc.inHand_of_acquires hacquires] at hf
    exact h f hf
  | notifyCleared through _ => exact hempty rfl
  | notifyFailed _ => exact hempty rfl
  | _ => exact h

/-- The files that a directory records are on two levels. -/
def Node.Levels : Node F ι → Prop
  | running s => s.engine.Levels s.worker
  | closed _ store _ _ => ∀ f ∈ store.manifest.liveFiles, f.level ≤ 1

/-- The constructor keeps them. -/
theorem Node.levels_of_constructed {store : Store F} {log : Option Bytes}
    {memtableTargetBytes : ℕ} {compactionPolicy : CompactionPolicy} {e : KronosEngine F}
    (hok : construct H fmt store log memtableTargetBytes compactionPolicy = .ok e)
    (h : ∀ f ∈ store.manifest.liveFiles, f.level ≤ 1) : e.Levels .pop := by
  obtain ⟨active, wal, rfl⟩ := opened_of_construct hok
  rintro f (hf | hf | hf)
  · exact h f hf
  · exact h f hf
  · exact absurd hf List.not_mem_nil

omit [DecidableEq ι] in

/-- The worker that commits an edit has the files in hand that the edit adds. -/
theorem System.inHand_of_committing {s : System F ι} {edit : ManifestEdit}
    (h : s.committing = some edit) : s.worker.inHand = edit.addFiles := by
  unfold System.committing at h
  split at h
  · next heq =>
    cases h
    rw [heq]
    rfl
  · next heq =>
    cases h
    rw [heq]
    rfl
  · cases h

/-- A step in the life of a directory keeps the two levels. -/
theorem Node.Levels.step {node node' : Node F ι} (h : node.Levels) {label : LifeLabel F ι}
    (hstep : LifeStep H fmt node label node') : node'.Levels := by
  cases hstep with
  | process label hprocess _ => exact hprocess.levels h
  | crash store hmanifest _ => exact fun f hf => h f (.inr (.inl (hmanifest ▸ hf)))
  | crashInAppend i w fault _ => exact fun f hf => h f (.inr (.inl hf))
  | crashInCommit edit store hcommitting hcommit =>
    obtain ⟨manifest, hmanifest, hok⟩ := bind_eq_ok hcommit
    cases hok
    intro f hf
    rcases Manifest.mem_of_applyEdit hmanifest hf with hold | hnew
    · exact h f (.inl hold)
    · exact h f (.inr (.inr (System.inHand_of_committing hcommitting ▸ hnew)))
  | crashInReclaim flushedThrough point _ => exact fun f hf => h f (.inr (.inl hf))
  | crashInRecovery point _ => exact h
  | reopen memtableTargetBytes compactionPolicy hok => exact Node.levels_of_constructed hok h

/-- The sequence numbers of the log are 64-bit numbers. -/
theorem lastSequence_le {rs rs' : List Record} (hv : Wal.ValidHistory rs) (hsub : rs' ⊆ rs) :
    ∀ through ∈ lastSequence rs', through ≤ uint64Max := by
  intro through hthrough
  obtain ⟨r, hr, rfl⟩ := Option.map_eq_some_iff.1 hthrough
  exact (hv.sequence_lt r (hsub (List.mem_of_getLast? hr))).le

omit [DecidableEq ι] in
/-- The numbers of an edit that is committed are 64-bit numbers. -/
theorem System.Invariant.fits64 {s : System F ι} (hs : s.Invariant H)
    (hlevels : s.engine.Levels s.worker) {edit : ManifestEdit}
    (hcommitting : s.committing = some edit) :
    Fits64 s.engine.store.manifest.liveFiles s.engine.store.manifest.persistedThrough ∧
      Fits64 edit.addFiles edit.persistedThrough := by
  obtain ⟨g, hd, -⟩ := hs.data
  have hlevel : ∀ {n : ℕ}, n ≤ 1 → n ≤ uint64Max := fun h => h.trans (by decide)
  have hsealed : g.old ++ g.sealed ⊆ g.records := by
    intro r hr
    simp only [Generations.records, Generations.applied, List.mem_append] at hr ⊢
    tauto
  have hcovered : g.covered s.worker.clearing ⊆ g.records := by
    unfold Generations.covered
    split_ifs
    · exact hsealed
    · exact fun r hr => hsealed (List.mem_append_left _ hr)
  refine ⟨⟨fun f hf => hlevel (hlevels f (.inl hf)), ?_⟩,
    fun f hf => hlevel (hlevels f (.inr (.inr ?_))), ?_⟩
  · -- A checkpoint is the number of a record.
    rw [hd.checkpoint]
    exact lastSequence_le hd.history hcovered
  · rw [System.inHand_of_committing hcommitting]
    exact hf
  · -- The checkpoint of a flush is the number of a record, and that of a compaction is none.
    have hknows := hd.worker
    unfold System.committing at hcommitting
    split at hcommitting
    · next heq =>
      cases hcommitting
      rw [heq] at hknows
      rw [hknows.2.2]
      exact lastSequence_le hd.history hsealed
    · next heq =>
      cases hcommitting
      rw [heq] at hknows
      rw [hknows.2]
      exact fun checkpoint h => absurd h (Option.not_mem_none checkpoint)
    · cases hcommitting

/-! ## Commits -/

/-- The MANIFEST file has the bytes of the snapshot of a state, or there is none yet. -/
structure ManifestDisk.Holds (disk : ManifestDisk) (state : LiveState) : Prop where
  valid : state.Valid
  file : disk.file = none ∧ state = ⟨[], none⟩ ∨ disk.file = some (snapshotText state)

/-- A file that holds a state is loaded as that state. -/
theorem ManifestDisk.Holds.load {disk : ManifestDisk} {state : LiveState} (h : disk.Holds state) :
    loadManifest disk.file = .ok state := by
  rcases h.file with ⟨hnone, rfl⟩ | hsome
  · rw [hnone]
    rfl
  · rw [hsome]
    exact loadManifest_snapshot h.valid

/-- An object with the MANIFEST of an engine: its state is the one in memory, and its file holds the
durable one. -/
structure KronosEngine.Has (directory : Bytes) (e : KronosEngine F) (m : ManifestObject) :
    Prop where
  valid : m.memory.Valid
  memory : m.memory = e.store.manifest.encode directory
  file : m.disk.Holds (e.durable.encode directory)

open ManifestObject in
/-- A commit is an edit of the object, or leaves it. -/
theorem KronosEngine.Has.commitEdit {directory : Bytes} {e : KronosEngine F} {m : ManifestObject}
    (h : e.Has directory m) {edit : ManifestEdit}
    (hm : Fits64 e.store.manifest.liveFiles e.store.manifest.persistedThrough)
    (hedit : Fits64 edit.addFiles edit.persistedThrough) (fault : Option CommitFault)
    (path : String) :
    ∃ m', (e.commitEdit edit fault).2.Has directory m' ∧
      (m' = m ∨ ∃ label, ManifestStep path (.opened m) label (.opened m')) := by
  have hnext : ∀ {store : Store F}, e.store.commit edit = .ok store →
      m.memory.next (edit.encode directory) = .ok (store.manifest.encode directory) := by
    intro store hcommit
    obtain ⟨manifest, hmanifest, hok⟩ := bind_eq_ok hcommit
    cases hok
    rw [h.memory, next_encode directory hm hedit, hmanifest]
    rfl
  have hcases := e.commitEdit_cases edit fault
  generalize e.commitEdit edit fault = result at hcases
  cases hcases with
  | rejected fault failure _ => exact ⟨m, h, .inl rfl⟩
  | before failure => exact ⟨m, h, .inl rfl⟩
  | committed store hcommit =>
    have hvalid := h.valid.next (hnext hcommit)
    have happly : m.applyEdit none (edit.encode directory) = (.ok (), { m with
        memory := store.manifest.encode directory
        disk := ⟨some (snapshotText (store.manifest.encode directory)), none⟩ }) := by
      unfold ManifestObject.applyEdit
      rw [hnext hcommit]
      dsimp only
      rw [persistSnapshot_none hvalid]
    have hstep := @ManifestStep.edit path m (edit.encode directory) none
    rw [happly] at hstep
    exact ⟨_, ⟨hvalid, rfl, ⟨hvalid, .inr rfl⟩⟩, .inr ⟨_, hstep⟩⟩
  -- The sync of the directory fails behind the rename.
  | behind failure store hcommit =>
    have hvalid := h.valid.next (hnext hcommit)
    have happly : (m.applyEdit (some .syncParent) (edit.encode directory)).2 = { m with
        disk := ⟨some (snapshotText (store.manifest.encode directory)), none⟩ } := by
      unfold ManifestObject.applyEdit persistSnapshot writeSnapshot
      rw [hnext hcommit]
      dsimp only
      rw [hvalid.recordsText_eq]
      rfl
    have hstep := @ManifestStep.edit path m (edit.encode directory) (some .syncParent)
    rw [happly] at hstep
    exact ⟨{ m with disk := ⟨some (snapshotText (store.manifest.encode directory)), none⟩ },
      ⟨h.valid, h.memory, ⟨hvalid, .inr rfl⟩⟩, .inr ⟨_, hstep⟩⟩

/-- A step of the worker leaves the MANIFEST, or commits an edit. -/
theorem WorkerStep.manifests {e e' : KronosEngine F} {fault : Option (WorkerFault F)}
    {pc pc' : WorkerPc} (hstep : WorkerStep H fmt e fault pc e' pc') :
    e'.store.manifest = e.store.manifest ∧ e'.durable = e.durable ∨
      ∃ edit fault,
        ((∃ task, pc = .commitFlush task edit true) ∨ pc = .commitCompaction edit true) ∧
          e' = (e.commitEdit edit fault).2 := by
  cases hstep with
  | flush task store edit hprepare =>
    exact .inl ⟨(Store.level_of_prepareFlush hprepare).1, rfl⟩
  | flushThrows task store failure _ hmanifest _ => exact .inl ⟨hmanifest, rfl⟩
  | flushFails task store failure hmanifest _ => exact .inl ⟨hmanifest, rfl⟩
  | commitFlush task edit fault => exact .inr ⟨edit, fault, .inl ⟨task, rfl⟩, rfl⟩
  | clear task flushedThrough =>
    obtain ⟨hstore, hdurable⟩ := (e.onlyMemtables_clear task).tables
    exact .inl ⟨congrArg _ hstore, hdurable⟩
  | compact liveFiles store edit hprepare =>
    unfold KronosEngine.prepareCompaction at hprepare
    obtain ⟨prepared, -, hprepare⟩ := bind_eq_ok hprepare
    rcases prepared with _ | ⟨store', edit'⟩ <;> cases hprepare
    exact .inl ⟨rfl, rfl⟩
  | compactThrows liveFiles store failure _ hmanifest _ => exact .inl ⟨hmanifest, rfl⟩
  | compactFails liveFiles store failure hmanifest _ => exact .inl ⟨hmanifest, rfl⟩
  | commitCompaction edit fault => exact .inr ⟨edit, fault, .inr rfl, rfl⟩
  | record task failure =>
    obtain ⟨hstore, hdurable⟩ := e.sameTables_record failure
    exact .inl ⟨congrArg _ hstore, hdurable⟩
  | _ => exact .inl ⟨rfl, rfl⟩

/-- What changes neither the state in memory nor the durable one keeps the object. -/
theorem KronosEngine.Has.congr {directory : Bytes} {e e' : KronosEngine F} {m : ManifestObject}
    (h : e.Has directory m) (hmanifest : e'.store.manifest = e.store.manifest)
    (hdurable : e'.durable = e.durable) : e'.Has directory m :=
  ⟨h.valid, hmanifest ▸ h.memory, hdurable ▸ h.file⟩

/-- A step of a process is an edit of the object, or leaves it. -/
theorem ProcessStep.has {s s' : System F ι} {label : ProcessLabel F ι}
    (hstep : ProcessStep H fmt s label s') (hs : s.Invariant H)
    (hlevels : s.engine.Levels s.worker) {directory : Bytes} {m : ManifestObject}
    (h : s.engine.Has directory m) (path : String) :
    ∃ m', s'.engine.Has directory m' ∧
      (m' = m ∨ ∃ label, ManifestStep path (.opened m) label (.opened m')) := by
  cases hstep with
  | call i e h' pc hcall =>
    obtain ⟨hstore, hdurable⟩ := hcall.sameTables
    exact ⟨m, h.congr (congrArg _ hstore) hdurable, .inl rfl⟩
  | worker fault e pc hwork =>
    rcases hwork.manifests with ⟨hmanifest, hdurable⟩ | ⟨edit, fault, hworker, rfl⟩
    · exact ⟨m, h.congr hmanifest hdurable, .inl rfl⟩
    · have hcommitting : s.committing = some edit := by
        unfold System.committing
        rcases hworker with ⟨task, hworker⟩ | hworker <;> rw [hworker]
      obtain ⟨hm, hedit⟩ := hs.fits64 hlevels hcommitting
      exact h.commitEdit hm hedit fault path
  | _ => exact ⟨m, h, .inl rfl⟩

/-! ## The life of a directory -/

/-- The MANIFEST of a directory: an object of the process that has it open, or the files. -/
def Node.Has (directory : Bytes) : Node F ι → ManifestLife → Prop
  | running s, .opened m => s.engine.Has directory m
  | closed _ store _ _, .closed disk => disk.Holds (store.manifest.encode directory)
  | _, _ => False

/-- The MANIFEST of a directory without one. -/
def ManifestObject.fresh (path : String) : ManifestObject := ⟨path, ⟨[], none⟩, ⟨none, none⟩⟩

/-- A step in the life of a directory is one in the life of its MANIFEST, or leaves it. -/
theorem LifeStep.has {node node' : Node F ι} {label : LifeLabel F ι}
    (hstep : LifeStep H fmt node label node') (hnode : node.Invariant H) (hlevels : node.Levels)
    {directory : Bytes} {x : ManifestLife} (h : node.Has directory x) (path : String) :
    ∃ x', node'.Has directory x' ∧ (x' = x ∨ ∃ label, ManifestStep path x label x') := by
  -- A crash between two edits leaves the files of the object.
  have hstop : ∀ {s : System F ι} {log : Bytes} {store : Store F} {kept : List (ι × Record)},
      (Node.running s).Has directory x → store.manifest = s.engine.durable →
      ∃ x', (s.crashed log store kept).Has directory x' ∧
        (x' = x ∨ ∃ label, ManifestStep path x label x') := by
    intro s log store kept h hmanifest
    cases x with
    | closed disk => cases h
    | opened m =>
      refine ⟨.closed m.disk, ?_, .inr ⟨.stop, .stop⟩⟩
      show m.disk.Holds (store.manifest.encode directory)
      rw [hmanifest]
      exact KronosEngine.Has.file h
  cases hstep with
  | process label hprocess _ =>
    cases x with
    | closed disk => cases h
    | opened m =>
      obtain ⟨m', hm', hsteps⟩ := hprocess.has hnode hlevels h path
      exact ⟨.opened m', hm', hsteps.imp_left (congrArg _)⟩
  | crash store hmanifest _ => exact hstop h hmanifest
  | crashInAppend i w fault _ => exact hstop h rfl
  | @crashInCommit s edit store hcommitting hcommit =>
    cases x with
    | closed disk => cases h
    | opened m =>
      obtain ⟨hm, hedit⟩ := System.Invariant.fits64 hnode hlevels hcommitting
      obtain ⟨manifest, hmanifest, hok⟩ := bind_eq_ok hcommit
      cases hok
      have hnext : m.memory.next (edit.encode directory) = .ok (manifest.encode directory) := by
        rw [KronosEngine.Has.memory h, next_encode directory hm hedit, hmanifest]
        rfl
      have hvalid := LiveState.Valid.next (KronosEngine.Has.valid h) hnext
      -- The commit got as far as the rename.
      refine ⟨.closed (m.crash .renamed (manifest.encode directory)), ?_,
        .inr ⟨_, .crash .renamed hnext⟩⟩
      refine ⟨hvalid, .inr ?_⟩
      unfold ManifestObject.crash
      rw [hvalid.recordsText_eq]
  -- The log is another file.
  | crashInReclaim flushedThrough point _ => exact hstop h rfl
  | crashInRecovery point _ =>
    cases x with
    | opened m => cases h
    | closed disk => exact ⟨.closed disk, h, .inl rfl⟩
  | @reopen log store calls history e memtableTargetBytes compactionPolicy hok =>
    cases x with
    | opened m => cases h
    | closed disk =>
      have hfile : disk.Holds (store.manifest.encode directory) := h
      obtain ⟨active, wal, rfl⟩ := opened_of_construct hok
      have hconstruct : ManifestObject.construct path disk =
          .ok ⟨path, store.manifest.encode directory, { disk with temp := none }⟩ := by
        unfold ManifestObject.construct
        rw [hfile.load]
        rfl
      exact ⟨.opened _, ⟨hfile.valid, rfl, ⟨hfile.valid, hfile.file⟩⟩,
        .inr ⟨_, .start hconstruct⟩⟩

/-- **The MANIFEST file.** The life of a directory is simulated by that of its MANIFEST: what the
engine has in memory and what it takes to be durable are, with the paths written out, the state of a
`Manifest` object and the snapshot in its file. -/
theorem manifestFile_simulates (H : Hashing) (fmt : TableFormat F R) (directory : Bytes)
    (path : String) :
    (life H fmt : Lts (Node F ι) (LifeLabel F ι)).Simulation
      ((manifestLife path).startingAt (.opened (.fresh path)))
      fun node x => (node.Invariant H ∧ node.Levels) ∧ node.Has directory x where
  initial := by
    intro node hinitial
    have hnode := invariant_of_reachable (.initial hinitial)
    obtain ⟨s, ⟨e, memtableTargetBytes, compactionPolicy, hok, rfl⟩, rfl⟩ := hinitial
    have hlevels := Node.levels_of_constructed hok nofun
    obtain ⟨active, wal, rfl⟩ := opened_of_construct hok
    exact ⟨_, rfl, ⟨hnode, hlevels⟩,
      ⟨⟨nofun, .nil, .nil⟩, rfl, ⟨⟨nofun, .nil, .nil⟩, .inl ⟨rfl, rfl⟩⟩⟩⟩
  step := by
    rintro node label node' x ⟨⟨hnode, hlevels⟩, h⟩ hstep
    obtain ⟨x', hx', hsteps⟩ := LifeStep.has hstep hnode hlevels h path
    exact ⟨x', ⟨⟨hnode.step hstep, hlevels.step hstep⟩, hx'⟩, hsteps⟩

end Kronos
