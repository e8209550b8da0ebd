import Kronos.Engine.Recover

/-!
# The engine

The fields of `KronosEngine` that its threads share, and what each critical section of
`src/engine.cpp` does with them: the checks and the rotation of a foreground writer, the insertion
of its record, the lookup of `get` in memory, the commit of an edit and the release of the immutable
slot by the maintenance worker, and the sections of `shutdown`. Which thread runs which section, and
when, is in `Kronos.Engine.System`.

A section returns its result beside the engine that it leaves behind. A null dereference is a
`Failure.undefined`.
-/

namespace Kronos

/-- A frozen Memtable behind a `std::shared_ptr`. Pointers are compared by their addresses. -/
structure SharedMemtable where
  address : ℕ
  memtable : Memtable

/-- A call of `put` or `remove`. -/
inductive Write where
  | put (key value : Bytes)
  | remove (key : Bytes)
  deriving DecidableEq, Repr

namespace Write

/-- The key that a call writes. -/
def key : Write → Bytes
  | put key _ => key
  | remove key => key

/-- The entry of a call under a sequence number. -/
def entry (sequence : ℕ) : Write → InternalEntry
  | put _ value => ⟨value, sequence, .put⟩
  | remove _ => ⟨[], sequence, .delete⟩

/-- The candidate that the size of the active Memtable is estimated with. -/
def candidate (w : Write) : InternalEntry := w.entry uint64Max

/-- The call of the log, with the fault of its system calls. -/
def call (fault : Option Wal.AppendFault) : Write → Wal.Call
  | put key value => .put key value fault
  | remove key => .remove key fault

/-- The record of a call. -/
def record (w : Write) (sequence : ℕ) : Record := (w.call none).record sequence

end Write

/-- The fields of a `KronosEngine`. `durable` is the state that the MANIFEST file holds, which
`applyEdit` replaces before it replaces its state in memory. -/
structure KronosEngine (F : Type) where
  memtableTargetBytes : ℕ
  compactionPolicy : CompactionPolicy
  log : LogFiles
  store : Store F
  durable : Manifest
  activeMemtable : Option Memtable
  immutableMemtable : Option SharedMemtable
  flushQueue : List SharedMemtable
  /-- `shutting_down_` of the queue. -/
  queueClosed : Bool
  backgroundError : Option Failure
  shuttingDown : Bool
  /-- The address of the next Memtable that is shared. -/
  nextAddress : ℕ

namespace KronosEngine

variable {F R : Type}

/-! ## Writing -/

/-- `rotation_required`, over the active Memtable. -/
def rotationRequired (active : Memtable) (w : Write) : Bool :=
  active.entryCount > 0 && active.wouldExceedTarget w.key w.candidate

/-- `flush_queue_.push`. -/
def push (e : KronosEngine F) (task : SharedMemtable) : Bool × KronosEngine F :=
  if e.queueClosed then (false, e) else (true, { e with flushQueue := e.flushQueue ++ [task] })

/-- The frozen Memtable moves to the immutable slot, under an address of its own. -/
def share (e : KronosEngine F) (frozen : Memtable) (active : Option Memtable) : KronosEngine F :=
  { e with
    immutableMemtable := some ⟨e.nextAddress, frozen⟩
    activeMemtable := active
    nextAddress := e.nextAddress + 1 }

/-- `rotateActiveMemtableLocked`. -/
def rotateActiveMemtableLocked (e : KronosEngine F) : Except Failure Unit × KronosEngine F :=
  match e.activeMemtable with
  | none => (.error (.exception "No active Memtable to rotate"), e)
  | some active =>
    if e.immutableMemtable.isSome then
      (.error (.exception "Immutable Memtable slot is already occupied"), e)
    else if active.entryCount = 0 then (.ok (), e)
    else
      match active.freeze with
      | (false, _) => (.error (.exception "Active Memtable could not be frozen"), e)
      | (true, frozen) =>
        match (e.share frozen (some (.new e.memtableTargetBytes))).push ⟨e.nextAddress, frozen⟩ with
        | (false, e) => (.error (.exception
            "Background flush queue rejected a Memtable before engine shutdown"), e)
        | (true, e) => (.ok (), e)

/-- How `prepareForWriteLocked` goes on: it returns, it waits for the immutable slot, or it
throws. -/
inductive Prepared where
  | ready
  | waits
  | threw (failure : Failure)
  deriving DecidableEq, Repr

/-- The exception of a write during shutdown. -/
def shuttingDownFailure : Failure := .exception "KronosEngine is shutting down"

/-- The predicate of the wait in `prepareForWriteLocked`. -/
def writerMayGoOn (e : KronosEngine F) : Bool :=
  e.immutableMemtable.isNone || e.shuttingDown || e.backgroundError.isSome

/-- `prepareForWriteLocked`, from its beginning, or from where a waiting writer has the mutex
again. -/
def prepareForWriteLocked (e : KronosEngine F) (woken : Bool) (w : Write) :
    Prepared × KronosEngine F :=
  if woken && !e.writerMayGoOn then (.waits, e)
  else if e.shuttingDown then (.threw shuttingDownFailure, e)
  else
    match e.backgroundError with
    | some failure => (.threw failure, e)
    | none =>
      match e.activeMemtable with
      | none => (.threw (.undefined "null active_memtable_"), e)
      | some active =>
        if rotationRequired active w && e.immutableMemtable.isSome then (.waits, e)
        else if rotationRequired active w then
          match e.rotateActiveMemtableLocked with
          | (.ok (), e) => (.ready, e)
          | (.error failure, e) => (.threw failure, e)
        else (.ready, e)

/-- The last section of `put` and `remove`: the record that the log has under a sequence number goes
to the active Memtable. -/
def insertLocked (e : KronosEngine F) (w : Write) (sequence : ℕ) :
    Except Failure Unit × KronosEngine F :=
  match e.activeMemtable with
  | none => (.error (.undefined "null active_memtable_"), e)
  | some active =>
    match w with
    | .put key value =>
      match active.put key value sequence with
      | (.success, active) => (.ok (), { e with activeMemtable := some active })
      | (_, active) => (.error (.exception "Active Memtable rejected a WAL-backed PUT"),
          { e with activeMemtable := some active })
    | .remove key =>
      match active.remove key sequence with
      | (.success, active) => (.ok (), { e with activeMemtable := some active })
      | (_, active) => (.error (.exception "Active Memtable rejected a WAL-backed DELETE"),
          { e with activeMemtable := some active })

/-! ## Reading -/

/-- The lookup of `get` in the active Memtable, if there is one. -/
def lookupActive (e : KronosEngine F) (key : Bytes) : Option InternalEntry :=
  e.activeMemtable.bind (·.lookupEntry key)

/-- The lookup of `get` in the immutable Memtable, if there is one. -/
def lookupImmutable (e : KronosEngine F) (key : Bytes) : Option InternalEntry :=
  e.immutableMemtable.bind (·.memtable.lookupEntry key)

/-- `get`, when nothing happens between its sections: the version that it finds. -/
def lookup (fmt : TableFormat F R) (e : KronosEngine F) (key : Bytes) :
    Except Failure (Option InternalEntry) :=
  match e.lookupActive key with
  | some entry => .ok (some entry)
  | none =>
    match e.lookupImmutable key with
    | some entry => .ok (some entry)
    | none => e.store.lookupFiles fmt e.store.manifest.liveFiles key

/-- `get` of `src/engine 2.cpp`, which considers every generation. -/
def lookupExhaustive (fmt : TableFormat F R) (e : KronosEngine F) (key : Bytes) :
    Except Failure (Option InternalEntry) :=
  let winner := considerNewer none (e.lookupActive key)
  let winner := considerNewer winner (e.lookupImmutable key)
  e.store.manifest.liveFiles.foldlM (e.store.lookupFile fmt key) winner

/-! ## Maintaining -/

/-- How the I/O of `applyEdit` can fail: while the MANIFEST file holds the old state, or after the
rename has made it hold the new one. -/
inductive CommitFault where
  | beforeRename (failure : Failure)
  | behindRename (failure : Failure)
  deriving DecidableEq, Repr

/-- `manifest_.applyEdit`. -/
def commitEdit (e : KronosEngine F) (edit : ManifestEdit) (fault : Option CommitFault) :
    Except Failure Unit × KronosEngine F :=
  match e.store.commit edit with
  | .error failure => (.error failure, e)
  | .ok store =>
    match fault with
    | none => (.ok (), { e with store := store, durable := store.manifest })
    | some (.beforeRename failure) => (.error failure, e)
    | some (.behindRename failure) => (.error failure, { e with durable := store.manifest })

/-- The section of `flushMemtable` that releases the immutable slot. -/
def clearImmutable (e : KronosEngine F) (task : SharedMemtable) :
    Except Failure Unit × KronosEngine F :=
  if e.immutableMemtable.map (·.address) ≠ some task.address then
    (.error (.exception "Flushed Memtable is not the current immutable"), e)
  else (.ok (), { e with immutableMemtable := none })

/-- `maybeCompact`, up to its commit, over a copy of the live files. -/
def prepareCompaction (fmt : TableFormat F R) (e : KronosEngine F)
    (liveFiles : List SstableMetadata) : Except Failure (Option (Store F × ManifestEdit)) := do
  match ← { e.store with manifest := { e.store.manifest with liveFiles := liveFiles } }
    |>.prepareCompaction fmt e.compactionPolicy with
  | none => .ok none
  | some (store, edit) => .ok (some ({ store with manifest := e.store.manifest }, edit))

/-- The section of `backgroundWorkerLoop` that records a failure. -/
def recordFailure (e : KronosEngine F) (failure : Failure) : KronosEngine F :=
  if e.backgroundError.isNone then { e with backgroundError := some failure } else e

/-! ## Shutting down -/

/-- The predicate of the wait in `shutdown`. -/
def shutdownMayGoOn (e : KronosEngine F) : Bool :=
  e.immutableMemtable.isNone || e.backgroundError.isSome

/-- The section of `shutdown` that hands over the final Memtable, behind the wait. -/
def scheduleFinalMemtable (e : KronosEngine F) : Except Failure Unit × KronosEngine F :=
  match e.activeMemtable with
  | none => (.ok (), e)
  | some active =>
    if e.backgroundError.isNone && active.entryCount > 0 then
      match active.freeze with
      | (false, _) => (.error (.exception "Final active Memtable could not be frozen"), e)
      | (true, frozen) =>
        match (e.share frozen none).push ⟨e.nextAddress, frozen⟩ with
        | (false, e) => (.error (.exception
            "Flush queue closed before final Memtable could be scheduled"), e)
        | (true, e) => (.ok (), e)
    else (.ok (), e)

/-! ## What the sections leave alone -/

/-- The flags are the same, and no active Memtable is taken away. -/
structure SameFlags (e e' : KronosEngine F) : Prop where
  queueClosed : e'.queueClosed = e.queueClosed
  backgroundError : e'.backgroundError = e.backgroundError
  shuttingDown : e'.shuttingDown = e.shuttingDown
  active : e'.activeMemtable = none → e.activeMemtable = none

/-- An engine has its own flags. -/
theorem SameFlags.refl (e : KronosEngine F) : SameFlags e e := ⟨rfl, rfl, rfl, id⟩

/-- The SSTables and the MANIFEST are the same. -/
def SameTables (e e' : KronosEngine F) : Prop := e'.store = e.store ∧ e'.durable = e.durable

/-- An engine has its own tables. -/
theorem SameTables.refl (e : KronosEngine F) : SameTables e e := ⟨rfl, rfl⟩

/-- A section over the Memtables and their queue, which takes no active Memtable away. -/
structure OnlyMemtables (e e' : KronosEngine F) : Prop extends SameFlags e e' where
  tables : SameTables e e'

/-- A section that does nothing is one over the Memtables. -/
theorem OnlyMemtables.refl (e : KronosEngine F) : OnlyMemtables e e := ⟨.refl e, .refl e⟩

/-- A rotation is a section over the Memtables. -/
theorem onlyMemtables_rotate (e : KronosEngine F) :
    OnlyMemtables e e.rotateActiveMemtableLocked.2 := by
  unfold rotateActiveMemtableLocked
  cases e.activeMemtable with
  | none => exact .refl e
  | some active =>
    dsimp only
    split_ifs
    · exact .refl e
    · exact .refl e
    · rcases active.freeze with ⟨_ | _, frozen⟩
      · exact .refl e
      · unfold push
        dsimp only
        split_ifs <;> exact ⟨⟨rfl, rfl, rfl, nofun⟩, rfl, rfl⟩

/-- So is the check of a writer. -/
theorem onlyMemtables_prepare (e : KronosEngine F) (woken : Bool) (w : Write) :
    OnlyMemtables e (e.prepareForWriteLocked woken w).2 := by
  have hrotate := e.onlyMemtables_rotate
  unfold prepareForWriteLocked
  split_ifs
  · exact .refl e
  · exact .refl e
  · cases e.backgroundError with
    | some failure => exact .refl e
    | none =>
      cases e.activeMemtable with
      | none => exact .refl e
      | some active =>
        dsimp only
        split_ifs
        · exact .refl e
        · rcases hresult : e.rotateActiveMemtableLocked with ⟨_ | _, e'⟩ <;>
            rw [hresult] at hrotate <;> exact hrotate
        · exact .refl e

/-- A writer may append when there is neither a shutdown nor a failure. -/
theorem flags_of_ready {e : KronosEngine F} {woken : Bool} {w : Write}
    (h : (e.prepareForWriteLocked woken w).1 = .ready) :
    e.shuttingDown = false ∧ e.backgroundError = none ∧ e.activeMemtable ≠ none := by
  unfold prepareForWriteLocked at h
  split_ifs at h with hwait hshutdown
  cases herror : e.backgroundError with
  | some failure =>
    rw [herror] at h
    cases h
  | none =>
    cases hactive : e.activeMemtable with
    | none =>
      rw [herror, hactive] at h
      cases h
    | some active => exact ⟨by simpa using hshutdown, rfl, nofun⟩

/-- So is an insertion. -/
theorem onlyMemtables_insert (e : KronosEngine F) (w : Write) (sequence : ℕ) :
    OnlyMemtables e (e.insertLocked w sequence).2 := by
  unfold insertLocked
  cases e.activeMemtable with
  | none => exact .refl e
  | some active =>
    cases w with
    | put key value =>
      dsimp only
      rcases active.put key value sequence with ⟨_ | _ | _, active'⟩ <;>
        exact ⟨⟨rfl, rfl, rfl, nofun⟩, rfl, rfl⟩
    | remove key =>
      dsimp only
      rcases active.remove key sequence with ⟨_ | _ | _, active'⟩ <;>
        exact ⟨⟨rfl, rfl, rfl, nofun⟩, rfl, rfl⟩

/-- A commit leaves the flags. -/
theorem sameFlags_commit (e : KronosEngine F) (edit : ManifestEdit) (fault : Option CommitFault) :
    SameFlags e (e.commitEdit edit fault).2 := by
  unfold commitEdit
  cases e.store.commit edit with
  | error failure => exact .refl e
  | ok store =>
    rcases fault with _ | (_ | _)
    · exact ⟨rfl, rfl, rfl, id⟩
    · exact .refl e
    · exact ⟨rfl, rfl, rfl, id⟩

/-- The release of the slot is a section over the Memtables. -/
theorem onlyMemtables_clear (e : KronosEngine F) (task : SharedMemtable) :
    OnlyMemtables e (e.clearImmutable task).2 := by
  unfold clearImmutable
  split_ifs
  · exact .refl e
  · exact ⟨⟨rfl, rfl, rfl, id⟩, rfl, rfl⟩

/-- The hand-over of the final Memtable changes neither a flag nor the SSTables. -/
theorem scheduleFinal_frame (e : KronosEngine F) :
    e.scheduleFinalMemtable.2.queueClosed = e.queueClosed ∧
      e.scheduleFinalMemtable.2.backgroundError = e.backgroundError ∧
      e.scheduleFinalMemtable.2.shuttingDown = e.shuttingDown ∧
      SameTables e e.scheduleFinalMemtable.2 := by
  unfold scheduleFinalMemtable
  cases e.activeMemtable with
  | none => exact ⟨rfl, rfl, rfl, .refl e⟩
  | some active =>
    dsimp only
    split_ifs
    · rcases active.freeze with ⟨_ | _, frozen⟩
      · exact ⟨rfl, rfl, rfl, .refl e⟩
      · unfold push
        dsimp only
        split_ifs <;> exact ⟨rfl, rfl, rfl, rfl, rfl⟩
    · exact ⟨rfl, rfl, rfl, .refl e⟩

/-! ## Opening -/

/-- The fields of an engine whose recovery has returned. -/
def opened (s : Store F) (active : Memtable) (wal : Wal) (memtableTargetBytes : ℕ)
    (compactionPolicy : CompactionPolicy) : KronosEngine F where
  memtableTargetBytes := memtableTargetBytes
  compactionPolicy := compactionPolicy
  log := ⟨wal, none, none⟩
  store := { s with nextSstableId := 1 }
  durable := s.manifest
  activeMemtable := some active
  immutableMemtable := none
  flushQueue := []
  queueClosed := false
  backgroundError := none
  shuttingDown := false
  nextAddress := 0

/-- The constructor, over the SSTables and the log of a directory. -/
def construct (H : Hashing) (fmt : TableFormat F R) (s : Store F) (log : Option Bytes)
    (memtableTargetBytes : ℕ) (compactionPolicy : CompactionPolicy) :
    Except Failure (KronosEngine F) := do
  let (active, wal) ← start H fmt s log memtableTargetBytes
  .ok (opened s active wal memtableTargetBytes compactionPolicy)

/-- A constructor that returns has opened the engine. -/
theorem opened_of_construct {H : Hashing} {fmt : TableFormat F R} {s : Store F} {log : Option Bytes}
    {memtableTargetBytes : ℕ} {compactionPolicy : CompactionPolicy} {e : KronosEngine F}
    (h : construct H fmt s log memtableTargetBytes compactionPolicy = .ok e) :
    ∃ active wal, e = opened s active wal memtableTargetBytes compactionPolicy := by
  obtain ⟨⟨active, wal⟩, -, h⟩ := bind_eq_ok h
  exact ⟨active, wal, (Except.ok.inj h).symm⟩

end KronosEngine

end Kronos
