import Kronos.Engine.Runs
import Kronos.Sstable.Format

/-!
# The guards of the engine

The checks of `src/engine.cpp` and of `applyEdit` that are there to catch a broken invariant: an
empty slot where a Memtable is needed, a slot that is taken, a Memtable that cannot be frozen, a
queue that is closed, a record that is rejected, a task that is not what it should be, an edit that
does not match the MANIFEST. In every state of the life of a directory, none of them is about to
fire (`guardsHold_of_reachable`), wherever the worker has failed, as long as the log works.
-/

namespace Kronos

open KronosEngine

/-- A writer dereferences `active_memtable_`: behind the flags in its check, and in its
insertion. -/
def Dereferences {F : Type} (e : KronosEngine F) : Pc → Prop
  | .write _ (.prepare _ _) => e.shuttingDown = false ∧ e.backgroundError = none
  | .write _ (.insert _ _) => True
  | _ => False

/-- Every check of consistency passes in a state. -/
structure GuardsHold {F ι : Type} (s : System F ι) : Prop where
  /-- A writer finds an active Memtable. -/
  active : ∀ i, Dereferences s.engine (s.calls i) → s.engine.activeMemtable ≠ none
  /-- The immutable Memtable is frozen, and not empty. -/
  slot : ∀ task, s.engine.immutableMemtable = some task →
    task.memtable.state = .immutable ∧ task.memtable.entryCount ≠ 0
  /-- The slot is occupied exactly when one task is queued or held, for the same Memtable. -/
  tasks : s.engine.backgroundError = none →
    s.worker.task.toList ++ s.engine.flushQueue = s.engine.immutableMemtable.toList
  /-- The check of a writer throws for a shutdown or a failure of the worker only. -/
  prepare : ∀ i w woken failure, s.calls i = .write w (.prepare woken true) →
    (s.engine.prepareForWriteLocked woken w).1 = .threw failure →
    s.engine.shuttingDown = true ∧ failure = shuttingDownFailure ∨
      s.engine.backgroundError = some failure
  /-- The active Memtable takes a record of the log. -/
  insert : ∀ i w sequence, s.calls i = .write w (.insert sequence true) →
    (s.engine.insertLocked w sequence).1 = .ok ()
  /-- The final Memtable is scheduled. -/
  drain : ∀ i, s.calls i = .shutdown (.drain true) → s.engine.shutdownMayGoOn = true →
    s.engine.scheduleFinalMemtable.1 = .ok ()
  /-- The worker flushes a frozen Memtable with entries. -/
  flush : ∀ task, s.worker = .flush task →
    task.memtable.state = .immutable ∧ task.memtable.entryCount ≠ 0
  /-- The edit of a flush is accepted. -/
  commitFlush : ∀ task edit, s.worker = .commitFlush task edit true →
    ∃ store, s.engine.store.commit edit = .ok store
  /-- The slot of a flushed Memtable is released. -/
  clear : ∀ task flushedThrough, s.worker = .clear task flushedThrough true →
    (s.engine.clearImmutable task).1 = .ok ()
  /-- The edit of a compaction is accepted, unless its output is read back out of order. -/
  commitCompaction : ∀ edit, s.worker = .commitCompaction edit true →
    (∃ store, s.engine.store.commit edit = .ok store) ∨
      ¬Store.RangesInOrder edit ∧ s.engine.store.commit edit = .error Store.rangeFailure

section Guards

variable {F R ι : Type} {H : Hashing} {fmt : TableFormat F R} {s : System F ι}

/-- A task of the worker is a frozen Memtable with entries, until its failure is recorded. -/
theorem Data.flushable {g : Generations} {e : KronosEngine F} {h : History ι} {worker : WorkerPc}
    (hd : Data H g e h worker) {task : SharedMemtable} (hslot : e.immutableMemtable = some task) :
    task.memtable.state = .immutable ∧ task.memtable.entryCount ≠ 0 := by
  obtain ⟨hstate, hreplays, hsealed⟩ := hd.slot task hslot
  exact ⟨hstate, fun hzero => hsealed (hreplays.entryCount_eq_zero_iff.1 hzero)⟩

/-- The guards hold where the invariant does. -/
theorem System.Invariant.guardsHold (hs : s.Invariant H) : GuardsHold s := by
  obtain ⟨g, hd, -⟩ := hs.data
  have hnoError := hs.stages.noError
  refine ⟨fun i hderef => ?_, fun task htask => hd.flushable htask, hd.tasks,
    fun i w woken failure hpc hthrew => ?_, fun i w sequence hpc => ?_, fun i hpc hgo => ?_,
    fun task hworker => ?_, fun task edit hworker => ?_, fun task flushedThrough hworker => ?_,
    fun edit hworker => ?_⟩
  · -- The active Memtable is there where it is dereferenced.
    generalize hpc : s.calls i = pc at hderef
    unfold Dereferences at hderef
    split at hderef
    · exact hs.stages.active hderef.1
    · exact hs.active_of_insert hpc
    · exact hderef.elim
  · -- A check throws because of a shutdown or a failure only.
    have hprepares := hs.prepares woken w
    generalize s.engine.prepareForWriteLocked woken w = result at hprepares hthrew
    cases hprepares with
    | shuttingDown hflag =>
      cases hthrew
      exact .inl ⟨hflag, rfl⟩
    | failed failure _ herror =>
      cases hthrew
      exact .inr herror
    | _ => cases hthrew
  · -- A logged record is inserted.
    obtain ⟨active, hinsert⟩ := hs.inserts hpc
    rw [hinsert]
  · -- The last Memtable is handed over.
    have hschedules := hs.schedules hpc
    generalize s.engine.scheduleFinalMemtable = result at hschedules
    cases hschedules <;> rfl
  · have herror := hnoError (hworker ▸ rfl) (hworker ▸ nofun)
    rw [hworker] at hd
    exact hd.flushable (hd.slot_of_task herror rfl).1
  · have herror := hnoError (hworker ▸ rfl) (hworker ▸ nofun)
    rw [hworker] at hd
    -- The edit of a flush is accepted.
    exact ⟨_, hd.commit_of_flush herror⟩
  · have herror := hnoError (hworker ▸ rfl) (hworker ▸ nofun)
    rw [hworker] at hd
    -- The slot holds the Memtable that was flushed.
    rw [(hd.clear herror).1]
  · rw [hworker] at hd
    -- The edit of a compaction is accepted, unless a file of it has no range.
    obtain ⟨hedits, hthrough⟩ := hd.worker
    rcases hedits.commit hd.live with ⟨-, hcommit⟩ | hrange
    · rw [hthrough] at hcommit
      exact .inl ⟨_, hcommit⟩
    · exact .inr hrange

variable [DecidableEq ι]

/-- **No guard fires.** In every state of the life of a directory in which a process runs, every
check of consistency passes. -/
theorem guardsHold_of_reachable (h : (life H fmt).Reachable (.running s)) : GuardsHold s :=
  System.Invariant.guardsHold (invariant_of_reachable h)

end Guards

/-- While a flushed Memtable waits for the release of its slot. -/
theorem guardsHold_of_reachable_one : ∃ s : System Bytes ℕ,
    (s.worker.clearing = true ∧ s.engine.immutableMemtable ≠ none) ∧ GuardsHold s := by
  have hbuild := @Sstable.format_builds byteSum.crc32 [([1], ⟨[10], 0, .put⟩)]
    (List.cons_ne_nil _ _) (List.pairwise_singleton _ _) (by decide) (by decide)
  obtain ⟨wal, active, store, through, -, -, hreachable⟩ :=
    @oneCommitted_reachable _ _ vendoredSum (Sstable.format byteSum.crc32) 1048576 ⟨4, by decide⟩
      (.put [1] [10]) (by decide) (by decide) hbuild
  exact ⟨_, ⟨rfl, Option.some_ne_none _⟩,
    guardsHold_of_reachable (life_of_logWorks (logWorks_of_faultless hreachable))⟩

end Kronos
