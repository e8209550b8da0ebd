import Kronos.Engine.Replay

/-!
# What the sections do

Each critical section of the engine, as far as it goes when nothing is wrong: a writer is told to
append, to wait, or that the engine is shutting down or has failed (`Prepared`), the active Memtable
is frozen, shared and queued (`handOver`), a record is inserted, the slot of a flushed Memtable is
released, an edit is committed (`commitEdit_cases`), and the log is reclaimed.
-/

namespace Kronos.KronosEngine

variable {F R : Type}

/-! ## Rotation -/

/-- The active Memtable is frozen, moves to the immutable slot and is queued, and another one, or
none, takes its place. -/
def handOver (e : KronosEngine F) (active : Memtable) (next : Option Memtable) : KronosEngine F :=
  { e.share active.frozen next with
    flushQueue := e.flushQueue ++ [⟨e.nextAddress, active.frozen⟩] }

/-- The engine behind a rotation. -/
def rotated (e : KronosEngine F) (active : Memtable) : KronosEngine F :=
  e.handOver active (some (.new e.memtableTargetBytes))

/-- A shared Memtable is queued, when the queue is open. -/
theorem push_share {e : KronosEngine F} (hqueue : e.queueClosed = false) (active : Memtable)
    (next : Option Memtable) :
    (e.share active.frozen next).push ⟨e.nextAddress, active.frozen⟩ =
      (true, e.handOver active next) := by
  have hopen : ¬(e.share active.frozen next).queueClosed = true := by simp [share, hqueue]
  rw [push, if_neg hopen]
  rfl

/-- A rotation of a mutable Memtable with records succeeds, when the slot is free and the queue is
open. -/
theorem rotateActiveMemtableLocked_spec {e : KronosEngine F} {active : Memtable}
    (hactive : e.activeMemtable = some active) (hstate : active.state = .mutable)
    (hentries : active.entryCount ≠ 0) (hslot : e.immutableMemtable = none)
    (hqueue : e.queueClosed = false) :
    e.rotateActiveMemtableLocked = (.ok (), e.rotated active) := by
  have hfree : ¬e.immutableMemtable.isSome = true := by simp [hslot]
  unfold rotateActiveMemtableLocked
  rw [hactive]
  dsimp only
  rw [if_neg hfree, if_neg hentries, Memtable.freeze_of_mutable hstate]
  dsimp only
  rw [push_share hqueue]
  rfl

/-- What the check of a writer returns, and leaves behind. -/
inductive Prepares (e : KronosEngine F) (woken : Bool) (w : Write) :
    Prepared × KronosEngine F → Prop where
  | shuttingDown : e.shuttingDown = true →
    Prepares e woken w (.threw shuttingDownFailure, e)
  | failed (failure : Failure) : e.shuttingDown = false → e.backgroundError = some failure →
    Prepares e woken w (.threw failure, e)
  | waits (active : Memtable) : e.shuttingDown = false → e.backgroundError = none →
    e.activeMemtable = some active → e.immutableMemtable ≠ none →
    (woken = true ∨ rotationRequired active w = true) → Prepares e woken w (.waits, e)
  | ready (active : Memtable) : e.shuttingDown = false → e.backgroundError = none →
    e.activeMemtable = some active → rotationRequired active w = false →
    Prepares e woken w (.ready, e)
  | rotated (active : Memtable) : e.shuttingDown = false → e.backgroundError = none →
    e.activeMemtable = some active → active.entryCount ≠ 0 → e.immutableMemtable = none →
    rotationRequired active w = true → Prepares e woken w (.ready, e.rotated active)

/-- The check of a writer, on an engine that has an active Memtable and an open queue until it is
shutting down or has failed. -/
theorem prepareForWriteLocked_spec {e : KronosEngine F} (woken : Bool) (w : Write)
    (hactive : e.shuttingDown = false → e.backgroundError = none →
      ∃ active, e.activeMemtable = some active ∧ active.state = .mutable)
    (hqueue : e.shuttingDown = false → e.backgroundError = none → e.queueClosed = false) :
    Prepares e woken w (e.prepareForWriteLocked woken w) := by
  unfold prepareForWriteLocked
  -- A writer that is woken looks at the predicate of its wait first.
  by_cases hwait : (woken && !e.writerMayGoOn) = true
  · rw [if_pos hwait]
    obtain ⟨hwoken, hstays⟩ := Bool.and_eq_true_iff.1 hwait
    have hgo : (e.immutableMemtable ≠ none ∧ e.shuttingDown = false) ∧
        e.backgroundError = none := by
      rw [← Option.isSome_iff_ne_none]
      simpa [writerMayGoOn] using hstays
    obtain ⟨active, hsome, -⟩ := hactive hgo.1.2 hgo.2
    exact .waits active hgo.1.2 hgo.2 hsome hgo.1.1 (.inl hwoken)
  rw [if_neg hwait]
  cases hshutdown : e.shuttingDown with
  | true =>
    rw [if_pos rfl]
    exact .shuttingDown hshutdown
  | false =>
    rw [if_neg Bool.false_ne_true]
    cases herror : e.backgroundError with
    | some failure => exact .failed failure hshutdown herror
    | none =>
      obtain ⟨active, hsome, hstate⟩ := hactive hshutdown herror
      rw [hsome]
      dsimp only
      cases hrequired : rotationRequired active w with
      | false => exact .ready active hshutdown herror hsome hrequired
      | true =>
        -- A Memtable without entries is never rotated.
        have hentries : active.entryCount ≠ 0 := by
          have hboth := hrequired
          unfold rotationRequired at hboth
          exact (of_decide_eq_true (Bool.and_eq_true_iff.1 hboth).1).ne'
        cases hslot : e.immutableMemtable with
        | some task =>
          rw [if_pos rfl]
          exact .waits active hshutdown herror hsome (by simp [hslot]) (.inr hrequired)
        | none =>
          rw [if_neg nofun, if_pos rfl, rotateActiveMemtableLocked_spec hsome hstate hentries hslot
            (hqueue hshutdown herror)]
          exact .rotated active hshutdown herror hsome hentries hslot hrequired

/-- What the last section of a shutdown returns, and leaves behind. -/
inductive Schedules (e : KronosEngine F) : Except Failure Unit × KronosEngine F → Prop where
  | nothing : e.activeMemtable = none ∨ e.backgroundError ≠ none ∨
      (∃ active, e.activeMemtable = some active ∧ active.entryCount = 0) →
    Schedules e (.ok (), e)
  | handed (active : Memtable) : e.activeMemtable = some active → e.backgroundError = none →
    active.entryCount ≠ 0 → Schedules e (.ok (), e.handOver active none)

/-- The hand-over of the final Memtable, when it is mutable and the queue is open. -/
theorem scheduleFinalMemtable_spec {e : KronosEngine F}
    (hstate : ∀ active, e.activeMemtable = some active → active.state = .mutable)
    (hqueue : e.backgroundError = none → e.queueClosed = false) :
    Schedules e e.scheduleFinalMemtable := by
  unfold scheduleFinalMemtable
  cases hactive : e.activeMemtable with
  | none => exact .nothing (.inl hactive)
  | some active =>
    dsimp only
    split_ifs with hschedule
    · rw [Bool.and_eq_true, decide_eq_true_eq, Option.isNone_iff_eq_none] at hschedule
      rw [Memtable.freeze_of_mutable (hstate active hactive)]
      dsimp only
      rw [push_share (hqueue hschedule.1)]
      exact .handed active hactive hschedule.1 (Nat.pos_iff_ne_zero.1 hschedule.2)
    · refine .nothing (.inr ?_)
      rw [Bool.and_eq_true, decide_eq_true_eq, Option.isNone_iff_eq_none, not_and_or] at hschedule
      refine hschedule.imp_right fun hzero => ⟨active, hactive, ?_⟩
      exact Nat.eq_zero_of_not_pos hzero

/-! ## Maintenance -/

/-- The slot of the current immutable Memtable is released. -/
theorem clearImmutable_spec {e : KronosEngine F} {task : SharedMemtable}
    (h : e.immutableMemtable = some task) :
    e.clearImmutable task = (.ok (), { e with immutableMemtable := none }) := by
  rw [clearImmutable, if_neg]
  rw [h]
  simp

/-- What a commit returns, and leaves behind: it is rejected, it takes effect, or its I/O fails,
before the MANIFEST file holds the new state or behind that. -/
inductive Commits (e : KronosEngine F) (edit : ManifestEdit) :
    Option CommitFault → Except Failure Unit × KronosEngine F → Prop where
  | rejected (fault : Option CommitFault) (failure : Failure) :
    e.store.commit edit = .error failure → Commits e edit fault (.error failure, e)
  | committed (store : Store F) : e.store.commit edit = .ok store →
    Commits e edit none (.ok (), { e with store := store, durable := store.manifest })
  | before (failure : Failure) :
    Commits e edit (some (.beforeRename failure)) (.error failure, e)
  | behind (failure : Failure) (store : Store F) : e.store.commit edit = .ok store →
    Commits e edit (some (.behindRename failure))
      (.error failure, { e with durable := store.manifest })

/-- A commit ends in one of these ways. -/
theorem commitEdit_cases (e : KronosEngine F) (edit : ManifestEdit) (fault : Option CommitFault) :
    Commits e edit fault (e.commitEdit edit fault) := by
  unfold commitEdit
  cases hcommit : e.store.commit edit with
  | error failure => exact .rejected fault failure hcommit
  | ok store =>
    rcases fault with _ | failure | failure
    · exact .committed store hcommit
    · exact .before failure
    · exact .behind failure store hcommit

/-- A compaction is prepared as the store does it, over the copy of its live files. -/
theorem prepareCompaction_ok {fmt : TableFormat F R} {e : KronosEngine F} {store : Store F}
    {edit : ManifestEdit}
    (h : e.prepareCompaction fmt e.store.manifest.liveFiles = .ok (some (store, edit))) :
    ∃ store', e.store.prepareCompaction fmt e.compactionPolicy = .ok (some (store', edit)) ∧
      store = { store' with manifest := e.store.manifest } := by
  unfold prepareCompaction at h
  obtain ⟨prepared, hprepared, h⟩ := bind_eq_ok h
  rcases prepared with _ | ⟨store', edit'⟩
  · cases h
  · cases h
    exact ⟨store', hprepared, rfl⟩

/-- Reclamation keeps what is newer than its checkpoint. -/
theorem survivors_eq_newerThan (checkpoint : ℕ) (rs : List Record) :
    Wal.survivors checkpoint rs = newerThan (some checkpoint) rs := by
  unfold Wal.survivors newerThan
  refine List.filter_congr fun r _ => ?_
  rw [Option.any_some, ← decide_not]
  exact decide_eq_decide.2 Nat.not_le.symm

end Kronos.KronosEngine
