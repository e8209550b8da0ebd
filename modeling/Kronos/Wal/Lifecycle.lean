import Kronos.Base.Lts
import Kronos.Wal.ErrorPaths

/-!
# The life of a log

The states of a log file under any sequence of creations, openings, appends, recoveries and
reclamations, each of which a crash can interrupt, as a transition system. The constructor writes
the header of a new file in place, and takes any file that exists for one with a whole header: a
crash that leaves a part of the header leaves a file that cannot be opened again. When a crash in
the constructor leaves no file or the whole header, and every call that writes finds whole records
and an allocator above their sequence numbers (`Call.Continues`), every state that is reached can
be opened and recovered (`accepted_of_reachable`).

The constructor reads the header of a file, and `recover` its records. In between, the allocator
starts from zero whatever the file holds, and nothing keeps a caller from appending.
-/

namespace Kronos.Wal

/-- A construction over the file at a path, if there is one, and a recovery of it return. -/
def Accepted (H : Hashing) (file : Option Bytes) : Prop :=
  ∃ w rs w', construct file = .ok w ∧ recover H w = (.ok rs, w')

/-- A log: no process has it open, or one has. -/
inductive Life where
  | closed (file : Option Bytes)
  | opened (l : LogFiles)

/-- The file that the path names. -/
def Life.atPath : Life → Option Bytes
  | closed file => file
  | opened l => some l.atPath

/-- The steps of a log. A step that takes a point is interrupted there by a crash. -/
inductive LifeLabel where
  | createCrash (written : ℕ)
  | construct
  | raise (minimumNextSequence : ℕ)
  | append (c : Call)
  | recover
  | recoverCrash (point : Option RecoverFault)
  | reclaim (checkpoint : ℕ)
  | reclaimCrash (checkpoint : ℕ) (point : Option ReclaimFault)
  | crash
  deriving DecidableEq, Repr

/-- What a step does. A torn append is one whose `write` fails, or, before a `crash`, one that the
crash interrupts. -/
inductive LifeStep (H : Hashing) : Life → LifeLabel → Life → Prop where
  /-- A crash in the constructor, after some bytes of the header of a new file. -/
  | createCrash (written : ℕ) : written ≤ header.length →
    LifeStep H (.closed none) (.createCrash written) (.closed (some (header.take written)))
  /-- The constructor, over a new file or one that exists. -/
  | construct {file : Option Bytes} {w : Wal} : Wal.construct file = .ok w →
    LifeStep H (.closed file) .construct (.opened ⟨w, none, none⟩)
  | raise {l : LogFiles} (minimumNextSequence : ℕ) : minimumNextSequence ≤ uint64Max →
    LifeStep H (.opened l) (.raise minimumNextSequence)
      (.opened { l with wal := l.wal.ensureNextSequenceAtLeast minimumNextSequence })
  | append {l : LogFiles} (c : Call) : LifeStep H (.opened l) (.append c)
    (.opened { l with wal := (c.run H l.wal).2 })
  /-- A recovery, also one that throws. -/
  | recover {l : LogFiles} : LifeStep H (.opened l) .recover
    (.opened { l with wal := (Wal.recover H l.wal).2 })
  | recoverCrash {l : LogFiles} (point : Option RecoverFault) :
    LifeStep H (.opened l) (.recoverCrash point)
      (.closed (some (LogFiles.atPath { l with wal := (recoverWith H point l.wal).2 })))
  | reclaim {l : LogFiles} (checkpoint : ℕ) : LifeStep H (.opened l) (.reclaim checkpoint)
    (.opened (reclaimThrough H checkpoint none l).2)
  | reclaimCrash {l : LogFiles} (checkpoint : ℕ) (point : Option ReclaimFault) :
    LifeStep H (.opened l) (.reclaimCrash checkpoint point)
      (.closed (some (Wal.reclaimCrash H checkpoint point l).atPath))
  | crash {l : LogFiles} : LifeStep H (.opened l) .crash (.closed (some l.atPath))

/-- The life of a log, from a path without a file. -/
def life (H : Hashing) : Lts Life LifeLabel where
  initial s := s = .closed none
  step := LifeStep H

/-- A call that writes finds whole records alone in the file, and an allocator above their sequence
numbers, if it does not leave its own record incomplete. -/
def Call.Continues (H : Hashing) (c : Call) (w : Wal) : Prop :=
  c.leaves H w ≠ none → ∃ rs, ValidHistory rs ∧ w.file = header ++ encodeRecords H rs ∧
    (c.leaves H w ≠ some .torn → ∀ r ∈ rs, r.sequence < w.nextSequence)

/-- A crash in the constructor leaves the whole header, if it leaves a file, and a call continues
the records of the file. -/
def Orderly (H : Hashing) : Life → LifeLabel → Prop
  | .closed _, .createCrash written => written = header.length
  | .opened l, .append c => c.Continues H l.wal
  | _, _ => True

/-! ## The invariant -/

/-- The file is a log: a header, records, and perhaps an incomplete record. -/
def IsLog (H : Hashing) (file : Bytes) : Prop :=
  ∃ rs t, ValidHistory rs ∧ TornTail H t ∧ file = header ++ encodeRecords H rs ++ t

/-- The object is at the end of a log. -/
structure AtEndOfLog (H : Hashing) (w : Wal) : Prop where
  isLog : IsLog H w.file
  position : w.position = w.file.length
  bounded : w.nextSequence ≤ uint64Max

/-- What holds in every state: a file that exists is a log, and an object is at the end of it. -/
def LifeInvariant (H : Hashing) : Life → Prop
  | .closed none => True
  | .closed (some file) => IsLog H file
  | .opened l => l.named = none ∧ AtEndOfLog H l.wal

/-- A file of records alone is a log. -/
theorem isLog_records {H : Hashing} {rs : List Record} (hv : ValidHistory rs) :
    IsLog H (header ++ encodeRecords H rs) := ⟨rs, [], hv, tornTail_nil H, by simp⟩

/-- A log contains some records. -/
theorem IsLog.contains {H : Hashing} {file : Bytes} (h : IsLog H file) :
    ∃ rs t, Contains H file rs t := by
  obtain ⟨rs, t, hv, ht, rfl⟩ := h
  exact ⟨rs, t, contains_of_tornTail hv ht⟩

/-- What a process has written up to its end is a log. -/
theorem AtEnd.atEndOfLog {H : Hashing} {tail : Tail} {w : Wal} {rs : List Record}
    (h : AtEnd H tail w rs) : AtEndOfLog H w := by
  obtain ⟨t, hfile, ht, -⟩ := h.file
  exact ⟨⟨rs, t, h.history, ht, hfile⟩, h.position, h.bounded⟩

/-- A log is accepted. -/
theorem IsLog.accepted {H : Hashing} {file : Bytes} (h : IsLog H file) :
    Accepted H (some file) := by
  obtain ⟨rs, t, hv, ht, rfl⟩ := h
  rw [List.append_assoc]
  exact ⟨_, rs, _, construct_of_header (List.prefix_append _ _),
    recover_records H _ hv ht (by simp)⟩

/-- A recovery leaves a log, wherever a crash interrupts it. -/
theorem IsLog.recoverWith {H : Hashing} {w : Wal} (h : IsLog H w.file)
    (point : Option RecoverFault) : IsLog H (Wal.recoverWith H point w).2.file := by
  obtain ⟨rs, t, hcontains⟩ := h.contains
  have hspec := recoverWith_spec hcontains point
  rcases hresult : Wal.recoverWith H point w with ⟨failure | records, w'⟩
  · rw [hresult] at hspec
    rcases hspec.file_of_error with hfile | hfile
    · rwa [hfile]
    · rw [hfile]
      exact isLog_records hcontains.history
  · rw [hresult] at hspec
    cases hspec
    exact isLog_records hcontains.history

/-- A constructor over a log, or over no file, leaves the object at the end of a log. -/
theorem atEndOfLog_of_construct {H : Hashing} {file : Option Bytes} {w : Wal}
    (h : LifeInvariant H (.closed file)) (hw : construct file = .ok w) : AtEndOfLog H w := by
  cases file with
  | none =>
    cases hw
    exact ⟨⟨[], [], ⟨by simp, by simp, .nil⟩, tornTail_nil H, rfl⟩, rfl, Nat.zero_le _⟩
  | some file =>
    have hlog : IsLog H file := h
    obtain ⟨rs, t, -, -, rfl⟩ := hlog
    rw [List.append_assoc, construct_of_header (List.prefix_append _ _), ← List.append_assoc] at hw
    cases hw
    exact ⟨h, rfl, Nat.zero_le _⟩

namespace AtEndOfLog

variable {H : Hashing} {l : LogFiles} {w : Wal}

/-- Raising the allocator leaves the file. -/
theorem raise (h : AtEndOfLog H w) {n : ℕ} (hn : n ≤ uint64Max) :
    AtEndOfLog H (w.ensureNextSequenceAtLeast n) := by
  unfold ensureNextSequenceAtLeast
  split_ifs
  · exact ⟨h.isLog, h.position, hn⟩
  · exact h

/-- A call that writes nothing leaves the object, and one that continues the records leaves one
record more, or an incomplete one. -/
theorem append (h : AtEndOfLog H w) {c : Call} (hcontinues : c.Continues H w) :
    AtEndOfLog H (c.run H w).2 := by
  by_cases hleaves : c.leaves H w = none
  · have hrun := c.run_spec H h.position
    rw [hleaves] at hrun
    obtain ⟨failure, hrun⟩ := hrun
    rw [hrun]
    exact h
  · obtain ⟨rs, hhistory, hfile, hfresh⟩ := hcontinues hleaves
    have hwhole : w.file = header ++ encodeRecords H rs ++ [] := by rw [hfile, List.append_nil]
    by_cases htorn : c.leaves H w = some .torn
    · -- Behind an incomplete record the number does not count.
      have hend : AtEnd H .unsynced w rs :=
        ⟨h.position, hhistory, h.bounded, nofun, [], hwhole, tornTail_nil H, .inr rfl⟩
      exact (hend.run (.inr htorn)).atEndOfLog
    · have hend : AtEnd H .synced w rs :=
        ⟨h.position, hhistory, h.bounded, fun _ => hfresh htorn, [], hwhole, tornTail_nil H,
          .inr rfl⟩
      exact (hend.run trivial).atEndOfLog

/-- A recovery cuts off what is incomplete. -/
theorem recover (h : AtEndOfLog H w) : AtEndOfLog H (Wal.recover H w).2 := by
  obtain ⟨rs, t, hv, ht, hfile⟩ := h.isLog
  rw [recover_records H w hv ht hfile]
  exact (atEnd_recovered H hv h.bounded).atEndOfLog

/-- A reclamation installs the records that survive. -/
theorem reclaim (h : AtEndOfLog H l.wal) (checkpoint : ℕ) :
    (reclaimThrough H checkpoint none l).2.named = none ∧
      AtEndOfLog H (reclaimThrough H checkpoint none l).2.wal := by
  obtain ⟨rs, t, hv, ht, hfile⟩ := h.isLog
  rw [reclaimThrough_log hv ht hfile]
  exact ⟨rfl, (atEnd_reclaimed H hv checkpoint h.bounded).atEndOfLog⟩

end AtEndOfLog

/-- An orderly step keeps the invariant. -/
theorem lifeInvariant_step {H : Hashing} {s s' : Life} {label : LifeLabel}
    (h : LifeInvariant H s) (hstep : LifeStep H s label s') (horderly : Orderly H s label) :
    LifeInvariant H s' := by
  cases hstep with
  | createCrash written hwritten =>
    have hwhole : written = header.length := horderly
    rw [hwhole, List.take_length]
    exact ⟨[], [], ⟨by simp, by simp, .nil⟩, tornTail_nil H, by simp⟩
  | construct hconstruct => exact ⟨rfl, atEndOfLog_of_construct h hconstruct⟩
  | raise minimumNextSequence hle =>
    obtain ⟨hnamed, hend⟩ := h
    exact ⟨hnamed, hend.raise hle⟩
  | append c =>
    obtain ⟨hnamed, hend⟩ := h
    exact ⟨hnamed, hend.append horderly⟩
  | recover =>
    obtain ⟨hnamed, hend⟩ := h
    exact ⟨hnamed, hend.recover⟩
  | recoverCrash point =>
    obtain ⟨hnamed, hend⟩ := h
    have hleft := hend.isLog.recoverWith point
    show IsLog H (LogFiles.atPath _)
    rw [LogFiles.atPath, hnamed]
    exact hleft
  | reclaim checkpoint =>
    obtain ⟨-, hend⟩ := h
    exact hend.reclaim checkpoint
  | reclaimCrash checkpoint point =>
    obtain ⟨hnamed, hlog, -⟩ := h
    obtain ⟨rs, t, hcontains⟩ := hlog.contains
    show IsLog H (Wal.reclaimCrash H checkpoint point _).atPath
    rcases reclaimCrash_atPath checkpoint point hcontains hnamed with hpath | hpath | hpath
    · rw [hpath]
      exact hlog
    · rw [hpath]
      exact isLog_records hcontains.history
    · rw [hpath]
      exact isLog_records (hcontains.history.survivors checkpoint)
  | crash =>
    obtain ⟨hnamed, hlog, -⟩ := h
    show IsLog H (LogFiles.atPath _)
    rw [LogFiles.atPath, hnamed]
    exact hlog

/-- What the invariant holds of is accepted. -/
theorem LifeInvariant.accepted {H : Hashing} {s : Life} (h : LifeInvariant H s) :
    Accepted H s.atPath := by
  cases s with
  | closed file =>
    cases file with
    | none => exact ⟨_, [], _, rfl, rfl⟩
    | some file => exact IsLog.accepted h
  | opened l =>
    obtain ⟨hnamed, hlog, -⟩ := h
    show Accepted H (some (LogFiles.atPath l))
    rw [LogFiles.atPath, hnamed]
    exact hlog.accepted

/-- **The life of a log.** What a crash in the constructor leaves of the header of a new file is
opened, and recovered without a record, exactly when it is the whole header. In every state that is
reached by any sequence of creations, openings, appends, recoveries and reclamations with crashes,
in which creations leave no file or a whole header, and calls that write find whole records and an
allocator above their sequence numbers, the file is opened and recovered. -/
theorem accepted_of_reachable (H : Hashing) :
    (∀ written, written ≤ header.length →
      (Recovers H (header.take written) [] ↔ written = header.length)) ∧
    ∀ s, ((life H).restrict (Orderly H)).Reachable s → Accepted H s.atPath := by
  refine ⟨fun written hwritten => ⟨fun ⟨w, hconstruct, _⟩ => ?_, ?_⟩, fun s hs => ?_⟩
  · by_contra hne
    simp only [length_header] at hwritten hne
    -- The magic or the version is missing.
    have hcases : written = 0 ∨ written = 1 ∨ written = 2 ∨ written = 3 ∨ written = 4 := by omega
    rcases hcases with rfl | rfl | rfl | rfl | rfl <;> cases hconstruct
  · rintro rfl
    exact ⟨_, rfl, rfl⟩
  · have hinv : LifeInvariant H s := by
      refine @Lts.Reachable.invariant _ _ _ (LifeInvariant H) ?_ ?_ s hs
      · rintro s rfl
        trivial
      · exact fun s label s' h hstep => lifeInvariant_step h hstep.1 hstep.2
    exact hinv.accepted

/-- A crash in an append to a new log, after three bytes of the record, then a recovery, and a crash
behind it. -/
theorem accepted_of_reachable_torn :
    Accepted default (Life.atPath (.closed (some header))) := by
  have hconstruct : ((life default).restrict (Orderly default)).step (.closed none) .construct
      (.opened ⟨⟨header, 5, 0⟩, none, none⟩) := ⟨.construct rfl, trivial⟩
  have happend : ((life default).restrict (Orderly default)).step
      (.opened ⟨⟨header, 5, 0⟩, none, none⟩) (.append (.put [97] [1] (some (.write 3))))
      (.opened ⟨⟨header ++ [0, 0, 0], 8, 0⟩, none, none⟩) :=
    ⟨.append _, fun _ => ⟨[], ⟨by simp, by simp, .nil⟩, rfl, fun _ => by simp⟩⟩
  have hcrash : ((life default).restrict (Orderly default)).step
      (.opened ⟨⟨header ++ [0, 0, 0], 8, 0⟩, none, none⟩) .crash
      (.closed (some (header ++ [0, 0, 0]))) := ⟨.crash, trivial⟩
  have hreopen : ((life default).restrict (Orderly default)).step
      (.closed (some (header ++ [0, 0, 0]))) .construct
      (.opened ⟨⟨header ++ [0, 0, 0], 8, 0⟩, none, none⟩) := ⟨.construct rfl, trivial⟩
  have hrecover : ((life default).restrict (Orderly default)).step
      (.opened ⟨⟨header ++ [0, 0, 0], 8, 0⟩, none, none⟩) .recover
      (.opened ⟨⟨header, 5, 0⟩, none, none⟩) := ⟨.recover, trivial⟩
  have hcrash' : ((life default).restrict (Orderly default)).step
      (.opened ⟨⟨header, 5, 0⟩, none, none⟩) .crash
      (.closed (some header)) := ⟨.crash, trivial⟩
  have hreachable :=
    ((((((Lts.Reachable.initial rfl).step hconstruct).step happend).step hcrash).step
    hreopen).step hrecover).step hcrash'
  exact (accepted_of_reachable default).2 _ hreachable

/-- A crash after three bytes of the header leaves a file that the constructor rejects, whatever the
hash functions are. -/
theorem createCrash_not_accepted :
    (∀ H : Hashing,
      LifeStep H (.closed none) (.createCrash 3) (.closed (some [75, 82, 87]))) ∧
    construct (some [75, 82, 87]) = .error (.exception "Failed to read WAL magic") ∧
    ∀ H : Hashing, ¬Accepted H (some [75, 82, 87]) := by
  refine ⟨fun H => .createCrash 3 (by decide), rfl, ?_⟩
  rintro H ⟨w, rs, w', hconstruct, -⟩
  cases hconstruct

end Kronos.Wal
