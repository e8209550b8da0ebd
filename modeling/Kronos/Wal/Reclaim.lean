import Kronos.Wal.Append
import Kronos.Wal.Faults

/-!
# Reclamation

`Wal::reclaimThrough`: the records behind a checkpoint are written to a temporary file, which is
renamed over the log, and the descriptor is moved to it. The object is now seen with the names of
its files: the path of the log can name another file than the one its descriptor refers to.

`reclaimSteps` is the body of the function, up to the system call that fails. Its state at that
point is also what a crash there leaves in the directory. `reclaimThrough` adds the handler that
removes the temporary file, and the `fsync` of the directory behind it.
-/

namespace Kronos

open ByteString

/-- A `Wal` object with its files: the file that the path names when the descriptor refers to
another one, and the temporary file. -/
structure LogFiles where
  wal : Wal
  named : Option Bytes
  temp : Option Bytes
  deriving DecidableEq, Repr

/-- The bytes of the file that the path names. -/
def LogFiles.atPath (l : LogFiles) : Bytes := l.named.getD l.wal.file

namespace Wal

/-- The system call of `reclaimThrough` that fails. The temporary file takes `size` bytes before
its `write` fails. -/
inductive ReclaimFault where
  | recover (fault : RecoverFault)
  | create
  | write (size : ℕ)
  | sync
  | close
  | rename
  | reopen
  | seek
  | openParent
  | syncParent
  deriving DecidableEq, Repr

/-- The failing call of the recovery that reclamation starts with. -/
def ReclaimFault.inRecovery : ReclaimFault → Option RecoverFault
  | recover fault => some fault
  | _ => none

/-- The number of bytes that the temporary file takes, if its `write` fails. -/
def ReclaimFault.room : ReclaimFault → Option ℕ
  | write size => some size
  | _ => none

/-- `write_all`, on the temporary file. -/
def writeAll (room : Option ℕ) (data : Bytes) (message : String) (temp : Bytes) :
    Except Failure Unit × Bytes :=
  if room.any (· < temp.length + data.length) then
    (.error (.exception message), (temp ++ data).take (room.getD 0))
  else (.ok (), temp ++ data)

/-- A record as `reclaimThrough` serializes it. -/
def serialize (H : Hashing) (r : Record) : Bytes :=
  let serialized := toLe 8 r.sequence ++ [r.operation.byte] ++ toLe 4 r.key.length ++
    toLe 4 r.value.length ++ r.key ++ r.value
  serialized ++ toLe 4 (H.checksum serialized)

/-- The loop of `reclaimThrough` over the recovered records. -/
def rewriteRecords (H : Hashing) (room : Option ℕ) (checkpoint : ℕ) :
    List Record → Bytes → Except Failure Unit × Bytes
  | [], temp => (.ok (), temp)
  | r :: rs, temp =>
    if r.sequence ≤ checkpoint then rewriteRecords H room checkpoint rs temp
    else if r.key.length > uint32Max ∨ r.value.length > uint32Max then
      (.error (.exception "Recovered WAL record is too large to rewrite"), temp)
    else
      match writeAll room (serialize H r) "Failed to write reclaimed WAL record" temp with
      | (.error failure, temp) => (.error failure, temp)
      | (.ok (), temp) => rewriteRecords H room checkpoint rs temp

/-- What `reclaimThrough` writes to the temporary file. -/
def rewrite (H : Hashing) (room : Option ℕ) (checkpoint : ℕ) (records : List Record) :
    Except Failure Unit × Bytes :=
  match writeAll room magic "Failed to write reclaimed WAL magic" [] with
  | (.error failure, temp) => (.error failure, temp)
  | (.ok (), temp) =>
    match writeAll room [version] "Failed to write reclaimed WAL version" temp with
    | (.error failure, temp) => (.error failure, temp)
    | (.ok (), temp) => rewriteRecords H room checkpoint records temp

/-- The descriptor moves to the end of the file that the path names now. -/
def switchTo (l : LogFiles) (file : Bytes) : LogFiles :=
  { l with wal := { l.wal with file := file, position := file.length }, named := none }

/-- The body of the `try` block of `reclaimThrough`, behind the creation of the temporary file. -/
def reclaimBody (H : Hashing) (checkpoint : ℕ) (fault : Option ReclaimFault)
    (records : List Record) (l : LogFiles) : Except Failure Unit × LogFiles :=
  match rewrite H (fault.bind (·.room)) checkpoint records with
  | (.error failure, temp) => (.error failure, { l with temp := some temp })
  | (.ok (), temp) =>
    let written : LogFiles := { l with temp := some temp }
    if fault = some .sync then (.error (.exception "Failed to fsync reclaimed WAL"), written)
    else if fault = some .close then
      (.error (.exception "Failed to close reclaimed WAL"), written)
    else if fault = some .rename then
      (.error (.exception "Failed to replace WAL during reclamation"), written)
    else
      let renamed : LogFiles := { l with named := some temp, temp := none }
      if fault = some .reopen then
        (.error (.exception "Failed to reopen WAL after reclamation"), renamed)
      else if fault = some .seek then
        (.error (.exception "Failed to seek reclaimed WAL"), renamed)
      else (.ok (), switchTo renamed temp)

/-- What `reclaimThrough` does before its `try` block: the recovery, the allocator, which the
recovery may have lowered, and the creation of the temporary file. -/
def reclaimPrelude (H : Hashing) (fault : Option ReclaimFault) (l : LogFiles) :
    Except Failure (List Record) × LogFiles :=
  let allocatorBeforeReclaim := l.wal.nextSequence
  match recoverWith H (fault.bind (·.inRecovery)) l.wal with
  | (.error failure, w) => (.error failure, { l with wal := w })
  | (.ok records, w) =>
    let l : LogFiles := { l with wal := w.ensureNextSequenceAtLeast allocatorBeforeReclaim }
    if fault = some .create then
      (.error (.exception "Failed to create temporary WAL during reclamation"), l)
    else (.ok records, { l with temp := some [] })

/-- `reclaimThrough`. The handler of its `try` block removes the temporary file. -/
def reclaimThrough (H : Hashing) (checkpoint : ℕ) (fault : Option ReclaimFault) (l : LogFiles) :
    Except Failure Unit × LogFiles :=
  match reclaimPrelude H fault l with
  | (.error failure, l) => (.error failure, l)
  | (.ok records, l) =>
    match reclaimBody H checkpoint fault records l with
    | (.error failure, l) => (.error failure, { l with temp := none })
    | (.ok (), l) =>
      if fault = some .openParent then
        (.error (.exception "Failed to open WAL parent directory for fsync"), l)
      else if fault = some .syncParent then
        (.error (.exception "Failed to fsync WAL parent directory"), l)
      else (.ok (), l)

/-- The files when the process dies in `reclaimThrough`, at the system call `point` or, without
one, behind the last of them: no handler runs. -/
def reclaimCrash (H : Hashing) (checkpoint : ℕ) (point : Option ReclaimFault) (l : LogFiles) :
    LogFiles :=
  match reclaimPrelude H point l with
  | (.error _, l) => l
  | (.ok records, l) => (reclaimBody H checkpoint point records l).2

/-! ## The temporary file -/

/-- The records that a reclamation through a checkpoint keeps. -/
def survivors (checkpoint : ℕ) (rs : List Record) : List Record :=
  rs.filter (checkpoint < ·.sequence)

/-- The serializer of `reclaimThrough` is that of `writeRecord`. -/
theorem serialize_eq (H : Hashing) (r : Record) : serialize H r = encodeRecord H r := rfl

/-- The survivors of a history are one. -/
theorem ValidHistory.survivors {rs : List Record} (h : ValidHistory rs) (checkpoint : ℕ) :
    ValidHistory (survivors checkpoint rs) := h.sublist List.filter_sublist

/-- A write to the temporary file appends to it, or throws when there is no room. -/
theorem writeAll_eq (room : Option ℕ) (data : Bytes) (message : String) (temp : Bytes) :
    writeAll room data message temp = (.ok (), temp ++ data) ∨
      ∃ temp', room ≠ none ∧
        writeAll room data message temp = (.error (.exception message), temp') := by
  unfold writeAll
  split_ifs with h
  · exact .inr ⟨_, fun hroom => by simp [hroom] at h, rfl⟩
  · exact .inl rfl

/-- The loop writes the survivors, or throws when there is no room. -/
theorem rewriteRecords_eq (H : Hashing) (room : Option ℕ) (checkpoint : ℕ) {rs : List Record}
    (hv : ValidHistory rs) : ∀ temp : Bytes,
      rewriteRecords H room checkpoint rs temp =
          (.ok (), temp ++ encodeRecords H (survivors checkpoint rs)) ∨
        ∃ failure temp', room ≠ none ∧
          rewriteRecords H room checkpoint rs temp = (.error failure, temp') := by
  induction rs with
  | nil =>
    intro temp
    exact .inl (by simp [rewriteRecords, survivors])
  | cons r rs ih =>
    intro temp
    have hr := hv.writable r (.head _)
    have hfits : ¬(r.key.length > uint32Max ∨ r.value.length > uint32Max) := by
      rintro (h | h)
      · exact absurd hr.2.1 (Nat.not_le.2 h)
      · exact absurd hr.2.2 (Nat.not_le.2 h)
    unfold rewriteRecords
    rcases Nat.lt_or_ge checkpoint r.sequence with hlt | hge
    · have hkeep : survivors checkpoint (r :: rs) = r :: survivors checkpoint rs :=
        List.filter_cons_of_pos (by simpa using hlt)
      rw [if_neg (Nat.not_le.2 hlt), if_neg hfits, hkeep]
      rcases writeAll_eq room (serialize H r) "Failed to write reclaimed WAL record" temp with
        h | ⟨temp', hroom, h⟩
      · rw [h]
        simpa [serialize_eq] using ih hv.tail (temp ++ serialize H r)
      · rw [h]
        exact .inr ⟨_, temp', hroom, rfl⟩
    · have hdrop : survivors checkpoint (r :: rs) = survivors checkpoint rs :=
        List.filter_cons_of_neg (by simpa using hge)
      rw [if_pos hge, hdrop]
      exact ih hv.tail temp

/-- The temporary file is the log of the survivors, or there is no room for it. -/
theorem rewrite_eq (H : Hashing) (room : Option ℕ) (checkpoint : ℕ) {rs : List Record}
    (hv : ValidHistory rs) :
    rewrite H room checkpoint rs =
        (.ok (), header ++ encodeRecords H (survivors checkpoint rs)) ∨
      ∃ failure temp, room ≠ none ∧
        rewrite H room checkpoint rs = (.error failure, temp) := by
  unfold rewrite
  rcases writeAll_eq room magic "Failed to write reclaimed WAL magic" [] with
    h | ⟨temp, hroom, h⟩
  · rw [h]
    dsimp only
    rcases writeAll_eq room [version] "Failed to write reclaimed WAL version" ([] ++ magic) with
      h' | ⟨temp, hroom, h'⟩
    · rw [h']
      exact rewriteRecords_eq H room checkpoint hv header
    · rw [h']
      exact .inr ⟨_, temp, hroom, rfl⟩
  · rw [h]
    exact .inr ⟨_, temp, hroom, rfl⟩

/-! ## What reclamation leaves behind -/

/-- The object over a log of the records `rs`, after a recovery that does not lower the
allocator. -/
def reclaimable (H : Hashing) (rs : List Record) (n : ℕ) : Wal :=
  ⟨header ++ encodeRecords H rs, (header ++ encodeRecords H rs).length, max (nextAfter rs n) n⟩

/-- A recovered log with its allocator raised again is the one before a reclamation. -/
theorem recovered_ensureNextSequenceAtLeast (H : Hashing) (rs : List Record) (n : ℕ) :
    (recovered H rs n).ensureNextSequenceAtLeast n = reclaimable H rs n := by
  unfold ensureNextSequenceAtLeast recovered reclaimable
  dsimp only
  split_ifs with h
  · rw [max_eq_right h.le]
  · rw [max_eq_left (Nat.not_lt.1 h)]

/-- The calls of the `try` block before the new log replaces the old one. -/
def BeforeRename (fault : Option ReclaimFault) : Prop :=
  (∃ size, fault = some (.write size)) ∨ fault = some .sync ∨ fault = some .close ∨
    fault = some .rename

/-- Where the body of the `try` block stops: before the new log replaces the old one, behind the
replacement but with the descriptor still on the old file, or at the end. -/
inductive Rewritten (H : Hashing) (checkpoint : ℕ) (fault : Option ReclaimFault)
    (rs : List Record) (l : LogFiles) : Except Failure Unit × LogFiles → Prop where
  | kept (failure : Failure) (temp : Bytes) : BeforeRename fault →
    Rewritten H checkpoint fault rs l (.error failure, { l with temp := some temp })
  | replaced (failure : Failure) : fault = some .reopen ∨ fault = some .seek →
    Rewritten H checkpoint fault rs l (.error failure,
      { l with
        named := some (header ++ encodeRecords H (survivors checkpoint rs))
        temp := none })
  | switched : fault ≠ some .reopen → fault ≠ some .seek →
    Rewritten H checkpoint fault rs l
      (.ok (), ⟨⟨header ++ encodeRecords H (survivors checkpoint rs),
        (header ++ encodeRecords H (survivors checkpoint rs)).length, l.wal.nextSequence⟩,
        none, none⟩)

/-- The body of `reclaimThrough` ends in one of these ways. -/
theorem reclaimBody_spec (H : Hashing) (checkpoint : ℕ) (fault : Option ReclaimFault)
    {rs : List Record} (hv : ValidHistory rs) (l : LogFiles) :
    Rewritten H checkpoint fault rs l (reclaimBody H checkpoint fault rs l) := by
  unfold reclaimBody
  rcases rewrite_eq H (fault.bind (·.room)) checkpoint hv with h | ⟨failure, temp, hroom, h⟩
  · rw [h]
    dsimp only
    split_ifs with hsync hclose hrename hreopen hseek
    · exact .kept _ _ (.inr (.inl hsync))
    · exact .kept _ _ (.inr (.inr (.inl hclose)))
    · exact .kept _ _ (.inr (.inr (.inr hrename)))
    · exact .replaced _ (.inl hreopen)
    · exact .replaced _ (.inr hseek)
    · exact .switched hreopen hseek
  · rw [h]
    have hwrite : ∃ size, fault = some (.write size) := by
      rcases fault with _ | f
      · exact (hroom rfl).elim
      · cases f with
        | write size => exact ⟨size, rfl⟩
        | _ => exact (hroom rfl).elim
    exact .kept _ _ (.inl hwrite)

/-- The part of `reclaimThrough` before its `try` block, by where its recovery ends. -/
theorem reclaimPrelude_cases {H : Hashing} {l : LogFiles} {rs : List Record} {t : Bytes}
    (hl : Contains H l.wal.file rs t) (fault : Option ReclaimFault) :
    (∃ failure w, reclaimPrelude H fault l = (.error failure, { l with wal := w }) ∧
      RecoveredWith H (fault.bind (·.inRecovery)) l.wal rs t (.error failure, w)) ∨
    (fault = some .create ∧ ∃ failure, reclaimPrelude H fault l =
      (.error failure, { l with wal := reclaimable H rs l.wal.nextSequence })) ∨
    (fault ≠ some .create ∧ reclaimPrelude H fault l =
      (.ok rs, { l with wal := reclaimable H rs l.wal.nextSequence, temp := some [] })) := by
  have hrecover := recoverWith_spec hl (fault.bind (·.inRecovery))
  unfold reclaimPrelude
  dsimp only
  generalize recoverWith H (fault.bind (·.inRecovery)) l.wal = x at hrecover ⊢
  rcases x with ⟨failure | records, w⟩
  · exact .inl ⟨failure, w, rfl, hrecover⟩
  · cases hrecover
    simp only [recovered_ensureNextSequenceAtLeast]
    split_ifs with hcreate
    · exact .inr (.inl ⟨hcreate, _, rfl⟩)
    · exact .inr (.inr ⟨hcreate, rfl⟩)

/-- A recovery that does not return leaves the file as it was, or without its incomplete tail. -/
theorem RecoveredWith.file_of_error {H : Hashing} {fault : Option RecoverFault} {w w' : Wal}
    {rs : List Record} {t : Bytes} {failure : Failure}
    (h : RecoveredWith H fault w rs t (.error failure, w')) :
    w'.file = w.file ∨ w'.file = header ++ encodeRecords H rs := by
  cases h with
  | sync position => exact .inr rfl
  | seekEnd position => exact .inr rfl
  | unmoved => exact .inl rfl
  | corrupt => exact .inl rfl
  | stopped => exact .inl rfl
  | truncate => exact .inl rfl

/-- The object that a reclamation leaves behind on a log with the records `rs`. -/
def reclaimed (H : Hashing) (checkpoint : ℕ) (rs : List Record) (n : ℕ) : Wal :=
  ⟨header ++ encodeRecords H (survivors checkpoint rs),
    (header ++ encodeRecords H (survivors checkpoint rs)).length, max (nextAfter rs n) n⟩

/-- A reclamation that returns leaves the log of the survivors. -/
theorem reclaimThrough_ok {H : Hashing} {l l' : LogFiles} {rs : List Record} {t : Bytes}
    {checkpoint : ℕ} {fault : Option ReclaimFault} (hl : Contains H l.wal.file rs t)
    (h : reclaimThrough H checkpoint fault l = (.ok (), l')) :
    l' = ⟨reclaimed H checkpoint rs l.wal.nextSequence, none, none⟩ := by
  unfold reclaimThrough at h
  rcases reclaimPrelude_cases hl fault with ⟨failure, w, hprelude, -⟩ |
    ⟨-, failure, hprelude⟩ | ⟨-, hprelude⟩
  · rw [hprelude] at h
    cases h
  · rw [hprelude] at h
    cases h
  · rw [hprelude] at h
    have hbody := reclaimBody_spec H checkpoint fault hl.history
      { l with wal := reclaimable H rs l.wal.nextSequence, temp := some [] }
    dsimp only at h
    generalize reclaimBody H checkpoint fault rs _ = x at hbody h
    cases hbody with
    | kept failure temp => cases h
    | replaced failure => cases h
    | switched =>
      dsimp only at h
      split_ifs at h
      · cases h
      · cases h
      · cases h
        rfl

/-- A reclamation of a log, of which no system call fails, returns. -/
theorem reclaimThrough_log {H : Hashing} {l : LogFiles} {rs : List Record} {t : Bytes}
    (hv : ValidHistory rs) (ht : TornTail H t)
    (hfile : l.wal.file = header ++ encodeRecords H rs ++ t) (checkpoint : ℕ) :
    reclaimThrough H checkpoint none l =
      (.ok (), ⟨reclaimed H checkpoint rs l.wal.nextSequence, none, none⟩) := by
  have hprelude : reclaimPrelude H none l =
      (.ok rs, { l with wal := reclaimable H rs l.wal.nextSequence, temp := some [] }) := by
    unfold reclaimPrelude
    simp only [Option.bind_none, recoverWith_none, recover_records H l.wal hv ht hfile,
      recovered_ensureNextSequenceAtLeast]
    rw [if_neg nofun]
  have hbody := reclaimBody_spec H checkpoint none hv
    { l with wal := reclaimable H rs l.wal.nextSequence, temp := some [] }
  unfold reclaimThrough
  rw [hprelude]
  dsimp only
  generalize reclaimBody H checkpoint none rs _ = x at hbody
  cases hbody with
  | kept failure temp hbefore => rcases hbefore with ⟨_, h⟩ | h | h | h <;> cases h
  | replaced failure hfault => rcases hfault with h | h <;> cases h
  | switched =>
    dsimp only
    rw [if_neg nofun, if_neg nofun]
    rfl

/-- So does one of durable records. -/
theorem reclaimThrough_returns {H : Hashing} {l : LogFiles} {rs : List Record}
    (hend : AtEnd H .synced l.wal rs) (checkpoint : ℕ) :
    reclaimThrough H checkpoint none l =
      (.ok (), ⟨reclaimed H checkpoint rs l.wal.nextSequence, none, none⟩) := by
  obtain ⟨t, hfile, ht, -⟩ := hend.file
  exact reclaimThrough_log hend.history ht hfile checkpoint

/-- A crash in a reclamation leaves under the path the old log, perhaps without its incomplete
tail, or the log of the survivors. -/
theorem reclaimCrash_atPath {H : Hashing} {l : LogFiles} {rs : List Record} {t : Bytes}
    (checkpoint : ℕ) (point : Option ReclaimFault) (hl : Contains H l.wal.file rs t)
    (hnamed : l.named = none) :
    (reclaimCrash H checkpoint point l).atPath = l.wal.file ∨
      (reclaimCrash H checkpoint point l).atPath = header ++ encodeRecords H rs ∨
      (reclaimCrash H checkpoint point l).atPath =
        header ++ encodeRecords H (survivors checkpoint rs) := by
  unfold reclaimCrash
  rcases reclaimPrelude_cases hl point with ⟨failure, w, hprelude, hrecover⟩ |
    ⟨-, failure, hprelude⟩ | ⟨-, hprelude⟩
  · rw [hprelude]
    simp only [LogFiles.atPath, hnamed, Option.getD_none]
    exact hrecover.file_of_error.imp_right .inl
  · rw [hprelude]
    simp [LogFiles.atPath, hnamed, reclaimable]
  · rw [hprelude]
    have hbody := reclaimBody_spec H checkpoint point hl.history
      { l with wal := reclaimable H rs l.wal.nextSequence, temp := some [] }
    dsimp only
    generalize reclaimBody H checkpoint point rs _ = x at hbody ⊢
    cases hbody with
    | kept failure temp => simp [LogFiles.atPath, hnamed, reclaimable]
    | replaced failure => simp [LogFiles.atPath]
    | switched => simp [LogFiles.atPath]

/-- A file of a header, the records of a history, and a torn tail. -/
theorem contains_of_tornTail {H : Hashing} {rs : List Record} {t : Bytes} (hv : ValidHistory rs)
    (ht : TornTail H t) : Contains H (header ++ encodeRecords H rs ++ t) rs t where
  history := hv
  ends r h := by
    rw [scanBehind, ht] at h
    split_ifs at h
  file := rfl

/-- A file of a header and the records of a history. -/
theorem contains_records (H : Hashing) {rs : List Record} (hv : ValidHistory rs) :
    Contains H (header ++ encodeRecords H rs) rs [] := by
  have hcontains := contains_of_tornTail hv (tornTail_nil H)
  rwa [List.append_nil] at hcontains

/-- A reclamation leaves the object at the end of the log of the survivors. -/
theorem atEnd_reclaimed (H : Hashing) {rs : List Record} (hv : ValidHistory rs) (checkpoint : ℕ)
    {n : ℕ} (hn : n ≤ uint64Max) :
    AtEnd H .synced (reclaimed H checkpoint rs n) (survivors checkpoint rs) where
  position := rfl
  history := hv.survivors checkpoint
  bounded := max_le (nextAfter_le hv hn) hn
  fresh _ r hr := lt_of_lt_of_le (hv.lt_nextAfter n r (List.mem_of_mem_filter hr))
    (le_max_left _ _)
  file := ⟨[], by simp [reclaimed], tornTail_nil H, .inr rfl⟩

end Wal

end Kronos
