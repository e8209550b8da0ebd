import Kronos.Wal.Recover

/-!
# Runs of appends

The calls that a `Wal` takes after its recovery, and what a run of them leaves behind. A call
leaves one of four things at the end of the file: nothing, a record that `fsync` made durable, a
record whose `fsync` failed, or the first bytes of a record. The code rolls none of them back. As
long as nothing that a call writes lands behind an incomplete record, and no whole record behind
one with the same sequence number (`Admitted`), the file stays a log with at most a torn tail
(`AtEnd.runCalls`), so that a later recovery returns the records of the run
(`AtEnd.recover`).
-/

namespace Kronos.Wal

/-! ## Calls -/

/-- A call of `put` or `remove`, with the fault of its system calls. -/
inductive Call where
  | put (key value : Bytes) (fault : Option AppendFault)
  | remove (key : Bytes) (fault : Option AppendFault)
  deriving DecidableEq, Repr

namespace Call

/-- The operation of a call's record. -/
def operation : Call → OperationType
  | put .. => .put
  | remove .. => .delete

/-- The key of a call's record. -/
def key : Call → Bytes
  | put key .. => key
  | remove key _ => key

/-- The value of a call's record. -/
def value : Call → Bytes
  | put _ value _ => value
  | remove .. => []

/-- The fault of a call's system calls. -/
def fault : Call → Option AppendFault
  | put _ _ fault => fault
  | remove _ fault => fault

/-- The record of a call, under a sequence number. -/
def record (c : Call) (sequence : ℕ) : Record := ⟨sequence, c.operation, c.key, c.value⟩

/-- Making a call. -/
def run (H : Hashing) (c : Call) (w : Wal) : Except Failure ℕ × Wal :=
  match c with
  | put key value fault => Wal.put H key value fault w
  | remove key fault => Wal.remove H key fault w

/-- A call writes the record of its operation. -/
theorem run_eq (H : Hashing) (c : Call) (w : Wal) :
    c.run H w = writeRecord H c.operation c.key c.value c.fault w := by
  cases c <;> rfl

end Call

/-- The results of calls made one after the other, whatever each of them returns, and the object
that they leave behind. -/
def runCalls (H : Hashing) : List Call → Wal → List (Call × Except Failure ℕ) × Wal
  | [], w => ([], w)
  | c :: cs, w =>
    let (result, w) := c.run H w
    let (results, w) := runCalls H cs w
    ((c, result) :: results, w)

/-- The record that a call which returned normally stands for. -/
def acknowledgedRecord : Call × Except Failure ℕ → Option Record
  | (c, .ok sequence) => some (c.record sequence)
  | (_, .error _) => none

/-- The records of the calls that returned normally, in order. -/
def acknowledged (results : List (Call × Except Failure ℕ)) : List Record :=
  results.filterMap acknowledgedRecord

/-- `records` has the record of every call that returned normally, with the sequence number that it
returned and in order, and besides those only records of calls that threw. -/
inductive Accounts : List (Call × Except Failure ℕ) → List Record → Prop where
  | nil : Accounts [] []
  | returned {results records} (c : Call) (sequence : ℕ) : Accounts results records →
    Accounts ((c, .ok sequence) :: results) (c.record sequence :: records)
  | threw {results records} (c : Call) (failure : Failure) : Accounts results records →
    Accounts ((c, .error failure) :: results) records
  | threwKept {results records} (c : Call) (failure : Failure) (sequence : ℕ) :
    Accounts results records →
    Accounts ((c, .error failure) :: results) (c.record sequence :: records)

/-! ## What one call leaves at the end of the file -/

/-- What the last call that wrote something left at the end of the file: a durable record, a record
whose `fsync` failed, or the first bytes of a record. -/
inductive Tail where
  | synced
  | unsynced
  | torn
  deriving DecidableEq, Repr

/-- What a call leaves at the end of the file, or nothing when it writes nothing. -/
def Call.leaves (H : Hashing) (c : Call) (w : Wal) : Option Tail :=
  if w.nextSequence = uint64Max ∨ c.key.length > uint32Max ∨ c.value.length > uint32Max then none
  else
    match c.fault with
    | none => some .synced
    | some .fsync => some .unsynced
    | some (.write written) =>
      if written = 0 then none
      else if written < (encodeRecord H (c.record w.nextSequence)).length then some .torn
      else some .synced

/-- The record that a call leaves whole at the end of the file, if it does. -/
def Call.kept (H : Hashing) (c : Call) (w : Wal) : List Record :=
  match c.leaves H w with
  | some .synced | some .unsynced => [c.record w.nextSequence]
  | some .torn | none => []

/-- The object after bytes were written at the end of its file. -/
def append (w : Wal) (bytes : Bytes) : Wal :=
  { w with file := w.file ++ bytes, position := (w.file ++ bytes).length }

/-- A write at the end of the file appends. -/
theorem write_of_end {w : Wal} (h : w.position = w.file.length) (bytes : Bytes) :
    w.write bytes = w.append bytes := by
  simp [write, append, h]

/-- Appending nothing at the end changes nothing. -/
theorem append_nil {w : Wal} (h : w.position = w.file.length) : w.append [] = w := by
  simp [append, ← h]

/-- A record has bytes. -/
theorem encodeRecord_length_pos (H : Hashing) (r : Record) : 0 < (encodeRecord H r).length := by
  rw [length_encodeRecord, recordLength]
  omega

/-- A call that writes something found a sequence number for a record that can be written. -/
theorem Call.leaves_some {H : Hashing} {c : Call} {w : Wal} {tail : Tail}
    (h : c.leaves H w = some tail) :
    w.nextSequence ≠ uint64Max ∧ (c.record w.nextSequence).Writable := by
  unfold leaves at h
  split_ifs at h with hreject
  have hop : c.operation = .put ∨ c.operation = .delete := by cases c <;> simp [operation]
  push Not at hreject
  exact ⟨hreject.1, hop, hreject.2⟩

/-- What a call returns, and leaves behind, at the end of the file. -/
theorem Call.run_spec (H : Hashing) (c : Call) {w : Wal} (hend : w.position = w.file.length) :
    match c.leaves H w with
    | none => ∃ failure, c.run H w = (.error failure, w)
    | some .synced => c.run H w = (.ok w.nextSequence,
        { w.append (encodeRecord H (c.record w.nextSequence)) with
          nextSequence := w.nextSequence + 1 })
    | some .unsynced => ∃ failure, c.run H w =
        (.error failure, w.append (encodeRecord H (c.record w.nextSequence)))
    | some .torn => ∃ failure written,
        written < (encodeRecord H (c.record w.nextSequence)).length ∧ c.run H w =
        (.error failure, w.append ((encodeRecord H (c.record w.nextSequence)).take written)) := by
  have hrecord : (⟨w.nextSequence, c.operation, c.key, c.value⟩ : Record) =
    c.record w.nextSequence := rfl
  rw [run_eq, leaves, writeRecord]
  simp only [hrecord]
  by_cases hmax : w.nextSequence = uint64Max
  · simp [hmax]
  by_cases hlarge : c.key.length > uint32Max ∨ c.value.length > uint32Max
  · simp [hmax, hlarge]
  simp only [hmax, hlarge, or_self, if_false]
  cases c.fault with
  | none => simp only [write_of_end hend]
  | some fault =>
    cases fault with
    | fsync =>
      simp only [write_of_end hend]
      exact ⟨_, rfl⟩
    | write written =>
      have hpos := encodeRecord_length_pos H (c.record w.nextSequence)
      simp only [write_of_end hend]
      rcases Nat.eq_zero_or_pos written with rfl | hwritten
      · simp only [if_true, if_pos hpos, List.take_zero, append_nil hend]
        exact ⟨_, rfl⟩
      rw [if_neg (by omega)]
      rcases Nat.lt_or_ge written (encodeRecord H (c.record w.nextSequence)).length with h | h
      · rw [if_pos h, if_pos h]
        exact ⟨_, _, h, rfl⟩
      · rw [if_neg (Nat.not_lt.2 h), if_neg (Nat.not_lt.2 h)]

/-! ## The end of a log -/

/-- What may land behind what: bytes behind an incomplete record, or a whole record behind one
with the same sequence number, make the log unreadable. -/
def Tail.Admits : Tail → Option Tail → Prop
  | .synced, _ => True
  | .unsynced, next => next = none ∨ next = some .torn
  | .torn, next => next = none

instance : ∀ (tail : Tail) (next : Option Tail), Decidable (tail.Admits next)
  | .synced, _ => .isTrue trivial
  | .unsynced, next => inferInstanceAs (Decidable (next = none ∨ next = some .torn))
  | .torn, next => inferInstanceAs (Decidable (next = none))

/-- Nothing that the calls write lands where it makes the log unreadable, from a log that ends as
`tail` says. -/
def Admitted (H : Hashing) : Tail → Wal → List Call → Prop
  | _, _, [] => True
  | tail, w, c :: cs => tail.Admits (c.leaves H w) ∧
    Admitted H ((c.leaves H w).getD tail) (c.run H w).2 cs

/-- The object at the end of a log of the records `rs`, that ends as `tail` says. -/
structure AtEnd (H : Hashing) (tail : Tail) (w : Wal) (rs : List Record) : Prop where
  position : w.position = w.file.length
  history : ValidHistory rs
  bounded : w.nextSequence ≤ uint64Max
  fresh : tail = .synced → ∀ r ∈ rs, r.sequence < w.nextSequence
  file : ∃ t, w.file = header ++ encodeRecords H rs ++ t ∧ TornTail H t ∧ (tail = .torn ∨ t = [])

/-- The object that a recovery leaves behind is at the end of a log of durable records. -/
theorem atEnd_recovered (H : Hashing) {rs : List Record} (hv : ValidHistory rs) {n : ℕ}
    (hn : n ≤ uint64Max) : AtEnd H .synced (recovered H rs n) rs :=
  ⟨rfl, hv, nextAfter_le hv hn, fun _ => hv.lt_nextAfter n,
    ⟨[], by simp [recovered], tornTail_nil H, .inr rfl⟩⟩

/-- Raising the allocator keeps the object there. -/
theorem AtEnd.ensureNextSequenceAtLeast {H : Hashing} {tail : Tail} {w : Wal} {rs : List Record}
    (h : AtEnd H tail w rs) {n : ℕ} (hn : n ≤ uint64Max) :
    AtEnd H tail (w.ensureNextSequenceAtLeast n) rs := by
  unfold Wal.ensureNextSequenceAtLeast
  split_ifs with hlt
  · exact ⟨h.position, h.history, hn, fun ht r hr => (h.fresh ht r hr).trans hlt, h.file⟩
  · exact h

/-- A recovery of a log returns its records. -/
theorem AtEnd.recover {H : Hashing} {tail : Tail} {w : Wal} {rs : List Record}
    (h : AtEnd H tail w rs) : Wal.recover H w = (.ok rs, recovered H rs w.nextSequence) := by
  obtain ⟨t, hfile, ht, -⟩ := h.file
  exact recover_records H w h.history ht hfile

/-- So does a recovery over its file. -/
theorem AtEnd.reopen {H : Hashing} {tail : Tail} {w : Wal} {rs : List Record}
    (h : AtEnd H tail w rs) : ∃ w', construct (some w.file) = .ok w' ∧
      Wal.recover H w' = (.ok rs, recovered H rs 0) := by
  obtain ⟨t, hfile, ht, -⟩ := h.file
  refine ⟨_, construct_of_header ?_, recover_records H _ h.history ht hfile⟩
  rw [hfile, List.append_assoc]
  exact List.prefix_append _ _

/-- A whole record extends the history of a log whose records are all durable. -/
theorem AtEnd.history_append {H : Hashing} {w : Wal} {rs : List Record} {c : Call} {next : Tail}
    (h : AtEnd H .synced w rs) (hleaves : c.leaves H w = some next) :
    ValidHistory (rs ++ [c.record w.nextSequence]) := by
  obtain ⟨hmax, hwritable⟩ := Call.leaves_some hleaves
  exact h.history.append hwritable (lt_of_le_of_ne h.bounded hmax) (h.fresh rfl)

/-- One call keeps the object at the end of a log, to which it adds its record if it is whole. -/
theorem AtEnd.run {H : Hashing} {tail : Tail} {w : Wal} {rs : List Record} {c : Call}
    (h : AtEnd H tail w rs) (hadmits : tail.Admits (c.leaves H w)) :
    AtEnd H ((c.leaves H w).getD tail) (c.run H w).2 (rs ++ c.kept H w) := by
  have hrun := c.run_spec H h.position
  obtain ⟨t, hfile, ht, htail⟩ := h.file
  unfold Call.kept
  cases hleaves : c.leaves H w with
  | none =>
    rw [hleaves] at hrun
    obtain ⟨failure, hrun⟩ := hrun
    rw [hrun]
    simpa using h
  | some next =>
    rw [hleaves] at hrun hadmits
    obtain ⟨hmax, hwritable⟩ := Call.leaves_some hleaves
    have hbounded : w.nextSequence < uint64Max := lt_of_le_of_ne h.bounded hmax
    -- Nothing is admitted behind an incomplete record, so the file ends with whole records.
    have hnil : t = [] := by
      rcases htail with rfl | ht
      · simp [Tail.Admits] at hadmits
      · exact ht
    rw [hnil, List.append_nil] at hfile
    cases next with
    | synced =>
      obtain rfl : tail = .synced := by cases tail <;> simp [Tail.Admits] at hadmits ⊢
      rw [hrun]
      refine ⟨rfl, h.history_append hleaves, hbounded, fun _ r hr => ?_,
        ⟨[], by simp [append, hfile], tornTail_nil H, .inr rfl⟩⟩
      rcases List.mem_append.1 hr with hr | hr
      · exact (h.fresh rfl r hr).trans (Nat.lt_succ_self _)
      · rw [List.mem_singleton.1 hr]
        exact Nat.lt_succ_self _
    | unsynced =>
      obtain rfl : tail = .synced := by cases tail <;> simp [Tail.Admits] at hadmits ⊢
      obtain ⟨failure, hrun⟩ := hrun
      rw [hrun]
      exact ⟨rfl, h.history_append hleaves, h.bounded, by simp,
        ⟨[], by simp [append, hfile], tornTail_nil H, .inr rfl⟩⟩
    | torn =>
      obtain ⟨failure, written, hlt, hrun⟩ := hrun
      rw [hrun]
      have htorn := tornTail_of_prefix (H := H) hwritable h.bounded (List.take_prefix written _)
        (by rw [List.length_take]; omega)
      exact ⟨rfl, by simpa using h.history, h.bounded, by simp,
        ⟨_, by simp [append, hfile], htorn, .inl rfl⟩⟩

/-- The records that a run of calls leaves whole at the end of the file. -/
def keptBy (H : Hashing) : List Call → Wal → List Record
  | [], _ => []
  | c :: cs, w => c.kept H w ++ keptBy H cs (c.run H w).2

/-- A run of admitted calls keeps the object at the end of a log, to which it adds its whole
records. -/
theorem AtEnd.runCalls {H : Hashing} (cs : List Call) : ∀ {tail : Tail} {w : Wal}
    {rs : List Record}, AtEnd H tail w rs → Admitted H tail w cs →
      ∃ tail', AtEnd H tail' (runCalls H cs w).2 (rs ++ keptBy H cs w) := by
  induction cs with
  | nil =>
    intro tail w rs h _
    exact ⟨tail, by simpa [keptBy, Wal.runCalls] using h⟩
  | cons c cs ih =>
    intro tail w rs h hadmitted
    obtain ⟨tail', h'⟩ := ih (h.run hadmitted.1) hadmitted.2
    exact ⟨tail', by simpa only [keptBy, Wal.runCalls, List.append_assoc] using h'⟩

/-- The whole records of a run account for what its calls returned. -/
theorem AtEnd.accounts {H : Hashing} (cs : List Call) : ∀ {tail : Tail} {w : Wal}
    {rs : List Record}, AtEnd H tail w rs → Admitted H tail w cs →
      Accounts (Wal.runCalls H cs w).1 (keptBy H cs w) := by
  induction cs with
  | nil =>
    intro tail w rs _ _
    exact .nil
  | cons c cs ih =>
    intro tail w rs h hadmitted
    have hrest := ih (h.run hadmitted.1) hadmitted.2
    have hrun := c.run_spec H h.position
    simp only [Wal.runCalls, keptBy]
    unfold Call.kept
    cases hleaves : c.leaves H w with
    | none =>
      rw [hleaves] at hrun
      obtain ⟨failure, hrun⟩ := hrun
      rw [hrun] at hrest ⊢
      exact .threw c failure hrest
    | some next =>
      rw [hleaves] at hrun
      cases next with
      | synced =>
        rw [hrun] at hrest ⊢
        exact .returned c _ hrest
      | unsynced =>
        obtain ⟨failure, hrun⟩ := hrun
        rw [hrun] at hrest ⊢
        exact .threwKept c failure _ hrest
      | torn =>
        obtain ⟨failure, written, -, hrun⟩ := hrun
        rw [hrun] at hrest ⊢
        exact .threw c failure hrest

/-! ## Calls without a fault -/

/-- A call without a fault leaves nothing, or a durable record. -/
theorem Call.leaves_of_fault_none {H : Hashing} {c : Call} (h : c.fault = none) (w : Wal) :
    c.leaves H w = none ∨ c.leaves H w = some .synced := by
  unfold leaves
  rw [h]
  split_ifs <;> simp

/-- A run without faults is admitted at the end of durable records, and the records that it leaves
are those of the calls that returned. -/
theorem AtEnd.runCalls_of_fault_none {H : Hashing} (cs : List Call)
    (hcs : ∀ c ∈ cs, c.fault = none) : ∀ {w : Wal} {rs : List Record}, AtEnd H .synced w rs →
      Admitted H .synced w cs ∧ keptBy H cs w = acknowledged (Wal.runCalls H cs w).1 := by
  induction cs with
  | nil =>
    intro w rs _
    exact ⟨trivial, rfl⟩
  | cons c cs ih =>
    intro w rs h
    have hleaves := Call.leaves_of_fault_none (H := H) (hcs c (.head _)) w
    have hrun := c.run_spec H h.position
    have hnext : (c.leaves H w).getD .synced = .synced := by
      rcases hleaves with h | h <;> rw [h] <;> rfl
    have hstep := h.run (c := c) trivial
    rw [hnext] at hstep
    obtain ⟨hadmitted, hkept⟩ := ih (fun c' h' => hcs c' (.tail _ h')) hstep
    refine ⟨⟨trivial, by rwa [hnext]⟩, ?_⟩
    simp only [keptBy, Wal.runCalls, hkept]
    unfold Call.kept
    rcases hleaves with hleaves | hleaves
    · rw [hleaves] at hrun ⊢
      obtain ⟨failure, hrun⟩ := hrun
      rw [hrun]
      rfl
    · rw [hleaves] at hrun ⊢
      simp only [hrun]
      rfl

/-- A run without faults leaves durable records at the end of the file. -/
theorem AtEnd.runCalls_synced {H : Hashing} (cs : List Call) (hcs : ∀ c ∈ cs, c.fault = none) :
    ∀ {w : Wal} {rs : List Record}, AtEnd H .synced w rs →
      AtEnd H .synced (Wal.runCalls H cs w).2 (rs ++ acknowledged (Wal.runCalls H cs w).1) := by
  induction cs with
  | nil =>
    intro w rs h
    simpa [Wal.runCalls, acknowledged] using h
  | cons c cs ih =>
    intro w rs h
    have hleaves := Call.leaves_of_fault_none (H := H) (hcs c (.head _)) w
    have hrun := c.run_spec H h.position
    have hstep := h.run (c := c) trivial
    have hrest := fun rs' (h' : AtEnd H .synced (c.run H w).2 rs') =>
      ih (fun c' h' => hcs c' (.tail _ h')) h'
    unfold Call.kept at hstep
    simp only [Wal.runCalls, acknowledged, List.filterMap_cons] at hrest ⊢
    rcases hleaves with hleaves | hleaves
    · rw [hleaves] at hrun hstep
      obtain ⟨failure, hrun⟩ := hrun
      have hstep := hrest _ hstep
      rw [hrun] at hstep ⊢
      simpa [acknowledgedRecord] using hstep
    · rw [hleaves] at hrun hstep
      have hstep := hrest _ hstep
      rw [hrun] at hstep ⊢
      simpa [acknowledgedRecord] using hstep

/-- The records that a run acknowledges have sequence numbers from the allocator on. -/
theorem nextSequence_le_of_acknowledged (H : Hashing) (cs : List Call)
    (hcs : ∀ c ∈ cs, c.fault = none) : ∀ {w : Wal}, w.position = w.file.length →
      ∀ r ∈ acknowledged (Wal.runCalls H cs w).1, w.nextSequence ≤ r.sequence := by
  induction cs with
  | nil =>
    intro w _ r hr
    simp [Wal.runCalls, acknowledged] at hr
  | cons c cs ih =>
    intro w hend r hr
    have hleaves := Call.leaves_of_fault_none (H := H) (hcs c (.head _)) w
    have hrun := c.run_spec H hend
    have hrest := fun h' => ih (fun c' h' => hcs c' (.tail _ h')) (w := (c.run H w).2) h' r
    simp only [Wal.runCalls, acknowledged, List.filterMap_cons] at hr hrest
    rcases hleaves with hleaves | hleaves
    · rw [hleaves] at hrun
      obtain ⟨failure, hrun⟩ := hrun
      rw [hrun] at hr hrest
      exact hrest hend (by simpa [acknowledgedRecord] using hr)
    · rw [hleaves] at hrun
      rw [hrun] at hr hrest
      simp only [acknowledgedRecord, List.mem_cons] at hr
      rcases hr with rfl | hr
      · exact le_rfl
      · exact (Nat.le_succ _).trans (hrest rfl hr)

end Kronos.Wal
