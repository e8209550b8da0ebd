import Kronos.Wal.Append

/-!
# What the log guarantees

A crash can cut the file anywhere behind its header: the next recovery returns the records that
lie wholly before the cut, and the log goes on from there (`recover_torn_prefix`). A failed append,
on the other hand, is not rolled back. What it left in the file stays there, and the next append
lands behind it (`recover_tornThenAcknowledged`), so a run of calls is recovered only if nothing
lands where it makes the log unreadable (`recover_runCalls`).
-/

namespace Kronos.Wal

/-! ## A cut -/

/-- `kept` is the list of the records of `rs` that lie wholly inside a prefix of their log that is
`size` bytes long: the longest beginning of `rs` whose log is not longer. -/
def WhollyInside (H : Hashing) (rs : List Record) (size : ℕ) (kept : List Record) : Prop :=
  kept <+: rs ∧ (header ++ encodeRecords H kept).length ≤ size ∧
    ∀ longer, longer <+: rs → (header ++ encodeRecords H longer).length ≤ size →
      longer.length ≤ kept.length

/-- A prefix of the encodings of records is the encodings of the first of them and a prefix of the
encoding of the next. -/
theorem encodeRecords_prefix (H : Hashing) {rs : List Record} (hv : ValidHistory rs) :
    ∀ {bs : Bytes}, bs <+: encodeRecords H rs →
      ∃ kept t, kept <+: rs ∧ bs = encodeRecords H kept ++ t ∧ TornTail H t ∧
        ∀ longer, longer <+: rs → (encodeRecords H longer).length ≤ bs.length →
          longer.length ≤ kept.length := by
  induction rs with
  | nil =>
    intro bs h
    obtain rfl := List.prefix_nil.1 h
    exact ⟨[], [], List.prefix_rfl, rfl, tornTail_nil H, fun longer h _ => h.length_le⟩
  | cons r rs ih =>
    intro bs h
    rw [encodeRecords_cons] at h
    rcases Nat.lt_or_ge bs.length (encodeRecord H r).length with hlt | hge
    · -- The cut lies in the first record.
      have hpre := List.prefix_of_prefix_length_le h (List.prefix_append _ _) hlt.le
      refine ⟨[], bs, List.nil_prefix, rfl, tornTail_of_prefix (hv.writable r (.head _))
        (hv.sequence_lt r (.head _)).le hpre hlt, ?_⟩
      intro longer hlonger hlen
      cases longer with
      | nil => rfl
      | cons r' longer =>
        obtain ⟨rfl, -⟩ := List.cons_prefix_cons.1 hlonger
        rw [encodeRecords_cons, List.length_append] at hlen
        omega
    · obtain ⟨rest, rfl⟩ := List.prefix_of_prefix_length_le (List.prefix_append _ _) h hge
      obtain ⟨kept, t, hkept, rfl, ht, hmax⟩ := ih hv.tail ((List.prefix_append_right_inj _).1 h)
      refine ⟨r :: kept, t, List.cons_prefix_cons.2 ⟨rfl, hkept⟩, by simp, ht, ?_⟩
      intro longer hlonger hlen
      cases longer with
      | nil => exact Nat.zero_le _
      | cons r' longer =>
        obtain ⟨rfl, hrest⟩ := List.cons_prefix_cons.1 hlonger
        rw [encodeRecords_cons, List.length_append, List.length_append] at hlen
        exact Nat.succ_le_succ (hmax longer hrest (by omega))

/-- **A torn tail.** Over any prefix of a log that is not shorter than the header, recovery returns
exactly the records that lie wholly inside the prefix, cuts the file behind them, and leaves the
allocator after the last of them and the file position at the end. A second recovery changes
nothing, and records appended afterwards are recovered behind the surviving ones. -/
theorem recover_torn_prefix (H : Hashing) {rs : List Record} (hv : ValidHistory rs) {file : Bytes}
    (hfile : file <+: header ++ encodeRecords H rs) (hlen : header.length ≤ file.length) :
    ∃ w w' kept, construct (some file) = .ok w ∧ WhollyInside H rs file.length kept ∧
      recover H w = (.ok kept, w') ∧ w'.file = header ++ encodeRecords H kept ∧
      w'.nextSequence = kept.getLast?.elim w.nextSequence (·.sequence + 1) ∧
      w'.position = w'.file.length ∧ recover H w' = (.ok kept, w') ∧
      ∀ calls : List Call, (∀ c ∈ calls, c.fault = none) →
        (recover H (runCalls H calls w').2).1 =
          .ok (kept ++ acknowledged (runCalls H calls w').1) := by
  obtain ⟨body, rfl⟩ := List.prefix_of_prefix_length_le (List.prefix_append _ _) hfile hlen
  obtain ⟨kept, t, hkept, rfl, ht, hmax⟩ :=
    encodeRecords_prefix H hv ((List.prefix_append_right_inj _).1 hfile)
  have hvkept := hv.sublist hkept.sublist
  refine ⟨_, recovered H kept 0, kept, construct_of_header (List.prefix_append _ _),
    ⟨hkept, by simp, fun longer hlonger hle => hmax longer hlonger (by simpa using hle)⟩,
    recover_records H _ hvkept ht (by simp), rfl, rfl, rfl, ?_, ?_⟩
  · rw [recover_records H _ hvkept (tornTail_nil H) (by simp [recovered])]
    simp [recovered]
  · intro calls hcalls
    have hend := atEnd_recovered H hvkept (Nat.zero_le _)
    obtain ⟨hadmitted, hacknowledged⟩ := hend.runCalls_of_fault_none calls hcalls
    obtain ⟨tail', hend'⟩ := hend.runCalls calls hadmitted
    rw [hend'.recover, hacknowledged]

/-- Two records, of which the second is cut in its value length. -/
theorem recover_torn_prefix_two :
    ∃ w w' kept,
      construct (some ((header ++ encodeRecords default
        [⟨3, .put, [97], [1]⟩, ⟨4, .delete, [97], []⟩]).take 44)) = .ok w ∧
      WhollyInside default [⟨3, .put, [97], [1]⟩, ⟨4, .delete, [97], []⟩] 44 kept ∧
      recover default w = (.ok kept, w') ∧ w'.file = header ++ encodeRecords default kept := by
  have hv : ValidHistory [⟨3, .put, [97], [1]⟩, ⟨4, .delete, [97], []⟩] :=
    ⟨by simp [Record.Writable, uint32Max], by simp [uint64Max], by simp⟩
  obtain ⟨w, w', kept, hopened, hkept, hrecover, hfile, -⟩ :=
    recover_torn_prefix default hv (List.take_prefix 44 _) (by decide)
  exact ⟨w, w', kept, hopened, hkept, hrecover, hfile⟩

/-! ## Failed appends -/

/-- The object that a construction over a file and a recovery leave behind, once the engine raised
its allocator behind the durable checkpoint. -/
def FreshlyRecovered (H : Hashing) (w : Wal) (rs : List Record) : Prop :=
  ∃ file opened w' minimum, construct file = .ok opened ∧ recover H opened = (.ok rs, w') ∧
    minimum ≤ uint64Max ∧ w = w'.ensureNextSequenceAtLeast minimum

/-- A later recovery over the file that the calls leave behind succeeds, and returns the records
that were there, and behind them records that account for the calls' results. -/
def RecoversCalls (H : Hashing) (w : Wal) (rs : List Record) (calls : List Call) : Prop :=
  ∃ opened w' records, construct (some (runCalls H calls w).2.file) = .ok opened ∧
    recover H opened = (.ok (rs ++ records), w') ∧ Accounts (runCalls H calls w).1 records

/-- A log that was just recovered stands at its end. -/
theorem FreshlyRecovered.atEnd {H : Hashing} {w : Wal} {rs : List Record}
    (h : FreshlyRecovered H w rs) : AtEnd H .synced w rs := by
  obtain ⟨file, opened, w', minimum, hconstruct, hrecover, hminimum, rfl⟩ := h
  obtain ⟨hheader, hzero⟩ := construct_ok hconstruct
  obtain ⟨hv, rfl⟩ := recover_ok hheader hrecover
  exact (atEnd_recovered H hv (by rw [hzero]; exact Nat.zero_le _)).ensureNextSequenceAtLeast
    hminimum

/-- **Failed appends.** From a freshly recovered log, a run of calls is recovered if nothing that
it writes lands behind an incomplete record, and no whole record behind one whose `fsync`
failed. -/
theorem recover_runCalls {H : Hashing} {w : Wal} {rs : List Record} (hw : FreshlyRecovered H w rs)
    {calls : List Call} (hcalls : Admitted H .synced w calls) : RecoversCalls H w rs calls := by
  obtain ⟨tail, hend⟩ := hw.atEnd.runCalls calls hcalls
  obtain ⟨opened, hopened, hrecover⟩ := hend.reopen
  exact ⟨opened, _, _, hopened, hrecover, hw.atEnd.accounts calls hcalls⟩

/-- A durable record, one whose `fsync` failed, and three bytes of a third. -/
theorem recover_runCalls_three :
    RecoversCalls default ⟨header, 5, 0⟩ []
      [.put [97] [1] none, .put [98] [2] (some .fsync), .remove [97] (some (.write 3))] :=
  recover_runCalls
    ⟨none, ⟨header, 5, 0⟩, ⟨header, 5, 0⟩, 0, rfl, by decide, by decide, rfl⟩
    ⟨by decide, by decide, by decide, trivial⟩

/-- A `put` that stops after one byte, and one that returns normally. -/
def tornThenAcknowledged : List Call := [.put [97] [1] (some (.write 1)), .put [98] [2] none]

/-- The record of a `put` that returned normally, behind one byte of a record whose `put` threw, is
read as a part of it: its bytes pass for an incomplete record, which the next recovery cuts off.
No checksum is compared on the way. -/
theorem recover_tornThenAcknowledged (H : Hashing) :
    (runCalls H tornThenAcknowledged ⟨header, 5, 0⟩).1.map Prod.snd =
        [.error (.exception "Failed to write WAL record"), .ok 0] ∧
      ∀ opened, construct (some (runCalls H tornThenAcknowledged ⟨header, 5, 0⟩).2.file) =
        .ok opened → (recover H opened).1 = .ok [] := by
  refine ⟨rfl, fun opened hopened => ?_⟩
  have hfile : (runCalls H tornThenAcknowledged ⟨header, 5, 0⟩).2.file =
      header ++ ([0] ++ encodeRecord H ⟨0, .put, [98], [2]⟩) := rfl
  have htorn : TornTail H ([0] ++ encodeRecord H ⟨0, .put, [98], [2]⟩) := fun _ => rfl
  rw [hfile, construct_of_header (List.prefix_append _ _)] at hopened
  cases hopened
  rw [recover_records H _ ⟨by simp, by simp, .nil⟩ htorn (by simp)]

/-- On a new log, the acknowledged record is lost, whatever the hash functions are. -/
theorem tornThenAcknowledged_not_recovered :
    (∀ H : Hashing, FreshlyRecovered H ⟨header, 5, 0⟩ []) ∧
      ¬∃ H : Hashing, RecoversCalls H ⟨header, 5, 0⟩ [] tornThenAcknowledged := by
  refine ⟨fun H => ⟨none, _, _, 0, rfl, rfl, Nat.zero_le _, rfl⟩, ?_⟩
  rintro ⟨H, opened, w', records, hopened, hrecover, haccounts⟩
  obtain ⟨-, hlost⟩ := recover_tornThenAcknowledged H
  have hnil : records = [] := by
    have h := hlost opened hopened
    rw [hrecover] at h
    simpa using h
  subst hnil
  cases haccounts with
  | threw _ _ haccounts => cases haccounts

end Kronos.Wal
