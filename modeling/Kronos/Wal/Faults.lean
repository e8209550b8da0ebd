import Kronos.Wal.Recover

/-!
# Recovery with failing system calls

`recover` again, with the system call that fails on the way. A failing call ends the pass where it
stands: whatever was read until then has moved the file position, and every record found until then
has moved the allocator. `recoverRecordWith_spec` says where one pass ends, and `recoverWith_spec`
where a recovery ends, as a function of the records and of the rest that the file consists of.
-/

namespace Kronos.Wal

open ByteString

/-- The system call of `recover` that fails: `fstat`, the `lseek` to the first record, the `lseek`
that asks for the position of a record or of its payload, the `read` at a position, `ftruncate`,
`fsync` behind it, or the `lseek` to the end. -/
inductive RecoverFault where
  | stat
  | seekHeader
  | tellRecord (position : ℕ)
  | tellPayload (position : ℕ)
  | read (position : ℕ)
  | truncate
  | sync
  | seekEnd
  deriving DecidableEq, Repr

/-- What a call throws when this system call fails. -/
def RecoverFault.failure : RecoverFault → Failure
  | stat => .exception "Failed to determine WAL size during recovery"
  | seekHeader => .exception "Failed to seek WAL for recovery"
  | tellRecord _ => .exception "Failed to determine WAL record position"
  | tellPayload _ => .exception "Failed to determine WAL payload position"
  | read _ => .exception "Failed to read WAL"
  | truncate => .exception "Failed to truncate incomplete WAL record"
  | sync => .exception "Failed to fsync WAL after truncation"
  | seekEnd => .exception "Failed to seek to end of WAL after recovery"

/-- A step behind another: an exception ends the call. -/
def andThen {α β : Type} (x : Except Failure α × Wal) (k : α → Wal → Except Failure β × Wal) :
    Except Failure β × Wal :=
  match x with
  | (.error failure, w) => (.error failure, w)
  | (.ok a, w) => k a w

/-- `readUpTo`. The read that fails at a position comes behind those that brought the bytes before
it. -/
def readUpToWith (fault : Option RecoverFault) (n : ℕ) (w : Wal) : Except Failure Bytes × Wal :=
  match fault with
  | some (.read position) =>
    if w.position ≤ position ∧ position < w.position + n ∧ position ≤ w.file.length then
      (.error (RecoverFault.read position).failure, { w with position := position })
    else (.ok (w.readUpTo n).1, (w.readUpTo n).2)
  | _ => (.ok (w.readUpTo n).1, (w.readUpTo n).2)

/-- The position of the descriptor, or the exception of the `lseek` that asks for it. -/
def tellWith (fault : Option RecoverFault) (tell : ℕ → RecoverFault) (w : Wal) :
    Except Failure ℕ × Wal :=
  if fault = some (tell w.position) then (.error (tell w.position).failure, w)
  else (.ok w.position, w)

/-- `truncateIncompleteTail`, and the end of the loop behind it. -/
def truncateIncompleteTailWith (fault : Option RecoverFault) (recordStart : ℕ) (w : Wal) :
    Except Failure (Option Record) × Wal :=
  if fault = some .truncate then (.error RecoverFault.truncate.failure, w)
  else if fault = some .sync then
    (.error RecoverFault.sync.failure, w.truncateIncompleteTail recordStart)
  else (.ok none, w.truncateIncompleteTail recordStart)

/-- One pass of the loop of `recover`. -/
def recoverRecordWith (H : Hashing) (fault : Option RecoverFault) (walFileSize : ℕ)
    (previousSequence : Option ℕ) (w : Wal) : Except Failure (Option Record) × Wal :=
  andThen (tellWith fault .tellRecord w) fun recordStart w =>
  -- 1. Sequence
  andThen (readUpToWith fault 8 w) fun sequenceBytes w =>
  if sequenceBytes.length = 0 then (.ok none, w)
  else if sequenceBytes.length ≠ 8 then truncateIncompleteTailWith fault recordStart w
  else
  let sequence := ofLe sequenceBytes
  -- 2. Operation
  andThen (readUpToWith fault 1 w) fun operationBytes w =>
  if operationBytes.length ≠ 1 then truncateIncompleteTailWith fault recordStart w
  else
  let operation : OperationType := ⟨operationBytes.headD 0⟩
  if operation ≠ .put ∧ operation ≠ .delete then
    (.error (.exception "WAL corruption detected: invalid operation"), w)
  else
  -- 3. Key length
  andThen (readUpToWith fault 4 w) fun keyLengthBytes w =>
  if keyLengthBytes.length ≠ 4 then truncateIncompleteTailWith fault recordStart w
  else
  let keyLength := ofLe keyLengthBytes
  -- 4. Value length
  andThen (readUpToWith fault 4 w) fun valueLengthBytes w =>
  if valueLengthBytes.length ≠ 4 then truncateIncompleteTailWith fault recordStart w
  else
  let valueLength := ofLe valueLengthBytes
  -- 5. The lengths, before anything is allocated for them
  andThen (tellWith fault .tellPayload w) fun payloadPosition w =>
  if payloadPosition > walFileSize then
    (.error (.exception "WAL recovery position exceeds file size"), w)
  else
  let bytesRemaining := walFileSize - payloadPosition
  let requiredBytes := keyLength + valueLength + 4
  if requiredBytes > bytesRemaining then truncateIncompleteTailWith fault recordStart w
  else
  -- 6. Key
  andThen (readUpToWith fault keyLength w) fun key w =>
  if key.length ≠ keyLength then truncateIncompleteTailWith fault recordStart w
  else
  -- 7. Value
  andThen (readUpToWith fault valueLength w) fun value w =>
  if value.length ≠ valueLength then truncateIncompleteTailWith fault recordStart w
  else
  -- 8. Stored CRC32
  andThen (readUpToWith fault 4 w) fun checksumBytes w =>
  if checksumBytes.length ≠ 4 then truncateIncompleteTailWith fault recordStart w
  else
  -- 9. The CRC32 of the bytes read
  let recordBytes :=
    sequenceBytes ++ operationBytes ++ keyLengthBytes ++ valueLengthBytes ++ key ++ value
  if H.checksum recordBytes ≠ ofLe checksumBytes then
    (.error (.exception "WAL corruption detected: CRC32 mismatch"), w)
  else
  -- 10. The sequence history
  if let some previous := previousSequence.filter (sequence ≤ ·) then
    (.error (.exception (nonIncreasingMessage previous sequence)), w)
  else if sequence = uint64Max then (.error (.exception "WAL sequence space exhausted"), w)
  else
  -- 11. A valid record
  (.ok (some ⟨sequence, operation, key, value⟩), { w with nextSequence := sequence + 1 })

/-- The loop of `recover`. -/
def recoverLoopWith (H : Hashing) (fault : Option RecoverFault) (walFileSize : ℕ) :
    ℕ → Option ℕ → List Record → Wal → Except Failure (List Record) × Wal
  | 0, _, _, w => (.error (.undefined "out of fuel"), w)
  | fuel + 1, previousSequence, records, w =>
    match recoverRecordWith H fault walFileSize previousSequence w with
    | (.error e, w) => (.error e, w)
    | (.ok none, w) => (.ok records, w)
    | (.ok (some r), w) =>
      recoverLoopWith H fault walFileSize fuel (some r.sequence) (records ++ [r]) w

/-- `recover`. -/
def recoverWith (H : Hashing) (fault : Option RecoverFault) (w : Wal) :
    Except Failure (List Record) × Wal :=
  if fault = some .stat then (.error RecoverFault.stat.failure, w)
  else if fault = some .seekHeader then (.error RecoverFault.seekHeader.failure, w)
  else
    let walFileSize := w.file.length
    match recoverLoopWith H fault walFileSize (walFileSize + 1) none []
      { w with position := header.length } with
    | (.error e, w) => (.error e, w)
    | (.ok records, w) =>
      if fault = some .seekEnd then (.error RecoverFault.seekEnd.failure, w)
      else (.ok records, { w with position := w.file.length })

/-! ## No failing call -/

/-- Without a failing call, a pass is that of `recoverRecord`. -/
theorem recoverRecordWith_none (H : Hashing) (walFileSize : ℕ) (previousSequence : Option ℕ)
    (w : Wal) : recoverRecordWith H none walFileSize previousSequence w =
      recoverRecord H walFileSize previousSequence w := by
  unfold recoverRecordWith recoverRecord
  -- The two passes look at the sequence before in the same way.
  rcases hfilter : previousSequence.filter (ofLe (w.readUpTo 8).1 ≤ ·) with _ | previous
  · simp only [andThen, tellWith, readUpToWith, truncateIncompleteTailWith, reduceCtorEq, if_false,
      hfilter]
  · simp only [andThen, tellWith, readUpToWith, truncateIncompleteTailWith, reduceCtorEq, if_false,
      hfilter]

/-- Without a failing call, the loop is that of `recover`. -/
theorem recoverLoopWith_none (H : Hashing) (walFileSize fuel : ℕ) :
    ∀ previousSequence records w,
      recoverLoopWith H none walFileSize fuel previousSequence records w =
        recoverLoop H walFileSize fuel previousSequence records w := by
  induction fuel with
  | zero => exact fun _ _ _ => rfl
  | succ fuel ih =>
    intro previousSequence records w
    unfold recoverLoopWith recoverLoop
    rw [recoverRecordWith_none]
    rcases recoverRecord H walFileSize previousSequence w with ⟨_ | _ | r, w⟩
    · rfl
    · rfl
    · exact ih _ _ w

/-- Without a failing call, recovery is `recover`. -/
theorem recoverWith_none (H : Hashing) (w : Wal) : recoverWith H none w = recover H w := by
  unfold recoverWith recover
  simp only [reduceCtorEq, if_false, recoverLoopWith_none]
  rcases recoverLoop H w.file.length (w.file.length + 1) none []
    { w with position := header.length } with ⟨_ | _, _⟩ <;> rfl

/-! ## One pass -/

/-- The position at which a failing call ends a pass, for the calls that do so before the pass has
changed anything but the file position. -/
def RecoverFault.stopsAt : RecoverFault → Option ℕ
  | tellRecord position | tellPayload position | read position => some position
  | _ => none

/-- What a pass leaves behind, and what it returns, for what it found and for the call that fails:
as `Passed`, or stopped at a position, or stopped at the incomplete record that it cuts off. -/
inductive PassedWith (w : Wal) (fault : Option RecoverFault) :
    Scan → Except Failure (Option Record) × Wal → Prop where
  | eof : PassedWith w fault .eof (.ok none, w)
  | torn (position : ℕ) : w.position < position → PassedWith w fault .torn
    (.ok none, { w with file := w.file.take w.position, position := position })
  | record (r : Record) : PassedWith w fault (.record r) (.ok (some r),
    { w.advance (recordLength r.key.length r.value.length) with nextSequence := r.sequence + 1 })
  | corrupt (failure : Failure) (consumed : ℕ) :
    PassedWith w fault (.corrupt failure consumed) (.error failure, w.advance consumed)
  | stopped (found : Scan) (f : RecoverFault) (position : ℕ) : fault = some f →
    f.stopsAt = some position → (∀ r, found = .record r → position < w.file.length) →
    PassedWith w fault found (.error f.failure, { w with position := position })
  | truncate (position : ℕ) : fault = some .truncate →
    (position = w.file.length ↔ w.remaining.length ≤ 17) →
    PassedWith w fault .torn
      (.error RecoverFault.truncate.failure, { w with position := position })
  | sync (position : ℕ) : fault = some .sync → w.position < position →
    PassedWith w fault .torn (.error RecoverFault.sync.failure,
      { w with file := w.file.take w.position, position := position })

/-- A read returns what `readUpTo` returns, or stops at a position. -/
theorem readUpToWith_cases (fault : Option RecoverFault) (n : ℕ) (w : Wal) :
    readUpToWith fault n w = (.ok (w.readUpTo n).1, (w.readUpTo n).2) ∨
      ∃ f position, fault = some f ∧ f.stopsAt = some position ∧ position < w.position + n ∧
        position ≤ w.file.length ∧
        readUpToWith fault n w = (.error f.failure, { w with position := position }) := by
  unfold readUpToWith
  split
  · split_ifs with h
    · exact .inr ⟨_, _, rfl, rfl, h.2.1, h.2.2, rfl⟩
    · exact .inl rfl
  · exact .inl rfl

/-- A position is the descriptor's, or the call that asks for it stops there. -/
theorem tellWith_cases (fault : Option RecoverFault) {tell : ℕ → RecoverFault}
    (htell : ∀ position, (tell position).stopsAt = some position) (w : Wal) :
    tellWith fault tell w = (.ok w.position, w) ∨
      ∃ f, fault = some f ∧ f.stopsAt = some w.position ∧
        tellWith fault tell w = (.error f.failure, w) := by
  unfold tellWith
  split_ifs with h
  · exact .inr ⟨_, h, htell _, rfl⟩
  · exact .inl rfl

/-- An incomplete record is cut off, or the call that does it fails. -/
theorem passedWith_truncate {w : Wal} (fault : Option RecoverFault) {n : ℕ} (hn : 0 < n)
    (hend : w.position + n = w.file.length ↔ w.remaining.length ≤ 17) :
    PassedWith w fault .torn (truncateIncompleteTailWith fault w.position (w.advance n)) := by
  have hlt : w.position < w.position + n := Nat.lt_add_of_pos_right hn
  unfold truncateIncompleteTailWith
  split_ifs with htruncate hsync
  · exact .truncate _ htruncate hend
  · exact .sync _ hsync hlt
  · exact .torn _ hlt

/-- A read that the file has too few bytes for takes all of them. -/
theorem advance_readUpTo_end (w : Wal) {m n : ℕ} (hm : m ≤ w.remaining.length)
    (h : w.remaining.length ≤ m + n) :
    ((w.advance m).readUpTo n).2 = w.advance w.remaining.length := by
  have hlen : ((w.advance m).remaining.take n).length = w.remaining.length - m := by
    rw [remaining_advance, List.length_take, List.length_drop]
    omega
  rw [readUpTo, hlen]
  simp only [advance, Nat.add_assoc, Nat.add_sub_cancel' hm]

/-- A read that the file has enough bytes for stops inside the file, or is followed by the rest of
the pass. -/
theorem PassedWith.read {w : Wal} {fault : Option RecoverFault} {found : Scan} {m n : ℕ}
    {k : Bytes → Wal → Except Failure (Option Record) × Wal} (hp : w.position ≤ w.file.length)
    (hfits : m + n ≤ w.remaining.length)
    (h : PassedWith w fault found (k (slice w.remaining m n) (w.advance (m + n)))) :
    PassedWith w fault found (andThen (readUpToWith fault n (w.advance m)) k) := by
  have hrem : w.remaining.length = w.file.length - w.position := by simp [remaining]
  rcases readUpToWith_cases fault n (w.advance m) with hread | ⟨f, p, hf, hstop, hlt, -, hread⟩
  · rw [hread, advance_readUpTo w hfits]
    exact h
  · rw [hread]
    rw [advance_position] at hlt
    exact .stopped found f p hf hstop fun _ _ => by omega

/-- A read that the file has too few bytes for stops there, or is followed by the rest of the pass
at the end of the file. -/
theorem PassedWith.read_short {w : Wal} {fault : Option RecoverFault} {found : Scan} {m n : ℕ}
    {k : Bytes → Wal → Except Failure (Option Record) × Wal} (hfound : ∀ r, found ≠ .record r)
    (hm : m ≤ w.remaining.length) (hshort : w.remaining.length < m + n)
    (h : ∀ bs : Bytes, bs.length = w.remaining.length - m →
      PassedWith w fault found (k bs (w.advance w.remaining.length))) :
    PassedWith w fault found (andThen (readUpToWith fault n (w.advance m)) k) := by
  rcases readUpToWith_cases fault n (w.advance m) with hread | ⟨f, p, hf, hstop, -, -, hread⟩
  · have hlen : ((w.advance m).readUpTo n).1.length = w.remaining.length - m := by
      simp only [readUpTo, remaining_advance, List.length_take, List.length_drop]
      omega
    rw [hread, andThen, advance_readUpTo_end w hm hshort.le]
    exact h _ hlen
  · rw [hread]
    exact .stopped found f p hf hstop fun r hr => (hfound r hr).elim

/-- So is the call that asks for a position. -/
theorem PassedWith.tell {w : Wal} {fault : Option RecoverFault} {found : Scan} {m : ℕ}
    {tell : ℕ → RecoverFault} {k : ℕ → Wal → Except Failure (Option Record) × Wal}
    (htell : ∀ position, (tell position).stopsAt = some position)
    (hfound : ∀ r, found = .record r → w.position + m < w.file.length)
    (h : PassedWith w fault found (k (w.position + m) (w.advance m))) :
    PassedWith w fault found (andThen (tellWith fault tell (w.advance m)) k) := by
  rcases tellWith_cases fault htell (w.advance m) with hcall | ⟨f, hf, hstop, hcall⟩
  · rw [hcall]
    exact h
  · rw [hcall]
    exact .stopped found f _ hf hstop hfound

/-- A record takes at least 21 bytes. -/
theorem length_of_scan_record {H : Hashing} {previousSequence : Option ℕ} {bs : Bytes} {r : Record}
    (h : scan H previousSequence bs = .record r) : 21 ≤ bs.length := by
  obtain ⟨⟨post, rfl⟩, -⟩ := scan_record h
  rw [List.length_append, length_encodeRecord, recordLength]
  omega

/-- A pass with a failing call carries out the decision of `scan` until that call. -/
theorem recoverRecordWith_eq (H : Hashing) (fault : Option RecoverFault)
    (previousSequence : Option ℕ) (w : Wal) (hp : w.position ≤ w.file.length) :
    PassedWith w fault (scan H previousSequence w.remaining)
      (recoverRecordWith H fault w.file.length previousSequence w) := by
  have hrem : w.remaining.length = w.file.length - w.position := by simp [remaining]
  have hlen : ∀ m n, m + n ≤ w.remaining.length → (slice w.remaining m n).length = n :=
    fun _ _ => length_slice
  have hbody := slice_fields w.remaining
  unfold recoverRecordWith
  refine PassedWith.tell (m := 0) (fun _ => rfl) (fun r hr => ?_) ?_
  · have := length_of_scan_record hr
    omega
  unfold scan
  -- Each read has enough bytes, or the record is incomplete there.
  rcases Nat.eq_zero_or_pos w.remaining.length with hnil | hpos
  · rw [if_pos hnil]
    refine PassedWith.read_short (m := 0) (by simp) (by omega) (by omega) fun bs hbs => ?_
    rw [if_pos (by omega), hnil]
    exact .eof
  rw [if_neg (by omega)]
  rcases Nat.lt_or_ge w.remaining.length 8 with h8 | h8
  · rw [if_pos (by omega)]
    refine PassedWith.read_short (m := 0) (by simp) (by omega) (by omega) fun bs hbs => ?_
    rw [if_neg (by omega), if_pos (by omega)]
    exact passedWith_truncate fault hpos (by omega)
  refine PassedWith.read (m := 0) hp (by omega) ?_
  simp only [hlen 0 8 (by omega), ne_eq, OfNat.ofNat_ne_zero, not_true, if_false]
  rcases Nat.lt_or_ge w.remaining.length 9 with h9 | h9
  · rw [if_pos h9]
    refine PassedWith.read_short (m := 8) (by simp) (by omega) (by omega) fun bs hbs => ?_
    rw [if_pos (by omega)]
    exact passedWith_truncate fault hpos (by omega)
  rw [if_neg (Nat.not_lt.2 h9)]
  refine PassedWith.read (m := 8) hp (by omega) ?_
  simp only [hlen 8 1 h9, not_true, if_false]
  generalize (⟨(slice w.remaining 8 1).headD 0⟩ : OperationType) = operation
  by_cases hop : ¬operation = .put ∧ ¬operation = .delete
  · rw [if_pos hop, if_pos hop]
    exact .corrupt _ 9
  rw [if_neg hop, if_neg hop]
  rcases Nat.lt_or_ge w.remaining.length 13 with h13 | h13
  · rw [if_pos (by omega)]
    refine PassedWith.read_short (m := 9) (by simp) (by omega) (by omega) fun bs hbs => ?_
    rw [if_pos (by omega)]
    exact passedWith_truncate fault hpos (by omega)
  refine PassedWith.read (m := 9) hp (by omega) ?_
  simp only [hlen 9 4 h13, not_true, if_false]
  rcases Nat.lt_or_ge w.remaining.length 17 with h17 | h17
  · rw [if_pos h17]
    refine PassedWith.read_short (m := 13) (by simp) (by omega) (by omega) fun bs hbs => ?_
    rw [if_pos (by omega)]
    exact passedWith_truncate fault hpos (by omega)
  rw [if_neg (Nat.not_lt.2 h17)]
  refine PassedWith.read (m := 13) hp (by omega) ?_
  simp only [hlen 13 4 h17, not_true, if_false]
  generalize ofLe (slice w.remaining 9 4) = k
  generalize ofLe (slice w.remaining 13 4) = v
  rcases Nat.lt_or_ge w.remaining.length (recordLength k v) with hl | hl
  · rw [if_pos hl]
    simp only [recordLength] at hl
    refine PassedWith.tell (m := 17) (fun _ => rfl) (by simp) ?_
    rw [if_neg (by omega), if_pos (by omega)]
    exact passedWith_truncate fault (by omega) (by omega)
  rw [if_neg (Nat.not_lt.2 hl)]
  simp only [recordLength] at hl ⊢
  refine PassedWith.tell (m := 17) (fun _ => rfl) (fun r _ => by omega) ?_
  rw [if_neg (show ¬w.position + 17 > w.file.length by omega),
    if_neg (show ¬k + v + 4 > w.file.length - (w.position + 17) by omega)]
  refine PassedWith.read (m := 17) hp (by omega) ?_
  simp only [hlen 17 k (by omega), not_true, if_false]
  refine PassedWith.read hp (by omega) ?_
  simp only [hlen (17 + k) v (by omega), not_true, if_false]
  refine PassedWith.read hp (by omega) ?_
  simp only [hlen (17 + k + v) 4 (by omega), not_true, if_false, hbody]
  by_cases hcrc : ¬H.checksum (w.remaining.take (17 + k + v)) =
      ofLe (slice w.remaining (17 + k + v) 4)
  · rw [if_pos hcrc, if_pos hcrc]
    exact .corrupt _ (17 + k + v + 4)
  rw [if_neg hcrc, if_neg hcrc]
  generalize ofLe (slice w.remaining 0 8) = sequence
  cases previousSequence.filter (sequence ≤ ·) with
  | some previous => exact .corrupt _ (17 + k + v + 4)
  | none =>
    by_cases hmax : sequence = uint64Max
    · simp only [if_pos hmax]
      exact .corrupt _ (17 + k + v + 4)
    simp only [if_neg hmax]
    have hrecord := @PassedWith.record w fault
      ⟨sequence, operation, slice w.remaining 17 k, slice w.remaining (17 + k) v⟩
    simpa only [recordLength, hlen 17 k (by omega), hlen (17 + k) v (by omega)] using hrecord

/-! ## The contents of a file -/

/-- What the next pass finds behind the records `rs`, in the bytes `t`. -/
def scanBehind (H : Hashing) (rs : List Record) (t : Bytes) : Scan :=
  scan H (rs.getLast?.map (·.sequence)) t

/-- A file consists of a header, the valid records `rs`, and a rest `t` that does not begin with a
further one. -/
structure Contains (H : Hashing) (file : Bytes) (rs : List Record) (t : Bytes) : Prop where
  history : ValidHistory rs
  ends : ∀ r, scanBehind H rs t ≠ .record r
  file : file = header ++ encodeRecords H rs ++ t

/-- Bytes behind a history are further records of it and a rest. -/
theorem exists_contains_aux (H : Hashing) : ∀ (size : ℕ) (previousSequence : Option ℕ) (bs : Bytes),
    bs.length ≤ size → ∃ rs t, ValidHistory rs ∧
      (∀ previous ∈ previousSequence, ∀ r ∈ rs, previous < r.sequence) ∧
      (∀ r, scan H ((rs.getLast?.map (·.sequence)).or previousSequence) t ≠ .record r) ∧
      bs = encodeRecords H rs ++ t := by
  intro size
  induction size with
  | zero =>
    intro previousSequence bs hbs
    refine ⟨[], bs, ⟨by simp, by simp, .nil⟩, by simp, fun r h => ?_, rfl⟩
    have := length_of_scan_record h
    omega
  | succ size ih =>
    intro previousSequence bs hbs
    by_cases hscan : ∃ r, scan H previousSequence bs = .record r
    · obtain ⟨r, hr⟩ := hscan
      obtain ⟨⟨post, rfl⟩, hwritable, hs, hprevious⟩ := scan_record hr
      have hpos : 0 < (encodeRecord H r).length := by
        rw [length_encodeRecord, recordLength]
        omega
      rw [List.length_append] at hbs
      obtain ⟨rs, t, hv, hafter, hend, rfl⟩ := ih (some r.sequence) post (by omega)
      have hfirst : ∀ r' ∈ rs, r.sequence < r'.sequence := hafter _ rfl
      refine ⟨r :: rs, t, hv.cons hwritable hs hfirst, ?_, ?_, by simp⟩
      · intro previous h r' hr'
        rcases List.mem_cons.1 hr' with rfl | hr'
        · exact hprevious previous h
        · exact (hprevious previous h).trans (hfirst r' hr')
      · cases rs with
        | nil => simpa using hend
        | cons r' rs => simpa [List.getLast?_cons] using hend
    · exact ⟨[], bs, ⟨by simp, by simp, .nil⟩, by simp, fun r hr => hscan ⟨r, hr⟩, rfl⟩

/-- Every file with a header has contents. -/
theorem exists_contains (H : Hashing) {file : Bytes} (h : header <+: file) :
    ∃ rs t, Contains H file rs t := by
  obtain ⟨body, rfl⟩ := h
  obtain ⟨rs, t, hv, -, hend, rfl⟩ := exists_contains_aux H body.length none body le_rfl
  exact ⟨rs, t, hv, by simpa [scanBehind] using hend, by simp⟩

/-! ## Recovery -/

/-- How the loop of `recover` ends, on the file `whole ++ t` whose last records are `rs`. -/
inductive LoopEnded (fault : Option RecoverFault) (found : Scan) (whole t : Bytes)
    (records rs : List Record) (n : ℕ) : Except Failure (List Record) × Wal → Prop where
  | ended (position : ℕ) :
    (found = .eof ∧ position = whole.length ∨ found = .torn ∧ whole.length < position) →
    LoopEnded fault found whole t records rs n
      (.ok (records ++ rs), ⟨whole, position, nextAfter rs n⟩)
  | corrupt (failure : Failure) (consumed : ℕ) : found = .corrupt failure consumed →
    LoopEnded fault found whole t records rs n
      (.error failure, ⟨whole ++ t, whole.length + consumed, nextAfter rs n⟩)
  | stopped (f : RecoverFault) (position : ℕ) (rs' : List Record) : fault = some f →
    f.stopsAt = some position → (position = (whole ++ t).length → rs' = rs) →
    LoopEnded fault found whole t records rs n
      (.error f.failure, ⟨whole ++ t, position, nextAfter rs' n⟩)
  | truncate (position : ℕ) : fault = some .truncate → found = .torn →
    (position = (whole ++ t).length ↔ t.length ≤ 17) →
    LoopEnded fault found whole t records rs n
      (.error RecoverFault.truncate.failure, ⟨whole ++ t, position, nextAfter rs n⟩)
  | sync (position : ℕ) : fault = some .sync → found = .torn → whole.length < position →
    LoopEnded fault found whole t records rs n
      (.error RecoverFault.sync.failure, ⟨whole, position, nextAfter rs n⟩)

/-- A record before the others moves the allocator to its successor. -/
theorem LoopEnded.cons {fault : Option RecoverFault} {found : Scan} {whole t : Bytes}
    {records rs : List Record} {n : ℕ} {r : Record} {x : Except Failure (List Record) × Wal}
    (h : LoopEnded fault found whole t (records ++ [r]) rs (r.sequence + 1) x) :
    LoopEnded fault found whole t records (r :: rs) n x := by
  have hnext : nextAfter rs (r.sequence + 1) = nextAfter (r :: rs) n := (nextAfter_cons r rs n).symm
  cases h with
  | ended position hfound =>
    rw [hnext, List.append_assoc]
    exact .ended position hfound
  | corrupt failure consumed hfound =>
    rw [hnext]
    exact .corrupt failure consumed hfound
  | stopped f position rs' hf hstop hall =>
    rw [show nextAfter rs' (r.sequence + 1) = nextAfter (r :: rs') n from
      (nextAfter_cons r rs' n).symm]
    exact .stopped f position _ hf hstop fun h => congrArg (r :: ·) (hall h)
  | truncate position hf hfound hend =>
    rw [hnext]
    exact .truncate position hf hfound hend
  | sync position hf hfound hlt =>
    rw [hnext]
    exact .sync position hf hfound hlt

/-- The loop of `recover`, from a file position on which records and a rest follow. -/
theorem recoverLoopWith_spec (H : Hashing) (fault : Option RecoverFault) (t : Bytes)
    (rs : List Record) : ∀ (pre : Bytes) (fuel : ℕ) (previousSequence : Option ℕ)
      (records : List Record) (n : ℕ), ValidHistory rs →
      (∀ previous ∈ previousSequence, ∀ r ∈ rs, previous < r.sequence) →
      (∀ r, scan H ((rs.getLast?.map (·.sequence)).or previousSequence) t ≠ .record r) →
      rs.length < fuel →
      LoopEnded fault (scan H ((rs.getLast?.map (·.sequence)).or previousSequence) t)
        (pre ++ encodeRecords H rs) t records rs n
        (recoverLoopWith H fault (pre ++ encodeRecords H rs ++ t).length fuel previousSequence
          records ⟨pre ++ encodeRecords H rs ++ t, pre.length, n⟩) := by
  induction rs with
  | nil =>
    intro pre fuel previousSequence records n _ _ hend hfuel
    obtain ⟨fuel, rfl⟩ := Nat.exists_eq_add_of_lt hfuel
    have hrem : remaining ⟨pre ++ encodeRecords H [] ++ t, pre.length, n⟩ = t := by
      simp [remaining]
    have hpass := recoverRecordWith_eq H fault previousSequence
      ⟨pre ++ encodeRecords H [] ++ t, pre.length, n⟩ (by simp)
    simp only [List.getLast?_nil, Option.map_none, Option.none_or] at hend ⊢
    rw [hrem] at hpass
    rw [recoverLoopWith]
    generalize hfound : scan H previousSequence t = found at hpass hend ⊢
    generalize recoverRecordWith H fault _ previousSequence _ = x at hpass ⊢
    simp only [encodeRecords_nil, List.append_nil] at hpass hrem ⊢
    cases hpass with
    | eof =>
      obtain rfl : t = [] := scan_eof hfound
      simpa using @LoopEnded.ended fault .eof pre [] records [] n pre.length (.inl ⟨rfl, rfl⟩)
    | torn position hlt =>
      simpa using @LoopEnded.ended fault .torn pre t records [] n position (.inr ⟨rfl, hlt⟩)
    | record r => exact (hend r rfl).elim
    | corrupt failure consumed => exact .corrupt failure consumed rfl
    | stopped _ f position hf hstop hinside =>
      exact .stopped f position [] hf hstop fun _ => rfl
    | truncate position hf hposition => exact .truncate position hf rfl (by rwa [hrem] at hposition)
    | sync position hf hlt =>
      simpa using @LoopEnded.sync fault .torn pre t records [] n position hf rfl hlt
  | cons r rs ih =>
    intro pre fuel previousSequence records n hv hprev hend hfuel
    obtain ⟨fuel, rfl⟩ := Nat.exists_eq_add_of_lt hfuel
    have hr := hv.writable r (.head _)
    have hs := hv.sequence_lt r (.head _)
    have hrem : remaining ⟨pre ++ encodeRecords H (r :: rs) ++ t, pre.length, n⟩ =
        encodeRecord H r ++ (encodeRecords H rs ++ t) := by
      simp [remaining]
    have hfilter : previousSequence.filter (r.sequence ≤ ·) = none := by
      rw [Option.filter_eq_none_iff]
      intro previous h
      simpa using hprev previous h r (.head _)
    have hscan : scan H previousSequence
        (encodeRecord H r ++ (encodeRecords H rs ++ t)) = .record r := by
      rw [scan_encodeRecord H _ r _ hr hs.le, hfilter]
      simp only [if_neg hs.ne]
    have hlast : ((r :: rs).getLast?.map (·.sequence)).or previousSequence =
        (rs.getLast?.map (·.sequence)).or (some r.sequence) := by
      cases rs <;> simp [List.getLast?_cons]
    have hpass := recoverRecordWith_eq H fault previousSequence
      ⟨pre ++ encodeRecords H (r :: rs) ++ t, pre.length, n⟩ (by simp)
    rw [hrem, hscan] at hpass
    rw [hlast] at hend ⊢
    rw [List.length_cons, show rs.length + 1 + fuel + 1 = rs.length + fuel + 1 + 1 by omega,
      recoverLoopWith]
    generalize recoverRecordWith H fault _ previousSequence _ = x at hpass ⊢
    cases hpass with
    | record =>
      -- The rest of the loop runs with the record moved into the part already read.
      have hrest := ih (pre ++ encodeRecord H r) (rs.length + fuel + 1) (some r.sequence)
        (records ++ [r]) (r.sequence + 1) hv.tail
        (fun previous h r' h' => by
          rw [← Option.mem_some.1 h]
          exact List.rel_of_pairwise_cons hv.increasing h') hend (by omega)
      have hpre : pre ++ encodeRecord H r ++ encodeRecords H rs =
          pre ++ encodeRecords H (r :: rs) := by simp
      have hposition : (pre ++ encodeRecord H r).length =
          pre.length + recordLength r.key.length r.value.length := by simp
      rw [hpre, hposition] at hrest
      exact hrest.cons
    | stopped _ f position hf hstop hinside =>
      exact .stopped f position [] hf hstop fun hposition =>
        (Nat.ne_of_lt (hinside r rfl) hposition).elim

/-- How `recover` ends on a file that consists of a header, the records `rs` and the rest `t`. -/
inductive RecoveredWith (H : Hashing) (fault : Option RecoverFault) (w : Wal) (rs : List Record)
    (t : Bytes) : Except Failure (List Record) × Wal → Prop where
  | unmoved (f : RecoverFault) : fault = some f → f = .stat ∨ f = .seekHeader →
    RecoveredWith H fault w rs t (.error f.failure, w)
  | corrupt (failure : Failure) (consumed : ℕ) : scanBehind H rs t = .corrupt failure consumed →
    RecoveredWith H fault w rs t (.error failure,
      ⟨w.file, (header ++ encodeRecords H rs).length + consumed, nextAfter rs w.nextSequence⟩)
  | stopped (f : RecoverFault) (position : ℕ) (rs' : List Record) : fault = some f →
    f.stopsAt = some position → (position = w.file.length → rs' = rs) →
    RecoveredWith H fault w rs t
      (.error f.failure, ⟨w.file, position, nextAfter rs' w.nextSequence⟩)
  | truncate (position : ℕ) : fault = some .truncate → scanBehind H rs t = .torn →
    (position = w.file.length ↔ t.length ≤ 17) →
    RecoveredWith H fault w rs t (.error RecoverFault.truncate.failure,
      ⟨w.file, position, nextAfter rs w.nextSequence⟩)
  | sync (position : ℕ) : fault = some .sync → scanBehind H rs t = .torn →
    (header ++ encodeRecords H rs).length < position →
    RecoveredWith H fault w rs t (.error RecoverFault.sync.failure,
      ⟨header ++ encodeRecords H rs, position, nextAfter rs w.nextSequence⟩)
  | seekEnd (position : ℕ) : fault = some .seekEnd →
    (scanBehind H rs t = .eof ∧ position = (header ++ encodeRecords H rs).length ∨
      scanBehind H rs t = .torn ∧ (header ++ encodeRecords H rs).length < position) →
    RecoveredWith H fault w rs t (.error RecoverFault.seekEnd.failure,
      ⟨header ++ encodeRecords H rs, position, nextAfter rs w.nextSequence⟩)
  | returned : scanBehind H rs t = .eof ∨ scanBehind H rs t = .torn →
    RecoveredWith H fault w rs t (.ok rs, recovered H rs w.nextSequence)

/-- **Recovery with a failing call.** -/
theorem recoverWith_spec {H : Hashing} {w : Wal} {rs : List Record} {t : Bytes}
    (hw : Contains H w.file rs t) (fault : Option RecoverFault) :
    RecoveredWith H fault w rs t (recoverWith H fault w) := by
  have hfuel : rs.length < w.file.length + 1 := by
    have := length_le_encodeRecords H rs
    rw [hw.file, List.length_append, List.length_append]
    omega
  have hloop := recoverLoopWith_spec H fault t rs header (w.file.length + 1) none []
    w.nextSequence hw.history (by simp) (by simpa [scanBehind] using hw.ends) hfuel
  rw [← hw.file] at hloop
  simp only [Option.or_none] at hloop
  unfold recoverWith
  by_cases hstat : fault = some .stat
  · rw [if_pos hstat]
    exact .unmoved _ hstat (.inl rfl)
  by_cases hseek : fault = some .seekHeader
  · rw [if_neg hstat, if_pos hseek]
    exact .unmoved _ hseek (.inr rfl)
  rw [if_neg hstat, if_neg hseek]
  dsimp only
  generalize recoverLoopWith H fault _ _ none [] _ = x at hloop ⊢
  cases hloop with
  | ended position hfound =>
    dsimp only
    split_ifs with hend
    · exact .seekEnd position hend hfound
    · exact .returned (hfound.imp And.left And.left)
  | corrupt failure consumed hfound =>
    dsimp only
    rw [← hw.file]
    exact .corrupt failure consumed hfound
  | stopped f position rs' hf hstop hall =>
    dsimp only
    rw [← hw.file] at hall ⊢
    exact .stopped f position rs' hf hstop hall
  | truncate position hf hfound hposition =>
    dsimp only
    rw [← hw.file] at hposition ⊢
    exact .truncate position hf hfound hposition
  | sync position hf hfound hlt => exact .sync position hf hfound hlt

/-- Recovery without a failing call: the file stays as it is when its rest is corrupt, and
otherwise becomes the log of the records. -/
theorem recover_spec {H : Hashing} {w : Wal} {rs : List Record} {t : Bytes}
    (hw : Contains H w.file rs t) :
    (∃ failure consumed, scanBehind H rs t = .corrupt failure consumed ∧
      recover H w = (.error failure, ⟨w.file, (header ++ encodeRecords H rs).length + consumed,
        nextAfter rs w.nextSequence⟩)) ∨
    ((scanBehind H rs t = .eof ∨ scanBehind H rs t = .torn) ∧
      recover H w = (.ok rs, recovered H rs w.nextSequence)) := by
  have hrecover := recoverWith_spec hw none
  rw [recoverWith_none] at hrecover
  generalize recover H w = x at hrecover ⊢
  cases hrecover with
  | corrupt failure consumed hscan => exact .inl ⟨failure, consumed, hscan, rfl⟩
  | returned hscan => exact .inr ⟨hscan, rfl⟩
  | unmoved f hf => cases hf
  | stopped f position rs' hf => cases hf
  | truncate position hf => cases hf
  | sync position hf => cases hf
  | seekEnd position hf => cases hf

end Kronos.Wal
