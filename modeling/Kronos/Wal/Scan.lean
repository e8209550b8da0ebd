import Kronos.Wal.Model

/-!
# What one pass of recovery sees

`recoverRecord` reads seven fields from the file position on, and decides after each of them
whether the record is complete. `scan` is the same decision as a function of the bytes from the
file position on, and `recoverRecord_eq` shows that the pass carries it out. What the pass does on
the encoding of a record (`scan_encodeRecord`) and on a proper prefix of one (`scan_prefix`)
follows on bytes alone, as does the converse: a record that the pass returns was encoded there
(`scan_record`).
-/

namespace Kronos.Wal

open ByteString

/-! ## Reading -/

/-- The object with its file position moved by `n`. -/
def advance (w : Wal) (n : ℕ) : Wal := { w with position := w.position + n }

/-- Going on in a file does not change it. -/
@[simp] theorem advance_file (w : Wal) (n : ℕ) : (w.advance n).file = w.file := rfl

/-- The position goes on by the bytes passed. -/
@[simp] theorem advance_position (w : Wal) (n : ℕ) :
    (w.advance n).position = w.position + n := rfl

/-- The allocator stays. -/
@[simp] theorem advance_nextSequence (w : Wal) (n : ℕ) :
    (w.advance n).nextSequence = w.nextSequence := rfl

/-- The bytes passed are no longer ahead. -/
@[simp] theorem remaining_advance (w : Wal) (n : ℕ) :
    (w.advance n).remaining = w.remaining.drop n := by
  simp [remaining, advance, List.drop_drop, Nat.add_comm]

/-- A read that the file has enough bytes for, `m` bytes after the file position. -/
theorem advance_readUpTo (w : Wal) {m n : ℕ} (h : m + n ≤ w.remaining.length) :
    (w.advance m).readUpTo n = (slice w.remaining m n, w.advance (m + n)) := by
  have hn : (slice w.remaining m n).length = n := length_slice h
  rw [readUpTo, remaining_advance, ← slice, hn]
  simp [advance, Nat.add_assoc]

/-- A read that the file has too few bytes for is short. -/
theorem advance_readUpTo_short (w : Wal) {m n : ℕ} (h : w.remaining.length < m + n) (hn : 0 < n) :
    ((w.advance m).readUpTo n).1.length ≠ n := by
  simp only [readUpTo, remaining_advance, List.length_take, List.length_drop]
  omega

/-! ## The decision -/

/-- What a pass of recovery finds at the file position. -/
inductive Scan where
  /-- The file ends there. -/
  | eof
  /-- The last record is incomplete. -/
  | torn
  /-- A complete record. -/
  | record (r : Record)
  /-- Something that no append leaves behind, seen after `consumed` bytes. -/
  | corrupt (failure : Failure) (consumed : ℕ)

/-- The length of the encoding of a record with these lengths of key and value. -/
def recordLength (keyLength valueLength : ℕ) : ℕ := 17 + keyLength + valueLength + 4

/-- What a pass finds in the bytes `bs` from the file position on. -/
def scan (H : Hashing) (previousSequence : Option ℕ) (bs : Bytes) : Scan :=
  if bs.length = 0 then .eof
  else if bs.length < 9 then .torn
  else
  let operation : OperationType := ⟨(slice bs 8 1).headD 0⟩
  if operation ≠ .put ∧ operation ≠ .delete then
    .corrupt (.exception "WAL corruption detected: invalid operation") 9
  else if bs.length < 17 then .torn
  else
  let keyLength := ofLe (slice bs 9 4)
  let valueLength := ofLe (slice bs 13 4)
  if bs.length < recordLength keyLength valueLength then .torn
  else
  let consumed := recordLength keyLength valueLength
  let sequence := ofLe (slice bs 0 8)
  if H.checksum (bs.take (17 + keyLength + valueLength)) ≠
      ofLe (slice bs (17 + keyLength + valueLength) 4) then
    .corrupt (.exception "WAL corruption detected: CRC32 mismatch") consumed
  else if let some previous := previousSequence.filter (sequence ≤ ·) then
    .corrupt (.exception (nonIncreasingMessage previous sequence)) consumed
  else if sequence = uint64Max then
    .corrupt (.exception "WAL sequence space exhausted") consumed
  else .record ⟨sequence, operation, slice bs 17 keyLength, slice bs (17 + keyLength) valueLength⟩

/-- What a pass leaves behind, and what it returns, for what it found. -/
inductive Passed (w : Wal) : Scan → Except Failure (Option Record) × Wal → Prop where
  | eof : Passed w .eof (.ok none, w)
  | torn (position : ℕ) :
    Passed w .torn (.ok none, { w with file := w.file.take w.position, position := position })
  | record (r : Record) :
    Passed w (.record r) (.ok (some r),
      { w.advance (recordLength r.key.length r.value.length) with
        nextSequence := r.sequence + 1 })
  | corrupt (failure : Failure) (consumed : ℕ) :
    Passed w (.corrupt failure consumed) (.error failure, w.advance consumed)

/-- At the end of the file a pass finds nothing. -/
theorem Passed.eq_of_eof {w : Wal} {x : Except Failure (Option Record) × Wal}
    (h : Passed w .eof x) : x = (.ok none, w) := by
  cases h
  rfl

/-- At a torn tail a pass cuts the file. -/
theorem Passed.eq_of_torn {w : Wal} {x : Except Failure (Option Record) × Wal}
    (h : Passed w .torn x) : ∃ position, x =
      (.ok none, { w with file := w.file.take w.position, position := position }) := by
  cases h
  exact ⟨_, rfl⟩

/-- At a record a pass returns it, and stands behind it. -/
theorem Passed.eq_of_record {w : Wal} {r : Record} {x : Except Failure (Option Record) × Wal}
    (h : Passed w (.record r) x) : x = (.ok (some r),
      { w.advance (recordLength r.key.length r.value.length) with
        nextSequence := r.sequence + 1 }) := by
  cases h
  rfl

/-- At damage a pass throws. -/
theorem Passed.eq_of_corrupt {w : Wal} {failure : Failure} {consumed : ℕ}
    {x : Except Failure (Option Record) × Wal} (h : Passed w (.corrupt failure consumed) x) :
    x = (.error failure, w.advance consumed) := by
  cases h
  rfl

/-- The fields before the CRC32, read one after the other, are the bytes that it protects. -/
theorem slice_fields (bs : Bytes) (k v : ℕ) :
    slice bs 0 8 ++ slice bs 8 1 ++ slice bs 9 4 ++ slice bs 13 4 ++ slice bs 17 k ++
      slice bs (17 + k) v = bs.take (17 + k + v) := by
  have hadd := fun m n => slice_append_slice bs 0 m n
  simp only [Nat.zero_add] at hadd
  rw [hadd 8 1, hadd 9 4, hadd 13 4, hadd 17 k, hadd (17 + k) v, slice, List.drop_zero]

/-- `recoverRecord` carries out the decision of `scan`. -/
theorem recoverRecord_eq (H : Hashing) (previousSequence : Option ℕ) (w : Wal)
    (hp : w.position ≤ w.file.length) :
    Passed w (scan H previousSequence w.remaining)
      (recoverRecord H w.file.length previousSequence w) := by
  have hrem : w.remaining.length = w.file.length - w.position := by simp [remaining]
  have hlen : ∀ m n, m + n ≤ w.remaining.length → (slice w.remaining m n).length = n :=
    fun _ _ => length_slice
  have hread := fun m n => advance_readUpTo w (m := m) (n := n)
  have hshort := fun m n => advance_readUpTo_short w (m := m) (n := n)
  have hbody := slice_fields w.remaining
  unfold recoverRecord scan
  rcases Nat.eq_zero_or_pos w.remaining.length with hnil | hpos
  · have hnil' := List.eq_nil_of_length_eq_zero hnil
    simp only [readUpTo, hnil', List.take_nil, List.length_nil, if_true, Nat.add_zero]
    exact .eof
  rw [if_neg (by omega)]
  have hw : w.readUpTo 8 = (w.advance 0).readUpTo 8 := rfl
  rcases Nat.lt_or_ge w.remaining.length 8 with h8 | h8
  · have hpos' : (w.readUpTo 8).1.length ≠ 0 := by
      simp only [readUpTo, List.length_take]
      omega
    have h := hshort 0 8 (by omega) (by omega)
    rw [← hw] at h
    simp only [if_pos (show w.remaining.length < 9 by omega), if_neg hpos', ne_eq, h,
      not_false_eq_true, if_true]
    exact .torn _
  simp only [hw, hread 0 8 (by omega), hlen 0 8 (by omega), Nat.zero_add, ne_eq,
    OfNat.ofNat_ne_zero,
    not_true, if_false]
  rcases Nat.lt_or_ge w.remaining.length 9 with h9 | h9
  · have h := hshort 8 1 (by omega) (by omega)
    simp only [if_pos h9, h, not_false_eq_true, if_true]
    exact .torn _
  simp only [hread 8 1 h9, hlen 8 1 h9, if_neg (Nat.not_lt.2 h9),
    not_true, if_false]
  generalize (⟨(slice w.remaining 8 1).headD 0⟩ : OperationType) = operation
  by_cases hop : ¬operation = .put ∧ ¬operation = .delete
  · rw [if_pos hop, if_pos hop]
    exact .corrupt _ _
  rw [if_neg hop, if_neg hop]
  rcases Nat.lt_or_ge w.remaining.length 13 with h13 | h13
  · have h := hshort 9 4 (by omega) (by omega)
    simp only [if_pos (show w.remaining.length < 17 by omega), Nat.reduceAdd, h,
      not_false_eq_true, if_true]
    exact .torn _
  simp only [Nat.reduceAdd, hread 9 4 h13, hlen 9 4 h13, not_true,
    if_false]
  rcases Nat.lt_or_ge w.remaining.length 17 with h17 | h17
  · have h := hshort 13 4 (by omega) (by omega)
    simp only [if_pos h17, h, not_false_eq_true, if_true]
    exact .torn _
  simp only [Nat.reduceAdd, hread 13 4 h17, hlen 13 4 h17,
    if_neg (Nat.not_lt.2 h17), not_true, if_false, advance_position]
  rw [if_neg (show ¬w.position + 17 > w.file.length by omega)]
  generalize ofLe (slice w.remaining 9 4) = k
  generalize ofLe (slice w.remaining 13 4) = v
  rcases Nat.lt_or_ge w.remaining.length (recordLength k v) with hl | hl
  · rw [if_pos hl, if_pos (by simp only [recordLength] at hl; omega)]
    exact .torn _
  rw [if_neg (Nat.not_lt.2 hl)]
  simp only [recordLength] at hl
  rw [if_neg (show ¬k + v + 4 > w.file.length - (w.position + 17) by omega)]
  simp only [hread 17 k (by omega), hlen 17 k (by omega), hread (17 + k) v (by omega),
    hlen (17 + k) v (by omega), hread (17 + k + v) 4 (by omega), hlen (17 + k + v) 4 (by omega),
    not_true, if_false, hbody]
  by_cases hcrc : ¬H.checksum (w.remaining.take (17 + k + v)) =
      ofLe (slice w.remaining (17 + k + v) 4)
  · rw [if_pos hcrc, if_pos hcrc]
    exact .corrupt _ _
  rw [if_neg hcrc, if_neg hcrc]
  generalize ofLe (slice w.remaining 0 8) = sequence
  cases previousSequence.filter (sequence ≤ ·) with
  | some previous => exact .corrupt _ _
  | none =>
    by_cases hmax : sequence = uint64Max
    · simp only [if_pos hmax]
      exact .corrupt _ _
    simp only [if_neg hmax]
    have hrecord := Passed.record (w := w)
      ⟨sequence, operation, slice w.remaining 17 k, slice w.remaining (17 + k) v⟩
    simpa only [recordLength, hlen 17 k (by omega), hlen (17 + k) v (by omega)] using hrecord

/-! ## The encoding of a record -/

/-- The covered part of a record has 17 bytes besides its key and value. -/
@[simp] theorem length_recordBody (r : Record) :
    (recordBody r).length = 17 + r.key.length + r.value.length := by
  simp [recordBody]
  omega

/-- A record has 21 bytes besides its key and value. -/
@[simp] theorem length_encodeRecord (H : Hashing) (r : Record) :
    (encodeRecord H r).length = recordLength r.key.length r.value.length := by
  simp [encodeRecord, recordLength]

/-- The fields of an encoded record, at their offsets. -/
theorem slice_encodeRecord (H : Hashing) (r : Record) (post : Bytes) (hr : r.Writable)
    (hs : r.sequence ≤ uint64Max) :
    let bs := encodeRecord H r ++ post
    ofLe (slice bs 0 8) = r.sequence ∧ (slice bs 8 1).headD 0 = r.operation.byte ∧
      ofLe (slice bs 9 4) = r.key.length ∧ ofLe (slice bs 13 4) = r.value.length ∧
      slice bs 17 r.key.length = r.key ∧
      slice bs (17 + r.key.length) r.value.length = r.value ∧
      bs.take (17 + r.key.length + r.value.length) = recordBody r ∧
      ofLe (slice bs (17 + r.key.length + r.value.length) 4) = H.checksum (recordBody r) := by
  obtain ⟨-, hk, hv⟩ := hr
  simp only [uint32Max, uint64Max] at hk hv hs
  intro bs
  -- Each field ends a prefix of the encoding, whose length is the field's end in the format.
  have hsplit : bs = toLe 8 r.sequence ++ ([r.operation.byte] ++ (toLe 4 r.key.length ++
      (toLe 4 r.value.length ++ (r.key ++ (r.value ++
        (toLe 4 (H.checksum (recordBody r)) ++ post)))))) := by
    simp [bs, encodeRecord, recordBody]
  have hchecksum := H.checksum_lt (recordBody r)
  refine ⟨?_, ?_, ?_, ?_, ?_, ?_, ?_, ?_⟩
  · rw [slice_eq (a := []) (b := toLe 8 r.sequence) (by simp [hsplit]) (by simp) (by simp),
      ofLe_toLe_of_lt (by omega)]
  · rw [slice_eq (a := toLe 8 r.sequence) (b := [r.operation.byte]) (by simp [hsplit]) (by simp)
      (by simp), List.headD_cons]
  · rw [slice_eq (a := toLe 8 r.sequence ++ [r.operation.byte]) (b := toLe 4 r.key.length)
      (by simp [hsplit]) (by simp) (by simp), ofLe_toLe_of_lt (by omega)]
  · rw [slice_eq (a := toLe 8 r.sequence ++ [r.operation.byte] ++ toLe 4 r.key.length)
      (b := toLe 4 r.value.length) (by simp [hsplit]) (by simp) (by simp),
      ofLe_toLe_of_lt (by omega)]
  · exact slice_eq (a := toLe 8 r.sequence ++ [r.operation.byte] ++ toLe 4 r.key.length ++
      toLe 4 r.value.length) (by simp [hsplit]) (by simp) rfl
  · exact slice_eq (a := toLe 8 r.sequence ++ [r.operation.byte] ++ toLe 4 r.key.length ++
      toLe 4 r.value.length ++ r.key) (by simp [hsplit]) (by simp; omega) rfl
  · rw [show bs = recordBody r ++ (toLe 4 (H.checksum (recordBody r)) ++ post) by
      simp [bs, encodeRecord]]
    exact List.take_left' (by simp)
  · rw [slice_eq (a := recordBody r) (b := toLe 4 (H.checksum (recordBody r)))
      (by simp [hsplit, recordBody]) (by simp) (by simp), ofLe_toLe_of_lt (by omega)]

/-- On the encoding of a record, a pass finds the record, unless the sequence history forbids
it. -/
theorem scan_encodeRecord (H : Hashing) (previousSequence : Option ℕ) (r : Record) (post : Bytes)
    (hr : r.Writable) (hs : r.sequence ≤ uint64Max) :
    scan H previousSequence (encodeRecord H r ++ post) =
      match previousSequence.filter (r.sequence ≤ ·) with
      | some previous => .corrupt (.exception (nonIncreasingMessage previous r.sequence))
          (recordLength r.key.length r.value.length)
      | none => if r.sequence = uint64Max then
          .corrupt (.exception "WAL sequence space exhausted")
            (recordLength r.key.length r.value.length)
        else .record r := by
  have hlen : (encodeRecord H r ++ post).length =
      recordLength r.key.length r.value.length + post.length := by simp
  obtain ⟨h1, h2, h3, h4, h5, h6, h7, h8⟩ := slice_encodeRecord H r post hr hs
  have hop : ¬(r.operation ≠ .put ∧ r.operation ≠ .delete) := by
    rcases hr.1 with h | h <;> simp [h]
  simp only [recordLength] at hlen
  simp only [scan, h1, h2, h3, h4, h5, h6, h7, h8, recordLength]
  rw [if_neg (by omega), if_neg (by omega), if_neg hop, if_neg (by omega), if_neg (by omega)]
  simp only [ne_eq, not_true, if_false]
  cases previousSequence.filter (r.sequence ≤ ·) <;> rfl

/-- On a proper prefix of the encoding of a record, a pass finds the end of the file or an
incomplete record. -/
theorem scan_prefix (H : Hashing) (previousSequence : Option ℕ) (r : Record) (t : Bytes)
    (hr : r.Writable) (hs : r.sequence ≤ uint64Max) (ht : t <+: encodeRecord H r)
    (hlt : t.length < (encodeRecord H r).length) :
    scan H previousSequence t = if t.length = 0 then .eof else .torn := by
  obtain ⟨-, h2, h3, h4, -⟩ := slice_encodeRecord H r [] hr hs
  simp only [List.append_nil] at h2 h3 h4
  rw [length_encodeRecord] at hlt
  have hop : ¬(r.operation ≠ .put ∧ r.operation ≠ .delete) := by
    rcases hr.1 with h | h <;> simp [h]
  simp only [scan]
  rcases Nat.eq_zero_or_pos t.length with h0 | h0
  · rw [if_pos h0, if_pos h0]
  have hne : ¬t.length = 0 := by omega
  rw [if_neg hne, if_neg hne]
  rcases Nat.lt_or_ge t.length 9 with h9 | h9
  · rw [if_pos h9]
  rw [if_neg (by omega), slice_of_prefix ht h9, h2, if_neg hop]
  rcases Nat.lt_or_ge t.length 17 with h17 | h17
  · rw [if_pos h17]
  have hkey : slice t 9 4 = slice (encodeRecord H r) 9 4 := slice_of_prefix ht (by omega)
  have hvalue : slice t 13 4 = slice (encodeRecord H r) 13 4 := slice_of_prefix ht (by omega)
  rw [if_neg (by omega), hkey, hvalue, h3, h4, if_pos hlt]

/-- A pass finds the end of the file only there. -/
theorem scan_eof {H : Hashing} {previousSequence : Option ℕ} {bs : Bytes}
    (h : scan H previousSequence bs = .eof) : bs = [] := by
  by_contra hne
  have h0 : ¬bs.length = 0 := fun h0 => hne (List.eq_nil_of_length_eq_zero h0)
  unfold scan at h
  rw [if_neg h0] at h
  dsimp only at h
  cases hfilter : previousSequence.filter (ofLe (slice bs 0 8) ≤ ·) <;>
    rw [hfilter] at h <;> split_ifs at h

/-- What a pass returns as a record was encoded at the file position, and extends the sequence
history. -/
theorem scan_record {H : Hashing} {previousSequence : Option ℕ} {bs : Bytes} {r : Record}
    (h : scan H previousSequence bs = .record r) :
    (∃ post, bs = encodeRecord H r ++ post) ∧ r.Writable ∧ r.sequence < uint64Max ∧
      ∀ previous ∈ previousSequence, previous < r.sequence := by
  unfold scan at h
  dsimp only at h
  cases hfilter : previousSequence.filter (ofLe (slice bs 0 8) ≤ ·) with
  | some previous => rw [hfilter] at h; split_ifs at h
  | none =>
  rw [hfilter] at h
  split_ifs at h with h0 h9 hop h17 hlength hcrc hmax
  cases h
  simp only [recordLength] at hlength
  generalize hk : ofLe (slice bs 9 4) = k at *
  generalize hv : ofLe (slice bs 13 4) = v at *
  have hlen : ∀ m n, m + n ≤ bs.length → (slice bs m n).length = n := fun _ _ => length_slice
  have hk32 := ofLe_lt (slice bs 9 4)
  have hv32 := ofLe_lt (slice bs 13 4)
  have hs64 := ofLe_lt (slice bs 0 8)
  rw [hk, hlen 9 4 (by omega)] at hk32
  rw [hv, hlen 13 4 (by omega)] at hv32
  rw [hlen 0 8 (by omega)] at hs64
  -- The body of the record is what the CRC32 was checked over.
  have hbyte : [(slice bs 8 1).headD 0] = slice bs 8 1 := by
    obtain ⟨b, hb⟩ := List.length_eq_one_iff.1 (hlen 8 1 (by omega))
    rw [hb, List.headD_cons]
  have hbody : recordBody ⟨ofLe (slice bs 0 8), ⟨(slice bs 8 1).headD 0⟩, slice bs 17 k,
      slice bs (17 + k) v⟩ = bs.take (17 + k + v) := by
    simp only [recordBody, hlen 17 k (by omega), hlen (17 + k) v (by omega), hbyte]
    rw [toLe_ofLe_of_length (hlen 0 8 (by omega)), ← hk, toLe_ofLe_of_length (hlen 9 4 (by omega)),
      ← hv, toLe_ofLe_of_length (hlen 13 4 (by omega)), hk, hv, slice_fields]
  refine ⟨⟨bs.drop (17 + k + v + 4), ?_⟩, ⟨?_, ?_, ?_⟩, ?_, ?_⟩
  · rw [encodeRecord, hbody, not_not.1 hcrc, toLe_ofLe_of_length (hlen _ 4 (by omega)), slice,
      ← List.take_add, List.take_append_drop]
  · exact (Classical.em _).imp_right fun h => by
      by_contra h'
      exact hop ⟨h, h'⟩
  · simp only [hlen 17 k (by omega), uint32Max]
    omega
  · simp only [hlen (17 + k) v (by omega), uint32Max]
    omega
  · simp only [uint64Max] at hmax ⊢
    omega
  · intro previous hprevious
    rw [Option.filter_eq_none_iff] at hfilter
    simpa using hfilter previous hprevious

end Kronos.Wal
