import Kronos.Wal.Grammar

/-!
# A corrupted byte

What recovery does with a log in which one byte of one record was changed. The CRC32 of the record
is compared once its lengths are known, so a change outside the two length fields is reported, if
the CRC32 covers it. A changed length moves the place where the CRC32 is looked for: recovery
reports the change if the record that the lengths now declare still fits in the file, and otherwise
takes the record for an incomplete tail, which it cuts off together with every record behind it.
`Detected` says which changes are reported, and `recover_corrupted` that it is these and no others.
-/

namespace Kronos.Wal

open ByteString

/-- Recovery throws, and leaves the file as it is. -/
def ReportsCorruption (H : Hashing) (w : Wal) : Prop :=
  ∃ failure w', recover H w = (.error failure, w') ∧ w'.file = w.file

/-- The bytes from a record on, with byte `j` of the record changed to `b`. -/
def corrupted (H : Hashing) (r : Record) (post : List Record) (j : ℕ) (b : UInt8) : Bytes :=
  (encodeRecord H r).set j b ++ encodeRecords H post

/-- The CRC32 where the length fields declare it is not that of the bytes before it. -/
def Mismatched (H : Hashing) (bs : Bytes) : Prop :=
  H.checksum (bs.take (declaredBody bs)) ≠ ofLe (slice bs (declaredBody bs) 4)

/-- Byte `j` of a record is in one of its length fields. -/
def InLengths (j : ℕ) : Prop := 9 ≤ j ∧ j < 17

/-- Byte `j` of a record is one that its CRC32 is taken over, or one of the CRC32 itself. The
length of the body is passed to `crc32` in 32 bits. -/
def CoveredByte (r : Record) (j : ℕ) : Prop :=
  j < (recordBody r).length % 2^32 ∨ (recordBody r).length ≤ j

/-- Byte `j` of a record is its operation, and `b` is none. -/
def NoOperation (j : ℕ) (b : UInt8) : Prop :=
  j = 8 ∧ (⟨b⟩ : OperationType) ≠ .put ∧ (⟨b⟩ : OperationType) ≠ .delete

/-- Byte `j` of a record is in its sequence number, and with `b` there the sequence numbers of the
log are out of order, or exhausted. -/
def OutOfOrder (pre : List Record) (r : Record) (post : List Record) (j : ℕ) (b : UInt8) : Prop :=
  j < 8 ∧ ¬ValidHistory (pre ++ { r with sequence := ofLe ((toLe 8 r.sequence).set j b) } :: post)

/-- The bytes behind the records `pre` are further records of the history, and perhaps an
incomplete one. -/
def ContinuedBy (H : Hashing) (pre : List Record) (bs : Bytes) : Prop :=
  ∃ rs t, ValidHistory (pre ++ rs) ∧ (t = [] ∨ Interrupted t) ∧ bs = encodeRecords H rs ++ t

/-- The changes that recovery sees. A changed length is seen if the record that the lengths declare
still lies in the file, and its CRC32 does not match, or matches by accident and what follows does
not continue the log. Any other change is seen if the CRC32 covers it, or if the operation or the
sequence number that it leaves is not one. -/
def Detected (H : Hashing) (pre : List Record) (r : Record) (post : List Record) (j : ℕ)
    (b : UInt8) : Prop :=
  let bs := corrupted H r post j b
  (InLengths j → DeclaredFits bs ∧ (Mismatched H bs ∨
    ¬ContinuedBy H (pre ++ [describedRecord bs]) (bs.drop (declaredBody bs + 4)))) ∧
  (¬InLengths j → CoveredByte r j ∨ NoOperation j b ∨ OutOfOrder pre r post j b)

/-! ## What is reported -/

section

variable {H : Hashing} {w : Wal} {pre rs : List Record} {t bs : Bytes} {outcome : Option Failure}

/-- What recovery says about the end of a log decides whether it throws. -/
theorem Log.reportsCorruption_iff (h : Log H w.file rs t outcome) :
    ReportsCorruption H w ↔ outcome ≠ none := by
  have hsays := h.ending.scan h.history
  rcases recover_spec h.contains with ⟨failure, consumed, hscan, hrecover⟩ | ⟨hscan, hrecover⟩
  · rw [hscan] at hsays
    have houtcome : outcome = some failure := hsays
    rw [houtcome]
    exact iff_of_true ⟨failure, _, hrecover, rfl⟩ (Option.some_ne_none failure)
  · have houtcome : outcome = none := by rcases hscan with hscan | hscan <;> rwa [hscan] at hsays
    refine iff_of_false ?_ (not_not.2 houtcome)
    rintro ⟨failure, w', herror, -⟩
    rw [hrecover] at herror
    cases herror

/-- Only the end of a log, and a part of a record, are not complained about. -/
theorem Ending.eq_none_iff (h : Ending H rs t outcome) (hv : ValidHistory rs) :
    outcome = none ↔ t = [] ∨ Interrupted t := by
  constructor
  · rintro rfl
    cases h with
    | clean => exact .inl rfl
    | interrupted _ hpart => exact .inr hpart
  · intro ht
    have hnone : Ending H rs t none := by
      rcases ht with rfl | ht
      · exact .clean
      · exact .interrupted t ht
    exact (h.scan hv).unique (hnone.scan hv)

/-- Behind the records of a history, whatever follows is further records and an end of the log. -/
theorem exists_log_behind (H : Hashing) (hv : ValidHistory pre) (bs : Bytes) :
    ∃ rs t outcome, bs = encodeRecords H rs ++ t ∧
      Log H (header ++ encodeRecords H pre ++ bs) (pre ++ rs) t outcome := by
  obtain ⟨rs, t, hrs, hprevious, hends, rfl⟩ :=
    exists_contains_aux H bs.length (pre.getLast?.map (·.sequence)) bs le_rfl
  have hlast : ((pre ++ rs).getLast?.map (·.sequence)) =
      (rs.getLast?.map (·.sequence)).or (pre.getLast?.map (·.sequence)) := by
    rw [List.getLast?_append]
    cases rs.getLast? <;> rfl
  have hhistory : ValidHistory (pre ++ rs) := by
    refine ⟨?_, ?_, List.pairwise_append.2 ⟨hv.increasing, hrs.increasing, fun r hr r' hr' => ?_⟩⟩
    · exact fun r hr => (List.mem_append.1 hr).elim (hv.writable r) (hrs.writable r)
    · exact fun r hr => (List.mem_append.1 hr).elim (hv.sequence_lt r) (hrs.sequence_lt r)
    · -- The last of the records is before all that follow.
      rcases List.eq_nil_or_concat' pre with rfl | ⟨front, last, rfl⟩
      · cases hr
      · have hbehind := hprevious last.sequence (by simp) r' hr'
        rcases List.mem_append.1 hr with hr | hr
        · exact ((List.pairwise_append.1 hv.increasing).2.2 r hr last (.head _)).trans hbehind
        · rwa [List.mem_singleton.1 hr]
  have hbehind : ∀ r, scanBehind H (pre ++ rs) t ≠ .record r := by
    unfold scanBehind
    rwa [hlast]
  obtain ⟨outcome, hending⟩ := exists_ending hbehind
  exact ⟨rs, t, outcome, rfl, hhistory, by rw [encodeRecords_append]; simp, hending⟩

/-- Recovery throws unless what is behind the records continues them. -/
theorem reportsCorruption_iff_not_continuedBy (hv : ValidHistory pre)
    (hw : w.file = header ++ encodeRecords H pre ++ bs) :
    ReportsCorruption H w ↔ ¬ContinuedBy H pre bs := by
  obtain ⟨rs, t, outcome, hbs, hlog⟩ := exists_log_behind H hv bs
  rw [← hw] at hlog
  rw [hlog.reportsCorruption_iff, Ne, hlog.ending.eq_none_iff hlog.history, not_iff_not]
  refine ⟨fun ht => ⟨rs, t, hlog.history, ht, hbs⟩, ?_⟩
  rintro ⟨rs', t', hv', ht', hbs'⟩
  have hending : Ending H (pre ++ rs') t' none := by
    rcases ht' with rfl | ht'
    · exact .clean
    · exact .interrupted t' ht'
  have hlog' : Log H w.file (pre ++ rs') t' none :=
    ⟨hv', by rw [hw, hbs', encodeRecords_append]; simp, hending⟩
  obtain ⟨-, rfl, -⟩ := hlog.unique hlog'
  exact ht'

/-- Recovery throws if what it finds behind the records ends the log with a complaint. -/
theorem reportsCorruption_of_ending (hv : ValidHistory pre)
    (hw : w.file = header ++ encodeRecords H pre ++ bs) {failure : Failure}
    (h : Ending H pre bs (some failure)) : ReportsCorruption H w :=
  (Log.mk hv hw h).reportsCorruption_iff.2 (Option.some_ne_none failure)

/-- It does not if it finds a part of a record. -/
theorem not_reportsCorruption_of_interrupted (hv : ValidHistory pre)
    (hw : w.file = header ++ encodeRecords H pre ++ bs) (h : Interrupted bs) :
    ¬ReportsCorruption H w :=
  fun hreports => (Log.mk hv hw (.interrupted bs h)).reportsCorruption_iff.1 hreports rfl

/-- A record that fits and whose CRC32 does not match ends the log. -/
theorem ending_of_mismatched (hop : ValidOperation bs) (hfits : DeclaredFits bs)
    (hcrc : Mismatched H bs) :
    Ending H pre bs (some (.exception "WAL corruption detected: CRC32 mismatch")) := by
  rw [← frame_append_drop hfits]
  refine .checksum _ _ _ (framed_described hop hfits) fun heq => hcrc ?_
  rw [← recordBody_described hfits, heq, ofLe_toLe_of_lt]
  exact H.checksum_lt _

/-- A record that fits and whose CRC32 matches is the one that its fields describe. -/
theorem encodeRecord_described (hfits : DeclaredFits bs) (hcrc : ¬Mismatched H bs) :
    encodeRecord H (describedRecord bs) ++ bs.drop (declaredBody bs + 4) = bs := by
  have hstored : toLe 4 (H.checksum (recordBody (describedRecord bs))) =
      slice bs (declaredBody bs) 4 := by
    rw [recordBody_described hfits, not_not.1 hcrc, toLe_ofLe_of_length (length_slice hfits)]
  rw [encodeRecord, hstored, frame_append_drop hfits]

/-- Bytes that are the records of a history and an end are no other records, in order or not. -/
theorem eq_of_encodeRecords_eq : ∀ (rs : List Record), ValidHistory rs → ∀ (L : List Record),
    (∀ r ∈ L, r.Writable ∧ r.sequence ≤ uint64Max) → (t = [] ∨ Interrupted t) →
    encodeRecords H L = encodeRecords H rs ++ t → L = rs := by
  intro rs
  induction rs with
  | nil =>
    intro _ L hL ht heq
    cases L with
    | nil => rfl
    | cons r L =>
      obtain ⟨hr, hs⟩ := hL r (.head _)
      rw [encodeRecords_cons, encodeRecords_nil, List.nil_append] at heq
      have hscan := scan_encodeRecord H none r (encodeRecords H L) hr hs
      rw [heq] at hscan
      rcases ht with rfl | ht
      · have hlen := congrArg List.length heq
        simp [recordLength] at hlen
      · rw [ht.scan] at hscan
        simp only [Option.filter_none] at hscan
        split_ifs at hscan
  | cons r rs ih =>
    intro hv L hL ht heq
    have hpasses : ∀ p ∈ (none : Option ℕ), p < r.sequence := by simp
    have hscan := scan_next (H := H) (hv.writable r (.head _)) (hv.sequence_lt r (.head _))
      hpasses (encodeRecords H rs ++ t)
    rw [encodeRecords_cons, List.append_assoc] at heq
    cases L with
    | nil =>
      have hlen := congrArg List.length heq
      rw [List.length_append, length_encodeRecord, recordLength, encodeRecords_nil,
        List.length_nil] at hlen
      omega
    | cons r' L =>
      obtain ⟨hr', hs'⟩ := hL r' (.head _)
      -- The first record of either list is what a pass finds in the bytes.
      rw [← heq, encodeRecords_cons, scan_encodeRecord H none r' _ hr' hs'] at hscan
      simp only [Option.filter_none] at hscan
      split_ifs at hscan
      cases hscan
      rw [encodeRecords_cons] at heq
      rw [ih hv.tail L (fun r'' h'' => hL r'' (.tail _ h'')) ht (List.append_cancel_left heq)]

/-- Recovery throws over records that are no history. -/
theorem reportsCorruption_iff_not_validHistory {L : List Record}
    (hL : ∀ r ∈ L, r.Writable ∧ r.sequence ≤ uint64Max)
    (hw : w.file = header ++ encodeRecords H L) :
    ReportsCorruption H w ↔ ¬ValidHistory L := by
  have hempty : ValidHistory [] := ⟨by simp, by simp, .nil⟩
  have hbehind : w.file = header ++ encodeRecords H [] ++ encodeRecords H L := by simp [hw]
  rw [reportsCorruption_iff_not_continuedBy hempty hbehind, not_iff_not]
  constructor
  · rintro ⟨rs, t, hv, ht, heq⟩
    rw [eq_of_encodeRecords_eq rs hv L hL ht heq]
    exact hv
  · exact fun hv => ⟨L, [], hv, .inl rfl, by simp⟩

end

/-! ## The changed bytes -/

section

variable {H : Hashing} {r : Record} {post : List Record} {j : ℕ} {b : UInt8}

/-- The change of a byte in the record is one in the bytes from the record on. -/
theorem corrupted_eq_set (h : Differs (encodeRecord H r) j b) :
    corrupted H r post j b = (encodeRecord H r ++ encodeRecords H post).set j b := by
  rw [corrupted, List.set_append_left _ _ h.1]

/-- It leaves the length. -/
theorem length_corrupted : (corrupted H r post j b).length =
    recordLength r.key.length r.value.length + (encodeRecords H post).length := by
  simp [corrupted]

/-- Outside the length fields, a change leaves the declared lengths. -/
theorem declaredBody_corrupted (hr : r.Writable) (hs : r.sequence ≤ uint64Max)
    (h : Differs (encodeRecord H r) j b) (hj : ¬InLengths j) :
    declaredBody (corrupted H r post j b) = 17 + r.key.length + r.value.length := by
  obtain ⟨-, -, h3, h4, -⟩ := slice_encodeRecord H r (encodeRecords H post) hr hs
  unfold InLengths at hj
  unfold declaredBody
  rw [corrupted_eq_set h, slice_set_of_outside _ b (by omega), slice_set_of_outside _ b (by omega),
    h3, h4]

/-- A change outside the length fields, where the CRC32 covers it, does not match. -/
theorem mismatched_corrupted (hcrc : H.DetectsByte) (hr : r.Writable)
    (hs : r.sequence ≤ uint64Max) (h : Differs (encodeRecord H r) j b) (hj : ¬InLengths j)
    (hcovered : CoveredByte r j) : Mismatched H (corrupted H r post j b) := by
  obtain ⟨-, -, -, -, -, -, h7, h8⟩ := slice_encodeRecord H r (encodeRecords H post) hr hs
  have hlen : (recordBody r).length = 17 + r.key.length + r.value.length := length_recordBody r
  have hmod := Nat.mod_le (recordBody r).length (2^32)
  unfold Mismatched
  rw [declaredBody_corrupted hr hs h hj, corrupted_eq_set h]
  rcases hcovered with hcovered | hcovered
  · -- In the body, the CRC32 of the changed bytes is another one.
    have hbody : Differs (recordBody r) j b := by
      have htake := h.take (n := 17 + r.key.length + r.value.length) (by omega)
      rwa [encodeRecord, List.take_left' hlen] at htake
    rw [slice_set_of_outside _ b (by omega), h8, List.take_set, h7]
    exact hcrc.checksum hbody hcovered
  · -- In the CRC32, the bytes that it is compared with are as they were.
    have hj' : j < (recordBody r).length + 4 := by
      have hlt := h.1
      rw [length_encodeRecord, recordLength] at hlt
      omega
    have hwhole : Differs (encodeRecord H r ++ encodeRecords H post) j b := by
      refine ⟨by rw [List.length_append]; exact Nat.lt_add_right _ h.1, ?_⟩
      rw [List.getElem?_append_left h.1]
      exact h.2
    have hstored : Differs (slice (encodeRecord H r ++ encodeRecords H post)
        (17 + r.key.length + r.value.length) 4) (j - (17 + r.key.length + r.value.length)) b :=
      hwhole.slice (by omega) (by omega)
    rw [List.take_set_of_le (by omega), h7, slice_set _ b (by omega), ← h8]
    intro heq
    exact hstored.set_ne (eq_of_ofLe_eq (by simp) heq.symm)

/-- A change that the CRC32 does not cover is not seen in it. -/
theorem not_mismatched_corrupted (hr : r.Writable) (hs : r.sequence ≤ uint64Max)
    (h : Differs (encodeRecord H r) j b) (hj : ¬InLengths j) (hcovered : ¬CoveredByte r j) :
    ¬Mismatched H (corrupted H r post j b) := by
  obtain ⟨-, -, -, -, -, -, h7, h8⟩ := slice_encodeRecord H r (encodeRecords H post) hr hs
  have hlen : (recordBody r).length = 17 + r.key.length + r.value.length := length_recordBody r
  unfold CoveredByte at hcovered
  push Not at hcovered
  obtain ⟨hle, hlt⟩ := hcovered
  unfold Mismatched
  rw [declaredBody_corrupted hr hs h hj, corrupted_eq_set h, slice_set_of_outside _ b (by omega),
    h8,
    List.take_set, h7, not_not]
  unfold Hashing.checksum
  rw [List.length_set, List.take_set_of_le hle]

/-- Outside the length fields, the record that the changed fields describe has the lengths of the
old one. -/
theorem length_described_corrupted (hr : r.Writable) (hs : r.sequence ≤ uint64Max)
    (h : Differs (encodeRecord H r) j b) (hj : ¬InLengths j)
    (hfits : DeclaredFits (corrupted H r post j b)) :
    (describedRecord (corrupted H r post j b)).key.length = r.key.length ∧
      (describedRecord (corrupted H r post j b)).value.length = r.value.length := by
  obtain ⟨-, -, h3, h4, -⟩ := slice_encodeRecord H r (encodeRecords H post) hr hs
  obtain ⟨hkey, hvalue⟩ := length_described hfits
  unfold InLengths at hj
  rw [hkey, hvalue, corrupted_eq_set h, slice_set_of_outside _ b (by omega),
    slice_set_of_outside _ b (by omega), h3, h4]
  exact ⟨rfl, rfl⟩

/-- The sequence number that a change leaves. -/
theorem sequence_corrupted (hr : r.Writable) (hs : r.sequence ≤ uint64Max)
    (h : Differs (encodeRecord H r) j b) :
    (describedRecord (corrupted H r post j b)).sequence =
      if j < 8 then ofLe ((toLe 8 r.sequence).set j b) else r.sequence := by
  show ofLe (slice (corrupted H r post j b) 0 8) = _
  rw [corrupted_eq_set h]
  split_ifs with hj
  · have hfield : slice (encodeRecord H r ++ encodeRecords H post) 0 8 = toLe 8 r.sequence :=
      slice_eq (a := []) (by simp [encodeRecord, recordBody]) rfl (by simp)
    rw [slice_set _ b (Nat.zero_le j), hfield, Nat.sub_zero]
  · rw [slice_set_of_outside _ b (.inr (by omega)),
      (slice_encodeRecord H r (encodeRecords H post) hr hs).1]

/-- A change leaves a valid operation, unless it puts another byte in its place. -/
theorem validOperation_corrupted (hr : r.Writable) (hs : r.sequence ≤ uint64Max)
    (h : Differs (encodeRecord H r) j b) :
    ValidOperation (corrupted H r post j b) ↔ ¬NoOperation j b := by
  obtain ⟨-, h2, -⟩ := slice_encodeRecord H r (encodeRecords H post) hr hs
  unfold ValidOperation NoOperation
  rw [corrupted_eq_set h]
  by_cases hj : j = 8
  · subst hj
    have hfield : slice (encodeRecord H r ++ encodeRecords H post) 8 1 = [r.operation.byte] :=
      slice_eq (a := toLe 8 r.sequence) (by simp [encodeRecord, recordBody]) (by simp) rfl
    rw [slice_set _ b le_rfl, hfield]
    show _ ∨ _ ↔ _
    simp only [Nat.sub_self, List.set_cons_zero, List.headD_cons]
    tauto
  · rw [slice_set_of_outside _ b (by omega), h2]
    exact iff_of_true hr.1 fun hno => hj hno.1

/-- A record may be replaced by another one with its sequence number. -/
theorem ValidHistory.replace {pre : List Record} {r' : Record}
    (h : ValidHistory (pre ++ r :: post)) (hr' : r'.Writable) (hs : r'.sequence = r.sequence) :
    ValidHistory (pre ++ r' :: post) where
  writable r'' h'' := by
    rcases List.mem_append.1 h'' with h'' | h''
    · exact h.writable r'' (List.mem_append_left _ h'')
    · rcases List.mem_cons.1 h'' with rfl | h''
      · exact hr'
      · exact h.writable r'' (List.mem_append_right _ (.tail _ h''))
  sequence_lt r'' h'' := by
    rcases List.mem_append.1 h'' with h'' | h''
    · exact h.sequence_lt r'' (List.mem_append_left _ h'')
    · rcases List.mem_cons.1 h'' with rfl | h''
      · rw [hs]
        exact h.sequence_lt r (by simp)
      · exact h.sequence_lt r'' (List.mem_append_right _ (.tail _ h''))
  increasing := by
    have hmap : (pre ++ r' :: post).map (·.sequence) = (pre ++ r :: post).map (·.sequence) := by
      simp [hs]
    have hold : ((pre ++ r :: post).map (·.sequence)).Pairwise (· < ·) :=
      List.pairwise_map.2 h.increasing
    rw [← hmap] at hold
    exact List.pairwise_map.1 hold

end

/-! ## The log -/

section

variable {H : Hashing} {w : Wal} {pre post : List Record} {r : Record} {j : ℕ} {b : UInt8}

/-- With another record in its place that has its sequence number, a log continues up to there. -/
theorem ValidHistory.front {r' : Record} (h : ValidHistory (pre ++ r :: post)) (hr' : r'.Writable)
    (hs : r'.sequence = r.sequence) : ValidHistory (pre ++ [r']) := by
  refine (h.replace hr' hs).sublist ?_
  exact (List.sublist_append_left [r'] post).append_left pre

/-- Which changes of a length are reported. -/
theorem reportsCorruption_iff_of_inLengths (hv : ValidHistory (pre ++ r :: post))
    (hb : Differs (encodeRecord H r) j b) (hj : InLengths j)
    (hw : w.file = header ++ encodeRecords H pre ++ corrupted H r post j b) :
    ReportsCorruption H w ↔ DeclaredFits (corrupted H r post j b) ∧
      (Mismatched H (corrupted H r post j b) ∨
        ¬ContinuedBy H (pre ++ [describedRecord (corrupted H r post j b)])
          ((corrupted H r post j b).drop (declaredBody (corrupted H r post j b) + 4))) := by
  have hr := hv.writable r (by simp)
  have hs := (hv.sequence_lt r (by simp)).le
  have hvpre : ValidHistory pre := hv.sublist (List.sublist_append_left _ _)
  have hop : ValidOperation (corrupted H r post j b) :=
    (validOperation_corrupted hr hs hb).2 fun hno => by
      have := hno.1
      unfold InLengths at hj
      omega
  have hsequence : (describedRecord (corrupted H r post j b)).sequence = r.sequence := by
    unfold InLengths at hj
    rw [sequence_corrupted hr hs hb, if_neg (by omega)]
  have hlen : 17 ≤ (corrupted H r post j b).length := by
    rw [length_corrupted, recordLength]
    omega
  by_cases hfits : DeclaredFits (corrupted H r post j b)
  · rw [and_iff_right hfits]
    by_cases hcrc : Mismatched H (corrupted H r post j b)
    · exact iff_of_true (reportsCorruption_of_ending hvpre hw (ending_of_mismatched hop hfits hcrc))
        (.inl hcrc)
    · -- The CRC32 matches by accident, so the pass goes on behind the record that was declared.
      have hwritable := (framed_described hop hfits).writable
      rw [or_iff_right hcrc]
      refine reportsCorruption_iff_not_continuedBy (hv.front hwritable hsequence) ?_
      rw [hw, encodeRecords_append]
      conv_lhs => rw [← encodeRecord_described hfits hcrc]
      simp
  · -- The changed record passes for an incomplete tail.
    exact iff_of_false
      (not_reportsCorruption_of_interrupted hvpre hw (interrupted_of_not_fits hlen hop hfits))
      fun h => hfits h.1

/-- Which other changes are reported. -/
theorem reportsCorruption_iff_of_not_inLengths (hcrc : H.DetectsByte)
    (hv : ValidHistory (pre ++ r :: post)) (hb : Differs (encodeRecord H r) j b)
    (hj : ¬InLengths j) (hw : w.file = header ++ encodeRecords H pre ++ corrupted H r post j b) :
    ReportsCorruption H w ↔
      CoveredByte r j ∨ NoOperation j b ∨ OutOfOrder pre r post j b := by
  have hr := hv.writable r (by simp)
  have hs := (hv.sequence_lt r (by simp)).le
  have hvpre : ValidHistory pre := hv.sublist (List.sublist_append_left _ _)
  have hdeclared := @declaredBody_corrupted H r post j b hr hs hb hj
  have hlen := @length_corrupted H r post j b
  rw [recordLength] at hlen
  have hfits : DeclaredFits (corrupted H r post j b) := by
    unfold DeclaredFits
    omega
  by_cases hno : NoOperation j b
  · -- No operation has the byte, and nothing behind it is read.
    have hop := mt (@validOperation_corrupted H r post j b hr hs hb).1 (not_not.2 hno)
    exact iff_of_true (reportsCorruption_of_ending hvpre hw (.operation _ (by omega) hop))
      (.inr (.inl hno))
  have hop := (@validOperation_corrupted H r post j b hr hs hb).2 hno
  by_cases hcovered : CoveredByte r j
  · have hmismatch := @mismatched_corrupted H r post j b hcrc hr hs hb hj hcovered
    exact iff_of_true
      (reportsCorruption_of_ending hvpre hw (ending_of_mismatched hop hfits hmismatch))
      (.inl hcovered)
  -- The changed record is a record, and the changed log is a list of records.
  rw [or_iff_right hcovered, or_iff_right hno]
  have hencode := encodeRecord_described hfits
    (@not_mismatched_corrupted H r post j b hr hs hb hj hcovered)
  have hframed := framed_described hop hfits
  have hrest : (corrupted H r post j b).drop (declaredBody (corrupted H r post j b) + 4) =
      encodeRecords H post := by
    rw [hdeclared, corrupted, List.drop_left']
    rw [List.length_set, length_encodeRecord, recordLength]
  rw [hrest] at hencode
  have hsequence := @sequence_corrupted H r post j b hr hs hb
  obtain ⟨hkey, hvalue⟩ := @length_described_corrupted H r post j b hr hs hb hj hfits
  generalize describedRecord (corrupted H r post j b) = changed at *
  have hfile : w.file = header ++ encodeRecords H (pre ++ changed :: post) := by
    rw [hw, encodeRecords_append, encodeRecords_cons, hencode, List.append_assoc]
  have hrecords : ∀ r' ∈ pre ++ changed :: post, r'.Writable ∧ r'.sequence ≤ uint64Max := by
    intro r' hr'
    rcases List.mem_append.1 hr' with hr' | hr'
    · exact ⟨hvpre.writable r' hr', (hvpre.sequence_lt r' hr').le⟩
    · rcases List.mem_cons.1 hr' with rfl | hr'
      · exact ⟨hframed.writable, hframed.sequence_le⟩
      · have hmem : r' ∈ pre ++ r :: post := List.mem_append_right _ (.tail _ hr')
        exact ⟨hv.writable r' hmem, (hv.sequence_lt r' hmem).le⟩
  rw [reportsCorruption_iff_not_validHistory hrecords hfile]
  unfold OutOfOrder
  by_cases h8 : j < 8
  · rw [if_pos h8] at hsequence
    rw [and_iff_right h8, ← hsequence, not_iff_not]
    have hwritable : Record.Writable { r with sequence := changed.sequence } := hr
    exact ⟨fun h => h.replace hwritable rfl, fun h => h.replace hframed.writable rfl⟩
  · rw [if_neg h8] at hsequence
    exact iff_of_false (not_not.2 (hv.replace hframed.writable hsequence)) fun h => h8 h.1

end

/-- **A corrupted byte.** In a log of valid records, a change of one byte of one record is reported
exactly if `Detected` says so: for a byte of a length field, the record that the changed lengths
declare lies in the file and its CRC32 does not match, or matches by accident in front of bytes that
do not continue the log; for another byte, the CRC32 covers it, or it leaves no operation or no
sequence number of this log. -/
theorem recover_corrupted {H : Hashing} (hcrc : H.DetectsByte) {pre post : List Record}
    {r : Record} (hv : ValidHistory (pre ++ r :: post)) {j : ℕ} {b : UInt8}
    (hb : Differs (encodeRecord H r) j b) {w : Wal}
    (hw : w.file = header ++ encodeRecords H pre ++ corrupted H r post j b) :
    ReportsCorruption H w ↔ Detected H pre r post j b := by
  unfold Detected
  by_cases hj : InLengths j
  · rw [reportsCorruption_iff_of_inLengths hv hb hj hw]
    exact ⟨fun h => ⟨fun _ => h, fun h' => absurd hj h'⟩, fun h => h.1 hj⟩
  · rw [reportsCorruption_iff_of_not_inLengths hcrc hv hb hj hw]
    exact ⟨fun h => ⟨fun h' => absurd h' hj, fun _ => h⟩, fun h => h.2 hj⟩

/-! ## Examples -/

/-- A change of the first byte of a key is reported. -/
theorem recover_corrupted_key :
    ReportsCorruption byteSum ⟨header ++ encodeRecords byteSum [] ++
      corrupted byteSum ⟨0, .put, [97], [1]⟩ [⟨1, .delete, [98], []⟩] 17 96, 50, 0⟩ := by
  have hv : ValidHistory ([] ++ ⟨0, .put, [97], [1]⟩ :: [⟨1, .delete, [98], []⟩]) :=
    ⟨by simp [Record.Writable, uint32Max], by simp [uint64Max], by simp⟩
  have hb : Differs (encodeRecord byteSum ⟨0, .put, [97], [1]⟩) 17 96 := by decide
  exact (recover_corrupted byteSum_detectsByte hv hb rfl).2
    ⟨fun h => absurd h.2 (by decide), fun _ => .inl (.inl (by decide))⟩

/-- A key length of which the highest byte was set moves the end of the first record behind that of
the file: recovery returns no record, and leaves none in the file, whatever the hash is. -/
theorem recover_corruptedLength (H : Hashing) :
    recover H ⟨header ++ encodeRecords H [] ++
        corrupted H ⟨0, .put, [97], [1]⟩ [⟨1, .delete, [98], []⟩] 12 255, 50, 0⟩ =
      (.ok [], ⟨header, 5, 0⟩) := by
  have hlength : (corrupted H ⟨0, .put, [97], [1]⟩ [⟨1, .delete, [98], []⟩] 12 255).length = 45 :=
    rfl
  have hbody : declaredBody (corrupted H ⟨0, .put, [97], [1]⟩ [⟨1, .delete, [98], []⟩] 12 255) =
      17 + ofLe [1, 0, 0, 255] + 1 := rfl
  have hfits : ¬DeclaredFits
      (corrupted H ⟨0, .put, [97], [1]⟩ [⟨1, .delete, [98], []⟩] 12 255) := by
    unfold DeclaredFits
    rw [hlength, hbody]
    decide
  have hpart := interrupted_of_not_fits (by rw [hlength]; decide) (.inl rfl) hfits
  exact recover_records H _ ⟨by simp, by simp, .nil⟩ hpart.tornTail rfl

/-- So the change is not reported, even by a hash that detects it. -/
theorem recover_corruptedLength_not_reported :
    byteSum.DetectsByte ∧
      ValidHistory ([] ++ ⟨0, .put, [97], [1]⟩ :: [⟨1, .delete, [98], []⟩]) ∧
      (∀ H, Differs (encodeRecord H ⟨0, .put, [97], [1]⟩) 12 255) ∧
      ∀ H, ¬ReportsCorruption H ⟨header ++ encodeRecords H [] ++
        corrupted H ⟨0, .put, [97], [1]⟩ [⟨1, .delete, [98], []⟩] 12 255, 50, 0⟩ := by
  refine ⟨byteSum_detectsByte, ⟨by simp [Record.Writable, uint32Max], by simp [uint64Max],
    by simp⟩, fun H => ⟨by simp [recordLength], ?_⟩, fun H => ?_⟩
  · have hbyte : (encodeRecord H ⟨0, .put, [97], [1]⟩)[12]? = some 0 := rfl
    rw [hbyte]
    decide
  · rintro ⟨failure, w', hrecover, -⟩
    rw [recover_corruptedLength H] at hrecover
    cases hrecover

end Kronos.Wal
