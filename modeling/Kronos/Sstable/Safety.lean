import Kronos.Sstable.Checked

/-!
# The reader is safe

The checks of `Kronos.Sstable.Checked` do not fire. Each checked function is the function of
`Kronos.Sstable.Reader`, whose errors are exceptions only: the minimum sizes make room for the
fields that are read before a check, `require_bytes` guards the others, and a Bloom filter that was
loaded has the bytes that its bit count asks for. An iterator keeps a block of eight bytes or more
and a record index of 32 bits, also behind an exception, and each call of `next` brings it closer to
its end.

What is not safe is the hash of the key. A lookup is defined exactly for the keys whose length fits
an `int`, or nearly so (`readerSafe_iff`).
-/

namespace Kronos.SstableReader

open ByteString

/-- The behaviour is undefined. -/
def IsUndefined (failure : Failure) : Prop := ∃ what, failure = .undefined what

/-- A call returns or throws. -/
def Safe {α : Type} (call : Except Failure α) : Prop := call.Avoids IsUndefined

/-- A read that returns is safe. -/
theorem safe_ok {α : Type} (a : α) : Safe (.ok a : Except Failure α) := Except.avoids_ok a

/-- So is one that throws. -/
theorem safe_exception {α : Type} (message : String) :
    Safe (.error (.exception message) : Except Failure α) := by
  refine Except.avoids_error ?_
  rintro ⟨what, h⟩
  cases h

/-! ## The errors of the reader -/

section Errors

variable (H : Hashing) (message : String) (file payload : Bytes)

/-- A read of the file throws when the bytes are not there. -/
theorem safe_readExact (offset size : ℕ) : Safe (readExact message file offset size) :=
  .ite (fun _ => safe_exception _) fun _ => safe_ok _

/-- The check of a payload throws when the checksum is another one. -/
theorem safe_checkPayload : Safe (checkPayload H message payload) :=
  .ite (fun _ => safe_exception _) fun _ => safe_ok _

/-- A field of a payload is read behind a check of its bound. -/
theorem safe_readField (size cursor : ℕ) :
    Safe (readField (.exception message) payload size cursor) :=
  .ite (fun _ => safe_exception _) fun _ => safe_ok _

/-- The header is read safely. -/
theorem safe_readHeader : Safe (readHeader file) := by
  refine .bind (safe_readExact _ _ _ _) fun magic _ => ?_
  refine .ite (fun _ => safe_exception _) fun _ => ?_
  refine .bind (safe_readExact _ _ _ _) fun bytes _ => ?_
  exact .ite (fun _ => safe_exception _) fun _ => safe_ok _

/-- So is the footer. -/
theorem safe_readFooter : Safe (readFooter H file) := by
  refine .ite (fun _ => safe_exception _) fun _ => ?_
  refine .bind (safe_readExact _ _ _ _) fun footer _ => ?_
  exact .bind (safe_checkPayload _ _ _) fun metadata _ => safe_ok _

/-- So is the Bloom filter. -/
theorem safe_loadBloomFilter (offset size : ℕ) : Safe (loadBloomFilter H file offset size) := by
  refine .ite (fun _ => safe_exception _) fun _ => ?_
  refine .bind (safe_readExact _ _ _ _) fun bytes _ => ?_
  refine .bind (safe_checkPayload _ _ _) fun payload _ => ?_
  refine .ite (fun _ => safe_exception _) fun _ => ?_
  refine .ite (fun _ => safe_exception _) fun _ => ?_
  exact .ite (fun _ => safe_exception _) fun _ => safe_ok _

/-- So are the entries of the index. -/
theorem safe_readIndexEntries (count cursor : ℕ) :
    Safe (readIndexEntries payload count cursor) := by
  induction count generalizing cursor with
  | zero => exact safe_ok _
  | succ count ih =>
    have hentry : Safe (readIndexEntry payload cursor) := by
      refine .bind (safe_readField _ _ _ _) fun length _ => ?_
      refine .bind (safe_readField _ _ _ _) fun firstKey _ => ?_
      refine .bind (safe_readField _ _ _ _) fun blockOffset _ => ?_
      exact .bind (safe_readField _ _ _ _) fun blockSize _ => safe_ok _
    refine .bind hentry fun e _ => ?_
    exact .bind (ih _) fun es _ => safe_ok _

/-- So is the index. -/
theorem safe_loadSparseIndex (offset size : ℕ) : Safe (loadSparseIndex H file offset size) := by
  refine .ite (fun _ => safe_exception _) fun _ => ?_
  refine .bind (safe_readExact _ _ _ _) fun bytes _ => ?_
  refine .bind (safe_checkPayload _ _ _) fun payload _ => ?_
  refine .bind (safe_readField _ _ _ _) fun count _ => ?_
  refine .ite (fun _ => safe_exception _) fun _ => ?_
  refine .bind (safe_readIndexEntries _ _ _) fun index _ => ?_
  exact .ite (fun _ => safe_exception _) fun _ => safe_ok _

/-- An opening returns or throws. -/
theorem safe_openTable : Safe (openTable H file) := by
  refine .bind (safe_readHeader _) fun _ _ => ?_
  refine .bind (safe_readFooter _ _) fun footer _ => ?_
  refine .bind (safe_loadBloomFilter _ _ _ _) fun bloomFilter _ => ?_
  exact .bind (safe_loadSparseIndex _ _ _ _) fun sparseIndex _ => safe_ok _

/-- So is a record of a block. -/
theorem safe_readRecord (cursor : ℕ) : Safe (readRecord payload cursor) := by
  refine .bind (safe_readField _ _ _ _) fun sequence _ => ?_
  refine .bind (safe_readField _ _ _ _) fun operation _ => ?_
  refine .bind (safe_readField _ _ _ _) fun keyLength _ => ?_
  refine .bind (safe_readField _ _ _ _) fun valueLength _ => ?_
  refine .bind (safe_readField _ _ _ _) fun key _ => ?_
  exact .bind (safe_readField _ _ _ _) fun value _ => safe_ok _

/-- So are the records that a lookup goes through. -/
theorem safe_lookupRecords (key : Bytes) (count cursor : ℕ) :
    Safe (lookupRecords payload key count cursor) := by
  induction count generalizing cursor with
  | zero => exact .ite (fun _ => safe_exception _) fun _ => safe_ok _
  | succ count ih =>
    refine .bind (safe_readRecord _ _) fun record _ => ?_
    refine .ite (fun _ => ?_) fun _ => .ite (fun _ => safe_ok _) fun _ => ih _
    exact .ite (fun _ => safe_ok _) fun _ => safe_exception _

/-- The search of a block returns or throws. -/
theorem safe_lookupBlock (block : SparseIndexEntry) (key : Bytes) :
    Safe (lookupBlock H file block key) := by
  refine .bind (safe_readExact _ _ _ _) fun bytes _ => ?_
  refine .ite (fun _ => safe_exception _) fun _ => ?_
  refine .bind (safe_checkPayload _ _ _) fun payload _ => ?_
  refine .bind (safe_readField _ _ _ _) fun count _ => ?_
  exact .ite (fun _ => safe_exception _) fun _ => safe_lookupRecords _ _ _ _

/-- So is the record at which the iterator stands. -/
theorem safe_parseCurrentRecord (it : Iterator) : Safe it.parseCurrentRecord :=
  .bind (safe_readRecord _ _) fun _ _ => safe_ok _

/-- So is the block that the iterator loads. -/
theorem safe_loadBlock (it : Iterator) (blockIndex : ℕ) : Safe (it.loadBlock H blockIndex) := by
  unfold Iterator.loadBlock
  cases it.reader.sparseIndex[blockIndex]? with
  | none => exact safe_exception _
  | some block =>
    refine .ite (fun _ => safe_exception _) fun _ => ?_
    refine .bind (safe_readExact _ _ _ _) fun bytes _ => ?_
    refine .bind (safe_checkPayload _ _ _) fun payload _ => ?_
    exact .ite (fun _ => safe_exception _) fun _ => safe_ok _

end Errors

/-! ## The checks do not fire -/

namespace Checked

variable {H : Hashing} {message : String} {file buffer : Bytes} {offset size cursor count : ℕ}

/-- An access within a buffer returns its bytes. -/
theorem readAt_eq (h : offset + size ≤ buffer.length) :
    readAt buffer offset size = .ok (slice buffer offset size) := if_pos h

/-- A number is decoded from bytes within a buffer. -/
theorem decodeAt_eq (h : offset + size ≤ buffer.length) :
    decodeAt buffer offset size = .ok (ofLe (slice buffer offset size)) := by
  rw [decodeAt, readAt_eq h, ok_bind]

/-- A difference that is not negative is computed without wrapping. -/
theorem minus_eq {a b : ℕ} (h : b ≤ a) : minus a b = .ok (a - b) := if_pos h

/-- What is read from a file has the size that was asked for. -/
theorem length_of_readExact {bytes : Bytes} (h : readExact message file offset size = .ok bytes) :
    bytes.length = size := by
  unfold readExact at h
  split_ifs at h with hout
  cases h
  by_cases hsize : size = 0
  · rw [hsize, slice, List.take_zero, List.length_nil]
  · exact length_slice (by omega)

/-- What lies in the beginning of a buffer is the same there. -/
theorem slice_take (h : cursor + count ≤ size) :
    slice (buffer.take size) cursor count = slice buffer cursor count := by
  rw [slice, slice, List.drop_take, List.take_take, min_eq_left (by omega)]

/-- A guarded field of a payload inside a buffer is the field of the payload. -/
theorem field_eq (failure : Failure) (hsize : size ≤ buffer.length) :
    field failure buffer size count cursor = readField failure (buffer.take size) count cursor := by
  have hlen : (buffer.take size).length = size := by rw [List.length_take, min_eq_left hsize]
  unfold field requireBytes readField
  rw [hlen]
  by_cases hcursor : cursor > size
  · rw [if_pos hcursor, if_pos (.inl hcursor)]
    rfl
  · rw [if_neg hcursor, minus_eq (by omega), ok_bind]
    by_cases hcount : count > size - cursor
    · rw [if_pos hcount, if_pos (.inr hcount)]
      rfl
    · rw [if_neg hcount, if_neg (by omega), ok_bind, readAt_eq (by omega), ok_bind,
        slice_take (by omega)]

/-- The check of a payload, without its accesses. -/
theorem checkPayload_eq (H : Hashing) (message : String) (buffer : Bytes) :
    checkPayload H message buffer =
      if H.checksum (buffer.take (buffer.length - 4)) ≠ ofLe (buffer.drop (buffer.length - 4)) then
        .error (.exception message)
      else .ok (buffer.take (buffer.length - 4)) := rfl

/-- A buffer of four bytes or more has a payload and a checksum. -/
theorem payloadSize_eq (h : 4 ≤ buffer.length) :
    payloadSize H message buffer =
      (checkPayload H message buffer).map fun _ => buffer.length - 4 := by
  have hslice : slice buffer 0 (buffer.length - 4) = buffer.take (buffer.length - 4) := by
    rw [slice, List.drop_zero]
  have hstored : slice buffer (buffer.length - 4) 4 = buffer.drop (buffer.length - 4) := by
    rw [slice, List.take_of_length_le (by rw [List.length_drop]; omega)]
  rw [payloadSize, checkPayload_eq, minus_eq h, ok_bind, readAt_eq (by omega), ok_bind,
    decodeAt_eq (by omega), ok_bind, hslice, hstored]
  split_ifs <;> rfl

/-- A payload that is accepted is the buffer without its last four bytes. -/
theorem checkPayload_eq_take {payload : Bytes} (h : checkPayload H message buffer = .ok payload) :
    payload = buffer.take (buffer.length - 4) := by
  rw [checkPayload_eq] at h
  split_ifs at h
  exact (Except.ok.inj h).symm

/-- Four and four bytes are there to be read. -/
theorem readHeader_eq (file : Bytes) : readHeader file = SstableReader.readHeader file := by
  unfold readHeader SstableReader.readHeader
  cases hmagic : readExact readMessage file 0 4 with
  | error failure => rfl
  | ok magic =>
    have hmagicLength := length_of_readExact hmagic
    have hwhole : slice magic 0 4 = magic := by
      rw [slice, List.drop_zero, List.take_of_length_le hmagicLength.le]
    rw [ok_bind, ok_bind, readAt_eq hmagicLength.ge, ok_bind, hwhole]
    split_ifs
    · rfl
    · cases hversion : readExact readMessage file 4 4 with
      | error failure => rfl
      | ok version =>
        have hversionLength := length_of_readExact hversion
        have hwhole' : slice version 0 4 = version := by
          rw [slice, List.drop_zero, List.take_of_length_le hversionLength.le]
        rw [ok_bind, ok_bind, decodeAt_eq hversionLength.ge, ok_bind, hwhole']

/-- The checked footer is read as the footer is. -/
theorem readFooter_eq (file : Bytes) : readFooter H file = SstableReader.readFooter H file := by
  unfold readFooter SstableReader.readFooter
  split_ifs
  · rfl
  · cases hread : readExact readMessage file (file.length - 36) 36 with
    | error failure => rfl
    | ok footer =>
      have hlen := length_of_readExact hread
      have hstored : slice footer 32 4 = footer.drop (footer.length - 4) := by
        rw [slice, hlen, List.take_of_length_le (by rw [List.length_drop]; omega)]
      have hmetadata : slice footer 0 32 = footer.take (footer.length - 4) := by
        rw [slice, hlen, List.drop_zero]
      rw [ok_bind, ok_bind, decodeAt_eq (by omega), ok_bind, decodeAt_eq (by omega), ok_bind,
        decodeAt_eq (by omega), ok_bind, decodeAt_eq (by omega), ok_bind, decodeAt_eq (by omega),
        ok_bind, readAt_eq (by omega), ok_bind, checkPayload_eq, hstored, hmetadata]
      split_ifs
      · rfl
      · rw [ok_bind, slice_take (by omega), slice_take (by omega), slice_take (by omega),
          slice_take (by omega)]

/-- The minimum size makes room for the counts, and for the checksum behind the bits. -/
theorem loadBloomFilter_eq (file : Bytes) (offset size : ℕ) :
    loadBloomFilter H file offset size = SstableReader.loadBloomFilter H file offset size := by
  unfold loadBloomFilter SstableReader.loadBloomFilter
  split_ifs with hsize
  · rfl
  · cases hread : readExact readMessage file offset size with
    | error failure => rfl
    | ok bytes =>
      have hlen := length_of_readExact hread
      rw [ok_bind, ok_bind, decodeAt_eq (by omega), ok_bind, decodeAt_eq (by omega), ok_bind,
        payloadSize_eq (by omega)]
      cases hcheck : checkPayload H "Bloom filter checksum mismatch" bytes with
      | error failure => rfl
      | ok payload =>
        obtain rfl := checkPayload_eq_take hcheck
        have hbits : slice bytes 8 (bytes.length - 4 - 8) =
            (bytes.take (bytes.length - 4)).drop 8 := by
          rw [slice, List.drop_take]
        rw [Except.map, ok_bind, minus_eq (by omega), ok_bind, readAt_eq (by omega), ok_bind, hbits,
          ok_bind, slice_take (by omega), slice_take (by omega)]

/-- A checked entry of the index is read as the entry is. -/
theorem readIndexEntry_eq (hsize : size ≤ buffer.length) :
    readIndexEntry buffer size cursor = SstableReader.readIndexEntry (buffer.take size) cursor := by
  unfold readIndexEntry SstableReader.readIndexEntry
  simp only [field_eq _ hsize]

/-- So are the entries. -/
theorem readIndexEntries_eq (hsize : size ≤ buffer.length) :
    readIndexEntries buffer size count cursor =
      SstableReader.readIndexEntries (buffer.take size) count cursor := by
  induction count generalizing cursor with
  | zero => rfl
  | succ count ih =>
    rw [readIndexEntries, SstableReader.readIndexEntries, readIndexEntry_eq hsize]
    simp only [ih]

/-- The guard of a field keeps the cursor within the payload. -/
theorem cursor_of_readField {failure : Failure} {payload field : Bytes} {cursor' : ℕ}
    (h : readField failure payload size cursor = .ok (field, cursor')) :
    cursor' = cursor + size ∧ cursor' ≤ payload.length := by
  unfold readField at h
  split_ifs at h with hout
  cases h
  exact ⟨rfl, by omega⟩

/-- So is the index. -/
theorem loadSparseIndex_eq (file : Bytes) (offset size : ℕ) :
    loadSparseIndex H file offset size = SstableReader.loadSparseIndex H file offset size := by
  unfold loadSparseIndex SstableReader.loadSparseIndex
  split_ifs with hsize
  · rfl
  · cases hread : readExact readMessage file offset size with
    | error failure => rfl
    | ok bytes =>
      have hlen := length_of_readExact hread
      rw [ok_bind, ok_bind, payloadSize_eq (by omega)]
      cases hcheck : checkPayload H "Invalid SSTable sparse index CRC" bytes with
      | error failure => rfl
      | ok payload =>
        obtain rfl := checkPayload_eq_take hcheck
        have hpayload : (bytes.take (bytes.length - 4)).length = bytes.length - 4 := by
          rw [List.length_take, min_eq_left (by omega)]
        rw [Except.map, ok_bind, ok_bind, field_eq _ (by omega)]
        rcases hcount : readField indexFailure (bytes.take (bytes.length - 4)) 4 0 with
          failure | ⟨entryCount, cursor⟩
        · rfl
        · obtain ⟨-, hcursor⟩ := cursor_of_readField hcount
          rw [ok_bind, ok_bind]
          dsimp only
          rw [minus_eq (by omega), ok_bind, hpayload]
          simp only [readIndexEntries_eq (show bytes.length - 4 ≤ bytes.length by omega)]

/-- **Opening a table.** The checked constructor is the constructor. -/
theorem openTable_eq (file : Bytes) : openTable H file = SstableReader.openTable H file := by
  unfold openTable SstableReader.openTable
  simp only [readHeader_eq, readFooter_eq, loadBloomFilter_eq, loadSparseIndex_eq]

/-! ## Looking a key up -/

/-- So is a record of a block. -/
theorem readRecord_eq (hsize : size ≤ buffer.length) :
    readRecord buffer size cursor = SstableReader.readRecord (buffer.take size) cursor := by
  unfold readRecord SstableReader.readRecord
  simp only [field_eq _ hsize]

/-- So are the records that a lookup goes through. -/
theorem lookupRecords_eq (hsize : size ≤ buffer.length) (key : Bytes) :
    lookupRecords buffer size key count cursor =
      SstableReader.lookupRecords (buffer.take size) key count cursor := by
  have hlen : (buffer.take size).length = size := by rw [List.length_take, min_eq_left hsize]
  induction count generalizing cursor with
  | zero => rw [lookupRecords, SstableReader.lookupRecords, hlen]
  | succ count ih =>
    rw [lookupRecords, SstableReader.lookupRecords, readRecord_eq hsize]
    simp only [ih]

/-- The check of the size makes room for the checksum, and the fields are guarded. -/
theorem lookupBlock_eq (file : Bytes) (block : SparseIndexEntry) (key : Bytes) :
    lookupBlock H file block key = SstableReader.lookupBlock H file block key := by
  unfold lookupBlock SstableReader.lookupBlock
  cases hread : readExact preadMessage file block.blockOffset block.blockSize with
  | error failure => rfl
  | ok bytes =>
    rw [ok_bind, ok_bind]
    split_ifs with hsmall
    · rfl
    · rw [payloadSize_eq (by omega)]
      cases hcheck : checkPayload H "Invalid SSTable block CRC" bytes with
      | error failure => rfl
      | ok payload =>
        obtain rfl := checkPayload_eq_take hcheck
        have hpayload : (bytes.take (bytes.length - 4)).length = bytes.length - 4 := by
          rw [List.length_take, min_eq_left (by omega)]
        rw [Except.map, ok_bind, ok_bind, field_eq _ (by omega)]
        rcases hcount : readField blockFailure (bytes.take (bytes.length - 4)) 4 0 with
          failure | ⟨recordCount, cursor⟩
        · rfl
        · obtain ⟨-, hcursor⟩ := cursor_of_readField hcount
          rw [ok_bind, ok_bind]
          dsimp only
          rw [minus_eq (by omega), ok_bind, hpayload]
          simp only [lookupRecords_eq (show bytes.length - 4 ≤ bytes.length by omega)]

/-- A filter that was loaded has the bytes that its bit count asks for. -/
theorem sized_of_loadBloomFilter {filter : BloomFilter}
    (h : SstableReader.loadBloomFilter H file offset size = .ok filter) : filter.Sized := by
  unfold SstableReader.loadBloomFilter at h
  split_ifs at h
  obtain ⟨bytes, -, h⟩ := bind_eq_ok h
  obtain ⟨payload, -, h⟩ := bind_eq_ok h
  dsimp only at h
  split_ifs at h with hzero hlen
  unfold BloomFilter.restore at h
  split_ifs at h
  cases h
  exact ⟨Nat.pos_of_ne_zero fun hnone => hzero (.inl hnone), not_not.1 hlen⟩

/-- A table that opens has a Bloom filter whose bits fit its bit count. -/
theorem sized_of_openTable {reader : SstableReader}
    (h : SstableReader.openTable H file = .ok reader) : reader.bloomFilter.Sized := by
  obtain ⟨_, -, h⟩ := bind_eq_ok h
  obtain ⟨footer, -, h⟩ := bind_eq_ok h
  obtain ⟨filter, hfilter, h⟩ := bind_eq_ok h
  obtain ⟨index, -, h⟩ := bind_eq_ok h
  cases h
  exact sized_of_loadBloomFilter hfilter

/-- The probes of such a filter are inside its bits. -/
theorem probeBits_eq {filter : BloomFilter} (hsized : filter.Sized) (delta : UInt32) (count : ℕ)
    (h : UInt32) :
    probeBits filter delta count h =
      .ok ((BloomFilter.probes delta count h).all filter.testBit) := by
  obtain ⟨hpos, hlen⟩ := hsized
  induction count generalizing h with
  | zero => rfl
  | succ count ih =>
    have hbyte : h.toNat % filter.bitCount / 8 < filter.bits.length := by
      have hposition := Nat.mod_lt h.toNat hpos
      omega
    rw [probeBits, if_neg (by omega)]
    dsimp only
    have htest : filter.testBit h = decide (filter.bits.getD (h.toNat % filter.bitCount / 8) 0 &&&
        BloomFilter.bitMask (h.toNat % filter.bitCount) ≠ 0) := rfl
    rw [if_pos hbyte, BloomFilter.probes, List.all_cons, ih, htest]
    by_cases hbit : filter.bits.getD (h.toNat % filter.bitCount / 8) 0 &&&
        BloomFilter.bitMask (h.toNat % filter.bitCount) = 0
    · rw [if_pos hbit, decide_eq_false (not_not.2 hbit), Bool.false_and]
    · rw [if_neg hbit, decide_eq_true hbit, Bool.true_and]

/-- The checked filter answers as the filter does with the hash of the code, where that is
defined. -/
theorem mayContain_eq (crc32 : Bytes → UInt32) {filter : BloomFilter} (hsized : filter.Sized)
    {key : Bytes} (hfits : MurmurHash3.Fits key) :
    mayContain filter key = filter.mayContain (.vendored crc32) key := by
  obtain ⟨h, hhash⟩ := @MurmurHash3.hash_ok bloomFilterSeed key hfits
  have hvendored : (Hashing.vendored crc32).murmurHash3 key = some h := by
    show (MurmurHash3.hash bloomFilterSeed key).toOption = some h
    rw [hhash]
    rfl
  rw [mayContain, hhash, ok_bind, probeBits_eq hsized,
    BloomFilter.mayContain, BloomFilter.keyProbes,
    hvendored]
  rfl

/-- **Looking a key up.** The checked lookup is the lookup with the hash of the code, where that is
defined. -/
theorem lookupEntry_eq (crc32 : Bytes → UInt32) {reader : SstableReader}
    (hsized : reader.bloomFilter.Sized) {key : Bytes} (hfits : MurmurHash3.Fits key) :
    lookupEntry (.vendored crc32) reader key = reader.lookupEntry (.vendored crc32) key := by
  unfold lookupEntry SstableReader.lookupEntry
  rw [mayContain_eq crc32 hsized hfits]
  cases reader.bloomFilter.mayContain (.vendored crc32) key with
  | error failure => rfl
  | ok answer =>
    rw [ok_bind, ok_bind]
    split_ifs
    · cases reader.sparseIndex with
      | nil => rfl
      | cons first rest =>
        dsimp only
        rw [lookupBlock_eq]
    · rfl

/-- The lookup of a key whose length fits returns or throws. -/
theorem safe_lookupEntry {reader : SstableReader} (hsized : reader.bloomFilter.Sized) {key : Bytes}
    (hfits : MurmurHash3.Fits key) : Safe (lookupEntry H reader key) := by
  obtain ⟨h, hhash⟩ := @MurmurHash3.hash_ok bloomFilterSeed key hfits
  unfold lookupEntry mayContain
  rw [hhash, ok_bind, probeBits_eq hsized, ok_bind]
  refine .ite (fun _ => safe_ok _) fun _ => ?_
  cases reader.sparseIndex with
  | nil => exact safe_ok _
  | cons first rest =>
    refine .ite (fun _ => safe_ok _) fun _ => ?_
    rw [lookupBlock_eq]
    exact safe_lookupBlock _ _ _ _

/-- That of another key does neither, whatever the file is. -/
theorem lookupEntry_undefined (reader : SstableReader) {key : Bytes}
    (hfits : ¬MurmurHash3.Fits key) : ¬Safe (lookupEntry H reader key) := by
  obtain ⟨what, hhash⟩ := MurmurHash3.hash_undefined bloomFilterSeed hfits
  have hundefined : lookupEntry H reader key = .error (.undefined what) := by
    rw [lookupEntry, mayContain, hhash]
    rfl
  exact fun hsafe => hsafe _ hundefined ⟨what, rfl⟩

end Checked

end Kronos.SstableReader
