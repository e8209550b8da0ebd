import Mathlib.Data.List.Forall2
import Kronos.Sstable.Layout
import Kronos.Sstable.Reader

/-!
# What lies in a block

The blocks of a file, whoever wrote it. A record is read exactly where its bytes lie
(`readRecord_iff`), and the bytes of a block pass the check exactly if its CRC32 is that of its
payload (`Checked`). `Begins` and `TableBegins` say which records lie in a block and in a table, by
their bytes alone. The sizes in an index have 32 bits (`openTable_blockSize`).
-/

namespace Kronos

open ByteString SstableBuilder SstableReader Sstable

/-! ## Records -/

/-- A record that the fields of the format hold. -/
structure Sstable.Encodable (r : TableRecord) : Prop where
  key : r.1.length < 2^32
  value : r.2.value.length < 2^32
  sequence : r.2.sequence < 2^64

namespace SstableReader

/-- A field that is read lies in the payload. -/
theorem readField_ok {ε : Type} {error : ε} {payload : Bytes} {size cursor : ℕ}
    {result : Bytes × ℕ} (h : readField error payload size cursor = .ok result) :
    result = (slice payload cursor size, cursor + size) ∧ cursor + size ≤ payload.length ∧
      result.1.length = size := by
  unfold readField at h
  split_ifs at h with hfits
  cases h
  push Not at hfits
  exact ⟨rfl, by omega, length_slice (by omega)⟩

/-- A record is read back behind a beginning of the payload. -/
theorem readRecord_eq {payload pre : Bytes} {r : TableRecord}
    (h : pre ++ recordBytes r <+: payload) (hr : Encodable r) :
    readRecord payload pre.length = .ok (r, (pre ++ recordBytes r).length) := by
  obtain ⟨hkey, hvalue, hsequence⟩ := hr
  -- Each field ends a beginning of the payload.
  have h₆ : pre ++ toLe 8 r.2.sequence ++ [r.2.operation.byte] ++ toLe 4 r.1.length ++
      toLe 4 r.2.value.length ++ r.1 ++ r.2.value <+: payload := by
    simpa only [recordBytes, List.append_assoc] using h
  have h₅ := (List.prefix_append _ _).trans h₆
  have h₄ := (List.prefix_append _ _).trans h₅
  have h₃ := (List.prefix_append _ _).trans h₄
  have h₂ := (List.prefix_append _ _).trans h₃
  have h₁ := (List.prefix_append _ _).trans h₂
  have hkeyLength : ofLe (toLe 4 r.1.length) = r.1.length := ofLe_toLe_of_lt (by omega)
  have hvalueLength : ofLe (toLe 4 r.2.value.length) = r.2.value.length :=
    ofLe_toLe_of_lt (by omega)
  have hsequence' : ofLe (toLe 8 r.2.sequence) = r.2.sequence := ofLe_toLe_of_lt (by omega)
  rw [readRecord, readField_eq h₁ (length_toLe 8 _), ok_bind]
  dsimp only
  rw [readField_eq h₂ (List.length_singleton), ok_bind]
  dsimp only
  rw [readField_eq h₃ (length_toLe 4 _), ok_bind]
  dsimp only
  rw [readField_eq h₄ (length_toLe 4 _), ok_bind]
  dsimp only
  rw [hkeyLength, readField_eq h₅ rfl, ok_bind]
  dsimp only
  rw [hvalueLength, readField_eq h₆ rfl, ok_bind]
  simp [hsequence', recordBytes]

/-- A record that is read lies at the cursor. -/
theorem readRecord_ok {payload : Bytes} {cursor next : ℕ} {r : TableRecord}
    (h : readRecord payload cursor = .ok (r, next)) :
    Encodable r ∧ recordBytes r <+: payload.drop cursor ∧
      next = cursor + (recordBytes r).length ∧ next ≤ payload.length := by
  unfold readRecord at h
  obtain ⟨⟨sequence, c₁⟩, h₁, h⟩ := bind_eq_ok h
  obtain ⟨⟨operation, c₂⟩, h₂, h⟩ := bind_eq_ok h
  obtain ⟨⟨keyLength, c₃⟩, h₃, h⟩ := bind_eq_ok h
  obtain ⟨⟨valueLength, c₄⟩, h₄, h⟩ := bind_eq_ok h
  obtain ⟨⟨key, c₅⟩, h₅, h⟩ := bind_eq_ok h
  obtain ⟨⟨value, c₆⟩, h₆, h⟩ := bind_eq_ok h
  obtain ⟨hs₁, -, hl₁⟩ := readField_ok h₁
  obtain ⟨hs₂, -, hl₂⟩ := readField_ok h₂
  obtain ⟨hs₃, -, hl₃⟩ := readField_ok h₃
  obtain ⟨hs₄, -, hl₄⟩ := readField_ok h₄
  obtain ⟨hs₅, -, hl₅⟩ := readField_ok h₅
  obtain ⟨hs₆, hle, hl₆⟩ := readField_ok h₆
  obtain ⟨hb₁, rfl⟩ := Prod.mk.inj hs₁
  obtain ⟨hb₂, rfl⟩ := Prod.mk.inj hs₂
  obtain ⟨hb₃, rfl⟩ := Prod.mk.inj hs₃
  obtain ⟨hb₄, rfl⟩ := Prod.mk.inj hs₄
  obtain ⟨hb₅, rfl⟩ := Prod.mk.inj hs₅
  obtain ⟨hb₆, rfl⟩ := Prod.mk.inj hs₆
  dsimp only at hl₁ hl₂ hl₃ hl₄ hl₅ hl₆
  cases h
  have hsequence := ofLe_lt sequence
  have hkey := ofLe_lt keyLength
  have hvalue := ofLe_lt valueLength
  rw [hl₁] at hsequence
  rw [hl₃, ← hl₅] at hkey
  rw [hl₄, ← hl₆] at hvalue
  -- The encoding of each field is what was read.
  have hoperation : [operation.headD 0] = operation := by
    obtain ⟨b, rfl⟩ := List.length_eq_one_iff.1 hl₂
    rfl
  have happend : ∀ {m n offset : ℕ}, offset = cursor + m →
      slice payload cursor m ++ slice payload offset n = slice payload cursor (m + n) := by
    rintro m n offset rfl
    exact slice_append_slice payload cursor m n
  have hbytes : recordBytes (key, ⟨value, ofLe sequence, ⟨operation.headD 0⟩⟩) =
      slice payload cursor (8 + 1 + 4 + 4 + ofLe keyLength + ofLe valueLength) :=
    calc recordBytes (key, ⟨value, ofLe sequence, ⟨operation.headD 0⟩⟩)
      _ = sequence ++ operation ++ keyLength ++ valueLength ++ key ++ value := by
        rw [recordBytes]
        dsimp only
        rw [toLe_ofLe_of_length hl₁, hoperation, hl₅, hl₆, toLe_ofLe_of_length hl₃,
          toLe_ofLe_of_length hl₄]
      _ = slice payload cursor (8 + 1) ++ keyLength ++ valueLength ++ key ++ value := by
        rw [hb₁, hb₂, happend rfl]
      _ = slice payload cursor (8 + 1 + 4) ++ valueLength ++ key ++ value := by
        rw [← happend (show cursor + 8 + 1 = cursor + (8 + 1) by omega), ← hb₃]
      _ = slice payload cursor (8 + 1 + 4 + 4) ++ key ++ value := by
        rw [← happend (show cursor + 8 + 1 + 4 = cursor + (8 + 1 + 4) by omega), ← hb₄]
      _ = slice payload cursor (8 + 1 + 4 + 4 + ofLe keyLength + ofLe valueLength) := by
        rw [hb₅, happend (by omega), hb₆, happend (by omega)]
  refine ⟨⟨hkey, hvalue, hsequence⟩, ?_, ?_, hle⟩
  · rw [hbytes, slice]
    exact List.take_prefix _ _
  · rw [hbytes, length_slice (by omega)]
    omega

/-- A record is read exactly where its bytes lie. -/
theorem readRecord_iff {payload : Bytes} {cursor next : ℕ} {r : TableRecord} :
    readRecord payload cursor = .ok (r, next) ↔
      Encodable r ∧ recordBytes r <+: payload.drop cursor ∧
        next = cursor + (recordBytes r).length := by
  constructor
  · intro h
    obtain ⟨hr, hbytes, hnext, -⟩ := readRecord_ok h
    exact ⟨hr, hbytes, hnext⟩
  · rintro ⟨hr, hbytes, rfl⟩
    have hlen := hbytes.length_le
    rw [length_recordBytes, List.length_drop] at hlen
    have htake : (payload.take cursor).length = cursor := by
      rw [List.length_take]
      omega
    have hpre : payload.take cursor ++ recordBytes r <+: payload := by
      obtain ⟨rest, hrest⟩ := hbytes
      exact ⟨rest, by rw [List.append_assoc, hrest, List.take_append_drop]⟩
    have hread := readRecord_eq hpre hr
    rwa [List.length_append, htake] at hread

/-! ## Checked blocks -/

/-- Bytes whose CRC32 is their payload's give the payload. -/
theorem checkPayload_withChecksum (H : Hashing) (message : String) (payload : Bytes) :
    checkPayload H message (withChecksum H payload) = .ok payload := by
  have hlen : (withChecksum H payload).length - 4 = payload.length := by simp [withChecksum]
  have htake : (withChecksum H payload).take payload.length = payload := List.take_left' rfl
  have hdrop : (withChecksum H payload).drop payload.length = toLe 4 (H.checksum payload) :=
    List.drop_left' rfl
  have hchecksum := H.checksum_lt payload
  rw [checkPayload, hlen]
  simp only [htake, hdrop]
  rw [if_neg (by rw [ofLe_toLe_of_lt (by omega)]; simp)]

/-- Only such bytes pass the check. -/
theorem checkPayload_ok {H : Hashing} {message : String} {bytes payload : Bytes}
    (h : checkPayload H message bytes = .ok payload) (hlen : 4 ≤ bytes.length) :
    bytes = withChecksum H payload := by
  unfold checkPayload at h
  dsimp only at h
  split_ifs at h with hsum
  rw [not_not] at hsum
  cases h
  have hstored : (bytes.drop (bytes.length - 4)).length = 4 := by
    rw [List.length_drop]
    omega
  rw [withChecksum, hsum, toLe_ofLe_of_length hstored, List.take_append_drop]

/-! ## The index -/

/-- An entry of the index that is read has a block size of 32 bits. -/
theorem readIndexEntry_ok {payload : Bytes} {cursor next : ℕ} {e : SparseIndexEntry}
    (h : readIndexEntry payload cursor = .ok (e, next)) : e.blockSize < 2^32 := by
  unfold readIndexEntry at h
  obtain ⟨⟨firstKeyLength, c₁⟩, -, h⟩ := bind_eq_ok h
  obtain ⟨⟨firstKey, c₂⟩, -, h⟩ := bind_eq_ok h
  obtain ⟨⟨blockOffset, c₃⟩, -, h⟩ := bind_eq_ok h
  obtain ⟨⟨size, c₄⟩, hsize, h⟩ := bind_eq_ok h
  cases h
  obtain ⟨-, -, hlength⟩ := readField_ok hsize
  have hlt := ofLe_lt size
  dsimp only at hlength hlt ⊢
  rwa [hlength] at hlt

/-- The sizes that an index gives have 32 bits. -/
theorem readIndexEntries_ok {payload : Bytes} (count : ℕ) :
    ∀ {cursor next : ℕ} {es : List SparseIndexEntry},
      readIndexEntries payload count cursor = .ok (es, next) → ∀ e ∈ es, e.blockSize < 2^32 := by
  induction count with
  | zero =>
    intro cursor next es h e he
    cases h
    cases he
  | succ count ih =>
    intro cursor next es h e he
    unfold readIndexEntries at h
    obtain ⟨⟨e₀, c₁⟩, hentry, h⟩ := bind_eq_ok h
    obtain ⟨⟨es', c₂⟩, hrest, h⟩ := bind_eq_ok h
    cases h
    rcases List.mem_cons.1 he with rfl | he
    · exact readIndexEntry_ok hentry
    · exact ih hrest e he

/-- The index of a reader comes from the entries of a payload. -/
theorem openTable_index {H : Hashing} {file : Bytes} {reader : SstableReader}
    (h : openTable H file = .ok reader) : reader.file = file ∧ ∃ payload count cursor next,
      readIndexEntries payload count cursor = .ok (reader.sparseIndex, next) := by
  unfold openTable at h
  obtain ⟨-, -, h⟩ := bind_eq_ok h
  obtain ⟨footer, -, h⟩ := bind_eq_ok h
  obtain ⟨bloomFilter, -, h⟩ := bind_eq_ok h
  obtain ⟨sparseIndex, hindex, h⟩ := bind_eq_ok h
  cases h
  unfold loadSparseIndex at hindex
  split_ifs at hindex
  obtain ⟨bytes, -, hindex⟩ := bind_eq_ok hindex
  obtain ⟨payload, -, hindex⟩ := bind_eq_ok hindex
  obtain ⟨⟨entryCount, c⟩, -, hindex⟩ := bind_eq_ok hindex
  dsimp only at hindex
  split_ifs at hindex
  obtain ⟨⟨index, c'⟩, hentries, hindex⟩ := bind_eq_ok hindex
  dsimp only at hindex
  split_ifs at hindex
  cases hindex
  exact ⟨rfl, payload, _, c, c', hentries⟩

/-- The blocks that a reader knows have sizes of 32 bits. -/
theorem openTable_blockSize {H : Hashing} {file : Bytes} {reader : SstableReader}
    (h : openTable H file = .ok reader) : ∀ e ∈ reader.sparseIndex, e.blockSize < 2^32 := by
  obtain ⟨-, payload, count, cursor, next, hentries⟩ := openTable_index h
  exact readIndexEntries_ok count hentries

end SstableReader

namespace Sstable

/-- The block of an index entry lies in the file, and the CRC32 behind its payload matches. -/
structure Checked (H : Hashing) (file : Bytes) (e : SparseIndexEntry) (payload : Bytes) :
    Prop where
  inside : e.blockOffset + e.blockSize ≤ file.length
  size : e.blockSize = payload.length + 4
  bytes : slice file e.blockOffset e.blockSize = withChecksum H payload

namespace Checked

variable {H : Hashing} {file : Bytes} {e : SparseIndexEntry} {payload payload' : Bytes}

/-- A block has one payload. -/
theorem unique (h : Checked H file e payload) (h' : Checked H file e payload') :
    payload = payload' := by
  have hbytes : withChecksum H payload = withChecksum H payload' := h.bytes.symm.trans h'.bytes
  have hsize : payload.length = payload'.length := by
    have := h.size
    have := h'.size
    omega
  exact (List.append_inj hbytes hsize).1

/-- The bytes of a checked block are read, and pass the check. -/
theorem read (h : Checked H file e payload) (message message' : String) :
    readExact message file e.blockOffset e.blockSize = .ok (withChecksum H payload) ∧
      checkPayload H message' (withChecksum H payload) = .ok payload := by
  refine ⟨?_, checkPayload_withChecksum H message' payload⟩
  have := h.inside
  rw [readExact, if_neg (by omega), h.bytes]

/-- A block that is read, and passes the check, is checked. -/
theorem of_read {message message' : String} {bytes : Bytes} (hsize : 4 ≤ e.blockSize)
    (hread : readExact message file e.blockOffset e.blockSize = .ok bytes)
    (hcheck : checkPayload H message' bytes = .ok payload) : Checked H file e payload := by
  unfold readExact at hread
  split_ifs at hread with hshort
  cases hread
  have hinside : e.blockOffset + e.blockSize ≤ file.length := by
    by_contra hlong
    exact hshort ⟨by omega, by omega⟩
  have hlen := length_slice hinside
  have hbytes := checkPayload_ok hcheck (by omega)
  refine ⟨hinside, ?_, hbytes⟩
  rw [hbytes, withChecksum, List.length_append, length_toLe] at hlen
  omega

end Checked

/-- The block of an index entry begins with these records, of as many as it counts, and goes on
with some rest. -/
structure Begins (H : Hashing) (file : Bytes) (e : SparseIndexEntry) (count : ℕ)
    (rs : List TableRecord) (rest : Bytes) : Prop where
  checked : Checked H file e (toLe 4 count ++ recordsBytes rs ++ rest)
  count_lt : count < 2^32
  count_pos : 0 < count
  length_le : rs.length ≤ count
  encodable : ∀ r ∈ rs, Encodable r

/-- The block of an index entry has the records that it counts, with trailing bytes behind them. -/
abbrev Complete (H : Hashing) (file : Bytes) (e : SparseIndexEntry)
    (block : List TableRecord × Bytes) : Prop :=
  Begins H file e block.1.length block.1 block.2

/-- The records of some blocks. -/
def allRecords (blocks : List (List TableRecord × Bytes)) : List TableRecord :=
  (blocks.map Prod.fst).flatten

/-- No blocks have no records. -/
@[simp] theorem allRecords_nil : allRecords [] = [] := rfl

/-- The records of a block come before those of the blocks behind it. -/
@[simp] theorem allRecords_cons (block : List TableRecord × Bytes)
    (blocks : List (List TableRecord × Bytes)) :
    allRecords (block :: blocks) = block.1 ++ allRecords blocks := rfl

/-- The blocks of index entries begin with these records: some blocks are complete, and the one
behind them begins with the others. -/
inductive TableBegins (H : Hashing) (file : Bytes) :
    List SparseIndexEntry → List TableRecord → Prop where
  | block {e : SparseIndexEntry} {es : List SparseIndexEntry} {count : ℕ} {rs : List TableRecord}
    {rest : Bytes} : Begins H file e count rs rest → TableBegins H file (e :: es) rs
  | blocks {e : SparseIndexEntry} {es : List SparseIndexEntry} {rs rs' : List TableRecord}
    {trailing : Bytes} : Begins H file e rs.length rs trailing → TableBegins H file es rs' →
    TableBegins H file (e :: es) (rs ++ rs')

/-- A block that begins with a record begins with those that lie behind it, too. -/
theorem begins_cons {H : Hashing} {file : Bytes} {e : SparseIndexEntry} {count : ℕ}
    {r : TableRecord} {behind : List TableRecord} {rest : Bytes} :
    Begins H file e count (r :: behind) rest ↔
      Begins H file e count [r] (recordsBytes behind ++ rest) ∧ behind.length ≤ count - 1 ∧
        ∀ r' ∈ behind, Encodable r' := by
  have hbytes : toLe 4 count ++ recordsBytes (r :: behind) ++ rest =
      toLe 4 count ++ recordsBytes [r] ++ (recordsBytes behind ++ rest) := by simp
  constructor
  · rintro ⟨hchecked, hlt, hpos, hlen, hencodable⟩
    rw [hbytes] at hchecked
    rw [List.length_cons] at hlen
    rw [List.forall_mem_cons] at hencodable
    exact ⟨⟨hchecked, hlt, hpos, hpos, List.forall_mem_singleton.2 hencodable.1⟩, by omega,
      hencodable.2⟩
  · rintro ⟨⟨hchecked, hlt, hpos, -, hencodable⟩, hlen, hbehind⟩
    rw [← hbytes] at hchecked
    refine ⟨hchecked, hlt, hpos, ?_, List.forall_mem_cons.2 ⟨hencodable r (.head _), hbehind⟩⟩
    rw [List.length_cons]
    omega

/-- A block has one first record. -/
theorem Begins.first_unique {H : Hashing} {file : Bytes} {e : SparseIndexEntry} {count count' : ℕ}
    {r r' : TableRecord} {behind behind' : List TableRecord} {rest rest' : Bytes}
    (h : Begins H file e count (r :: behind) rest)
    (h' : Begins H file e count' (r' :: behind') rest') : r = r' := by
  have hread : ∀ {count : ℕ} {r : TableRecord} {behind : List TableRecord} {rest : Bytes},
      Begins H file e count (r :: behind) rest →
        readRecord (toLe 4 count ++ recordsBytes (r :: behind) ++ rest) 4 =
          .ok (r, 4 + (recordBytes r).length) := by
    intro count r behind rest h
    refine readRecord_iff.2 ⟨h.encodable r (.head _), ?_, rfl⟩
    rw [List.append_assoc, List.drop_left' (length_toLe 4 count), recordsBytes_cons,
      List.append_assoc]
    exact List.prefix_append _ _
  have heq := (h.checked.unique h'.checked) ▸ hread h
  exact (Prod.mk.inj (Except.ok.inj (heq.symm.trans (hread h')))).1

/-- So a block is complete when as many records lie behind its first one as are counted. -/
theorem Begins.complete {H : Hashing} {file : Bytes} {e : SparseIndexEntry} {count : ℕ}
    {r : TableRecord} {behind : List TableRecord} {trailing : Bytes}
    (h : Begins H file e count [r] (recordsBytes behind ++ trailing))
    (hlen : behind.length = count - 1) (hencodable : ∀ r' ∈ behind, Encodable r') :
    Complete H file e (r :: behind, trailing) := by
  have hcount : behind.length + 1 = count := by
    rw [hlen, Nat.sub_add_cancel h.count_pos]
  show Begins H file e (behind.length + 1) (r :: behind) trailing
  rw [hcount]
  exact begins_cons.2 ⟨h, hlen.le, hencodable⟩

end Sstable

end Kronos
