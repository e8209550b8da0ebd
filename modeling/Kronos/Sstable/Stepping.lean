import Kronos.Sstable.Decoders
import Kronos.Sstable.Safety

/-!
# Stepping through arbitrary bytes

An iterator keeps a block of eight bytes or more, and a record index of 32 bits, also behind a step
that throws (`Cursor.Bounded`). So its steps are those of `SstableReader.Iterator`, whose errors are
exceptions (`Cursor.next_eq`). Each of them leaves fewer records in the block, or fewer blocks, so
that the iterator gets to its end (`Cursor.exists_after_invalid`).

With what is known of openings and lookups, the reader is safe over a file and a key exactly if the
file does not open, or the hash of the key is defined (`readerSafe_iff`).
-/

namespace Kronos.SstableReader.Checked

open ByteString Sstable

variable {H : Hashing}

namespace Cursor

variable {c : Cursor}

/-- The iterator, with the payload of its block. -/
def iterator (c : Cursor) : Iterator :=
  ⟨c.reader, c.currentBlockIndex, c.blockBytes.take (c.blockBytes.length - 4), c.cursor,
    c.currentKey, c.currentEntry, c.recordCount, c.currentRecordIndex, c.valid⟩

/-- What a checked step leaves is what a step of the iterator leaves, and they fail alike. -/
def Follows (call : Except Failure Iterator) (step : Except Failure Unit × Cursor) : Prop :=
  call = step.1.map fun _ => step.2.iterator

/-! ## Parsing -/

/-- Two iterators stand in the same block, at the same record. -/
structure SameRecord (c c' : Cursor) : Prop where
  reader : c'.reader = c.reader
  currentBlockIndex : c'.currentBlockIndex = c.currentBlockIndex
  blockBytes : c'.blockBytes = c.blockBytes
  recordCount : c'.recordCount = c.recordCount
  currentRecordIndex : c'.currentRecordIndex = c.currentRecordIndex

section Fields

variable {size count cursor : ℕ} {bytes : Bytes} {failure : Failure}
  {next : Bytes → Cursor → Except Failure Unit × Cursor}

/-- A field that is not there ends the step. -/
theorem parseField_error (hsize : size ≤ c.blockBytes.length)
    (h : readField blockFailure (c.blockBytes.take size) count c.cursor = .error failure) :
    c.parseField size count next = (.error failure, c) := by
  rw [parseField, field_eq _ hsize, h]

/-- Behind one that is there, the step goes on. -/
theorem parseField_ok (hsize : size ≤ c.blockBytes.length)
    (h : readField blockFailure (c.blockBytes.take size) count c.cursor = .ok (bytes, cursor)) :
    c.parseField size count next = next bytes { c with cursor := cursor } := by
  rw [parseField, field_eq _ hsize, h]

end Fields

/-- Over a block with a checksum, a record is parsed as from its payload. -/
theorem parseCurrentRecord_spec (hlen : 4 ≤ c.blockBytes.length) :
    Follows c.iterator.parseCurrentRecord c.parseCurrentRecord ∧
      c.SameRecord c.parseCurrentRecord.2 := by
  have hsize : c.blockBytes.length - 4 ≤ c.blockBytes.length := by omega
  have hplain : c.iterator.parseCurrentRecord =
      (SstableReader.readRecord (c.blockBytes.take (c.blockBytes.length - 4)) c.cursor >>= fun r =>
        .ok { c.iterator with
          cursor := r.2, currentKey := r.1.1, currentEntry := r.1.2, valid := true }) := rfl
  rw [Follows, hplain, parseCurrentRecord, minus_eq hlen]
  dsimp only
  unfold SstableReader.readRecord
  rcases h₁ : readField blockFailure (c.blockBytes.take (c.blockBytes.length - 4)) 8 c.cursor with
    failure | ⟨sequence, cursor₁⟩
  · rw [parseField_error hsize h₁]
    exact ⟨rfl, ⟨rfl, rfl, rfl, rfl, rfl⟩⟩
  rw [parseField_ok hsize h₁, ok_bind]
  dsimp only
  rcases h₂ : readField blockFailure (c.blockBytes.take (c.blockBytes.length - 4)) 1 cursor₁ with
    failure | ⟨operation, cursor₂⟩
  · rw [parseField_error (c := { c with cursor := cursor₁ }) hsize h₂]
    exact ⟨rfl, ⟨rfl, rfl, rfl, rfl, rfl⟩⟩
  rw [parseField_ok (c := { c with cursor := cursor₁ }) hsize h₂, ok_bind]
  dsimp only
  rcases h₃ : readField blockFailure (c.blockBytes.take (c.blockBytes.length - 4)) 4 cursor₂ with
    failure | ⟨keyLength, cursor₃⟩
  · rw [parseField_error (c := { c with cursor := cursor₂ }) hsize h₃]
    exact ⟨rfl, ⟨rfl, rfl, rfl, rfl, rfl⟩⟩
  rw [parseField_ok (c := { c with cursor := cursor₂ }) hsize h₃, ok_bind]
  dsimp only
  rcases h₄ : readField blockFailure (c.blockBytes.take (c.blockBytes.length - 4)) 4 cursor₃ with
    failure | ⟨valueLength, cursor₄⟩
  · rw [parseField_error (c := { c with cursor := cursor₃ }) hsize h₄]
    exact ⟨rfl, ⟨rfl, rfl, rfl, rfl, rfl⟩⟩
  rw [parseField_ok (c := { c with cursor := cursor₃ }) hsize h₄, ok_bind]
  dsimp only
  rcases h₅ : readField blockFailure (c.blockBytes.take (c.blockBytes.length - 4)) (ofLe keyLength)
    cursor₄ with failure | ⟨key, cursor₅⟩
  · rw [parseField_error (c := { c with cursor := cursor₄ }) hsize h₅]
    exact ⟨rfl, ⟨rfl, rfl, rfl, rfl, rfl⟩⟩
  rw [parseField_ok (c := { c with cursor := cursor₄ }) hsize h₅, ok_bind]
  dsimp only
  rcases h₆ : readField blockFailure (c.blockBytes.take (c.blockBytes.length - 4))
    (ofLe valueLength) cursor₅ with failure | ⟨value, cursor₆⟩
  · rw [parseField_error (c := { c with cursor := cursor₅, currentKey := key }) hsize h₆]
    exact ⟨rfl, ⟨rfl, rfl, rfl, rfl, rfl⟩⟩
  rw [parseField_ok (c := { c with cursor := cursor₅, currentKey := key }) hsize h₆, ok_bind]
  exact ⟨rfl, ⟨rfl, rfl, rfl, rfl, rfl⟩⟩

/-! ## Loading a block -/

/-- What is left of an iterator that has turned to a block, whether the block could be loaded or
not. -/
structure Turned (c c' : Cursor) (blockIndex : ℕ) : Prop where
  reader : c'.reader = c.reader
  currentBlockIndex : c'.currentBlockIndex = blockIndex
  valid : c'.valid = c.valid
  block : c'.blockBytes = c.blockBytes ∨ 8 ≤ c'.blockBytes.length
  record : c'.recordCount = c.recordCount ∧ c'.currentRecordIndex = c.currentRecordIndex ∨
    c'.recordCount < 2^32 ∧ c'.currentRecordIndex = 0

/-- The buffer has the size of the block, however much could be read into it. -/
theorem length_readBlock (c : Cursor) (block : SparseIndexEntry) :
    (c.readBlock block).blockBytes.length = block.blockSize := by
  have hbytes :
    (slice c.reader.file block.blockOffset block.blockSize).length ≤ block.blockSize := by
    rw [slice, List.length_take]
    exact min_le_left _ _
  simp only [readBlock, List.length_append, List.length_drop, List.length_take,
    List.length_replicate]
  omega

/-- A whole block is what was read. -/
theorem readBlock_eq {block : SparseIndexEntry} {bytes : Bytes}
    (h : readExact readMessage c.reader.file block.blockOffset block.blockSize = .ok bytes) :
    (c.readBlock block).blockBytes = bytes := by
  have hlen := length_of_readExact h
  unfold readExact at h
  split_ifs at h
  obtain rfl := Except.ok.inj h
  have hresized : (c.blockBytes.take block.blockSize ++
      List.replicate (block.blockSize - c.blockBytes.length) 0).length = block.blockSize := by
    rw [List.length_append, List.length_take, List.length_replicate]
    omega
  simp only [readBlock]
  rw [List.drop_of_length_le (by omega), List.append_nil]

/-- A block is loaded as its payload is. -/
theorem loadBlock_spec {blockIndex : ℕ} (hindex : blockIndex < c.reader.sparseIndex.length) :
    Follows (c.iterator.loadBlock H blockIndex) (c.loadBlock H blockIndex) ∧
      c.Turned (c.loadBlock H blockIndex).2 blockIndex ∧
      ((c.loadBlock H blockIndex).1 = .ok () →
        8 ≤ (c.loadBlock H blockIndex).2.blockBytes.length) := by
  have hblock := List.getElem?_eq_getElem hindex
  have hplainBlock : c.iterator.reader.sparseIndex[blockIndex]? =
      some c.reader.sparseIndex[blockIndex] := hblock
  unfold Follows loadBlock Iterator.loadBlock
  rw [hblock, hplainBlock]
  generalize c.reader.sparseIndex[blockIndex] = block
  dsimp only
  split_ifs with hsmall
  · exact ⟨rfl, ⟨rfl, rfl, rfl, .inl rfl, .inl ⟨rfl, rfl⟩⟩, nofun⟩
  · -- From here on, the bytes in the buffer are those of the block, or what could be read of them.
    have hlen := length_readBlock { c with currentBlockIndex := blockIndex } block
    have hturned : c.Turned (readBlock { c with currentBlockIndex := blockIndex } block)
        blockIndex :=
      ⟨rfl, rfl, rfl, .inr (by rw [hlen]; omega), .inl ⟨rfl, rfl⟩⟩
    have hkey : (readBlock { c with currentBlockIndex := blockIndex } block).currentKey =
      c.currentKey := rfl
    have hentry : (readBlock { c with currentBlockIndex := blockIndex } block).currentEntry =
      c.currentEntry := rfl
    unfold blockSize
    cases hread : readExact readMessage c.reader.file block.blockOffset block.blockSize with
    | error failure =>
      have hreads : readExact readMessage c.iterator.reader.file block.blockOffset block.blockSize =
        .error failure := hread
      have hreads' : readExact readMessage
          (readBlock { c with currentBlockIndex := blockIndex } block).reader.file block.blockOffset
          block.blockSize = .error failure := hread
      rw [hreads, hreads']
      exact ⟨rfl, hturned, nofun⟩
    | ok bytes =>
      have hreads : readExact readMessage c.iterator.reader.file block.blockOffset block.blockSize =
        .ok bytes := hread
      have hreads' : readExact readMessage
          (readBlock { c with currentBlockIndex := blockIndex } block).reader.file block.blockOffset
          block.blockSize = .ok bytes := hread
      have hbytes := @readBlock_eq { c with currentBlockIndex := blockIndex } block bytes hread
      rw [hreads, hreads', ok_bind, ok_bind]
      generalize readBlock { c with currentBlockIndex := blockIndex } block = c₁ at *
      subst hbytes
      rw [payloadSize_eq (by omega)]
      cases hcheck : checkPayload H "Invalid SSTable block CRC" c₁.blockBytes with
      | error failure => exact ⟨rfl, hturned, nofun⟩
      | ok payload =>
        obtain rfl := checkPayload_eq_take hcheck
        have hcount : ofLe (slice c₁.blockBytes 0 4) < 2^32 := by
          have hlt := ofLe_lt (slice c₁.blockBytes 0 4)
          rw [length_slice (by omega)] at hlt
          exact lt_of_lt_of_eq hlt (by norm_num)
        rw [Except.map, ok_bind]
        dsimp only
        have hroom : ¬c₁.blockBytes.length - 4 < 4 := by omega
        rw [if_neg hroom, decodeAt_eq (by omega), slice_take (by omega)]
        dsimp only
        split_ifs with hzero
        · exact ⟨rfl, ⟨hturned.reader, hturned.currentBlockIndex, hturned.valid, hturned.block,
            .inr ⟨hcount, rfl⟩⟩, nofun⟩
        · refine ⟨?_, ⟨hturned.reader, hturned.currentBlockIndex, hturned.valid, hturned.block,
            .inr ⟨hcount, rfl⟩⟩, fun _ => hlen ▸ not_lt.1 hsmall⟩
          simp only [Except.map, iterator, hturned.reader, hturned.currentBlockIndex, hturned.valid,
            hkey, hentry]

/-! ## Stepping -/

/-- The state of an iterator, behind any steps. -/
structure Bounded (c : Cursor) : Prop where
  block : c.valid = true → 8 ≤ c.blockBytes.length
  record : c.currentRecordIndex + 1 < 2^32
  count : c.recordCount < 2^32

/-- What is left to be walked through: records of the block, and blocks, each of which counts for as
many records as a block can have. -/
def left (c : Cursor) : ℕ :=
  (c.reader.sparseIndex.length - c.currentBlockIndex) * 2^32 +
    (c.recordCount - c.currentRecordIndex)

/-- A step within a block keeps the cursor in its bounds, and the number of records left. -/
theorem Bounded.sameRecord {c' : Cursor} (h : c.Bounded) (hlen : 8 ≤ c.blockBytes.length)
    (hsame : c.SameRecord c') : c'.Bounded ∧ c'.left = c.left := by
  refine ⟨⟨fun _ => ?_, ?_, ?_⟩, ?_⟩
  · rw [hsame.blockBytes]
    exact hlen
  · rw [hsame.currentRecordIndex]
    exact h.record
  · rw [hsame.recordCount]
    exact h.count
  · rw [left, left, hsame.reader, hsame.currentBlockIndex, hsame.recordCount,
      hsame.currentRecordIndex]

/-- So does a step to another block. -/
theorem Bounded.turned {c' : Cursor} {blockIndex : ℕ} (h : c.Bounded)
    (hturned : c.Turned c' blockIndex) : c'.Bounded := by
  refine ⟨fun hvalid => ?_, ?_, ?_⟩
  · rw [hturned.valid] at hvalid
    rcases hturned.block with hsame | hlen
    · rw [hsame]
      exact h.block hvalid
    · exact hlen
  · rcases hturned.record with ⟨-, hsame⟩ | ⟨-, hzero⟩
    · rw [hsame]
      exact h.record
    · rw [hzero]
      norm_num
  · rcases hturned.record with ⟨hsame, -⟩ | ⟨hlt, -⟩
    · rw [hsame]
      exact h.count
    · exact hlt

/-- A block that is loaded behind the current one leaves less. -/
theorem Bounded.left_turned {c' : Cursor} {blockIndex : ℕ} (h : c.Bounded)
    (hturned : c.Turned c' blockIndex) (hlater : c.currentBlockIndex < blockIndex)
    (hindex : blockIndex < c.reader.sparseIndex.length) : c'.left < c.left := by
  have hcount := (h.turned hturned).count
  have hblocks : c'.reader.sparseIndex.length - c'.currentBlockIndex + 1 ≤
      c.reader.sparseIndex.length - c.currentBlockIndex := by
    rw [hturned.reader, hturned.currentBlockIndex]
    omega
  calc c'.left < (c'.reader.sparseIndex.length - c'.currentBlockIndex + 1) * 2^32 := by
        unfold left
        omega
    _ ≤ (c.reader.sparseIndex.length - c.currentBlockIndex) * 2^32 :=
        Nat.mul_le_mul_right _ hblocks
    _ ≤ c.left := Nat.le_add_right _ _

/-- A block is loaded and its first record parsed. -/
theorem loadFirst_spec {blockIndex : ℕ} (h : c.Bounded)
    (hindex : blockIndex < c.reader.sparseIndex.length) :
    Follows (c.iterator.loadBlock H blockIndex >>= fun it => it.parseCurrentRecord)
        (c.loadFirst H blockIndex) ∧
      (c.loadFirst H blockIndex).2.Bounded ∧
      (c.currentBlockIndex < blockIndex → (c.loadFirst H blockIndex).2.left < c.left) := by
  obtain ⟨hfollows, hturned, hlen⟩ := @loadBlock_spec H c blockIndex hindex
  unfold loadFirst
  rw [Follows] at hfollows
  rw [hfollows]
  rcases hload : c.loadBlock H blockIndex with ⟨failure | _, c₁⟩
  · rw [hload] at hturned
    exact ⟨rfl, h.turned hturned, fun hlater => h.left_turned hturned hlater hindex⟩
  · rw [hload] at hturned hlen
    have hlen₁ : 8 ≤ c₁.blockBytes.length := hlen rfl
    obtain ⟨hparses, hsame⟩ := @parseCurrentRecord_spec c₁ (by omega)
    obtain ⟨hbounded, hleft⟩ := (h.turned hturned).sameRecord hlen₁ hsame
    refine ⟨hparses, hbounded, fun hlater => ?_⟩
    show c₁.parseCurrentRecord.2.left < c.left
    rw [hleft]
    exact h.left_turned hturned hlater hindex

/-- A cursor before the first block is in its bounds. -/
theorem bounded_start (reader : SstableReader) : (start reader).Bounded :=
  ⟨nofun, by norm_num [start], by norm_num [start]⟩

/-- A new iterator is that of the reader, and bounded. -/
theorem new_spec (reader : SstableReader) :
    Iterator.new H reader = (new H reader).map iterator ∧
      ∀ c, new H reader = .ok c → c.Bounded := by
  unfold new Iterator.new
  split_ifs with hnil
  · refine ⟨rfl, fun c hc => ?_⟩
    cases hc
    exact bounded_start reader
  · obtain ⟨hfollows, hbounded, -⟩ := @loadFirst_spec H (start reader) 0 (bounded_start reader)
      (List.length_pos_iff.2 hnil)
    rw [Follows] at hfollows
    refine ⟨?_, fun c hc => ?_⟩
    · refine Eq.trans hfollows ?_
      rcases (start reader).loadFirst H 0 with ⟨failure | _, c⟩ <;> rfl
    · rcases hload : (start reader).loadFirst H 0 with ⟨failure | _, c'⟩
      · rw [hload] at hc
        cases hc
      · rw [hload] at hc hbounded
        cases hc
        exact hbounded

/-- **A step of an iterator.** It is the step of the reader's iterator, it keeps the bounds, and if
the iterator was valid, then it is at its end now or has less left. -/
theorem next_spec (h : c.Bounded) :
    Follows (c.iterator.next H) (c.next H) ∧ (c.next H).2.Bounded ∧
      (c.valid = true → (c.next H).2.valid = false ∨ (c.next H).2.left < c.left) := by
  have hmod : (c.currentRecordIndex + 1) % 2^32 = c.currentRecordIndex + 1 :=
    Nat.mod_eq_of_lt h.record
  have hvalid' : c.iterator.valid = c.valid := rfl
  have hindex' : c.iterator.currentRecordIndex = c.currentRecordIndex := rfl
  have hcount' : c.iterator.recordCount = c.recordCount := rfl
  have hblock' : c.iterator.currentBlockIndex = c.currentBlockIndex := rfl
  have hreader' : c.iterator.reader = c.reader := rfl
  unfold Follows next Iterator.next
  rw [hmod, hvalid', hindex', hcount', hblock', hreader']
  dsimp only
  split_ifs with hvalid hrecord hlast
  · -- The next record of the block.
    have hlen := h.block hvalid
    have hbounded : Bounded { c with currentRecordIndex := c.currentRecordIndex + 1 } :=
      ⟨h.block, lt_of_le_of_lt (Nat.succ_le_of_lt hrecord) h.count, h.count⟩
    obtain ⟨hparses, hsame⟩ := @parseCurrentRecord_spec
      { c with currentRecordIndex := c.currentRecordIndex + 1 } (by dsimp only; omega)
    obtain ⟨hbounded', hleft⟩ := hbounded.sameRecord hlen hsame
    refine ⟨hparses, hbounded', fun _ => .inr ?_⟩
    rw [hleft]
    unfold left
    dsimp only
    omega
  · -- Behind the last block.
    exact ⟨rfl, ⟨nofun, h.record, h.count⟩, fun _ => .inl rfl⟩
  · -- The next block.
    obtain ⟨hfollows, hbounded, hleft⟩ := @loadFirst_spec H c (c.currentBlockIndex + 1) h
      (not_le.1 hlast)
    exact ⟨hfollows, hbounded, fun _ => .inr (hleft (Nat.lt_succ_self _))⟩
  · exact ⟨rfl, h, fun htrue => absurd htrue hvalid⟩

/-- A step of a cursor within its bounds is safe. -/
theorem safe_next (h : c.Bounded) : Safe (c.next H).1 := by
  have hfollows := (@next_spec H c h).1
  rw [Follows] at hfollows
  have hsafe : Safe (c.iterator.next H) := by
    refine .ite (fun _ => safe_ok _) fun _ => .ite (fun _ => safe_parseCurrentRecord _) fun _ => ?_
    refine .ite (fun _ => safe_ok _) fun _ => ?_
    exact .bind (safe_loadBlock _ _ _) fun it _ => safe_parseCurrentRecord it
  intro failure hfailure
  refine hsafe failure ?_
  rw [hfollows, hfailure]
  rfl

/-- A cursor is in its bounds after any number of steps. -/
theorem bounded_after (h : c.Bounded) (n : ℕ) : (c.after H n).Bounded := by
  induction n generalizing c with
  | zero => exact h
  | succ n ih => exact ih (next_spec h).2.1

/-- **A full iteration ends.** After some calls of `next` an iterator is at its end, even if the
caller goes on behind exceptions. -/
theorem exists_after_invalid (h : c.Bounded) : ∃ n, (c.after H n).valid = false := by
  -- By induction on what is left.
  induction hleft : c.left using Nat.strong_induction_on generalizing c with
  | _ m ih =>
    cases hvalid : c.valid with
    | false => exact ⟨0, hvalid⟩
    | true =>
      obtain ⟨-, hbounded, hsteps⟩ := @next_spec H c h
      rcases hsteps hvalid with hend | hless
      · exact ⟨1, hend⟩
      · obtain ⟨n, hn⟩ := ih _ (hleft ▸ hless) hbounded rfl
        exact ⟨n + 1, hn⟩

end Cursor

/-! ## The reader -/

/-- What a file and a key are to do no harm to: the opening of the file, the lookup of the key, an
iterator over the file and any number of its steps, whether they throw or not. A full iteration
ends. -/
structure ReaderSafe (H : Hashing) (file key : Bytes) : Prop where
  opening : Safe (openTable H file)
  lookup : ∀ reader, openTable H file = .ok reader → Safe (lookupEntry H reader key)
  iterator : ∀ reader, openTable H file = .ok reader → Safe (Cursor.new H reader)
  stepping : ∀ reader, openTable H file = .ok reader → ∀ c, Cursor.new H reader = .ok c →
    ∀ n, Safe ((c.after H n).next H).1
  ending : ∀ reader, openTable H file = .ok reader → ∀ c, Cursor.new H reader = .ok c →
    ∃ n, (c.after H n).valid = false

/-- A new iterator returns or throws. -/
theorem safe_new (reader : SstableReader) : Safe (Cursor.new H reader) := by
  have hsafe : Safe (Iterator.new H reader) :=
    .ite (fun _ => safe_ok _) fun _ =>
      .bind (safe_loadBlock _ _ _) fun it _ => safe_parseCurrentRecord it
  rw [(Cursor.new_spec reader).1] at hsafe
  intro failure hfailure
  refine hsafe failure ?_
  rw [hfailure]
  rfl

/-- Over any file, whatever `crc32` is, the reader and its iterators are safe but for the hash of
the key: they are safe exactly if the file does not open, or the length of the key keeps its sign as
an `int` or leaves no block to hash. -/
theorem readerSafe_iff (H : Hashing) (file key : Bytes) :
    ReaderSafe H file key ↔
      ((∃ reader, SstableReader.openTable H file = .ok reader) → MurmurHash3.Fits key) := by
  constructor
  · rintro hsafe ⟨reader, hopen⟩
    by_contra hfits
    rw [← openTable_eq] at hopen
    exact lookupEntry_undefined reader hfits (hsafe.lookup reader hopen)
  · intro hfits
    refine ⟨?_, fun reader hopen => ?_, fun reader _ => safe_new reader,
      fun reader _ c hc n => ?_, fun reader _ c hc => ?_⟩
    · rw [openTable_eq]
      exact safe_openTable H file
    · rw [openTable_eq] at hopen
      exact safe_lookupEntry (sized_of_openTable hopen) (hfits ⟨reader, hopen⟩)
    · exact Cursor.safe_next (Cursor.bounded_after ((Cursor.new_spec reader).2 c hc) n)
    · exact Cursor.exists_after_invalid ((Cursor.new_spec reader).2 c hc)

/-- A table with one record, and the lookup of a key of `2^31` bytes: whatever the hash functions
are, the behaviour is undefined. -/
theorem longKey_undefined : ¬∃ H : Hashing,
    ReaderSafe H (oneBlockTable H (toLe 4 1 ++ recordsBytes [emptyRecord]))
      (List.replicate (2^31) 0) := by
  rintro ⟨H, hsafe⟩
  have hopens := (@oneBlockTable_opens H (toLe 4 1 ++ recordsBytes [emptyRecord]) (by decide)).1.1
  rw [← openTable_eq] at hopens
  refine lookupEntry_undefined _ ?_ (hsafe.lookup _ hopens)
  rw [MurmurHash3.Fits, List.length_replicate]
  norm_num

end Kronos.SstableReader.Checked
