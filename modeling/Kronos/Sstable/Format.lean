import Kronos.Lsm.Store
import Kronos.Sstable.Limits

/-!
# The format as the store uses it

`Sstable.tableFormat` is the `TableFormat` of `src/sstable.cpp`: an `SstableBuilder`, an
`SstableReader`, the walk of an iterator to its end, and `lookupEntry`. The walk ends over any file,
since `next` moves to a later block, or behind a record, or to the end (`Iterator.next_decreases`).
`Sstable.format` is that of the engine, with its block size and its bits for a key.

What fits is represented (`format_represents`). What does not fit may be written and be lost:
whatever the bytes of a file are, no lookup in it finds a value that is as long as a block can be
(`length_of_lookupEntry`).
-/

namespace Kronos

open ByteString SstableBuilder SstableReader Sstable

namespace SstableReader

/-! ## Reading moves on -/

namespace Iterator

/-- `loadBlock` moves to the block that it is asked for. -/
theorem loadBlock_ok {H : Hashing} {it it' : Iterator} {i : ℕ} (h : it.loadBlock H i = .ok it') :
    it'.reader = it.reader ∧ it'.currentBlockIndex = i := by
  obtain ⟨e, count, rest, -, -, rfl⟩ := loadBlock_iff.1 h
  exact ⟨rfl, rfl⟩

/-- `parseCurrentRecord` moves behind a record of the block. -/
theorem parseCurrentRecord_ok {it it' : Iterator} (h : it.parseCurrentRecord = .ok it') :
    it'.reader = it.reader ∧ it'.currentBlockIndex = it.currentBlockIndex ∧
      it'.blockPayload = it.blockPayload ∧ it.cursor < it'.cursor ∧
      it'.cursor ≤ it'.blockPayload.length := by
  obtain ⟨r, -, hbytes, rfl⟩ := parseCurrentRecord_iff.1 h
  have hlen := hbytes.length_le
  rw [rest, length_recordBytes, List.length_drop] at hlen
  refine ⟨rfl, rfl, rfl, ?_, ?_⟩
  · show it.cursor < it.cursor + (recordBytes r).length
    rw [length_recordBytes]
    omega
  · show it.cursor + (recordBytes r).length ≤ it.blockPayload.length
    rw [length_recordBytes]
    omega

/-- The blocks that an iterator has not loaded. -/
def blocksLeft (it : Iterator) : ℕ := it.reader.sparseIndex.length - it.currentBlockIndex

/-- The bytes of its block that it has not parsed. -/
def bytesLeft (it : Iterator) : ℕ := it.blockPayload.length - it.cursor

/-- What is left for an iterator decreases when it goes on: it loads a later block, or parses a
record of its block, or comes to its end. -/
theorem next_decreases {H : Hashing} {it it' : Iterator} (hvalid : it.valid = true)
    (h : it.next H = .ok it') :
    it'.blocksLeft < it.blocksLeft ∨ it'.blocksLeft = it.blocksLeft ∧
      (it'.bytesLeft < it.bytesLeft ∨ it'.bytesLeft = it.bytesLeft ∧ it'.valid = false) := by
  unfold next at h
  rw [if_neg (not_not.2 hvalid)] at h
  split_ifs at h with hmore
  · obtain ⟨hreader, hindex, hpayload, hcursor, hle⟩ := parseCurrentRecord_ok h
    refine .inr ⟨by rw [blocksLeft, blocksLeft, hreader, hindex], .inl ?_⟩
    dsimp only at hpayload hcursor
    rw [bytesLeft, bytesLeft]
    rw [hpayload] at hle ⊢
    omega
  · dsimp only at h
    split_ifs at h with hlast
    · cases h
      exact .inr ⟨rfl, .inr ⟨rfl, rfl⟩⟩
    · obtain ⟨it₁, hload, h⟩ := bind_eq_ok h
      obtain ⟨hreader₁, hindex₁⟩ := loadBlock_ok hload
      obtain ⟨hreader, hindex, -⟩ := parseCurrentRecord_ok h
      left
      rw [blocksLeft, blocksLeft, hreader, hreader₁, hindex, hindex₁]
      omega

/-- The walk of an iterator to its end. -/
def walk (H : Hashing) (it : Iterator) : Except Failure (List TableRecord) :=
  if _hvalid : it.valid = true then
    match _hnext : it.next H with
    | .error failure => .error failure
    | .ok it' => do
      let rs ← it'.walk H
      .ok ((it.currentKey, it.currentEntry) :: rs)
  else .ok []
termination_by (it.blocksLeft, it.bytesLeft, it.valid.toNat)
decreasing_by
  rcases next_decreases _hvalid _hnext with hblocks | ⟨hblocks, hbytes | ⟨hbytes, hend⟩⟩
  · exact Prod.Lex.left _ _ hblocks
  · rw [hblocks]
    exact Prod.Lex.right _ (Prod.Lex.left _ _ hbytes)
  · rw [hblocks, hbytes, hend, _hvalid]
    exact Prod.Lex.right _ (Prod.Lex.right _ Nat.zero_lt_one)

/-- The walk of an iterator that yields some records ends with them. -/
theorem Yields.walk {H : Hashing} {it : Iterator} {rs : List TableRecord} (h : it.Yields H rs) :
    it.walk H = .ok rs := by
  induction h with
  | @done it hinvalid =>
    rw [Iterator.walk, dif_neg (ne_true_of_eq_false hinvalid)]
  | @record it it' rs hvalid hnext _ ih =>
    rw [Iterator.walk, dif_pos hvalid]
    split
    · next failure herror => cases hnext.symm.trans herror
    · next it₁ hok =>
      obtain rfl := Except.ok.inj (hnext.symm.trans hok)
      rw [ih, ok_bind]

end Iterator

/-! ## What a lookup can find -/

/-- An entry that the loop over the records of a block finds is a `PUT` or a `DELETE`, and lies in
the payload. -/
theorem lookupRecords_ok {payload key : Bytes} (count : ℕ) :
    ∀ {cursor : ℕ} {e : InternalEntry}, lookupRecords payload key count cursor = .ok (some e) →
      KnownOperation (key, e) ∧ 17 + e.value.length ≤ payload.length := by
  induction count with
  | zero =>
    intro cursor e h
    unfold lookupRecords at h
    split_ifs at h
    cases h
  | succ count ih =>
    intro cursor e h
    unfold lookupRecords at h
    obtain ⟨⟨⟨recordKey, e'⟩, next⟩, hread, h⟩ := bind_eq_ok h
    obtain ⟨-, -, hnext, hle⟩ := readRecord_ok hread
    rw [length_recordBytes] at hnext
    dsimp only at h hnext
    split_ifs at h with hkey hoperation
    · cases h
      exact ⟨hoperation.symm, by omega⟩
    · cases h
    · exact ih h

/-- The block that a search targets is one of the index. -/
theorem targetBlock_mem (key : Bytes) (target : SparseIndexEntry) (es : List SparseIndexEntry) :
    targetBlock key target es ∈ target :: es := by
  induction es generalizing target with
  | nil => exact .head _
  | cons e es ih =>
    unfold targetBlock
    split_ifs
    · exact .tail _ (ih e)
    · exact .head _

/-- An entry that a lookup finds is a `PUT` or a `DELETE`, and lies in a block of the index. -/
theorem lookupEntry_found {H : Hashing} {reader : SstableReader} {key : Bytes} {e : InternalEntry}
    (h : reader.lookupEntry H key = .ok (some e)) :
    KnownOperation (key, e) ∧
      ∃ block ∈ reader.sparseIndex, 17 + e.value.length ≤ block.blockSize := by
  unfold lookupEntry at h
  obtain ⟨may, -, h⟩ := bind_eq_ok h
  split_ifs at h
  swap
  · cases h
  cases hindex : reader.sparseIndex with
  | nil =>
    rw [hindex] at h
    cases h
  | cons first rest =>
    rw [hindex] at h
    dsimp only at h
    split_ifs at h with hbelow
    · cases h
    unfold lookupBlock at h
    obtain ⟨bytes, hread, h⟩ := bind_eq_ok h
    split_ifs at h
    obtain ⟨payload, hpayload, h⟩ := bind_eq_ok h
    obtain ⟨⟨recordCount, c⟩, -, h⟩ := bind_eq_ok h
    dsimp only at h
    split_ifs at h
    obtain ⟨hknown, hvalue⟩ := lookupRecords_ok _ h
    refine ⟨hknown, targetBlock key first rest, targetBlock_mem key first rest, ?_⟩
    -- The payload is part of the block, and the block is as long as the index says, or shorter.
    have hblock : bytes.length ≤ (targetBlock key first rest).blockSize := by
      unfold readExact at hread
      split_ifs at hread
      cases hread
      rw [slice, List.length_take]
      exact min_le_left _ _
    have hlength : payload.length ≤ bytes.length := by
      unfold checkPayload at hpayload
      dsimp only at hpayload
      split_ifs at hpayload
      cases hpayload
      rw [List.length_take]
      exact min_le_right _ _
    exact hvalue.trans (hlength.trans hblock)

/-- Whatever a file holds, a value that a lookup finds is shorter than a block can be. -/
theorem length_of_lookupEntry {H : Hashing} {file key : Bytes} {reader : SstableReader}
    (hopen : openTable H file = .ok reader) {e : InternalEntry}
    (h : reader.lookupEntry H key = .ok (some e)) : e.value.length < uint32Max := by
  obtain ⟨-, block, hblock, hvalue⟩ := lookupEntry_found h
  have hsize := openTable_blockSize hopen block hblock
  rw [uint32Max]
  omega

end SstableReader

namespace Sstable

/-! ## The format -/

/-- `sstable_block_size_`. -/
def sstableBlockSize : ℕ := 4096

/-- `bloom_bits_per_key_`. -/
def bloomBitsPerKey : ℕ := 10

/-- The keys that `bloom_keys_` takes at most: the `max_size()` of a vector of strings, of 32 bytes
each. -/
def maxBloomKeys : ℕ := (2^63 - 1) / 32

/-- The SSTables of the code, for a target size of the blocks and a number of bits for each key. A
`push_back` beyond the `max_size()` of a vector throws. -/
def tableFormat (crc32 : Bytes → UInt32) (targetBlockSize bitsPerKey : ℕ) :
    TableFormat Bytes SstableReader where
  build rs :=
    if rs.length > maxBloomKeys then .error (.exception "vector::_M_realloc_append")
    else build (.vendored crc32) targetBlockSize bitsPerKey rs
  openTable := openTable (.vendored crc32)
  records reader := do
    let it ← Iterator.new (.vendored crc32) reader
    it.walk (.vendored crc32)
  lookupEntry reader key := reader.lookupEntry (.vendored crc32) key
  Takes := MurmurHash3.Fits

/-- The SSTables of the engine. -/
abbrev format (crc32 : Bytes → UInt32) : TableFormat Bytes SstableReader :=
  tableFormat crc32 sstableBlockSize bloomBitsPerKey

/-- Whatever the files hold, a value that a search in them finds is shorter than a block can be. -/
theorem length_of_lookupFiles {crc32 : Bytes → UInt32} {s : Store Bytes}
    {files : List SstableMetadata}
    {key : Bytes} {entry : InternalEntry}
    (h : s.lookupFiles (format crc32) files key = .ok (some entry)) :
    entry.value.length < uint32Max := by
  have hpass : ∀ (f : SstableMetadata) {winner winner' : Option InternalEntry},
      (∀ e ∈ winner, e.value.length < uint32Max) →
      s.lookupFile (format crc32) key winner f = .ok winner' →
      ∀ e ∈ winner', e.value.length < uint32Max := by
    intro f winner winner' hwinner hpass
    unfold Store.lookupFile at hpass
    split_ifs at hpass
    · cases hpass
      exact hwinner
    · obtain ⟨reader, hopen, hpass⟩ := bind_eq_ok hpass
      obtain ⟨candidate, hcandidate, hpass⟩ := bind_eq_ok hpass
      cases hpass
      have hopen' : ∃ file, openTable (.vendored crc32) file = .ok reader := by
        unfold Store.openSstable at hopen
        split at hopen
        · cases hopen
        · next file _ => exact ⟨file, hopen⟩
      obtain ⟨file, hopen'⟩ := hopen'
      intro e he
      have hcases : considerNewer winner candidate = winner ∨
          considerNewer winner candidate = candidate := newer_cases _ _ _
      rcases hcases with heq | heq
      · exact hwinner e (heq ▸ he)
      · rw [heq] at he
        rw [Option.mem_def.1 he] at hcandidate
        exact SstableReader.length_of_lookupEntry hopen' hcandidate
  have hfold : ∀ (files : List SstableMetadata) {winner winner' : Option InternalEntry},
      (∀ e ∈ winner, e.value.length < uint32Max) →
      files.foldlM (s.lookupFile (format crc32) key) winner = .ok winner' →
      ∀ e ∈ winner', e.value.length < uint32Max := by
    intro files
    induction files with
    | nil =>
      intro winner winner' hwinner h
      cases h
      exact hwinner
    | cons f files ih =>
      intro winner winner' hwinner h
      rw [List.foldlM_cons] at h
      obtain ⟨winner₁, hfirst, hrest⟩ := bind_eq_ok h
      exact ih (hpass f hwinner hfirst) hrest
  exact hfold files (fun e he => absurd he (Option.not_mem_none e)) h entry rfl

/-- So is a value that such a search answers with. -/
theorem length_of_answer {crc32 : Bytes → UInt32} {s : Store Bytes} {files : List SstableMetadata}
    {key : Bytes} {winner : Option InternalEntry}
    (h : s.lookupFiles (format crc32) files key = .ok winner) {value : Bytes}
    (hanswer : (GetResult.of winner).answer = some value) : value.length < uint32Max := by
  cases winner with
  | none => cases hanswer
  | some entry =>
    have hshort := length_of_lookupFiles h
    unfold GetResult.of at hanswer
    dsimp only at hanswer
    split_ifs at hanswer
    · cases hanswer
    · exact Option.some.inj hanswer ▸ hshort

section Build

variable {crc32 : Bytes → UInt32} {targetBlockSize bitsPerKey : ℕ} {rs : List TableRecord}
  {file : Bytes}

/-- A build of the format is one of the builder. -/
theorem build_of_tableFormat
    (h : (tableFormat crc32 targetBlockSize bitsPerKey).build rs = .ok file) :
    build (.vendored crc32) targetBlockSize bitsPerKey rs = .ok file ∧
    rs.length ≤ maxBloomKeys := by
  simp only [tableFormat] at h
  split_ifs at h with hmany
  exact ⟨h, not_lt.1 hmany⟩

/-- The builder's vector takes as many keys as can be counted with 32 bits. -/
theorem tableFormat_build (hlen : rs.length < 2^32)
    (h : build (.vendored crc32) targetBlockSize bitsPerKey rs = .ok file) :
    (tableFormat crc32 targetBlockSize bitsPerKey).build rs = .ok file := by
  simp only [tableFormat]
  rw [if_neg (by rw [maxBloomKeys]; omega), h]

/-- A file that stores some records does so for the format. -/
theorem Stores.tableFormat (h : Stores (.vendored crc32) file rs) :
    (Sstable.tableFormat crc32 targetBlockSize bitsPerKey).Stores file rs := by
  obtain ⟨reader, hopen, ⟨it, hnew, hyields⟩, hlookup⟩ := h
  refine ⟨reader, hopen, ?_, fun key hkey => hlookup key (Hashing.hashes_vendored.2 hkey)⟩
  show (Iterator.new (.vendored crc32) reader >>= fun it => it.walk (.vendored crc32)) = .ok rs
  rw [hnew, ok_bind, hyields.walk]

end Build

/-- The tables of the engine that fit. -/
def TableFits (rs : List TableRecord) : Prop := Storable sstableBlockSize bloomBitsPerKey rs

/-- A table of records that the log takes is represented, if it fits. -/
theorem format_represents (crc32 : Bytes → UInt32) {rs : List TableRecord} (hne : rs ≠ [])
    (hsorted : Sorted rs) (haccepted : ∀ r ∈ rs, AcceptedRecord r) (hfits : TableFits rs) :
    (format crc32).Represents rs := by
  have hbits : bloomBitsPerKey ≠ 0 := by decide
  obtain ⟨file, hbuild, hstores⟩ :=
    hfits.stores crc32 hbits hne hsorted fun r hr => (haccepted r hr).valid
  exact ⟨file, tableFormat_build (hfits.length_lt hbits).1 hbuild, hstores.tableFormat⟩

/-- A table of the engine whose keys are hashed is built, whatever its values are. -/
theorem format_builds (crc32 : Bytes → UInt32) {rs : List TableRecord} (hne : rs ≠ [])
    (hsorted : Sorted rs) (hbits : bloomBitsPerKey * rs.length < 2^32)
    (hkeys : ∀ r ∈ rs, MurmurHash3.Fits r.1) : ∃ file, (format crc32).build rs = .ok file := by
  obtain ⟨filter, hnew, hsized, -⟩ :=
    BloomFilter.new_spec (by decide) (List.length_pos_iff.2 hne) hbits
  obtain ⟨filter', hadd, -⟩ := BloomFilter.mayContain_addAll (H := .vendored crc32)
    (List.forall_mem_map.2 fun r hr => Hashing.hashes_vendored.2 (hkeys r hr)) hsized
  have hlen : rs.length < 2^32 := by
    rw [bloomBitsPerKey] at hbits
    omega
  have hbuild : build (.vendored crc32) sstableBlockSize bloomBitsPerKey rs =
      .ok (tableBytes (.vendored crc32) (splitBlocks sstableBlockSize rs) filter') := by
    rw [build_eq _ _ _ hsorted hne, hnew, ok_bind, hadd, ok_bind]
  exact ⟨_, tableFormat_build hlen hbuild⟩

end Sstable

end Kronos
