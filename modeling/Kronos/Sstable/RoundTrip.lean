import Mathlib.Algebra.Order.BigOperators.Group.List
import Kronos.Sstable.ReadBack

/-!
# The round trip of a table

A table that fits the 32-bit fields of its format reads back as it was built: the builder's bytes
are opened (`openTable_tableBytes`), the index points at the blocks (`located_tableBytes`), and so
the iterator and the lookups give the records (`exists_stores`). `Stores` is this property of the
bytes of a file, and all that the rest of the engine relies on.
-/

namespace Kronos

open ByteString SstableBuilder SstableReader Sstable

/-- The bytes of a file are a table that holds these records: it can be opened, its iterator yields
the records in order and then is invalid, and a key that is hashed is looked up among them. -/
def Sstable.Stores (H : Hashing) (file : Bytes) (rs : List TableRecord) : Prop :=
  ∃ reader, openTable H file = .ok reader ∧
    (∃ it, Iterator.new H reader = .ok it ∧ it.Yields H rs) ∧
    ∀ key, H.Hashes key → reader.lookupEntry H key = .ok (rs.lookup key)

namespace Sstable

/-! ## Opening -/

/-- A part of a file is read. -/
theorem readExact_eq {file pre part : Bytes} (message : String) (h : pre ++ part <+: file) :
    readExact message file pre.length part.length = .ok part := by
  have hlen := h.length_le
  rw [List.length_append] at hlen
  rw [readExact, if_neg (by omega), slice_eq h rfl rfl]

/-- A file with the header has it read. -/
theorem readHeader_eq {file : Bytes} (h : header <+: file) : readHeader file = .ok () := by
  have hpre : [] ++ magic <+: file := (List.prefix_append magic _).trans h
  have hmagic : readExact readMessage file 0 4 = .ok magic := readExact_eq readMessage hpre
  have hversion : readExact readMessage file 4 4 = .ok (toLe 4 version) :=
    readExact_eq readMessage h
  rw [readHeader, hmagic, ok_bind, if_neg (by simp), hversion, ok_bind, if_neg (by decide)]

/-- The footer of a file gives its fields, as far as 64 bits hold them. -/
theorem readFooter_mod {H : Hashing} {file pre : Bytes}
    {bloomOffset bloomSize indexOffset indexSize : ℕ}
    (h : file = pre ++ footerBytes H bloomOffset bloomSize indexOffset indexSize) :
    readFooter H file = .ok ⟨bloomOffset % 256^8, bloomSize % 256^8, indexOffset % 256^8,
      indexSize % 256^8⟩ := by
  have hlen : file.length = pre.length + 36 := by simp [h, footerBytes, withChecksum]
  have hread : readExact readMessage file (file.length - 36) 36 =
      .ok (footerBytes H bloomOffset bloomSize indexOffset indexSize) := by
    have hoffset : file.length - 36 = pre.length := by omega
    rw [hoffset]
    have hpre : pre ++ footerBytes H bloomOffset bloomSize indexOffset indexSize <+: file :=
      ⟨[], by rw [List.append_nil, h]⟩
    exact readExact_eq readMessage hpre
  generalize hpayload : toLe 8 bloomOffset ++ toLe 8 bloomSize ++ toLe 8 indexOffset ++
    toLe 8 indexSize = payload
  have h₁ : slice payload 0 8 = toLe 8 bloomOffset :=
    slice_eq (a := []) (by simp [← hpayload]) rfl (length_toLe 8 _)
  have h₂ : slice payload 8 8 = toLe 8 bloomSize :=
    slice_eq (a := toLe 8 bloomOffset) (by simp [← hpayload]) (by simp) (length_toLe 8 _)
  have h₃ : slice payload 16 8 = toLe 8 indexOffset :=
    slice_eq (a := toLe 8 bloomOffset ++ toLe 8 bloomSize) (by simp [← hpayload])
      (by simp) (length_toLe 8 _)
  have h₄ : slice payload 24 8 = toLe 8 indexSize :=
    slice_eq (a := toLe 8 bloomOffset ++ toLe 8 bloomSize ++ toLe 8 indexOffset)
      (by simp [← hpayload]) (by simp) (length_toLe 8 _)
  rw [readFooter, if_neg (by omega), hread, ok_bind, footerBytes, hpayload,
    checkPayload_withChecksum, ok_bind, h₁, h₂, h₃, h₄, ofLe_toLe, ofLe_toLe, ofLe_toLe, ofLe_toLe]

/-- The footer of a file gives its fields. -/
theorem readFooter_eq {H : Hashing} {file pre : Bytes} {footer : FooterInfo}
    (h : file = pre ++ footerBytes H footer.bloomOffset footer.bloomSize footer.indexOffset
      footer.indexSize)
    (hbloomOffset : footer.bloomOffset < 2^64) (hbloomSize : footer.bloomSize < 2^64)
    (hindexOffset : footer.indexOffset < 2^64) (hindexSize : footer.indexSize < 2^64) :
    readFooter H file = .ok footer := by
  rw [readFooter_mod h, Nat.mod_eq_of_lt (by omega), Nat.mod_eq_of_lt (by omega),
    Nat.mod_eq_of_lt (by omega), Nat.mod_eq_of_lt (by omega)]

/-- The bytes of a Bloom filter give the filter. -/
theorem loadBloomFilter_eq {H : Hashing} {file pre : Bytes} {filter : BloomFilter}
    (h : pre ++ bloomBytes H filter <+: file) (hsized : filter.Sized)
    (hbits : filter.bitCount < 2^32) (hprobes : 0 < filter.probeCount)
    (hprobes' : filter.probeCount < 2^32) :
    loadBloomFilter H file pre.length (bloomBytes H filter).length = .ok filter := by
  obtain ⟨hpos, hlen⟩ := hsized
  have hread := readExact_eq readMessage h
  have hsize : (bloomBytes H filter).length = 12 + filter.bits.length := by
    simp [bloomBytes, withChecksum]
    omega
  generalize hpayload : toLe 4 filter.bitCount ++ toLe 4 filter.probeCount ++ filter.bits = payload
  have hbitCount : ofLe (slice payload 0 4) = filter.bitCount := by
    have hslice : slice payload 0 4 = toLe 4 filter.bitCount :=
      slice_eq (a := []) (by simp [← hpayload]) rfl (length_toLe 4 _)
    rw [hslice, ofLe_toLe_of_lt (by omega)]
  have hprobeCount : ofLe (slice payload 4 4) = filter.probeCount := by
    have hslice : slice payload 4 4 = toLe 4 filter.probeCount :=
      slice_eq (a := toLe 4 filter.bitCount) (by simp [← hpayload]) (by simp) (length_toLe 4 _)
    rw [hslice, ofLe_toLe_of_lt (by omega)]
  have hrest : payload.drop 8 = filter.bits := by
    rw [← hpayload]
    exact List.drop_left' (by simp)
  have hnil : filter.bits ≠ [] := by
    rintro hnil
    rw [hnil, List.length_nil] at hlen
    omega
  rw [loadBloomFilter, if_neg (by omega), hread, ok_bind, bloomBytes, hpayload,
    checkPayload_withChecksum, ok_bind]
  dsimp only
  rw [hbitCount, hprobeCount, hrest, if_neg (by simp [hnil]; omega), if_neg (by simpa using hlen),
    BloomFilter.restore, if_neg (by simp [hnil]; omega)]

/-- A filter answers that it may contain each key that was added to it, whatever was added in
between or behind it, and the filter that a reader restores from its bytes is the same one. -/
theorem bloomFilter_no_false_negatives (crc32 murmurHash3 : Bytes → UInt32)
    {bitsPerKey keyCount : ℕ} (hbits : 1 ≤ bitsPerKey) (hkeys : 1 ≤ keyCount)
    (hfits : bitsPerKey * keyCount < 2^32) (keys : List Bytes) :
    ∃ filter filter', BloomFilter.new bitsPerKey keyCount = .ok filter ∧
      keys.foldlM (BloomFilter.add (.total crc32 murmurHash3)) filter = .ok filter' ∧
      filter'.bitCount = bitsPerKey * keyCount ∧ filter'.probeCount = filter.probeCount ∧
      (∀ key ∈ keys, filter'.mayContain (.total crc32 murmurHash3) key = .ok true) ∧
      ∀ before behind,
        loadBloomFilter (.total crc32 murmurHash3)
          (before ++ bloomBytes (.total crc32 murmurHash3) filter' ++ behind) before.length
          (bloomBytes (.total crc32 murmurHash3) filter').length = .ok filter' := by
  obtain ⟨filter, hnew, hsized, hbitCount, hprobes, hprobes'⟩ :=
    BloomFilter.new_spec hbits hkeys hfits
  obtain ⟨filter', hadd, hsized', hbitCount', hprobeCount', hmay, -⟩ :=
    BloomFilter.mayContain_addAll
      (fun key (_ : key ∈ keys) => Hashing.hashes_total crc32 murmurHash3 key) hsized
  refine ⟨filter, filter', hnew, hadd, hbitCount'.trans hbitCount, hprobeCount', hmay, ?_⟩
  intro before behind
  apply loadBloomFilter_eq (List.prefix_append _ behind) hsized'
  · rwa [hbitCount', hbitCount]
  · rwa [hprobeCount']
  · rwa [hprobeCount']

/-- A filter that was sized for one key, and was given two. -/
theorem bloomFilter_no_false_negatives_of_two :
    (1 ≤ 10 ∧ 1 ≤ 1 ∧ 10 * 1 < 2^32) ∧
    ∃ filter filter', BloomFilter.new 10 1 = .ok filter ∧
      [[1], [2]].foldlM (BloomFilter.add byteSum) filter = .ok filter' ∧
      filter'.mayContain byteSum [1] = .ok true ∧ filter'.mayContain byteSum [2] = .ok true := by
  obtain ⟨filter, filter', hnew, hadd, -, -, hmay, -⟩ :=
    bloomFilter_no_false_negatives byteSum.crc32 (fun _ => 0) (show 1 ≤ 10 by decide)
      (show 1 ≤ 1 by decide) (show 10 * 1 < 2^32 by decide) [[1], [2]]
  exact ⟨by decide, filter, filter', hnew, hadd, hmay _ (.head _), hmay _ (.tail _ (.head _))⟩

/-- Each entry of an index takes 16 bytes or more. -/
theorem length_indexEntries_ge (index : List SparseIndexEntry) :
    16 * index.length ≤ (index.map indexEntryBytes).flatten.length := by
  induction index with
  | nil => rfl
  | cons e index ih =>
    rw [List.map_cons, List.flatten_cons, List.length_append, List.length_cons]
    simp only [indexEntryBytes, List.length_append, length_toLe]
    omega

/-- The bytes of an index give the index. -/
theorem loadSparseIndex_eq {H : Hashing} {file pre : Bytes} {index : List SparseIndexEntry}
    (h : pre ++ indexBytes H index <+: file) (hcount : index.length < 2^32)
    (hindex : ∀ e ∈ index, e.firstKey.length < 2^32 ∧ e.blockOffset < 2^64 ∧ e.blockSize < 2^32) :
    loadSparseIndex H file pre.length (indexBytes H index).length = .ok index := by
  have hread := readExact_eq readMessage h
  have hsize : 8 ≤ (indexBytes H index).length := by
    simp [indexBytes, withChecksum]
    omega
  have hentries := length_indexEntries_ge index
  generalize hpayload : toLe 4 index.length ++ (index.map indexEntryBytes).flatten = payload
  have hlen : payload.length = 4 + (index.map indexEntryBytes).flatten.length := by
    simp [← hpayload]
  have hfield : readField indexFailure payload 4 0 = .ok (toLe 4 index.length, 4) :=
    readField_start (by rw [← hpayload]; exact List.prefix_append _ _) (length_toLe 4 _)
  have hloop : readIndexEntries payload index.length (toLe 4 index.length).length =
      .ok (index, (toLe 4 index.length ++ (index.map indexEntryBytes).flatten).length) :=
    readIndexEntries_eq index hindex ⟨[], by rw [List.append_nil, hpayload]⟩
  rw [length_toLe, hpayload] at hloop
  rw [loadSparseIndex, if_neg (by omega), hread, ok_bind, indexBytes, hpayload,
    checkPayload_withChecksum, ok_bind, hfield, ok_bind]
  dsimp only
  rw [ofLe_toLe_of_lt (by omega), if_neg (by omega), hloop, ok_bind]
  dsimp only
  rw [if_neg (by simp)]

/-! ## The blocks in the file -/

/-- A block that is located in a file is located in a file that goes on behind it. -/
theorem Located.mono {H : Hashing} {file file' : Bytes} {e : SparseIndexEntry}
    {block : List TableRecord} (h : Located H file e block) (hpre : file <+: file') :
    Located H file' e block := by
  refine { h with bytes := ?_, inside := h.inside.trans hpre.length_le }
  rw [← slice_of_prefix hpre h.inside, h.bytes]

/-- A block lies in a file where its index entry says. -/
structure Placed (H : Hashing) (file : Bytes) (e : SparseIndexEntry) (block : List TableRecord) :
    Prop where
  firstKey : e.firstKey = Sstable.firstKey block
  size : e.blockSize = blockSize block
  bytes : slice file e.blockOffset e.blockSize = encodeBlock H block
  inside : e.blockOffset + e.blockSize ≤ file.length

/-- A block that lies in a file lies in a file that goes on behind it. -/
theorem Placed.mono {H : Hashing} {file file' : Bytes} {e : SparseIndexEntry}
    {block : List TableRecord} (h : Placed H file e block) (hpre : file <+: file') :
    Placed H file' e block := by
  refine { h with bytes := ?_, inside := h.inside.trans hpre.length_le }
  rw [← slice_of_prefix hpre h.inside, h.bytes]

/-- Blocks that lie one behind the other are where their index entries say. -/
theorem placed_indexFrom (H : Hashing) (blocks : List (List TableRecord))
    (h : ∀ block ∈ blocks, blockSize block < 2^32) : ∀ pre : Bytes,
      List.Forall₂ (Placed H (pre ++ (blocks.map (encodeBlock H)).flatten))
        (indexFrom pre.length blocks) blocks := by
  induction blocks with
  | nil =>
    intro pre
    exact .nil
  | cons block blocks ih =>
    intro pre
    have hmod : blockSize block % 2^32 = blockSize block := Nat.mod_eq_of_lt (h block (.head _))
    have hpre : pre ++ encodeBlock H block <+:
        pre ++ ((block :: blocks).map (encodeBlock H)).flatten := by simp
    have hlen := hpre.length_le
    rw [List.length_append, length_encodeBlock] at hlen
    have hrest := ih (fun block' h' => h block' (.tail _ h')) (pre ++ encodeBlock H block)
    rw [List.length_append, length_encodeBlock, List.append_assoc] at hrest
    refine .cons ⟨rfl, hmod, ?_, ?_⟩ hrest
    · rw [hmod]
      exact slice_eq hpre rfl (length_encodeBlock H block)
    · rwa [hmod]

/-- What the index relies on in the blocks. -/
structure GoodBlock (block : List TableRecord) : Prop where
  size_lt : blockSize block < 2^32
  nonempty : block ≠ []
  sequence : ∀ r ∈ block, r.2.sequence < 2^64

/-- Good blocks that lie one behind the other are located by their index entries. -/
theorem located_indexFrom (H : Hashing) (blocks : List (List TableRecord))
    (h : ∀ block ∈ blocks, GoodBlock block) (pre : Bytes) :
    List.Forall₂ (Located H (pre ++ (blocks.map (encodeBlock H)).flatten))
      (indexFrom pre.length blocks) blocks := by
  have hplaced := placed_indexFrom H blocks (fun block hblock => (h block hblock).size_lt) pre
  have hgood := ((List.forall₂_and_left _ _).2 ⟨h, hplaced.flip⟩).flip
  refine hgood.imp fun e block hblock => ?_
  obtain ⟨⟨hsize, hnonempty, hsequence⟩, hfirst, hentry, hbytes, hinside⟩ := hblock
  exact ⟨hfirst, hentry, hsize, hbytes, hinside, hnonempty, hsequence⟩

/-- The entry of a located block takes no more bytes than the block. -/
theorem Located.length_entry_le {H : Hashing} {file : Bytes} {e : SparseIndexEntry}
    {block : List TableRecord} (h : Located H file e block) :
    (indexEntryBytes e).length ≤ blockSize block := by
  obtain ⟨r, block, rfl⟩ := List.exists_cons_of_ne_nil h.nonempty
  have hfirst : e.firstKey = r.1 := h.firstKey
  simp only [indexEntryBytes, hfirst, blockSize, recordsBytes_cons, List.length_append,
    length_toLe, length_recordBytes]
  omega

/-- Nor do the entries of located blocks. -/
theorem length_entries_le {H : Hashing} {file : Bytes} {index : List SparseIndexEntry}
    {blocks : List (List TableRecord)} (h : List.Forall₂ (Located H file) index blocks) :
    (index.map indexEntryBytes).flatten.length ≤ (blocks.map blockSize).sum := by
  induction h with
  | nil => rfl
  | cons he _ ih =>
    have := he.length_entry_le
    rw [List.map_cons, List.flatten_cons, List.length_append, List.map_cons, List.sum_cons]
    omega

/-- The fields of the entry of a located block have their widths. -/
theorem Located.entry_lt {H : Hashing} {file : Bytes} {e : SparseIndexEntry}
    {block : List TableRecord} (h : Located H file e block) (hfile : file.length < 2^64) :
    e.firstKey.length < 2^32 ∧ e.blockOffset < 2^64 ∧ e.blockSize < 2^32 := by
  have hinside := h.inside
  refine ⟨?_, by omega, h.size ▸ h.size_lt⟩
  obtain ⟨r, block, rfl⟩ := List.exists_cons_of_ne_nil h.nonempty
  rw [h.firstKey]
  exact (lengths_lt h.size_lt (.head _)).1

/-- Entries for blocks that lie in a file of 64-bit size fit their fields. -/
theorem entries_lt {H : Hashing} {file : Bytes} {index : List SparseIndexEntry}
    {blocks : List (List TableRecord)} (h : List.Forall₂ (Located H file) index blocks)
    (hfile : file.length < 2^64) : ∀ e ∈ index,
      e.firstKey.length < 2^32 ∧ e.blockOffset < 2^64 ∧ e.blockSize < 2^32 := by
  induction h with
  | nil => simp
  | cons he _ ih => exact List.forall_mem_cons.2 ⟨he.entry_lt hfile, ih⟩

/-- The blocks of a table take less than 64 bits of offsets. -/
theorem sum_blockSize_le {blocks : List (List TableRecord)}
    (hblocks : ∀ block ∈ blocks, blockSize block < 2^32) (hcount : blocks.length < 2^32) :
    (blocks.map blockSize).sum ≤ (2^32 - 1) * (2^32 - 1) := by
  have hsum : (blocks.map blockSize).sum ≤ blocks.length * (2^32 - 1) := by
    have h := List.sum_le_card_nsmul (blocks.map blockSize) (2^32 - 1) (by
      intro n hn
      obtain ⟨block, hblock, rfl⟩ := List.mem_map.1 hn
      have := hblocks block hblock
      omega)
    simpa using h
  exact hsum.trans (Nat.mul_le_mul_right _ (by omega))

/-- The Bloom filter is written with 12 bytes around its bits. -/
theorem length_bloomBytes (H : Hashing) (filter : BloomFilter) :
    (bloomBytes H filter).length = 12 + filter.bits.length := by
  simp [bloomBytes, withChecksum]
  omega

/-- The bytes of a file with its parts one behind the other. -/
def fileBytes (H : Hashing) (data : Bytes) (filter : BloomFilter) (index : List SparseIndexEntry) :
    Bytes :=
  data ++ bloomBytes H filter ++ indexBytes H index ++
    footerBytes H data.length (bloomBytes H filter).length
      (data.length + (bloomBytes H filter).length) (indexBytes H index).length

/-- The footer says where the parts are. -/
theorem readFooter_fileBytes (H : Hashing) {data : Bytes} {filter : BloomFilter}
    {index : List SparseIndexEntry} (hbloom : data.length + (bloomBytes H filter).length < 2^64)
    (hindex : (indexBytes H index).length < 2^64) :
    readFooter H (fileBytes H data filter index) =
      .ok ⟨data.length, (bloomBytes H filter).length,
        data.length + (bloomBytes H filter).length, (indexBytes H index).length⟩ := by
  refine @readFooter_eq H _ (data ++ bloomBytes H filter ++ indexBytes H index) ⟨data.length,
    (bloomBytes H filter).length, data.length + (bloomBytes H filter).length,
    (indexBytes H index).length⟩ rfl ?_ ?_ ?_ hindex
  all_goals
    dsimp only
    omega

/-- A file of such parts is opened, and its index and its Bloom filter are read back. -/
theorem openTable_fileBytes (H : Hashing) {data : Bytes} {filter : BloomFilter}
    {index : List SparseIndexEntry} (hdata : header <+: data) (hsized : filter.Sized)
    (hbits : filter.bitCount < 2^32) (hprobes : 0 < filter.probeCount)
    (hprobes' : filter.probeCount < 2^32) (hcount : index.length < 2^32)
    (hentries : ∀ e ∈ index,
      e.firstKey.length < 2^32 ∧ e.blockOffset < 2^64 ∧ e.blockSize < 2^32)
    (hbloom : data.length + (bloomBytes H filter).length < 2^64)
    (hindex : (indexBytes H index).length < 2^64) :
    openTable H (fileBytes H data filter index) =
      .ok ⟨fileBytes H data filter index, index, filter⟩ := by
  have hbloomPrefix : data ++ bloomBytes H filter <+: fileBytes H data filter index := by
    simp [fileBytes]
  have hindexPrefix : data ++ bloomBytes H filter ++ indexBytes H index <+:
      fileBytes H data filter index := by
    simp [fileBytes]
  have hheader := readHeader_eq (hdata.trans ((List.prefix_append _ _).trans hbloomPrefix))
  have hload := loadBloomFilter_eq hbloomPrefix hsized hbits hprobes hprobes'
  have hloadIndex := loadSparseIndex_eq hindexPrefix hcount hentries
  rw [List.length_append] at hloadIndex
  rw [openTable, hheader, ok_bind, readFooter_fileBytes H hbloom hindex, ok_bind]
  dsimp only
  rw [hload, ok_bind, hloadIndex, ok_bind]

/-- The offsets and sizes of the parts of a table of good blocks have 64 bits. -/
theorem length_parts_lt (H : Hashing) {blocks : List (List TableRecord)} {filter : BloomFilter}
    (hblocks : ∀ block ∈ blocks, GoodBlock block) (hcount : blocks.length < 2^32)
    (hsized : filter.Sized) (hbits : filter.bitCount < 2^32) :
    (dataBytes H blocks).length + (bloomBytes H filter).length < 2^64 ∧
      (indexBytes H (indexFrom header.length blocks)).length < 2^64 := by
  have hsum := sum_blockSize_le (fun block hblock => (hblocks block hblock).size_lt) hcount
  have hdata : (dataBytes H blocks).length = 8 + (blocks.map blockSize).sum :=
    length_dataBytes H blocks
  have hbloom := length_bloomBytes H filter
  have hfilter := hsized.2
  have hentries := length_entries_le (located_indexFrom H blocks hblocks header)
  refine ⟨by omega, ?_⟩
  simp only [indexBytes, withChecksum, List.length_append, length_toLe]
  omega

/-- A table of good blocks with a sized Bloom filter is opened, and its index locates the
blocks. -/
theorem openTable_tableBytes (H : Hashing) {blocks : List (List TableRecord)}
    {filter : BloomFilter} (hblocks : ∀ block ∈ blocks, GoodBlock block)
    (hcount : blocks.length < 2^32) (hsized : filter.Sized) (hbits : filter.bitCount < 2^32)
    (hprobes : 0 < filter.probeCount) (hprobes' : filter.probeCount < 2^32) :
    ∃ reader, openTable H (tableBytes H blocks filter) = .ok reader ∧
      List.Forall₂ (Located H reader.file) reader.sparseIndex blocks ∧
      reader.bloomFilter = filter := by
  have hlocated := located_indexFrom H blocks hblocks header
  obtain ⟨hbloom, hindex⟩ := length_parts_lt H hblocks hcount hsized hbits
  have hdata : (dataBytes H blocks).length < 2^64 := by omega
  have hheader : header <+: dataBytes H blocks := List.prefix_append _ _
  have hopen := openTable_fileBytes H hheader hsized hbits hprobes hprobes' (by simpa using hcount)
    (entries_lt hlocated hdata) hbloom hindex
  refine ⟨⟨_, _, filter⟩, hopen, ?_, rfl⟩
  have hdataPrefix : dataBytes H blocks <+: tableBytes H blocks filter := by
    simp [tableBytes]
  exact hlocated.imp fun e block h => h.mono hdataPrefix

/-- Records with increasing keys that are hashed, whose blocks, block count and Bloom filter fit in
32 bits, are built into a file that opens and through which an iterator walks. A lookup finds them
if their operations are known. -/
theorem build_opens {H : Hashing} (targetBlockSize : ℕ) {bitsPerKey : ℕ} {rs : List TableRecord}
    (hbitsPerKey : 1 ≤ bitsPerKey) (hne : rs ≠ []) (hsorted : Sorted rs)
    (hhashes : ∀ r ∈ rs, H.Hashes r.1) (hsequence : ∀ r ∈ rs, r.2.sequence < 2^64)
    (hblocks : ∀ block ∈ splitBlocks targetBlockSize rs, blockSize block < 2^32)
    (hcount : (splitBlocks targetBlockSize rs).length < 2^32)
    (hbits : bitsPerKey * rs.length < 2^32) :
    ∃ file reader, build H targetBlockSize bitsPerKey rs = .ok file ∧
      openTable H file = .ok reader ∧ (∃ it, Iterator.new H reader = .ok it ∧ it.Yields H rs) ∧
      ((∀ r ∈ rs, KnownOperation r) →
        ∀ key, H.Hashes key → reader.lookupEntry H key = .ok (rs.lookup key)) := by
  obtain ⟨hflatten, hnonempty⟩ := splitBlocks_spec targetBlockSize rs
  obtain ⟨filter, hnew, hsized, hbitCount, hprobes, hprobes'⟩ :=
    BloomFilter.new_spec hbitsPerKey (List.length_pos_iff.2 hne) hbits
  obtain ⟨filter', hadd, hsized', hbitCount', hprobeCount', hmay, -⟩ :=
    BloomFilter.mayContain_addAll (List.forall_mem_map.2 hhashes) hsized
  have hgood : ∀ block ∈ splitBlocks targetBlockSize rs, GoodBlock block := fun block hblock =>
    ⟨hblocks block hblock, hnonempty block hblock, fun r hr =>
      hsequence r (hflatten ▸ List.mem_flatten_of_mem hblock hr)⟩
  obtain ⟨reader, hopen, hlocated, hfilter⟩ := openTable_tableBytes H hgood hcount hsized'
    (by rw [hbitCount', hbitCount]; exact hbits) (by rw [hprobeCount']; exact hprobes)
    (by rw [hprobeCount']; exact hprobes')
  refine ⟨_, reader, ?_, hopen, ?_, fun hknown key hkey => ?_⟩
  · rw [build_eq H _ _ hsorted hne, hnew, ok_bind, hadd, ok_bind]
  · have hyields := yields_blocks hlocated
    rwa [hflatten] at hyields
  · have hlookup := lookupEntry_eq hlocated (by rwa [hflatten]) (by rwa [hflatten]) (by
      rw [hflatten, hfilter]
      exact fun r hr => hmay r.1 (List.mem_map_of_mem hr)) hkey
    rwa [hflatten] at hlookup

/-- Records with increasing keys that are hashed, whose blocks, block count and Bloom filter fit in
32 bits, are built into a file that stores them. -/
theorem exists_stores {H : Hashing} (targetBlockSize : ℕ) {bitsPerKey : ℕ} {rs : List TableRecord}
    (hbitsPerKey : 1 ≤ bitsPerKey) (hne : rs ≠ []) (hsorted : Sorted rs)
    (hhashes : ∀ r ∈ rs, H.Hashes r.1) (hvalid : ∀ r ∈ rs, ValidRecord r)
    (hblocks : ∀ block ∈ splitBlocks targetBlockSize rs, blockSize block < 2^32)
    (hcount : (splitBlocks targetBlockSize rs).length < 2^32)
    (hbits : bitsPerKey * rs.length < 2^32) :
    ∃ file, build H targetBlockSize bitsPerKey rs = .ok file ∧ Stores H file rs := by
  obtain ⟨file, reader, hbuild, hopen, hyields, hlookup⟩ := build_opens targetBlockSize hbitsPerKey
    hne hsorted hhashes (fun r hr => (hvalid r hr).sequence_lt) hblocks hcount hbits
  exact ⟨file, hbuild, reader, hopen, hyields, hlookup fun r hr => (hvalid r hr).operation⟩

/-- **The round trip.** Whatever functions the hashes are, records with increasing keys, whose
blocks, block count and Bloom filter fit in 32 bits, are built into a file that stores them. -/
theorem build_stores (crc32 murmurHash3 : Bytes → UInt32) (targetBlockSize : ℕ) {bitsPerKey : ℕ}
    {rs : List TableRecord} (hbitsPerKey : 1 ≤ bitsPerKey) (hne : rs ≠ []) (hsorted : Sorted rs)
    (hvalid : ∀ r ∈ rs, ValidRecord r)
    (hblocks : ∀ block ∈ splitBlocks targetBlockSize rs, blockSize block < 2^32)
    (hcount : (splitBlocks targetBlockSize rs).length < 2^32)
    (hbits : bitsPerKey * rs.length < 2^32) :
    ∃ file, build (.total crc32 murmurHash3) targetBlockSize bitsPerKey rs = .ok file ∧
      Stores (.total crc32 murmurHash3) file rs :=
  exists_stores targetBlockSize hbitsPerKey hne hsorted
    (fun r _ => Hashing.hashes_total crc32 murmurHash3 r.1) hvalid hblocks hcount hbits

/-- Two records, each in a block of its own. -/
theorem build_stores_two :
    ∃ file, build byteSum 0 10 [([], ⟨[1], 7, .put⟩), ([97], ⟨[], 8, .delete⟩)] = .ok file ∧
      Stores byteSum file [([], ⟨[1], 7, .put⟩), ([97], ⟨[], 8, .delete⟩)] :=
  build_stores byteSum.crc32 (fun _ => 0) 0 (by decide) (by simp) (by simp [Sorted]) (by
    simp only [List.forall_mem_cons, List.not_mem_nil, false_implies, implies_true, and_true]
    exact ⟨⟨by decide, .inl rfl⟩, by decide, .inr rfl⟩) (by decide) (by decide) (by decide)

end Sstable

end Kronos
