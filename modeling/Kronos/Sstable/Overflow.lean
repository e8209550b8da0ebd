import Mathlib.Algebra.Order.BigOperators.Group.List
import Kronos.Sstable.Format

/-!
# Tables that are too large

The builder checks no size, but a file does not hide what it cannot hold. From `2^32` bits on the
builder writes a Bloom filter that no reader takes (`not_openTable_of_bits`), and a block whose size
is cut to 32 bits ends before its last record does, so that no iterator gets through it
(`blockSize_lt_of_complete`). A file that a reader opens and an iterator walks through is therefore
a table that fits (`storable_of_walk`), and it stores its records (`format_honest`).

What the engine reads from a table fits in a block of its own, and the builder puts more than one
record in a block only up to the target size (`blockSize_splitBlocks`).
-/

namespace Kronos

open ByteString SstableBuilder SstableReader Sstable

/-- An iterator that walks to its end yields what it passes. -/
theorem SstableReader.Iterator.walk_yields {H : Hashing} (it : Iterator) :
    ∀ {rs : List TableRecord}, it.walk H = .ok rs → it.Yields H rs := by
  fun_induction walk H it with
  | case1 it hvalid failure hnext =>
    intro rs h
    cases h
  | case2 it hvalid it' hnext ih =>
    intro rs h
    obtain ⟨rs', hrest, h⟩ := bind_eq_ok h
    cases h
    exact .record hvalid hnext (ih hrest)
  | case3 it hvalid =>
    intro rs h
    cases h
    exact .done (eq_false_of_ne_true hvalid)

namespace Sstable

/-! ## What is read from a table -/

/-- The records of a table are those of its blocks, if these are complete. -/
theorem format_records_iff {crc32 : Bytes → UInt32} {reader : SstableReader}
    {rs : List TableRecord} :
    (format crc32).records reader = .ok rs ↔
      ∃ blocks, List.Forall₂ (Complete (.vendored crc32) reader.file) reader.sparseIndex blocks ∧
        rs = allRecords blocks := by
  rw [← Iterator.yields_iff]
  constructor
  · intro h
    obtain ⟨it, hnew, hwalk⟩ := bind_eq_ok h
    exact ⟨it, hnew, it.walk_yields hwalk⟩
  · rintro ⟨it, hnew, hyields⟩
    show (Iterator.new (.vendored crc32) reader >>= fun it => it.walk (.vendored crc32)) = .ok rs
    rw [hnew, ok_bind, hyields.walk]

/-- The records of a block take no more bytes than the block. -/
theorem Begins.blockSize_le {H : Hashing} {file : Bytes} {e : SparseIndexEntry} {count : ℕ}
    {rs : List TableRecord} {rest : Bytes} (h : Begins H file e count rs rest) :
    blockSize rs ≤ e.blockSize := by
  rw [h.checked.size, blockSize]
  simp only [List.length_append, length_toLe]
  omega

/-- A record takes no more bytes than the records that it is one of. -/
theorem blockSize_singleton_le {rs : List TableRecord} {r : TableRecord} (hr : r ∈ rs) :
    blockSize [r] ≤ blockSize rs := by
  obtain ⟨front, back, rfl⟩ := List.append_of_mem hr
  simp only [blockSize, recordsBytes_append, recordsBytes_cons, recordsBytes_nil,
    List.length_append, List.length_nil]
  omega

/-- A record that is read from a table fits in a block of its own. -/
theorem blockSize_lt_of_records {crc32 : Bytes → UInt32} {file : Bytes} {reader : SstableReader}
    {rs : List TableRecord} (hopen : openTable (.vendored crc32) file = .ok reader)
    (h : (format crc32).records reader = .ok rs) :
    ∀ r ∈ rs, blockSize [r] < 2^32 ∧ r.2.sequence < 2^64 := by
  obtain ⟨blocks, hblocks, rfl⟩ := format_records_iff.1 h
  have hsizes := openTable_blockSize hopen
  clear h
  generalize reader.sparseIndex = es at hblocks hsizes
  induction hblocks with
  | nil => simp
  | @cons e block es blocks he _ ih =>
    rw [List.forall_mem_cons] at hsizes
    rw [allRecords_cons, List.forall_mem_append]
    refine ⟨fun r hr => ⟨?_, (he.encodable r hr).sequence⟩, ih hsizes.2⟩
    exact (blockSize_singleton_le hr).trans_lt (he.blockSize_le.trans_lt hsizes.1)

/-! ## What is written to a table -/

/-- A block is not larger than the target size, or it has one record. -/
def Small (targetBlockSize : ℕ) (rs block : List TableRecord) : Prop :=
  blockSize block ≤ targetBlockSize ∨ ∃ r ∈ rs, block = [r]

/-- Splitting makes small blocks. -/
theorem small_splitStep {targetBlockSize : ℕ} {rs : List TableRecord}
    {s : List (List TableRecord) × List TableRecord} {r : TableRecord} (hr : r ∈ rs)
    (hdone : ∀ block ∈ s.1, Small targetBlockSize rs block)
    (hcurrent : s.2 = [] ∨ Small targetBlockSize rs s.2) :
    (∀ block ∈ (splitStep targetBlockSize s r).1, Small targetBlockSize rs block) ∧
      Small targetBlockSize rs (splitStep targetBlockSize s r).2 := by
  unfold splitStep
  split_ifs with hfull
  · have hne : s.2 ≠ [] := mt length_recordsBytes_eq_zero.2 hfull.1
    refine ⟨List.forall_mem_append.2 ⟨hdone, ?_⟩, .inr ⟨r, hr, rfl⟩⟩
    exact List.forall_mem_singleton.2 (hcurrent.resolve_left hne)
  · refine ⟨hdone, ?_⟩
    rcases eq_or_ne s.2 [] with hnil | hne
    · rw [hnil]
      exact .inr ⟨r, hr, rfl⟩
    · -- The block grows only while it stays within the target size.
      left
      have hlen := mt length_recordsBytes_eq_zero.1 hne
      rw [blockSize, recordsBytes_append, recordsBytes_cons, recordsBytes_nil, List.append_nil,
        List.length_append]
      omega

/-- The blocks of a table are small. -/
theorem small_splitBlocks (targetBlockSize : ℕ) (rs : List TableRecord) :
    ∀ block ∈ splitBlocks targetBlockSize rs, Small targetBlockSize rs block := by
  have hfold : ∀ (rs' : List TableRecord) (s : List (List TableRecord) × List TableRecord),
      (∀ r ∈ rs', r ∈ rs) → (∀ block ∈ s.1, Small targetBlockSize rs block) →
        (s.2 = [] ∨ Small targetBlockSize rs s.2) →
          (∀ block ∈ (rs'.foldl (splitStep targetBlockSize) s).1,
            Small targetBlockSize rs block) ∧
          ((rs'.foldl (splitStep targetBlockSize) s).2 = [] ∨
            Small targetBlockSize rs (rs'.foldl (splitStep targetBlockSize) s).2) := by
    intro rs'
    induction rs' with
    | nil => exact fun s _ hdone hcurrent => ⟨hdone, hcurrent⟩
    | cons r rs' ih =>
      intro s hmem hdone hcurrent
      rw [List.forall_mem_cons] at hmem
      obtain ⟨hdone', hcurrent'⟩ := small_splitStep hmem.1 hdone hcurrent
      exact ih _ hmem.2 hdone' (.inr hcurrent')
  obtain ⟨hdone, hcurrent⟩ := hfold rs ([], []) (fun r hr => hr) (by simp) (.inl rfl)
  unfold splitBlocks
  dsimp only
  split_ifs with hnil
  · exact hdone
  · exact List.forall_mem_append.2
      ⟨hdone, List.forall_mem_singleton.2 (hcurrent.resolve_left hnil)⟩

/-- Where the records fit in blocks of their own, the blocks fit. -/
theorem blockSize_splitBlocks {targetBlockSize : ℕ} {rs : List TableRecord}
    (htarget : targetBlockSize < 2^32) (hrs : ∀ r ∈ rs, blockSize [r] < 2^32) :
    ∀ block ∈ splitBlocks targetBlockSize rs, blockSize block < 2^32 := by
  intro block hblock
  rcases small_splitBlocks targetBlockSize rs block hblock with hle | ⟨r, hr, rfl⟩
  · exact hle.trans_lt htarget
  · exact hrs r hr

/-! ## The Bloom filter -/

/-- A Bloom filter that a reader takes has no more bits than 32 bits count. -/
theorem bloomSize_le_of_loadBloomFilter {H : Hashing} {file : Bytes} {offset size : ℕ}
    {filter : BloomFilter} (h : loadBloomFilter H file offset size = .ok filter) :
    size ≤ 12 + 2^29 := by
  unfold loadBloomFilter at h
  split_ifs at h with hsize
  obtain ⟨bytes, hread, h⟩ := bind_eq_ok h
  obtain ⟨payload, hcheck, h⟩ := bind_eq_ok h
  dsimp only at h
  split_ifs at h with hmetadata hcount
  rw [not_not] at hcount
  have hlen : bytes.length = size := by
    unfold readExact at hread
    split_ifs at hread with hshort
    cases hread
    exact length_slice (by omega)
  have hpayload := congrArg List.length (checkPayload_ok hcheck (by omega))
  have hbitCount := ofLe_lt (slice payload 0 4)
  have hfour : (slice payload 0 4).length ≤ 4 := List.length_take_le _ _
  have hpow : 256 ^ (slice payload 0 4).length ≤ 256 ^ 4 :=
    Nat.pow_le_pow_right (by norm_num) hfour
  rw [withChecksum, List.length_append, length_toLe] at hpayload
  rw [List.length_drop] at hcount
  omega

/-- From `2^32` bits on, the builder writes a Bloom filter that no reader takes. -/
theorem not_openTable_of_bits {H : Hashing} {targetBlockSize bitsPerKey : ℕ}
    {rs : List TableRecord} {file : Bytes} (hbitsPerKey : 1 ≤ bitsPerKey) (hne : rs ≠ [])
    (hsorted : Sorted rs) (hbuild : build H targetBlockSize bitsPerKey rs = .ok file)
    (hlarge : 2^32 < bitsPerKey * rs.length) (hfits : bitsPerKey * rs.length + 7 < 2^64)
    (reader : SstableReader) : openTable H file ≠ .ok reader := by
  intro hopen
  obtain ⟨filter, hnew, hsized, hbitCount, -⟩ :=
    BloomFilter.new_sized hbitsPerKey (List.length_pos_iff.2 hne) hfits
  obtain ⟨filter', hadd, hsized', hbitCount', -⟩ :=
    BloomFilter.mayContain_addAll (List.forall_mem_map.2 (hashes_of_build hbuild)) hsized
  rw [build_eq H _ _ hsorted hne, hnew, ok_bind, hadd, ok_bind] at hbuild
  cases hbuild
  have hbytes := hsized'.2
  have hbloom := length_bloomBytes H filter'
  -- The size of the filter stands in the footer, and it is too large.
  have hfooter :=
    @readFooter_mod H (tableBytes H (splitBlocks targetBlockSize rs) filter') _ _ _ _ _
    rfl
  unfold openTable at hopen
  obtain ⟨-, -, hopen⟩ := bind_eq_ok hopen
  rw [hfooter, ok_bind] at hopen
  obtain ⟨loaded, hload, -⟩ := bind_eq_ok hopen
  have hle := bloomSize_le_of_loadBloomFilter hload
  dsimp only at hle
  rw [hbloom, Nat.mod_eq_of_lt (by omega)] at hle
  omega

/-- Nor does it take one with `2^32` bits, whose count is cut to zero. -/
theorem not_loadBloomFilter_of_zero {H : Hashing} {file pre : Bytes} {filter : BloomFilter}
    (h : pre ++ bloomBytes H filter <+: file) (hzero : filter.bitCount % 2^32 = 0)
    (loaded : BloomFilter) :
    loadBloomFilter H file pre.length (bloomBytes H filter).length ≠ .ok loaded := by
  intro hload
  have hread := readExact_eq readMessage h
  have hsize := length_bloomBytes H filter
  generalize hpayload : toLe 4 filter.bitCount ++ toLe 4 filter.probeCount ++ filter.bits = payload
    at *
  have hbitCount : ofLe (slice payload 0 4) = 0 := by
    have hslice : slice payload 0 4 = toLe 4 filter.bitCount :=
      slice_eq (a := []) (by simp [← hpayload]) rfl (length_toLe 4 _)
    rw [hslice, ofLe_toLe]
    exact hzero
  rw [loadBloomFilter, if_neg (by omega), hread, ok_bind, bloomBytes, hpayload,
    checkPayload_withChecksum, ok_bind] at hload
  dsimp only at hload
  rw [if_pos (.inl hbitCount)] at hload
  cases hload

/-! ## Blocks that are cut short -/

/-- As many records are read one way only from the beginning of some bytes. -/
theorem records_unique {rs : List TableRecord} : ∀ {rs' : List TableRecord} {bytes : Bytes},
    rs.length = rs'.length → (∀ r ∈ rs, Encodable r) → (∀ r ∈ rs', Encodable r) →
      recordsBytes rs <+: bytes → recordsBytes rs' <+: bytes → rs = rs' := by
  induction rs with
  | nil =>
    intro rs' bytes hlen _ _ _ _
    exact (List.eq_nil_of_length_eq_zero hlen.symm).symm
  | cons r rs ih =>
    intro rs' bytes hlen hrs hrs' h h'
    cases rs' with
    | nil => cases hlen
    | cons r' rs' =>
      rw [List.forall_mem_cons] at hrs hrs'
      rw [recordsBytes_cons] at h h'
      have hfirst :=
        readRecord_iff.2 ⟨hrs.1, (List.prefix_append _ _).trans h, (Nat.zero_add _).symm⟩
      have hfirst' := readRecord_iff.2
        ⟨hrs'.1, (List.prefix_append _ _).trans h', (Nat.zero_add _).symm⟩
      obtain rfl : r = r' := (Prod.mk.inj (Except.ok.inj (hfirst.symm.trans hfirst'))).1
      obtain ⟨rest, rfl⟩ := (List.prefix_append _ _).trans h
      rw [ih (Nat.succ.inj hlen) hrs.2 hrs'.2 ((List.prefix_append_right_inj _).1 h)
        ((List.prefix_append_right_inj _).1 h')]

/-- A block whose size is cut to 32 bits is not complete: the records that it counts go on behind
its end. -/
theorem blockSize_lt_of_complete {H : Hashing} {file : Bytes} {e : SparseIndexEntry}
    {block : List TableRecord} {complete : List TableRecord × Bytes}
    (h : Complete H file e complete) (hblock : encodeBlock H block <+: file.drop e.blockOffset)
    (hsize : e.blockSize = blockSize block % 2^32) (hlen : block.length < 2^32)
    (hencodable : ∀ r ∈ block, Encodable r) : blockSize block < 2^32 := by
  obtain ⟨records, trailing⟩ := complete
  have hpayload : toLe 4 records.length ++ recordsBytes records <+: file.drop e.blockOffset := by
    have hslice := h.checked.bytes
    rw [withChecksum, slice] at hslice
    have htake : (file.drop e.blockOffset).take e.blockSize <+: file.drop e.blockOffset :=
      List.take_prefix _ _
    rw [hslice, List.append_assoc] at htake
    exact (List.prefix_append _ _).trans htake
  have hrecords : toLe 4 block.length ++ recordsBytes block <+: file.drop e.blockOffset :=
    (List.prefix_append _ _).trans hblock
  -- The record count is the same, and so are as many records behind it.
  have hcount : toLe 4 records.length = toLe 4 block.length :=
    (List.prefix_of_prefix_length_le ((List.prefix_append _ _).trans hpayload)
      ((List.prefix_append _ _).trans hrecords) (by simp)).eq_of_length (by simp)
  have hlength : records.length = block.length := by
    have hlt : records.length < 2^32 := h.count_lt
    have hofLe := congrArg ofLe hcount
    rwa [ofLe_toLe_of_lt (by omega), ofLe_toLe_of_lt (by omega)] at hofLe
  rw [hlength] at hpayload
  obtain ⟨bytes, hbytes⟩ := (List.prefix_append _ _).trans hrecords
  rw [← hbytes] at hpayload hrecords
  have heq : records = block := records_unique hlength h.encodable hencodable
    ((List.prefix_append_right_inj _).1 hpayload) ((List.prefix_append_right_inj _).1 hrecords)
  -- All of them lie before the end of the block.
  have hend := h.checked.size
  simp only [heq, List.length_append, length_toLe] at hend
  have hmod : blockSize block % 2^32 < 2^32 := Nat.mod_lt _ (by norm_num)
  rw [blockSize] at hsize hmod ⊢
  omega

/-- So where the blocks of a table are complete, none of them is cut. -/
theorem blocks_lt_of_complete {H : Hashing} {file : Bytes} {blocks : List (List TableRecord)} :
    ∀ {pre : Bytes} {complete : List (List TableRecord × Bytes)},
      pre ++ (blocks.map (encodeBlock H)).flatten <+: file →
      List.Forall₂ (Complete H file) (indexFrom pre.length blocks) complete →
      (∀ block ∈ blocks, block.length < 2^32 ∧ ∀ r ∈ block, Encodable r) →
      ∀ block ∈ blocks, blockSize block < 2^32 := by
  induction blocks with
  | nil => exact fun _ _ _ block hblock => absurd hblock List.not_mem_nil
  | cons block blocks ih =>
    intro pre complete hbytes hcomplete hblocks
    rw [List.forall_mem_cons] at hblocks ⊢
    rw [indexFrom] at hcomplete
    cases hcomplete with
    | cons hfirst hrest =>
      rw [List.map_cons, List.flatten_cons] at hbytes
      have hblock : encodeBlock H block <+: file.drop pre.length := by
        obtain ⟨rest, hrest⟩ := hbytes
        rw [← hrest, List.append_assoc, List.drop_left' rfl, List.append_assoc]
        exact List.prefix_append _ _
      have hlength : pre.length + blockSize block = (pre ++ encodeBlock H block).length := by
        rw [List.length_append, length_encodeBlock]
      rw [hlength] at hrest
      rw [← List.append_assoc] at hbytes
      exact ⟨blockSize_lt_of_complete hfirst hblock rfl hblocks.1.1 hblocks.1.2,
        ih hbytes hrest hblocks.2⟩

/-! ## What a reader opens -/

/-- The blocks take the bytes of their records, and eight more each. -/
theorem sum_blockSize_eq (blocks : List (List TableRecord)) :
    (blocks.map blockSize).sum = 8 * blocks.length + (recordsBytes blocks.flatten).length := by
  induction blocks with
  | nil => rfl
  | cons block blocks ih =>
    rw [List.map_cons, List.sum_cons, ih, List.length_cons, List.flatten_cons, recordsBytes_append,
      List.length_append, blockSize]
    omega

/-- Their index entries take no more than their records. -/
theorem indexPayloadSize_le {blocks : List (List TableRecord)} (h : ∀ block ∈ blocks, block ≠ []) :
    indexPayloadSize blocks ≤ 4 + (recordsBytes blocks.flatten).length := by
  rw [indexPayloadSize]
  induction blocks with
  | nil => exact Nat.le_refl 4
  | cons block blocks ih =>
    rw [List.forall_mem_cons] at h
    obtain ⟨r, rest, rfl⟩ := List.exists_cons_of_ne_nil h.1
    have hrest := ih h.2
    have hfirst : firstKey (r :: rest) = r.1 := rfl
    rw [List.map_cons, List.sum_cons, List.flatten_cons, recordsBytes_append, List.length_append,
      recordsBytes_cons, List.length_append, length_recordBytes, hfirst]
    omega

/-- The fields of the index have their widths, where the first keys and the offsets do. -/
theorem indexFrom_lt {blocks : List (List TableRecord)} :
    ∀ {offset : ℕ}, (∀ block ∈ blocks, (firstKey block).length < 2^32) →
      offset + (blocks.map blockSize).sum < 2^64 → ∀ e ∈ indexFrom offset blocks,
        e.firstKey.length < 2^32 ∧ e.blockOffset < 2^64 ∧ e.blockSize < 2^32 := by
  induction blocks with
  | nil => exact fun _ _ e he => absurd he List.not_mem_nil
  | cons block blocks ih =>
    intro offset hkeys hsum
    rw [List.forall_mem_cons] at hkeys
    rw [List.map_cons, List.sum_cons] at hsum
    refine List.forall_mem_cons.2 ⟨⟨hkeys.1, ?_, Nat.mod_lt _ (by norm_num)⟩, ih hkeys.2 ?_⟩
    · dsimp only
      omega
    · omega

section Opened

variable {H : Hashing} {targetBlockSize bitsPerKey : ℕ} {rs : List TableRecord} {file : Bytes}

/-- The parts of the file that a build writes. -/
theorem exists_filter_of_build (hbuild : build H targetBlockSize bitsPerKey rs = .ok file)
    (hbits : bitsPerKey * rs.length ≤ 2^32) :
    ∃ filter : BloomFilter, filter.Sized ∧ filter.bitCount = bitsPerKey * rs.length ∧
      file = fileBytes H (dataBytes H (splitBlocks targetBlockSize rs)) filter
        (indexFrom header.length (splitBlocks targetBlockSize rs)) ∧
      (bitsPerKey * rs.length < 2^32 → 0 < filter.probeCount ∧ filter.probeCount < 2^32) := by
  obtain ⟨hsorted, hne, hbitsPerKey⟩ := sorted_of_build hbuild
  have hkeys := List.length_pos_iff.2 hne
  obtain ⟨filter, hnew, hsized, hbitCount, -⟩ :=
    BloomFilter.new_sized (Nat.one_le_iff_ne_zero.2 hbitsPerKey) hkeys (by omega)
  obtain ⟨filter', hadd, hsized', hbitCount', hprobeCount', -⟩ :=
    BloomFilter.mayContain_addAll (List.forall_mem_map.2 (hashes_of_build hbuild)) hsized
  rw [build_eq H _ _ hsorted hne, hnew, ok_bind, hadd, ok_bind] at hbuild
  refine ⟨filter', hsized', hbitCount'.trans hbitCount, (Except.ok.inj hbuild).symm, fun hlt => ?_⟩
  obtain ⟨filter'', hnew'', -, -, hprobes⟩ :=
    BloomFilter.new_spec (Nat.one_le_iff_ne_zero.2 hbitsPerKey) hkeys hlt
  obtain rfl := Except.ok.inj (hnew.symm.trans hnew'')
  rwa [hprobeCount']

/-- Where the records leave room for them, the offsets and sizes of the parts have 64 bits. -/
theorem length_parts_of_room {filter : BloomFilter} (hsized : filter.Sized)
    (hbits : filter.bitCount ≤ 2^32)
    (hroom : (recordsBytes rs).length + 8 * rs.length + 2^30 < 2^64) :
    (dataBytes H (splitBlocks targetBlockSize rs)).length + (bloomBytes H filter).length < 2^64 ∧
      (indexBytes H (indexFrom header.length (splitBlocks targetBlockSize rs))).length < 2^64 := by
  obtain ⟨hflatten, hnonempty⟩ := splitBlocks_spec targetBlockSize rs
  have hcount := length_splitBlocks_le targetBlockSize rs
  have hdata := length_dataBytes H (splitBlocks targetBlockSize rs)
  have hheader : header.length = 8 := rfl
  rw [sum_blockSize_eq, hflatten] at hdata
  have hfilter := hsized.2
  have hpayload := indexPayloadSize_le hnonempty
  rw [hflatten] at hpayload
  rw [length_bloomBytes, length_indexBytes]
  constructor <;> omega

/-- Where the records leave room for offsets of 64 bits, a reader takes the file only with a Bloom
filter that is counted with 32 bits, and knows the blocks as the builder has counted them. -/
theorem openTable_of_build (hbuild : build H targetBlockSize bitsPerKey rs = .ok file)
    (hkeys : ∀ r ∈ rs, r.1.length < 2^32) (hproduct : bitsPerKey * rs.length + 7 < 2^64)
    (hroom : bitsPerKey * rs.length ≤ 2^32 →
      (recordsBytes rs).length + 8 * rs.length + 2^30 < 2^64)
    {reader : SstableReader} (hopen : openTable H file = .ok reader) :
    bitsPerKey * rs.length < 2^32 ∧ reader.file = file ∧
      reader.sparseIndex = indexFrom header.length (splitBlocks targetBlockSize rs) ∧
      dataBytes H (splitBlocks targetBlockSize rs) <+: file := by
  obtain ⟨hsorted, hne, hbitsPerKey⟩ := sorted_of_build hbuild
  obtain ⟨hflatten, hnonempty⟩ := splitBlocks_spec targetBlockSize rs
  have hle : bitsPerKey * rs.length ≤ 2^32 := by
    by_contra hlarge
    exact not_openTable_of_bits (Nat.one_le_iff_ne_zero.2 hbitsPerKey) hne hsorted hbuild
      (not_le.1 hlarge) hproduct reader hopen
  have hroom := hroom hle
  obtain ⟨filter, hsized, hbitCount, rfl, hprobes⟩ := exists_filter_of_build hbuild hle
  obtain ⟨hbloomLen, hindexLen⟩ :=
    @length_parts_of_room H targetBlockSize rs filter hsized (hbitCount.trans_le hle) hroom
  have hprefix : dataBytes H (splitBlocks targetBlockSize rs) ++ bloomBytes H filter <+:
      fileBytes H (dataBytes H (splitBlocks targetBlockSize rs)) filter
        (indexFrom header.length (splitBlocks targetBlockSize rs)) := by
    simp [fileBytes]
  -- With `2^32` bits the count of the bits in the file is zero.
  have hlt : bitsPerKey * rs.length < 2^32 := by
    refine lt_of_le_of_ne hle fun heq => ?_
    unfold openTable at hopen
    obtain ⟨-, -, hopen⟩ := bind_eq_ok hopen
    rw [readFooter_fileBytes H hbloomLen hindexLen, ok_bind] at hopen
    obtain ⟨loaded, hload, -⟩ := bind_eq_ok hopen
    exact not_loadBloomFilter_of_zero hprefix (by rw [hbitCount, heq, Nat.mod_self]) loaded hload
  have hlen : rs.length ≤ bitsPerKey * rs.length :=
    Nat.le_mul_of_pos_left _ (Nat.pos_of_ne_zero hbitsPerKey)
  have hcount := length_splitBlocks_le targetBlockSize rs
  have hdata := length_dataBytes H (splitBlocks targetBlockSize rs)
  have hentries : ∀ e ∈ indexFrom header.length (splitBlocks targetBlockSize rs),
      e.firstKey.length < 2^32 ∧ e.blockOffset < 2^64 ∧ e.blockSize < 2^32 := by
    refine indexFrom_lt (fun block hblock => ?_) (by omega)
    obtain ⟨r, rest, rfl⟩ := List.exists_cons_of_ne_nil (hnonempty block hblock)
    exact hkeys r (hflatten ▸ List.mem_flatten_of_mem hblock (.head _))
  have hheader : header <+: dataBytes H (splitBlocks targetBlockSize rs) := List.prefix_append _ _
  obtain ⟨hprobes, hprobes'⟩ := hprobes hlt
  have hopened := openTable_fileBytes H hheader hsized (hbitCount.trans_lt hlt) hprobes hprobes'
    (by rw [length_indexFrom]; omega) hentries hbloomLen hindexLen
  obtain rfl := Except.ok.inj (hopen.symm.trans hopened)
  exact ⟨hlt, rfl, rfl, (List.prefix_append _ _).trans hprefix⟩

end Opened

/-! ## Tables that are read back -/

section Read

variable {crc32 : Bytes → UInt32} {targetBlockSize bitsPerKey : ℕ} {rs rs' : List TableRecord}
  {file : Bytes} {reader : SstableReader}

/-- A file that a build wrote is a table that fits, if a reader opens it and an iterator walks
through it. -/
theorem storable_of_walk
    (hbuild : build (.vendored crc32) targetBlockSize bitsPerKey rs = .ok file)
    (hencodable : ∀ r ∈ rs, Encodable r) (hproduct : bitsPerKey * rs.length + 7 < 2^64)
    (hroom : bitsPerKey * rs.length ≤ 2^32 →
      (recordsBytes rs).length + 8 * rs.length + 2^30 < 2^64)
    (hopen : openTable (.vendored crc32) file = .ok reader)
    (hrecords : (format crc32).records reader = .ok rs') :
    Storable targetBlockSize bitsPerKey rs := by
  obtain ⟨-, -, hbitsPerKey⟩ := sorted_of_build hbuild
  obtain ⟨hflatten, -⟩ := splitBlocks_spec targetBlockSize rs
  obtain ⟨hlt, hfile, hindex, hdata⟩ :=
    openTable_of_build hbuild (fun r hr => (hencodable r hr).key) hproduct hroom hopen
  obtain ⟨blocks, hcomplete, -⟩ := format_records_iff.1 hrecords
  rw [hfile, hindex] at hcomplete
  have hlen : rs.length ≤ bitsPerKey * rs.length :=
    Nat.le_mul_of_pos_left _ (Nat.pos_of_ne_zero hbitsPerKey)
  refine ⟨blocks_lt_of_complete hdata hcomplete fun block hblock => ⟨?_, fun r hr => ?_⟩, hlt,
    fun r hr => Hashing.hashes_vendored.1 (hashes_of_build hbuild r hr)⟩
  · have hsub := (List.sublist_flatten_of_mem hblock).length_le
    rw [hflatten] at hsub
    omega
  · exact hencodable r (hflatten ▸ List.mem_flatten_of_mem hblock hr)

/-- The bytes of records of a limited size. -/
theorem length_recordsBytes_le {size : ℕ} (h : ∀ r ∈ rs, (recordBytes r).length ≤ size) :
    (recordsBytes rs).length ≤ size * rs.length := by
  induction rs with
  | nil => exact Nat.zero_le _
  | cons r rs ih =>
    rw [List.forall_mem_cons] at h
    have hrest := ih h.2
    rw [recordsBytes_cons, List.length_append, List.length_cons, Nat.mul_add, Nat.mul_one]
    omega

/-- Records that the log takes leave room for offsets of 64 bits, as long as the engine's bits of
their keys are counted with 32. -/
theorem room_of_accepted (haccepted : ∀ r ∈ rs, AcceptedRecord r)
    (hbits : bloomBitsPerKey * rs.length ≤ 2^32) :
    (recordsBytes rs).length + 8 * rs.length + 2^30 < 2^64 := by
  have hsize : (recordsBytes rs).length ≤ (2^33 + 17) * rs.length := by
    refine length_recordsBytes_le fun r hr => ?_
    obtain ⟨-, hkey, hvalue⟩ := haccepted r hr
    rw [uint32Max] at hkey hvalue
    rw [length_recordBytes]
    omega
  rw [bloomBitsPerKey] at hbits
  omega

/-- A file that the engine has built from records that the log takes stores them, if a reader opens
it and an iterator walks through it. -/
theorem format_honest (haccepted : ∀ r ∈ rs, AcceptedRecord r)
    (hbuild : (format crc32).build rs = .ok file)
    (hopen : (format crc32).openTable file = .ok reader)
    (hrecords : (format crc32).records reader = .ok rs') : (format crc32).Stores file rs := by
  obtain ⟨hbuild, hlen⟩ := build_of_tableFormat hbuild
  obtain ⟨hsorted, hne, hbits⟩ := sorted_of_build hbuild
  have hencodable : ∀ r ∈ rs, Encodable r := fun r hr => by
    obtain ⟨hvalid, hkey, hvalue⟩ := haccepted r hr
    rw [uint32Max] at hkey hvalue
    exact ⟨by omega, by omega, hvalid.sequence_lt⟩
  have hproduct : bloomBitsPerKey * rs.length + 7 < 2^64 := by
    rw [maxBloomKeys] at hlen
    rw [bloomBitsPerKey]
    omega
  have hstorable := storable_of_walk hbuild hencodable hproduct
    (fun hbits => room_of_accepted haccepted hbits) hopen hrecords
  obtain ⟨file', hbuild', hstores⟩ :=
    hstorable.stores crc32 hbits hne hsorted fun r hr => (haccepted r hr).valid
  obtain rfl := Except.ok.inj (hbuild.symm.trans hbuild')
  exact hstores.tableFormat

/-- A file is a table through which an iterator walks, and a lookup of a key that is hashed finds
its records if their operations are known. -/
def Walks (crc32 : Bytes → UInt32) (file : Bytes) (rs : List TableRecord) : Prop :=
  ∃ reader, (format crc32).openTable file = .ok reader ∧ (format crc32).records reader = .ok rs ∧
    ((∀ r ∈ rs, KnownOperation r) → ∀ key, MurmurHash3.Fits key →
      (format crc32).lookupEntry reader key = .ok (rs.lookup key))

/-- **Tables that are too large.** Records with increasing keys, each of which fits in a block of
its own, are built into a table through which an iterator walks, if and only if there are bits for
their keys and they fit. The product of the bits and the keys must not wrap in 64 bits, which it
does not for records that fit. -/
theorem tableFormat_walks_iff (hne : rs ≠ []) (hsorted : Sorted rs)
    (hrs : ∀ r ∈ rs, blockSize [r] < 2^32 ∧ r.2.sequence < 2^64)
    (hproduct : bitsPerKey * rs.length + 7 < 2^64) :
    (∃ file, (tableFormat crc32 targetBlockSize bitsPerKey).build rs = .ok file ∧
        Walks crc32 file rs) ↔
      bitsPerKey ≠ 0 ∧ Storable targetBlockSize bitsPerKey rs := by
  have hsizes : ∀ r ∈ rs, 25 + r.1.length + r.2.value.length < 2^32 := fun r hr => by
    have hsize := (hrs r hr).1
    rw [blockSize, recordsBytes_cons, recordsBytes_nil, List.append_nil,
      length_recordBytes] at hsize
    omega
  constructor
  · rintro ⟨file, hbuild, reader, hopen, hrecords, -⟩
    obtain ⟨hbuild, -⟩ := build_of_tableFormat hbuild
    obtain ⟨-, -, hbits⟩ := sorted_of_build hbuild
    have hencodable : ∀ r ∈ rs, Encodable r := fun r hr => by
      have hsize := hsizes r hr
      exact ⟨by omega, by omega, (hrs r hr).2⟩
    refine ⟨hbits, storable_of_walk hbuild hencodable hproduct (fun hle => ?_) hopen hrecords⟩
    have hlen : rs.length ≤ bitsPerKey * rs.length :=
      Nat.le_mul_of_pos_left _ (Nat.pos_of_ne_zero hbits)
    have hsize : (recordsBytes rs).length ≤ (2^32 - 9) * rs.length := by
      refine length_recordsBytes_le fun r hr => ?_
      have := hsizes r hr
      rw [length_recordBytes]
      omega
    omega
  · rintro ⟨hbits, hstorable⟩
    obtain ⟨hlen, hcount⟩ := hstorable.length_lt hbits
    obtain ⟨file, reader, hbuild, hopen, ⟨it, hnew, hyields⟩, hlookup⟩ :=
      build_opens targetBlockSize (Nat.one_le_iff_ne_zero.2 hbits) hne hsorted
        (fun r hr => Hashing.hashes_vendored.2 (hstorable.keys r hr)) (fun r hr => (hrs r hr).2)
        hstorable.blocks hcount hstorable.bloom
    refine ⟨file, tableFormat_build hlen hbuild, reader, hopen, ?_, fun hknown key hkey =>
      hlookup hknown key (Hashing.hashes_vendored.2 hkey)⟩
    show (Iterator.new (.vendored crc32) reader >>= fun it => it.walk (.vendored crc32)) = .ok rs
    rw [hnew, ok_bind, hyields.walk]

end Read

end Sstable

end Kronos
