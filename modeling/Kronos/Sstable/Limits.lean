import Kronos.Sstable.RoundTrip

/-!
# What a table can represent

The log takes a key and a value of up to `2^32 - 1` bytes each, and a flush hands its records to
the builder, which casts block sizes, counts and the size of the Bloom filter to 32 bits without a
check, and the length of a key that it hashes to an `int`. `Represents` says that a build either
throws before it publishes a file, or loses nothing in these casts and leaves a file that stores the
records. It holds exactly if the blocks, the index and the Bloom filter fit and the keys are hashed
(`represents_iff`): a record whose own block is too large breaks it.
-/

namespace Kronos

open ByteString SstableBuilder Sstable

namespace Sstable

/-- A record that the log takes. -/
structure AcceptedRecord (r : TableRecord) : Prop where
  valid : ValidRecord r
  key : r.1.length ≤ uint32Max
  value : r.2.value.length ≤ uint32Max

/-- The bytes of the index that its CRC32 protects: for each block 16 bytes and its first key. -/
def indexPayloadSize (blocks : List (List TableRecord)) : ℕ :=
  4 + (blocks.map fun block => 16 + (firstKey block).length).sum

/-- The size of the Bloom filter of the records, in bits. -/
def bloomBits (bitsPerKey : ℕ) (rs : List TableRecord) : ℕ := bitsPerKey * rs.length

/-- The casts and products of a build keep their values. -/
structure Preserved (targetBlockSize bitsPerKey : ℕ) (rs : List TableRecord) : Prop where
  /-- The `int` that the length of a key becomes in `bloom_filter::add`. -/
  hashLength : ∀ r ∈ rs, MurmurHash3.toInt r.1.length = r.1.length
  keyLength : ∀ r ∈ rs, r.1.length % 2^32 = r.1.length
  valueLength : ∀ r ∈ rs, r.2.value.length % 2^32 = r.2.value.length
  recordCount : ∀ block ∈ splitBlocks targetBlockSize rs, block.length % 2^32 = block.length
  blockChecksum : ∀ block ∈ splitBlocks targetBlockSize rs,
    (recordsBytes block).length % 2^32 = (recordsBytes block).length
  blockSize : ∀ block ∈ splitBlocks targetBlockSize rs, blockSize block % 2^32 = blockSize block
  entryCount : (splitBlocks targetBlockSize rs).length % 2^32 =
    (splitBlocks targetBlockSize rs).length
  indexChecksum : indexPayloadSize (splitBlocks targetBlockSize rs) % 2^32 =
    indexPayloadSize (splitBlocks targetBlockSize rs)
  bitCount : bloomBits bitsPerKey rs % 2^64 % 2^32 = bloomBits bitsPerKey rs
  bitCount_ne : bloomBits bitsPerKey rs ≠ 0
  bloomChecksum : (8 + (bloomBits bitsPerKey rs + 7) / 8) % 2^32 =
    8 + (bloomBits bitsPerKey rs + 7) / 8

/-- A build throws before it publishes a file, or it keeps every value that it narrows and leaves a
file that stores the records. -/
def Represents (H : Hashing) (targetBlockSize bitsPerKey : ℕ) (rs : List TableRecord) : Prop :=
  (∃ message, build H targetBlockSize bitsPerKey rs = .error (.exception message)) ∨
    Preserved targetBlockSize bitsPerKey rs ∧
      ∃ file, build H targetBlockSize bitsPerKey rs = .ok file ∧ Stores H file rs

/-- The sizes that the format counts in 32 bits fit: each block, the index, and the bits of the
Bloom filter. -/
structure Fits (targetBlockSize bitsPerKey : ℕ) (rs : List TableRecord) : Prop where
  blocks : ∀ block ∈ splitBlocks targetBlockSize rs, blockSize block < 2^32
  index : indexPayloadSize (splitBlocks targetBlockSize rs) < 2^32
  bloom : bloomBits bitsPerKey rs < 2^32

/-! ## What fits is represented -/

/-- An index whose payload fits has fewer than `2^32` entries. -/
theorem length_le_indexPayloadSize (blocks : List (List TableRecord)) :
    16 * blocks.length ≤ indexPayloadSize blocks := by
  rw [indexPayloadSize]
  induction blocks with
  | nil => simp
  | cons block blocks ih =>
    rw [List.map_cons, List.sum_cons, List.length_cons]
    omega

/-- A record whose block fits has lengths of 32 bits, with room for its header. -/
theorem lengths_lt_of_blocks {targetBlockSize : ℕ} {rs : List TableRecord}
    (hblocks : ∀ block ∈ splitBlocks targetBlockSize rs, blockSize block < 2^32) :
    ∀ r ∈ rs, r.1.length + 25 < 2^32 ∧ r.2.value.length < 2^32 := by
  obtain ⟨hflatten, -⟩ := splitBlocks_spec targetBlockSize rs
  intro r hr
  rw [← hflatten] at hr
  obtain ⟨block, hblock, hr⟩ := List.mem_flatten.1 hr
  have hsize := hblocks block hblock
  obtain ⟨front, back, rfl⟩ := List.append_of_mem hr
  simp only [Sstable.blockSize, recordsBytes_append, recordsBytes_cons, List.length_append,
    length_recordBytes] at hsize
  omega

/-- The length of a key that is hashed keeps its value as an `int`, unless it is close to `2^32`. -/
theorem toInt_of_fits {key : Bytes} (h : MurmurHash3.Fits key) (hlen : key.length + 25 < 2^32) :
    MurmurHash3.toInt key.length = key.length := by
  unfold MurmurHash3.Fits at h
  have hmod : key.length % 2^32 = key.length := Nat.mod_eq_of_lt (by omega)
  rw [MurmurHash3.toInt, hmod, if_pos (by omega)]

/-- A key whose length keeps its value as an `int` is hashed. -/
theorem fits_of_toInt {key : Bytes} (h : MurmurHash3.toInt key.length = key.length) :
    MurmurHash3.Fits key := by
  unfold MurmurHash3.toInt at h
  split_ifs at h with hsmall
  · exact .inl hsmall
  · have hmod : key.length % 2^32 < 2^32 := Nat.mod_lt _ (by norm_num)
    omega

/-- Where everything fits, nothing is lost. -/
theorem Fits.preserved {targetBlockSize bitsPerKey : ℕ} {rs : List TableRecord}
    (h : Fits targetBlockSize bitsPerKey rs) (hkeys : ∀ r ∈ rs, MurmurHash3.Fits r.1)
    (hbits : bitsPerKey ≠ 0) (hne : rs ≠ []) : Preserved targetBlockSize bitsPerKey rs := by
  obtain ⟨hblocks, hindex, hbloom⟩ := h
  have hlengths := lengths_lt_of_blocks hblocks
  have hcount := length_le_indexPayloadSize (splitBlocks targetBlockSize rs)
  have hpos : bloomBits bitsPerKey rs ≠ 0 :=
    Nat.mul_ne_zero hbits (mt List.eq_nil_of_length_eq_zero hne)
  refine ⟨fun r hr => toInt_of_fits (hkeys r hr) (hlengths r hr).1,
    fun r hr => Nat.mod_eq_of_lt (by have := (hlengths r hr).1; omega),
    fun r hr => Nat.mod_eq_of_lt (hlengths r hr).2, fun block hblock => ?_, fun block hblock => ?_,
    fun block hblock => Nat.mod_eq_of_lt (hblocks block hblock), Nat.mod_eq_of_lt (by omega),
    Nat.mod_eq_of_lt hindex, ?_, hpos, Nat.mod_eq_of_lt (by omega)⟩
  · have hsize := hblocks block hblock
    have hrecords := length_recordsBytes_ge block
    rw [Sstable.blockSize] at hsize
    exact Nat.mod_eq_of_lt (by omega)
  · have hsize := hblocks block hblock
    rw [Sstable.blockSize] at hsize
    exact Nat.mod_eq_of_lt (by omega)
  · rw [Nat.mod_eq_of_lt (by omega : bloomBits bitsPerKey rs < 2^64), Nat.mod_eq_of_lt hbloom]

/-- What keeps its values fits. -/
theorem Preserved.fits {targetBlockSize bitsPerKey : ℕ} {rs : List TableRecord}
    (h : Preserved targetBlockSize bitsPerKey rs) : Fits targetBlockSize bitsPerKey rs := by
  refine ⟨fun block hblock => ?_, ?_, ?_⟩
  · rw [← h.blockSize block hblock]
    exact Nat.mod_lt _ (by norm_num)
  · rw [← h.indexChecksum]
    exact Nat.mod_lt _ (by norm_num)
  · rw [← h.bitCount]
    exact Nat.mod_lt _ (by norm_num)

/-- There are no more blocks than records. -/
theorem length_splitBlocks_le (targetBlockSize : ℕ) (rs : List TableRecord) :
    (splitBlocks targetBlockSize rs).length ≤ rs.length := by
  obtain ⟨hflatten, hnonempty⟩ := splitBlocks_spec targetBlockSize rs
  generalize splitBlocks targetBlockSize rs = blocks at hflatten hnonempty
  rw [← hflatten]
  clear hflatten
  induction blocks with
  | nil => exact Nat.le_refl 0
  | cons block blocks ih =>
    rw [List.forall_mem_cons] at hnonempty
    have hpos := List.length_pos_iff.2 hnonempty.1
    have hrest := ih hnonempty.2
    rw [List.length_cons, List.flatten_cons, List.length_append]
    omega

/-- What a table must fit to be written and read back: each block and the bits of the Bloom filter
are counted with 32 bits, and the keys are hashed. An index that does not fit is read back all the
same, for its size has 64 bits in the footer. -/
structure Storable (targetBlockSize bitsPerKey : ℕ) (rs : List TableRecord) : Prop where
  blocks : ∀ block ∈ splitBlocks targetBlockSize rs, blockSize block < 2^32
  bloom : bloomBits bitsPerKey rs < 2^32
  keys : ∀ r ∈ rs, MurmurHash3.Fits r.1

/-- The blocks of such a table are counted with 32 bits. -/
theorem Storable.length_lt {targetBlockSize bitsPerKey : ℕ} {rs : List TableRecord}
    (h : Storable targetBlockSize bitsPerKey rs) (hbits : bitsPerKey ≠ 0) :
    rs.length < 2^32 ∧ (splitBlocks targetBlockSize rs).length < 2^32 := by
  have hlen : rs.length ≤ bloomBits bitsPerKey rs :=
    Nat.le_mul_of_pos_left _ (Nat.pos_of_ne_zero hbits)
  have hrs := hlen.trans_lt h.bloom
  exact ⟨hrs, (length_splitBlocks_le targetBlockSize rs).trans_lt hrs⟩

/-- It is built into a file that stores it. -/
theorem Storable.stores (crc32 : Bytes → UInt32) {targetBlockSize bitsPerKey : ℕ}
    {rs : List TableRecord} (h : Storable targetBlockSize bitsPerKey rs) (hbits : bitsPerKey ≠ 0)
    (hne : rs ≠ []) (hsorted : Sorted rs) (hvalid : ∀ r ∈ rs, ValidRecord r) :
    ∃ file, build (.vendored crc32) targetBlockSize bitsPerKey rs = .ok file ∧
      Stores (.vendored crc32) file rs :=
  exists_stores targetBlockSize (Nat.one_le_iff_ne_zero.2 hbits) hne hsorted
    (fun r hr => Hashing.hashes_vendored.2 (h.keys r hr)) hvalid h.blocks (h.length_lt hbits).2
    h.bloom

/-! ## When a build throws -/

/-- A build over records with increasing keys throws only if it has none, or no bits for their
keys. -/
theorem build_throws_iff (H : Hashing) (targetBlockSize bitsPerKey : ℕ) {rs : List TableRecord}
    (hsorted : Sorted rs) :
    (∃ message, build H targetBlockSize bitsPerKey rs = .error (.exception message)) ↔
      rs = [] ∨ bitsPerKey = 0 := by
  by_cases hne : rs = []
  · subst hne
    exact ⟨fun _ => .inl rfl, fun _ => ⟨_, rfl⟩⟩
  have hlen : rs.length ≠ 0 := mt List.eq_nil_of_length_eq_zero hne
  rw [build_eq H _ _ hsorted hne]
  by_cases hbits : bitsPerKey = 0
  · rw [BloomFilter.new, if_pos (.inr hbits)]
    exact ⟨fun _ => .inr hbits, fun _ => ⟨_, rfl⟩⟩
  obtain ⟨filter, hnew⟩ : ∃ filter, BloomFilter.new bitsPerKey rs.length = .ok filter := by
    rw [BloomFilter.new, if_neg (by simp [hlen, hbits])]
    exact ⟨_, rfl⟩
  rw [hnew, ok_bind]
  simp only [hne, hbits, or_self, iff_false]
  rintro ⟨message, h⟩
  cases hfold : (rs.map Prod.fst).foldlM (BloomFilter.add H) filter with
  | ok filter' =>
    rw [hfold] at h
    cases h
  | error failure =>
    rw [hfold] at h
    cases h
    exact BloomFilter.foldlM_add_ne_exception H _ _ _ hfold

/-- **What a table can represent.** Whatever `crc32` is, over records that the log takes, in the
order of their keys, a build represents them if and only if there are none, or there are no bits for
their keys, or their blocks, their index and their Bloom filter fit in 32 bits and their keys are
hashed. -/
theorem represents_iff (crc32 : Bytes → UInt32) (targetBlockSize bitsPerKey : ℕ)
    {rs : List TableRecord} (hsorted : Sorted rs) (haccepted : ∀ r ∈ rs, AcceptedRecord r) :
    Represents (.vendored crc32) targetBlockSize bitsPerKey rs ↔
      rs = [] ∨ bitsPerKey = 0 ∨
        Fits targetBlockSize bitsPerKey rs ∧ ∀ r ∈ rs, MurmurHash3.Fits r.1 := by
  rw [Represents, build_throws_iff _ _ _ hsorted, or_assoc]
  refine or_congr_right' fun hne => or_congr_right' fun hbits => ⟨fun h => ?_, fun ⟨h, hkeys⟩ => ?_⟩
  · exact ⟨h.1.fits, fun r hr => fits_of_toInt (h.1.hashLength r hr)⟩
  · have hstorable : Storable targetBlockSize bitsPerKey rs := ⟨h.blocks, h.bloom, hkeys⟩
    exact ⟨h.preserved hkeys hbits hne,
      hstorable.stores crc32 hbits hne hsorted fun r hr => (haccepted r hr).valid⟩

/-- Two records, each in a block of its own. -/
theorem represents_iff_two :
    Represents (.vendored byteSum.crc32) 0 10 [([], ⟨[1], 7, .put⟩), ([97], ⟨[], 8, .delete⟩)] ↔
      [([], ⟨[1], 7, .put⟩), ([97], ⟨[], 8, .delete⟩)] = ([] : List TableRecord) ∨ 10 = 0 ∨
        Fits 0 10 [([], ⟨[1], 7, .put⟩), ([97], ⟨[], 8, .delete⟩)] ∧
          ∀ r ∈ [([], ⟨[1], 7, .put⟩), (([97], ⟨[], 8, .delete⟩) : TableRecord)],
            MurmurHash3.Fits r.1 :=
  represents_iff byteSum.crc32 0 10 (by simp [Sorted]) (by
    simp only [List.forall_mem_cons, List.not_mem_nil, false_implies, implies_true, and_true]
    exact ⟨⟨⟨by decide, .inl rfl⟩, by decide, by decide⟩,
      ⟨⟨by decide, .inr rfl⟩, by decide, by decide⟩⟩)

/-! ## When a build returns -/

/-- A record that is added lies behind the last key. -/
theorem lastKey_of_add {H : Hashing} {builder builder' : SstableBuilder} {r : TableRecord}
    (h : builder.add H r = .ok builder') :
    (∀ last ∈ builder.lastKey, last < r.1) ∧ builder'.lastKey = some r.1 := by
  unfold SstableBuilder.add at h
  split_ifs at h with hlast
  all_goals
    cases h
    refine ⟨fun last hmem => ?_, rfl⟩
    exact not_le.1 fun hle => hlast ⟨last, hmem, hle⟩

/-- Records that were added one after the other have increasing keys. -/
theorem sorted_of_foldlM_add {H : Hashing} (rs : List TableRecord) :
    ∀ {done : List TableRecord} {builder builder' : SstableBuilder},
      builder.lastKey = (done.map Prod.fst).getLast? → Sorted done →
      rs.foldlM (SstableBuilder.add H) builder = .ok builder' → Sorted (done ++ rs) := by
  induction rs with
  | nil =>
    intro done builder builder' _ hsorted _
    rwa [List.append_nil]
  | cons r rs ih =>
    intro done builder builder' hlast hsorted h
    rw [List.foldlM_cons] at h
    obtain ⟨next, hadd, h⟩ := bind_eq_ok h
    obtain ⟨hlt, hlast'⟩ := lastKey_of_add hadd
    rw [List.append_cons]
    refine ih (by rw [hlast']; simp) (List.pairwise_append.2 ⟨hsorted,
      List.pairwise_singleton _ _, fun r₁ hr₁ r₂ hr₂ => ?_⟩) h
    rw [List.mem_singleton.1 hr₂]
    -- The last record before `r` has the largest key of them.
    rcases List.eq_nil_or_concat' done with rfl | ⟨front, last, rfl⟩
    · cases hr₁
    · have hle : r₁.1 ≤ last.1 := hsorted.le_last (by simp) hr₁
      exact hle.trans_lt (hlt last.1 (by simp [hlast]))

/-- A build that returns had records with increasing keys, and bits for them. -/
theorem sorted_of_build {H : Hashing} {file : Bytes} {targetBlockSize bitsPerKey : ℕ}
    {rs : List TableRecord}
    (h : build H targetBlockSize bitsPerKey rs = .ok file) :
    Sorted rs ∧ rs ≠ [] ∧ bitsPerKey ≠ 0 := by
  have hsorted : Sorted rs := by
    unfold build at h
    obtain ⟨builder, hadd, -⟩ := bind_eq_ok h
    exact @sorted_of_foldlM_add H rs [] _ _ rfl .nil hadd
  have hthrows : ¬(rs = [] ∨ bitsPerKey = 0) := by
    rw [← build_throws_iff H targetBlockSize bitsPerKey hsorted, h]
    rintro ⟨message, hthrows⟩
    cases hthrows
  rw [not_or] at hthrows
  exact ⟨hsorted, hthrows⟩

/-- A build that returns has hashed the keys, and added them to the filter that it has written. -/
theorem hashes_of_build {H : Hashing} {file : Bytes} {targetBlockSize bitsPerKey : ℕ}
    {rs : List TableRecord} (h : build H targetBlockSize bitsPerKey rs = .ok file) :
    ∀ r ∈ rs, H.Hashes r.1 := by
  obtain ⟨hsorted, hne, -⟩ := sorted_of_build h
  rw [build_eq H _ _ hsorted hne] at h
  obtain ⟨filter, -, h⟩ := bind_eq_ok h
  obtain ⟨filter', hadd, -⟩ := bind_eq_ok h
  exact List.forall_mem_map.1 (BloomFilter.hashes_of_addAll hadd)

/-- The index takes its payload and a CRC32. -/
theorem length_indexBytes (H : Hashing) (blocks : List (List TableRecord)) :
    ∀ offset, (indexBytes H (indexFrom offset blocks)).length = indexPayloadSize blocks + 4 := by
  have hentries : ∀ offset, ((indexFrom offset blocks).map indexEntryBytes).flatten.length =
      (blocks.map fun block => 16 + (firstKey block).length).sum := by
    induction blocks with
    | nil => exact fun offset => rfl
    | cons block blocks ih =>
      intro offset
      simp only [indexFrom, List.map_cons, List.flatten_cons, List.length_append, ih, List.sum_cons,
        indexEntryBytes, length_toLe]
      omega
  intro offset
  simp only [indexBytes, withChecksum, List.length_append, length_toLe, hentries, indexPayloadSize]

/-! ## A record that is too large -/

/-- A table with one record is split into one block. -/
theorem splitBlocks_singleton (targetBlockSize : ℕ) (r : TableRecord) :
    splitBlocks targetBlockSize [r] = [[r]] := by
  simp [splitBlocks, splitStep]

/-- A record that exceeds a block size alone is not represented. -/
theorem not_represents_of_large (H : Hashing) (targetBlockSize : ℕ) {bitsPerKey : ℕ}
    {r : TableRecord} (hbits : bitsPerKey ≠ 0) (hlarge : 2^32 ≤ blockSize [r]) :
    ¬Represents H targetBlockSize bitsPerKey [r] := by
  rintro (hthrows | ⟨hpreserved, -⟩)
  · rcases (build_throws_iff H _ _ (List.pairwise_singleton _ _)).1 hthrows with h | h
    · exact List.cons_ne_nil _ _ h
    · exact hbits h
  · have hblock : [r] ∈ splitBlocks targetBlockSize [r] := by
      rw [splitBlocks_singleton]
      exact .head _
    exact absurd (hpreserved.fits.blocks [r] hblock) (Nat.not_lt.2 hlarge)

/-- A record whose value has `2^32 - 1` bytes exceeds a block size, with its header and that of the
block. -/
theorem blockSize_of_largest {value : Bytes} (h : value.length = uint32Max) :
    2^32 ≤ blockSize [([], ⟨value, 0, .put⟩)] := by
  rw [blockSize, recordsBytes_cons, recordsBytes_nil, List.append_nil, length_recordBytes, h,
    uint32Max]
  omega

/-- The largest value that the log takes. -/
@[irreducible] def largestValue : Bytes := List.replicate uint32Max 0

/-- The value has the largest length that a record can give. -/
theorem length_largestValue : largestValue.length = uint32Max := by
  rw [largestValue, List.length_replicate]

/-- A record with this value is taken by the log, but whatever the target size and the hash
functions are, no build represents it. -/
theorem largestValue_not_represented :
    AcceptedRecord ([], ⟨largestValue, 0, .put⟩) ∧
      ¬∃ (H : Hashing) (targetBlockSize : ℕ),
        Represents H targetBlockSize 10 [([], ⟨largestValue, 0, .put⟩)] := by
  have hlarge := blockSize_of_largest length_largestValue
  refine ⟨⟨⟨Nat.two_pow_pos 64, .inl rfl⟩, Nat.zero_le _, length_largestValue.le⟩, ?_⟩
  rintro ⟨H, targetBlockSize, h⟩
  exact not_represents_of_large H targetBlockSize (by norm_num) hlarge h

end Sstable

end Kronos
