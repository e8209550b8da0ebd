import Kronos.Sstable.Builder
import Kronos.Base.OrderedMap

/-!
# The layout of a table

What the builder writes, as a function of the records: the blocks into which they are split
(`splitBlocks`), one behind the other, an index entry for each of them (`indexFrom`), and the
Bloom filter of all keys (`tableBytes`). `build_eq` shows that a build over records with increasing
keys writes this.
-/

namespace Kronos.Sstable

open ByteString SstableBuilder

/-! ## Blocks -/

/-- The serialized records of a block. -/
def recordsBytes (rs : List TableRecord) : Bytes := (rs.map recordBytes).flatten

/-- The bytes of a block of records. -/
def encodeBlock (H : Hashing) (rs : List TableRecord) : Bytes :=
  blockBytes H rs.length (recordsBytes rs)

/-- The size of a block in the file. -/
def blockSize (rs : List TableRecord) : ℕ := 4 + (recordsBytes rs).length + 4

/-- The first key of a block. -/
def firstKey (rs : List TableRecord) : Bytes := (rs.head?.map Prod.fst).getD []

/-- The splitting of records into blocks, one record after the other: the blocks that are complete,
and the current one. -/
def splitStep (targetBlockSize : ℕ) (s : List (List TableRecord) × List TableRecord)
    (r : TableRecord) : List (List TableRecord) × List TableRecord :=
  if (recordsBytes s.2).length ≠ 0 ∧
      4 + (recordsBytes s.2).length + (recordBytes r).length + 4 > targetBlockSize then
    (s.1 ++ [s.2], [r])
  else (s.1, s.2 ++ [r])

/-- The blocks into which the records are split. -/
def splitBlocks (targetBlockSize : ℕ) (rs : List TableRecord) : List (List TableRecord) :=
  let s := rs.foldl (splitStep targetBlockSize) ([], [])
  if s.2 = [] then s.1 else s.1 ++ [s.2]

/-- The index entries of blocks that lie one behind the other from an offset on. The size has 32
bits. -/
def indexFrom : ℕ → List (List TableRecord) → List SparseIndexEntry
  | _, [] => []
  | offset, block :: blocks =>
    ⟨firstKey block, offset, blockSize block % 2^32⟩ ::
      indexFrom (offset + blockSize block) blocks

/-- The header and the blocks. -/
def dataBytes (H : Hashing) (blocks : List (List TableRecord)) : Bytes :=
  header ++ (blocks.map (encodeBlock H)).flatten

/-- The bytes of a table of these blocks, with a Bloom filter. -/
def tableBytes (H : Hashing) (blocks : List (List TableRecord)) (filter : BloomFilter) : Bytes :=
  let data := dataBytes H blocks
  let bloom := bloomBytes H filter
  let index := indexBytes H (indexFrom header.length blocks)
  data ++ bloom ++ index ++
    footerBytes H data.length bloom.length (data.length + bloom.length) index.length

/-- A record has a head of 17 bytes, its key and its value. -/
@[simp] theorem length_recordBytes (r : TableRecord) :
    (recordBytes r).length = 17 + r.1.length + r.2.value.length := by
  simp [recordBytes]
  omega

/-- No records have no bytes. -/
@[simp] theorem recordsBytes_nil : recordsBytes [] = [] := rfl

/-- The bytes of a record come before those of the records behind it. -/
@[simp] theorem recordsBytes_cons (r : TableRecord) (rs : List TableRecord) :
    recordsBytes (r :: rs) = recordBytes r ++ recordsBytes rs := rfl

/-- The bytes of two parts of a list are those of one behind those of the other. -/
@[simp] theorem recordsBytes_append (rs rs' : List TableRecord) :
    recordsBytes (rs ++ rs') = recordsBytes rs ++ recordsBytes rs' := by
  simp [recordsBytes]

/-- Each record takes 17 bytes or more. -/
theorem length_recordsBytes_ge (rs : List TableRecord) :
    17 * rs.length ≤ (recordsBytes rs).length := by
  induction rs with
  | nil => rfl
  | cons r rs ih =>
    rw [recordsBytes_cons, List.length_append, length_recordBytes, List.length_cons]
    omega

/-- Only a block without records has no bytes. -/
theorem length_recordsBytes_eq_zero {rs : List TableRecord} :
    (recordsBytes rs).length = 0 ↔ rs = [] := by
  refine ⟨fun h => ?_, fun h => by rw [h]; rfl⟩
  have := length_recordsBytes_ge rs
  exact List.eq_nil_of_length_eq_zero (by omega)

/-- A block has its size. -/
@[simp] theorem length_encodeBlock (H : Hashing) (rs : List TableRecord) :
    (encodeBlock H rs).length = blockSize rs := by
  simp [encodeBlock, blockBytes, blockSize, Nat.add_assoc]

/-- One more block adds an entry for what lies behind the others. -/
theorem indexFrom_append (offset : ℕ) (blocks : List (List TableRecord))
    (block : List TableRecord) : indexFrom offset (blocks ++ [block]) =
      indexFrom offset blocks ++ [⟨firstKey block, offset + (blocks.map blockSize).sum,
        blockSize block % 2^32⟩] := by
  induction blocks generalizing offset with
  | nil => simp [indexFrom]
  | cons b blocks ih => simp [indexFrom, ih, Nat.add_assoc]

/-- The index has an entry for each block. -/
@[simp] theorem length_indexFrom (offset : ℕ) (blocks : List (List TableRecord)) :
    (indexFrom offset blocks).length = blocks.length := by
  induction blocks generalizing offset with
  | nil => rfl
  | cons b blocks ih => simp [indexFrom, ih]

/-- The data are the header and the blocks. -/
theorem length_dataBytes (H : Hashing) (blocks : List (List TableRecord)) :
    (dataBytes H blocks).length = header.length + (blocks.map blockSize).sum := by
  rw [dataBytes, List.length_append, List.length_flatten, List.map_map]
  congr 2
  exact List.map_congr_left fun block _ => length_encodeBlock H block

/-- One more block is written behind the others. -/
@[simp] theorem dataBytes_append (H : Hashing) (blocks : List (List TableRecord))
    (block : List TableRecord) :
    dataBytes H (blocks ++ [block]) = dataBytes H blocks ++ encodeBlock H block := by
  simp [dataBytes]

/-! ## The builder -/

/-- The state of the builder with these complete blocks and this current one. -/
def builderAt (H : Hashing) (targetBlockSize bitsPerKey : ℕ)
    (s : List (List TableRecord) × List TableRecord) : SstableBuilder where
  file := dataBytes H s.1
  targetBlockSize := targetBlockSize
  bitsPerKey := bitsPerKey
  currentBlock := recordsBytes s.2
  currentBlockRecordCount := s.2.length
  currentBlockFirstKey := firstKey s.2
  sparseIndex := indexFrom header.length s.1
  bloomKeys := (s.1.flatten ++ s.2).map Prod.fst
  lastKey := ((s.1.flatten ++ s.2).map Prod.fst).getLast?

/-- Before the first record the builder is new. -/
theorem builderAt_nil (H : Hashing) (targetBlockSize bitsPerKey : ℕ) :
    builderAt H targetBlockSize bitsPerKey ([], []) = new targetBlockSize bitsPerKey := by
  simp [builderAt, new, dataBytes, indexFrom, firstKey]

/-- Flushing completes the current block. -/
theorem flushCurrentBlock_builderAt (H : Hashing) (targetBlockSize bitsPerKey : ℕ)
    (done : List (List TableRecord)) {current : List TableRecord} (h : current ≠ []) :
    (builderAt H targetBlockSize bitsPerKey (done, current)).flushCurrentBlock H =
      builderAt H targetBlockSize bitsPerKey (done ++ [current], []) := by
  have hlen : ¬(builderAt H targetBlockSize bitsPerKey (done, current)).currentBlock.length = 0 :=
    mt length_recordsBytes_eq_zero.1 h
  rw [flushCurrentBlock, if_neg hlen]
  simp [builderAt, dataBytes_append, indexFrom_append, encodeBlock, blockSize, length_dataBytes,
    firstKey]

/-- The first key of a block, when a record is added to it. -/
theorem firstKey_append (current : List TableRecord) (r : TableRecord) :
    firstKey (current ++ [r]) =
      if (recordsBytes current).length = 0 then r.1 else firstKey current := by
  cases current with
  | nil => rfl
  | cons r' current =>
    rw [if_neg (mt length_recordsBytes_eq_zero.1 (List.cons_ne_nil _ _))]
    rfl

/-- Adding a record behind all keys is a step of the splitting. -/
theorem add_builderAt (H : Hashing) (targetBlockSize bitsPerKey : ℕ)
    (s : List (List TableRecord) × List TableRecord) {r : TableRecord}
    (h : ∀ r' ∈ s.1.flatten ++ s.2, r'.1 < r.1) :
    (builderAt H targetBlockSize bitsPerKey s).add H r =
      .ok (builderAt H targetBlockSize bitsPerKey (splitStep targetBlockSize s r)) := by
  obtain ⟨done, current⟩ := s
  have hlast : ¬∃ last ∈ (builderAt H targetBlockSize bitsPerKey (done, current)).lastKey,
      r.1 ≤ last := by
    rintro ⟨last, hlast, hle⟩
    obtain ⟨r', hr', rfl⟩ := List.mem_map.1 (List.mem_of_getLast? hlast)
    exact absurd hle (not_le.2 (h r' hr'))
  rw [add, if_neg hlast, splitStep]
  dsimp only
  by_cases hfull : (recordsBytes current).length ≠ 0 ∧
      4 + (recordsBytes current).length + (recordBytes r).length + 4 > targetBlockSize
  · have hfull' : (builderAt H targetBlockSize bitsPerKey (done, current)).currentBlock.length ≠ 0 ∧
        4 + (builderAt H targetBlockSize bitsPerKey (done, current)).currentBlock.length +
          (recordBytes r).length + 4 >
          (builderAt H targetBlockSize bitsPerKey (done, current)).targetBlockSize := hfull
    rw [if_pos hfull', if_pos hfull,
      flushCurrentBlock_builderAt H _ _ done (mt length_recordsBytes_eq_zero.2 hfull.1)]
    simp [builderAt, firstKey]
  · have hfull' :
      ¬((builderAt H targetBlockSize bitsPerKey (done, current)).currentBlock.length ≠ 0 ∧
        4 + (builderAt H targetBlockSize bitsPerKey (done, current)).currentBlock.length +
          (recordBytes r).length + 4 >
          (builderAt H targetBlockSize bitsPerKey (done, current)).targetBlockSize) := hfull
    rw [if_neg hfull', if_neg hfull]
    simp [builderAt, firstKey_append]

/-- Splitting keeps the records, and completes no block without records. -/
theorem splitStep_spec (targetBlockSize : ℕ) (s : List (List TableRecord) × List TableRecord)
    (r : TableRecord) (h : ∀ block ∈ s.1, block ≠ []) :
    (splitStep targetBlockSize s r).1.flatten ++ (splitStep targetBlockSize s r).2 =
        s.1.flatten ++ s.2 ++ [r] ∧
      (splitStep targetBlockSize s r).2 ≠ [] ∧
      ∀ block ∈ (splitStep targetBlockSize s r).1, block ≠ [] := by
  unfold splitStep
  split_ifs with hfull
  · refine ⟨by simp, by simp, fun block hblock => ?_⟩
    rcases List.mem_append.1 hblock with hblock | hblock
    · exact h block hblock
    · rw [List.mem_singleton.1 hblock]
      exact mt length_recordsBytes_eq_zero.2 hfull.1
  · exact ⟨by simp, by simp, h⟩

/-- The splitting keeps the records in their order, and leaves no block empty. -/
theorem foldl_splitStep_spec (targetBlockSize : ℕ) (rs : List TableRecord) :
    ∀ s : List (List TableRecord) × List TableRecord, (∀ block ∈ s.1, block ≠ []) →
      (rs.foldl (splitStep targetBlockSize) s).1.flatten ++
          (rs.foldl (splitStep targetBlockSize) s).2 = s.1.flatten ++ s.2 ++ rs ∧
        ∀ block ∈ (rs.foldl (splitStep targetBlockSize) s).1, block ≠ [] := by
  induction rs with
  | nil =>
    intro s h
    exact ⟨by simp, h⟩
  | cons r rs ih =>
    intro s h
    obtain ⟨hflatten, -, hblocks⟩ := splitStep_spec targetBlockSize s r h
    obtain ⟨hall, hne⟩ := ih _ hblocks
    exact ⟨by rw [List.foldl_cons, hall, hflatten, List.append_assoc _ [r]]; rfl, hne⟩

/-- The blocks hold the records in order, and each holds some. -/
theorem splitBlocks_spec (targetBlockSize : ℕ) (rs : List TableRecord) :
    (splitBlocks targetBlockSize rs).flatten = rs ∧
      ∀ block ∈ splitBlocks targetBlockSize rs, block ≠ [] := by
  obtain ⟨hall, hne⟩ := foldl_splitStep_spec targetBlockSize rs ([], []) (by simp)
  unfold splitBlocks
  dsimp only
  split_ifs with hcurrent
  · rw [hcurrent] at hall
    exact ⟨by simpa using hall, hne⟩
  · refine ⟨by simpa using hall, fun block hblock => ?_⟩
    rcases List.mem_append.1 hblock with hblock | hblock
    · exact hne block hblock
    · rwa [List.mem_singleton.1 hblock]

/-- Adding records with increasing keys splits them. -/
theorem foldlM_add_builderAt (H : Hashing) (targetBlockSize bitsPerKey : ℕ)
    (rs : List TableRecord) : ∀ s : List (List TableRecord) × List TableRecord,
      Sorted (s.1.flatten ++ s.2 ++ rs) → (∀ block ∈ s.1, block ≠ []) →
      rs.foldlM (add H) (builderAt H targetBlockSize bitsPerKey s) =
        .ok (builderAt H targetBlockSize bitsPerKey (rs.foldl (splitStep targetBlockSize) s)) := by
  induction rs with
  | nil =>
    intro s _ _
    rfl
  | cons r rs ih =>
    intro s hsorted h
    obtain ⟨hflatten, -, hblocks⟩ := splitStep_spec targetBlockSize s r h
    rw [List.append_cons] at hsorted
    have hlt := hsorted.append_left.lt_of_append
    rw [List.foldlM_cons, add_builderAt H _ _ s fun r' hr' => hlt r' hr' r (.head _)]
    exact ih (splitStep targetBlockSize s r) (by rwa [hflatten]) hblocks

/-- Flushing the last block completes the splitting. -/
theorem flushCurrentBlock_splitBlocks (H : Hashing) (targetBlockSize bitsPerKey : ℕ)
    (rs : List TableRecord) :
    (builderAt H targetBlockSize bitsPerKey
      (rs.foldl (splitStep targetBlockSize) ([], []))).flushCurrentBlock H =
      builderAt H targetBlockSize bitsPerKey (splitBlocks targetBlockSize rs, []) := by
  unfold splitBlocks
  dsimp only
  generalize rs.foldl (splitStep targetBlockSize) ([], []) = s
  obtain ⟨done, current⟩ := s
  split_ifs with hcurrent
  · dsimp only at hcurrent
    rw [hcurrent]
    exact if_pos rfl
  · exact flushCurrentBlock_builderAt H _ _ done hcurrent

/-- A build over records with increasing keys writes the table of their blocks, with a new Bloom
filter to which the keys were added. -/
theorem build_eq (H : Hashing) (targetBlockSize bitsPerKey : ℕ) {rs : List TableRecord}
    (h : Sorted rs) (hne : rs ≠ []) :
    build H targetBlockSize bitsPerKey rs = (do
      let filter ← BloomFilter.new bitsPerKey rs.length
      let filter ← (rs.map Prod.fst).foldlM (BloomFilter.add H) filter
      .ok (tableBytes H (splitBlocks targetBlockSize rs) filter)) := by
  have hadd := foldlM_add_builderAt H targetBlockSize bitsPerKey rs ([], []) (by simpa) (by simp)
  obtain ⟨hflatten, -⟩ := splitBlocks_spec targetBlockSize rs
  have hkeys :
    (builderAt H targetBlockSize bitsPerKey (splitBlocks targetBlockSize rs, [])).bloomKeys =
      rs.map Prod.fst := by
    rw [builderAt, List.append_nil, hflatten]
  rw [builderAt_nil] at hadd
  rw [build, hadd]
  change finish H _ = _
  rw [finish, flushCurrentBlock_splitBlocks]
  dsimp only
  rw [hkeys, if_neg (by simpa using hne), List.length_map]
  simp only [builderAt, tableBytes, Nat.add_sub_cancel_left]

end Kronos.Sstable
