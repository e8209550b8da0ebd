import Mathlib.Data.List.Chain
import Kronos.Sstable.Limits

/-!
# The tiling of a table

How the builder divides a file. The header, the blocks, the Bloom filter, the index and the footer
lie one behind the other from the first byte to the last (`Tiles`), and the index and the footer
that a reader decodes from the file say where. The blocks hold the records in order, and are filled
greedily: a record goes to the block before it unless it would carry that block over the target size
(`Overfull`).

`Packed` is the invariant of the splitting: it holds of the blocks that are complete and of the
current one after every record (`Packed.step`). `laid_of_build` puts the parts together.
-/

namespace Kronos.Sstable

open ByteString SstableBuilder SstableReader

/-! ## Filling blocks -/

/-- A block does not exceed the target size, unless it has only one record. -/
def WithinTarget (targetBlockSize : ℕ) (block : List TableRecord) : Prop :=
  blockSize block ≤ targetBlockSize ∨ block.length = 1

/-- A block would exceed the target size if it took the first record of the next one. -/
def Overfull (targetBlockSize : ℕ) (block next : List TableRecord) : Prop :=
  ∀ r ∈ next.head?, targetBlockSize < blockSize (block ++ [r])

/-- The complete blocks and the current one are filled greedily. -/
structure Packed (targetBlockSize : ℕ) (s : List (List TableRecord) × List TableRecord) : Prop where
  small : ∀ block ∈ s.1 ++ [s.2], block = [] ∨ WithinTarget targetBlockSize block
  full : (s.1 ++ [s.2]).IsChain (Overfull targetBlockSize)
  started : s.2 = [] → s.1 = []

/-- The size of a block with one record more. -/
theorem blockSize_append (block : List TableRecord) (r : TableRecord) :
    blockSize (block ++ [r]) = 4 + (recordsBytes block).length + (recordBytes r).length + 4 := by
  rw [blockSize, recordsBytes_append, recordsBytes_cons, recordsBytes_nil, List.append_nil,
    List.length_append]
  omega

/-- A record is added to the blocks greedily. -/
theorem Packed.step {targetBlockSize : ℕ} {s : List (List TableRecord) × List TableRecord}
    (h : Packed targetBlockSize s) (r : TableRecord) :
    Packed targetBlockSize (splitStep targetBlockSize s r) := by
  obtain ⟨done, current⟩ := s
  obtain ⟨hsmall, hfull, hstarted⟩ := h
  dsimp only at hsmall hfull hstarted
  unfold splitStep
  dsimp only
  split_ifs with hcarries
  · -- The current block is complete, since the record would carry it over the target.
    refine ⟨fun block hblock => ?_, ?_, fun hnil => absurd hnil (List.cons_ne_nil _ _)⟩
    · rcases List.mem_append.1 hblock with hblock | hblock
      · exact hsmall block hblock
      · rw [List.mem_singleton.1 hblock]
        exact .inr (.inr rfl)
    · refine hfull.append (List.isChain_singleton _) fun block hblock next hnext => ?_
      rw [List.getLast?_concat] at hblock
      cases hblock
      cases hnext
      intro r' hr'
      cases hr'
      rw [blockSize_append]
      exact hcarries.2
  · refine ⟨fun block hblock => ?_, ?_, fun hnil => absurd hnil (by simp)⟩
    · rcases List.mem_append.1 hblock with hblock | hblock
      · exact hsmall block (List.mem_append_left _ hblock)
      · rw [List.mem_singleton.1 hblock]
        right
        by_cases hnil : current = []
        · subst hnil
          exact .inr rfl
        · left
          have hne := mt length_recordsBytes_eq_zero.1 hnil
          rw [blockSize_append]
          exact not_lt.1 fun hlt => hcarries ⟨hne, hlt⟩
    · -- The first record of the current block stays the first, unless there is no block before it.
      cases current with
      | nil =>
        rw [hstarted rfl]
        exact List.isChain_singleton _
      | cons first current =>
        obtain ⟨hdone, -, hlast⟩ := List.isChain_append.1 hfull
        refine hdone.append (List.isChain_singleton _) fun block hblock next hnext => ?_
        cases hnext
        exact fun r' hr' => hlast block hblock (first :: current) rfl r' hr'

/-- So are all records. -/
theorem packed_foldl {targetBlockSize : ℕ} (rs : List TableRecord) :
    Packed targetBlockSize (rs.foldl (splitStep targetBlockSize) ([], [])) := by
  have hall : ∀ s, Packed targetBlockSize s →
      Packed targetBlockSize (rs.foldl (splitStep targetBlockSize) s) := by
    induction rs with
    | nil => exact fun s h => h
    | cons r rs ih => exact fun s h => ih _ (h.step r)
  refine hall _ ⟨fun block hblock => ?_, List.isChain_singleton _, fun _ => rfl⟩
  exact .inl (List.mem_singleton.1 hblock)

/-- The blocks of a table are small, and each is full before the next one begins. -/
theorem splitBlocks_packed (targetBlockSize : ℕ) (rs : List TableRecord) :
    (∀ block ∈ splitBlocks targetBlockSize rs, WithinTarget targetBlockSize block) ∧
      (splitBlocks targetBlockSize rs).IsChain (Overfull targetBlockSize) := by
  have hpacked := @packed_foldl targetBlockSize rs
  have hne := (splitBlocks_spec targetBlockSize rs).2
  unfold splitBlocks at hne ⊢
  dsimp only at hne ⊢
  split_ifs at hne ⊢ with hcurrent
  · rw [hpacked.started hcurrent]
    exact ⟨nofun, List.isChain_nil⟩
  · exact ⟨fun block hblock => (hpacked.small block hblock).resolve_left (hne block hblock),
      hpacked.full⟩

/-! ## Parts of a file -/

/-- Spans, each an offset and a size, lie one behind the other, from one position to another. -/
def Tiles : ℕ → List (ℕ × ℕ) → ℕ → Prop
  | lo, [], hi => lo = hi
  | lo, (offset, size) :: spans, hi => offset = lo ∧ Tiles (lo + size) spans hi

/-- Two tilings, one behind the other, are a tiling. -/
theorem Tiles.append {spans spans' : List (ℕ × ℕ)} {hi : ℕ} (mid : ℕ) : ∀ {lo : ℕ},
    Tiles lo spans mid → Tiles mid spans' hi → Tiles lo (spans ++ spans') hi := by
  induction spans with
  | nil =>
    intro lo h h'
    cases h
    exact h'
  | cons span spans ih => exact fun h h' => ⟨h.1, ih h.2 h'⟩

/-- Blocks that lie one behind the other tile what they take. -/
theorem tiles_indexFrom {blocks : List (List TableRecord)}
    (h : ∀ block ∈ blocks, blockSize block < 2^32) : ∀ lo,
    Tiles lo ((indexFrom lo blocks).map fun e => (e.blockOffset, e.blockSize))
      (lo + (blocks.map blockSize).sum) := by
  induction blocks with
  | nil => exact fun lo => rfl
  | cons block blocks ih =>
    intro lo
    have hmod : blockSize block % 2^32 = blockSize block := Nat.mod_eq_of_lt (h block (.head _))
    have hrest := ih (fun block' h' => h block' (.tail _ h')) (lo + blockSize block)
    rw [Nat.add_assoc] at hrest
    refine ⟨rfl, ?_⟩
    dsimp only
    rwa [hmod, List.map_cons, List.sum_cons]

/-- The layout of a table of these records, with these blocks, and with the index entries and the
fields of the footer that a reader decodes from the bytes of the file. -/
structure Laid (H : Hashing) (targetBlockSize bitsPerKey : ℕ) (rs : List TableRecord) (file : Bytes)
    (blocks : List (List TableRecord)) (index : List SparseIndexEntry) (footer : FooterInfo) :
    Prop where
  /-- The header, the blocks, the Bloom filter, the index and the footer leave no gap. -/
  tiles : Tiles 0 ((0, 8) :: (index.map (fun e => (e.blockOffset, e.blockSize)) ++
    [(footer.bloomOffset, footer.bloomSize), (footer.indexOffset, footer.indexSize),
      (file.length - 36, 36)])) file.length
  header_slice : slice file 0 8 = header
  /-- What stands in the file: the last 36 bytes give the footer, and the bytes that it delimits
  give the index. -/
  decoded_footer : readFooter H file = .ok footer
  decoded_index : loadSparseIndex H file footer.indexOffset footer.indexSize = .ok index
  placed : List.Forall₂ (Placed H file) index blocks
  bloom_slice : ∃ filter, (BloomFilter.new bitsPerKey rs.length >>=
      (rs.map Prod.fst).foldlM (BloomFilter.add H)) = .ok filter ∧
    slice file footer.bloomOffset footer.bloomSize = bloomBytes H filter
  index_slice : slice file footer.indexOffset footer.indexSize = indexBytes H index
  footer_slice : slice file (file.length - 36) 36 =
    footerBytes H footer.bloomOffset footer.bloomSize footer.indexOffset footer.indexSize
  /-- No field is cut where it is written. -/
  entry_lt : index.length < 2^32 ∧
    ∀ e ∈ index, e.firstKey.length < 2^32 ∧ e.blockOffset < 2^64 ∧ e.blockSize < 2^32
  footer_lt : footer.bloomOffset < 2^64 ∧ footer.bloomSize < 2^64 ∧ footer.indexOffset < 2^64 ∧
    footer.indexSize < 2^64
  records : blocks.flatten = rs
  nonempty : ∀ block ∈ blocks, block ≠ []
  small : ∀ block ∈ blocks, WithinTarget targetBlockSize block
  full : blocks.IsChain (Overfull targetBlockSize)

/-- The fields of the entries of blocks in a file have their widths. -/
theorem entries_lt_of_placed {H : Hashing} {file : Bytes} {index : List SparseIndexEntry}
    {blocks : List (List TableRecord)} (h : List.Forall₂ (Placed H file) index blocks)
    (hsize : ∀ block ∈ blocks, blockSize block < 2^32) (hne : ∀ block ∈ blocks, block ≠ [])
    (hfile : file.length < 2^64) : ∀ e ∈ index,
      e.firstKey.length < 2^32 ∧ e.blockOffset < 2^64 ∧ e.blockSize < 2^32 := by
  induction h with
  | nil => exact nofun
  | @cons e block index blocks he _ ih =>
    obtain ⟨hblock, hblocks⟩ := List.forall_mem_cons.1 hsize
    obtain ⟨hfirst, hrest⟩ := List.forall_mem_cons.1 hne
    refine List.forall_mem_cons.2 ⟨⟨?_, ?_, he.size ▸ hblock⟩, ih hblocks hrest⟩
    · obtain ⟨r, block, rfl⟩ := List.exists_cons_of_ne_nil hfirst
      rw [he.firstKey]
      exact (lengths_lt hblock (.head _)).1
    · have hinside := he.inside
      omega

/-- The parts of a file are where its footer says. -/
theorem slices_of_parts {H : Hashing} {file data bloom index : Bytes}
    (hfile : file = data ++ bloom ++ index ++
      footerBytes H data.length bloom.length (data.length + bloom.length) index.length) :
    file.length = data.length + bloom.length + index.length + 36 ∧
      slice file data.length bloom.length = bloom ∧
      slice file (data.length + bloom.length) index.length = index ∧
      slice file (file.length - 36) 36 =
        footerBytes H data.length bloom.length (data.length + bloom.length) index.length := by
  have hfooter : (footerBytes H data.length bloom.length (data.length + bloom.length)
      index.length).length = 36 := by simp [footerBytes, withChecksum]
  have hlen : file.length = data.length + bloom.length + index.length + 36 := by
    rw [hfile]
    simp only [List.length_append, hfooter]
  have hdata : data ++ bloom <+: file := by simp [hfile]
  have hbloom : data ++ bloom ++ index <+: file := by simp [hfile]
  have hindex : data ++ bloom ++ index ++ footerBytes H data.length bloom.length
      (data.length + bloom.length) index.length <+: file := by simp [hfile]
  exact ⟨hlen, slice_eq hdata rfl rfl, slice_eq hbloom List.length_append rfl,
    slice_eq hindex (by simp only [List.length_append]; omega) hfooter⟩

/-- **The layout of a table.** A build that returns, over records whose blocks, index and Bloom
filter fit in 32 bits, leaves a file that is laid out so. -/
theorem laid_of_build (H : Hashing) (targetBlockSize bitsPerKey : ℕ) (rs : List TableRecord)
    (file : Bytes) (h : build H targetBlockSize bitsPerKey rs = .ok file)
    (hfits : Fits targetBlockSize bitsPerKey rs) :
    ∃ blocks index footer, Laid H targetBlockSize bitsPerKey rs file blocks index footer := by
  obtain ⟨hsorted, hne, hbits⟩ := sorted_of_build h
  obtain ⟨hflatten, hnonempty⟩ := splitBlocks_spec targetBlockSize rs
  obtain ⟨hsmall, hfull⟩ := splitBlocks_packed targetBlockSize rs
  obtain ⟨hblocks, hindex, hbloom⟩ := hfits
  have hcount := length_le_indexPayloadSize (splitBlocks targetBlockSize rs)
  obtain ⟨filter, hnew, hsized, hbitCount, -⟩ :=
    BloomFilter.new_spec (Nat.one_le_iff_ne_zero.2 hbits) (List.length_pos_iff.2 hne) hbloom
  obtain ⟨filter', hadd, hsized', hbitCount', -⟩ :=
    BloomFilter.mayContain_addAll (List.forall_mem_map.2 (hashes_of_build h)) hsized
  rw [build_eq H _ _ hsorted hne, hnew, ok_bind, hadd, ok_bind] at h
  generalize splitBlocks targetBlockSize rs = blocks at *
  -- The lengths of the parts.
  have hbitCount_lt : filter'.bitCount < 2^32 := by rwa [hbitCount', hbitCount]
  have hbits' := hsized'.2
  have hsum := sum_blockSize_le hblocks (by omega)
  have hdata := length_dataBytes H blocks
  have hbloomLength := length_bloomBytes H filter'
  have hindexLength := length_indexBytes H blocks header.length
  have hfile : file = dataBytes H blocks ++ bloomBytes H filter' ++
      indexBytes H (indexFrom header.length blocks) ++
      footerBytes H (dataBytes H blocks).length (bloomBytes H filter').length
        ((dataBytes H blocks).length + (bloomBytes H filter').length)
        (indexBytes H (indexFrom header.length blocks)).length := (Except.ok.inj h).symm
  obtain ⟨hlen, hbloomSlice, hindexSlice, hfooterSlice⟩ := slices_of_parts hfile
  -- The blocks lie in the file, behind the header.
  have hdataPrefix : dataBytes H blocks <+: file := by
    rw [hfile]
    simp only [List.append_assoc]
    exact List.prefix_append _ _
  have hheader : [] ++ header <+: file := (List.prefix_append _ _).trans hdataPrefix
  have hplaced : List.Forall₂ (Placed H (dataBytes H blocks)) (indexFrom header.length blocks)
      blocks := placed_indexFrom H blocks hblocks header
  have htiles := tiles_indexFrom hblocks header.length
  rw [← hdata] at htiles
  rw [length_header] at hdata
  have hentries := entries_lt_of_placed hplaced hblocks hnonempty (by omega)
  have hindexCount : (indexFrom header.length blocks).length < 2^32 := by
    rw [length_indexFrom]
    omega
  have hindexPrefix : dataBytes H blocks ++ bloomBytes H filter' ++
      indexBytes H (indexFrom header.length blocks) <+: file := by
    rw [hfile]
    exact List.prefix_append _ _
  have hdecodedIndex := loadSparseIndex_eq hindexPrefix hindexCount hentries
  rw [List.length_append] at hdecodedIndex
  have hdecodedFooter := readFooter_fileBytes H (show (dataBytes H blocks).length +
    (bloomBytes H filter').length < 2^64 by omega) (show (indexBytes H
      (indexFrom header.length blocks)).length < 2^64 by omega)
  rw [fileBytes, ← hfile] at hdecodedFooter
  refine ⟨blocks, indexFrom header.length blocks, ⟨(dataBytes H blocks).length,
    (bloomBytes H filter').length, (dataBytes H blocks).length + (bloomBytes H filter').length,
    (indexBytes H (indexFrom header.length blocks)).length⟩,
    ⟨⟨rfl, htiles.append _ ⟨rfl, rfl, ?_, ?_⟩⟩, slice_eq hheader rfl rfl, hdecodedFooter,
    hdecodedIndex, hplaced.imp fun e block he => he.mono hdataPrefix, ⟨filter', ?_, hbloomSlice⟩,
    hindexSlice, hfooterSlice, ⟨hindexCount, hentries⟩, ?_, hflatten, hnonempty, hsmall, hfull⟩⟩
  · dsimp only
    omega
  · rw [Tiles]
    dsimp only
    omega
  · rw [hnew, ok_bind, hadd]
  · dsimp only
    omega

/-- Three records, of which two go to the first block. -/
theorem laid_of_build_three :
    let rs : List TableRecord := [([], ⟨[1], 7, .put⟩), ([97], ⟨[], 8, .delete⟩),
      ([98], ⟨[2], 9, .put⟩)]
    splitBlocks 48 rs = [rs.take 2, rs.drop 2] ∧ ∃ file, build default 48 10 rs = .ok file ∧
      ∃ blocks index footer, Laid default 48 10 rs file blocks index footer := by
  intro rs
  have hvalid : ∀ r ∈ rs, ValidRecord r := by
    simp only [rs, List.forall_mem_cons, List.not_mem_nil, false_implies, implies_true, and_true]
    exact ⟨⟨by decide, .inl rfl⟩, ⟨by decide, .inr rfl⟩, by decide, .inl rfl⟩
  obtain ⟨file, hbuild, -⟩ := @exists_stores default 48 10 rs (by decide) (by simp [rs])
    (by simp only [rs, Sorted]; decide) (fun r _ => Hashing.hashes_default r.1) hvalid (by decide)
    (by decide) (by decide)
  exact ⟨by decide, file, hbuild,
    laid_of_build default 48 10 rs file hbuild ⟨by decide, by decide, by decide⟩⟩

end Kronos.Sstable
