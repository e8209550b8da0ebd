import Kronos.Sstable.Iterating
import Kronos.Sstable.Searching

/-!
# Reading a table back

What the reader finds in the bytes that the builder writes. `Located` says that an index entry
points at a block of records in the file; an index that points at the blocks of a table in order
is all that `lookupEntry` and the iterator rely on (`lookupEntry_eq`, `yields_blocks`).
-/

namespace Kronos

open ByteString SstableBuilder SstableReader Sstable

/-- A record as the engine makes it: a `PUT` or a `DELETE`, with a sequence number of 64 bits. -/
structure ValidRecord (r : TableRecord) : Prop where
  sequence_lt : r.2.sequence < 2^64
  operation : r.2.operation = .put ∨ r.2.operation = .delete

namespace Sstable

/-! ## Fields -/

/-- An index entry in a payload is read back. -/
theorem readIndexEntry_eq {payload pre : Bytes} {e : SparseIndexEntry}
    (h : pre ++ indexEntryBytes e <+: payload) (hkey : e.firstKey.length < 2^32)
    (hoffset : e.blockOffset < 2^64) (hsize : e.blockSize < 2^32) :
    readIndexEntry payload pre.length = .ok (e, (pre ++ indexEntryBytes e).length) := by
  have h₄ : pre ++ toLe 4 e.firstKey.length ++ e.firstKey ++ toLe 8 e.blockOffset ++
      toLe 4 e.blockSize <+: payload := by
    simpa only [indexEntryBytes, List.append_assoc] using h
  have h₃ := (List.prefix_append _ _).trans h₄
  have h₂ := (List.prefix_append _ _).trans h₃
  have h₁ := (List.prefix_append _ _).trans h₂
  have hkeyLength : ofLe (toLe 4 e.firstKey.length) = e.firstKey.length :=
    ofLe_toLe_of_lt (by omega)
  have hblockOffset : ofLe (toLe 8 e.blockOffset) = e.blockOffset := ofLe_toLe_of_lt (by omega)
  have hblockSize : ofLe (toLe 4 e.blockSize) = e.blockSize := ofLe_toLe_of_lt (by omega)
  rw [readIndexEntry, readField_eq h₁ (length_toLe 4 _), ok_bind]
  dsimp only
  rw [hkeyLength, readField_eq h₂ rfl, ok_bind]
  dsimp only
  rw [readField_eq h₃ (length_toLe 8 _), ok_bind]
  dsimp only
  rw [readField_eq h₄ (length_toLe 4 _), ok_bind]
  simp [hblockOffset, hblockSize, indexEntryBytes]

/-- So are the entries of an index. -/
theorem readIndexEntries_eq {payload : Bytes} (es : List SparseIndexEntry)
    (hes : ∀ e ∈ es, e.firstKey.length < 2^32 ∧ e.blockOffset < 2^64 ∧ e.blockSize < 2^32) :
    ∀ {pre : Bytes}, pre ++ (es.map indexEntryBytes).flatten <+: payload →
      readIndexEntries payload es.length pre.length =
        .ok (es, (pre ++ (es.map indexEntryBytes).flatten).length) := by
  induction es with
  | nil =>
    intro pre _
    simp [readIndexEntries]
  | cons e es ih =>
    intro pre h
    rw [List.map_cons, List.flatten_cons, ← List.append_assoc] at h ⊢
    obtain ⟨hkey, hoffset, hsize⟩ := hes e (.head _)
    rw [List.length_cons, readIndexEntries,
      readIndexEntry_eq ((List.prefix_append _ _).trans h) hkey hoffset hsize, ok_bind]
    dsimp only
    rw [ih (fun e' h' => hes e' (.tail _ h')) h, ok_bind]

/-! ## Checksums -/

/-- The payload of a block. -/
def blockPayload (rs : List TableRecord) : Bytes := toLe 4 rs.length ++ recordsBytes rs

/-- The reader computes the CRC32 of a block as the builder does, unless its size wraps. -/
theorem encodeBlock_eq (H : Hashing) {rs : List TableRecord} (h : blockSize rs < 2^32) :
    encodeBlock H rs = withChecksum H (blockPayload rs) := by
  rw [blockSize] at h
  have hpayload : (blockPayload rs).take ((blockPayload rs).length % 2^32) = blockPayload rs := by
    refine List.take_of_length_le (Nat.le_of_eq (Nat.mod_eq_of_lt ?_).symm)
    simp only [blockPayload, List.length_append, length_toLe]
    omega
  have hrecords : (recordsBytes rs).take ((recordsBytes rs).length % 2^32) = recordsBytes rs :=
    List.take_of_length_le (Nat.le_of_eq (Nat.mod_eq_of_lt (by omega)).symm)
  rw [encodeBlock, blockBytes, hrecords, withChecksum, Hashing.checksum, hpayload, blockPayload]

/-! ## Blocks -/

/-- An index entry points at a block of records in the file. -/
structure Located (H : Hashing) (file : Bytes) (e : SparseIndexEntry) (block : List TableRecord) :
    Prop where
  firstKey : e.firstKey = Sstable.firstKey block
  size : e.blockSize = blockSize block
  size_lt : blockSize block < 2^32
  bytes : slice file e.blockOffset e.blockSize = encodeBlock H block
  inside : e.blockOffset + e.blockSize ≤ file.length
  nonempty : block ≠ []
  sequence : ∀ r ∈ block, r.2.sequence < 2^64

/-- The lengths in a block have 32 bits. -/
theorem lengths_lt {block : List TableRecord} (h : blockSize block < 2^32) {r : TableRecord}
    (hr : r ∈ block) : r.1.length < 2^32 ∧ r.2.value.length < 2^32 := by
  obtain ⟨front, back, rfl⟩ := List.append_of_mem hr
  simp only [blockSize, recordsBytes_append, recordsBytes_cons, List.length_append,
    length_recordBytes] at h
  omega

/-- A located block is complete, without trailing bytes, and the index knows its first key. -/
theorem Located.indexed {H : Hashing} {file : Bytes} {e : SparseIndexEntry}
    {block : List TableRecord} (h : Located H file e block) : Indexed H file e (block, []) := by
  have hsize := h.size_lt
  have hrecords := length_recordsBytes_ge block
  refine ⟨⟨⟨h.inside, ?_, ?_⟩, ?_, List.length_pos_iff.2 h.nonempty, le_rfl, fun r hr => ?_⟩,
    h.firstKey⟩
  · rw [h.size, blockSize, List.append_nil, List.length_append, length_toLe]
  · rw [h.bytes, encodeBlock_eq H hsize, List.append_nil, blockPayload]
  · show block.length < 2^32
    rw [blockSize] at hsize
    omega
  · obtain ⟨hkey, hvalue⟩ := lengths_lt hsize hr
    exact ⟨hkey, hvalue, h.sequence r hr⟩

/-- The blocks of a table, with nothing behind their records. -/
def untrailed (blocks : List (List TableRecord)) : List (List TableRecord × Bytes) :=
  blocks.map (·, [])

/-- The records of blocks without trailing bytes are those of the blocks. -/
theorem allRecords_untrailed (blocks : List (List TableRecord)) :
    allRecords (untrailed blocks) = blocks.flatten := by
  rw [allRecords, untrailed, List.map_map]
  exact congrArg _ (List.map_id blocks)

/-- Located blocks are complete and indexed. -/
theorem indexed_of_located {H : Hashing} {file : Bytes} {es : List SparseIndexEntry}
    {blocks : List (List TableRecord)} (h : List.Forall₂ (Located H file) es blocks) :
    List.Forall₂ (Indexed H file) es (untrailed blocks) :=
  List.forall₂_map_right_iff.2 (h.imp fun _ _ hblock => hblock.indexed)

/-! ## Reading -/

/-- A lookup over an index of located blocks of `PUT`s and `DELETE`s, with a Bloom filter that has
no false negatives for their keys, looks a key that is hashed up among their records. -/
theorem lookupEntry_eq {H : Hashing} {reader : SstableReader} {blocks : List (List TableRecord)}
    (h : List.Forall₂ (Located H reader.file) reader.sparseIndex blocks)
    (hsorted : Sorted blocks.flatten) (hknown : ∀ r ∈ blocks.flatten, KnownOperation r)
    (hbloom : ∀ r ∈ blocks.flatten, reader.bloomFilter.mayContain H r.1 = .ok true) {key : Bytes}
    (hkey : H.Hashes key) : reader.lookupEntry H key = .ok (blocks.flatten.lookup key) := by
  have hlookup := lookupEntry_iff (indexed_of_located h) (by rwa [allRecords_untrailed])
    (by rwa [allRecords_untrailed]) (by rwa [allRecords_untrailed]) hkey
  rw [allRecords_untrailed] at hlookup
  refine hlookup.2 fun hstray => ?_
  -- No block has trailing bytes.
  obtain ⟨before, block, behind, hsplit, htrailing, -⟩ := hstray.2
  have hmem : block ∈ untrailed blocks := by
    rw [hsplit]
    simp
  obtain ⟨records, -, rfl⟩ := List.mem_map.1 hmem
  exact htrailing rfl

/-- The iterator over an index of located blocks yields their records in order. -/
theorem yields_blocks {H : Hashing} {reader : SstableReader} {blocks : List (List TableRecord)}
    (h : List.Forall₂ (Located H reader.file) reader.sparseIndex blocks) :
    ∃ it, Iterator.new H reader = .ok it ∧ it.Yields H blocks.flatten :=
  Iterator.yields_iff.2 ⟨untrailed blocks,
    (indexed_of_located h).imp fun _ _ hblock => hblock.complete,
    (allRecords_untrailed blocks).symm⟩

end Sstable

end Kronos
