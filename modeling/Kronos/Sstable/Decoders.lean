import Kronos.Sstable.Format

/-!
# The two decoders

`lookupEntry` and the iterator decode the same blocks, each with code of its own, and differ in two
checks. The iterator does not look at the operation of a record, which `lookupEntry` does when it
has found the key, and it does not look at the bytes behind the last record of a block, which
`lookupEntry` does when it has passed all records. So they agree exactly over the tables whose
records are `PUT`s and `DELETE`s, and whose lookups do not come upon trailing bytes
(`decodersAgree_iff`).
-/

namespace Kronos

open ByteString SstableBuilder SstableReader Sstable

namespace Sstable

/-- The index knows the first key of each block. -/
def KnowsFirstKeys (H : Hashing) (reader : SstableReader) : Prop :=
  ∀ e ∈ reader.sparseIndex, ∀ count rs rest, rs ≠ [] → Begins H reader.file e count rs rest →
    e.firstKey = firstKey rs

/-- The decoders of a table agree: neither hands out an entry with an unknown operation, and where
the iterator walks through records with increasing keys, each block's first key is in the index and
the Bloom filter accepts the keys, every lookup of a key that is hashed finds what the iterator
yields for the key. -/
structure DecodersAgree (crc32 : Bytes → UInt32) (reader : SstableReader) : Prop where
  lookup_known : ∀ key e, reader.lookupEntry (.vendored crc32) key = .ok (some e) →
    KnownOperation (key, e)
  iterator_known : ∀ it r, Iterator.new (.vendored crc32) reader = .ok it →
    it.HandsOut (.vendored crc32) r → KnownOperation r
  agree : ∀ it rs, Iterator.new (.vendored crc32) reader = .ok it →
    it.Yields (.vendored crc32) rs → Sorted rs → KnowsFirstKeys (.vendored crc32) reader →
      (∀ r ∈ rs, reader.bloomFilter.mayContain (.vendored crc32) r.1 = .ok true) →
        ∀ key, MurmurHash3.Fits key →
          reader.lookupEntry (.vendored crc32) key = .ok (rs.lookup key)

/-- The records with which the blocks of a table begin are `PUT`s and `DELETE`s. -/
def KnownOperations (H : Hashing) (reader : SstableReader) : Prop :=
  ∀ rs, TableBegins H reader.file reader.sparseIndex rs → ∀ r ∈ rs, KnownOperation r

/-- If the blocks of a table are complete, in the order of their keys, known to the index and to the
Bloom filter, the filter accepts no key that leads to trailing bytes. -/
def NoStrayBytes (H : Hashing) (reader : SstableReader) : Prop :=
  ∀ blocks, List.Forall₂ (Complete H reader.file) reader.sparseIndex blocks →
    Sorted (allRecords blocks) → KnowsFirstKeys H reader →
      (∀ r ∈ allRecords blocks, reader.bloomFilter.mayContain H r.1 = .ok true) →
        ∀ key, reader.bloomFilter.mayContain H key = .ok true → ¬StrayBytes key blocks

/-! ## Where the decoders agree -/

/-- Complete blocks whose first keys the index knows are indexed. -/
theorem indexed_of_complete {H : Hashing} {reader : SstableReader}
    (hkeys : KnowsFirstKeys H reader) {es : List SparseIndexEntry}
    {blocks : List (List TableRecord × Bytes)} (hes : ∀ e ∈ es, e ∈ reader.sparseIndex)
    (h : List.Forall₂ (Complete H reader.file) es blocks) :
    List.Forall₂ (Indexed H reader.file) es blocks := by
  induction h with
  | nil => exact .nil
  | cons he _ ih =>
    rw [List.forall_mem_cons] at hes
    have hne := List.ne_nil_of_length_pos he.count_pos
    exact .cons ⟨he, hkeys _ hes.1 _ _ _ hne he⟩ (ih hes.2)

/-- The records of complete blocks are among those with which the blocks begin. -/
theorem tableBegins_allRecords {H : Hashing} {file : Bytes} {es : List SparseIndexEntry}
    {blocks : List (List TableRecord × Bytes)} (h : List.Forall₂ (Complete H file) es blocks)
    (hne : blocks ≠ []) : TableBegins H file es (allRecords blocks) := by
  induction h with
  | nil => exact absurd rfl hne
  | @cons e block es blocks he hes ih =>
    cases hes with
    | nil =>
      rw [allRecords_cons, allRecords_nil, List.append_nil]
      exact .block he
    | cons he' hes' => exact .blocks he (ih (List.cons_ne_nil _ _))

/-- A reader that hands out known operations only has no other in its blocks. -/
theorem KnownOperations.allRecords {H : Hashing} {reader : SstableReader}
    (h : KnownOperations H reader) {blocks : List (List TableRecord × Bytes)}
    (hblocks : List.Forall₂ (Complete H reader.file) reader.sparseIndex blocks) :
    ∀ r ∈ allRecords blocks, KnownOperation r := by
  rcases eq_or_ne blocks [] with rfl | hne
  · simp
  · exact h _ (tableBegins_allRecords hblocks hne)

/-- **Where the decoders agree.** Whatever file was opened, the decoders agree if and only if its
blocks begin with `PUT`s and `DELETE`s only, and no key that the Bloom filter accepts leads to bytes
that trail the records of a block. -/
theorem decodersAgree_iff (crc32 : Bytes → UInt32) (reader : SstableReader) :
    DecodersAgree crc32 reader ↔
      KnownOperations (.vendored crc32) reader ∧ NoStrayBytes (.vendored crc32) reader := by
  constructor
  · intro h
    have hknown : KnownOperations (.vendored crc32) reader := by
      intro rs htable r hr
      obtain ⟨it, hnew, hhands⟩ := Iterator.handsOut_iff.2 ⟨rs, htable, hr⟩
      exact h.iterator_known it r hnew hhands
    refine ⟨hknown, fun blocks hblocks hsorted hkeys hbloom key hmay hstray => ?_⟩
    obtain ⟨it, hnew, hyields⟩ := Iterator.yields_iff.2 ⟨blocks, hblocks, rfl⟩
    -- A key that the filter answers for is hashed.
    have hkey := BloomFilter.hashes_of_mayContain hmay
    have hlookup :=
      h.agree it _ hnew hyields hsorted hkeys hbloom key (Hashing.hashes_vendored.1 hkey)
    have hindexed := indexed_of_complete hkeys (fun _ he => he) hblocks
    exact (lookupEntry_iff hindexed hsorted (hknown.allRecords hblocks) hbloom hkey).1 hlookup
      ⟨hmay, hstray⟩
  · rintro ⟨hknown, hstray⟩
    refine ⟨fun key e h => (lookupEntry_found h).1, fun it r hnew hhands => ?_,
      fun it rs hnew hyields hsorted hkeys hbloom key hkey => ?_⟩
    · obtain ⟨rs, htable, hr⟩ := Iterator.handsOut_iff.1 ⟨it, hnew, hhands⟩
      exact hknown rs htable r hr
    · obtain ⟨blocks, hblocks, rfl⟩ := Iterator.yields_iff.1 ⟨it, hnew, hyields⟩
      have hindexed := indexed_of_complete hkeys (fun _ he => he) hblocks
      refine (lookupEntry_iff hindexed hsorted (hknown.allRecords hblocks) hbloom
        (Hashing.hashes_vendored.2 hkey)).2 ?_
      rintro ⟨hmay, hleads⟩
      exact hstray blocks hblocks hsorted hkeys hbloom key hmay hleads

/-! ## Where they do not -/

/-- A Bloom filter that accepts every key. -/
def acceptingFilter : BloomFilter := ⟨1, [1], 1⟩

/-- A table with one block of some payload, whose first key is empty. -/
def oneBlockTable (H : Hashing) (payload : Bytes) : Bytes :=
  fileBytes H (header ++ withChecksum H payload) acceptingFilter [⟨[], 8, payload.length + 4⟩]

/-- What the constructor reads of it. -/
def oneBlockReader (H : Hashing) (payload : Bytes) : SstableReader :=
  ⟨oneBlockTable H payload, [⟨[], 8, payload.length + 4⟩], acceptingFilter⟩

/-- A file opens, and the CRC32 of each indexed block matches. -/
def OpensChecked (H : Hashing) (file : Bytes) (reader : SstableReader) : Prop :=
  openTable H file = .ok reader ∧
    ∀ e ∈ reader.sparseIndex, ∃ payload, Checked H reader.file e payload

/-- The table of a payload opens, and its block is checked. -/
theorem oneBlockTable_opens (H : Hashing) {payload : Bytes} (hlen : payload.length < 2^31) :
    OpensChecked H (oneBlockTable H payload) (oneBlockReader H payload) ∧
      Checked H (oneBlockTable H payload) ⟨[], 8, payload.length + 4⟩ payload := by
  have hsize : (withChecksum H payload).length = payload.length + 4 := by simp [withChecksum]
  have hpre : header ++ withChecksum H payload <+: oneBlockTable H payload := by
    simp [oneBlockTable, fileBytes]
  have hchecked : Checked H (oneBlockTable H payload) ⟨[], 8, payload.length + 4⟩ payload := by
    refine ⟨?_, rfl, slice_eq hpre rfl hsize⟩
    have hle := hpre.length_le
    rw [List.length_append, hsize] at hle
    exact hle
  refine ⟨⟨?_, List.forall_mem_singleton.2 ⟨payload, hchecked⟩⟩, hchecked⟩
  apply openTable_fileBytes H (List.prefix_append _ _) ⟨by decide, rfl⟩ (by decide) (by decide)
    (by decide)
  · show 1 < 2^32
    norm_num
  · exact List.forall_mem_singleton.2 ⟨Nat.two_pow_pos 32, by norm_num, by dsimp only; omega⟩
  · rw [List.length_append, hsize, length_bloomBytes]
    simp [acceptingFilter]
    omega
  · simp [indexBytes, withChecksum, indexEntryBytes]

/-- The filter accepts every key that is hashed. -/
theorem acceptingFilter_mayContain {H : Hashing} {key : Bytes} (hkey : H.Hashes key) :
    acceptingFilter.mayContain H key = .ok true := by
  have hbit : ∀ h : UInt32, acceptingFilter.testBit h = true := by
    intro h
    have hzero : h.toNat % 1 = 0 := Nat.mod_one _
    simp [BloomFilter.testBit, acceptingFilter, hzero]
    decide
  obtain ⟨hs, hprobes⟩ := BloomFilter.keyProbes_ok acceptingFilter hkey
  rw [BloomFilter.mayContain, hprobes, ok_bind, List.all_eq_true.2 fun h _ => hbit h]

/-- A block with one record is complete, whatever trails it. -/
theorem complete_oneBlockTable (H : Hashing) {r : TableRecord} {trailing : Bytes}
    (hr : Encodable r) (hlen : (toLe 4 1 ++ recordsBytes [r] ++ trailing).length < 2^31) :
    List.Forall₂ (Complete H (oneBlockReader H (toLe 4 1 ++ recordsBytes [r] ++ trailing)).file)
      (oneBlockReader H (toLe 4 1 ++ recordsBytes [r] ++ trailing)).sparseIndex
      [([r], trailing)] :=
  .cons ⟨(oneBlockTable_opens H hlen).2, by norm_num, Nat.one_pos, le_rfl,
    List.forall_mem_singleton.2 hr⟩ .nil

/-- The index knows the first key of the block, if it is empty. -/
theorem knowsFirstKeys_oneBlockTable (H : Hashing) {e : InternalEntry} {trailing : Bytes}
    (hr : Encodable ([], e))
    (hlen : (toLe 4 1 ++ recordsBytes [([], e)] ++ trailing).length < 2^31) :
    KnowsFirstKeys H (oneBlockReader H (toLe 4 1 ++ recordsBytes [([], e)] ++ trailing)) := by
  intro entry hentry count rs rest hne hbegins
  obtain rfl := List.mem_singleton.1 hentry
  obtain ⟨r, behind, rfl⟩ := List.exists_cons_of_ne_nil hne
  obtain rfl := (List.forall₂_cons.1 (complete_oneBlockTable H hr hlen)).1.first_unique hbegins
  rfl

/-- A record that an `SstableBuilder` takes, with an operation that is neither `PUT` nor
`DELETE`. -/
def unknownRecord : TableRecord := ([], ⟨[], 0, ⟨7⟩⟩)

/-- A record with the empty key. -/
def emptyRecord : TableRecord := ([], ⟨[], 0, .put⟩)

/-- The iterator hands out a record with an unknown operation, and a lookup throws over a byte
behind the records of a block: whatever `crc32` is, there are checked files over which the decoders
do not agree, for each of these reasons. -/
theorem decoders_disagree :
    ¬∃ crc32 : Bytes → UInt32,
      (∀ file reader, OpensChecked (.vendored crc32) file reader → ∀ it r,
        Iterator.new (.vendored crc32) reader = .ok it → it.HandsOut (.vendored crc32) r →
          KnownOperation r) ∨
      ∀ file reader, OpensChecked (.vendored crc32) file reader → ∀ it rs,
        Iterator.new (.vendored crc32) reader = .ok it → it.Yields (.vendored crc32) rs →
          Sorted rs → KnowsFirstKeys (.vendored crc32) reader →
            (∀ r ∈ rs, reader.bloomFilter.mayContain (.vendored crc32) r.1 = .ok true) →
              ∀ key, MurmurHash3.Fits key →
                reader.lookupEntry (.vendored crc32) key = .ok (rs.lookup key) := by
  rintro ⟨crc32, hknown | hagree⟩
  · have hlen : (toLe 4 1 ++ recordsBytes [unknownRecord] ++ []).length < 2^31 := by decide
    have hblocks := complete_oneBlockTable (.vendored crc32) (r := unknownRecord)
      ⟨by decide, by decide, by decide⟩ hlen
    obtain ⟨it, hnew, hhands⟩ := Iterator.handsOut_iff.2
      ⟨_, tableBegins_allRecords hblocks (List.cons_ne_nil _ _), List.Mem.head []⟩
    rcases hknown _ _ (oneBlockTable_opens (.vendored crc32) hlen).1 it unknownRecord hnew hhands
      with h | h
    · cases h
    · cases h
  · have hlen : (toLe 4 1 ++ recordsBytes [emptyRecord] ++ [0]).length < 2^31 := by decide
    have hencodable : Encodable emptyRecord := ⟨by decide, by decide, by decide⟩
    have hblocks := complete_oneBlockTable (.vendored crc32) hencodable hlen
    have hkeys := knowsFirstKeys_oneBlockTable (.vendored crc32) hencodable hlen
    have haccepts : ∀ r ∈ allRecords [([emptyRecord], [0])],
        acceptingFilter.mayContain (.vendored crc32) r.1 = .ok true :=
      List.forall_mem_singleton.2 (acceptingFilter_mayContain
        (Hashing.hashes_vendored.2 (show MurmurHash3.Fits [] by decide)))
    have hfits : MurmurHash3.Fits [1] := by decide
    have hkey : (Hashing.vendored crc32).Hashes [1] := Hashing.hashes_vendored.2 hfits
    obtain ⟨it, hnew, hyields⟩ := Iterator.yields_iff.2 ⟨_, hblocks, rfl⟩
    have hlookup := hagree _ _ (oneBlockTable_opens (.vendored crc32) hlen).1 it _ hnew hyields
      (List.pairwise_singleton _ _) hkeys haccepts [1] hfits
    -- The key lies behind the record, and the byte trails it.
    have hindexed := indexed_of_complete hkeys (fun _ he => he) hblocks
    have hknown : ∀ r ∈ allRecords [([emptyRecord], [0])], KnownOperation r :=
      List.forall_mem_singleton.2 (.inl rfl)
    refine (lookupEntry_iff hindexed (List.pairwise_singleton _ _) hknown haccepts hkey).1 hlookup
      ⟨acceptingFilter_mayContain hkey, [], _, [], rfl, List.cons_ne_nil _ _, ?_, by simp⟩
    exact List.forall_mem_singleton.2 (show ([] : Bytes) < [1] by decide)

end Sstable

end Kronos
