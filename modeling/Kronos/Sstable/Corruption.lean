import Kronos.Sstable.Limits

/-!
# A changed byte

A table of which one byte was changed does not lie. The header is compared with what it must be, and
the footer, the Bloom filter, the index and each block are checked against their CRC32 before
anything in them is used (`checkPayload_set`). So every part that the reader takes from the file is
either the part that was built, or an exception (`openTable_set`, `lookupEntry_set`,
`loadBlock_set`), and what a lookup or an iterator gives is what it gave before, unless it throws
(`build_set`).
-/

namespace Kronos

open ByteString SstableBuilder SstableReader Sstable

/-- A call throws, or it returns this value. -/
def ThrowsOrReturns {α : Type} (x : Except Failure α) (a : α) : Prop :=
  (∃ message, x = .error (.exception message)) ∨ x = .ok a

/-- What goes on from a call that throws or returns. -/
theorem ThrowsOrReturns.bind {α β : Type} {x : Except Failure α} {a : α}
    {f : α → Except Failure β} {b : β} (h : ThrowsOrReturns x a) (hf : ThrowsOrReturns (f a) b) :
    ThrowsOrReturns (x >>= f) b := by
  rcases h with ⟨message, h⟩ | h
  · rw [h]
    exact .inl ⟨message, rfl⟩
  · rw [h, ok_bind]
    exact hf

/-- The iterator yields these records, or the first of them until it throws. -/
inductive SstableReader.Iterator.YieldsOrThrows (H : Hashing) :
    Iterator → List TableRecord → Prop where
  | done {it : Iterator} : it.valid = false → YieldsOrThrows H it []
  | record {it it' : Iterator} {rs : List TableRecord} : it.valid = true →
    it.next H = .ok it' → YieldsOrThrows H it' rs →
    YieldsOrThrows H it ((it.currentKey, it.currentEntry) :: rs)
  | throws {it : Iterator} {rs : List TableRecord} (message : String) : it.valid = true →
    it.next H = .error (.exception message) →
    YieldsOrThrows H it ((it.currentKey, it.currentEntry) :: rs)

namespace Sstable

variable {H : Hashing} {file : Bytes} {j : ℕ} {b : UInt8}

/-! ## Parts of the file -/

/-- A CRC32 detects a changed byte, in the payload or in itself. -/
theorem checkPayload_set (hdetects : H.DetectsByte) {message : String} {bytes payload : Bytes}
    (h : checkPayload H message bytes = .ok payload) (hsize : bytes.length < 2^32 + 4)
    (hdiffers : Differs bytes j b) :
    checkPayload H message (bytes.set j b) = .error (.exception message) := by
  have hlt := hdiffers.1
  unfold checkPayload at h ⊢
  dsimp only at h ⊢
  split_ifs at h with hsum
  rw [not_not] at hsum
  rw [List.length_set]
  refine if_pos ?_
  by_cases hj : j < bytes.length - 4
  · -- The payload changes, and the stored checksum does not.
    have hmod : (bytes.take (bytes.length - 4)).length % 2^32 = bytes.length - 4 := by
      rw [List.length_take, Nat.mod_eq_of_lt (by omega)]
      omega
    have hchanged := hdetects.checksum (hdiffers.take hj) (by rw [hmod]; exact hj)
    rw [List.take_set, List.drop_set_of_lt hj, ← hsum]
    exact hchanged
  · -- The stored checksum changes, and the payload does not.
    have hchanged := (hdiffers.drop (Nat.le_of_not_lt hj)).set_ne
    rw [List.take_set_of_le (Nat.le_of_not_lt hj), List.drop_set, if_neg hj, hsum]
    intro heq
    refine hchanged (eq_of_ofLe_eq ?_ heq.symm)
    rw [List.length_set]

/-- A part of the file is read as before, or with the changed byte in it. -/
theorem readExact_set {message : String} {offset size : ℕ} {bytes : Bytes}
    (h : readExact message file offset size = .ok bytes) (hdiffers : Differs file j b) :
    readExact message (file.set j b) offset size = .ok bytes ∨
      ∃ i, Differs bytes i b ∧
        readExact message (file.set j b) offset size = .ok (bytes.set i b) := by
  unfold readExact at h ⊢
  rw [List.length_set]
  split_ifs at h ⊢ with hshort
  cases h
  by_cases hinside : offset ≤ j ∧ j < offset + size
  · obtain ⟨hle, hlt⟩ := hinside
    exact .inr ⟨j - offset, hdiffers.slice hle hlt, by rw [slice_set file b hle]⟩
  · exact .inl (by rw [slice_set_of_outside file b (by omega)])

/-- A part that a CRC32 protects is read as before, or it fails its check. -/
theorem readExact_checkPayload_set (hdetects : H.DetectsByte) {message message' : String}
    {offset size : ℕ} {bytes payload : Bytes}
    (hread : readExact message file offset size = .ok bytes)
    (hcheck : checkPayload H message' bytes = .ok payload) (hsize : size < 2^32 + 4)
    (hdiffers : Differs file j b) :
    readExact message (file.set j b) offset size = .ok bytes ∨
      ∃ bytes', readExact message (file.set j b) offset size = .ok bytes' ∧
        bytes'.length = bytes.length ∧
        checkPayload H message' bytes' = .error (.exception message') := by
  have hlen : bytes.length < 2^32 + 4 := by
    unfold readExact at hread
    split_ifs at hread
    cases hread
    refine lt_of_le_of_lt ?_ hsize
    unfold slice
    exact List.length_take_le _ _
  rcases readExact_set hread hdiffers with h | ⟨i, hi, h⟩
  · exact .inl h
  · exact .inr ⟨_, h, List.length_set, checkPayload_set hdetects hcheck hlen hi⟩

/-! ## Opening -/

/-- Every byte of the header is compared. -/
theorem readHeader_set (h : readHeader file = .ok ()) (hdiffers : Differs file j b) :
    ThrowsOrReturns (readHeader (file.set j b)) () := by
  unfold readHeader at h ⊢
  obtain ⟨magicBuffer, hmagic, h⟩ := bind_eq_ok h
  split_ifs at h with hmagicEq
  obtain ⟨versionBuffer, hversion, h⟩ := bind_eq_ok h
  split_ifs at h with hversionEq
  rw [not_not] at hmagicEq hversionEq
  rcases readExact_set hmagic hdiffers with hread | ⟨i, hi, hread⟩
  · rw [hread, ok_bind, if_neg (by simp [hmagicEq])]
    rcases readExact_set hversion hdiffers with hread | ⟨i, hi, hread⟩
    · rw [hread, ok_bind, if_neg (by simp [hversionEq])]
      exact .inr rfl
    · have hne : ofLe (versionBuffer.set i b) ≠ version := fun heq =>
        hi.set_ne (eq_of_ofLe_eq List.length_set (heq.trans hversionEq.symm))
      rw [hread, ok_bind, if_pos hne]
      exact .inl ⟨_, rfl⟩
  · have hne : magicBuffer.set i b ≠ magic := fun heq => hi.set_ne (heq.trans hmagicEq.symm)
    rw [hread, ok_bind, if_pos hne]
    exact .inl ⟨_, rfl⟩

/-- Behind a changed byte, the footer is found to be damaged, or read as before. -/
theorem readFooter_set (hdetects : H.DetectsByte) {footer : FooterInfo}
    (h : readFooter H file = .ok footer) (hdiffers : Differs file j b) :
    ThrowsOrReturns (readFooter H (file.set j b)) footer := by
  unfold readFooter at h ⊢
  rw [List.length_set]
  split_ifs at h ⊢ with hshort
  obtain ⟨bytes, hread, h⟩ := bind_eq_ok h
  obtain ⟨payload, hcheck, h⟩ := bind_eq_ok h
  rcases readExact_checkPayload_set hdetects hread hcheck (by norm_num) hdiffers with
    hread' | ⟨bytes', hread', -, hcheck'⟩
  · rw [hread', ok_bind, hcheck, ok_bind]
    exact .inr h
  · rw [hread', ok_bind, hcheck']
    exact .inl ⟨_, rfl⟩

/-- So is the Bloom filter. -/
theorem loadBloomFilter_set (hdetects : H.DetectsByte) {offset size : ℕ} {filter : BloomFilter}
    (h : loadBloomFilter H file offset size = .ok filter) (hsize : size < 2^32 + 4)
    (hdiffers : Differs file j b) :
    ThrowsOrReturns (loadBloomFilter H (file.set j b) offset size) filter := by
  unfold loadBloomFilter at h ⊢
  split_ifs at h ⊢ with hshort
  obtain ⟨bytes, hread, h⟩ := bind_eq_ok h
  obtain ⟨payload, hcheck, h⟩ := bind_eq_ok h
  rcases readExact_checkPayload_set hdetects hread hcheck hsize hdiffers with
    hread' | ⟨bytes', hread', -, hcheck'⟩
  · rw [hread', ok_bind, hcheck, ok_bind]
    exact .inr h
  · rw [hread', ok_bind, hcheck']
    exact .inl ⟨_, rfl⟩

/-- So is the index. -/
theorem loadSparseIndex_set (hdetects : H.DetectsByte) {offset size : ℕ}
    {index : List SparseIndexEntry} (h : loadSparseIndex H file offset size = .ok index)
    (hsize : size < 2^32 + 4) (hdiffers : Differs file j b) :
    ThrowsOrReturns (loadSparseIndex H (file.set j b) offset size) index := by
  unfold loadSparseIndex at h ⊢
  split_ifs at h ⊢ with hshort
  obtain ⟨bytes, hread, h⟩ := bind_eq_ok h
  obtain ⟨payload, hcheck, h⟩ := bind_eq_ok h
  rcases readExact_checkPayload_set hdetects hread hcheck hsize hdiffers with
    hread' | ⟨bytes', hread', -, hcheck'⟩
  · rw [hread', ok_bind, hcheck, ok_bind]
    exact .inr h
  · rw [hread', ok_bind, hcheck']
    exact .inl ⟨_, rfl⟩

/-- The sizes in the footer of a file are those of parts that a CRC32 covers. -/
def CoveredParts (H : Hashing) (file : Bytes) : Prop :=
  ∃ footer, readFooter H file = .ok footer ∧ footer.bloomSize < 2^32 + 4 ∧
    footer.indexSize < 2^32 + 4

/-- An opened file is opened with the same index and filter when a byte is changed, or the
constructor throws. -/
theorem openTable_set (hdetects : H.DetectsByte) {reader : SstableReader}
    (h : openTable H file = .ok reader) (hparts : CoveredParts H file)
    (hdiffers : Differs file j b) :
    ThrowsOrReturns (openTable H (file.set j b)) { reader with file := file.set j b } := by
  obtain ⟨footer, hfooter, hbloomSize, hindexSize⟩ := hparts
  unfold openTable at h ⊢
  obtain ⟨⟨⟩, hheader, h⟩ := bind_eq_ok h
  rw [hfooter, ok_bind] at h
  obtain ⟨filter, hbloom, h⟩ := bind_eq_ok h
  obtain ⟨index, hindex, h⟩ := bind_eq_ok h
  cases h
  have hheader' := readHeader_set hheader hdiffers
  have hfooter' := readFooter_set hdetects hfooter hdiffers
  have hbloom' := loadBloomFilter_set hdetects hbloom hbloomSize hdiffers
  have hindex' := loadSparseIndex_set hdetects hindex hindexSize hdiffers
  exact hheader'.bind (hfooter'.bind (hbloom'.bind (hindex'.bind (.inr rfl))))

/-! ## Lookups -/

/-- So is a block. -/
theorem lookupBlock_set (hdetects : H.DetectsByte) {block : SparseIndexEntry} {key : Bytes}
    {e : Option InternalEntry} (h : lookupBlock H file block key = .ok e)
    (hsize : block.blockSize < 2^32) (hdiffers : Differs file j b) :
    ThrowsOrReturns (lookupBlock H (file.set j b) block key) e := by
  unfold lookupBlock at h ⊢
  obtain ⟨bytes, hread, h⟩ := bind_eq_ok h
  split_ifs at h with hshort
  obtain ⟨payload, hcheck, h⟩ := bind_eq_ok h
  rcases readExact_checkPayload_set hdetects hread hcheck (by omega) hdiffers with
    hread' | ⟨bytes', hread', hlen, hcheck'⟩
  · rw [hread', ok_bind, if_neg hshort, hcheck, ok_bind]
    exact .inr h
  · rw [hread', ok_bind, if_neg (by rw [hlen]; exact hshort), hcheck']
    exact .inl ⟨_, rfl⟩

/-- The search of the index selects one of its entries. -/
theorem targetBlock_mem (key : Bytes) (es : List SparseIndexEntry) :
    ∀ e : SparseIndexEntry, targetBlock key e es ∈ e :: es := by
  induction es with
  | nil => exact fun e => .head _
  | cons e' es ih =>
    intro e
    unfold targetBlock
    split_ifs
    · exact .tail _ (ih e')
    · exact .head _

/-- A lookup that returns on the file returns the same when a byte is changed, or it throws. -/
theorem lookupEntry_set (hdetects : H.DetectsByte) {reader : SstableReader} {key : Bytes}
    {e : Option InternalEntry} (h : reader.lookupEntry H key = .ok e)
    (hsizes : ∀ block ∈ reader.sparseIndex, block.blockSize < 2^32)
    (hdiffers : Differs reader.file j b) :
    ThrowsOrReturns ({ reader with file := reader.file.set j b }.lookupEntry H key) e := by
  unfold lookupEntry at h ⊢
  obtain ⟨may, hmay, h⟩ := bind_eq_ok h
  dsimp only
  rw [hmay, ok_bind]
  cases may with
  | true =>
    rw [if_neg (by simp)] at h ⊢
    generalize reader.sparseIndex = index at h hsizes ⊢
    cases index with
    | nil => exact .inr h
    | cons first rest =>
      dsimp only at h ⊢
      split_ifs at h ⊢ with hlt
      · exact .inr h
      · exact lookupBlock_set hdetects h (hsizes _ (targetBlock_mem key rest first)) hdiffers
  | false =>
    rw [if_pos (by simp)] at h ⊢
    exact .inr h

/-- A lookup of a key that is not hashed does not come as far as the file. -/
theorem lookupEntry_unhashed {reader reader' : SstableReader} {key : Bytes}
    (h : ¬H.Hashes key) (hfilter : reader'.bloomFilter = reader.bloomFilter) :
    reader'.lookupEntry H key = reader.lookupEntry H key := by
  have hprobes : ∀ filter : BloomFilter, filter.mayContain H key = .error MurmurHash3.outside := by
    intro filter
    unfold Hashing.Hashes at h
    rw [Option.not_isSome_iff_eq_none] at h
    rw [BloomFilter.mayContain, BloomFilter.keyProbes, h]
    rfl
  unfold lookupEntry
  rw [hfilter, hprobes]
  rfl

/-! ## Iterators -/

/-- The same iterator, over a reader of another file. -/
def onFile (file : Bytes) (it : Iterator) : Iterator :=
  { it with reader := { it.reader with file := file } }

/-- A block is loaded as before, or the iterator throws. -/
theorem loadBlock_set (hdetects : H.DetectsByte) {it it' : Iterator} {i : ℕ}
    (h : it.loadBlock H i = .ok it') (hsizes : ∀ block ∈ it.reader.sparseIndex,
      block.blockSize < 2^32) (hdiffers : Differs it.reader.file j b) :
    it'.reader = it.reader ∧ ThrowsOrReturns ((onFile (it.reader.file.set j b) it).loadBlock H i)
      (onFile (it.reader.file.set j b) it') := by
  unfold Iterator.loadBlock at h ⊢
  unfold onFile
  cases hentry : it.reader.sparseIndex[i]? with
  | none =>
    rw [hentry] at h
    cases h
  | some block =>
    rw [hentry] at h
    dsimp only at h ⊢
    split_ifs at h ⊢ with hshort
    obtain ⟨bytes, hread, h⟩ := bind_eq_ok h
    obtain ⟨payload, hcheck, h⟩ := bind_eq_ok h
    split_ifs at h with hcount
    cases h
    have hsize := hsizes block (List.mem_of_getElem? hentry)
    refine ⟨rfl, ?_⟩
    rcases readExact_checkPayload_set hdetects hread hcheck (by omega) hdiffers with
      hread' | ⟨bytes', hread', -, hcheck'⟩
    · rw [hread', ok_bind, hcheck, ok_bind, if_neg hcount]
      exact .inr rfl
    · rw [hread', ok_bind, hcheck']
      exact .inl ⟨_, rfl⟩

/-- A record is parsed without the file. -/
theorem parseCurrentRecord_onFile {it it' : Iterator} (h : it.parseCurrentRecord = .ok it')
    (file : Bytes) : it'.reader = it.reader ∧
      (onFile file it).parseCurrentRecord = .ok (onFile file it') := by
  unfold Iterator.parseCurrentRecord at h ⊢
  obtain ⟨⟨r, cursor⟩, hread, h⟩ := bind_eq_ok h
  cases h
  have hread' : readRecord (onFile file it).blockPayload (onFile file it).cursor =
      .ok (r, cursor) := hread
  rw [hread', ok_bind]
  exact ⟨rfl, rfl⟩

/-- Loading a block and parsing its first record. -/
theorem loadFirst_set (hdetects : H.DetectsByte) {it it' : Iterator} {i : ℕ}
    (h : (do let it ← it.loadBlock H i; it.parseCurrentRecord) = .ok it')
    (hsizes : ∀ block ∈ it.reader.sparseIndex, block.blockSize < 2^32)
    (hdiffers : Differs it.reader.file j b) :
    it'.reader = it.reader ∧ ThrowsOrReturns
      (do let it ← (onFile (it.reader.file.set j b) it).loadBlock H i; it.parseCurrentRecord)
      (onFile (it.reader.file.set j b) it') := by
  obtain ⟨loaded, hload, hparse⟩ := bind_eq_ok h
  obtain ⟨hreader, hload'⟩ := loadBlock_set hdetects hload hsizes hdiffers
  obtain ⟨hreader', hparse'⟩ := parseCurrentRecord_onFile hparse (it.reader.file.set j b)
  exact ⟨hreader'.trans hreader, hload'.bind (.inr hparse')⟩

/-- A step of the iterator goes where it went before, or it throws. -/
theorem next_set (hdetects : H.DetectsByte) {it it' : Iterator} (h : it.next H = .ok it')
    (hsizes : ∀ block ∈ it.reader.sparseIndex, block.blockSize < 2^32)
    (hdiffers : Differs it.reader.file j b) :
    it'.reader = it.reader ∧ ThrowsOrReturns ((onFile (it.reader.file.set j b) it).next H)
      (onFile (it.reader.file.set j b) it') := by
  have hvalid : (onFile (it.reader.file.set j b) it).valid = it.valid := rfl
  unfold Iterator.next at h ⊢
  rw [hvalid]
  by_cases hdone : ¬it.valid
  · rw [if_pos hdone] at h ⊢
    cases h
    exact ⟨rfl, .inr rfl⟩
  rw [if_neg hdone] at h ⊢
  by_cases hmore : it.currentRecordIndex + 1 < it.recordCount
  · have hmore' : (onFile (it.reader.file.set j b) it).currentRecordIndex + 1 <
        (onFile (it.reader.file.set j b) it).recordCount := hmore
    rw [if_pos hmore] at h
    rw [if_pos hmore']
    obtain ⟨hreader, hparse⟩ := parseCurrentRecord_onFile h (it.reader.file.set j b)
    exact ⟨hreader, .inr hparse⟩
  · have hmore' : ¬(onFile (it.reader.file.set j b) it).currentRecordIndex + 1 <
        (onFile (it.reader.file.set j b) it).recordCount := hmore
    rw [if_neg hmore] at h
    rw [if_neg hmore']
    dsimp only at h ⊢
    by_cases hlast : it.currentBlockIndex + 1 ≥ it.reader.sparseIndex.length
    · have hlast' : (onFile (it.reader.file.set j b) it).currentBlockIndex + 1 ≥
          (onFile (it.reader.file.set j b) it).reader.sparseIndex.length := hlast
      rw [if_pos hlast] at h
      rw [if_pos hlast']
      cases h
      exact ⟨rfl, .inr rfl⟩
    · have hlast' : ¬(onFile (it.reader.file.set j b) it).currentBlockIndex + 1 ≥
          (onFile (it.reader.file.set j b) it).reader.sparseIndex.length := hlast
      rw [if_neg hlast] at h
      rw [if_neg hlast']
      exact loadFirst_set hdetects h hsizes hdiffers

/-- What the iterator yields, it yields again until it throws. -/
theorem yields_set (hdetects : H.DetectsByte) {it : Iterator} {rs : List TableRecord}
    (h : it.Yields H rs) : (∀ block ∈ it.reader.sparseIndex, block.blockSize < 2^32) →
      Differs it.reader.file j b → (onFile (it.reader.file.set j b) it).YieldsOrThrows H rs := by
  induction h with
  | done hvalid => exact fun _ _ => .done hvalid
  | @record it it' rs hvalid hnext _ ih =>
    intro hsizes hdiffers
    obtain ⟨hreader, hstep⟩ := next_set hdetects hnext hsizes hdiffers
    rw [hreader] at ih
    rcases hstep with ⟨message, hthrows⟩ | hreturns
    · exact .throws message hvalid hthrows
    · exact .record hvalid hreturns (ih hsizes hdiffers)

/-- The constructor of the iterator, too, does what it did, or throws. -/
theorem new_set (hdetects : H.DetectsByte) {reader : SstableReader} {it : Iterator}
    (h : Iterator.new H reader = .ok it)
    (hsizes : ∀ block ∈ reader.sparseIndex, block.blockSize < 2^32)
    (hdiffers : Differs reader.file j b) :
    it.reader = reader ∧ ThrowsOrReturns
      (Iterator.new H { reader with file := reader.file.set j b })
      (onFile (reader.file.set j b) it) := by
  unfold Iterator.new at h ⊢
  dsimp only at h ⊢
  split_ifs at h ⊢ with hempty
  · cases h
    exact ⟨rfl, .inr rfl⟩
  · exact loadFirst_set hdetects h hsizes hdiffers

/-! ## What the builder writes -/

/-- What fits has parts that a CRC32 covers. -/
theorem coveredParts_of_build {targetBlockSize bitsPerKey : ℕ} {rs : List TableRecord}
    (h : build H targetBlockSize bitsPerKey rs = .ok file) (hvalid : ∀ r ∈ rs, ValidRecord r)
    (hfits : Fits targetBlockSize bitsPerKey rs) : CoveredParts H file := by
  obtain ⟨hsorted, hne, hbits⟩ := sorted_of_build h
  obtain ⟨hflatten, hnonempty⟩ := splitBlocks_spec targetBlockSize rs
  obtain ⟨hblocks, hindex, hbloom⟩ := hfits
  have hcount := length_le_indexPayloadSize (splitBlocks targetBlockSize rs)
  obtain ⟨filter, hnew, hsized, hbitCount, -⟩ :=
    BloomFilter.new_spec (Nat.one_le_iff_ne_zero.2 hbits) (List.length_pos_iff.2 hne) hbloom
  obtain ⟨filter', hadd, hsized', hbitCount', -⟩ :=
    BloomFilter.mayContain_addAll (List.forall_mem_map.2 (hashes_of_build h)) hsized
  have hgood : ∀ block ∈ splitBlocks targetBlockSize rs, GoodBlock block := fun block hblock =>
    ⟨hblocks block hblock, hnonempty block hblock, fun r hr =>
      (hvalid r (hflatten ▸ List.mem_flatten_of_mem hblock hr)).sequence_lt⟩
  rw [build_eq H _ _ hsorted hne, hnew, ok_bind, hadd, ok_bind] at h
  cases h
  have hbits' : filter'.bitCount < 2^32 := by
    rw [hbitCount', hbitCount]
    exact hbloom
  have hlen := hsized'.2
  obtain ⟨hbloomLen, hindexLen⟩ := length_parts_lt H hgood (by omega) hsized' hbits'
  refine ⟨_, readFooter_fileBytes H hbloomLen hindexLen, ?_, ?_⟩
  · dsimp only
    rw [length_bloomBytes]
    omega
  · dsimp only
    rw [length_indexBytes]
    omega

/-- **A changed byte.** A built table that fits, with one of its bytes changed: the constructor
throws, or a lookup throws or returns what it returns on the table as it was built, and the iterator
throws or yields the records. For a key that is not hashed a lookup does not come as far as the
bytes. -/
theorem build_set (hdetects : H.DetectsByte) {targetBlockSize bitsPerKey : ℕ}
    {rs : List TableRecord} (hbuild : build H targetBlockSize bitsPerKey rs = .ok file)
    (hvalid : ∀ r ∈ rs, ValidRecord r) (hfits : Fits targetBlockSize bitsPerKey rs)
    (hdiffers : Differs file j b) :
    (∃ message, openTable H (file.set j b) = .error (.exception message)) ∨
    ∃ reader reader', openTable H file = .ok reader ∧ openTable H (file.set j b) = .ok reader' ∧
      (∀ key, H.Hashes key → ∃ e, reader.lookupEntry H key = .ok e ∧
        ThrowsOrReturns (reader'.lookupEntry H key) e) ∧
      (∀ key, ¬H.Hashes key → reader'.lookupEntry H key = reader.lookupEntry H key) ∧
      ((∃ message, Iterator.new H reader' = .error (.exception message)) ∨
        ∃ it, Iterator.new H reader' = .ok it ∧ it.YieldsOrThrows H rs) := by
  obtain ⟨hsorted, hne, hbits⟩ := sorted_of_build hbuild
  have hcount := length_le_indexPayloadSize (splitBlocks targetBlockSize rs)
  have hindex := hfits.index
  obtain ⟨file', hbuild', reader, hopen, ⟨it, hnew, hyields⟩, hlookup⟩ :=
    exists_stores targetBlockSize (Nat.one_le_iff_ne_zero.2 hbits) hne hsorted
      (hashes_of_build hbuild) hvalid hfits.blocks (by omega) hfits.bloom
  rw [hbuild] at hbuild'
  cases hbuild'
  have hparts := coveredParts_of_build hbuild hvalid hfits
  obtain ⟨rfl, -⟩ := openTable_index hopen
  have hsizes := openTable_blockSize hopen
  refine (openTable_set hdetects hopen hparts hdiffers).imp_right fun hopen' => ?_
  refine ⟨reader, _, hopen, hopen', fun key hkey => ?_, fun key hkey => ?_, ?_⟩
  · exact ⟨_, hlookup key hkey, lookupEntry_set hdetects (hlookup key hkey) hsizes hdiffers⟩
  · exact lookupEntry_unhashed hkey rfl
  · obtain ⟨hreader, hnew'⟩ := new_set hdetects hnew hsizes hdiffers
    refine hnew'.imp_right fun hnew' => ⟨_, hnew', ?_⟩
    rw [← hreader] at hsizes hdiffers ⊢
    exact yields_set hdetects hyields hsizes hdiffers

/-- Two records, each in a block of its own. -/
def twoRecords : List TableRecord := [([], ⟨[1], 7, .put⟩), ([97], ⟨[], 8, .delete⟩)]

/-- The table of the two records. -/
def twoRecordsTable : Bytes := (build byteSum 0 10 twoRecords).toOption.getD []

/-- The bytes of the table with the two records. -/
theorem build_twoRecords : build byteSum 0 10 twoRecords = .ok twoRecordsTable := rfl

/-- The value of the first of them changes. -/
theorem build_set_two :
    (∃ message, openTable byteSum (twoRecordsTable.set 29 9) = .error (.exception message)) ∨
    ∃ reader reader', openTable byteSum twoRecordsTable = .ok reader ∧
      openTable byteSum (twoRecordsTable.set 29 9) = .ok reader' ∧
      (∀ key, byteSum.Hashes key → ∃ e, reader.lookupEntry byteSum key = .ok e ∧
        ThrowsOrReturns (reader'.lookupEntry byteSum key) e) ∧
      (∀ key, ¬byteSum.Hashes key →
        reader'.lookupEntry byteSum key = reader.lookupEntry byteSum key) ∧
      ((∃ message, Iterator.new byteSum reader' = .error (.exception message)) ∨
        ∃ it, Iterator.new byteSum reader' = .ok it ∧ it.YieldsOrThrows byteSum twoRecords) := by
  have hvalid : ∀ r ∈ twoRecords, ValidRecord r := by
    simp only [twoRecords, List.forall_mem_cons, List.not_mem_nil, false_implies, implies_true,
      and_true]
    exact ⟨⟨by decide, .inl rfl⟩, by decide, .inr rfl⟩
  have hfits : Fits 0 10 twoRecords := ⟨by decide, by decide, by decide⟩
  have hdiffers : Differs twoRecordsTable 29 9 := by decide +kernel
  exact build_set byteSum_detectsByte build_twoRecords hvalid hfits hdiffers

end Sstable

end Kronos
