import Mathlib.Logic.Function.Iterate
import Kronos.Base.Avoids
import Kronos.Sstable.Reader

/-!
# The SSTable reader, with its accesses checked

`SstableReader` and its `Iterator` once more, access by access. A read through a pointer into a
buffer, a difference of sizes, a probe of the Bloom filter and a remainder are `Failure.undefined`
where C++ leaves the behaviour undefined, or where an unsigned difference wraps around. A checksum
is over a part of its buffer, so that the whole of this part is checked. The Bloom filter calls
`MurmurHash3_x86_32` itself.

A step of an `Iterator` is given with the iterator that it leaves behind, whether it throws or not,
since a caller may catch the exception and go on.
-/

namespace Kronos.SstableReader.Checked

open ByteString

/-! ## Accesses -/

/-- A read outside of a buffer. -/
def outside : Failure := .undefined "read outside of a buffer"

/-- A read of some bytes through a pointer into a buffer. -/
def readAt (buffer : Bytes) (offset size : ℕ) : Except Failure Bytes :=
  if offset + size ≤ buffer.length then .ok (slice buffer offset size) else .error outside

/-- `decode_from_le`, through a pointer into a buffer. -/
def decodeAt (buffer : Bytes) (offset size : ℕ) : Except Failure ℕ := do
  let bytes ← readAt buffer offset size
  .ok (ofLe bytes)

/-- A difference of two sizes. -/
def minus (a b : ℕ) : Except Failure ℕ :=
  if b ≤ a then .ok (a - b) else .error (.undefined "size underflow")

/-- `require_bytes`. -/
def requireBytes (failure : Failure) (payloadSize cursor count : ℕ) : Except Failure Unit :=
  if cursor > payloadSize then .error failure
  else do
    let left ← minus payloadSize cursor
    if count > left then .error failure else .ok ()

/-- The next bytes of a payload, and the cursor behind them. -/
def field (failure : Failure) (buffer : Bytes) (payloadSize count cursor : ℕ) :
    Except Failure (Bytes × ℕ) := do
  requireBytes failure payloadSize cursor count
  let bytes ← readAt buffer cursor count
  .ok (bytes, cursor + count)

/-- The check of a CRC32 at the end of a buffer, and the size of what is in front of it. -/
def payloadSize (H : Hashing) (message : String) (buffer : Bytes) : Except Failure ℕ := do
  let size ← minus buffer.length 4
  let payload ← readAt buffer 0 size
  let stored ← decodeAt buffer size 4
  if H.checksum payload ≠ stored then .error (.exception message) else .ok size

/-! ## Opening a table -/

/-- `readHeader`. -/
def readHeader (file : Bytes) : Except Failure Unit := do
  let magicBuffer ← readExact readMessage file 0 4
  let compared ← readAt magicBuffer 0 4
  if compared ≠ Sstable.magic then
    .error (.exception "Invalid SSTable magic: file may be corrupted or not an SSTable")
  else
    let versionBuffer ← readExact readMessage file 4 4
    let sstableVersion ← decodeAt versionBuffer 0 4
    if sstableVersion ≠ Sstable.version then .error (.exception "Unsupported SSTable version")
    else .ok ()

/-- `readFooter`. -/
def readFooter (H : Hashing) (file : Bytes) : Except Failure FooterInfo :=
  if file.length < 36 then .error (.exception "Unable to seek to SSTable footer")
  else do
    let footer ← readExact readMessage file (file.length - 36) 36
    let bloomOffset ← decodeAt footer 0 8
    let bloomSize ← decodeAt footer 8 8
    let indexOffset ← decodeAt footer 16 8
    let indexSize ← decodeAt footer 24 8
    let stored ← decodeAt footer 32 4
    let metadata ← readAt footer 0 32
    if H.checksum metadata ≠ stored then .error (.exception "SSTable footer checksum mismatch")
    else .ok ⟨bloomOffset, bloomSize, indexOffset, indexSize⟩

/-- `loadBloomFilter`. -/
def loadBloomFilter (H : Hashing) (file : Bytes) (bloomOffset bloomSize : ℕ) :
    Except Failure BloomFilter :=
  if bloomSize < 12 then .error (.exception "Invalid Bloom filter block size")
  else do
    let bytes ← readExact readMessage file bloomOffset bloomSize
    let bitCount ← decodeAt bytes 0 4
    let probeCount ← decodeAt bytes 4 4
    let checksumOffset ← payloadSize H "Bloom filter checksum mismatch" bytes
    let bitsSize ← minus checksumOffset 8
    let bits ← readAt bytes 8 bitsSize
    if bitCount = 0 ∨ probeCount = 0 ∨ bits = [] then
      .error (.exception "Invalid Bloom filter metadata")
    else if bits.length ≠ (bitCount + 7) / 8 then
      .error (.exception "Invalid Bloom filter bit count")
    else BloomFilter.restore bitCount probeCount bits

/-- One pass of the loop of `loadSparseIndex`. -/
def readIndexEntry (buffer : Bytes) (size cursor : ℕ) : Except Failure (SparseIndexEntry × ℕ) := do
  let (firstKeyLength, cursor) ← field indexFailure buffer size 4 cursor
  let (firstKey, cursor) ← field indexFailure buffer size (ofLe firstKeyLength) cursor
  let (blockOffset, cursor) ← field indexFailure buffer size 8 cursor
  let (blockSize, cursor) ← field indexFailure buffer size 4 cursor
  .ok (⟨firstKey, ofLe blockOffset, ofLe blockSize⟩, cursor)

/-- The loop of `loadSparseIndex`. -/
def readIndexEntries (buffer : Bytes) (size : ℕ) :
    ℕ → ℕ → Except Failure (List SparseIndexEntry × ℕ)
  | 0, cursor => .ok ([], cursor)
  | count + 1, cursor => do
    let (e, cursor) ← readIndexEntry buffer size cursor
    let (es, cursor) ← readIndexEntries buffer size count cursor
    .ok (e :: es, cursor)

/-- `loadSparseIndex`. -/
def loadSparseIndex (H : Hashing) (file : Bytes) (indexOffset indexSize : ℕ) :
    Except Failure (List SparseIndexEntry) :=
  if indexSize < 8 then .error (.exception "Invalid SSTable sparse index size")
  else do
    let bytes ← readExact readMessage file indexOffset indexSize
    let size ← payloadSize H "Invalid SSTable sparse index CRC" bytes
    let (entryCount, cursor) ← field indexFailure bytes size 4 0
    let remaining ← minus size cursor
    if ofLe entryCount > remaining / 16 then
      .error (.exception "Invalid SSTable sparse index entry count")
    else do
      let (index, cursor) ← readIndexEntries bytes size (ofLe entryCount) cursor
      if cursor ≠ size then
        .error (.exception "Unexpected trailing bytes in SSTable sparse index")
      else .ok index

/-- The constructor. -/
def openTable (H : Hashing) (file : Bytes) : Except Failure SstableReader := do
  readHeader file
  let footer ← readFooter H file
  let bloomFilter ← loadBloomFilter H file footer.bloomOffset footer.bloomSize
  let sparseIndex ← loadSparseIndex H file footer.indexOffset footer.indexSize
  .ok ⟨file, sparseIndex, bloomFilter⟩

/-! ## Looking a key up -/

/-- The loop of `mayContain`. -/
def probeBits (filter : BloomFilter) (delta : UInt32) : ℕ → UInt32 → Except Failure Bool
  | 0, _ => .ok true
  | count + 1, h =>
    if filter.bitCount = 0 then .error (.undefined "remainder of a division by zero")
    else
      let position := h.toNat % filter.bitCount
      if position / 8 < filter.bits.length then
        if filter.bits.getD (position / 8) 0 &&& BloomFilter.bitMask position = 0 then .ok false
        else probeBits filter delta count (h + delta)
      else .error (.undefined "Bloom filter byte out of range")

/-- `mayContain`. -/
def mayContain (filter : BloomFilter) (key : Bytes) : Except Failure Bool := do
  let h ← MurmurHash3.hash bloomFilterSeed key
  let delta := (h >>> 17) ||| (h <<< 15)
  probeBits filter delta filter.probeCount h

/-- The record at the cursor of a block. -/
def readRecord (buffer : Bytes) (size cursor : ℕ) : Except Failure (TableRecord × ℕ) := do
  let (sequence, cursor) ← field blockFailure buffer size 8 cursor
  let (operation, cursor) ← field blockFailure buffer size 1 cursor
  let (keyLength, cursor) ← field blockFailure buffer size 4 cursor
  let (valueLength, cursor) ← field blockFailure buffer size 4 cursor
  let (key, cursor) ← field blockFailure buffer size (ofLe keyLength) cursor
  let (value, cursor) ← field blockFailure buffer size (ofLe valueLength) cursor
  .ok ((key, ⟨value, ofLe sequence, ⟨operation.headD 0⟩⟩), cursor)

/-- The loop of `lookupEntry` over the records of a block. -/
def lookupRecords (buffer : Bytes) (size : ℕ) (key : Bytes) :
    ℕ → ℕ → Except Failure (Option InternalEntry)
  | 0, cursor =>
    if cursor ≠ size then
      .error (.exception "Unexpected trailing bytes in SSTable data block")
    else .ok none
  | count + 1, cursor => do
    let ((recordKey, e), cursor) ← readRecord buffer size cursor
    if recordKey = key then
      if e.operation = .delete ∨ e.operation = .put then .ok (some e)
      else .error (.exception "Invalid operation type in SSTable record")
    else if recordKey > key then .ok none
    else lookupRecords buffer size key count cursor

/-- The part of `lookupEntry` that searches the block of an index entry. -/
def lookupBlock (H : Hashing) (file : Bytes) (block : SparseIndexEntry) (key : Bytes) :
    Except Failure (Option InternalEntry) := do
  let bytes ← readExact preadMessage file block.blockOffset block.blockSize
  if bytes.length < 4 then .error blockFailure
  else do
    let size ← payloadSize H "Invalid SSTable block CRC" bytes
    let (recordCount, cursor) ← field blockFailure bytes size 4 0
    let remaining ← minus size cursor
    if ofLe recordCount > remaining / 17 then
      .error (.exception "Invalid SSTable record count")
    else lookupRecords bytes size key (ofLe recordCount) cursor

/-- `lookupEntry`. -/
def lookupEntry (H : Hashing) (reader : SstableReader) (key : Bytes) :
    Except Failure (Option InternalEntry) := do
  if ¬(← mayContain reader.bloomFilter key) then .ok none
  else
    match reader.sparseIndex with
    | [] => .ok none
    | first :: rest =>
      if key < first.firstKey then .ok none
      else lookupBlock H reader.file (targetBlock key first rest) key

/-! ## Iterating -/

/-- The state of an `SstableReader::Iterator`, with the bytes of its block as they are. -/
structure Cursor where
  reader : SstableReader
  currentBlockIndex : ℕ
  blockBytes : Bytes
  cursor : ℕ
  currentKey : Bytes
  currentEntry : InternalEntry
  recordCount : ℕ
  currentRecordIndex : ℕ
  valid : Bool
  deriving DecidableEq, Repr

namespace Cursor

/-- `block_bytes_.resize`, and the bytes that are read into it, even if they are too few. -/
def readBlock (c : Cursor) (block : SparseIndexEntry) : Cursor :=
  let resized := c.blockBytes.take block.blockSize ++
    List.replicate (block.blockSize - c.blockBytes.length) 0
  let bytes := slice c.reader.file block.blockOffset block.blockSize
  { c with blockBytes := bytes ++ resized.drop bytes.length }

/-- The bytes of the block are there, with their CRC32. -/
def blockSize (H : Hashing) (c : Cursor) (block : SparseIndexEntry) : Except Failure ℕ := do
  let _ ← readExact readMessage c.reader.file block.blockOffset block.blockSize
  payloadSize H "Invalid SSTable block CRC" c.blockBytes

/-- `loadBlock`. -/
def loadBlock (H : Hashing) (c : Cursor) (blockIndex : ℕ) : Except Failure Unit × Cursor :=
  match c.reader.sparseIndex[blockIndex]? with
  | none => (.error (.exception "SSTable iterator block index out of range"), c)
  | some block =>
    let c := { c with currentBlockIndex := blockIndex }
    if block.blockSize < 8 then (.error (.exception "Invalid SSTable block size"), c)
    else
      let c := c.readBlock block
      match c.blockSize H block with
      | .error failure => (.error failure, c)
      | .ok size =>
        let c := { c with cursor := 0 }
        if size < 4 then (.error blockFailure, c)
        else
          match decodeAt c.blockBytes 0 4 with
          | .error failure => (.error failure, c)
          | .ok recordCount =>
            let c := { c with recordCount := recordCount, cursor := 4, currentRecordIndex := 0 }
            if recordCount = 0 then
              (.error (.exception "Indexed SSTable block contains no records"), c)
            else (.ok (), c)

/-- One field of `parseCurrentRecord`, and what follows it over the cursor behind it. -/
def parseField (c : Cursor) (size count : ℕ)
    (next : Bytes → Cursor → Except Failure Unit × Cursor) : Except Failure Unit × Cursor :=
  match field blockFailure c.blockBytes size count c.cursor with
  | .error failure => (.error failure, c)
  | .ok (bytes, cursor) => next bytes { c with cursor := cursor }

/-- `parseCurrentRecord`. -/
def parseCurrentRecord (c : Cursor) : Except Failure Unit × Cursor :=
  match minus c.blockBytes.length 4 with
  | .error failure => (.error failure, c)
  | .ok size =>
    c.parseField size 8 fun sequence c =>
    c.parseField size 1 fun operation c =>
    c.parseField size 4 fun keyLength c =>
    c.parseField size 4 fun valueLength c =>
    c.parseField size (ofLe keyLength) fun key c =>
    { c with currentKey := key }.parseField size (ofLe valueLength) fun value c =>
    (.ok (), { c with
      currentEntry := ⟨value, ofLe sequence, ⟨operation.headD 0⟩⟩
      valid := true })

/-- `loadBlock`, and `parseCurrentRecord` behind it. -/
def loadFirst (H : Hashing) (c : Cursor) (blockIndex : ℕ) : Except Failure Unit × Cursor :=
  match c.loadBlock H blockIndex with
  | (.error failure, c) => (.error failure, c)
  | (.ok (), c) => c.parseCurrentRecord

/-- An iterator over no block. -/
def start (reader : SstableReader) : Cursor :=
  ⟨reader, 0, [], 0, [], ⟨[], 0, .delete⟩, 0, 0, false⟩

/-- `getIterator`. -/
def new (H : Hashing) (reader : SstableReader) : Except Failure Cursor :=
  if reader.sparseIndex = [] then .ok (start reader)
  else
    match (start reader).loadFirst H 0 with
    | (.error failure, _) => .error failure
    | (.ok (), c) => .ok c

/-- `next`. The index of the record has 32 bits. -/
def next (H : Hashing) (c : Cursor) : Except Failure Unit × Cursor :=
  if ¬c.valid then (.ok (), c)
  else if (c.currentRecordIndex + 1) % 2^32 < c.recordCount then
    parseCurrentRecord { c with currentRecordIndex := (c.currentRecordIndex + 1) % 2^32 }
  else
    let nextBlockIndex := c.currentBlockIndex + 1
    if nextBlockIndex ≥ c.reader.sparseIndex.length then (.ok (), { c with valid := false })
    else c.loadFirst H nextBlockIndex

/-- The iterator behind some calls of `next`, whether they have thrown or not. -/
def after (H : Hashing) (c : Cursor) (n : ℕ) : Cursor := (fun c => (c.next H).2)^[n] c

end Cursor

end Kronos.SstableReader.Checked
