import Kronos.Sstable.Builder

/-!
# The SSTable reader

`SstableReader` of `src/sstable.cpp` and its `Iterator`, over the bytes of a file. Opening a table
reads the header, the footer, the Bloom filter and the sparse index; `lookupEntry` searches one
block for a key; the iterator walks the blocks in order. Both parse a record with the same checked
reads (`readRecord`).
-/

namespace Kronos

open ByteString

/-- The state of an `SstableReader`. Its Bloom filter is there once the constructor returned. -/
structure SstableReader where
  file : Bytes
  sparseIndex : List SparseIndexEntry
  bloomFilter : BloomFilter
  deriving DecidableEq, Repr

/-- `FooterInfo`. -/
structure FooterInfo where
  bloomOffset : ℕ
  bloomSize : ℕ
  indexOffset : ℕ
  indexSize : ℕ
  deriving DecidableEq, Repr

namespace SstableReader

/-! ## Reading -/

/-- `lseek` to an offset and `read_exact` there, or `pread_exact`, which fails with a text of its
own. A seek to an offset that `off_t` does not hold and the allocation of a buffer for a size that
the file does not have throw in the code before the read, with texts of their own: here they fail as
the read would, since the bytes are not there. -/
def readExact (message : String) (file : Bytes) (offset size : ℕ) : Except Failure Bytes :=
  if size ≠ 0 ∧ offset + size > file.length then .error (.exception message)
  else .ok (slice file offset size)

/-- The text of `read_exact`. -/
def readMessage : String := "Failed to read SSTable data"

/-- The text of `pread_exact` at the end of the file. -/
def preadMessage : String := "Unexpected EOF while reading SSTable data block"

/-- Splits bytes into a payload and the CRC32 behind it, and compares that with the payload's. -/
def checkPayload (H : Hashing) (message : String) (bytes : Bytes) : Except Failure Bytes :=
  let payload := bytes.take (bytes.length - 4)
  if H.checksum payload ≠ ofLe (bytes.drop (bytes.length - 4)) then .error (.exception message)
  else .ok payload

/-! ## Opening a table -/

/-- `readHeader`. -/
def readHeader (file : Bytes) : Except Failure Unit := do
  let magicBuffer ← readExact readMessage file 0 4
  if magicBuffer ≠ Sstable.magic then
    .error (.exception "Invalid SSTable magic: file may be corrupted or not an SSTable")
  else
    let versionBuffer ← readExact readMessage file 4 4
    if ofLe versionBuffer ≠ Sstable.version then
      .error (.exception "Unsupported SSTable version")
    else .ok ()

/-- `readFooter`. -/
def readFooter (H : Hashing) (file : Bytes) : Except Failure FooterInfo :=
  if file.length < 36 then .error (.exception "Unable to seek to SSTable footer")
  else do
    let footer ← readExact readMessage file (file.length - 36) 36
    let payload ← checkPayload H "SSTable footer checksum mismatch" footer
    .ok ⟨ofLe (slice payload 0 8), ofLe (slice payload 8 8), ofLe (slice payload 16 8),
      ofLe (slice payload 24 8)⟩

/-- `loadBloomFilter`. -/
def loadBloomFilter (H : Hashing) (file : Bytes) (bloomOffset bloomSize : ℕ) :
    Except Failure BloomFilter :=
  if bloomSize < 12 then .error (.exception "Invalid Bloom filter block size")
  else do
    let bytes ← readExact readMessage file bloomOffset bloomSize
    let payload ← checkPayload H "Bloom filter checksum mismatch" bytes
    let bitCount := ofLe (slice payload 0 4)
    let probeCount := ofLe (slice payload 4 4)
    let bits := payload.drop 8
    if bitCount = 0 ∨ probeCount = 0 ∨ bits = [] then
      .error (.exception "Invalid Bloom filter metadata")
    else if bits.length ≠ (bitCount + 7) / 8 then
      .error (.exception "Invalid Bloom filter bit count")
    else BloomFilter.restore bitCount probeCount bits

/-- The text of the error for an index whose fields exceed its payload. -/
def indexFailure : Failure := .exception "Corrupted SSTable sparse index"

/-- One pass of the loop of `loadSparseIndex`: the entry at the cursor. -/
def readIndexEntry (payload : Bytes) (cursor : ℕ) : Except Failure (SparseIndexEntry × ℕ) := do
  let (firstKeyLength, cursor) ← readField indexFailure payload 4 cursor
  let (firstKey, cursor) ← readField indexFailure payload (ofLe firstKeyLength) cursor
  let (blockOffset, cursor) ← readField indexFailure payload 8 cursor
  let (blockSize, cursor) ← readField indexFailure payload 4 cursor
  .ok (⟨firstKey, ofLe blockOffset, ofLe blockSize⟩, cursor)

/-- The loop of `loadSparseIndex`. -/
def readIndexEntries (payload : Bytes) : ℕ → ℕ → Except Failure (List SparseIndexEntry × ℕ)
  | 0, cursor => .ok ([], cursor)
  | count + 1, cursor => do
    let (e, cursor) ← readIndexEntry payload cursor
    let (es, cursor) ← readIndexEntries payload count cursor
    .ok (e :: es, cursor)

/-- `loadSparseIndex`. -/
def loadSparseIndex (H : Hashing) (file : Bytes) (indexOffset indexSize : ℕ) :
    Except Failure (List SparseIndexEntry) :=
  if indexSize < 8 then .error (.exception "Invalid SSTable sparse index size")
  else do
    let bytes ← readExact readMessage file indexOffset indexSize
    let payload ← checkPayload H "Invalid SSTable sparse index CRC" bytes
    let (entryCount, cursor) ← readField indexFailure payload 4 0
    if ofLe entryCount > (payload.length - cursor) / 16 then
      .error (.exception "Invalid SSTable sparse index entry count")
    else do
      let (index, cursor) ← readIndexEntries payload (ofLe entryCount) cursor
      if cursor ≠ payload.length then
        .error (.exception "Unexpected trailing bytes in SSTable sparse index")
      else .ok index

/-- The constructor, over the bytes of the file. -/
def openTable (H : Hashing) (file : Bytes) : Except Failure SstableReader := do
  readHeader file
  let footer ← readFooter H file
  let bloomFilter ← loadBloomFilter H file footer.bloomOffset footer.bloomSize
  let sparseIndex ← loadSparseIndex H file footer.indexOffset footer.indexSize
  .ok ⟨file, sparseIndex, bloomFilter⟩

/-! ## Records -/

/-- The text of the error for a block whose fields exceed its payload. -/
def blockFailure : Failure := .exception "Corrupted SSTable data block"

/-- The record at the cursor of a block's payload. -/
def readRecord (payload : Bytes) (cursor : ℕ) : Except Failure (TableRecord × ℕ) := do
  let (sequence, cursor) ← readField blockFailure payload 8 cursor
  let (operation, cursor) ← readField blockFailure payload 1 cursor
  let (keyLength, cursor) ← readField blockFailure payload 4 cursor
  let (valueLength, cursor) ← readField blockFailure payload 4 cursor
  let (key, cursor) ← readField blockFailure payload (ofLe keyLength) cursor
  let (value, cursor) ← readField blockFailure payload (ofLe valueLength) cursor
  .ok ((key, ⟨value, ofLe sequence, ⟨operation.headD 0⟩⟩), cursor)

/-! ## Looking a key up -/

/-- The search of the sparse index: the last block whose first key does not exceed the key, from a
block on for which this holds. -/
def targetBlock (key : Bytes) : SparseIndexEntry → List SparseIndexEntry → SparseIndexEntry
  | target, [] => target
  | target, e :: es => if e.firstKey ≤ key then targetBlock key e es else target

/-- The loop of `lookupEntry` over the records of a block. -/
def lookupRecords (payload key : Bytes) : ℕ → ℕ → Except Failure (Option InternalEntry)
  | 0, cursor =>
    if cursor ≠ payload.length then
      .error (.exception "Unexpected trailing bytes in SSTable data block")
    else .ok none
  | count + 1, cursor => do
    let ((recordKey, e), cursor) ← readRecord payload cursor
    if recordKey = key then
      if e.operation = .delete ∨ e.operation = .put then .ok (some e)
      else .error (.exception "Invalid operation type in SSTable record")
    else if recordKey > key then .ok none
    else lookupRecords payload key count cursor

/-- The part of `lookupEntry` that searches the block of an index entry. -/
def lookupBlock (H : Hashing) (file : Bytes) (block : SparseIndexEntry) (key : Bytes) :
    Except Failure (Option InternalEntry) := do
  let bytes ← readExact preadMessage file block.blockOffset block.blockSize
  if bytes.length < 4 then .error blockFailure
  else do
    let payload ← checkPayload H "Invalid SSTable block CRC" bytes
    let (recordCount, cursor) ← readField blockFailure payload 4 0
    if ofLe recordCount > (payload.length - cursor) / 17 then
      .error (.exception "Invalid SSTable record count")
    else lookupRecords payload key (ofLe recordCount) cursor

/-- `lookupEntry`. -/
def lookupEntry (H : Hashing) (reader : SstableReader) (key : Bytes) :
    Except Failure (Option InternalEntry) := do
  if ¬(← reader.bloomFilter.mayContain H key) then .ok none
  else
    match reader.sparseIndex with
    | [] => .ok none
    | first :: rest =>
      if key < first.firstKey then .ok none
      else lookupBlock H reader.file (targetBlock key first rest) key

/-- `get`. -/
def get (H : Hashing) (reader : SstableReader) (key : Bytes) : Except Failure GetResult := do
  match ← reader.lookupEntry H key with
  | none => .ok ⟨[], .notFound⟩
  | some e => if e.operation = .delete then .ok ⟨[], .deleted⟩ else .ok ⟨e.value, .found⟩

/-! ## Iterating -/

/-- The state of an `SstableReader::Iterator`. -/
structure Iterator where
  reader : SstableReader
  currentBlockIndex : ℕ
  blockPayload : Bytes
  cursor : ℕ
  currentKey : Bytes
  currentEntry : InternalEntry
  recordCount : ℕ
  currentRecordIndex : ℕ
  valid : Bool
  deriving DecidableEq, Repr

namespace Iterator

/-- `loadBlock`. -/
def loadBlock (H : Hashing) (it : Iterator) (blockIndex : ℕ) : Except Failure Iterator :=
  match it.reader.sparseIndex[blockIndex]? with
  | none => .error (.exception "SSTable iterator block index out of range")
  | some block =>
    if block.blockSize < 8 then .error (.exception "Invalid SSTable block size")
    else do
      let bytes ← readExact readMessage it.reader.file block.blockOffset block.blockSize
      let payload ← checkPayload H "Invalid SSTable block CRC" bytes
      let recordCount := ofLe (slice payload 0 4)
      if recordCount = 0 then
        .error (.exception "Indexed SSTable block contains no records")
      else .ok { it with
        currentBlockIndex := blockIndex
        blockPayload := payload
        cursor := 4
        recordCount := recordCount
        currentRecordIndex := 0 }

/-- `parseCurrentRecord`. -/
def parseCurrentRecord (it : Iterator) : Except Failure Iterator := do
  let ((key, e), cursor) ← readRecord it.blockPayload it.cursor
  .ok { it with cursor := cursor, currentKey := key, currentEntry := e, valid := true }

/-- The constructor. -/
def new (H : Hashing) (reader : SstableReader) : Except Failure Iterator :=
  let it : Iterator := ⟨reader, 0, [], 0, [], ⟨[], 0, .delete⟩, 0, 0, false⟩
  if reader.sparseIndex = [] then .ok it
  else do
    let it ← it.loadBlock H 0
    it.parseCurrentRecord

/-- `next`. -/
def next (H : Hashing) (it : Iterator) : Except Failure Iterator :=
  if ¬it.valid then .ok it
  else if it.currentRecordIndex + 1 < it.recordCount then
    parseCurrentRecord { it with currentRecordIndex := it.currentRecordIndex + 1 }
  else
    let nextBlockIndex := it.currentBlockIndex + 1
    if nextBlockIndex ≥ it.reader.sparseIndex.length then .ok { it with valid := false }
    else do
      let it ← it.loadBlock H nextBlockIndex
      it.parseCurrentRecord

/-- The iterator yields the records in order, each with its key, and then is invalid. -/
inductive Yields (H : Hashing) : Iterator → List TableRecord → Prop where
  | done {it : Iterator} : it.valid = false → Yields H it []
  | record {it it' : Iterator} {rs : List TableRecord} : it.valid = true →
    it.next H = .ok it' → Yields H it' rs → Yields H it ((it.currentKey, it.currentEntry) :: rs)

end Iterator

end SstableReader

end Kronos
