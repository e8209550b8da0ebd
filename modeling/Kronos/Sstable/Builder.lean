import Kronos.Bloom

/-!
# The SSTable builder

`SstableBuilder` of `src/sstable.cpp`: records are collected in a block, which is written with a
record count and a CRC32 when the next record would carry it over the target size, and `finish`
writes the last block, the Bloom filter, the sparse index and the footer. The object holds the
bytes written so far to the `.tmp` file, of which `finish` returns the last state, the bytes that
it publishes under the table's path.

File positions are natural numbers: the file system takes files of any size.
-/

namespace Kronos

open ByteString

/-- `SparseIndexEntry`: where a block lies in the file, and the first key in it. -/
structure SparseIndexEntry where
  firstKey : Bytes
  blockOffset : ℕ
  blockSize : ℕ
  deriving DecidableEq, Repr

/-- The state of an `SstableBuilder`. -/
structure SstableBuilder where
  file : Bytes
  targetBlockSize : ℕ
  bitsPerKey : ℕ
  currentBlock : Bytes
  currentBlockRecordCount : ℕ
  currentBlockFirstKey : Bytes
  sparseIndex : List SparseIndexEntry
  bloomKeys : List Bytes
  lastKey : Option Bytes
  deriving DecidableEq, Repr

namespace Sstable

/-- `sstable_magic_`. -/
def magic : Bytes := [75, 83, 83, 84]

/-- `version`. -/
def version : ℕ := 1

/-- The bytes of a file's header. -/
def header : Bytes := magic ++ toLe 4 version

/-- The header has 8 bytes. -/
@[simp] theorem length_header : header.length = 8 := rfl

end Sstable

namespace SstableBuilder

/-- The constructor, which writes the header. -/
def new (blockSize bitsPerKey : ℕ) : SstableBuilder :=
  ⟨Sstable.header, blockSize, bitsPerKey, [], 0, [], [], [], none⟩

/-- The serialized record of `add`,
`[sequence:8][operation:1][key_len:4][value_len:4][key][value]`. -/
def recordBytes (r : TableRecord) : Bytes :=
  toLe 8 r.2.sequence ++ [r.2.operation.byte] ++ toLe 4 r.1.length ++ toLe 4 r.2.value.length ++
    r.1 ++ r.2.value

/-- The bytes of a block, `[record_count][records][CRC32]`. The CRC32 takes the length of the
records as a 32-bit `uInt`. -/
def blockBytes (H : Hashing) (recordCount : ℕ) (block : Bytes) : Bytes :=
  toLe 4 recordCount ++ block ++
    toLe 4 (H.crc32 (toLe 4 recordCount ++ block.take (block.length % 2^32))).toNat

/-- `flushCurrentBlock`. -/
def flushCurrentBlock (H : Hashing) (b : SstableBuilder) : SstableBuilder :=
  if b.currentBlock.length = 0 then b
  else
    { b with
      file := b.file ++ blockBytes H b.currentBlockRecordCount b.currentBlock
      sparseIndex := b.sparseIndex ++
        [⟨b.currentBlockFirstKey, b.file.length, (4 + b.currentBlock.length + 4) % 2^32⟩]
      currentBlock := []
      currentBlockRecordCount := 0
      currentBlockFirstKey := [] }

/-- `add`. -/
def add (H : Hashing) (b : SstableBuilder) (r : TableRecord) : Except Failure SstableBuilder :=
  if ∃ last ∈ b.lastKey, r.1 ≤ last then
    .error (.exception "SSTable keys must be strictly increasing")
  else
    let bytes := recordBytes r
    let b := if b.currentBlock.length ≠ 0 ∧
      4 + b.currentBlock.length + bytes.length + 4 > b.targetBlockSize then b.flushCurrentBlock H
      else b
    .ok { b with
      currentBlockFirstKey := if b.currentBlock.length = 0 then r.1 else b.currentBlockFirstKey
      currentBlock := b.currentBlock ++ bytes
      currentBlockRecordCount := b.currentBlockRecordCount + 1
      bloomKeys := b.bloomKeys ++ [r.1]
      lastKey := some r.1 }

/-- What a CRC32 protects, followed by it. -/
def withChecksum (H : Hashing) (payload : Bytes) : Bytes := payload ++ toLe 4 (H.checksum payload)

/-- The bytes that `writeBloomFilter` writes, `[bit_count][probe_count][bits][CRC32]`. -/
def bloomBytes (H : Hashing) (filter : BloomFilter) : Bytes :=
  withChecksum H (toLe 4 filter.bitCount ++ toLe 4 filter.probeCount ++ filter.bits)

/-- The bytes of an entry of the index, `[first_key_len][first_key][block_offset][block_size]`. -/
def indexEntryBytes (e : SparseIndexEntry) : Bytes :=
  toLe 4 e.firstKey.length ++ e.firstKey ++ toLe 8 e.blockOffset ++ toLe 4 e.blockSize

/-- The bytes that `writeSparseIndex` writes, `[entry_count][entries][CRC32]`. -/
def indexBytes (H : Hashing) (index : List SparseIndexEntry) : Bytes :=
  withChecksum H (toLe 4 index.length ++ (index.map indexEntryBytes).flatten)

/-- The bytes that `writeFooter` writes,
`[bloom_offset][bloom_size][index_offset][index_size][CRC32]`. -/
def footerBytes (H : Hashing) (bloomOffset bloomSize indexOffset indexSize : ℕ) : Bytes :=
  withChecksum H (toLe 8 bloomOffset ++ toLe 8 bloomSize ++ toLe 8 indexOffset ++
    toLe 8 indexSize)

/-- `finish`: the bytes of the finished table. -/
def finish (H : Hashing) (b : SstableBuilder) : Except Failure Bytes :=
  let b := b.flushCurrentBlock H
  if b.bloomKeys = [] then .error (.exception "Cannot create an empty SSTable")
  else do
    let filter ← BloomFilter.new b.bitsPerKey b.bloomKeys.length
    let filter ← b.bloomKeys.foldlM (BloomFilter.add H) filter
    let bloomOffset := b.file.length
    let bloom := bloomBytes H filter
    let indexOffset := bloomOffset + bloom.length
    let index := indexBytes H b.sparseIndex
    .ok (b.file ++ bloom ++ index ++
      footerBytes H bloomOffset (indexOffset - bloomOffset) indexOffset
        (indexOffset + index.length - indexOffset))

end SstableBuilder

/-- A whole build: the records are added in order, and the table is finished. -/
def Sstable.build (H : Hashing) (targetBlockSize bitsPerKey : ℕ) (rs : List TableRecord) :
    Except Failure Bytes := do
  let b ← rs.foldlM (SstableBuilder.add H) (SstableBuilder.new targetBlockSize bitsPerKey)
  b.finish H

end Kronos
