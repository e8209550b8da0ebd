import Kronos.Types

/-!
# The write-ahead log

`Wal` of `src/wal.cpp`: the construction over a path, the append of a record, the recovery pass,
and the floor of the sequence allocator. The object is the bytes of the file that its descriptor
refers to, the file position of the descriptor, and the sequence allocator. The descriptor is not
opened with `O_APPEND`, so a write lands at the file position.

A call returns its result beside the object that it leaves behind, since an exception undoes
nothing of what the call did before it. Integers are serialized in the host's byte order, which
is taken to be little-endian.
-/

namespace Kronos

open ByteString

/-- `Wal::RecoveredRecord`: one record of the log. -/
structure Record where
  sequence : ℕ
  operation : OperationType
  key : Bytes
  value : Bytes
  deriving DecidableEq, Repr

/-- A record that an append can write, up to its sequence number: a `PUT` or a `DELETE`, with
lengths of 32 bits. -/
def Record.Writable (r : Record) : Prop :=
  (r.operation = .put ∨ r.operation = .delete) ∧ r.key.length ≤ uint32Max ∧
    r.value.length ≤ uint32Max

namespace Wal

/-- `magic_`. -/
def magic : Bytes := [75, 82, 87, 76]

/-- `version_`. -/
def version : UInt8 := 1

/-- The header of a log file, `[Magic][Version]`. -/
def header : Bytes := magic ++ [version]

/-- The header has five bytes. -/
@[simp] theorem length_header : header.length = 5 := rfl

/-- The bytes of a record that its CRC32 protects. -/
def recordBody (r : Record) : Bytes :=
  toLe 8 r.sequence ++ [r.operation.byte] ++ toLe 4 r.key.length ++ toLe 4 r.value.length ++
    r.key ++ r.value

/-- The bytes of a record,
`[Sequence][Operation][Key Length][Value Length][Key][Value][CRC32]`. -/
def encodeRecord (H : Hashing) (r : Record) : Bytes :=
  recordBody r ++ toLe 4 (H.checksum (recordBody r))

/-- The bytes of a list of records. -/
def encodeRecords (H : Hashing) (rs : List Record) : Bytes := (rs.map (encodeRecord H)).flatten

end Wal

/-- The state of a `Wal` object. -/
structure Wal where
  file : Bytes
  position : ℕ
  nextSequence : ℕ
  deriving DecidableEq, Repr

namespace Wal

/-- The bytes from the file position on. -/
def remaining (w : Wal) : Bytes := w.file.drop w.position

/-- `readUpTo`: at most `n` bytes from the file position, which moves past them. -/
def readUpTo (w : Wal) (n : ℕ) : Bytes × Wal :=
  (w.remaining.take n, { w with position := w.position + (w.remaining.take n).length })

/-- `write`: the bytes land at the file position, which moves past them. A position beyond the end
of the file leaves a hole of zeros. -/
def write (w : Wal) (bytes : Bytes) : Wal :=
  { w with
    file := w.file.take w.position ++ List.replicate (w.position - w.file.length) 0 ++ bytes ++
      w.file.drop (w.position + bytes.length)
    position := w.position + bytes.length }

/-- The constructor, over the bytes of the file at the path if there is one: a new file gets a
header, and the header of an existing one is checked. -/
def construct : Option Bytes → Except Failure Wal
  | none => .ok ⟨header, header.length, 0⟩
  | some file =>
    let magicRead := file.take 4
    let versionRead := (file.drop 4).take 1
    if magicRead.length ≠ 4 then .error (.exception "Failed to read WAL magic")
    else if magicRead ≠ magic then .error (.exception "Invalid WAL magic")
    else if versionRead.length ≠ 1 then .error (.exception "Failed to read WAL version")
    else if versionRead ≠ [version] then .error (.exception "Unsupported WAL version")
    else .ok ⟨file, file.length, 0⟩

/-- `ensureNextSequenceAtLeast`. -/
def ensureNextSequenceAtLeast (w : Wal) (minimumNextSequence : ℕ) : Wal :=
  if w.nextSequence < minimumNextSequence then { w with nextSequence := minimumNextSequence }
  else w

/-! ## Appending -/

/-- How the system calls of an append can fail: `write` fails after it has put `written` bytes of
the record in the file, or `fsync` fails after all of them are there. -/
inductive AppendFault where
  | write (written : ℕ)
  | fsync
  deriving DecidableEq, Repr

/-- `writeRecord`. The write loop fails only before the last byte, so a `write` fault that lets the
whole record through is none. -/
def writeRecord (H : Hashing) (operation : OperationType) (key value : Bytes)
    (fault : Option AppendFault) (w : Wal) : Except Failure ℕ × Wal :=
  if w.nextSequence = uint64Max then (.error (.exception "WAL sequence space exhausted"), w)
  else
    let sequence := w.nextSequence
    if key.length > uint32Max ∨ value.length > uint32Max then
      (.error (.exception "Key or value too large for WAL record"), w)
    else
      let record := encodeRecord H ⟨sequence, operation, key, value⟩
      match fault with
      | none => (.ok sequence, { w.write record with nextSequence := sequence + 1 })
      | some .fsync => (.error (.exception "Failed to fsync WAL"), w.write record)
      | some (.write written) =>
        if written < record.length then
          (.error (.exception "Failed to write WAL record"), w.write (record.take written))
        else (.ok sequence, { w.write record with nextSequence := sequence + 1 })

/-- `put`. -/
def put (H : Hashing) (key value : Bytes) (fault : Option AppendFault) (w : Wal) :
    Except Failure ℕ × Wal :=
  writeRecord H .put key value fault w

/-- `remove`. -/
def remove (H : Hashing) (key : Bytes) (fault : Option AppendFault) (w : Wal) :
    Except Failure ℕ × Wal :=
  writeRecord H .delete key [] fault w

/-! ## Recovery -/

/-- `truncateIncompleteTail`: the file is cut where the incomplete record starts. -/
def truncateIncompleteTail (w : Wal) (recordStart : ℕ) : Wal :=
  { w with file := w.file.take recordStart }

/-- The text of the error for a sequence number that does not exceed the one before it. -/
def nonIncreasingMessage (previous current : ℕ) : String :=
  "WAL corruption detected: non-increasing sequence number; previous=" ++ toString previous ++
    ", current=" ++ toString current

/-- One pass of the loop of `recover`: the next record, or nothing when the loop ends, because the
file ends between two records or an incomplete tail was cut off. -/
def recoverRecord (H : Hashing) (walFileSize : ℕ) (previousSequence : Option ℕ) (w : Wal) :
    Except Failure (Option Record) × Wal :=
  let recordStart := w.position
  -- 1. Sequence
  let (sequenceBytes, w) := w.readUpTo 8
  if sequenceBytes.length = 0 then (.ok none, w)
  else if sequenceBytes.length ≠ 8 then (.ok none, w.truncateIncompleteTail recordStart)
  else
  let sequence := ofLe sequenceBytes
  -- 2. Operation
  let (operationBytes, w) := w.readUpTo 1
  if operationBytes.length ≠ 1 then (.ok none, w.truncateIncompleteTail recordStart)
  else
  let operation : OperationType := ⟨operationBytes.headD 0⟩
  if operation ≠ .put ∧ operation ≠ .delete then
    (.error (.exception "WAL corruption detected: invalid operation"), w)
  else
  -- 3. Key length
  let (keyLengthBytes, w) := w.readUpTo 4
  if keyLengthBytes.length ≠ 4 then (.ok none, w.truncateIncompleteTail recordStart)
  else
  let keyLength := ofLe keyLengthBytes
  -- 4. Value length
  let (valueLengthBytes, w) := w.readUpTo 4
  if valueLengthBytes.length ≠ 4 then (.ok none, w.truncateIncompleteTail recordStart)
  else
  let valueLength := ofLe valueLengthBytes
  -- 5. The lengths, before anything is allocated for them
  let payloadPosition := w.position
  if payloadPosition > walFileSize then
    (.error (.exception "WAL recovery position exceeds file size"), w)
  else
  let bytesRemaining := walFileSize - payloadPosition
  let requiredBytes := keyLength + valueLength + 4
  if requiredBytes > bytesRemaining then (.ok none, w.truncateIncompleteTail recordStart)
  else
  -- 6. Key
  let (key, w) := w.readUpTo keyLength
  if key.length ≠ keyLength then (.ok none, w.truncateIncompleteTail recordStart)
  else
  -- 7. Value
  let (value, w) := w.readUpTo valueLength
  if value.length ≠ valueLength then (.ok none, w.truncateIncompleteTail recordStart)
  else
  -- 8. Stored CRC32
  let (checksumBytes, w) := w.readUpTo 4
  if checksumBytes.length ≠ 4 then (.ok none, w.truncateIncompleteTail recordStart)
  else
  -- 9. The CRC32 of the bytes read, in the order in which the writer has them
  let recordBytes :=
    sequenceBytes ++ operationBytes ++ keyLengthBytes ++ valueLengthBytes ++ key ++ value
  if H.checksum recordBytes ≠ ofLe checksumBytes then
    (.error (.exception "WAL corruption detected: CRC32 mismatch"), w)
  else
  -- 10. The sequence history
  if let some previous := previousSequence.filter (sequence ≤ ·) then
    (.error (.exception (nonIncreasingMessage previous sequence)), w)
  else if sequence = uint64Max then (.error (.exception "WAL sequence space exhausted"), w)
  else
  -- 11. A valid record, from which the allocator is restored
  (.ok (some ⟨sequence, operation, key, value⟩), { w with nextSequence := sequence + 1 })

/-- The loop of `recover`. Each record takes 21 bytes or more, so the file's size bounds the number
of passes; `fuel` counts them. -/
def recoverLoop (H : Hashing) (walFileSize : ℕ) :
    ℕ → Option ℕ → List Record → Wal → Except Failure (List Record) × Wal
  | 0, _, _, w => (.error (.undefined "out of fuel"), w)
  | fuel + 1, previousSequence, records, w =>
    match recoverRecord H walFileSize previousSequence w with
    | (.error e, w) => (.error e, w)
    | (.ok none, w) => (.ok records, w)
    | (.ok (some r), w) => recoverLoop H walFileSize fuel (some r.sequence) (records ++ [r]) w

/-- `recover`. -/
def recover (H : Hashing) (w : Wal) : Except Failure (List Record) × Wal :=
  let walFileSize := w.file.length
  match recoverLoop H walFileSize (walFileSize + 1) none []
    { w with position := header.length } with
  | (.ok records, w) => (.ok records, { w with position := w.file.length })
  | (.error e, w) => (.error e, w)

end Wal

end Kronos
