import Kronos.Types
import Kronos.Base.OrderedMap

/-!
# The Memtable

`Memtable` of `src/memtable.cpp`: an ordered map from keys to their newest versions, with an
estimate of the memory that it takes, that can be frozen once. Sizes are those of a 64-bit
platform with libstdc++.
-/

namespace Kronos

/-- `MemTableState`. -/
inductive MemTableState where
  | immutable
  | mutable
  deriving DecidableEq, Repr

/-- `WriteResult`. -/
inductive WriteResult where
  | success
  | immutable
  | olderSequence
  deriving DecidableEq, Repr

/-- A sorted table of versions: the contents of a Memtable, and of an SSTable. -/
abbrev Table := OrderedMap Bytes InternalEntry

/-- The state of a `Memtable`. -/
structure Memtable where
  table : Table
  memoryUsage : ℕ
  targetBytes : ℕ
  state : MemTableState

namespace Memtable

/-- The constructor. -/
def new (targetBytes : ℕ) : Memtable := ⟨OrderedMap.empty, 0, targetBytes, .mutable⟩

/-- `estimate_entry_size`: `sizeof(std::string)`, `sizeof(Entry)`, the bytes of the key and the
value, and four pointers for the node of the map. -/
def estimateEntrySize (key : Bytes) (entry : InternalEntry) : ℕ :=
  32 + 48 + key.length + entry.value.length + 4 * 8

/-- `lookupEntry`. -/
def lookupEntry (m : Memtable) (key : Bytes) : Option InternalEntry := m.table.lookup key

/-- `entry_count`. -/
def entryCount (m : Memtable) : ℕ := m.table.entries.length

/-- `would_exceed_target`. -/
def wouldExceedTarget (m : Memtable) (key : Bytes) (newEntry : InternalEntry) : Bool :=
  let newSize := estimateEntrySize key newEntry
  match m.lookupEntry key with
  | some old =>
    if newEntry.sequence ≤ old.sequence then false
    else m.memoryUsage - estimateEntrySize key old + newSize > m.targetBytes
  | none => m.memoryUsage + newSize > m.targetBytes

/-- What `put` and `remove` share: a newer version replaces the one in the table. -/
def write (m : Memtable) (key : Bytes) (newEntry : InternalEntry) : WriteResult × Memtable :=
  if m.state ≠ .mutable then (.immutable, m)
  else
    match m.lookupEntry key with
    | some old =>
      if old.sequence ≥ newEntry.sequence then (.olderSequence, m)
      else
        (.success, { m with
          table := m.table.insert key newEntry
          memoryUsage := m.memoryUsage - estimateEntrySize key old +
            estimateEntrySize key newEntry })
    | none =>
      (.success, { m with
        table := m.table.insert key newEntry
        memoryUsage := m.memoryUsage + estimateEntrySize key newEntry })

/-- `put`. -/
def put (m : Memtable) (key value : Bytes) (sequence : ℕ) : WriteResult × Memtable :=
  m.write key ⟨value, sequence, .put⟩

/-- `remove`: a delete is stored as a tombstone. -/
def remove (m : Memtable) (key : Bytes) (sequence : ℕ) : WriteResult × Memtable :=
  m.write key ⟨[], sequence, .delete⟩

/-- `freeze`. -/
def freeze (m : Memtable) : Bool × Memtable :=
  if m.state = .mutable then (true, { m with state := .immutable }) else (false, m)

/-- `get`. -/
def get (m : Memtable) (key : Bytes) : GetResult :=
  match m.lookupEntry key with
  | none => ⟨[], .notFound⟩
  | some entry => if entry.operation = .delete then ⟨[], .deleted⟩ else ⟨entry.value, .found⟩

/-- A write of a version that is newer than all in a mutable table succeeds, and inserts it. -/
theorem write_of_newer {m : Memtable} {key : Bytes} {newEntry : InternalEntry}
    (hstate : m.state = .mutable)
    (hnewer : ∀ r ∈ m.table.entries, r.2.sequence < newEntry.sequence) :
    ∃ memoryUsage, m.write key newEntry = (.success,
      { m with table := m.table.insert key newEntry, memoryUsage := memoryUsage }) := by
  rw [write, if_neg (not_not.2 hstate)]
  cases hlookup : m.lookupEntry key with
  | none => exact ⟨_, rfl⟩
  | some old =>
    have hold := hnewer _ (OrderedMap.lookup_eq_some_iff.1 hlookup)
    dsimp only at hold ⊢
    rw [if_neg (Nat.not_le.2 hold)]
    exact ⟨_, rfl⟩

end Memtable

end Kronos
