import Kronos.Base.LastWrite
import Kronos.Engine.Model

/-!
# What a Memtable holds

A Memtable that records were written to, in the order of their sequence numbers, holds the last one
for every key (`Memtable.Replays`). This is what the last section of `put` and `remove` keeps up
(`KronosEngine.insertLocked_spec`), and what a recovery restores: the constructor of an engine
replays the records of the log that are newer than the checkpoint, and starts behind all of them
(`KronosEngine.construct_spec`).
-/

namespace Kronos

/-- The version of its key that a record stands for. -/
def Record.entry (r : Record) : InternalEntry :=
  if r.operation = .put then ⟨r.value, r.sequence, .put⟩ else ⟨[], r.sequence, .delete⟩

/-- The entry of a record has its sequence number. -/
@[simp] theorem Record.entry_sequence (r : Record) : r.entry.sequence = r.sequence := by
  unfold Record.entry
  split_ifs <;> rfl

/-- The record of a write has its key. -/
@[simp] theorem Write.record_key (w : Write) (sequence : ℕ) : (w.record sequence).key = w.key := by
  cases w <;> rfl

/-- It has the sequence number that the log gave. -/
@[simp] theorem Write.record_sequence (w : Write) (sequence : ℕ) :
    (w.record sequence).sequence = sequence := by
  cases w <;> rfl

/-- The record of a write stands for its entry. -/
@[simp] theorem Write.record_entry (w : Write) (sequence : ℕ) :
    (w.record sequence).entry = w.entry sequence := by
  cases w <;> rfl

/-- The last version of a key in some records. -/
def lastEntry (key : Bytes) (rs : List Record) : Option InternalEntry :=
  (lastWrite Record.key key rs).map Record.entry

/-- The last entry of a key lies in the second part, or in the first. -/
theorem lastEntry_append (key : Bytes) (rs rs' : List Record) :
    lastEntry key (rs ++ rs') = (lastEntry key rs').or (lastEntry key rs) := by
  unfold lastEntry
  rw [lastWrite_append]
  cases lastWrite Record.key key rs' <;> rfl

/-- One more record decides the entry of its key. -/
theorem lastEntry_concat (key : Bytes) (rs : List Record) (r : Record) :
    lastEntry key (rs ++ [r]) = if r.key = key then some r.entry else lastEntry key rs := by
  unfold lastEntry
  rw [lastWrite_concat]
  split_ifs <;> rfl

/-- A key without a record has no last entry. -/
theorem lastEntry_eq_none_iff {key : Bytes} {rs : List Record} :
    lastEntry key rs = none ↔ ∀ r ∈ rs, r.key ≠ key := by
  rw [lastEntry, Option.map_eq_none_iff, lastWrite_eq_none_iff]

/-- The last entry of a key is that of one of its records. -/
theorem mem_of_lastEntry {key : Bytes} {rs : List Record} {entry : InternalEntry}
    (h : lastEntry key rs = some entry) : ∃ r ∈ rs, r.key = key ∧ r.entry = entry := by
  obtain ⟨r, hr, hentry⟩ := Option.map_eq_some_iff.1 h
  exact ⟨r, (mem_of_lastWrite hr).1, (mem_of_lastWrite hr).2, hentry⟩

namespace Memtable

/-- A Memtable holds the last version of every key in some records. -/
def Replays (m : Memtable) (rs : List Record) : Prop := ∀ key, m.lookupEntry key = lastEntry key rs

/-- An empty Memtable replays nothing. -/
theorem replays_new (targetBytes : ℕ) : (new targetBytes).Replays [] := fun _ => rfl

/-- What is in the table are last versions. -/
theorem Replays.mem_iff {m : Memtable} {rs : List Record} (h : m.Replays rs) {key : Bytes}
    {entry : InternalEntry} : (key, entry) ∈ m.table.entries ↔ lastEntry key rs = some entry := by
  rw [← h key]
  exact OrderedMap.lookup_eq_some_iff.symm

/-- Every entry stands for a record. -/
theorem Replays.exists_record {m : Memtable} {rs : List Record} (h : m.Replays rs)
    {r : TableRecord} (hr : r ∈ m.table.entries) :
    ∃ record ∈ rs, record.key = r.1 ∧ record.entry = r.2 := mem_of_lastEntry (h.mem_iff.1 hr)

/-- The table is empty when there are no records. -/
theorem Replays.entries_eq_nil_iff {m : Memtable} {rs : List Record} (h : m.Replays rs) :
    m.table.entries = [] ↔ rs = [] := by
  constructor
  · intro hnil
    refine List.eq_nil_iff_forall_not_mem.2 fun r hr => ?_
    have hnone : lastEntry r.key rs = none := by
      rw [← h r.key, lookupEntry, OrderedMap.lookup, hnil]
      rfl
    exact lastEntry_eq_none_iff.1 hnone r hr rfl
  · rintro rfl
    refine List.eq_nil_iff_forall_not_mem.2 fun r hr => ?_
    exact nomatch h.mem_iff.1 hr

/-- A Memtable is empty when it replays nothing. -/
theorem Replays.entryCount_eq_zero_iff {m : Memtable} {rs : List Record} (h : m.Replays rs) :
    m.entryCount = 0 ↔ rs = [] := by
  rw [entryCount, List.length_eq_zero_iff, h.entries_eq_nil_iff]

/-- The table of one record. -/
theorem Replays.entries_singleton {m : Memtable} {r : Record} (h : m.Replays [r]) :
    m.table.entries = [(r.key, r.entry)] := by
  have hmem : ∀ r', r' ∈ m.table.entries ↔ r' = (r.key, r.entry) := by
    rintro ⟨key, entry⟩
    have hlast : lastEntry key [r] = if r.key = key then some r.entry else none :=
      lastEntry_concat key [] r
    rw [h.mem_iff, hlast]
    split_ifs with hkey
    · subst hkey
      simp [eq_comm]
    · simp [Ne.symm hkey]
  have hsorted := m.table.sorted
  cases hentries : m.table.entries with
  | nil =>
    have hnone := (hmem (r.key, r.entry)).2 rfl
    rw [hentries] at hnone
    cases hnone
  | cons first rest =>
    rw [hentries] at hmem hsorted
    rw [(hmem first).1 (.head _)]
    congr 1
    refine List.eq_nil_iff_forall_not_mem.2 fun r' hr' => ?_
    have hlt := List.rel_of_pairwise_cons hsorted hr'
    rw [(hmem first).1 (.head _), (hmem r').1 (.tail _ hr')] at hlt
    exact absurd hlt (lt_irrefl _)

/-- A Memtable, frozen. -/
def frozen (m : Memtable) : Memtable := { m with state := .immutable }

/-- A Memtable that takes writes can be frozen. -/
theorem freeze_of_mutable {m : Memtable} (h : m.state = .mutable) :
    m.freeze = (true, m.frozen) := by
  rw [freeze, if_pos h]
  rfl

/-- Freezing changes no entry. -/
theorem Replays.frozen {m : Memtable} {rs : List Record} (h : m.Replays rs) :
    m.frozen.Replays rs := h

/-- Writing the entry of a newer record to a mutable Memtable succeeds. -/
theorem Replays.write {m : Memtable} {rs : List Record} (h : m.Replays rs)
    (hstate : m.state = .mutable) {r : Record} (hnewer : ∀ r' ∈ rs, r'.sequence < r.sequence) :
    ∃ m', m.write r.key r.entry = (.success, m') ∧ m'.state = .mutable ∧
      m'.Replays (rs ++ [r]) := by
  have hentries : ∀ r' ∈ m.table.entries, r'.2.sequence < r.entry.sequence := by
    intro r' hr'
    obtain ⟨record, hrecord, -, hentry⟩ := h.exists_record hr'
    rw [← hentry, Record.entry_sequence, Record.entry_sequence]
    exact hnewer record hrecord
  obtain ⟨memoryUsage, hwrite⟩ := write_of_newer hstate hentries
  refine ⟨_, hwrite, hstate, fun key => ?_⟩
  show (m.table.insert r.key r.entry).lookup key = lastEntry key (rs ++ [r])
  rw [OrderedMap.lookup_insert, lastEntry_concat]
  by_cases hkey : key = r.key
  · rw [if_pos hkey, if_pos hkey.symm]
  · rw [if_neg hkey, if_neg (Ne.symm hkey)]
    exact h key

end Memtable

namespace KronosEngine

variable {F R : Type}

/-! ## The insertion of a writer -/

/-- The section of a writer inserts a record that is newer than those of the active Memtable. -/
theorem insertLocked_spec {e : KronosEngine F} {active : Memtable} {rs : List Record}
    (hactive : e.activeMemtable = some active) (hstate : active.state = .mutable)
    (hreplays : active.Replays rs) {w : Write} {sequence : ℕ}
    (hnewer : ∀ r ∈ rs, r.sequence < sequence) :
    ∃ active', e.insertLocked w sequence = (.ok (), { e with activeMemtable := some active' }) ∧
      active'.state = .mutable ∧ active'.Replays (rs ++ [w.record sequence]) := by
  obtain ⟨active', hwrite, hstate', hreplays'⟩ :=
    hreplays.write (r := w.record sequence) hstate (by simpa using hnewer)
  rw [Write.record_key, Write.record_entry] at hwrite
  refine ⟨active', ?_, hstate', hreplays'⟩
  unfold insertLocked
  rw [hactive]
  cases w with
  | put key value =>
    have hput : active.put key value sequence = (.success, active') := hwrite
    simp only [hput]
  | remove key =>
    have hremove : active.remove key sequence = (.success, active') := hwrite
    simp only [hremove]

/-! ## The replay of a recovery -/

/-- A record of a history is applied to a Memtable with the records before it. -/
theorem applyRecord_spec {m : Memtable} {rs : List Record} (hreplays : m.Replays rs)
    (hstate : m.state = .mutable) {r : Record} (hr : r.Writable)
    (hnewer : ∀ r' ∈ rs, r'.sequence < r.sequence) :
    ∃ m', applyRecord m r = .ok m' ∧ m'.state = .mutable ∧ m'.Replays (rs ++ [r]) := by
  obtain ⟨m', hwrite, hstate', hreplays'⟩ := hreplays.write hstate hnewer
  refine ⟨m', ?_, hstate', hreplays'⟩
  unfold applyRecord
  rcases hr.1 with hop | hop
  · have hput : m.put r.key r.value r.sequence = (.success, m') := by
      rw [← hwrite, Memtable.put, Record.entry, if_pos hop]
    rw [if_pos hop, hput]
  · have hne : r.operation ≠ .put := by
      rw [hop]
      decide
    have hremove : m.remove r.key r.sequence = (.success, m') := by
      rw [← hwrite, Memtable.remove, Record.entry, if_neg hne]
    rw [if_neg hne, if_pos hop, hremove]

/-- The records of a history are applied one behind the other. -/
theorem foldlM_applyRecord {rs' : List Record} : ∀ {m : Memtable} {rs : List Record},
    Wal.ValidHistory (rs ++ rs') → m.Replays rs → m.state = .mutable →
    ∃ m', rs'.foldlM applyRecord m = .ok m' ∧ m'.state = .mutable ∧ m'.Replays (rs ++ rs') := by
  induction rs' with
  | nil =>
    intro m rs _ hreplays hstate
    exact ⟨m, rfl, hstate, by rwa [List.append_nil]⟩
  | cons r rs' ih =>
    intro m rs hv hreplays hstate
    have hnewer : ∀ r' ∈ rs, r'.sequence < r.sequence := fun r' hr' =>
      (List.pairwise_append.1 hv.increasing).2.2 r' hr' r (.head _)
    obtain ⟨m₁, happly, hstate₁, hreplays₁⟩ := applyRecord_spec hreplays hstate
      (hv.writable r (by simp)) hnewer
    have hsplit : rs ++ r :: rs' = rs ++ [r] ++ rs' := by simp
    rw [hsplit] at hv ⊢
    obtain ⟨m', hrest, hm'⟩ := ih hv hreplays₁ hstate₁
    exact ⟨m', by rw [List.foldlM_cons, happly, ok_bind, hrest], hm'⟩

/-- The sequence number of the last record, if there is one. -/
def lastSequence (rs : List Record) : Option ℕ := rs.getLast?.map Record.sequence

/-- Behind the checkpoint of the first part of a history, the second part is left. -/
theorem newerThan_append {dropped front back : List Record}
    (hv : Wal.ValidHistory (dropped ++ front ++ back)) :
    newerThan (lastSequence (dropped ++ front)) (front ++ back) = back := by
  rcases List.eq_nil_or_concat' (dropped ++ front) with hnil | ⟨init, last, hlast⟩
  · obtain ⟨rfl, rfl⟩ := List.append_eq_nil_iff.1 hnil
    exact List.filter_eq_self.2 fun _ _ => rfl
  · have hpairwise := hv.increasing
    rw [hlast] at hpairwise
    obtain ⟨hinit, -, hback⟩ := List.pairwise_append.1 hpairwise
    have hthrough : lastSequence (dropped ++ front) = some last.sequence := by
      rw [hlast, lastSequence, List.getLast?_concat]
      rfl
    rw [hthrough]
    unfold newerThan
    rw [List.filter_append]
    have hfront : ∀ r ∈ front, r.sequence ≤ last.sequence := by
      intro r hr
      have hmem : r ∈ init ++ [last] := hlast ▸ List.mem_append_right _ hr
      rcases List.mem_append.1 hmem with hearlier | hthis
      · exact ((List.pairwise_append.1 hinit).2.2 r hearlier last (.head _)).le
      · rw [List.mem_singleton.1 hthis]
    rw [List.filter_eq_nil_iff.2, List.filter_eq_self.2, List.nil_append]
    · intro r hr
      have hlt := hback last (by simp) r hr
      simpa using hlt
    · intro r hr
      simpa using hfront r hr

/-- The sequence numbers of a history are below the last one, or equal to it. -/
theorem le_lastSequence {rs : List Record} (hv : Wal.ValidHistory rs) {through : ℕ}
    (h : lastSequence rs = some through) :
    (∀ r ∈ rs, r.sequence ≤ through) ∧ ∃ r ∈ rs, r.sequence = through := by
  obtain ⟨last, hlast, rfl⟩ := Option.map_eq_some_iff.1 h
  obtain ⟨init, rfl⟩ := List.getLast?_eq_some_iff.1 hlast
  refine ⟨fun r hr => ?_, last, by simp, rfl⟩
  rcases List.mem_append.1 hr with hearlier | hthis
  · exact ((List.pairwise_append.1 hv.increasing).2.2 r hearlier last (.head _)).le
  · rw [List.mem_singleton.1 hthis]

/-! ## The constructor -/

/-- A directory with a torn log of the records `rs` of which the MANIFEST covers the first ones.
`dropped` are those that were reclaimed, and `dropped ++ front` those that are covered. -/
structure Reopens (H : Hashing) (s : Store F) (log : Bytes) (dropped front back : List Record) :
    Prop where
  history : Wal.ValidHistory (dropped ++ front ++ back)
  checkpoint : s.manifest.persistedThrough = lastSequence (dropped ++ front)
  log : ∃ t, log = Wal.header ++ Wal.encodeRecords H (front ++ back) ++ t ∧ Wal.TornTail H t

/-- An engine as its constructor leaves it over such a directory: the records that the MANIFEST does
not cover are in the active Memtable, and all records are behind the allocator. -/
structure Constructed (H : Hashing) (s : Store F) (e : KronosEngine F)
    (dropped front back : List Record) : Prop where
  log : Wal.AtEnd H .synced e.log.wal (front ++ back)
  named : e.log.named = none
  fresh : ∀ r ∈ dropped ++ front ++ back, r.sequence < e.log.wal.nextSequence
  active : ∃ active, e.activeMemtable = some active ∧ active.state = .mutable ∧
    active.Replays back
  store : e.store = { s with nextSstableId := 1 }
  durable : e.durable = s.manifest
  immutable : e.immutableMemtable = none
  queue : e.flushQueue = []
  opened : e.queueClosed = false
  backgroundError : e.backgroundError = none
  shuttingDown : e.shuttingDown = false

/-- The allocator behind a recovery is behind every record. -/
theorem nextSequence_recovered {H : Hashing} {dropped front back : List Record}
    (hv : Wal.ValidHistory (dropped ++ front ++ back)) :
    (∀ through, lastSequence (dropped ++ front) = some through →
      ∀ r ∈ dropped ++ front ++ back,
        r.sequence < ((Wal.recovered H (front ++ back) 0).ensureNextSequenceAtLeast
          (through + 1)).nextSequence) ∧
      (lastSequence (dropped ++ front) = none →
        ∀ r ∈ dropped ++ front ++ back,
          r.sequence < (Wal.recovered H (front ++ back) 0).nextSequence) := by
  have hv' : Wal.ValidHistory (front ++ back) :=
    hv.sublist (by rw [List.append_assoc]; exact List.sublist_append_right _ _)
  have hkept := hv'.lt_nextAfter 0
  refine ⟨fun through hthrough r hr => ?_, fun hnone r hr => ?_⟩
  · have hcovered := (le_lastSequence (hv.sublist (List.sublist_append_left _ _)) hthrough).1
    unfold Wal.ensureNextSequenceAtLeast Wal.recovered
    rcases List.mem_append.1 hr with hr | hr
    · have hle := hcovered r hr
      dsimp only
      split_ifs with hlt
      · exact Nat.lt_succ_of_le hle
      · exact (Nat.lt_succ_of_le hle).trans_le (Nat.not_lt.1 hlt)
    · have hlt := hkept r (List.mem_append_right _ hr)
      dsimp only
      split_ifs with hraise
      · exact hlt.trans hraise
      · exact hlt
  · have hnil : dropped ++ front = [] :=
      List.getLast?_eq_none_iff.1 (Option.map_eq_none_iff.1 hnone)
    obtain ⟨rfl, rfl⟩ := List.append_eq_nil_iff.1 hnil
    exact hkept r (by simpa using hr)

/-- What starts over such a directory, if the live SSTables open. -/
theorem start_spec {H : Hashing} {fmt : TableFormat F R} {s : Store F} {log : Bytes}
    {dropped front back : List Record} (h : Reopens H s log dropped front back)
    (memtableTargetBytes : ℕ) :
    ∃ active wal, start H fmt s (some log) memtableTargetBytes =
        (validateManifestSstables fmt s >>= fun _ => .ok (active, wal)) ∧
      active.state = .mutable ∧ active.Replays back ∧ Wal.AtEnd H .synced wal (front ++ back) ∧
      ∀ r ∈ dropped ++ front ++ back, r.sequence < wal.nextSequence := by
  obtain ⟨t, rfl, ht⟩ := h.log
  have hv : Wal.ValidHistory (front ++ back) := h.history.sublist
    (by rw [List.append_assoc]; exact List.sublist_append_right _ _)
  obtain ⟨active, hreplay, hstate, hreplays⟩ := @foldlM_applyRecord back
    (.new memtableTargetBytes) [] (h.history.sublist (List.sublist_append_right _ _))
    (Memtable.replays_new _) rfl
  have hend := Wal.atEnd_recovered H hv (Nat.zero_le uint64Max)
  obtain ⟨hraised, hkept⟩ := nextSequence_recovered (H := H) h.history
  rw [start_torn H fmt s hv ht, h.checkpoint, newerThan_append h.history, hreplay]
  cases hthrough : lastSequence (dropped ++ front) with
  | none => exact ⟨active, _, rfl, hstate, hreplays, hend, hkept hthrough⟩
  | some through =>
    obtain ⟨-, r, hr, hsequence⟩ :=
      le_lastSequence (h.history.sublist (List.sublist_append_left _ _)) hthrough
    have hlt : through < uint64Max :=
      hsequence ▸ h.history.sequence_lt r (List.mem_append_left _ hr)
    refine ⟨active, _, ?_, hstate, hreplays, hend.ensureNextSequenceAtLeast hlt,
      hraised through hthrough⟩
    simp only [ok_bind, if_neg hlt.ne]

/-- **Opening.** Over a directory with the log of a history, the constructor makes an engine with
what the MANIFEST does not cover in memory. It throws only when a live SSTable does not open. -/
theorem construct_spec {H : Hashing} {fmt : TableFormat F R} {s : Store F} {log : Bytes}
    {dropped front back : List Record} (h : Reopens H s log dropped front back)
    (memtableTargetBytes : ℕ) (compactionPolicy : CompactionPolicy) :
    ∃ e, construct H fmt s (some log) memtableTargetBytes compactionPolicy =
        (validateManifestSstables fmt s >>= fun _ => .ok e) ∧
      Constructed H s e dropped front back := by
  obtain ⟨active, wal, hstart, hstate, hreplays, hend, hfresh⟩ :=
    @start_spec _ _ _ fmt _ _ _ _ _ h memtableTargetBytes
  refine ⟨opened s active wal memtableTargetBytes compactionPolicy, ?_,
    ⟨hend, rfl, hfresh, ⟨active, rfl, hstate, hreplays⟩, rfl, rfl, rfl, rfl, rfl, rfl, rfl⟩⟩
  unfold construct
  rw [hstart]
  cases validateManifestSstables fmt s <;> rfl

end KronosEngine

end Kronos
