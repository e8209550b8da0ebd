import Kronos.Engine.Contents
import Kronos.Engine.Runs
import Kronos.Sstable.Format

/-!
# The generations of a key

A lookup that nothing interrupts (`KronosEngine.lookup`) stops at the first generation that has the
key: the active Memtable, the immutable one, the live SSTables. The earlier `get` of
`src/engine 2.cpp` considers all of them, and takes the highest sequence number
(`KronosEngine.lookupExhaustive`). The two agree, since the generations are layered (`Layers`): a
sequence number in the SSTables does not exceed the checkpoint, the Memtables are above it and above
each other, and the log's allocator is above everything.

Between the commit of a flush and the release of its slot, the flushed Memtable is in two
generations: its records are covered by the checkpoint, and it is still the immutable one.
-/

namespace Kronos

open KronosEngine

/-! ## What the generations hold -/

namespace Data

variable {F ι : Type} {H : Hashing} {g : Generations} {e : KronosEngine F} {h : History ι}
  {worker : WorkerPc}

/-- The active Memtable has the last recent record of a key. -/
theorem lookupActive (hd : Data H g e h worker) (key : Bytes) :
    e.lookupActive key = lastEntry key g.recent := by
  unfold KronosEngine.lookupActive
  cases hactive : e.activeMemtable with
  | none =>
    rw [hd.noActive hactive]
    rfl
  | some active => exact (hd.active active hactive).2 key

/-- The immutable Memtable has the last sealed one. -/
theorem lookupImmutable (hd : Data H g e h worker) (key : Bytes) :
    e.lookupImmutable key = lastEntry key g.sealed := by
  unfold KronosEngine.lookupImmutable
  cases hslot : e.immutableMemtable with
  | none =>
    rw [hd.noSlot hslot]
    rfl
  | some task => exact (hd.slot task hslot).2.1 key

/-- The last record of a key that was applied, by generations. -/
theorem lastEntry_applied (hd : Data H g e h worker) (key : Bytes) :
    lastEntry key h.applied =
      ((lastEntry key g.recent).or (lastEntry key g.sealed)).or (lastEntry key g.old) := by
  rw [hd.applied, Generations.applied, lastEntry_append, lastEntry_append, Option.or_assoc]

/-- A key without a sealed record is covered up to its last old one. -/
theorem lastEntry_covered {g : Generations} {key : Bytes} (hsealed : lastEntry key g.sealed = none)
    (clearing : Bool) : lastEntry key (g.covered clearing) = lastEntry key g.old := by
  cases clearing with
  | false => rfl
  | true =>
    show lastEntry key (g.old ++ g.sealed) = _
    rw [lastEntry_append, hsealed, Option.none_or]

end Data

section Lookup

variable {F R ι : Type} {H : Hashing} {fmt : TableFormat F R} {s : System F ι}

/-- **A lookup.** Of a key that the SSTables take, it returns, and answers as the last record that
was applied to the key. -/
theorem Contents.lookup (hc : Contents fmt s) (hs : s.Invariant H) {key : Bytes}
    (hkey : fmt.Takes key) :
    ∃ winner, s.engine.lookup fmt key = .ok winner ∧
      answerOf winner = answerOf (lastEntry key s.history.applied) := by
  obtain ⟨g, hd, -⟩ := hs.data
  have happlied := hd.lastEntry_applied key
  unfold KronosEngine.lookup
  rw [hd.lookupActive, hd.lookupImmutable, happlied]
  cases hrecent : lastEntry key g.recent with
  | some entry => exact ⟨some entry, rfl, rfl⟩
  | none =>
    cases hsealed : lastEntry key g.sealed with
    | some entry => exact ⟨some entry, rfl, rfl⟩
    | none =>
      have hlive := hc.live
      rw [hd.coveredBy_live] at hlive
      obtain ⟨winner, hreturns, hnewest⟩ := hlive.lookupFiles hkey
      have hcovered : Wal.ValidHistory (g.covered s.worker.clearing) :=
        hd.history.sublist (Data.isPrefix_covered g _).sublist
      refine ⟨winner, hreturns, ?_⟩
      rw [hlive.answer hcovered hnewest, Data.lastEntry_covered hsealed]
      rfl

/-- The versions of a key in every generation. -/
def KronosEngine.versions (fmt : TableFormat F R) (e : KronosEngine F) (key : Bytes) :
    Set InternalEntry :=
  {v | e.lookupActive key = some v} ∪ {v | e.lookupImmutable key = some v} ∪
    e.store.versions fmt key

/-- Every version stands for a record that was applied. -/
theorem Contents.versions (hc : Contents fmt s) (hs : s.Invariant H) {key : Bytes}
    {v : InternalEntry} (hv : v ∈ s.engine.versions fmt key) :
    ∃ r ∈ s.history.applied, r.key = key ∧ r.entry = v := by
  obtain ⟨g, hd, -⟩ := hs.data
  have hlive := hc.live
  rw [hd.coveredBy_live] at hlive
  rw [hd.applied]
  rcases hv with (hv | hv) | hv
  · have hlast : lastEntry key g.recent = some v := (hd.lookupActive key).symm.trans hv
    obtain ⟨r, hr, hentry⟩ := mem_of_lastEntry hlast
    exact ⟨r, List.mem_append_right _ hr, hentry⟩
  · have hlast : lastEntry key g.sealed = some v := (hd.lookupImmutable key).symm.trans hv
    obtain ⟨r, hr, hentry⟩ := mem_of_lastEntry hlast
    exact ⟨r, List.mem_append_left _ (List.mem_append_right _ hr), hentry⟩
  · obtain ⟨r, hr, hentry⟩ := hlive.versions key v hv
    refine ⟨r, List.mem_append_left _ ?_, hentry⟩
    cases hclearing : s.worker.clearing with
    | false =>
      rw [hclearing] at hr
      exact List.mem_append_left _ hr
    | true =>
      rw [hclearing] at hr
      exact hr

/-- The applied records are a history. -/
theorem Data.history_applied {g : Generations} {e : KronosEngine F} {h : History ι}
    {worker : WorkerPc} (hd : Data H g e h worker) : Wal.ValidHistory h.applied := by
  rw [hd.applied]
  exact hd.history.sublist (List.sublist_append_left _ _)

/-- The last record of a key has the highest sequence number. -/
theorem sequence_le_lastEntry {rs : List Record} (hv : Wal.ValidHistory rs) {key : Bytes}
    {last : InternalEntry} (hlast : lastEntry key rs = some last) {r : Record} (hr : r ∈ rs)
    (hkey : r.key = key) : r.sequence ≤ last.sequence := by
  have hnewest : Newest Record.sequence {r | r ∈ rs ∧ r.key = key} (lastWrite Record.key key rs) :=
    newest_lastWrite hv.increasing key
  obtain ⟨record, hrecord, rfl⟩ := Option.map_eq_some_iff.1 hlast
  rw [hrecord] at hnewest
  rw [Record.entry_sequence]
  exact hnewest.2 r ⟨hr, hkey⟩

/-- A lookup finds the newest version of every generation. -/
theorem Contents.lookup_newest (hc : Contents fmt s) (hs : s.Invariant H) {key : Bytes}
    (hkey : fmt.Takes key) :
    ∃ winner, s.engine.lookup fmt key = .ok winner ∧
      Newest InternalEntry.sequence (s.engine.versions fmt key) winner := by
  obtain ⟨g, hd, -⟩ := hs.data
  have happlied := hd.lastEntry_applied key
  -- A version that is the last of all that were applied is the newest.
  have hlast : ∀ entry, entry ∈ s.engine.versions fmt key →
      lastEntry key s.history.applied = some entry →
      Newest InternalEntry.sequence (s.engine.versions fmt key) (some entry) := by
    intro entry hmem hentry
    refine ⟨hmem, fun v hv => ?_⟩
    obtain ⟨r, hr, hkey, rfl⟩ := hc.versions hs hv
    rw [Record.entry_sequence]
    exact sequence_le_lastEntry hd.history_applied hentry hr hkey
  have hactive := hd.lookupActive key
  have himmutable := hd.lookupImmutable key
  unfold KronosEngine.lookup
  cases hrecent : lastEntry key g.recent with
  | some entry =>
    rw [hrecent] at hactive happlied
    rw [hactive]
    exact ⟨some entry, rfl, hlast entry (.inl (.inl hactive)) happlied⟩
  | none =>
    rw [hrecent] at hactive happlied
    cases hsealed : lastEntry key g.sealed with
    | some entry =>
      rw [hsealed] at himmutable happlied
      rw [hactive, himmutable]
      exact ⟨some entry, rfl, hlast entry (.inl (.inr himmutable)) happlied⟩
    | none =>
      rw [hsealed] at himmutable
      rw [hactive, himmutable]
      obtain ⟨winner, hreturns, hnewest⟩ := hc.live.lookupFiles hkey
      refine ⟨winner, hreturns, hnewest.congr ?_⟩
      rw [KronosEngine.versions, hactive, himmutable]
      simp

/-- The exhaustive lookup does so too. -/
theorem Contents.lookupExhaustive_newest (hc : Contents fmt s) {key : Bytes}
    (hkey : fmt.Takes key) :
    ∃ winner, s.engine.lookupExhaustive fmt key = .ok winner ∧
      Newest InternalEntry.sequence (s.engine.versions fmt key) winner := by
  have hsingle : ∀ found : Option InternalEntry,
      Newest InternalEntry.sequence {v | found = some v} found := by
    intro found
    cases found with
    | none => exact fun v hv => nomatch (hv : none = some v)
    | some v => exact ⟨rfl, fun v' hv' => (congrArg _ (Option.some.inj hv')).ge⟩
  have hmemory := ((Newest.empty InternalEntry.sequence).union
    (hsingle (s.engine.lookupActive key))).union (hsingle (s.engine.lookupImmutable key))
  obtain ⟨winner, hreturns, hnewest⟩ :=
    Store.foldlM_lookupFile_spec hc.live.layered.tabled.exact hkey hmemory
  refine ⟨winner, hreturns, hnewest.congr ?_⟩
  rw [Set.empty_union]
  rfl

/-- The two lookups agree. -/
theorem Contents.lookupExhaustive_eq (hc : Contents fmt s) (hs : s.Invariant H) {key : Bytes}
    (hkey : fmt.Takes key) :
    ∃ winner, s.engine.lookup fmt key = .ok winner ∧
      s.engine.lookupExhaustive fmt key = .ok winner := by
  obtain ⟨winner, hreturns, hnewest⟩ := hc.lookup_newest hs hkey
  obtain ⟨winner', hreturns', hnewest'⟩ := hc.lookupExhaustive_newest hkey
  have hinj : Set.InjOn InternalEntry.sequence (s.engine.versions fmt key) := by
    intro v hv v' hv' heq
    obtain ⟨r, hr, -, rfl⟩ := hc.versions hs hv
    obtain ⟨r', hr', -, rfl⟩ := hc.versions hs hv'
    obtain ⟨g, hd, -⟩ := hs.data
    rw [Record.entry_sequence, Record.entry_sequence] at heq
    rw [hd.history_applied.entry_injOn hr hr' heq]
  rw [hnewest'.unique hinj hnewest] at hreturns'
  exact ⟨winner, hreturns, hreturns'⟩

/-! ## The order of the generations -/

/-- The generations are layered by their sequence numbers. The records of a Memtable whose flush is
committed, and whose slot is not released, are in the SSTables already. -/
structure Layers (fmt : TableFormat F R) (s : System F ι) : Prop where
  /-- The checkpoint bounds the SSTables. -/
  sstables : ∀ key, ∀ v ∈ s.engine.store.versions fmt key, ∃ checkpoint,
    s.engine.store.manifest.persistedThrough = some checkpoint ∧ v.sequence ≤ checkpoint
  /-- The immutable Memtable is above the checkpoint, until its flush is committed. -/
  immutable : ∀ task, s.engine.immutableMemtable = some task → ∀ r ∈ task.memtable.table.entries,
    if s.worker.clearing then r.2 ∈ s.engine.store.versions fmt r.1
    else ∀ checkpoint, s.engine.store.manifest.persistedThrough = some checkpoint →
      checkpoint < r.2.sequence
  /-- The active Memtable is above both. -/
  active : ∀ active, s.engine.activeMemtable = some active → ∀ r ∈ active.table.entries,
    (∀ checkpoint, s.engine.store.manifest.persistedThrough = some checkpoint →
      checkpoint < r.2.sequence) ∧
    ∀ task, s.engine.immutableMemtable = some task → ∀ r' ∈ task.memtable.table.entries,
      r'.2.sequence < r.2.sequence
  /-- The allocator is above everything. -/
  next : (∀ active, s.engine.activeMemtable = some active → ∀ r ∈ active.table.entries,
      r.2.sequence < s.engine.log.wal.nextSequence) ∧
    (∀ task, s.engine.immutableMemtable = some task → ∀ r ∈ task.memtable.table.entries,
      r.2.sequence < s.engine.log.wal.nextSequence) ∧
    ∀ checkpoint, s.engine.store.manifest.persistedThrough = some checkpoint →
      checkpoint < s.engine.log.wal.nextSequence

/-- The sequence number of the last record of a part is below those behind it. -/
theorem lastSequence_lt {front back : List Record} (hv : Wal.ValidHistory (front ++ back))
    {checkpoint : ℕ} (hcheckpoint : lastSequence front = some checkpoint) {r : Record}
    (hr : r ∈ back) : checkpoint < r.sequence := by
  obtain ⟨-, last, hlast, rfl⟩ :=
    le_lastSequence (hv.sublist (List.sublist_append_left _ _)) hcheckpoint
  exact Data.lt_of_append hv last hlast r hr

/-- The generations are layered where the invariant holds. -/
theorem Contents.layers (hc : Contents fmt s) (hs : s.Invariant H) : Layers fmt s := by
  obtain ⟨g, hd, -⟩ := hs.data
  have hv := hd.history
  have hrecords : g.records = g.old ++ g.sealed ++ g.recent ++ g.pending := rfl
  have hcheckpoint := hd.checkpoint
  -- The entries of the Memtables stand for records of their generations.
  have hactive : ∀ active, s.engine.activeMemtable = some active → ∀ r ∈ active.table.entries,
      ∃ record ∈ g.recent, record.sequence = r.2.sequence := by
    intro active hsome r hr
    obtain ⟨record, hrecord, -, hentry⟩ := (hd.active active hsome).2.exists_record hr
    exact ⟨record, hrecord, by rw [← hentry, Record.entry_sequence]⟩
  have himmutable : ∀ task, s.engine.immutableMemtable = some task →
      ∀ r ∈ task.memtable.table.entries,
        ∃ record ∈ g.sealed, record.sequence = r.2.sequence := by
    intro task hslot r hr
    obtain ⟨record, hrecord, -, hentry⟩ := (hd.slot task hslot).2.1.exists_record hr
    exact ⟨record, hrecord, by rw [← hentry, Record.entry_sequence]⟩
  have hcovered : ∃ rest, g.covered s.worker.clearing ++ rest = g.old ++ g.sealed := by
    cases s.worker.clearing with
    | false => exact ⟨g.sealed, rfl⟩
    | true => exact ⟨[], List.append_nil _⟩
  refine ⟨fun key v hmem => ?_, fun task hslot r hr => ?_, fun active hfound r hr => ⟨?_, ?_⟩,
    fun active hsome r hr => ?_, fun task hslot r hr => ?_, fun checkpoint hsome => ?_⟩
  · -- The SSTables have versions up to the checkpoint only.
    have hlive := hc.live
    rw [hd.coveredBy_live] at hlive
    obtain ⟨record, hrecord, -, rfl⟩ := hlive.versions key v hmem
    have hcoveredHistory : Wal.ValidHistory (g.covered s.worker.clearing) :=
      hv.sublist (Data.isPrefix_covered g _).sublist
    cases hlast : lastSequence (g.covered s.worker.clearing) with
    | none =>
      have hnil : g.covered s.worker.clearing = [] :=
        List.getLast?_eq_none_iff.1 (Option.map_eq_none_iff.1 hlast)
      rw [hnil] at hrecord
      cases hrecord
    | some checkpoint =>
      rw [Record.entry_sequence]
      exact ⟨checkpoint, hcheckpoint.trans hlast,
        (le_lastSequence hcoveredHistory hlast).1 record hrecord⟩
  · split_ifs with hclearing
    · -- The worker is about to release the slot of this Memtable.
      have hprepared := hc.worker
      have hnoError := hs.stages.noError
      generalize s.worker = worker at hd hprepared hnoError hclearing
      cases worker with
      | clear task' flushedThrough locked =>
        obtain ⟨hslot', -⟩ := hd.slot_of_task (hnoError rfl nofun) rfl
        cases hslot.symm.trans hslot'
        exact hprepared r hr
      | _ => cases hclearing
    · -- The active Memtable is behind the checkpoint.
      intro checkpoint hsome
      have hcovered' : g.covered s.worker.clearing = g.old := by
        rw [Bool.not_eq_true] at hclearing
        rw [hclearing]
        rfl
      rw [hcheckpoint, hcovered'] at hsome
      obtain ⟨record, hrecord, hsequence⟩ := himmutable task hslot r hr
      rw [← hsequence]
      exact lastSequence_lt hd.history_sealed hsome hrecord
  · intro checkpoint hsome
    rw [hcheckpoint] at hsome
    obtain ⟨record, hrecord, hsequence⟩ := hactive active hfound r hr
    obtain ⟨rest, hrest⟩ := hcovered
    rw [← hsequence]
    rw [hrecords, ← hrest, List.append_assoc, List.append_assoc] at hv
    exact lastSequence_lt hv hsome (by simp [hrecord])
  · -- The active Memtable is behind the immutable one.
    intro task hslot r' hr'
    obtain ⟨record, hrecord, hsequence⟩ := hactive active hfound r hr
    obtain ⟨record', hrecord', hsequence'⟩ := himmutable task hslot r' hr'
    rw [← hsequence, ← hsequence']
    rw [hrecords, List.append_assoc] at hv
    exact Data.lt_of_append hv record' (List.mem_append_right _ hrecord') record
      (List.mem_append_left _ hrecord)
  · -- The allocator is behind all of them.
    obtain ⟨record, hrecord, hsequence⟩ := hactive active hsome r hr
    rw [← hsequence]
    exact hd.fresh record (by simp [hrecords, hrecord])
  · obtain ⟨record, hrecord, hsequence⟩ := himmutable task hslot r hr
    rw [← hsequence]
    exact hd.fresh record (by simp [hrecords, hrecord])
  · rw [hcheckpoint] at hsome
    obtain ⟨-, record, hrecord, rfl⟩ :=
      le_lastSequence (hv.sublist (Data.isPrefix_covered g _).sublist) hsome
    exact hd.fresh record ((Data.isPrefix_covered g _).subset hrecord)

variable [DecidableEq ι]

/-- **The generations are layered.** In every state in the life of a directory whose tables fit, the
sequence numbers of the generations are in order, so that `get`, which stops at the first generation
with the key, finds what the exhaustive lookup finds, for every key that is hashed. -/
theorem layers_of_reachable {crc32 : Bytes → UInt32} {s : System Bytes ι}
    (h : (fittingLife (.vendored crc32) (Sstable.format crc32) Sstable.TableFits).Reachable
      (.running s)) :
    Layers (Sstable.format crc32) s ∧ ∀ key, MurmurHash3.Fits key → ∃ winner,
      s.engine.lookup (Sstable.format crc32) key = .ok winner ∧
        s.engine.lookupExhaustive (Sstable.format crc32) key = .ok winner := by
  obtain ⟨hs, hc⟩ := contents_of_reachable (fun _ => Sstable.format_represents crc32) h
  exact ⟨Contents.layers hc hs, fun key hkey => Contents.lookupExhaustive_eq hc hs hkey⟩

end Lookup

/-- In an engine with one write in its active Memtable. -/
theorem layers_of_reachable_one : ∃ s : System Bytes ℕ,
    (s.history.applied ≠ [] ∧ s.engine.activeMemtable ≠ none) ∧
      Layers (Sstable.format byteSum.crc32) s ∧ ∀ key, MurmurHash3.Fits key → ∃ winner,
        s.engine.lookup (Sstable.format byteSum.crc32) key = .ok winner ∧
          s.engine.lookupExhaustive (Sstable.format byteSum.crc32) key = .ok winner := by
  obtain ⟨wal, active, -, -, hwritten⟩ := firstWrite hasCalls_workingProcess
    (first_workingProcess vendoredSum (Sstable.format byteSum.crc32) Sstable.TableFits 1048576
      ⟨4, by decide⟩) 0 (w := .put [1] [10]) (by decide) (by decide)
  exact ⟨_, ⟨List.cons_ne_nil _ _, Option.some_ne_none _⟩,
    layers_of_reachable (life_of_workingProcess hwritten)⟩

/-- Between the commit of a flush and the release of its slot, the immutable Memtable is not above
the checkpoint. -/
theorem immutable_not_above_checkpoint : ∃ s : System Bytes ℕ,
    (faultless vendoredSum (Sstable.format byteSum.crc32)).Reachable s ∧
      ∃ task r checkpoint, s.engine.immutableMemtable = some task ∧
        r ∈ task.memtable.table.entries ∧
        s.engine.store.manifest.persistedThrough = some checkpoint ∧
        ¬checkpoint < r.2.sequence := by
  have hbuild := @Sstable.format_builds byteSum.crc32 [([1], ⟨[10], 0, .put⟩)]
    (List.cons_ne_nil _ _) (List.pairwise_singleton _ _) (by decide) (by decide)
  obtain ⟨wal, active, store, through, hreplays, -, hreachable⟩ :=
    @oneCommitted_reachable _ _ vendoredSum (Sstable.format byteSum.crc32) 1048576 ⟨4, by decide⟩
      (.put [1] [10]) (by decide) (by decide) hbuild
  have hentries := hreplays.frozen.entries_singleton
  refine ⟨_, hreachable, ⟨0, active.frozen⟩, _, through, rfl, hentries ▸ List.mem_singleton_self _,
    ?_, ?_⟩
  all_goals
    obtain ⟨g, hd, -⟩ := (invariant_of_faultless hreachable).data
    have hthrough : some through = lastSequence (g.old ++ g.sealed) := hd.worker
  · rw [hthrough]
    exact hd.checkpoint
  · -- The record of the entry is one of those that the flush covers.
    obtain ⟨record, hrecord, -, hentry⟩ := (hd.slot ⟨0, active.frozen⟩ rfl).2.1.exists_record
      (hentries ▸ List.mem_singleton_self _)
    have hle := (le_lastSequence hd.history_sealed hthrough.symm).1 record
      (List.mem_append_right _ hrecord)
    rw [← hentry, Record.entry_sequence]
    exact Nat.not_lt.2 hle

end Kronos
