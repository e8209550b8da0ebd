import Kronos.Engine.Control
import Kronos.Engine.Sections
import Kronos.Lsm.Edits

/-!
# The invariant of the engine

The records that the log has taken fall into generations (`Generations`): those that a flush has
made authoritative, those of the immutable Memtable, those of the active one, and one that has not
reached it yet. `Data` says where the engine has each of them: the log has what is not reclaimed,
the Memtables have theirs, the slot is the task that is queued or that the worker holds, and the
checkpoint is the sequence number of the last record that is covered. It does not speak about what
is read from the SSTables.

Every section of a call and of the worker keeps it. Together with the locks and the stages, it holds
in every state of the life of a directory (`Node.Invariant`), also behind a crash.
-/

namespace Kronos

open KronosEngine

/-! ## Generations -/

/-- The records of a history, by how far they have got. `durable` are those that the MANIFEST file
covers. -/
structure Generations where
  reclaimed : List Record
  flushed : List Record
  sealed : List Record
  recent : List Record
  pending : List Record
  durable : List Record

namespace Generations

/-- The records whose Memtables have been flushed and released. -/
def old (g : Generations) : List Record := g.reclaimed ++ g.flushed

/-- The records that have reached a Memtable. -/
def applied (g : Generations) : List Record := g.old ++ g.sealed ++ g.recent

/-- All records. -/
def records (g : Generations) : List Record := g.applied ++ g.pending

/-- The records in the log. -/
def logged (g : Generations) : List Record := g.flushed ++ g.sealed ++ g.recent ++ g.pending

/-- The records that the checkpoint covers. Between its commit and the release of its slot, a
flushed Memtable is both covered and sealed. -/
def covered (g : Generations) (clearing : Bool) : List Record :=
  if clearing then g.old ++ g.sealed else g.old

/-- The records that the log has lost come before those that it has. -/
theorem records_eq (g : Generations) : g.records = g.reclaimed ++ g.logged := by
  simp [records, applied, old, logged]

end Generations

namespace WorkerPc

/-- The task that the worker holds. -/
def task : WorkerPc → Option SharedMemtable
  | flush task | commitFlush task _ _ | clear task _ _ => some task
  | failed task _ _ => task
  | _ => none

/-- The worker has committed a flush, and not released its slot. -/
def clearing : WorkerPc → Bool
  | clear .. => true
  | _ => false

/-- What the worker knows at a point. -/
def Knows {F : Type} (store : Store F) (g : Generations) : WorkerPc → Prop
  | commitFlush _ edit _ => store.Edits edit ∧ Store.RangesInOrder edit ∧
    edit.persistedThrough = lastSequence (g.old ++ g.sealed)
  | clear _ flushedThrough _ => some flushedThrough = lastSequence (g.old ++ g.sealed)
  | notifyCleared flushedThrough | reclaim flushedThrough _ =>
    some flushedThrough = lastSequence g.old
  | compact liveFiles => liveFiles = store.manifest.liveFiles
  | commitCompaction edit _ => store.Edits edit ∧ edit.persistedThrough = none
  | _ => True

/-- The worker that clears the slot has a task. -/
theorem task_of_clearing {pc : WorkerPc} (h : pc.clearing = true) : pc.task ≠ none := by
  cases pc with
  | clear task flushedThrough locked => exact nofun
  | _ => cases h

/-- Without a task, what the worker knows is about the records that are released. -/
theorem Knows.of_old {F : Type} {store : Store F} {g g' : Generations} {pc : WorkerPc}
    (h : pc.Knows store g) (htask : pc.task = none) (hold : g'.old = g.old) :
    pc.Knows store g' := by
  cases pc with
  | flush => trivial
  | commitFlush => cases htask
  | clear => cases htask
  | notifyCleared flushedThrough =>
    show some flushedThrough = lastSequence g'.old
    rwa [hold]
  | reclaim flushedThrough locked =>
    show some flushedThrough = lastSequence g'.old
    rwa [hold]
  | _ => exact h

/-- An acquisition changes neither the task nor what the worker knows. -/
theorem acquires_task {pc pc' : WorkerPc} {m : Mutex} (h : pc.acquires = some (m, pc')) :
    pc'.task = pc.task ∧ pc'.clearing = pc.clearing ∧
      ∀ {F : Type} (store : Store F) (g : Generations), pc.Knows store g → pc'.Knows store g := by
  unfold acquires at h
  split at h <;> cases h <;> exact ⟨rfl, rfl, fun _ _ hknows => hknows⟩

end WorkerPc

/-! ## The data of an engine -/

/-- What an engine with these generations of records has where. -/
structure Data {F ι : Type} (H : Hashing) (g : Generations) (e : KronosEngine F) (h : History ι)
    (worker : WorkerPc) : Prop where
  history : Wal.ValidHistory g.records
  records : h.records = g.records
  applied : h.applied = g.applied
  log : Wal.AtEnd H .synced e.log.wal g.logged
  named : e.log.named = none
  fresh : ∀ r ∈ g.records, r.sequence < e.log.wal.nextSequence
  active : ∀ active, e.activeMemtable = some active →
    active.state = .mutable ∧ active.Replays g.recent
  noActive : e.activeMemtable = none → g.recent = []
  slot : ∀ task, e.immutableMemtable = some task →
    task.memtable.state = .immutable ∧ task.memtable.Replays g.sealed ∧ g.sealed ≠ []
  noSlot : e.immutableMemtable = none → g.sealed = []
  tasks : e.backgroundError = none →
    worker.task.toList ++ e.flushQueue = e.immutableMemtable.toList
  live : e.store.Named
  checkpoint : e.store.manifest.persistedThrough = lastSequence (g.covered worker.clearing)
  durableLive : Store.Named { e.store with manifest := e.durable }
  durableCheckpoint : e.durable.persistedThrough = lastSequence g.durable
  durable : g.durable = g.covered worker.clearing ∨ g.durable = g.old ++ g.sealed
  worker : worker.Knows e.store g

namespace Data

variable {F R ι : Type} {H : Hashing} {fmt : TableFormat F R} {g : Generations}
  {e : KronosEngine F} {h : History ι} {worker : WorkerPc}

/-- The worker moves on, and keeps its task. -/
theorem move (hd : Data H g e h worker) {worker' : WorkerPc} (htask : worker'.task = worker.task)
    (hclearing : worker'.clearing = worker.clearing) (hknows : worker'.Knows e.store g) :
    Data H g e h worker' :=
  { hd with
    tasks := fun herror => htask ▸ hd.tasks herror
    checkpoint := hclearing ▸ hd.checkpoint
    durable := hclearing ▸ hd.durable
    worker := hknows }

/-- The sequence number of the last record of a history. -/
theorem lastSequence_append {rs rs' : List Record} (hne : rs' ≠ []) :
    lastSequence (rs ++ rs') = lastSequence rs' := by
  unfold lastSequence
  rw [List.getLast?_append_of_ne_nil _ hne]

/-- The records of a later generation are newer. -/
theorem lt_of_append {front back : List Record} (hv : Wal.ValidHistory (front ++ back)) :
    ∀ r ∈ front, ∀ r' ∈ back, r.sequence < r'.sequence :=
  (List.pairwise_append.1 hv.increasing).2.2

/-- The slot of a worker that holds a task. -/
theorem slot_of_task (hd : Data H g e h worker) (herror : e.backgroundError = none)
    {task : SharedMemtable} (htask : worker.task = some task) :
    e.immutableMemtable = some task ∧ e.flushQueue = [] := by
  have htasks := hd.tasks herror
  rw [htask] at htasks
  cases hslot : e.immutableMemtable with
  | none =>
    rw [hslot] at htasks
    cases htasks
  | some task' =>
    rw [hslot] at htasks
    have hcons := List.cons.inj htasks
    exact ⟨congrArg some hcons.1.symm, hcons.2⟩

/-- Without a slot, there is no task. -/
theorem task_of_noSlot (hd : Data H g e h worker) (herror : e.backgroundError = none)
    (hslot : e.immutableMemtable = none) :
    worker.task = none ∧ e.flushQueue = [] ∧ worker.clearing = false := by
  have htasks := hd.tasks herror
  rw [hslot] at htasks
  obtain ⟨htask, hqueue⟩ := List.append_eq_nil_iff.1 htasks
  have hnone : worker.task = none := Option.toList_eq_nil_iff.1 htask
  refine ⟨hnone, hqueue, ?_⟩
  rw [Bool.eq_false_iff]
  exact fun hclearing => WorkerPc.task_of_clearing hclearing hnone

/-! ### Writers -/

/-- Handing over the active Memtable seals its records. -/
theorem handOver (hd : Data H g e h worker) (herror : e.backgroundError = none) {active : Memtable}
    (hactive : e.activeMemtable = some active) (hentries : active.entryCount ≠ 0)
    (hslot : e.immutableMemtable = none) {next : Option Memtable}
    (hnext : ∀ m, next = some m → m.state = .mutable ∧ m.Replays []) :
    Data H { g with sealed := g.recent, recent := [] } (e.handOver active next) h worker := by
  obtain ⟨htask, hqueue, hclearing⟩ := hd.task_of_noSlot herror hslot
  have hsealed := hd.noSlot hslot
  obtain ⟨-, hreplays⟩ := hd.active active hactive
  have happlied : Generations.applied { g with sealed := g.recent, recent := [] } = g.applied := by
    simp [Generations.applied, Generations.old, hsealed]
  have hrecords : Generations.records { g with sealed := g.recent, recent := [] } = g.records := by
    rw [Generations.records, happlied, Generations.records]
  have hlogged : Generations.logged { g with sealed := g.recent, recent := [] } = g.logged := by
    simp [Generations.logged, hsealed]
  have hcovered : Generations.covered { g with sealed := g.recent, recent := [] } worker.clearing =
      g.covered worker.clearing := by
    rw [hclearing]
    rfl
  -- The slot was free, so that nothing is both covered and sealed.
  have hdurable : g.durable = g.covered worker.clearing := by
    refine hd.durable.elim id fun h => ?_
    rw [h, hsealed, List.append_nil, hclearing]
    rfl
  refine { hd with
    history := hrecords ▸ hd.history
    records := hrecords ▸ hd.records
    applied := happlied ▸ hd.applied
    log := hlogged ▸ hd.log
    fresh := hrecords ▸ hd.fresh
    active := hnext
    noActive := fun _ => rfl
    slot := fun task htask => ?_
    noSlot := nofun
    tasks := fun _ => ?_
    checkpoint := hcovered ▸ hd.checkpoint
    durable := .inl (hcovered ▸ hdurable)
    worker := hd.worker.of_old htask rfl }
  · cases htask
    exact ⟨rfl, hreplays.frozen, fun hnil => hentries (hreplays.entryCount_eq_zero_iff.2 hnil)⟩
  · simp [KronosEngine.handOver, KronosEngine.share, htask, hqueue]

/-- The check of a writer. -/
theorem prepare (hd : Data H g e h worker) {w : Write} {woken : Bool}
    {result : Prepared × KronosEngine F} (hprepares : Prepares e woken w result) :
    ∃ g', Data H g' result.2 h worker ∧ g'.pending = g.pending := by
  cases hprepares with
  | rotated active _ herror hactive hentries hslot _ =>
    refine ⟨_, hd.handOver herror hactive hentries hslot fun m hm => ?_, rfl⟩
    cases hm
    exact ⟨rfl, Memtable.replays_new _⟩
  | _ => exact ⟨g, hd, rfl⟩

/-- The hand-over of a shutdown. -/
theorem drain (hd : Data H g e h worker) {result : Except Failure Unit × KronosEngine F}
    (hgo : e.shutdownMayGoOn = true) (hschedules : Schedules e result) :
    ∃ g', Data H g' result.2 h worker ∧ g'.pending = g.pending := by
  cases hschedules with
  | nothing _ => exact ⟨g, hd, rfl⟩
  | handed active hactive herror hentries =>
    have hslot : e.immutableMemtable = none := by
      simpa [shutdownMayGoOn, herror] using hgo
    exact ⟨_, hd.handOver herror hactive hentries hslot nofun, rfl⟩

/-- An append puts a record in the log, or throws and changes nothing. -/
theorem append (hd : Data H g e h worker) (hpending : g.pending = []) (i : ι) (w : Write) :
    (∃ failure, (w.call none).run H e.log.wal = (.error failure, e.log.wal)) ∨
      ∃ sequence wal, (w.call none).run H e.log.wal = (.ok sequence, wal) ∧
        Data H { g with pending := [w.record sequence] } { e with log := { e.log with wal := wal } }
          (h.append i w (.ok sequence)) worker := by
  have hrun := (w.call none).run_spec H hd.log.position
  have hend := @Wal.AtEnd.run H .synced e.log.wal g.logged (w.call none) hd.log trivial
  have hfault : (w.call none).fault = none := by cases w <;> rfl
  -- The append is refused before it writes, or leaves its record.
  rcases Wal.Call.leaves_of_fault_none (H := H) hfault e.log.wal with hleaves | hleaves
  · rw [hleaves] at hrun
    exact .inl hrun
  · rw [hleaves] at hrun
    obtain ⟨hmax, hwritable⟩ := Wal.Call.leaves_some hleaves
    have hkept : (w.call none).kept H e.log.wal = [w.record e.log.wal.nextSequence] := by
      rw [Wal.Call.kept, hleaves]
      rfl
    rw [hkept, hleaves, hrun] at hend
    have hrecords : Generations.records { g with pending := [w.record e.log.wal.nextSequence] } =
        g.records ++ [w.record e.log.wal.nextSequence] := by
      simp [Generations.records, Generations.applied, Generations.old, hpending]
    have hlogged : Generations.logged { g with pending := [w.record e.log.wal.nextSequence] } =
        g.logged ++ [w.record e.log.wal.nextSequence] := by
      simp [Generations.logged, hpending]
    have hbounded : e.log.wal.nextSequence < uint64Max := lt_of_le_of_ne hd.log.bounded hmax
    -- The number is fresh, and above all numbers of the history.
    have hhistory : Wal.ValidHistory (g.records ++ [w.record e.log.wal.nextSequence]) := by
      refine hd.history.append hwritable ?_ fun r hr => ?_
      · rwa [Write.record_sequence]
      · rw [Write.record_sequence]
        exact hd.fresh r hr
    refine .inr ⟨e.log.wal.nextSequence, _, hrun, { hd with
      history := hrecords ▸ hhistory
      records := ?_
      applied := hd.applied
      log := hlogged ▸ hend
      fresh := hrecords ▸ fun r hr => ?_ }⟩
    · rw [hrecords, ← hd.records]
      simp [History.append, History.records]
    · rcases List.mem_append.1 hr with hr | hr
      · exact (hd.fresh r hr).trans (Nat.lt_succ_self _)
      · rw [List.mem_singleton.1 hr, Write.record_sequence]
        exact Nat.lt_succ_self _

/-- The insertion of the record that has not reached the active Memtable. -/
theorem insert (hd : Data H g e h worker) {w : Write} {sequence : ℕ}
    (hpending : g.pending = [w.record sequence]) (hactive : e.activeMemtable ≠ none) :
    ∃ active', e.insertLocked w sequence = (.ok (), { e with activeMemtable := some active' }) ∧
      Data H { g with recent := g.recent ++ [w.record sequence], pending := [] }
        { e with activeMemtable := some active' } (h.insert w sequence (.ok ())) worker := by
  obtain ⟨active, hsome⟩ := Option.ne_none_iff_exists'.1 hactive
  obtain ⟨hstate, hreplays⟩ := hd.active active hsome
  have happlied : Generations.applied
      { g with recent := g.recent ++ [w.record sequence], pending := [] } =
        g.applied ++ [w.record sequence] := by
    simp [Generations.applied, Generations.old]
  have hrecords : Generations.records
      { g with recent := g.recent ++ [w.record sequence], pending := [] } = g.records := by
    rw [Generations.records, happlied, Generations.records, hpending, List.append_nil]
  have hlogged : Generations.logged
      { g with recent := g.recent ++ [w.record sequence], pending := [] } = g.logged := by
    simp [Generations.logged, hpending]
  -- The record is newer than those that the active Memtable has.
  have hnewer : ∀ r ∈ g.recent, r.sequence < sequence := by
    intro r hr
    have hv := hd.history
    rw [Generations.records, hpending] at hv
    have hlt := lt_of_append hv r (List.mem_append_right _ hr) _ (.head _)
    rwa [Write.record_sequence] at hlt
  obtain ⟨active', hinsert, hstate', hreplays'⟩ :=
    insertLocked_spec hsome hstate hreplays hnewer
  refine ⟨active', hinsert, { hd with
    history := hrecords ▸ hd.history
    records := hrecords ▸ hd.records
    applied := ?_
    log := hlogged ▸ hd.log
    fresh := hrecords ▸ hd.fresh
    active := fun m hm => ?_
    noActive := nofun }⟩
  · rw [happlied, ← hd.applied]
    rfl
  · cases hm
    exact ⟨hstate', hreplays'⟩

/-! ### The worker -/

/-- The worker takes a task from the queue. -/
theorem pop (hd : Data H g e h .pop) {task : SharedMemtable} {rest : List SharedMemtable}
    (hqueue : e.flushQueue = task :: rest) :
    Data H g { e with flushQueue := rest } h (.flush task) :=
  { hd with
    tasks := fun herror => by
      have htasks := hd.tasks herror
      rwa [hqueue] at htasks
    worker := trivial }

/-- New files change nothing. -/
theorem files (hd : Data H g e h worker) {store : Store F}
    (hmanifest : store.manifest = e.store.manifest) (hkeeps : Store.KeepsFiles e.store store)
    {worker' : WorkerPc} (htask : worker'.task = worker.task)
    (hclearing : worker'.clearing = worker.clearing) (hknows : worker'.Knows store g) :
    Data H g { e with store := store } h worker' :=
  { hd with
    tasks := fun herror => htask ▸ hd.tasks herror
    live := hd.live.of_manifest_eq hmanifest hkeeps
    checkpoint := hclearing ▸ (congrArg _ hmanifest).trans hd.checkpoint
    durableLive := hd.durableLive.of_manifest_eq rfl hkeeps
    durable := hclearing ▸ hd.durable
    worker := hknows }

/-- The highest sequence number in a Memtable is that of its last record. -/
theorem lastSequence_of_isHighest {m : Memtable} {rs : List Record} (hv : Wal.ValidHistory rs)
    (hreplays : m.Replays rs) {through : ℕ} (h : Store.IsHighest m.table.entries through) :
    lastSequence rs = some through := by
  obtain ⟨⟨r, hr, hsequence⟩, hall⟩ := h
  obtain ⟨record, hrecord, -, hentry⟩ := hreplays.exists_record hr
  rcases List.eq_nil_or_concat' rs with rfl | ⟨init, last, rfl⟩
  · cases hrecord
  · -- The last record is the last write to its key, so the table has it.
    have hmem : (last.key, last.entry) ∈ m.table.entries := by
      rw [hreplays.mem_iff, lastEntry_concat, if_pos rfl]
    have hle := hall _ hmem
    have hge : record.sequence ≤ last.sequence := by
      rcases List.mem_append.1 hrecord with hearlier | hthis
      · exact (lt_of_append hv record hearlier last (.head _)).le
      · rw [List.mem_singleton.1 hthis]
    rw [Record.entry_sequence] at hle
    rw [← Record.entry_sequence record, hentry, hsequence] at hge
    rw [lastSequence, List.getLast?_concat, le_antisymm hge hle]
    rfl

/-- The checkpoint of a flush advances. -/
theorem advanceCheckpoint_lastSequence {front back : List Record}
    (hv : Wal.ValidHistory (front ++ back)) (hne : back ≠ []) :
    Manifest.advanceCheckpoint (lastSequence front) (lastSequence (front ++ back)) =
      .ok (lastSequence (front ++ back)) := by
  obtain ⟨init, last, rfl⟩ := (List.eq_nil_or_concat' back).resolve_left hne
  have hlast : lastSequence (front ++ (init ++ [last])) = some last.sequence := by
    rw [← List.append_assoc, lastSequence, List.getLast?_concat]
    rfl
  rw [hlast]
  unfold Manifest.advanceCheckpoint
  dsimp only
  rw [if_neg]
  cases hfront : lastSequence front with
  | none => simp
  | some through =>
    obtain ⟨-, r, hr, rfl⟩ := le_lastSequence (hv.sublist (List.sublist_append_left _ _)) hfront
    have hlt := lt_of_append hv r hr last (by simp)
    simpa using hlt.le

/-- A flush is prepared for the records of the slot. -/
theorem flush (hd : Data H g e h worker) (herror : e.backgroundError = none) {task : SharedMemtable}
    (hworker : worker = .flush task) {store : Store F} {edit : ManifestEdit}
    (hprepare : e.store.prepareFlush fmt task.memtable = .ok (store, edit)) :
    Data H g { e with store := store } h (.commitFlush task edit false) := by
  subst hworker
  obtain ⟨hslot, -⟩ := hd.slot_of_task herror rfl
  obtain ⟨-, hreplays, hsealed⟩ := hd.slot task hslot
  obtain ⟨hmanifest, hkeeps, hedits, hranges, -, through, hthrough, hhighest⟩ :=
    Store.prepareFlush_ok hprepare hd.live
  have hv : Wal.ValidHistory g.sealed := hd.history.sublist <| by
    unfold Generations.records Generations.applied
    simp only [List.append_assoc]
    exact (List.sublist_append_left _ _).trans (List.sublist_append_right _ _)
  refine hd.files hmanifest hkeeps rfl rfl ⟨hedits, hranges, ?_⟩
  rw [hthrough, lastSequence_append hsealed, lastSequence_of_isHighest hv hreplays hhighest]

/-- The records of the slot extend those that are released. -/
theorem history_sealed (hd : Data H g e h worker) : Wal.ValidHistory (g.old ++ g.sealed) :=
  hd.history.sublist <| by
    unfold Generations.records Generations.applied
    rw [List.append_assoc]
    exact List.sublist_append_left _ _

/-- The edit of a flush is accepted. -/
theorem commit_of_flush {task : SharedMemtable} {edit : ManifestEdit} {locked : Bool}
    (hd : Data H g e h (.commitFlush task edit locked)) (herror : e.backgroundError = none) :
    e.store.commit edit = .ok { e.store with
      manifest := ⟨e.store.liveAfter edit, lastSequence (g.old ++ g.sealed)⟩ } := by
  obtain ⟨hslot, -⟩ := hd.slot_of_task herror rfl
  obtain ⟨-, -, hsealed⟩ := hd.slot task hslot
  obtain ⟨hedits, hranges, hthrough⟩ := hd.worker
  rcases hedits.commit hd.live with ⟨-, hcommit⟩ | ⟨hnot, -⟩
  · have hcheckpoint : e.store.manifest.persistedThrough = lastSequence g.old := hd.checkpoint
    rw [hcommit, hthrough, hcheckpoint, advanceCheckpoint_lastSequence hd.history_sealed hsealed]
    rfl
  · exact absurd hranges hnot

/-- The commit of a flush covers the records of the slot, in the MANIFEST file at least. -/
theorem commitFlush {task : SharedMemtable} {edit : ManifestEdit} {locked : Bool}
    (hd : Data H g e h (.commitFlush task edit locked)) (herror : e.backgroundError = none)
    (fault : Option CommitFault) :
    ∃ g', Data H g' (e.commitEdit edit fault).2 h (.behind (some task)
        (.clear task (edit.persistedThrough.getD 0) false) (e.commitEdit edit fault).1) ∧
      g'.pending = g.pending := by
  have hcommit := hd.commit_of_flush herror
  obtain ⟨hedits, -, hthrough⟩ := hd.worker
  have hlive := hedits.named hd.live (lastSequence (g.old ++ g.sealed))
  have hcases := e.commitEdit_cases edit fault
  generalize e.commitEdit edit fault = result at hcases
  cases hcases with
  | rejected fault failure hrejected =>
    rw [hcommit] at hrejected
    cases hrejected
  -- The checkpoint moves behind the sealed records, in memory and in the file.
  | committed store hok =>
    obtain rfl := Except.ok.inj (hcommit.symm.trans hok)
    refine ⟨{ g with durable := g.old ++ g.sealed }, { hd with
      tasks := hd.tasks
      live := hlive
      checkpoint := rfl
      durableLive := hlive
      durableCheckpoint := rfl
      durable := .inl rfl
      worker := ?_ }, rfl⟩
    obtain ⟨hslot, -⟩ := hd.slot_of_task herror rfl
    obtain ⟨-, -, hsealed⟩ := hd.slot task hslot
    obtain ⟨init, last, hlast⟩ := (List.eq_nil_or_concat' g.sealed).resolve_left hsealed
    show some (edit.persistedThrough.getD 0) = lastSequence (g.old ++ g.sealed)
    rw [hthrough, lastSequence_append hsealed, hlast, lastSequence, List.getLast?_concat]
    rfl
  | before failure => exact ⟨g, hd.move rfl rfl trivial, rfl⟩
  -- It moves in the file only, and the worker fails.
  | behind failure store hok =>
    obtain rfl := Except.ok.inj (hcommit.symm.trans hok)
    exact ⟨{ g with durable := g.old ++ g.sealed }, { hd with
      tasks := hd.tasks
      durableLive := hlive
      durableCheckpoint := rfl
      durable := .inr rfl
      worker := trivial }, rfl⟩

/-- Releasing the slot of a flushed Memtable. -/
theorem clear {task : SharedMemtable} {flushedThrough : ℕ} {locked : Bool}
    (hd : Data H g e h (.clear task flushedThrough locked)) (herror : e.backgroundError = none) :
    e.clearImmutable task = (.ok (), { e with immutableMemtable := none }) ∧
      Data H { g with flushed := g.flushed ++ g.sealed, sealed := [] }
        { e with immutableMemtable := none } h (.notifyCleared flushedThrough) := by
  obtain ⟨hslot, hqueue⟩ := hd.slot_of_task herror rfl
  have hold : Generations.old { g with flushed := g.flushed ++ g.sealed, sealed := [] } =
      g.old ++ g.sealed := (List.append_assoc _ _ _).symm
  have happlied : Generations.applied { g with flushed := g.flushed ++ g.sealed, sealed := [] } =
      g.applied := by
    rw [Generations.applied, hold, List.append_nil]
    rfl
  have hrecords : Generations.records { g with flushed := g.flushed ++ g.sealed, sealed := [] } =
      g.records := by
    rw [Generations.records, happlied, Generations.records]
  have hlogged : Generations.logged { g with flushed := g.flushed ++ g.sealed, sealed := [] } =
      g.logged := by
    simp [Generations.logged]
  -- What was sealed and covered is flushed now, and covered as before.
  have hcovered : Generations.covered { g with flushed := g.flushed ++ g.sealed, sealed := [] }
      false = g.covered true := hold
  refine ⟨clearImmutable_spec hslot, { hd with
    history := hrecords ▸ hd.history
    records := hrecords ▸ hd.records
    applied := happlied ▸ hd.applied
    log := hlogged ▸ hd.log
    fresh := hrecords ▸ hd.fresh
    slot := nofun
    noSlot := fun _ => rfl
    tasks := fun _ => hqueue
    checkpoint := hd.checkpoint.trans (congrArg lastSequence hcovered.symm)
    durable := .inl ?_
    worker := ?_ }⟩
  · exact hd.durable.elim (fun h => h.trans hcovered.symm) fun h => h.trans hold.symm
  · have hknows : some flushedThrough = lastSequence (g.old ++ g.sealed) := hd.worker
    exact hknows.trans (congrArg lastSequence hold.symm)

/-- The log behind a reclamation through the last released record. -/
theorem survivors_logged (hd : Data H g e h worker) {flushedThrough : ℕ}
    (hthrough : some flushedThrough = lastSequence g.old) :
    Wal.survivors flushedThrough g.logged = g.sealed ++ g.recent ++ g.pending := by
  have hv := hd.history
  have hrecords : g.records = g.reclaimed ++ g.flushed ++ (g.sealed ++ g.recent ++ g.pending) := by
    simp [Generations.records, Generations.applied, Generations.old]
  have hlogged : g.logged = g.flushed ++ (g.sealed ++ g.recent ++ g.pending) := by
    simp [Generations.logged]
  rw [hrecords] at hv
  rw [survivors_eq_newerThan, hthrough, hlogged]
  exact newerThan_append hv

/-- Reclaiming the records that are released. -/
theorem reclaim {flushedThrough : ℕ} {locked : Bool}
    (hd : Data H g e h (.reclaim flushedThrough locked)) :
    ∃ log, Wal.reclaimThrough H flushedThrough none e.log = (.ok (), log) ∧
      Data H { g with reclaimed := g.old, flushed := [] } { e with log := log } h
        (.checkSlot false) := by
  have hsurvivors := hd.survivors_logged hd.worker
  have hend := Wal.atEnd_reclaimed H hd.log.history flushedThrough hd.log.bounded
  rw [hsurvivors] at hend
  have hold : Generations.old { g with reclaimed := g.old, flushed := [] } = g.old :=
    List.append_nil _
  have happlied : Generations.applied { g with reclaimed := g.old, flushed := [] } = g.applied := by
    rw [Generations.applied, hold]
    rfl
  have hrecords : Generations.records { g with reclaimed := g.old, flushed := [] } = g.records := by
    rw [Generations.records, happlied]
    rfl
  have hcovered : Generations.covered { g with reclaimed := g.old, flushed := [] } false =
      g.covered false := hold
  exact ⟨_, Wal.reclaimThrough_returns hd.log flushedThrough, { hd with
    history := hrecords ▸ hd.history
    records := hrecords ▸ hd.records
    applied := happlied ▸ hd.applied
    log := hend
    named := rfl
    fresh := fun r hr => (hd.fresh r (hrecords ▸ hr)).trans_le (le_max_right _ _)
    checkpoint := hd.checkpoint.trans (congrArg lastSequence hcovered.symm)
    durable := hd.durable.imp (fun h => h.trans hcovered.symm)
      fun h => h.trans (congrArg (· ++ g.sealed) hold.symm)
    worker := trivial }⟩

/-- A compaction is prepared. -/
theorem compact {liveFiles : List SstableMetadata} (hd : Data H g e h (.compact liveFiles))
    {store : Store F} {edit : ManifestEdit}
    (hprepare : e.prepareCompaction fmt liveFiles = .ok (some (store, edit))) :
    Data H g { e with store := store } h (.commitCompaction edit false) := by
  obtain rfl : liveFiles = e.store.manifest.liveFiles := hd.worker
  obtain ⟨store', hprepared, rfl⟩ := KronosEngine.prepareCompaction_ok hprepare
  obtain ⟨hmanifest, hkeeps, hedits, hthrough⟩ := Store.prepareCompaction_ok hprepared hd.live
  have hedits' : Store.Edits { store' with manifest := e.store.manifest } edit :=
    ⟨hedits.remove_nodup, hmanifest ▸ hedits.remove_live, hmanifest ▸ hedits.add⟩
  exact @files _ _ _ _ _ _ _ hd { store' with manifest := e.store.manifest } rfl hkeeps
    (.commitCompaction edit false) rfl rfl ⟨hedits', hthrough⟩

/-- The commit of a compaction leaves the checkpoint. -/
theorem commitCompaction {edit : ManifestEdit} {locked : Bool}
    (hd : Data H g e h (.commitCompaction edit locked)) (fault : Option CommitFault) :
    ∃ g', Data H g' (e.commitEdit edit fault).2 h
        (.behind none .pop (e.commitEdit edit fault).1) ∧ g'.pending = g.pending := by
  obtain ⟨hedits, hthrough⟩ := hd.worker
  -- The edit moves no checkpoint.
  have hok : ∀ {store : Store F}, e.store.commit edit = .ok store →
      store = { e.store with
        manifest := ⟨e.store.liveAfter edit, e.store.manifest.persistedThrough⟩ } := by
    intro store hcommit
    obtain ⟨checkpoint, rfl, hadvance⟩ := hedits.commit_ok hd.live hcommit
    rw [hthrough] at hadvance
    cases hadvance
    rfl
  have hlive := hedits.named hd.live e.store.manifest.persistedThrough
  have hcases := e.commitEdit_cases edit fault
  generalize e.commitEdit edit fault = result at hcases
  cases hcases with
  | rejected fault failure hrejected => exact ⟨g, hd.move rfl rfl trivial, rfl⟩
  | committed store hcommit =>
    obtain rfl := hok hcommit
    exact ⟨{ g with durable := g.old }, { hd with
      tasks := hd.tasks
      live := hlive
      checkpoint := hd.checkpoint
      durableLive := hlive
      durableCheckpoint := hd.checkpoint
      durable := .inl rfl
      worker := trivial }, rfl⟩
  | before failure => exact ⟨g, hd.move rfl rfl trivial, rfl⟩
  | behind failure store hcommit =>
    obtain rfl := hok hcommit
    exact ⟨{ g with durable := g.old }, { hd with
      tasks := hd.tasks
      durableLive := hlive
      durableCheckpoint := hd.checkpoint
      durable := .inl rfl
      worker := trivial }, rfl⟩

/-- The failure of the worker is recorded. -/
theorem record {task : Option SharedMemtable} {failure : Failure} {locked : Bool}
    (hd : Data H g e h (.failed task failure locked)) :
    Data H g (e.recordFailure failure) h .notifyFailed := by
  unfold recordFailure
  split_ifs with hnone
  · exact { hd with
      tasks := nofun
      worker := trivial }
  · exact { hd with
      tasks := fun herror => absurd (Option.isNone_iff_eq_none.2 herror) hnone
      worker := trivial }

end Data

end Kronos
