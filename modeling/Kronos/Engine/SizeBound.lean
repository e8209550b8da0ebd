import Kronos.Engine.Runs
import Kronos.Memtable.Writes
import Kronos.Sstable.Format
import Kronos.Wal.Allocator

/-!
# The size of the active Memtable

A writer checks that its record fits before it appends it to the log, and inserts it in a later
section. In between no other thread touches the active Memtable (`activeMemtable_of_step`): a writer
would hold `write_mutex_`, and a shutdown hands the Memtable over behind its barrier only. So what
the check has found is still so when the record is inserted, and behind each write that returns the
active Memtable is within its target, or it has one entry (`size_bound`).

The runs start from whatever the constructor accepts, with a log that overfills the Memtable, and
any system call may fail in them, those of an append included.
-/

namespace Kronos

open KronosEngine

/-! ## The active Memtable -/

/-- A mutable Memtable with exact accounting, whose versions are older than every candidate. -/
structure Memtable.Current (targetBytes : ℕ) (m : Memtable) : Prop where
  state : m.state = .mutable
  target : m.targetBytes = targetBytes
  exact : m.Exact
  older : ∀ key old, m.lookupEntry key = some old → old.sequence < uint64Max

namespace Memtable.Current

variable {targetBytes : ℕ} {m : Memtable}

/-- A new Memtable is within its bound. -/
theorem new (targetBytes : ℕ) : Current targetBytes (.new targetBytes) :=
  ⟨rfl, rfl, exact_new targetBytes, fun _ _ h => nomatch h⟩

/-- A write with the sequence number of a record keeps a Memtable current. -/
theorem write (h : m.Current targetBytes) (key : Bytes) {newEntry : InternalEntry}
    (hsequence : newEntry.sequence < uint64Max) :
    (m.write key newEntry).2.Current targetBytes := by
  obtain ⟨hstate, htarget⟩ := m.write_state key newEntry
  refine ⟨hstate.trans h.state, htarget.trans h.target, h.exact.write key newEntry, ?_⟩
  intro key' old hlookup
  rw [lookupEntry_write h.state] at hlookup
  split_ifs at hlookup with hkey
  · cases hold : m.lookupEntry key with
    | none =>
      rw [hold] at hlookup
      cases hlookup
      exact hsequence
    | some earlier =>
      -- The newer one of two versions is one of them.
      rw [hold] at hlookup
      dsimp only [newer] at hlookup
      split_ifs at hlookup
      · cases hlookup
        exact hsequence
      · cases hlookup
        exact h.older key _ hold
  · exact h.older key' old hlookup

/-- So does a recovered record. -/
theorem applyRecord {active : Memtable} (h : m.Current targetBytes) {r : Record}
    (hsequence : r.sequence < uint64Max) (hok : KronosEngine.applyRecord m r = .ok active) :
    active.Current targetBytes := by
  have hput := @Current.write targetBytes m h r.key ⟨r.value, r.sequence, .put⟩ hsequence
  have hremove := @Current.write targetBytes m h r.key ⟨[], r.sequence, .delete⟩ hsequence
  unfold KronosEngine.applyRecord Memtable.put Memtable.remove at hok
  split_ifs at hok
  · generalize m.write r.key ⟨r.value, r.sequence, .put⟩ = result at hok hput
    rcases result with ⟨_ | _ | _, active'⟩ <;> cases hok
    exact hput
  · generalize m.write r.key ⟨[], r.sequence, .delete⟩ = result at hok hremove
    rcases result with ⟨_ | _ | _, active'⟩ <;> cases hok
    exact hremove

/-- A recovery that succeeds makes a current Memtable, which may be far beyond its target. -/
theorem replay {checkpoint : Option ℕ} (rs : List Record) {active : Memtable} :
    ∀ {previousSequence : Option ℕ} {m : Memtable}, m.Current targetBytes →
      KronosEngine.replay checkpoint previousSequence rs m = .ok active →
      (∀ r ∈ rs, r.sequence ≤ uint64Max) → active.Current targetBytes := by
  induction rs with
  | nil =>
    intro previousSequence m h hok _
    cases hok
    exact h
  | cons r rs ih =>
    intro previousSequence m h hok hbounded
    have hrest : ∀ r ∈ rs, r.sequence ≤ uint64Max :=
      fun r hr => hbounded r (List.mem_cons_of_mem _ hr)
    unfold KronosEngine.replay at hok
    split_ifs at hok with hincreasing hmax hcovered
    · exact ih h hok hrest
    · obtain ⟨m', happly, hok⟩ := bind_eq_ok hok
      exact ih (h.applyRecord (lt_of_le_of_ne (hbounded r (.head _)) hmax) happly) hok hrest

end Memtable.Current

/-! ## The fields of an engine -/

/-- The active Memtable of an engine is current, no Memtable that it has handed over is empty, and
its log is bounded. -/
structure KronosEngine.Sized {F : Type} (e : KronosEngine F) : Prop where
  log : e.log.wal.Bounded
  active : ∀ active, e.activeMemtable = some active → active.Current e.memtableTargetBytes
  slot : ∀ task, e.immutableMemtable = some task → task.memtable.entryCount ≠ 0
  queue : ∀ task ∈ e.flushQueue, task.memtable.entryCount ≠ 0

/-- The active Memtable is within its target, or it has one entry. -/
def KronosEngine.WithinBound {F : Type} (e : KronosEngine F) : Prop :=
  ∃ active, e.activeMemtable = some active ∧
    (active.memoryUsage ≤ e.memtableTargetBytes ∨ active.entryCount = 1)

/-- The active Memtable has room for a record. -/
def KronosEngine.HasRoom {F : Type} (e : KronosEngine F) (w : Write) : Prop :=
  ∃ active, e.activeMemtable = some active ∧ rotationRequired active w = false

namespace KronosEngine.Sized

variable {F R : Type} {e : KronosEngine F}

/-- What the constructor makes. -/
theorem construct {H : Hashing} {fmt : TableFormat F R} {store : Store F} {log : Option Bytes}
    {memtableTargetBytes : ℕ} {compactionPolicy : CompactionPolicy}
    (hcheckpoint : ∀ through ∈ store.manifest.persistedThrough, through ≤ uint64Max)
    (hok : KronosEngine.construct H fmt store log memtableTargetBytes compactionPolicy = .ok e) :
    e.Sized := by
  obtain ⟨⟨active, wal⟩, hstart, hok⟩ := bind_eq_ok hok
  cases hok
  obtain ⟨w, hconstruct, hrecover⟩ := bind_eq_ok hstart
  obtain ⟨hheader, hzero⟩ := Wal.construct_ok hconstruct
  have hw : w.Bounded := hzero.trans_le (Nat.zero_le _)
  obtain ⟨_, -, hrecover⟩ := bind_eq_ok hrecover
  have hrecovered := @Wal.bounded_recoverWith w none H hw
  rw [Wal.recoverWith_none] at hrecovered
  cases hwal : w.recover H with
  | mk result w' =>
  rw [hwal] at hrecover hrecovered
  cases result with
  | error failure => cases hrecover
  | ok records =>
    obtain ⟨hv, -⟩ := Wal.recover_ok hheader hwal
    obtain ⟨active', hreplay, hrecover⟩ := bind_eq_ok hrecover
    -- The replay fills the first Memtable, beyond its target if need be.
    have hactive := (Memtable.Current.new memtableTargetBytes).replay records hreplay
      fun r hr => (hv.sequence_lt r hr).le
    have hsized : active' = active → wal.Bounded →
        (opened store active wal memtableTargetBytes compactionPolicy).Sized := by
      rintro rfl hbounded
      refine ⟨hbounded, fun m hm => ?_, fun task htask => (nomatch htask), fun task htask => ?_⟩
      · cases hm
        exact hactive
      · exact absurd htask List.not_mem_nil
    cases hthrough : store.manifest.persistedThrough with
    | none =>
      rw [hthrough] at hrecover
      cases hrecover
      exact hsized rfl hrecovered
    | some checkpoint =>
      rw [hthrough] at hrecover
      dsimp only at hrecover
      split_ifs at hrecover with hmax
      cases hrecover
      have hlt : checkpoint < uint64Max := lt_of_le_of_ne (hcheckpoint _ hthrough) hmax
      exact hsized rfl (Wal.bounded_ensureNextSequenceAtLeast hrecovered hlt)

/-- A hand-over freezes a Memtable with entries. -/
theorem handOver (h : e.Sized) {active : Memtable} (hentries : active.entryCount ≠ 0)
    {next : Option Memtable} (hnext : ∀ m, next = some m → m.Current e.memtableTargetBytes) :
    (e.handOver active next).Sized := by
  refine ⟨h.log, hnext, fun task htask => ?_, fun task htask => ?_⟩
  · cases htask
    exact hentries
  · rcases List.mem_append.1 htask with htask | htask
    · exact h.queue task htask
    · rw [List.mem_singleton.1 htask]
      exact hentries

/-- The check of a writer, which finds room, or makes it, when it lets the writer go on. -/
theorem prepare (h : e.Sized) {woken : Bool} {w : Write} {result : Prepared × KronosEngine F}
    (hprepares : Prepares e woken w result) :
    result.2.Sized ∧ (result.1 = .ready → result.2.HasRoom w) := by
  cases hprepares with
  | shuttingDown => exact ⟨h, fun hready => nomatch hready⟩
  | failed => exact ⟨h, fun hready => nomatch hready⟩
  | waits => exact ⟨h, fun hready => nomatch hready⟩
  | ready active _ _ hactive hroom => exact ⟨h, fun _ => ⟨active, hactive, hroom⟩⟩
  | rotated active _ _ _ hentries =>
    have hnew := Memtable.Current.new e.memtableTargetBytes
    refine ⟨h.handOver hentries fun m hm => Option.some.inj hm ▸ hnew, fun _ => ?_⟩
    -- A new Memtable has no entry, and needs no rotation.
    exact ⟨.new e.memtableTargetBytes, rfl, rfl⟩

/-- The hand-over of a shutdown. -/
theorem schedule (h : e.Sized) {result : Except Failure Unit × KronosEngine F}
    (hschedules : Schedules e result) : result.2.Sized := by
  cases hschedules with
  | nothing => exact h
  | handed active _ _ hentries => exact h.handOver hentries fun m hm => nomatch hm

/-- What `put` and `remove` do with the active Memtable. -/
theorem insertLocked_eq (e : KronosEngine F) (w : Write) (sequence : ℕ) {active : Memtable}
    (hactive : e.activeMemtable = some active) :
    (e.insertLocked w sequence).2 =
        { e with activeMemtable := some (active.write w.key (w.entry sequence)).2 } ∧
      ((e.insertLocked w sequence).1 = .ok () →
        (active.write w.key (w.entry sequence)).1 = .success) := by
  unfold insertLocked
  rw [hactive]
  cases w with
  | put key value =>
    cases hput : active.put key value sequence with
    | mk result active' =>
      have hwrite : active.write (Write.put key value).key ((Write.put key value).entry sequence) =
        (result, active') := hput
      rw [hwrite]
      dsimp only
      rw [hput]
      cases result with
      | success => exact ⟨rfl, fun _ => rfl⟩
      | immutable => exact ⟨rfl, fun hok => nomatch hok⟩
      | olderSequence => exact ⟨rfl, fun hok => nomatch hok⟩
  | remove key =>
    cases hremove : active.remove key sequence with
    | mk result active' =>
      have hwrite : active.write (Write.remove key).key ((Write.remove key).entry sequence) =
        (result, active') := hremove
      rw [hwrite]
      dsimp only
      rw [hremove]
      cases result with
      | success => exact ⟨rfl, fun _ => rfl⟩
      | immutable => exact ⟨rfl, fun hok => nomatch hok⟩
      | olderSequence => exact ⟨rfl, fun hok => nomatch hok⟩

/-- The insertion of a record. -/
theorem insert (h : e.Sized) (w : Write) {sequence : ℕ} (hsequence : sequence < uint64Max) :
    (e.insertLocked w sequence).2.Sized := by
  cases hactive : e.activeMemtable with
  | none =>
    unfold insertLocked
    rw [hactive]
    exact h
  | some active =>
    have hentry : (w.entry sequence).sequence < uint64Max := by cases w <;> exact hsequence
    rw [(insertLocked_eq e w sequence hactive).1]
    refine ⟨h.log, fun m hm => ?_, h.slot, h.queue⟩
    cases hm
    exact (h.active active hactive).write w.key hentry

/-- The check predicts whether the record exceeds the target. -/
theorem wouldExceedTarget_iff (h : e.Sized) {active : Memtable}
    (hactive : e.activeMemtable = some active) {w : Write} {sequence : ℕ}
    (hok : (e.insertLocked w sequence).1 = .ok ()) :
    ∃ active', (e.insertLocked w sequence).2.activeMemtable = some active' ∧
      (active.entryCount = 0 → active'.entryCount = 1) ∧
      (active.wouldExceedTarget w.key w.candidate = true ↔
        e.memtableTargetBytes < active'.memoryUsage) := by
  obtain ⟨hengine, hsuccess⟩ := insertLocked_eq e w sequence hactive
  have hcurrent := h.active active hactive
  have hvalue : w.candidate.value = (w.entry sequence).value := by cases w <;> rfl
  have hnewest : w.candidate.sequence = uint64Max := by cases w <;> rfl
  refine ⟨(active.write w.key (w.entry sequence)).2, by rw [hengine], ?_, ?_⟩
  · exact fun hempty => Memtable.entryCount_write hempty (hsuccess hok)
  · rw [← hcurrent.target]
    apply Memtable.wouldExceedTarget_iff hvalue _ (hsuccess hok)
    intro old hlookup
    rw [hnewest]
    exact hcurrent.older w.key old hlookup

/-- A record that there is room for leaves the active Memtable within its bound. -/
theorem withinBound (h : e.Sized) {w : Write} (hroom : e.HasRoom w) {sequence : ℕ}
    (hok : (e.insertLocked w sequence).1 = .ok ()) : (e.insertLocked w sequence).2.WithinBound := by
  obtain ⟨active, hactive, hrequired⟩ := hroom
  obtain ⟨active', hactive', hcount, hexceeds⟩ := h.wouldExceedTarget_iff hactive hok
  have htarget : (e.insertLocked w sequence).2.memtableTargetBytes = e.memtableTargetBytes := by
    rw [(insertLocked_eq e w sequence hactive).1]
  refine ⟨active', hactive', ?_⟩
  rw [htarget]
  unfold rotationRequired at hrequired
  rcases Bool.and_eq_false_iff.1 hrequired with hempty | hfits
  · have hzero := of_decide_eq_false hempty
    exact .inr (hcount (Nat.eq_zero_of_not_pos hzero))
  · have hnot : ¬e.memtableTargetBytes < active'.memoryUsage := by
      rw [← hexceeds, hfits]
      exact Bool.false_ne_true
    exact .inl (not_lt.1 hnot)

end KronosEngine.Sized

/-! ## Every history of an engine -/

/-- A step of a process, or the append of a writer in which a system call fails. -/
inductive EngineLabel (F ι : Type) where
  | process (label : ProcessLabel F ι)
  | appendFails (i : ι) (fault : Wal.AppendFault)

section Engine

variable {F R ι : Type} [DecidableEq ι] (H : Hashing) (fmt : TableFormat F R)

/-- The steps of an engine. -/
inductive EngineStep (s : System F ι) : EngineLabel F ι → System F ι → Prop where
  | process {s' : System F ι} (label : ProcessLabel F ι) : ProcessStep H fmt s label s' →
    EngineStep s (.process label) s'
  | appendFails (i : ι) (w : Write) (fault : Wal.AppendFault) : s.calls i = .write w .append →
    EngineStep s (.appendFails i fault)
      { s.goto i (.write w (.behindAppend ((w.call (some fault)).run H s.engine.log.wal).1)) with
        engine := { s.engine with log := { s.engine.log with
          wal := ((w.call (some fault)).run H s.engine.log.wal).2 } }
        history := s.history.append i w ((w.call (some fault)).run H s.engine.log.wal).1 }

/-- An engine that its constructor has made over whatever is in a directory, beside calls of earlier
engines. -/
def Constructs (s : System F ι) : Prop :=
  ∃ store log memtableTargetBytes compactionPolicy,
    (∀ through ∈ store.manifest.persistedThrough, through ≤ uint64Max) ∧
    KronosEngine.construct H fmt store log memtableTargetBytes compactionPolicy = .ok s.engine ∧
    s.worker = .pop ∧ ∀ i, (s.calls i).resting = true

/-- Every history of an engine, from its construction on. -/
def engineRuns : Lts (System F ι) (EngineLabel F ι) where
  initial := Constructs H fmt
  step := EngineStep H fmt

end Engine

/-! ## Writers that are past their check -/

namespace Pc

/-- A writer is past its check, and has not failed. -/
def settling : Pc → Bool
  | write _ .append | write _ (.insert ..) | write _ (.leave (.ok ())) => true
  | _ => false

/-- What a writer past its check relies on: there is room for its record until it is inserted, and
then the active Memtable is within its bound. -/
def Relies {F : Type} (e : KronosEngine F) : Pc → Prop
  | write w .append => e.HasRoom w
  | write w (.insert sequence _) => e.HasRoom w ∧ sequence < uint64Max
  | write _ (.leave (.ok ())) => e.WithinBound
  | _ => True

/-- Such a writer holds `write_mutex_`. -/
theorem write_mem_held_of_settling {pc : Pc} (h : pc.settling = true) :
    Mutex.write ∈ pc.held := by
  unfold settling at h
  split at h
  · exact List.mem_singleton_self _
  · exact .head _
  · exact List.mem_singleton_self _
  · cases h

/-- It is in no stage of a shutdown. -/
theorem stage_of_settling {pc : Pc} (h : pc.settling = true) : pc.stage = 0 := by
  unfold settling at h
  split at h
  · rfl
  · rfl
  · rfl
  · cases h

/-- Who is not past its check relies on nothing. -/
theorem relies_of_not_settling {F : Type} {pc : Pc} (h : pc.settling = false)
    (e : KronosEngine F) : pc.Relies e := by
  unfold settling at h
  unfold Relies
  split at h
  · cases h
  · cases h
  · cases h
  · trivial

/-- What a writer relies on is the active Memtable. -/
theorem Relies.congr {F : Type} {e e' : KronosEngine F} {pc : Pc} (h : pc.Relies e)
    (hactive : e'.activeMemtable = e.activeMemtable)
    (htarget : e'.memtableTargetBytes = e.memtableTargetBytes) : pc.Relies e' := by
  unfold Relies at h ⊢
  unfold HasRoom WithinBound at *
  rw [hactive, htarget]
  exact h

/-- Waking a call leaves whether it has yet to settle its Memtable. -/
@[simp] theorem settling_woken (pc : Pc) : pc.woken.settling = pc.settling := by
  unfold woken
  split <;> rfl

/-- It leaves what the call relies on. -/
theorem relies_woken {F : Type} {e : KronosEngine F} {pc : Pc} (h : pc.Relies e) :
    pc.woken.Relies e := by
  unfold woken
  split
  · trivial
  · trivial
  · exact h

/-- An acquisition changes neither. -/
theorem acquires_settling {F : Type} {e : KronosEngine F} {pc pc' : Pc} {m : Mutex}
    (h : pc.acquires = some (m, pc')) :
    pc'.settling = pc.settling ∧ (pc.Relies e → pc'.Relies e) := by
  unfold acquires at h
  split at h <;> cases h <;> exact ⟨rfl, id⟩

end Pc

/-- What holds in every state of an engine. -/
structure System.Sized {F ι : Type} (s : System F ι) : Prop where
  exclusive : Exclusive s
  stages : Stages s
  barrier : ∀ i j, 3 ≤ (s.calls i).stage → (s.calls j).settling = false
  engine : s.engine.Sized
  calls : ∀ i, (s.calls i).Relies s.engine

section Steps

variable {F R ι : Type} {H : Hashing} {fmt : TableFormat F R} {i : ι} {s s' : System F ι}

/-- A section that lets a writer past its check, or brings a shutdown past its barrier, runs under
`write_mutex_`. -/
theorem CallStep.settling {e : KronosEngine F} {h : History ι} {pc : Pc}
    (hstep : CallStep H fmt i s.engine s.history (s.calls i) e h pc) :
    (pc.settling = true → (s.calls i).settling = true ∨
      Mutex.write ∈ (s.calls i).held ∧ s.engine.shuttingDown = false) ∧
    (3 ≤ pc.stage → 3 ≤ (s.calls i).stage ∨ Mutex.write ∈ (s.calls i).held) := by
  have hnot : ∀ {p : Prop}, false = true → p := fun h => absurd h Bool.false_ne_true
  have hearly : ∀ {p : Prop}, 3 ≤ 0 → p := fun h => absurd h (by decide)
  generalize hcall : s.calls i = pc₀ at hstep
  cases hstep with
  -- A check that passes runs under the mutex, before any shutdown.
  | prepare w woken =>
    refine ⟨fun hsettling => ?_, hearly⟩
    cases hready : (s.engine.prepareForWriteLocked woken w).1 with
    | ready => exact .inr ⟨.head _, (flags_of_ready hready).1⟩
    | waits =>
      rw [hready] at hsettling
      exact hnot hsettling
    | threw failure =>
      rw [hready] at hsettling
      exact hnot hsettling
  | append w => exact ⟨fun _ => .inl rfl, hearly⟩
  | insert w sequence => exact ⟨fun _ => .inl rfl, hearly⟩
  | leave w result => exact ⟨hnot, hearly⟩
  | active key => cases s.engine.lookupActive key <;> exact ⟨hnot, hearly⟩
  | immutable key snapshot =>
    cases snapshot.bind (·.memtable.lookupEntry key) <;> exact ⟨hnot, hearly⟩
  | copy key => exact ⟨hnot, hearly⟩
  | file key f rest winner =>
    cases s.engine.store.lookupFile fmt key winner f <;> exact ⟨hnot, hearly⟩
  | answer key winner => exact ⟨hnot, hearly⟩
  | publish =>
    cases s.engine.shuttingDown with
    | true => exact ⟨hnot, fun hstage => absurd hstage (by decide)⟩
    | false => exact ⟨hnot, fun hstage => absurd hstage (by decide)⟩
  | barrier => exact ⟨hnot, fun _ => .inr (.head _)⟩
  | wait => exact ⟨hnot, fun _ => .inl le_rfl⟩
  | drain => exact ⟨hnot, fun _ => .inl le_rfl⟩
  | close error => exact ⟨hnot, fun _ => .inl (Nat.le_succ 3)⟩
  | report error => exact ⟨hnot, fun _ => .inl (Nat.le_add_left 3 3)⟩

/-- A section of the worker leaves the active Memtable alone, and a section of a call does, unless
it is the check of a writer, its insertion, or the hand-over of a shutdown. -/
theorem WorkerStep.sameActive {e e' : KronosEngine F} {fault : Option (WorkerFault F)}
    {pc pc' : WorkerPc} (hstep : WorkerStep H fmt e fault pc e' pc') :
    e'.activeMemtable = e.activeMemtable ∧ e'.memtableTargetBytes = e.memtableTargetBytes := by
  cases hstep with
  | commitFlush task edit fault =>
    have hcommits := e.commitEdit_cases edit fault
    generalize e.commitEdit edit fault = result at hcommits
    cases hcommits <;> exact ⟨rfl, rfl⟩
  | commitCompaction edit fault =>
    have hcommits := e.commitEdit_cases edit fault
    generalize e.commitEdit edit fault = result at hcommits
    cases hcommits <;> exact ⟨rfl, rfl⟩
  | clear task flushedThrough =>
    unfold clearImmutable
    split_ifs <;> exact ⟨rfl, rfl⟩
  | record task failure =>
    unfold recordFailure
    split_ifs <;> exact ⟨rfl, rfl⟩
  | _ => exact ⟨rfl, rfl⟩

/-- The worker keeps an engine sized. -/
theorem WorkerStep.sized {e e' : KronosEngine F} {fault : Option (WorkerFault F)}
    {pc pc' : WorkerPc} (hstep : WorkerStep H fmt e fault pc e' pc') (h : e.Sized) : e'.Sized := by
  cases hstep with
  | pop task rest hqueue =>
    refine ⟨h.log, h.active, h.slot, fun task' htask' => h.queue task' ?_⟩
    rw [hqueue]
    exact List.mem_cons_of_mem _ htask'
  | commitFlush task edit fault =>
    have hcommits := e.commitEdit_cases edit fault
    generalize e.commitEdit edit fault = result at hcommits
    cases hcommits <;> exact ⟨h.log, h.active, h.slot, h.queue⟩
  | commitCompaction edit fault =>
    have hcommits := e.commitEdit_cases edit fault
    generalize e.commitEdit edit fault = result at hcommits
    cases hcommits <;> exact ⟨h.log, h.active, h.slot, h.queue⟩
  | clear task flushedThrough =>
    unfold clearImmutable
    split_ifs
    · exact h
    · exact ⟨h.log, h.active, fun task htask => (nomatch htask), h.queue⟩
  | reclaim flushedThrough fault =>
    exact ⟨Wal.bounded_reclaimThrough H flushedThrough fault h.log, h.active, h.slot, h.queue⟩
  | record task failure =>
    unfold recordFailure
    split_ifs <;> exact ⟨h.log, h.active, h.slot, h.queue⟩
  | _ => exact ⟨h.log, h.active, h.slot, h.queue⟩

/-- A section of a call that changes the active Memtable runs under `write_mutex_`, or behind the
barrier of a shutdown. -/
theorem CallStep.sameActive {e e' : KronosEngine F} {h h' : History ι} {pc pc' : Pc}
    (hstep : CallStep H fmt i e h pc e' h' pc') :
    e'.activeMemtable = e.activeMemtable ∧ e'.memtableTargetBytes = e.memtableTargetBytes ∨
      Mutex.write ∈ pc.held ∨ 3 ≤ pc.stage := by
  cases hstep with
  | prepare w woken => exact .inr (.inl (.head _))
  | insert w sequence => exact .inr (.inl (.head _))
  | drain => exact .inr (.inr le_rfl)
  | _ => exact .inl ⟨rfl, rfl⟩

/-- The active Memtable of an engine of this kind is mutable. -/
theorem System.Sized.mutable (hs : s.Sized) (active : Memtable)
    (hactive : s.engine.activeMemtable = some active) : active.state = .mutable :=
  (hs.engine.active active hactive).state

/-- A section of a call keeps the engine sized, and what the call relies on. -/
theorem System.Sized.engine_of_call (hs : s.Sized) {e : KronosEngine F} {h : History ι} {pc : Pc}
    (hstep : CallStep H fmt i s.engine s.history (s.calls i) e h pc) :
    e.Sized ∧ pc.Relies e := by
  have hrelies := hs.calls i
  generalize hcall : s.calls i = pc₀ at hstep hrelies
  cases hstep with
  | prepare w woken =>
    obtain ⟨hsized, hroom⟩ := hs.engine.prepare (hs.stages.prepares hs.mutable woken w)
    refine ⟨hsized, ?_⟩
    cases hready : (s.engine.prepareForWriteLocked woken w).1 with
    | ready => exact hroom hready
    | waits => trivial
    | threw failure => trivial
  -- The number that the append returns has 64 bits.
  | append w =>
    obtain ⟨hbounded, hsequence⟩ := Wal.bounded_run H (w.call none) hs.engine.log
    refine ⟨⟨hbounded, hs.engine.active, hs.engine.slot, hs.engine.queue⟩, ?_⟩
    cases hresult : ((w.call none).run H s.engine.log.wal).1 with
    | error failure => trivial
    | ok sequence => exact ⟨hrelies, hsequence sequence hresult⟩
  -- The check has seen to it that the record fits.
  | insert w sequence =>
    obtain ⟨hroom, hsequence⟩ := hrelies
    refine ⟨hs.engine.insert w hsequence, ?_⟩
    cases hresult : (s.engine.insertLocked w sequence).1 with
    | error failure => trivial
    | ok _ => exact hs.engine.withinBound hroom hresult
  | leave w result => exact ⟨hs.engine, trivial⟩
  | active key =>
    refine ⟨hs.engine, ?_⟩
    cases s.engine.lookupActive key <;> trivial
  | immutable key snapshot =>
    refine ⟨hs.engine, ?_⟩
    cases snapshot.bind (·.memtable.lookupEntry key) <;> trivial
  | file key f rest winner =>
    refine ⟨hs.engine, ?_⟩
    cases s.engine.store.lookupFile fmt key winner f <;> trivial
  | publish =>
    refine ⟨⟨hs.engine.log, hs.engine.active, hs.engine.slot, hs.engine.queue⟩, ?_⟩
    cases s.engine.shuttingDown <;> trivial
  | drain hgo => exact ⟨hs.engine.schedule (hs.stages.schedules hs.mutable hcall), trivial⟩
  | _ => exact ⟨⟨hs.engine.log, hs.engine.active, hs.engine.slot, hs.engine.queue⟩, trivial⟩

variable [DecidableEq ι]

/-- Where a call moves on its own, every other writer that is past its check still is, and relies on
the same. -/
theorem System.Sized.goto (hs : s.Sized) {pc : Pc} {e : KronosEngine F} {h : History ι}
    (hexclusive : Exclusive { s.goto i pc with engine := e, history := h })
    (hstages : Stages { s.goto i pc with engine := e, history := h })
    (hsettling : pc.settling = true → (s.calls i).settling = true ∨
      Mutex.write ∈ (s.calls i).held ∧ s.engine.shuttingDown = false)
    (hstage : 3 ≤ pc.stage → 3 ≤ (s.calls i).stage ∨ Mutex.write ∈ (s.calls i).held)
    (hactive : e.activeMemtable = s.engine.activeMemtable ∧
        e.memtableTargetBytes = s.engine.memtableTargetBytes ∨
      Mutex.write ∈ (s.calls i).held ∨ 3 ≤ (s.calls i).stage)
    (hengine : e.Sized) (hrelies : pc.Relies e) :
    System.Sized { s.goto i pc with engine := e, history := h } := by
  refine ⟨hexclusive, hstages, fun j k hj => ?_, hengine, fun j => ?_⟩
  · change 3 ≤ ((s.goto i pc).calls j).stage at hj
    rw [Bool.eq_false_iff]
    intro hk
    change ((s.goto i pc).calls k).settling = true at hk
    have hbefore : 3 ≤ (s.calls j).stage ∨ Mutex.write ∈ (s.calls j).held := by
      rw [System.calls_goto] at hj
      split_ifs at hj with hji
      · exact hji ▸ hstage hj
      · exact .inl hj
    have hpast : (s.calls k).settling = true ∨
        Mutex.write ∈ (s.calls k).held ∧ s.engine.shuttingDown = false := by
      rw [System.calls_goto] at hk
      split_ifs at hk with hki
      · exact hki ▸ hsettling hk
      · exact .inl hk
    rcases hbefore with hbefore | hheld
    · -- The shutdown was past its barrier, so that no check lets a writer go on.
      rcases hpast with hpast | ⟨-, hflag⟩
      · rw [hs.barrier j k hbefore] at hpast
        cases hpast
      · rw [hs.stages.published j (Nat.zero_lt_of_lt hbefore)] at hflag
        cases hflag
    · -- The shutdown that passes its barrier holds the mutex that the writer would hold.
      have hheld' : Mutex.write ∈ (s.calls k).held :=
        hpast.elim Pc.write_mem_held_of_settling And.left
      rw [hs.exclusive.calls .write j k hheld hheld', Pc.stage_of_settling hk] at hj
      exact absurd hj (by decide)
  · -- What another call relies on is the active Memtable, which no other call changes meanwhile.
    change ((s.goto i pc).calls j).Relies e
    rw [System.calls_goto]
    split_ifs with hj
    · exact hrelies
    · cases hsettled : (s.calls j).settling with
      | false => exact Pc.relies_of_not_settling hsettled e
      | true =>
        rcases hactive with ⟨hactive, htarget⟩ | hheld | hpast
        · exact (hs.calls j).congr hactive htarget
        · have hheld' := Pc.write_mem_held_of_settling hsettled
          exact absurd (hs.exclusive.calls .write j i hheld' hheld) hj
        · rw [hs.barrier i j hpast] at hsettled
          cases hsettled

/-- Where a call moves on without a section, nothing changes. -/
theorem System.Sized.move (hs : s.Sized) {pc : Pc}
    (hexclusive : Exclusive (s.goto i pc)) (hstages : Stages (s.goto i pc))
    (hsettling : pc.settling = (s.calls i).settling)
    (hstage : 3 ≤ pc.stage → 3 ≤ (s.calls i).stage)
    (hrelies : (s.calls i).Relies s.engine → pc.Relies s.engine) : (s.goto i pc).Sized :=
  @System.Sized.goto F ι i s _ hs pc s.engine s.history hexclusive hstages
    (fun h => .inl (hsettling ▸ h)) (fun h => .inl (hstage h)) (.inl ⟨rfl, rfl⟩) hs.engine
    (hrelies (hs.calls i))

omit [DecidableEq ι] in
/-- Waking every call changes nothing. -/
theorem System.Sized.wakeAll (hs : s.Sized) {worker : WorkerPc}
    (hexclusive : Exclusive { s.wakeAll with worker := worker })
    (hstages : Stages { s.wakeAll with worker := worker }) :
    System.Sized { s.wakeAll with worker := worker } where
  exclusive := hexclusive
  stages := hstages
  barrier j k hj := by
    change (s.calls k).woken.settling = false
    rw [Pc.settling_woken]
    exact hs.barrier j k (Pc.stage_woken (s.calls j) ▸ hj)
  engine := hs.engine
  calls j := Pc.relies_woken (hs.calls j)

/-- A step of a process keeps it sized. -/
theorem System.Sized.step {label : ProcessLabel F ι} (hs : s.Sized)
    (hstep : ProcessStep H fmt s label s') : s'.Sized := by
  have hexclusive := hs.exclusive.step hstep
  have hstages := hs.stages.step hs.exclusive hstep
  cases hstep with
  | invoke i request hidle =>
    refine hs.move hexclusive hstages ?_ ?_ fun _ => ?_
    · rw [hidle]
      cases request <;> rfl
    · cases request <;> exact fun h => absurd h (show ¬3 ≤ 0 by decide)
    · cases request <;> trivial
  | acquire i m pc hacquires hfree =>
    obtain ⟨hsettling, hrelies⟩ := @Pc.acquires_settling F s.engine _ _ _ hacquires
    exact hs.move hexclusive hstages hsettling
      (fun h => (Pc.acquires_stage hacquires).1 ▸ h) hrelies
  | call i e h pc hcall =>
    obtain ⟨hengine, hrelies⟩ := hs.engine_of_call hcall
    obtain ⟨hsettling, hstage⟩ := hcall.settling
    exact hs.goto hexclusive hstages hsettling hstage hcall.sameActive hengine hrelies
  -- The shutdown goes on, and then everybody is woken.
  | notify i hpc =>
    have hmoved : (s.goto i (.shutdown (.barrier false))).Sized := by
      refine hs.move ?_ ?_ ?_ ?_ fun _ => trivial
      · refine hexclusive.subset (fun m j hm => ?_) fun _ hm => hm
        exact (Pc.held_woken _).symm ▸ hm
      · exact hs.stages.advance (h := s.history) (hpc ▸ Nat.one_pos) (hpc ▸ Nat.le_succ 1) rfl rfl
          rfl id .inl .inl (fun hlate => absurd hlate (by decide))
          fun hlate => absurd hlate (by decide)
      · rw [hpc]
        rfl
      · exact fun hlate => absurd hlate (by decide)
    exact hmoved.wakeAll hexclusive hstages
  | join i error hpc hexited =>
    refine hs.move hexclusive hstages ?_ ?_ fun _ => trivial
    · rw [hpc]
      rfl
    · rw [hpc]
      exact fun _ => Nat.le_add_left 3 2
  | wake i =>
    exact hs.move hexclusive hstages (Pc.settling_woken _) (fun h => Pc.stage_woken (s.calls i) ▸ h)
      Pc.relies_woken
  | workerAcquire m pc hacquires hfree =>
    exact ⟨hexclusive, hstages, hs.barrier, hs.engine, hs.calls⟩
  | worker fault e pc hworker =>
    obtain ⟨hactive, htarget⟩ := hworker.sameActive
    exact ⟨hexclusive, hstages, hs.barrier, hworker.sized hs.engine,
      fun j => (hs.calls j).congr hactive htarget⟩
  | notifyCleared flushedThrough hpc => exact hs.wakeAll hexclusive hstages
  | notifyFailed hpc => exact hs.wakeAll hexclusive hstages

/-- A step of an engine keeps it sized. -/
theorem System.Sized.engineStep {label : EngineLabel F ι} (hs : s.Sized)
    (hstep : EngineStep H fmt s label s') : s'.Sized := by
  cases hstep with
  | process label hstep => exact hs.step hstep
  | appendFails i w fault hpc =>
    obtain ⟨hbounded, hsequence⟩ := Wal.bounded_run H (w.call (some fault)) hs.engine.log
    have hrelies := hs.calls i
    rw [hpc] at hrelies
    generalize (w.call (some fault)).run H s.engine.log.wal = result at hbounded hsequence ⊢
    obtain ⟨result, wal⟩ := result
    refine hs.goto (hs.exclusive.subset (fun m j hm => ?_) fun _ hm => hm) ?_ (fun _ => .inl ?_) ?_
      (.inl ⟨rfl, rfl⟩) ⟨hbounded, hs.engine.active, hs.engine.slot, hs.engine.queue⟩ ?_
    · change m ∈ ((s.goto i _).calls j).held at hm
      rw [System.calls_goto] at hm
      split_ifs at hm with hj
      · rw [hj, hpc]
        cases result <;> exact hm
      · exact hm
    · refine hs.stages.goto ⟨rfl, rfl, rfl, id⟩ ?_ fun _ => by rw [hpc]; rfl
      rw [hpc]
      cases result <;> rfl
    · rw [hpc]
      rfl
    · cases result <;> exact fun h => absurd h (show ¬3 ≤ 0 by decide)
    · cases result with
      | error failure => trivial
      | ok sequence => exact ⟨hrelies, hsequence sequence rfl⟩

omit [DecidableEq ι] in
/-- What the constructor leaves is sized. -/
theorem System.Sized.constructs (h : Constructs H fmt s) : s.Sized := by
  obtain ⟨store, log, memtableTargetBytes, compactionPolicy, hcheckpoint, hok, hworker, hresting⟩ :=
    h
  have hquiet := fun i => Pc.quiet_of_resting (hresting i)
  have hsettling : ∀ i, (s.calls i).settling = false := by
    intro i
    rw [Bool.eq_false_iff]
    intro hi
    have hheld := Pc.write_mem_held_of_settling hi
    rw [(hquiet i).1] at hheld
    cases hheld
  have hengine := KronosEngine.Sized.construct hcheckpoint hok
  obtain ⟨⟨active, wal⟩, -, hok⟩ := bind_eq_ok hok
  have hopened : s.engine = opened store active wal memtableTargetBytes compactionPolicy :=
    (Except.ok.inj hok).symm
  have hstage : ∀ i {n}, ¬n + 1 ≤ (s.calls i).stage := by
    intro i n
    rw [(hquiet i).2.1]
    exact Nat.not_succ_le_zero n
  -- No call is under way, and the engine is a new one.
  have hstages : Stages s := by
    refine ⟨fun i j hi => absurd hi (hstage i), fun i hi => absurd hi (hstage i), fun hflag => ?_,
      fun i j hi => absurd hi (hstage i), fun hnone => ?_, fun hclosed => ?_,
      fun i hi => absurd hi (hstage i), fun hexited => ?_, fun hending => ?_, fun herror => ?_⟩
    · rw [hopened] at hflag
      cases hflag
    · rw [hopened] at hnone
      cases hnone
    · rw [hopened] at hclosed
      cases hclosed
    · rw [hworker] at hexited
      cases hexited
    · rw [hworker] at hending
      cases hending
    · rw [hopened] at herror
      cases herror
  refine ⟨⟨fun m i j hi => ?_, fun m i hi => ?_⟩, hstages, fun i j hi => absurd hi (hstage i),
    hengine, fun i => Pc.relies_of_not_settling (hsettling i) _⟩
  · rw [(hquiet i).1] at hi
    cases hi
  · rw [(hquiet i).1] at hi
    cases hi

/-- Every state of an engine is sized. -/
theorem sized_of_reachable (h : (engineRuns H fmt).Reachable s) : s.Sized := by
  refine @Lts.Reachable.invariant _ _ (engineRuns H fmt) System.Sized ?_ ?_ s h
  · exact fun s hs => System.Sized.constructs hs
  · exact fun s label s' hs hstep => hs.engineStep hstep

/-- While a writer is past its check, no step but its insertion touches the active Memtable. -/
theorem activeMemtable_of_step (hs : s.Sized) (hsettling : (s.calls i).settling = true)
    {label : EngineLabel F ι} (hstep : EngineStep H fmt s label s')
    (hlabel : ∀ w sequence, s.calls i = .write w (.insert sequence true) →
      label ≠ .process (.call i)) :
    s'.engine.activeMemtable = s.engine.activeMemtable := by
  cases hstep with
  | appendFails j w fault hpc => rfl
  | process label hstep =>
    cases hstep with
    | call j e h pc hcall =>
      by_cases hj : j = i
      · subst hj
        generalize hpc : s.calls j = pc₀ at hcall hsettling
        cases hcall with
        | insert w sequence => exact absurd rfl (hlabel w sequence hpc)
        | append w => rfl
        | leave w result => rfl
        | _ => cases hsettling
      · rcases hcall.sameActive with ⟨hactive, -⟩ | hheld | hpast
        · exact hactive
        · have hheld' := Pc.write_mem_held_of_settling hsettling
          exact absurd (hs.exclusive.calls .write j i hheld hheld') hj
        · rw [hs.barrier j i hpast] at hsettling
          cases hsettling
    | worker fault e pc hworker => exact hworker.sameActive.1
    | _ => rfl

/-- **The bound.** Behind each write that returns, the active Memtable is within its target or has
one entry. The check of a writer predicts exactly whether its record, once it is inserted, exceeds
the target. No other step touches the active Memtable between the check and the end of the call, and
no Memtable that is handed over is empty. -/
theorem size_bound (h : (engineRuns H fmt).Reachable s) :
    (∀ i w label s', EngineStep H fmt s label s' → s.calls i = .write w (.leave (.ok ())) →
      s'.calls i = .wrote w (.ok ()) →
      ∃ active, s'.engine.activeMemtable = some active ∧
        active.memoryUsage = (active.table.entries.map fun r =>
          Memtable.estimateEntrySize r.1 r.2).sum ∧
        (active.memoryUsage ≤ s'.engine.memtableTargetBytes ∨ active.entryCount = 1)) ∧
    (∀ i w sequence e, s.calls i = .write w (.insert sequence true) →
      s.engine.insertLocked w sequence = (.ok (), e) →
      ∃ active active', s.engine.activeMemtable = some active ∧
        e.activeMemtable = some active' ∧
        (active.wouldExceedTarget w.key w.candidate = true ↔
          s.engine.memtableTargetBytes < active'.memoryUsage)) ∧
    (∀ i, (s.calls i).settling = true → ∀ label s', EngineStep H fmt s label s' →
      (∀ w sequence, s.calls i = .write w (.insert sequence true) → label ≠ .process (.call i)) →
      s'.engine.activeMemtable = s.engine.activeMemtable) ∧
    ∀ task, s.engine.immutableMemtable = some task ∨ task ∈ s.engine.flushQueue →
      task.memtable.entryCount ≠ 0 := by
  have hs := sized_of_reachable h
  refine ⟨fun i w label s' hstep hleave hreturned => ?_,
    fun i w sequence e hpc hinsert => ?_, ?_, ?_⟩
  · -- A put that returns relies on the bound still, and returning changes no Memtable.
    have hs' := hs.engineStep hstep
    have hsettling : (s.calls i).settling = true := by
      rw [hleave]
      rfl
    have hrelies := hs.calls i
    rw [hleave] at hrelies
    obtain ⟨active, hactive, hbound⟩ := hrelies
    have hsame : s'.engine.activeMemtable = s.engine.activeMemtable := by
      apply activeMemtable_of_step hs hsettling hstep
      intro w' sequence hinsert
      rw [hleave] at hinsert
      cases hinsert
    have htarget : s'.engine.memtableTargetBytes = s.engine.memtableTargetBytes := by
      have hcurrent := hs.engine.active active hactive
      have hcurrent' := hs'.engine.active active (hsame.trans hactive)
      exact hcurrent'.target.symm.trans hcurrent.target
    refine ⟨active, hsame.trans hactive, (hs.engine.active active hactive).exact, ?_⟩
    rw [htarget]
    exact hbound
  · -- The check predicts the size behind the insertion.
    have hrelies := hs.calls i
    rw [hpc] at hrelies
    obtain ⟨⟨active, hactive, -⟩, -⟩ := hrelies
    obtain ⟨active', hactive', -, hexceeds⟩ :=
      hs.engine.wouldExceedTarget_iff hactive (congrArg Prod.fst hinsert)
    rw [hinsert] at hactive'
    exact ⟨active, active', hactive, hactive', hexceeds⟩
  · exact fun i hsettling label s' hstep hlabel => activeMemtable_of_step hs hsettling hstep hlabel
  · rintro task (htask | htask)
    · exact hs.engine.slot task htask
    · exact hs.engine.queue task htask

end Steps

/-- A first write, about to return. -/
theorem size_bound_of_one : ∃ (s s' : System Bytes ℕ) (active : Memtable),
    (engineRuns default (Sstable.format default)).Reachable s ∧
    s.calls 0 = .write (.put [1] [10]) (.leave (.ok ())) ∧
    EngineStep default (Sstable.format default) s (.process (.call 0)) s' ∧
    s'.engine.activeMemtable = some active ∧
    (active.memoryUsage ≤ s'.engine.memtableTargetBytes ∨ active.entryCount = 1) := by
  -- The runs from an empty directory are among those of an engine.
  let M : Lts (System Bytes ℕ) (ProcessLabel Bytes ℕ) :=
    ⟨FirstOpened default (Sstable.format default), ProcessStep default (Sstable.format default)⟩
  have hcalls : HasCalls default (Sstable.format default) M := fun t label t' hstep _ => hstep
  have hopened : M.Reachable (System.first ℕ default 512 ⟨4, by decide⟩) :=
    .initial (firstOpened_first default (Sstable.format default) 512 ⟨4, by decide⟩)
  obtain ⟨s, hpc, hreachable⟩ : ∃ s : System Bytes ℕ,
      s.calls 0 = .write (.put [1] [10]) (.leave (.ok ())) ∧ M.Reachable s := by
    obtain ⟨wal, active, -, -, hreachable⟩ :=
      firstInserted hcalls hopened 0 (w := .put [1] [10]) (by decide) (by decide)
    exact ⟨_, System.calls_put _ _ _ _ _, hreachable⟩
  have hruns : (engineRuns default (Sstable.format default)).Reachable s := by
    refine @Lts.Reachable.invariant _ _ M
      (engineRuns default (Sstable.format default)).Reachable ?_ ?_ s hreachable
    · rintro s ⟨e, memtableTargetBytes, compactionPolicy, hok, rfl⟩
      exact .initial ⟨_, _, _, _, fun through h => (Option.not_mem_none through h).elim, hok, rfl,
        fun _ => rfl⟩
    · exact fun s label s' hs hstep => hs.step (.process label hstep)
  have hstep : EngineStep default (Sstable.format default) s (.process (.call 0))
      { s.goto 0 (.wrote (.put [1] [10]) (.ok ())) with
        engine := s.engine, history := s.history } := by
    apply EngineStep.process
    apply ProcessStep.call
    rw [hpc]
    exact .leave _ _
  obtain ⟨hbound, -⟩ := size_bound hruns
  obtain ⟨active', hactive, -, hsize⟩ := hbound 0 _ _ _ hstep hpc
    (by rw [System.calls_goto, if_pos rfl])
  exact ⟨s, _, active', hruns, hpc, hstep, hactive, hsize⟩

end Kronos
