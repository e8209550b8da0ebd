import Kronos.Engine.Contents

/-!
# Calls that run alone

How a call runs from its beginning to its end while the other threads stand still, and how a task of
the worker does. Nobody else holds a mutex then (`System.Alone`), so every acquisition succeeds. A
`put` or `remove` ends when the record that it logged is in the active Memtable
(`Reachable.write`), and a `get` ends with the answer of the lookup that nothing interrupts
(`Reachable.get`). From an engine that was just opened over an empty directory, these lead to the
states that the examples of the other modules speak about.

The lemmas are about any system that has the steps of a process (`HasCalls`, `HasWorker`).
-/

namespace Kronos

open KronosEngine

/-! ## The systems that have the steps -/

/-- A step of a call that something other than a spurious wake-up makes. -/
def ProcessLabel.OfCall {F R ι : Type} (fmt : TableFormat F R) : ProcessLabel F ι → Prop
  | .invoke _ request => request.Taken fmt
  | .acquire _ | .call _ => True
  | .wake _ | .workerAcquire | .worker _ => False

/-- A step of the worker without a failure of the I/O. -/
def ProcessLabel.OfWorker {F ι : Type} : ProcessLabel F ι → Prop
  | .workerAcquire | .worker none => True
  | .worker (some _) | .invoke .. | .acquire _ | .call _ | .wake _ => False

section Runs

variable {F R ι : Type} [DecidableEq ι] (H : Hashing) (fmt : TableFormat F R)

/-- A system has the steps of the calls. -/
def HasCalls (M : Lts (System F ι) (ProcessLabel F ι)) : Prop :=
  ∀ t label t', ProcessStep H fmt t label t' → label.OfCall fmt → M.step t label t'

/-- A system has the steps of the worker. -/
def HasWorker (M : Lts (System F ι) (ProcessLabel F ι)) : Prop :=
  ∀ t label t', ProcessStep H fmt t label t' → label.OfWorker → M.step t label t'

end Runs

namespace System

variable {F ι : Type}

/-- Nobody but a call holds a mutex. -/
structure Alone (s : System F ι) (i : ι) : Prop where
  calls : ∀ j, j ≠ i → (s.calls j).held = []
  worker : s.worker.held = []

/-- No call holds a mutex. -/
def Resting (s : System F ι) : Prop := ∀ j, (s.calls j).held = []

variable [DecidableEq ι]

/-- The system with a call at a point, and what it has made of the engine and of the history. -/
def put (s : System F ι) (i : ι) (pc : Pc) (e : KronosEngine F) (h : History ι) : System F ι :=
  ⟨e, s.worker, Function.update s.calls i pc, h⟩

/-- The call that moves is where it moved to. -/
@[simp] theorem calls_put (s : System F ι) (i : ι) (pc : Pc) (e : KronosEngine F) (h : History ι) :
    (s.put i pc e h).calls i = pc := Function.update_self _ _ _

/-- The other calls stay. -/
theorem calls_put_of_ne (s : System F ι) {i j : ι} (hne : j ≠ i) (pc : Pc) (e : KronosEngine F)
    (h : History ι) : (s.put i pc e h).calls j = s.calls j := Function.update_of_ne hne _ _

/-- The system with the worker at a point, and what it has made of the engine. -/
def work (s : System F ι) (worker : WorkerPc) (e : KronosEngine F) : System F ι :=
  ⟨e, worker, s.calls, s.history⟩

/-- A call that is at a point already. -/
theorem put_self {s : System F ι} {i : ι} {pc : Pc} (h : s.calls i = pc) :
    s.put i pc s.engine s.history = s := by
  unfold put
  rw [← h, Function.update_eq_self]

/-- Of two moves of one call the later one stays. -/
@[simp] theorem goto_put (s : System F ι) (i : ι) (pc pc' : Pc) (e : KronosEngine F)
    (h : History ι) : (s.put i pc e h).goto i pc' = s.put i pc' e h := by
  unfold goto put
  rw [Function.update_idem]

/-- A mutex that the call does not hold is free. -/
theorem Alone.free {s : System F ι} {i : ι} (h : s.Alone i) {pc : Pc} {m : Mutex} (hm : m ∉ pc.held)
    (e : KronosEngine F) (history : History ι) : (s.put i pc e history).Free m := by
  refine ⟨fun j => ?_, ?_⟩
  · by_cases hj : j = i
    · rw [hj, calls_put]
      exact hm
    · rw [calls_put_of_ne s hj, h.calls j hj]
      exact List.not_mem_nil
  · show m ∉ s.worker.held
    rw [h.worker]
    exact List.not_mem_nil

end System

/-! ## Calls -/

namespace Reachable

variable {F R ι : Type} [DecidableEq ι] {H : Hashing} {fmt : TableFormat F R}
  {M : Lts (System F ι) (ProcessLabel F ι)} {s : System F ι} {i : ι} {e e' : KronosEngine F}
  {h h' : History ι} {pc pc' : Pc}

/-- A call begins. -/
theorem invoke (hM : HasCalls H fmt M) (hs : M.Reachable s) (hidle : s.calls i = .idle)
    {request : Request} (htaken : request.Taken fmt) :
    M.Reachable (s.put i request.start s.engine s.history) :=
  hs.step (hM _ _ _ (.invoke i request hidle) htaken)

/-- A call acquires a mutex that it does not hold. -/
theorem acquire (hM : HasCalls H fmt M) (hs : M.Reachable (s.put i pc e h)) (halone : s.Alone i)
    {m : Mutex} (hacquires : pc.acquires = some (m, pc')) (hm : m ∉ pc.held) :
    M.Reachable (s.put i pc' e h) := by
  have hstep : ProcessStep H fmt (s.put i pc e h) (.acquire i) ((s.put i pc e h).goto i pc') :=
    .acquire i m pc' (by rwa [System.calls_put]) (halone.free hm e h)
  rw [System.goto_put] at hstep
  exact hs.step (hM _ _ _ hstep trivial)

/-- A call runs a section. -/
theorem call (hM : HasCalls H fmt M) (hs : M.Reachable (s.put i pc e h))
    (hcall : CallStep H fmt i e h pc e' h' pc') : M.Reachable (s.put i pc' e' h') := by
  have hstep : ProcessStep H fmt (s.put i pc e h) (.call i)
      { (s.put i pc e h).goto i pc' with engine := e', history := h' } :=
    .call i e' h' pc' (by rwa [System.calls_put])
  rw [System.goto_put] at hstep
  exact hs.step (hM _ _ _ hstep trivial)

/-- A write that need not wait, up to its return. -/
theorem inserted (hM : HasCalls H fmt M) (hs : M.Reachable s) (hidle : s.calls i = .idle)
    (halone : s.Alone i) {w : Write} (hready : s.engine.prepareForWriteLocked false w = (.ready, e))
    {sequence : ℕ} {wal : Wal} (hrun : (w.call none).run H e.log.wal = (.ok sequence, wal))
    (hinsert : insertLocked { e with log := { e.log with wal := wal } } w sequence = (.ok (), e')) :
    M.Reachable (s.put i (.write w (.leave (.ok ()))) e'
      ⟨s.history.logged ++ [(i, w.record sequence)], s.history.applied ++ [w.record sequence],
        s.history.crashes⟩) := by
  have henter := @invoke _ _ _ _ _ fmt _ _ _ hM hs hidle (.write w) trivial
  have hlocked := acquire hM henter halone (m := .write) rfl List.not_mem_nil
  have hchecks :=
    acquire hM hlocked halone (m := .state) rfl (show Mutex.state ∉ [Mutex.write] by decide)
  have hprepared := call hM hchecks (.prepare w false)
  rw [hready] at hprepared
  have happended := call hM hprepared (.append w)
  rw [hrun] at happended
  have hinserts :=
    acquire hM happended halone (m := .state) rfl (show Mutex.state ∉ [Mutex.write] by decide)
  have hinserted := call hM hinserts (.insert w sequence)
  rw [hinsert] at hinserted
  exact hinserted

/-- A write that need not wait. -/
theorem write (hM : HasCalls H fmt M) (hs : M.Reachable s) (hidle : s.calls i = .idle)
    (halone : s.Alone i) {w : Write} (hready : s.engine.prepareForWriteLocked false w = (.ready, e))
    {sequence : ℕ} {wal : Wal} (hrun : (w.call none).run H e.log.wal = (.ok sequence, wal))
    (hinsert : insertLocked { e with log := { e.log with wal := wal } } w sequence = (.ok (), e')) :
    M.Reachable (s.put i (.wrote w (.ok ())) e'
      ⟨s.history.logged ++ [(i, w.record sequence)], s.history.applied ++ [w.record sequence],
        s.history.crashes⟩) :=
  call hM (inserted hM hs hidle halone hready hrun hinsert) (.leave w (.ok ()))

/-- A write that has to wait. -/
theorem sleep (hM : HasCalls H fmt M) (hs : M.Reachable s) (hidle : s.calls i = .idle)
    (halone : s.Alone i) {w : Write}
    (hwaits : s.engine.prepareForWriteLocked false w = (.waits, e)) :
    M.Reachable (s.put i (.write w .asleep) e s.history) := by
  have henter := @invoke _ _ _ _ _ fmt _ _ _ hM hs hidle (.write w) trivial
  have hlocked := acquire hM henter halone (m := .write) rfl List.not_mem_nil
  have hchecks :=
    acquire hM hlocked halone (m := .state) rfl (show Mutex.state ∉ [Mutex.write] by decide)
  have hprepared := call hM hchecks (.prepare w false)
  rw [hwaits] at hprepared
  exact hprepared

/-- The search of a `get` in the files that it has copied. -/
theorem files (hM : HasCalls H fmt M) {key : Bytes} (rest : List SstableMetadata) :
    ∀ {winner : Option InternalEntry},
      M.Reachable (s.put i (.get key (.files rest winner)) e h) →
      M.Reachable (s.put i (.got key ((rest.foldlM (e.store.lookupFile fmt key) winner).map
        GetResult.of)) e h) := by
  induction rest with
  | nil => exact fun {winner} hs => call hM hs (.answer key winner)
  | cons f rest ih =>
    intro winner hs
    have hnext := call hM hs (.file key f rest winner)
    rw [List.foldlM_cons]
    cases hlookup : e.store.lookupFile fmt key winner f with
    | error failure =>
      rw [hlookup] at hnext
      exact hnext
    | ok winner' =>
      rw [hlookup] at hnext
      exact ih hnext

/-- A `get` that has begun, and runs alone, copies the live files, if no Memtable has its key. -/
theorem copied (hM : HasCalls H fmt M) {key : Bytes}
    (hs : M.Reachable (s.put i (.get key (.active false)) s.engine s.history))
    (halone : s.Alone i) (hactive : s.engine.lookupActive key = none)
    (himmutable : s.engine.lookupImmutable key = none) :
    M.Reachable (s.put i (.get key (.files s.engine.store.manifest.liveFiles none)) s.engine
      s.history) := by
  have hlocked := acquire hM hs halone (m := .state) rfl List.not_mem_nil
  have hsearched := call hM hlocked (.active key)
  rw [hactive] at hsearched
  have hsearched' := call hM hsearched (.immutable key s.engine.immutableMemtable)
  unfold lookupImmutable at himmutable
  rw [himmutable] at hsearched'
  have hcopies := acquire hM hsearched' halone (m := .manifest) rfl List.not_mem_nil
  exact call hM hcopies (.copy key)

/-- A `get` that has begun, and runs alone, ends with what the lookup finds. -/
theorem answered (hM : HasCalls H fmt M) {key : Bytes}
    (hs : M.Reachable (s.put i (.get key (.active false)) s.engine s.history))
    (halone : s.Alone i) :
    M.Reachable (s.put i (.got key ((s.engine.lookup fmt key).map GetResult.of)) s.engine
      s.history) := by
  have hlocked := acquire hM hs halone (m := .state) rfl List.not_mem_nil
  have hactive := call hM hlocked (.active key)
  unfold KronosEngine.lookup
  cases hlookup : s.engine.lookupActive key with
  | some entry =>
    rw [hlookup] at hactive
    exact hactive
  | none =>
    rw [hlookup] at hactive
    dsimp only
    cases hlookup' : s.engine.lookupImmutable key with
    | some entry =>
      have himmutable := call hM hactive (.immutable key s.engine.immutableMemtable)
      unfold lookupImmutable at hlookup'
      rw [hlookup'] at himmutable
      exact himmutable
    | none => exact files hM _ (copied hM hs halone hlookup hlookup')

/-- A shutdown hands over the final Memtable, when the slot is free and nothing has failed. -/
theorem drain (hM : HasCalls H fmt M) (hs : M.Reachable s) (hidle : s.calls i = .idle)
    (halone : s.Alone i) (hquiet : ∀ j, (s.calls j).woken = s.calls j)
    (hfirst : s.engine.shuttingDown = false) (hslot : s.engine.immutableMemtable = none)
    (hschedules : scheduleFinalMemtable { s.engine with shuttingDown := true } = (.ok (), e)) :
    M.Reachable (s.put i (.shutdown (.close none)) e s.history) := by
  have henter := @invoke _ _ _ _ _ fmt _ _ _ hM hs hidle .shutdown trivial
  have hlocked := acquire hM henter halone (m := .state) rfl List.not_mem_nil
  have hpublished := call hM hlocked .publish
  rw [hfirst] at hpublished
  -- The notification wakes nobody.
  have hnotified : M.Reachable (s.put i (.shutdown (.barrier false))
      { s.engine with shuttingDown := true } s.history) := by
    have hstep := hpublished.step (hM _ _ _ (.notify i (System.calls_put _ _ _ _ _)) trivial)
    have hsame : ((s.put i (.shutdown .notify) { s.engine with shuttingDown := true }
        s.history).goto i (.shutdown (.barrier false))).wakeAll =
        s.put i (.shutdown (.barrier false)) { s.engine with shuttingDown := true } s.history := by
      rw [System.goto_put]
      unfold System.wakeAll System.put
      congr 1
      funext j
      show (Function.update s.calls i (.shutdown (.barrier false)) j).woken =
        Function.update s.calls i (.shutdown (.barrier false)) j
      by_cases hj : j = i
      · rw [hj, Function.update_self]
        rfl
      · rw [Function.update_of_ne hj]
        exact hquiet j
    exact hsame ▸ hstep
  have hbarrier := acquire hM hnotified halone (m := .write) rfl List.not_mem_nil
  have hpassed := call hM hbarrier .barrier
  have hdrains := acquire hM hpassed halone (m := .state) rfl List.not_mem_nil
  have hdrained := call hM hdrains (.drain (by simp [shutdownMayGoOn, hslot]))
  rw [hschedules] at hdrained
  exact hdrained

end Reachable

/-! ## The worker -/

namespace Reachable

variable {F R ι : Type} [DecidableEq ι] {H : Hashing} {fmt : TableFormat F R}
  {M : Lts (System F ι) (ProcessLabel F ι)} {s : System F ι} {e e' : KronosEngine F}
  {pc pc' : WorkerPc}

/-- The worker acquires a mutex that no call holds. -/
theorem workerAcquire (hM : HasWorker H fmt M) (hs : M.Reachable (s.work pc e))
    (hresting : s.Resting)
    {m : Mutex} (hacquires : pc.acquires = some (m, pc')) (hm : m ∉ pc.held) :
    M.Reachable (s.work pc' e) := by
  refine hs.step (hM _ _ _ (.workerAcquire m pc' hacquires ⟨fun j => ?_, hm⟩) trivial)
  show m ∉ (s.calls j).held
  rw [hresting j]
  exact List.not_mem_nil

/-- The worker runs a section. -/
theorem workerStep (hM : HasWorker H fmt M) (hs : M.Reachable (s.work pc e))
    (hstep : WorkerStep H fmt e none pc e' pc') : M.Reachable (s.work pc' e') :=
  hs.step (hM _ _ _ (.worker none e' pc' hstep) trivial)

/-- The worker takes a task, writes its table, and is about to commit it. -/
theorem flush (hM : HasWorker H fmt M) (hs : M.Reachable s) (hresting : s.Resting)
    (hworker : s.worker = .pop) {task : SharedMemtable} {rest : List SharedMemtable}
    (hqueue : s.engine.flushQueue = task :: rest) {store : Store F} {edit : ManifestEdit}
    (hprepare : s.engine.store.prepareFlush fmt task.memtable = .ok (store, edit)) :
    M.Reachable (s.work (.commitFlush task edit true)
      { s.engine with flushQueue := rest, store := store }) := by
  have hpop : M.Reachable (s.work .pop s.engine) := by
    rw [← hworker]
    exact hs
  have hflush := workerStep hM hpop (.pop task rest hqueue)
  have hcommits := workerStep hM hflush (.flush task store edit hprepare)
  exact workerAcquire hM hcommits hresting (m := .manifest) rfl List.not_mem_nil

/-- The commit of a flush. -/
theorem commitFlush (hM : HasWorker H fmt M) (hinv : ∀ t, M.Reachable t → t.Invariant H)
    {task : SharedMemtable} {edit : ManifestEdit}
    (hs : M.Reachable (s.work (.commitFlush task edit true) e)) :
    ∃ store through, e.store.commit edit = .ok store ∧
      M.Reachable (s.work (.clear task through false)
        { e with store := store, durable := store.manifest }) := by
  have hi := hinv _ hs
  obtain ⟨g, hd, -⟩ := hi.data
  have hcommit := hd.commit_of_flush (hi.stages.noError rfl nofun)
  have hstep := workerStep hM hs (.commitFlush task edit none)
  have hcases := e.commitEdit_cases edit none
  generalize e.commitEdit edit none = result at hcases hstep
  cases hcases with
  | rejected fault failure hrejected => cases hrejected.symm.trans hcommit
  | committed store hok => exact ⟨store, _, hok, hstep⟩

/-- The release of the slot, up to the point where the worker needs `write_mutex_`. -/
theorem clear (hM : HasWorker H fmt M) (hinv : ∀ t, M.Reachable t → t.Invariant H)
    (hresting : s.Resting) (hquiet : ∀ j, (s.calls j).woken = s.calls j) {task : SharedMemtable}
    {through : ℕ} (hs : M.Reachable (s.work (.clear task through false) e)) :
    M.Reachable (s.work (.reclaim through false) { e with immutableMemtable := none }) := by
  have hlocked := workerAcquire hM hs hresting (m := .state) rfl List.not_mem_nil
  have hi := hinv _ hlocked
  obtain ⟨g, hd, -⟩ := hi.data
  have hclear := (hd.clear (hi.stages.noError rfl nofun)).1
  have hcleared := workerStep hM hlocked (.clear task through)
  rw [show (s.work (.clear task through true) e).engine = e from rfl] at hclear
  rw [hclear] at hcleared
  have hstep := hcleared.step (hM _ _ _ (.notifyCleared through rfl) trivial)
  have hsame : (fun j => (s.calls j).woken) = s.calls := funext hquiet
  have hwoken :
    { (s.work (.notifyCleared through) { e with immutableMemtable := none }).wakeAll with
      worker := .reclaim through false } =
      s.work (.reclaim through false) { e with immutableMemtable := none } := by
    unfold System.wakeAll System.work
    rw [hsame]
  exact hwoken ▸ hstep

/-- With few files on level 0, there is nothing to compact. -/
theorem prepareCompaction_few {e : KronosEngine F}
    (hfew : e.store.manifest.liveFiles.length < e.compactionPolicy.l0FileTrigger)
    (hranges : ∀ f ∈ e.store.manifest.liveFiles, f.smallestKey ≤ f.largestKey) :
    e.prepareCompaction fmt e.store.manifest.liveFiles = .ok none := by
  have hlevel : CompactionPolicy.filesOfLevel 0 "Invalid L0 SSTable key range"
      e.store.manifest.liveFiles = .ok (e.store.manifest.liveFiles.filter (·.level = 0)) := by
    unfold CompactionPolicy.filesOfLevel
    dsimp only
    rw [if_neg]
    simp only [List.any_eq_true, List.mem_filter, not_exists, not_and, gt_iff_lt,
      decide_eq_true_eq, and_imp, not_lt]
    exact fun f hf _ => hranges f hf
  have hcount : (e.store.manifest.liveFiles.filter (·.level = 0)).length <
      e.compactionPolicy.l0FileTrigger := (List.length_filter_le _ _).trans_lt hfew
  unfold KronosEngine.prepareCompaction Store.prepareCompaction CompactionPolicy.pickCompaction
  dsimp only
  rw [hlevel, ok_bind, if_pos hcount, ok_bind, ok_bind]

/-- The reclamation, and the look for a compaction, which finds nothing to do. -/
theorem reclaim (hM : HasWorker H fmt M) (hinv : ∀ t, M.Reachable t → t.Invariant H)
    (hresting : s.Resting) {through : ℕ} (hs : M.Reachable (s.work (.reclaim through false) e))
    (hslot : e.immutableMemtable = none)
    (hfew : e.store.manifest.liveFiles.length < e.compactionPolicy.l0FileTrigger)
    (hranges : ∀ f ∈ e.store.manifest.liveFiles, f.smallestKey ≤ f.largestKey) :
    ∃ log, M.Reachable (s.work .pop { e with log := log }) := by
  have hlocked := workerAcquire hM hs hresting (m := .write) rfl List.not_mem_nil
  obtain ⟨g, hd, -⟩ := (hinv _ hlocked).data
  obtain ⟨log, hreclaim, -⟩ := hd.reclaim
  have hreclaimed : M.Reachable (s.work (.checkSlot false) { e with log := log }) := by
    have hstep := workerStep hM hlocked (.reclaim through none)
    rw [show (s.work (.reclaim through true) e).engine = e from rfl] at hreclaim
    rw [hreclaim] at hstep
    exact hstep
  refine ⟨log, ?_⟩
  have hnothing := @prepareCompaction_few _ _ fmt { e with log := log } hfew hranges
  have hfree : ({ e with log := log } : KronosEngine F).immutableMemtable.isSome = false := by
    simp [hslot]
  generalize ({ e with log := log } : KronosEngine F) = e₁ at hreclaimed hnothing hfree ⊢
  have hchecks := workerAcquire hM hreclaimed hresting (m := .state) rfl List.not_mem_nil
  have hchecked := workerStep hM hchecks .checkSlot
  rw [hfree, if_neg Bool.false_ne_true] at hchecked
  have hcopies := workerAcquire hM hchecked hresting (m := .manifest) rfl List.not_mem_nil
  have hcopied := workerStep hM hcopies .copyLive
  exact workerStep hM hcopied (.compactNothing _ hnothing)

end Reachable

/-! ## An empty directory -/

namespace KronosEngine

/-- The engine that is opened over an empty directory. -/
def first {F : Type} (H : Hashing) (memtableTargetBytes : ℕ) (compactionPolicy : CompactionPolicy) :
    KronosEngine F :=
  opened Store.empty (.new memtableTargetBytes) (Wal.recovered H [] 0) memtableTargetBytes
    compactionPolicy

/-- The constructor succeeds over an empty directory. -/
theorem construct_empty {F R : Type} (H : Hashing) (fmt : TableFormat F R) (memtableTargetBytes : ℕ)
    (compactionPolicy : CompactionPolicy) :
    construct H fmt Store.empty none memtableTargetBytes compactionPolicy =
      .ok (first H memtableTargetBytes compactionPolicy) := by
  rw [construct_none]
  have hstart := @start_eq _ _ H fmt (Store.empty : Store F) []
    ⟨fun _ hr => absurd hr List.not_mem_nil, fun _ hr => absurd hr List.not_mem_nil, .nil⟩
    memtableTargetBytes
  have hheader : Wal.header ++ Wal.encodeRecords H [] = Wal.header := List.append_nil _
  rw [hheader] at hstart
  unfold construct
  rw [hstart]
  rfl

end KronosEngine

/-- The system that is opened over an empty directory. -/
def System.first {F : Type} (ι : Type) (H : Hashing) (memtableTargetBytes : ℕ)
    (compactionPolicy : CompactionPolicy) : System F ι :=
  ⟨KronosEngine.first H memtableTargetBytes compactionPolicy, .pop, fun _ => .idle, .empty⟩

/-- So there is an engine that was just opened over one. -/
theorem firstOpened_first {F R ι : Type} (H : Hashing) (fmt : TableFormat F R)
    (memtableTargetBytes : ℕ) (compactionPolicy : CompactionPolicy) :
    FirstOpened H fmt (System.first ι H memtableTargetBytes compactionPolicy : System F ι) :=
  ⟨_, memtableTargetBytes, compactionPolicy, construct_empty H fmt _ _, rfl⟩

/-! ## Processes without failures -/

section Faultless

variable {F R ι : Type} [DecidableEq ι]

/-- A process in which no I/O fails. -/
def faultless (H : Hashing) (fmt : TableFormat F R) : Lts (System F ι) (ProcessLabel F ι) :=
  (process H fmt).restrict fun _ label => label.Faultless

variable {H : Hashing} {fmt : TableFormat F R} {s : System F ι}

/-- A process without failing I/O has all steps of the calls. -/
theorem hasCalls_faultless : HasCalls H fmt (faultless H fmt : Lts (System F ι) _) := by
  intro t label t' hstep hlabel
  refine ⟨hstep, ?_⟩
  cases label with
  | worker fault => exact hlabel.elim
  | _ => trivial

/-- It has all steps of the worker whose I/O succeeds. -/
theorem hasWorker_faultless : HasWorker H fmt (faultless H fmt : Lts (System F ι) _) := by
  intro t label t' hstep hlabel
  refine ⟨hstep, ?_⟩
  cases label with
  | worker fault =>
    cases fault with
    | none => trivial
    | some fault => exact hlabel.elim
  | _ => trivial

/-- Such a process reaches what one does whose log works. -/
theorem logWorks_of_faultless (h : (faultless H fmt).Reachable s) :
    (logWorks H fmt).Reachable s := by
  refine @Lts.Reachable.invariant _ _ (faultless H fmt) (logWorks H fmt).Reachable ?_ ?_ s h
  · exact fun s hopened => Lts.Reachable.initial (M := logWorks H fmt) hopened
  · rintro s label s' hs ⟨hstep, hlabel⟩
    refine hs.step ⟨hstep, ?_⟩
    cases label with
    | worker fault =>
      cases fault with
      | none => trivial
      | some fault => exact hlabel.elim
    | _ => trivial

/-- Its states meet the invariant. -/
theorem invariant_of_faultless (h : (faultless H fmt).Reachable s) : s.Invariant H :=
  invariant_of_logWorks (logWorks_of_faultless h)

end Faultless

/-! ## Processes whose tables fit -/

section Fitting

variable {F R ι : Type} [DecidableEq ι] {H : Hashing} {fmt : TableFormat F R}
  {Fits : List TableRecord → Prop}

/-- A process whose tables fit has all steps of the calls. -/
theorem hasCalls_workingProcess :
    HasCalls H fmt (workingProcess H fmt Fits : Lts (System F ι) _) := by
  intro t label t' hstep hlabel
  cases label with
  | worker fault => exact hlabel.elim
  | invoke i request => exact ⟨⟨hstep, hlabel⟩, trivial⟩
  | _ => exact ⟨⟨hstep, trivial⟩, trivial⟩

/-- An engine over an empty directory. -/
theorem first_workingProcess (H : Hashing) (fmt : TableFormat F R) (Fits : List TableRecord → Prop)
    (memtableTargetBytes : ℕ) (compactionPolicy : CompactionPolicy) :
    (workingProcess H fmt Fits).Reachable
      (System.first ι H memtableTargetBytes compactionPolicy) :=
  .initial (Lts.Reachable.initial (M := fittingLife H fmt Fits)
    ⟨_, firstOpened_first H fmt memtableTargetBytes compactionPolicy, rfl⟩)

end Fitting

/-! ## One write, and its flush -/

section OneWrite

variable {F R ι : Type} [DecidableEq ι] {H : Hashing} {fmt : TableFormat F R}

/-- The call of a write that the log takes appends its record. -/
theorem run_of_accepted {w : Write} {wal : Wal} (hend : wal.position = wal.file.length)
    (hkey : w.key.length ≤ uint32Max) (hvalue : (w.call none).value.length ≤ uint32Max)
    (hmax : wal.nextSequence ≠ uint64Max) :
    ∃ wal', (w.call none).run H wal = (.ok wal.nextSequence, wal') ∧
      wal'.nextSequence = wal.nextSequence + 1 := by
  have hfault : (w.call none).fault = none := by cases w <;> rfl
  have hcallKey : (w.call none).key = w.key := by cases w <;> rfl
  have hleaves : (w.call none).leaves H wal = some .synced := by
    unfold Wal.Call.leaves
    rw [if_neg, hfault]
    rw [hcallKey]
    omega
  have hrun := (w.call none).run_spec H hend
  rw [hleaves] at hrun
  exact ⟨_, hrun, rfl⟩

/-- The engine behind a first write. -/
def written {F : Type} (H : Hashing) (memtableTargetBytes : ℕ) (compactionPolicy : CompactionPolicy)
    (wal : Wal) (active : Memtable) : KronosEngine F :=
  { KronosEngine.first H memtableTargetBytes compactionPolicy with
    log := ⟨wal, none, none⟩
    activeMemtable := some active }

/-- The history of one write. -/
def History.single (i : ι) (w : Write) : History ι := ⟨[(i, w.record 0)], [w.record 0], 0⟩

/-- A first write, in an engine that was just opened over an empty directory, up to its return. -/
theorem firstInserted {M : Lts (System F ι) (ProcessLabel F ι)} (hM : HasCalls H fmt M)
    {memtableTargetBytes : ℕ} {compactionPolicy : CompactionPolicy}
    (hs : M.Reachable (System.first ι H memtableTargetBytes compactionPolicy)) (i : ι) {w : Write}
    (hkey : w.key.length ≤ uint32Max) (hvalue : (w.call none).value.length ≤ uint32Max) :
    ∃ wal active, active.state = .mutable ∧ active.Replays [w.record 0] ∧
      M.Reachable ((System.first ι H memtableTargetBytes compactionPolicy).put i
        (.write w (.leave (.ok ()))) (written H memtableTargetBytes compactionPolicy wal active)
        (.single i w)) := by
  obtain ⟨wal, hrun, -⟩ := @run_of_accepted H w (Wal.recovered H [] 0) rfl hkey hvalue
    (show 0 ≠ uint64Max by decide)
  obtain ⟨active, hinsert, hstate, hreplays⟩ := @insertLocked_spec F
    { KronosEngine.first H memtableTargetBytes compactionPolicy with log := ⟨wal, none, none⟩ }
    (.new memtableTargetBytes) [] rfl rfl (Memtable.replays_new _) w 0
    fun r hr => absurd hr List.not_mem_nil
  refine ⟨wal, active, hstate, hreplays, ?_⟩
  exact Reachable.inserted hM hs rfl ⟨fun _ _ => rfl, rfl⟩
    (e := KronosEngine.first H memtableTargetBytes compactionPolicy) rfl hrun hinsert

/-- A first write. -/
theorem firstWrite {M : Lts (System F ι) (ProcessLabel F ι)} (hM : HasCalls H fmt M)
    {memtableTargetBytes : ℕ} {compactionPolicy : CompactionPolicy}
    (hs : M.Reachable (System.first ι H memtableTargetBytes compactionPolicy)) (i : ι) {w : Write}
    (hkey : w.key.length ≤ uint32Max) (hvalue : (w.call none).value.length ≤ uint32Max) :
    ∃ wal active, active.state = .mutable ∧ active.Replays [w.record 0] ∧
      M.Reachable ((System.first ι H memtableTargetBytes compactionPolicy).put i (.wrote w (.ok ()))
        (written H memtableTargetBytes compactionPolicy wal active) (.single i w)) := by
  obtain ⟨wal, active, hstate, hreplays, hinserted⟩ := firstInserted hM hs i hkey hvalue
  exact ⟨wal, active, hstate, hreplays, Reachable.call hM hinserted (.leave w (.ok ()))⟩

/-- What the shutdown of an engine with one write hands over. -/
def handedOver {F : Type} (H : Hashing) (memtableTargetBytes : ℕ)
    (compactionPolicy : CompactionPolicy) (wal : Wal) (active : Memtable) : KronosEngine F :=
  { written H memtableTargetBytes compactionPolicy wal active with
    activeMemtable := none
    immutableMemtable := some ⟨0, active.frozen⟩
    flushQueue := [⟨0, active.frozen⟩]
    shuttingDown := true
    nextAddress := 1 }

/-- The system behind one write and the hand-over of its Memtable. -/
def oneHandedOver {F : Type} (H : Hashing) (memtableTargetBytes : ℕ)
    (compactionPolicy : CompactionPolicy) (w : Write) (wal : Wal) (active : Memtable) :
    System F ℕ :=
  ((System.first ℕ H memtableTargetBytes compactionPolicy).put 0 (.wrote w (.ok ()))
      (written H memtableTargetBytes compactionPolicy wal active) (.single 0 w)).put 1
    (.shutdown (.close none)) (handedOver H memtableTargetBytes compactionPolicy wal active)
    (.single 0 w)

/-- The final Memtable of an engine with one write is handed over. -/
theorem scheduleFinalMemtable_written (memtableTargetBytes : ℕ)
    (compactionPolicy : CompactionPolicy)
    {w : Write} (wal : Wal) {active : Memtable} (hstate : active.state = .mutable)
    (hreplays : active.Replays [w.record 0]) :
    scheduleFinalMemtable { (written H memtableTargetBytes compactionPolicy wal active :
        KronosEngine F) with shuttingDown := true } =
      (.ok (), handedOver H memtableTargetBytes compactionPolicy wal active) := by
  have hentries : active.entryCount ≠ 0 := by
    rw [Ne, hreplays.entryCount_eq_zero_iff]
    exact List.cons_ne_nil _ _
  have hspec := @scheduleFinalMemtable_spec F
    { written H memtableTargetBytes compactionPolicy wal active with shuttingDown := true }
    (fun m hm => (Option.some.inj hm) ▸ hstate) fun _ => rfl
  generalize scheduleFinalMemtable { (written H memtableTargetBytes compactionPolicy wal active :
    KronosEngine F) with shuttingDown := true } = result at hspec ⊢
  cases hspec with
  | nothing hnothing =>
    rcases hnothing with hnone | herror | ⟨m, hm, hzero⟩
    · cases hnone
    · exact absurd rfl herror
    · cases hm
      exact absurd hzero hentries
  | handed m hm _ _ =>
    cases hm
    rfl

/-- It is reached. -/
theorem oneHandedOver_reachable {M : Lts (System F ℕ) (ProcessLabel F ℕ)} (hM : HasCalls H fmt M)
    {memtableTargetBytes : ℕ} {compactionPolicy : CompactionPolicy}
    (hs : M.Reachable (System.first ℕ H memtableTargetBytes compactionPolicy)) {w : Write}
    (hkey : w.key.length ≤ uint32Max) (hvalue : (w.call none).value.length ≤ uint32Max) :
    ∃ wal active, active.Replays [w.record 0] ∧
      M.Reachable (oneHandedOver H memtableTargetBytes compactionPolicy w wal active) := by
  obtain ⟨wal, active, hstate, hreplays, hwritten⟩ := firstWrite hM hs 0 hkey hvalue
  refine ⟨wal, active, hreplays, ?_⟩
  refine Reachable.drain hM hwritten rfl ⟨fun j hj => ?_, rfl⟩ (fun j => ?_) rfl rfl
    (scheduleFinalMemtable_written memtableTargetBytes compactionPolicy wal hstate hreplays)
  all_goals
    by_cases h0 : j = 0
    · subst h0
      rfl
    · rw [System.calls_put_of_ne _ h0]
      rfl

/-- No call of that system holds a mutex, or waits. -/
theorem oneHandedOver_calls (memtableTargetBytes : ℕ) (compactionPolicy : CompactionPolicy)
    (w : Write) (wal : Wal) (active : Memtable) (j : ℕ) :
    ((oneHandedOver (F := F) H memtableTargetBytes compactionPolicy w wal active).calls j).held =
      [] ∧
      ((oneHandedOver (F := F) H memtableTargetBytes compactionPolicy w wal active).calls j).woken =
        (oneHandedOver (F := F) H memtableTargetBytes compactionPolicy w wal active).calls j := by
  unfold oneHandedOver
  by_cases h1 : j = 1
  · subst h1
    exact ⟨rfl, rfl⟩
  rw [System.calls_put_of_ne _ h1]
  by_cases h0 : j = 0
  · subst h0
    exact ⟨rfl, rfl⟩
  · rw [System.calls_put_of_ne _ h0]
    exact ⟨rfl, rfl⟩

/-- The engine whose worker has committed the flush of that Memtable. -/
def flushedOne {F : Type} (H : Hashing) (memtableTargetBytes : ℕ)
    (compactionPolicy : CompactionPolicy) (wal : Wal) (active : Memtable) (store : Store F) :
    KronosEngine F :=
  { (handedOver H memtableTargetBytes compactionPolicy wal active : KronosEngine F) with
    flushQueue := []
    store := store
    durable := store.manifest }

/-- The live file and its table behind the flush of one write. -/
structure Store.OneTable (fmt : TableFormat F R) (s : Store F) (w : Write) (f : SstableMetadata)
    (file : F) : Prop where
  live : s.manifest.liveFiles = [f]
  smallest : f.smallestKey = w.key
  largest : f.largestKey = w.key
  stored : s.files.lookup f.path = some file
  built : fmt.build [(w.key, w.entry 0)] = .ok file

omit [DecidableEq ι] in
/-- Its range is not reversed. -/
theorem Store.OneTable.smallestKey_le {s : Store F} {w : Write} {f : SstableMetadata} {file : F}
    (h : s.OneTable fmt w f file) :
    ∀ g ∈ s.manifest.liveFiles, g.smallestKey ≤ g.largestKey := by
  rw [h.live]
  exact List.forall_mem_singleton.2 (h.smallest.trans h.largest.symm).le

/-- From there, the worker flushes the Memtable, if its table is built. -/
theorem oneFlushed_reachable {M : Lts (System F ℕ) (ProcessLabel F ℕ)} (hM : HasWorker H fmt M)
    (hinv : ∀ t, M.Reachable t → t.Invariant H) {memtableTargetBytes : ℕ}
    {compactionPolicy : CompactionPolicy} {w : Write} {wal : Wal} {active : Memtable}
    (hreplays : active.Replays [w.record 0])
    (hs : M.Reachable (oneHandedOver H memtableTargetBytes compactionPolicy w wal active))
    (hbuild : ∃ file, fmt.build [(w.key, w.entry 0)] = .ok file) :
    ∃ store through, (∃ f file, store.OneTable fmt w f file) ∧
      M.Reachable ((oneHandedOver H memtableTargetBytes compactionPolicy w wal active).work
        (.clear ⟨0, active.frozen⟩ through false)
        (flushedOne H memtableTargetBytes compactionPolicy wal active store)) := by
  have hentries : active.frozen.table.entries = [(w.key, w.entry 0)] := by
    have hsingleton := hreplays.frozen.entries_singleton
    rwa [Write.record_key, Write.record_entry] at hsingleton
  obtain ⟨file, hfile⟩ := hbuild
  obtain ⟨store, edit, hprepare⟩ := @Store.prepareFlush_returns F R fmt Store.empty active.frozen
    ⟨rfl, hentries ▸ List.cons_ne_nil _ _⟩ file (hentries ▸ hfile)
  have hprepared := @Reachable.flush F R ℕ _ H fmt M _ hM hs
    (fun j => (oneHandedOver_calls memtableTargetBytes compactionPolicy w wal active j).1) rfl
    ⟨0, active.frozen⟩ [] rfl store edit hprepare
  obtain ⟨store', through, hcommit, hcommitted⟩ := Reachable.commitFlush hM hinv hprepared
  obtain ⟨f, hlive, hfiles, hpublishes⟩ :=
    Store.live_of_flush rfl Store.named_empty hprepare hcommit
  obtain ⟨⟨file', hlookup, hbuilt⟩, hsmallest, hlargest⟩ :=
    And.intro hpublishes.built hpublishes.range
  rw [hentries] at hbuilt hsmallest hlargest
  exact ⟨store', through, ⟨f, file', hlive, (Option.some.inj hsmallest).symm,
    (Option.some.inj hlargest).symm, hfiles ▸ hlookup, hbuilt⟩, hcommitted⟩

/-- The system whose worker has committed the flush of one write, and is about to release the
slot. -/
def oneCommitted {F : Type} (H : Hashing) (memtableTargetBytes : ℕ)
    (compactionPolicy : CompactionPolicy) (w : Write) (wal : Wal) (active : Memtable)
    (store : Store F) (through : ℕ) : System F ℕ :=
  (oneHandedOver H memtableTargetBytes compactionPolicy w wal active).work
    (.clear ⟨0, active.frozen⟩ through false)
    (flushedOne H memtableTargetBytes compactionPolicy wal active store)

/-- It is reached without a failure. -/
theorem oneCommitted_reachable (memtableTargetBytes : ℕ) (compactionPolicy : CompactionPolicy)
    {w : Write} (hkey : w.key.length ≤ uint32Max)
    (hvalue : (w.call none).value.length ≤ uint32Max)
    (hbuild : ∃ file, fmt.build [(w.key, w.entry 0)] = .ok file) :
    ∃ wal active store through, active.Replays [w.record 0] ∧
      (∃ f file, store.OneTable fmt w f file) ∧
      (faultless H fmt).Reachable
        (oneCommitted H memtableTargetBytes compactionPolicy w wal active store through) := by
  have hfirst : (faultless H fmt).Reachable
      (System.first ℕ H memtableTargetBytes compactionPolicy) :=
    .initial (.inl (firstOpened_first H fmt memtableTargetBytes compactionPolicy))
  obtain ⟨wal, active, hreplays, hhanded⟩ :=
    oneHandedOver_reachable hasCalls_faultless hfirst hkey hvalue
  obtain ⟨store, through, htable, hcommitted⟩ := oneFlushed_reachable hasWorker_faultless
    (fun _ => invariant_of_faultless) hreplays hhanded hbuild
  exact ⟨wal, active, store, through, hreplays, htable, hcommitted⟩

end OneWrite

end Kronos
