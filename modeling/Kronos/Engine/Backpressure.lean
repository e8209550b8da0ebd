import Kronos.Engine.SizeBound

/-!
# Writers that wait for the worker

A writer that finds the immutable slot occupied sleeps, and holds `write_mutex_` while it does. The
worker releases the slot, wakes the sleepers, and then needs `write_mutex_` to reclaim the log. A
writer that slept when the slot was released goes on, since nobody can occupy the slot while it
holds `write_mutex_`. So as long as nobody needs the slot a second time before the worker has the
mutex (`System.Collides`), there is always somebody who can go on (`deadlockFree`).

When another writer rotates before that, and the next one needs to rotate again, this one falls
asleep behind the notification, and the worker waits for a mutex that is never released
(`Stuck.run`).
-/

namespace Kronos

open KronosEngine

/-! ## Program counters -/

namespace Pc

/-- A call of `shutdown`. -/
def stops : Pc → Bool
  | shutdown _ | stopped .. => true
  | _ => false

/-- A call that has begun and has not returned. -/
def underWay : Pc → Bool
  | write .. | get .. | shutdown _ => true
  | _ => false

/-- A call that sleeps. -/
def sleeping : Pc → Bool
  | write _ .asleep | shutdown .asleep => true
  | _ => false

/-- A writer has found the slot occupied, and has not found it free since. -/
def waiting : Pc → Bool
  | write _ .asleep | write _ (.prepare true _) => true
  | _ => false

/-- Waking a call does not change whether it is a shutdown that stops the engine. -/
@[simp] theorem stops_woken (pc : Pc) : pc.woken.stops = pc.stops := by
  unfold woken
  split <;> rfl

/-- Nor whether it waits at its check. -/
@[simp] theorem waiting_woken (pc : Pc) : pc.woken.waiting = pc.waiting := by
  unfold woken
  split <;> rfl

/-- Nobody sleeps behind a notification. -/
theorem woken_ne_asleep (pc : Pc) (w : Write) : pc.woken ≠ .write w .asleep := by
  cases pc with
  | write w' point => cases point <;> exact nofun
  | shutdown point => cases point <;> exact nofun
  | _ => exact nofun

/-- A call that does not stop the engine has no stage of a shutdown. -/
theorem stage_of_not_stops {pc : Pc} (h : pc.stops = false) : pc.stage = 0 := by
  cases pc with
  | shutdown => cases h
  | stopped => cases h
  | _ => rfl

/-- A call that is not running neither stops the engine nor waits. -/
theorem not_stops_of_resting {pc : Pc} (h : pc.resting = true) :
    pc.stops = false ∧ pc.waiting = false := by
  cases pc with
  | idle => exact ⟨rfl, rfl⟩
  | wrote w result => exact ⟨rfl, rfl⟩
  | got key result => exact ⟨rfl, rfl⟩
  | lost crash => exact ⟨rfl, rfl⟩
  | _ => cases h

/-- A writer that waits holds `write_mutex_`. -/
theorem write_mem_held_of_waiting {pc : Pc} (h : pc.waiting = true) : Mutex.write ∈ pc.held := by
  unfold waiting at h
  split at h
  · exact .head _
  · exact .head _
  · cases h

/-- The acquisition of a mutex changes neither, and leaves no writer asleep. -/
theorem acquires_waiting {pc pc' : Pc} {m : Mutex} (h : pc.acquires = some (m, pc')) :
    pc'.stops = pc.stops ∧ pc'.waiting = pc.waiting ∧ ∀ w, pc' ≠ .write w .asleep := by
  unfold acquires at h
  split at h <;> cases h
  case h_2 woken => cases woken <;> exact ⟨rfl, rfl, nofun⟩
  all_goals exact ⟨rfl, rfl, nofun⟩

/-- A call that holds a mutex is under way. -/
theorem underWay_of_held {pc : Pc} (h : pc.held ≠ []) : pc.underWay = true := by
  cases pc with
  | write => rfl
  | get => rfl
  | shutdown => rfl
  | _ => exact absurd rfl h

/-- Of the calls that sleep, only the writers hold a mutex. -/
theorem asleep_of_held {pc : Pc} (h : pc.sleeping = true) (hheld : pc.held ≠ []) :
    ∃ w, pc = .write w .asleep := by
  unfold sleeping at h
  split at h
  · exact ⟨_, rfl⟩
  · exact absurd rfl hheld
  · cases h

/-- A call that is about to acquire a mutex holds none of those that sections hold alone. -/
theorem held_of_acquiring {pc pc' : Pc} {m : Mutex} (h : pc.acquires = some (m, pc')) :
    (∀ m' ∈ pc.held, m' = .write) ∧ (m = .write → pc.held = []) := by
  unfold acquires at h
  split at h <;> cases h <;>
    simp [held, WritePoint.held, GetPoint.held, ShutdownPoint.held, Mutex.heldIf]

end Pc

namespace WorkerPc

/-- The worker acquires `write_mutex_` for the reclamation only. -/
theorem acquires_write {pc pc' : WorkerPc} (h : pc.acquires = some (.write, pc')) :
    ∃ through, pc = .reclaim through false := by
  unfold acquires at h
  split at h <;> cases h
  exact ⟨_, rfl⟩

/-- The worker has released the slot of a Memtable, and needs `write_mutex_` to reclaim the log. -/
def releasing : WorkerPc → Bool
  | notifyCleared _ | reclaim _ false => true
  | _ => false

/-- The worker acquires no mutex between the notification of the writers and what is behind it. -/
theorem acquires_releasing {pc pc' : WorkerPc} {m : Mutex} (h : pc.acquires = some (m, pc')) :
    pc'.releasing = false ∧ pc' ≠ .closeQueue ∧ ∀ through, pc ≠ .notifyCleared through := by
  unfold acquires at h
  split at h <;> cases h <;> exact ⟨rfl, nofun, nofun⟩

end WorkerPc

/-! ## What the sections do to the slot -/

section Steps

variable {F R ι : Type} {H : Hashing} {fmt : TableFormat F R} {i : ι} {e e' : KronosEngine F}

/-- A section is one of a shutdown before it and behind it. -/
theorem CallStep.stops {h h' : History ι} {pc pc' : Pc}
    (hstep : CallStep H fmt i e h pc e' h' pc') : pc'.stops = pc.stops := by
  cases hstep with
  | active key => cases e.lookupActive key <;> rfl
  | immutable key snapshot => cases snapshot.bind (·.memtable.lookupEntry key) <;> rfl
  | file key f rest winner => cases e.store.lookupFile fmt key winner f <;> rfl
  | publish => cases e.shuttingDown <;> rfl
  | _ => rfl

/-- Without `write_mutex_`, no section touches the slot, but for those of a shutdown. -/
theorem CallStep.immutableMemtable {h h' : History ι} {pc pc' : Pc}
    (hstep : CallStep H fmt i e h pc e' h' pc') (hstops : pc.stops = false)
    (hheld : Mutex.write ∉ pc.held) : e'.immutableMemtable = e.immutableMemtable := by
  cases hstep with
  | prepare w woken => exact absurd (.head _) hheld
  | insert w sequence => exact absurd (.head _) hheld
  | drain => cases hstops
  | _ => rfl

/-- A section that leaves a call waiting or asleep is the check of a writer, or of a shutdown that
may not go on. -/
theorem CallStep.checks {h h' : History ι} {pc pc' : Pc}
    (hstep : CallStep H fmt i e h pc e' h' pc')
    (hstays : pc'.waiting = true ∨ pc'.sleeping = true) :
    (∃ w woken, pc = .write w (.prepare woken true) ∧ e' = (e.prepareForWriteLocked woken w).2 ∧
        pc' = .write w (e.prepareForWriteLocked woken w).1.point) ∨
      e.shutdownMayGoOn = false ∧ e' = e ∧ pc' = .shutdown .asleep := by
  -- Behind every other section a call goes on, or has returned.
  have hgoes : ∀ {pc' : Pc} {P : Prop}, pc'.waiting = false → pc'.sleeping = false →
      pc'.waiting = true ∨ pc'.sleeping = true → P := by
    intro pc' P hwaiting hsleeping hstays
    rw [hwaiting, hsleeping] at hstays
    rcases hstays with h | h <;> cases h
  cases hstep with
  | prepare w woken => exact .inl ⟨w, woken, rfl, rfl, rfl⟩
  | wait hwait => exact .inr ⟨hwait, rfl, rfl⟩
  | append w =>
    cases hresult : ((w.call none).run H e.log.wal).1 <;> rw [hresult] at hstays <;>
      exact hgoes rfl rfl hstays
  | active key =>
    cases hfound : e.lookupActive key <;> rw [hfound] at hstays <;> exact hgoes rfl rfl hstays
  | immutable key snapshot =>
    cases hfound : snapshot.bind (·.memtable.lookupEntry key) <;> rw [hfound] at hstays <;>
      exact hgoes rfl rfl hstays
  | file key f rest winner =>
    cases hfound : e.store.lookupFile fmt key winner f <;> rw [hfound] at hstays <;>
      exact hgoes rfl rfl hstays
  | publish =>
    cases hflag : e.shuttingDown <;> rw [hflag] at hstays <;> exact hgoes rfl rfl hstays
  | _ => exact hgoes rfl rfl hstays

/-- Behind a section, a writer waits only if it has just fallen asleep: it has found the slot
occupied, when it needed a rotation or had waited before. -/
theorem CallStep.falls_asleep {h h' : History ι} {pc pc' : Pc}
    (hprepares : ∀ woken w, Prepares e woken w (e.prepareForWriteLocked woken w))
    (hstep : CallStep H fmt i e h pc e' h' pc') (hwaiting : pc'.waiting = true) :
    ∃ w woken active, pc = .write w (.prepare woken true) ∧ e' = e ∧
      e.immutableMemtable ≠ none ∧ e.backgroundError = none ∧ e.activeMemtable = some active ∧
      (woken = true ∨ rotationRequired active w = true) := by
  obtain ⟨w, woken, rfl, rfl, rfl⟩ | ⟨-, -, rfl⟩ := hstep.checks (.inl hwaiting)
  · have hprepares := hprepares woken w
    generalize e.prepareForWriteLocked woken w = result at hprepares hwaiting ⊢
    cases hprepares with
    | waits active _ herror hactive hslot hneeds =>
      exact ⟨w, woken, active, rfl, rfl, hslot, herror, hactive, hneeds⟩
    | _ => cases hwaiting
  · cases hwaiting

/-- What a section of the worker does to the slot: it keeps it, or it has just released it. -/
theorem WorkerStep.immutableMemtable {fault : Option (WorkerFault F)} {pc pc' : WorkerPc}
    (hstep : WorkerStep H fmt e fault pc e' pc') :
    e'.immutableMemtable = e.immutableMemtable ∧ pc'.releasing = false ∨
      e'.immutableMemtable = none ∧ ∃ through, pc' = .notifyCleared through := by
  -- A job that fails goes to the handler, which releases no slot.
  have hbehind : ∀ {task : Option SharedMemtable} {next : WorkerPc} (result : Except Failure Unit),
      next.releasing = false → (WorkerPc.behind task next result).releasing = false := by
    rintro task next (failure | _) hnext
    · rfl
    · exact hnext
  have hcommit : ∀ edit fault, (e.commitEdit edit fault).2.immutableMemtable =
      e.immutableMemtable := by
    intro edit fault
    have hcases := e.commitEdit_cases edit fault
    generalize e.commitEdit edit fault = result at hcases
    cases hcases <;> rfl
  cases hstep with
  | commitFlush task edit fault => exact .inl ⟨hcommit edit fault, hbehind _ rfl⟩
  | commitCompaction edit fault => exact .inl ⟨hcommit edit fault, hbehind _ rfl⟩
  -- The only section that frees the slot, if the task is the one in it.
  | clear task flushedThrough =>
    unfold KronosEngine.clearImmutable
    split_ifs
    · exact .inl ⟨rfl, rfl⟩
    · exact .inr ⟨rfl, flushedThrough, rfl⟩
  | reclaim flushedThrough fault => exact .inl ⟨rfl, hbehind _ rfl⟩
  | checkSlot =>
    refine .inl ⟨rfl, ?_⟩
    split_ifs <;> rfl
  | record task failure =>
    refine .inl ⟨?_, rfl⟩
    unfold recordFailure
    split_ifs <;> rfl
  | _ => exact .inl ⟨rfl, rfl⟩

/-- Where a section of the worker begins and ends. -/
theorem WorkerStep.ends {fault : Option (WorkerFault F)} {pc pc' : WorkerPc}
    (hstep : WorkerStep H fmt e fault pc e' pc') :
    (∀ through, pc ≠ .notifyCleared through) ∧ pc' ≠ .closeQueue ∧
      (pc' = .exited → pc = .closeQueue ∨ pc = .pop ∧ e.queueClosed = true) := by
  have hbehind : ∀ {task : Option SharedMemtable} {next : WorkerPc} (result : Except Failure Unit),
      next ≠ .closeQueue → next ≠ .exited → WorkerPc.behind task next result ≠ .closeQueue ∧
        WorkerPc.behind task next result ≠ .exited := by
    rintro task next (failure | _) hclose hexit
    · exact ⟨nofun, nofun⟩
    · exact ⟨hclose, hexit⟩
  have hnot : ∀ {P : Prop} {pc' : WorkerPc}, pc' ≠ .closeQueue ∧ pc' ≠ .exited →
      pc' ≠ .closeQueue ∧ (pc' = .exited → P) :=
    fun h => ⟨h.1, fun hexited => absurd hexited h.2⟩
  cases hstep with
  | drained hqueue hclosed => exact ⟨nofun, nofun, fun _ => .inr ⟨rfl, hclosed⟩⟩
  | closeQueue => exact ⟨nofun, nofun, fun _ => .inl rfl⟩
  | commitFlush task edit fault => exact ⟨nofun, hnot (hbehind _ nofun nofun)⟩
  | commitCompaction edit fault => exact ⟨nofun, hnot (hbehind _ nofun nofun)⟩
  | clear task flushedThrough => exact ⟨nofun, hnot (hbehind _ nofun nofun)⟩
  | reclaim flushedThrough fault => exact ⟨nofun, hnot (hbehind _ nofun nofun)⟩
  | checkSlot =>
    refine ⟨nofun, hnot ?_⟩
    split_ifs <;> exact ⟨nofun, nofun⟩
  | _ => exact ⟨nofun, nofun, nofun⟩

end Steps

/-! ## Collisions -/

/-- A writer that holds `write_mutex_` waits for the slot, and the worker waits for the mutex. -/
def System.Deadlocked {F ι : Type} (s : System F ι) : Prop :=
  (∃ i w, s.calls i = .write w .asleep) ∧ ∃ through, s.worker = .reclaim through false

/-- A writer that has just come to its check needs a rotation, and finds the slot occupied again,
while the worker, which has released it, still needs `write_mutex_` to reclaim the log. -/
def System.Collides {F ι : Type} (s : System F ι) (i : ι) : Prop :=
  (∃ w active, s.calls i = .write w (.prepare false true) ∧ s.engine.activeMemtable = some active ∧
    rotationRequired active w = true) ∧
  s.engine.immutableMemtable ≠ none ∧ s.worker.releasing = true

/-- Nothing is in the way of a writer that waits. -/
structure System.Unclogged {F ι : Type} (s : System F ι) : Prop where
  running : ∀ i, (s.calls i).stops = false
  /-- The slot that a writer waits for is occupied, or the notification is about to come. -/
  occupied : ∀ i w, s.calls i = .write w .asleep →
    s.engine.immutableMemtable ≠ none ∨ ∃ through, s.worker = .notifyCleared through
  /-- The worker is there to release it. -/
  working : ∀ i w, s.calls i = .write w .asleep → s.worker ≠ .closeQueue ∧ s.worker ≠ .exited
  /-- Between the release and the reclamation, a writer that has waited finds the slot free. -/
  released : ∀ i, (s.calls i).waiting = true → s.worker.releasing = true →
    s.engine.immutableMemtable = none

namespace System.Unclogged

variable {F R ι : Type} {H : Hashing} {fmt : TableFormat F R} {s s' : System F ι}

/-- A sleeper does not wait for a worker that waits for it. -/
theorem not_deadlocked (hu : s.Unclogged) : ¬s.Deadlocked := by
  rintro ⟨⟨i, w, hasleep⟩, through, hworker⟩
  have hfree := hu.released i (hasleep ▸ rfl) (hworker ▸ rfl)
  rcases hu.occupied i w hasleep with hslot | ⟨through', hcleared⟩
  · exact hslot hfree
  · cases hworker.symm.trans hcleared

/-- A step that lets nobody begin to wait, and leaves the slot and the worker. -/
theorem congr (hu : s.Unclogged) (hstops : ∀ j, (s'.calls j).stops = (s.calls j).stops)
    (hasleep : ∀ j w, s'.calls j = .write w .asleep → s.calls j = .write w .asleep)
    (hwaiting : ∀ j, (s'.calls j).waiting = true → (s.calls j).waiting = true)
    (hslot : s'.engine.immutableMemtable = s.engine.immutableMemtable)
    (hworker : s'.worker = s.worker) : s'.Unclogged where
  running j := (hstops j).trans (hu.running j)
  occupied j w hj := by
    rw [hslot, hworker]
    exact hu.occupied j w (hasleep j w hj)
  working j w hj := hworker ▸ hu.working j w (hasleep j w hj)
  released j hj hreleasing := by
    rw [hslot]
    exact hu.released j (hwaiting j hj) (hworker ▸ hreleasing)

/-- A worker that nobody has shut down has closed the queue for its failure. -/
theorem queueOpen (hu : s.Unclogged) (hs : Stages s) (herror : s.engine.backgroundError = none) :
    s.engine.queueClosed = false := by
  refine hs.queueOpen herror fun i hi => ?_
  rw [Pc.stage_of_not_stops (hu.running i)] at hi
  cases hi

/-- A section of the worker. -/
theorem work (hu : s.Unclogged) (hs : Stages s) {fault : Option (WorkerFault F)}
    {e : KronosEngine F} {pc : WorkerPc} (hstep : WorkerStep H fmt s.engine fault s.worker e pc) :
    System.Unclogged { s with engine := e, worker := pc } := by
  obtain ⟨hbegins, hclose, hexit⟩ := hstep.ends
  refine ⟨hu.running, fun i w hi => ?_, fun i w hi => ⟨hclose, fun hexited => ?_⟩,
    fun i hi hreleasing => ?_⟩
  · rcases hstep.immutableMemtable with ⟨hslot, -⟩ | ⟨-, hcleared⟩
    · refine (hu.occupied i w hi).imp (fun h => hslot ▸ h) ?_
      rintro ⟨through, hworker⟩
      exact absurd hworker (hbegins through)
    · exact .inr hcleared
  · rcases hexit hexited with hclosing | ⟨hpop, hclosed⟩
    · exact (hu.working i w hi).1 hclosing
    · rw [hu.queueOpen hs (hs.noError (hpop ▸ rfl) (hpop ▸ nofun))] at hclosed
      cases hclosed
  · rcases hstep.immutableMemtable with ⟨-, hnot⟩ | ⟨hfree, -⟩
    · rw [show pc.releasing = true from hreleasing] at hnot
      cases hnot
    · exact hfree

variable [DecidableEq ι]

/-- A section of a call, if it is no collision. -/
theorem call (hu : s.Unclogged) (hs : s.Invariant H) {i : ι} (hevades : ¬s.Collides i)
    {e : KronosEngine F} {h : History ι} {pc : Pc}
    (hstep : CallStep H fmt i s.engine s.history (s.calls i) e h pc) :
    System.Unclogged { s.goto i pc with engine := e, history := h } := by
  have hsame : ∀ j, j ≠ i → ((s.goto i pc).calls j) = s.calls j := by
    intro j hj
    rw [System.calls_goto, if_neg hj]
  have hself : (s.goto i pc).calls i = pc := by rw [System.calls_goto, if_pos rfl]
  -- While another call waits, this one does not hold `write_mutex_`.
  have hslot : ∀ j, j ≠ i → (s.calls j).waiting = true →
      e.immutableMemtable = s.engine.immutableMemtable := by
    intro j hj hwaiting
    refine hstep.immutableMemtable (hu.running i) fun hheld => hj ?_
    exact hs.exclusive.calls .write j i (Pc.write_mem_held_of_waiting hwaiting) hheld
  -- Who waits has found the slot occupied and no failure.
  have hfalls := @CallStep.falls_asleep _ _ _ _ _ _ _ _ _ _ _ _ hs.prepares hstep
  have hwaits : ∀ {w}, pc = .write w .asleep → pc.waiting = true := fun h => h ▸ rfl
  refine ⟨fun j => ?_, fun j w hj => ?_, fun j w hj => ?_, fun j hj hreleasing => ?_⟩
  · -- No section begins a shutdown.
    show ((s.goto i pc).calls j).stops = false
    by_cases hji : j = i
    · rw [hji, hself, hstep.stops]
      exact hu.running i
    · rw [hsame j hji]
      exact hu.running j
  · -- A writer sleeps over an occupied slot.
    replace hj : (s.goto i pc).calls j = .write w .asleep := hj
    by_cases hji : j = i
    · rw [hji, hself] at hj
      obtain ⟨-, -, -, -, rfl, hoccupied, -⟩ := hfalls (hwaits hj)
      exact .inl hoccupied
    · rw [hsame j hji] at hj
      refine (hu.occupied j w hj).imp_left fun h => ?_
      rw [hslot j hji (hj ▸ rfl)]
      exact h
  · -- The worker has not come to its end, since nothing has failed and the queue is open.
    replace hj : (s.goto i pc).calls j = .write w .asleep := hj
    by_cases hji : j = i
    · rw [hji, hself] at hj
      obtain ⟨-, -, -, -, rfl, -, herror, -⟩ := hfalls (hwaits hj)
      constructor
      · intro hclosing
        have hrecorded := hs.stages.recorded (hclosing ▸ rfl)
        rw [herror] at hrecorded
        cases hrecorded
      · intro hexited
        have hclosed := hs.stages.exited hexited
        rw [hu.queueOpen hs.stages herror] at hclosed
        cases hclosed
    · rw [hsame j hji] at hj
      exact hu.working j w hj
  · -- While the worker is between its release and its notification, a writer that comes to wait
    -- would be one that collides.
    replace hj : ((s.goto i pc).calls j).waiting = true := hj
    by_cases hji : j = i
    · rw [hji, hself] at hj
      obtain ⟨w, woken, active, hpc, rfl, hoccupied, -, hactive, hneeds⟩ := hfalls hj
      cases woken with
      | true => exact hu.released i (hpc ▸ rfl) hreleasing
      | false =>
        refine absurd ⟨⟨w, active, hpc, hactive, ?_⟩, hoccupied, hreleasing⟩ hevades
        exact hneeds.resolve_left Bool.false_ne_true
    · rw [hsame j hji] at hj
      exact (hslot j hji hj).trans (hu.released j hj hreleasing)

/-- A step that is no collision, and does not begin a shutdown. -/
theorem step (hu : s.Unclogged) (hs : s.Invariant H) {label : ProcessLabel F ι}
    (hstep : ProcessStep H fmt s label s') (hshutdown : ∀ i, label ≠ .invoke i .shutdown)
    (hevades : ∀ i, label = .call i → ¬s.Collides i) : s'.Unclogged := by
  -- A call that moves without falling asleep or coming to wait changes nothing.
  have hgoto : ∀ {i : ι} {pc : Pc}, pc.stops = (s.calls i).stops →
      (∀ w, pc ≠ .write w .asleep) → (pc.waiting = true → (s.calls i).waiting = true) →
        (s.goto i pc).Unclogged := by
    intro i pc hstops hasleep hwaiting
    refine hu.congr (fun j => ?_) (fun j w hj => ?_) (fun j hj => ?_) rfl rfl
    all_goals rw [System.calls_goto] at *
    · split_ifs with hji
      · rw [hstops, hji]
      · rfl
    · split_ifs at hj with hji
      · exact absurd hj (hasleep w)
      · exact hj
    · split_ifs at hj with hji
      · exact hji ▸ hwaiting hj
      · exact hj
  -- There is no shutdown.
  have hstopped : ∀ {i : ι} {point : ShutdownPoint}, s.calls i ≠ .shutdown point := by
    intro i point hpc
    have h := hu.running i
    rw [hpc] at h
    cases h
  cases hstep with
  | invoke i request hidle =>
    cases request with
    | write w => exact hgoto (hidle ▸ rfl) nofun nofun
    | get key => exact hgoto (hidle ▸ rfl) nofun nofun
    | shutdown => exact absurd rfl (hshutdown i)
  | acquire i m pc hacquires _ =>
    obtain ⟨hstops, hwaiting, hasleep⟩ := Pc.acquires_waiting hacquires
    exact hgoto hstops hasleep fun h => hwaiting ▸ h
  | call i e h pc hcall => exact hu.call hs (hevades i rfl) hcall
  | notify i hpc => exact absurd hpc hstopped
  | join i error hpc _ => exact absurd hpc hstopped
  | wake i =>
    exact hgoto (Pc.stops_woken _) (Pc.woken_ne_asleep _) fun h => (Pc.waiting_woken _).symm.trans h
  | workerAcquire m pc hacquires _ =>
    obtain ⟨hnot, hclose, hcleared⟩ := WorkerPc.acquires_releasing hacquires
    refine ⟨hu.running, fun i w hi => .inl ?_, fun i w hi => ⟨hclose, ?_⟩,
      fun i hi hreleasing => ?_⟩
    · refine (hu.occupied i w hi).resolve_right ?_
      rintro ⟨through, hworker⟩
      exact hcleared through hworker
    · exact (WorkerPc.acquires_ending hacquires).2.1
    · rw [show pc.releasing = true from hreleasing] at hnot
      cases hnot
  | worker fault e pc hwork => exact hu.work hs.stages hwork
  | notifyCleared through hcleared =>
    -- Everybody who sleeps is woken, and finds the slot free.
    refine ⟨fun i => (Pc.stops_woken _).trans (hu.running i), fun i w hi => ?_, fun i w hi => ?_,
      fun i hi _ => ?_⟩
    · exact absurd hi (Pc.woken_ne_asleep _ w)
    · exact absurd hi (Pc.woken_ne_asleep _ w)
    · exact hu.released i ((Pc.waiting_woken _).symm.trans hi) (hcleared ▸ rfl)
  | notifyFailed hfailed =>
    refine ⟨fun i => (Pc.stops_woken _).trans (hu.running i), fun i w hi => ?_, fun i w hi => ?_,
      fun i _ => nofun⟩
    · exact absurd hi (Pc.woken_ne_asleep _ w)
    · exact absurd hi (Pc.woken_ne_asleep _ w)

end System.Unclogged

/-! ## Somebody can go on -/

section Progress

variable {F R ι : Type} {H : Hashing} {fmt : TableFormat F R}

/-- A call that is under way runs on, unless it acquires a mutex first, sleeps, or stands where a
shutdown notifies the others or joins the worker. -/
theorem CallStep.exists_of_underWay (i : ι) (e : KronosEngine F) (h : History ι) {pc : Pc}
    (hunderWay : pc.underWay = true) (hacquires : pc.acquires = none) :
    pc.sleeping = true ∨ (pc = .shutdown .notify ∨ ∃ error, pc = .shutdown (.join error)) ∨
      ∃ e' h' pc', CallStep H fmt i e h pc e' h' pc' := by
  -- The points at which a mutex is acquired are out, and the others have a section each.
  cases pc with
  | write w point =>
    cases point with
    | enter => cases hacquires
    | prepare woken locked =>
      cases locked with
      | false => cases hacquires
      | true => exact .inr (.inr ⟨_, _, _, .prepare w woken⟩)
    | asleep => exact .inl rfl
    | append => exact .inr (.inr ⟨_, _, _, .append w⟩)
    | insert sequence locked =>
      cases locked with
      | false => cases hacquires
      | true => exact .inr (.inr ⟨_, _, _, .insert w sequence⟩)
    | leave result => exact .inr (.inr ⟨_, _, _, .leave w result⟩)
  | get key point =>
    cases point with
    | active locked =>
      cases locked with
      | false => cases hacquires
      | true => exact .inr (.inr ⟨_, _, _, .active key⟩)
    | immutable snapshot => exact .inr (.inr ⟨_, _, _, .immutable key snapshot⟩)
    | copy locked =>
      cases locked with
      | false => cases hacquires
      | true => exact .inr (.inr ⟨_, _, _, .copy key⟩)
    | files rest winner =>
      cases rest with
      | nil => exact .inr (.inr ⟨_, _, _, .answer key winner⟩)
      | cons f rest => exact .inr (.inr ⟨_, _, _, .file key f rest winner⟩)
  | shutdown point =>
    cases point with
    | publish locked =>
      cases locked with
      | false => cases hacquires
      | true => exact .inr (.inr ⟨_, _, _, .publish⟩)
    | notify => exact .inr (.inl (.inl rfl))
    | barrier locked =>
      cases locked with
      | false => cases hacquires
      | true => exact .inr (.inr ⟨_, _, _, .barrier⟩)
    -- The predicate of the wait decides between two sections.
    | drain locked =>
      cases locked with
      | false => cases hacquires
      | true =>
        cases hgo : e.shutdownMayGoOn with
        | false => exact .inr (.inr ⟨_, _, _, .wait hgo⟩)
        | true => exact .inr (.inr ⟨_, _, _, .drain hgo⟩)
    | asleep => exact .inl rfl
    | close error => exact .inr (.inr ⟨_, _, _, .close error⟩)
    | join error => exact .inr (.inl (.inr ⟨error, rfl⟩))
    | report error locked =>
      cases locked with
      | false => cases hacquires
      | true => exact .inr (.inr ⟨_, _, _, .report error⟩)
  | _ => cases hunderWay

/-- A worker that holds a mutex runs on. -/
theorem WorkerStep.exists_of_held (e : KronosEngine F) {pc : WorkerPc} (hheld : pc.held ≠ []) :
    ∃ e' pc', WorkerStep H fmt e none pc e' pc' := by
  -- A mutex is held inside the sections only, and each of these has an outcome without a failure.
  cases pc with
  | commitFlush task edit locked =>
    cases locked with
    | false => exact absurd rfl hheld
    | true => exact ⟨_, _, .commitFlush task edit none⟩
  | clear task flushedThrough locked =>
    cases locked with
    | false => exact absurd rfl hheld
    | true => exact ⟨_, _, .clear task flushedThrough⟩
  | reclaim flushedThrough locked =>
    cases locked with
    | false => exact absurd rfl hheld
    | true => exact ⟨_, _, .reclaim flushedThrough none⟩
  | checkSlot locked =>
    cases locked with
    | false => exact absurd rfl hheld
    | true => exact ⟨_, _, .checkSlot⟩
  | copyLive locked =>
    cases locked with
    | false => exact absurd rfl hheld
    | true => exact ⟨_, _, .copyLive⟩
  | commitCompaction edit locked =>
    cases locked with
    | false => exact absurd rfl hheld
    | true => exact ⟨_, _, .commitCompaction edit none⟩
  | failed task failure locked =>
    cases locked with
    | false => exact absurd rfl hheld
    | true => exact ⟨_, _, .record task failure⟩
  | _ => exact absurd rfl hheld

/-- A step of a thread that is under way, with no I/O failure. -/
def ProcessLabel.Proceeds : ProcessLabel F ι → Prop
  | .acquire _ | .call _ | .workerAcquire | .worker none => True
  | .invoke .. | .wake _ | .worker (some _) => False

variable [DecidableEq ι] {s : System F ι}

/-- Some thread can take a step: one of a call that has begun, or of the worker, and not only one
that wakes up for no reason. -/
def System.MayProceed (H : Hashing) (fmt : TableFormat F R) (s : System F ι) : Prop :=
  ∃ label s', ProcessStep H fmt s label s' ∧ label.Proceeds

/-- A worker that is not waiting for a mutex, and for no task either, runs on. -/
theorem System.mayProceed_of_worker (hacquires : s.worker.acquires = none)
    (hexited : s.worker ≠ .exited) (hpop : s.worker = .pop → s.engine.flushQueue ≠ []) :
    s.MayProceed H fmt := by
  have hworks : ∀ {e pc}, WorkerStep H fmt s.engine none s.worker e pc → s.MayProceed H fmt :=
    fun hstep => ⟨_, _, .worker none _ _ hstep, trivial⟩
  -- Without a mutex the worker is between its sections, and its next step needs none.
  by_cases hheld : s.worker.held = []
  · generalize hworker : s.worker = worker at *
    cases worker with
    | pop =>
      obtain ⟨task, rest, hqueue⟩ := List.exists_cons_of_ne_nil (hpop rfl)
      exact hworks (.pop task rest hqueue)
    -- A job returns or throws, and both are steps.
    | flush task =>
      cases hprepare : s.engine.store.prepareFlush fmt task.memtable with
      | ok result => exact hworks (.flush task result.1 result.2 hprepare)
      | error failure => exact hworks (.flushThrows task _ failure hprepare rfl (.refl _))
    | compact liveFiles =>
      cases hprepare : s.engine.prepareCompaction fmt liveFiles with
      | ok result =>
        cases result with
        | none => exact hworks (.compactNothing liveFiles hprepare)
        | some result => exact hworks (.compact liveFiles result.1 result.2 hprepare)
      | error failure => exact hworks (.compactThrows liveFiles _ failure hprepare rfl (.refl _))
    | notifyCleared through => exact ⟨_, _, .notifyCleared through hworker, trivial⟩
    | notifyFailed => exact ⟨_, _, .notifyFailed hworker, trivial⟩
    | closeQueue => exact hworks .closeQueue
    | exited => exact absurd rfl hexited
    | commitFlush task edit locked => cases locked <;> [cases hacquires; cases hheld]
    | clear task flushedThrough locked => cases locked <;> [cases hacquires; cases hheld]
    | reclaim flushedThrough locked => cases locked <;> [cases hacquires; cases hheld]
    | checkSlot locked => cases locked <;> [cases hacquires; cases hheld]
    | copyLive locked => cases locked <;> [cases hacquires; cases hheld]
    | commitCompaction edit locked => cases locked <;> [cases hacquires; cases hheld]
    | failed task failure locked => cases locked <;> [cases hacquires; cases hheld]
  · obtain ⟨e, pc, hstep⟩ := @WorkerStep.exists_of_held _ _ H fmt s.engine _ hheld
    exact hworks hstep

/-- When no thread can go on, nobody stands inside a section, so that only `write_mutex_` is held,
and only by writers that sleep. -/
theorem System.held_of_stuck (hstuck : ¬s.MayProceed H fmt) :
    s.worker.held = [] ∧ (∀ m, m ≠ .write → s.Free m) ∧
      ∀ j, (s.calls j).held ≠ [] → ∃ w, s.calls j = .write w .asleep := by
  -- A worker that holds a mutex can go on.
  have hworker : s.worker.held = [] := by
    by_contra hheld
    obtain ⟨e, pc, hstep⟩ := @WorkerStep.exists_of_held _ _ H fmt s.engine _ hheld
    exact hstuck ⟨_, _, .worker none e pc hstep, trivial⟩
  -- A call that holds a mutex waits for another one, or sleeps: all else is a step.
  have hholds : ∀ j, (s.calls j).held ≠ [] →
      (∃ m pc, (s.calls j).acquires = some (m, pc)) ∨ ∃ w, s.calls j = .write w .asleep := by
    intro j hheld
    cases hnext : (s.calls j).acquires with
    | some next => exact .inl ⟨next.1, next.2, rfl⟩
    | none =>
      rcases @CallStep.exists_of_underWay _ _ _ H fmt j s.engine s.history _
        (Pc.underWay_of_held hheld) hnext with hsleeping | (hnotify | ⟨error, hjoin⟩) |
          ⟨e, h, pc, hstep⟩
      · exact .inr (Pc.asleep_of_held hsleeping hheld)
      · exact absurd (hnotify ▸ rfl) hheld
      · exact absurd (hjoin ▸ rfl) hheld
      · exact absurd ⟨_, _, .call j e h pc hstep, trivial⟩ hstuck
  -- The mutexes are taken in an order, with `write_mutex_` first.
  have hfree : ∀ m, m ≠ .write → s.Free m := by
    refine fun m hm => ⟨fun j hheld => hm ?_, hworker ▸ List.not_mem_nil⟩
    rcases hholds j (List.ne_nil_of_mem hheld) with ⟨m', pc, hnext⟩ | ⟨w', hasleep⟩
    · exact (Pc.held_of_acquiring hnext).1 m hheld
    · rw [hasleep] at hheld
      exact List.mem_singleton.1 hheld
  refine ⟨hworker, hfree, fun j hheld => (hholds j hheld).resolve_left ?_⟩
  -- Who waits for a second mutex would get it, since all but the first are free.
  rintro ⟨m, pc, hnext⟩
  by_cases hm : m = .write
  · exact hheld ((Pc.held_of_acquiring hnext).2 hm)
  · exact hstuck ⟨_, _, .acquire j m pc hnext (hfree m hm), trivial⟩

/-- As long as a write has not returned, some thread can go on. -/
theorem System.Unclogged.mayProceed (hu : s.Unclogged) (hs : s.Invariant H) {i : ι} {w : Write}
    {point : WritePoint} (hi : s.calls i = .write w point) : s.MayProceed H fmt := by
  by_contra hstuck
  obtain ⟨hworker, hfree, hsleeps⟩ := System.held_of_stuck hstuck
  -- Somebody sleeps: this call, or the one that holds `write_mutex_`.
  obtain ⟨j, w', hasleep⟩ : ∃ j w', s.calls j = .write w' .asleep := by
    by_cases hwrite : s.Free .write
    · refine ⟨i, hsleeps i fun hheld => ?_⟩
      rw [hi] at hheld
      cases point with
      | enter =>
        have hnext : (s.calls i).acquires = some (.write, .write w (.prepare false false)) :=
          hi ▸ rfl
        exact hstuck ⟨_, _, .acquire i _ _ hnext hwrite, trivial⟩
      | _ => cases hheld
    · obtain ⟨j, hj⟩ : ∃ j, Mutex.write ∈ (s.calls j).held := by
        by_contra hnone
        exact hwrite ⟨not_exists.1 hnone, hworker ▸ List.not_mem_nil⟩
      exact ⟨j, hsleeps j (List.ne_nil_of_mem hj)⟩
  -- The worker does not wait for the sleeper, and it has something to do.
  cases hnext : s.worker.acquires with
  | some next =>
    obtain ⟨m, pc⟩ := next
    by_cases hm : m = .write
    · obtain ⟨through, hreclaim⟩ := WorkerPc.acquires_write (hm ▸ hnext)
      exact hu.not_deadlocked ⟨⟨j, w', hasleep⟩, through, hreclaim⟩
    · exact hstuck ⟨_, _, .workerAcquire m pc hnext (hfree m hm), trivial⟩
  | none =>
    refine hstuck (System.mayProceed_of_worker hnext (hu.working j w' hasleep).2 ?_)
    -- An empty queue at the pop means an empty slot, over which nobody sleeps.
    intro hpop hqueue
    obtain ⟨g, hd, -⟩ := hs.data
    have htasks := hd.tasks (hs.stages.noError (hpop ▸ rfl) (hpop ▸ nofun))
    rw [hpop, hqueue] at htasks
    rcases hu.occupied j w' hasleep with hslot | ⟨through, hcleared⟩
    · exact hslot (Option.toList_eq_nil_iff.1 htasks.symm)
    · cases hpop.symm.trans hcleared

end Progress

/-! ## Processes without shutdown -/

section Process

variable {F R ι : Type} [DecidableEq ι]

/-- A process in which no I/O fails, and that is not shut down. -/
def unstopped (H : Hashing) (fmt : TableFormat F R) : Lts (System F ι) (ProcessLabel F ι) :=
  (faultless H fmt).restrict fun _ label => ∀ i, label ≠ .invoke i .shutdown

/-- Such a process in which no writer collides with the worker. -/
def evading (H : Hashing) (fmt : TableFormat F R) : Lts (System F ι) (ProcessLabel F ι) :=
  (unstopped H fmt).restrict fun s label => ∀ i, label = .call i → ¬s.Collides i

/-- **Writers and the worker do not block each other.** No writer waits for the slot while the
worker waits for the mutex of the writer, and as long as a write has not returned, some thread can
go on. -/
def DeadlockFree (H : Hashing) (fmt : TableFormat F R)
    (M : Lts (System F ι) (ProcessLabel F ι)) : Prop :=
  ∀ s, M.Reachable s → ¬s.Deadlocked ∧
    ∀ i w point, s.calls i = .write w point → s.MayProceed H fmt

variable {H : Hashing} {fmt : TableFormat F R} {s s' : System F ι}

/-- The calls of an engine that was just opened are at rest. -/
theorem resting_of_opened (h : Opened H fmt s) (i : ι) : (s.calls i).resting = true := by
  rcases h with ⟨e, memtableTargetBytes, compactionPolicy, -, rfl⟩ |
    ⟨node, memtableTargetBytes, compactionPolicy, hnode, hstep⟩
  · rfl
  · have hinv := invariant_of_reachable hnode
    cases hstep with
    | reopen _ _ _ =>
      obtain ⟨-, -, hresting⟩ := hinv
      exact hresting i

/-- Behind an opening nothing is in the way of a writer. -/
theorem unclogged_of_opened (h : Opened H fmt s) : s.Unclogged := by
  have hquiet := fun i => Pc.not_stops_of_resting (resting_of_opened h i)
  have hawake : ∀ i w, s.calls i ≠ .write w .asleep := by
    intro i w hi
    have hnot := (hquiet i).2
    rw [hi] at hnot
    cases hnot
  refine ⟨fun i => (hquiet i).1, fun i w hi => absurd hi (hawake i w),
    fun i w hi => absurd hi (hawake i w), fun i hi => ?_⟩
  rw [(hquiet i).2] at hi
  cases hi

/-- Without a collision nothing ever is. -/
theorem unclogged_of_evading (h : (evading H fmt).Reachable s) : s.Unclogged ∧ s.Invariant H := by
  refine ⟨?_, invariant_of_faultless h.of_restrict.of_restrict⟩
  refine (@Lts.Reachable.invariant _ _ (evading H fmt)
    (fun s => (faultless H fmt).Reachable s ∧ s.Unclogged) ?_ ?_ s h).2
  · exact fun s hopened => ⟨.initial (M := faultless H fmt) hopened, unclogged_of_opened hopened⟩
  · rintro s label s' ⟨hs, hu⟩ ⟨⟨hstep, hshutdown⟩, hevades⟩
    exact ⟨hs.step hstep, hu.step (invariant_of_faultless hs) hstep.1 hshutdown hevades⟩

/-- A step keeps the calls of shutdown apart from the others. -/
theorem ProcessStep.stops {label : ProcessLabel F ι} (hstep : ProcessStep H fmt s label s')
    (j : ι) : (s'.calls j).stops = (s.calls j).stops ∨ label = .invoke j .shutdown := by
  have hgoto : ∀ {i : ι} {pc : Pc}, pc.stops = (s.calls i).stops →
      ((s.goto i pc).calls j).stops = (s.calls j).stops := by
    intro i pc hpc
    rw [System.calls_goto]
    split_ifs with hji
    · rw [hpc, hji]
    · rfl
  cases hstep with
  | invoke i request hidle =>
    cases request with
    | write w => exact .inl (hgoto (hidle ▸ rfl))
    | get key => exact .inl (hgoto (hidle ▸ rfl))
    | shutdown =>
      by_cases hji : j = i
      · exact .inr (hji ▸ rfl)
      · refine .inl ?_
        rw [System.calls_goto, if_neg hji]
  | acquire i m pc hacquires _ => exact .inl (hgoto (Pc.acquires_waiting hacquires).1)
  | call i e h pc hcall => exact .inl (hgoto hcall.stops)
  | notify i hpc => exact .inl ((Pc.stops_woken _).trans (hgoto (hpc ▸ rfl)))
  | join i error hpc _ => exact .inl (hgoto (hpc ▸ rfl))
  | wake i => exact .inl (hgoto (Pc.stops_woken _))
  | notifyCleared through _ => exact .inl (Pc.stops_woken _)
  | notifyFailed _ => exact .inl (Pc.stops_woken _)
  | _ => exact .inl rfl

/-- Without a shutdown no call stops the engine. -/
theorem running_of_unstopped (h : (unstopped H fmt).Reachable s) (j : ι) :
    (s.calls j).stops = false := by
  refine @Lts.Reachable.invariant _ _ (unstopped H fmt)
    (fun s => ∀ j, (s.calls j).stops = false) ?_ ?_ s h j
  · exact fun s hopened => (unclogged_of_opened hopened).running
  · rintro s label s' hs ⟨⟨hstep, -⟩, hshutdown⟩ j
    exact ((hstep.stops j).resolve_right (hshutdown j)).trans (hs j)

/-- A faultless process in which nobody has called shutdown. -/
theorem unstopped_of_faultless (h : (faultless H fmt).Reachable s)
    (hrunning : ∀ j, (s.calls j).stops = false) : (unstopped H fmt).Reachable s := by
  refine @Lts.Reachable.invariant _ _ (faultless H fmt)
    (fun s => (∀ j, (s.calls j).stops = false) → (unstopped H fmt).Reachable s) ?_ ?_ s h hrunning
  · exact fun s hopened _ => .initial (M := unstopped H fmt) hopened
  · rintro s label s' hs hstep hrunning
    have hshutdown : ∀ i, label ≠ .invoke i .shutdown := by
      rintro i rfl
      have hi := hrunning i
      cases hstep.1 with
      | invoke i request hidle =>
        rw [System.calls_goto, if_pos rfl] at hi
        cases hi
    refine Lts.Reachable.step (hs fun j => ?_) ⟨hstep, hshutdown⟩
    exact ((hstep.1.stops j).resolve_right (hshutdown j)).symm.trans (hrunning j)

/-! ## Collisions last -/

/-- A writer waits for the slot, and so does the worker for the mutex of the writer. -/
structure System.Stuck (s : System F ι) (i : ι) : Prop where
  waiting : (s.calls i).waiting = true
  occupied : s.engine.immutableMemtable ≠ none
  releasing : s.worker.releasing = true

omit [DecidableEq ι] in
/-- Without shutdown, a worker that is reclaiming finds no flag set. -/
theorem flags_of_releasing (hs : s.Invariant H) (hrunning : ∀ j, (s.calls j).stops = false)
    (hreleasing : s.worker.releasing = true) :
    s.engine.shuttingDown = false ∧ s.engine.backgroundError = none := by
  constructor
  · rw [Bool.eq_false_iff]
    intro hshutdown
    obtain ⟨j, hj⟩ := hs.stages.first hshutdown
    rw [Pc.stage_of_not_stops (hrunning j)] at hj
    cases hj
  · have hquiet : s.worker.ending = false ∧ s.worker ≠ .exited := by
      generalize s.worker = worker at hreleasing
      cases worker with
      | notifyCleared => exact ⟨rfl, nofun⟩
      | reclaim => exact ⟨rfl, nofun⟩
      | _ => cases hreleasing
    exact hs.stages.noError hquiet.1 hquiet.2

/-- No step but a shutdown resolves it. -/
theorem System.Stuck.step {i : ι} (hk : s.Stuck i) (hs : s.Invariant H)
    (hrunning : ∀ j, (s.calls j).stops = false) {label : ProcessLabel F ι}
    (hstep : ProcessStep H fmt s label s') : s'.Stuck i := by
  obtain ⟨hwaiting, hoccupied, hreleasing⟩ := hk
  obtain ⟨hshutdown, herror⟩ := flags_of_releasing hs hrunning hreleasing
  have hheld := Pc.write_mem_held_of_waiting hwaiting
  -- As long as the writer itself does not go on, nothing changes.
  have hgoto : ∀ {j : ι} {pc : Pc}, (j = i → pc.waiting = true) →
      ((s.goto j pc).calls i).waiting = true := by
    intro j pc hpc
    rw [System.calls_goto]
    split_ifs with hij
    · exact hpc hij.symm
    · exact hwaiting
  have hstopped : ∀ {j : ι} {point : ShutdownPoint}, s.calls j ≠ .shutdown point := by
    intro j point hpc
    have h := hrunning j
    rw [hpc] at h
    cases h
  cases hstep with
  | invoke j request hidle =>
    refine ⟨hgoto fun hji => ?_, hoccupied, hreleasing⟩
    rw [← hji, hidle] at hwaiting
    cases hwaiting
  | acquire j m pc hacquires _ =>
    refine ⟨hgoto fun hji => ?_, hoccupied, hreleasing⟩
    rw [(Pc.acquires_waiting hacquires).2.1, hji]
    exact hwaiting
  | call j e h pc hcall =>
    by_cases hji : j = i
    · subst hji
      -- The predicate of its wait is false, so the writer sleeps on.
      have hstays : s.engine.writerMayGoOn = false := by
        rw [writerMayGoOn, hshutdown, herror]
        simpa [Option.isSome_iff_ne_none] using hoccupied
      generalize hpc : s.calls j = pc₀ at hcall hwaiting
      cases hcall with
      | prepare w woken =>
        cases woken with
        | false => cases hwaiting
        | true =>
          have hwaits : s.engine.prepareForWriteLocked true w = (.waits, s.engine) := by
            unfold prepareForWriteLocked
            rw [hstays]
            exact if_pos rfl
          rw [hwaits]
          exact ⟨hgoto fun _ => rfl, hoccupied, hreleasing⟩
      | _ => cases hwaiting
    · refine ⟨hgoto fun h => absurd h hji, ?_, hreleasing⟩
      -- The writer that is stuck holds `write_mutex_`, so that no other call frees or fills the
      -- slot.
      have hslot := hcall.immutableMemtable (hrunning j) fun hheld' =>
        hji (hs.exclusive.calls .write j i hheld' hheld)
      exact hslot ▸ hoccupied
  | notify j hpc => exact absurd hpc hstopped
  | join j error hpc _ => exact absurd hpc hstopped
  | wake j =>
    refine ⟨hgoto fun hji => ?_, hoccupied, hreleasing⟩
    rw [Pc.waiting_woken, hji]
    exact hwaiting
  -- The worker waits for the mutex that the writer holds.
  | workerAcquire m pc hacquires hfree =>
    generalize s.worker = worker at hacquires hreleasing
    cases worker with
    | reclaim through locked =>
      cases locked with
      | false =>
        cases hacquires
        exact absurd hheld (hfree.1 i)
      | true => cases hreleasing
    | notifyCleared => cases hacquires
    | _ => cases hreleasing
  | worker fault e pc hwork =>
    generalize s.worker = worker at hwork hreleasing
    cases hwork <;> cases hreleasing
  | notifyCleared through _ => exact ⟨(Pc.waiting_woken _).trans hwaiting, hoccupied, rfl⟩
  | notifyFailed hfailed =>
    rw [hfailed] at hreleasing
    cases hreleasing

omit [DecidableEq ι] in
/-- A writer that comes to its check and needs a rotation makes one, or falls asleep. -/
theorem System.Invariant.prepare_of_required (hs : s.Invariant H) {w : Write} {active : Memtable}
    (hshutdown : s.engine.shuttingDown = false) (herror : s.engine.backgroundError = none)
    (hactive : s.engine.activeMemtable = some active)
    (hrequired : rotationRequired active w = true) : (s.engine.immutableMemtable = none →
      s.engine.prepareForWriteLocked false w = (.ready, s.engine.rotated active)) ∧
    (s.engine.immutableMemtable ≠ none →
      s.engine.prepareForWriteLocked false w = (.waits, s.engine)) := by
  have hprepares := hs.prepares false w
  generalize s.engine.prepareForWriteLocked false w = result at hprepares ⊢
  cases hprepares with
  | shuttingDown hflag => cases hflag.symm.trans hshutdown
  | failed failure _ hfailed => cases hfailed.symm.trans herror
  | waits _ _ _ _ hoccupied _ => exact ⟨fun hfree => absurd hfree hoccupied, fun _ => rfl⟩
  | ready active' _ _ hactive' hnot =>
    obtain rfl := Option.some.inj (hactive'.symm.trans hactive)
    rw [hrequired] at hnot
    cases hnot
  | rotated active' _ _ hactive' _ hfree _ =>
    obtain rfl := Option.some.inj (hactive'.symm.trans hactive)
    exact ⟨fun _ => rfl, fun hoccupied => absurd hfree hoccupied⟩

/-- A writer that collides falls asleep. -/
theorem stuck_of_collides {i : ι} (hs : s.Invariant H) (hrunning : ∀ j, (s.calls j).stops = false)
    (hcollides : s.Collides i) (hstep : ProcessStep H fmt s (.call i) s') : s'.Stuck i := by
  obtain ⟨⟨w, active, hpc, hactive, hrequired⟩, hoccupied, hreleasing⟩ := hcollides
  obtain ⟨hshutdown, herror⟩ := flags_of_releasing hs hrunning hreleasing
  cases hstep with
  | call i e h pc hcall =>
    rw [hpc] at hcall
    cases hcall with
    | prepare w woken =>
      rw [(hs.prepare_of_required hshutdown herror hactive hrequired).2 hoccupied]
      refine ⟨?_, hoccupied, hreleasing⟩
      show ((s.goto i (.write w .asleep)).calls i).waiting = true
      rw [System.calls_goto, if_pos rfl]
      rfl
  | notify i hnotify => cases hpc.symm.trans hnotify
  | join i error hjoin _ => cases hpc.symm.trans hjoin

/-- **A collision lasts**: the write never returns, and the log is never reclaimed. -/
def CollisionsLast (M : Lts (System F ι) (ProcessLabel F ι)) : Prop :=
  ∀ s i s', M.Reachable s → s.Collides i → M.step s (.call i) s' →
    ∀ ls t, M.Run s' ls t → t.Stuck i

end Process

/-- Writers and the worker do not block each other, exactly as long as no writer collides with the
worker. -/
theorem deadlockFree {F R ι : Type} [DecidableEq ι] (H : Hashing) (fmt : TableFormat F R) :
    DeadlockFree H fmt (evading H fmt : Lts (System F ι) (ProcessLabel F ι)) ∧
      CollisionsLast (unstopped H fmt : Lts (System F ι) (ProcessLabel F ι)) := by
  have hinv : ∀ {s : System F ι}, (unstopped H fmt).Reachable s → s.Invariant H :=
    fun hs => invariant_of_faultless hs.of_restrict
  constructor
  · intro s hs
    obtain ⟨hu, hs'⟩ := unclogged_of_evading hs
    exact ⟨hu.not_deadlocked, fun i w point hi => hu.mayProceed hs' hi⟩
  · intro s i s' hs hcollides hstep ls t hrun
    have hstuck := stuck_of_collides (hinv hs) (running_of_unstopped hs) hcollides hstep.1.1
    have hkeeps : ∀ (u : System F ι) label v, ((unstopped H fmt).Reachable u ∧ u.Stuck i) →
        (unstopped H fmt).step u label v → (unstopped H fmt).Reachable v ∧ v.Stuck i := by
      rintro u label v ⟨hu, hk⟩ hnext
      exact ⟨hu.step hnext, hk.step (hinv hu) (running_of_unstopped hu) hnext.1.1⟩
    exact (hrun.invariant hkeeps ⟨hs.step hstep, hstuck⟩).2

/-! ## A schedule with a collision -/

/-- Every call is at rest, or has not begun. -/
def System.Quiet {F ι : Type} (s : System F ι) : Prop := ∀ j, (s.calls j).resting = true

namespace System.Quiet

variable {F ι : Type} {s : System F ι}

/-- In a quiet state no call runs. -/
theorem isResting (hq : s.Quiet) : s.Resting := fun j => (Pc.quiet_of_resting (hq j)).1

/-- So a call that begins there is alone. -/
theorem alone (hq : s.Quiet) (hworker : s.worker.held = []) (i : ι) : s.Alone i :=
  ⟨fun j _ => hq.isResting j, hworker⟩

/-- Nobody is asleep. -/
theorem woken (hq : s.Quiet) (j : ι) : (s.calls j).woken = s.calls j := by
  have hj := hq j
  generalize s.calls j = pc at hj
  cases pc with
  | write => cases hj
  | shutdown => cases hj
  | _ => rfl

/-- A call that is at rest keeps a state quiet. -/
theorem put [DecidableEq ι] (hq : s.Quiet) (i : ι) {pc : Pc} (hpc : pc.resting = true)
    (e : KronosEngine F) (h : History ι) : (s.put i pc e h).Quiet := by
  intro j
  by_cases hj : j = i
  · rw [hj, System.calls_put]
    exact hpc
  · rw [System.calls_put_of_ne s hj]
    exact hq j

end System.Quiet

section Schedule

variable {F R ι : Type} [DecidableEq ι] {H : Hashing} {fmt : TableFormat F R}

/-- A record as large as the target needs a rotation, if there is anything to rotate. -/
theorem rotationRequired_of_lt {targetBytes : ℕ} {active : Memtable}
    (hcurrent : active.Current targetBytes) (hentries : active.entryCount ≠ 0) {w : Write}
    (hlarge : targetBytes ≤ w.candidate.value.length) : rotationRequired active w = true := by
  have hnewest : w.candidate.sequence = uint64Max := by cases w <;> rfl
  unfold rotationRequired
  rw [Bool.and_eq_true]
  refine ⟨decide_eq_true (Nat.pos_of_ne_zero hentries), ?_⟩
  unfold Memtable.wouldExceedTarget Memtable.estimateEntrySize
  cases hlookup : active.lookupEntry w.key with
  | none =>
    refine decide_eq_true ?_
    rw [hcurrent.target]
    omega
  | some old =>
    have holder := hcurrent.older w.key old hlookup
    dsimp only
    rw [if_neg (by rw [hnewest]; exact not_le.2 holder)]
    refine decide_eq_true ?_
    rw [hcurrent.target]
    omega

variable {M : Lts (System F ι) (ProcessLabel F ι)} {s : System F ι}

/-- A write whose check leaves an empty active Memtable, up to its return. -/
theorem Reachable.writeFirst (hM : HasCalls H fmt M) (hinv : ∀ t, M.Reachable t → t.Invariant H)
    (hs : M.Reachable s) (hquiet : s.Quiet) (hworker : s.worker.held = []) {i : ι}
    (hidle : s.calls i = .idle) {w : Write} {e : KronosEngine F}
    (hready : s.engine.prepareForWriteLocked false w = (.ready, e)) {m : Memtable}
    (hactive : e.activeMemtable = some m) (hstate : m.state = .mutable) (hreplays : m.Replays [])
    (hlog : e.log = s.engine.log) (hkey : w.key.length ≤ uint32Max)
    (hvalue : (w.call none).value.length ≤ uint32Max)
    (hmax : s.engine.log.wal.nextSequence ≠ uint64Max) :
    ∃ log active calls history, log.wal.nextSequence = s.engine.log.wal.nextSequence + 1 ∧
      active.Replays [w.record s.engine.log.wal.nextSequence] ∧
      (∀ j, (calls j).resting = true) ∧ (∀ j, j ≠ i → calls j = s.calls j) ∧
      M.Reachable
        ⟨{ e with log := log, activeMemtable := some active }, s.worker, calls, history⟩ := by
  obtain ⟨g, hd, -⟩ := (hinv s hs).data
  obtain ⟨wal, hrun, hnext⟩ := @run_of_accepted H w _ hd.log.position hkey hvalue hmax
  obtain ⟨active, hinsert, -, hreplays'⟩ := @insertLocked_spec F
    { e with log := { e.log with wal := wal } } m [] hactive hstate hreplays w
    s.engine.log.wal.nextSequence fun r hr => absurd hr List.not_mem_nil
  have hwrote := Reachable.write hM hs hidle (hquiet.alone hworker i) hready (hlog ▸ hrun) hinsert
  exact ⟨_, active, _, _, hnext, hreplays', hquiet.put i rfl s.engine s.history,
    fun j hj => System.calls_put_of_ne s hj _ s.engine s.history, hwrote⟩

/-- A write that rotates a Memtable, up to its return. -/
theorem Reachable.rotate (hM : HasCalls H fmt M) (hinv : ∀ t, M.Reachable t → t.Invariant H)
    (hsized : ∀ t, M.Reachable t → t.Sized) (hs : M.Reachable s) (hquiet : s.Quiet)
    (hworker : s.worker.held = []) {i : ι} (hidle : s.calls i = .idle) {w : Write}
    {active : Memtable} (hactive : s.engine.activeMemtable = some active)
    (hentries : active.entryCount ≠ 0) (hslot : s.engine.immutableMemtable = none)
    (hshutdown : s.engine.shuttingDown = false) (herror : s.engine.backgroundError = none)
    (hlarge : s.engine.memtableTargetBytes ≤ w.candidate.value.length)
    (hkey : w.key.length ≤ uint32Max) (hvalue : (w.call none).value.length ≤ uint32Max)
    (hmax : s.engine.log.wal.nextSequence ≠ uint64Max) :
    ∃ log active' calls history, log.wal.nextSequence = s.engine.log.wal.nextSequence + 1 ∧
      active'.Replays [w.record s.engine.log.wal.nextSequence] ∧
      (∀ j, (calls j).resting = true) ∧ (∀ j, j ≠ i → calls j = s.calls j) ∧
      M.Reachable ⟨{ s.engine.rotated active with log := log, activeMemtable := some active' },
        s.worker, calls, history⟩ := by
  have hrequired := rotationRequired_of_lt ((hsized s hs).engine.active active hactive) hentries
    hlarge
  have hready := ((hinv s hs).prepare_of_required hshutdown herror hactive hrequired).1 hslot
  exact Reachable.writeFirst hM hinv hs hquiet hworker hidle hready rfl rfl
    (Memtable.replays_new _) rfl hkey hvalue hmax

/-- The worker flushes a task, releases its slot, and needs `write_mutex_`. -/
theorem Reachable.release (hM : HasWorker H fmt M) (hinv : ∀ t, M.Reachable t → t.Invariant H)
    (hs : M.Reachable s) (hquiet : s.Quiet) (hworker : s.worker = .pop) {task : SharedMemtable}
    {rest : List SharedMemtable} (hqueue : s.engine.flushQueue = task :: rest)
    (hflushable : Store.Flushable task.memtable)
    (hbuild : ∃ file, fmt.build task.memtable.table.entries = .ok file) :
    ∃ store through, M.Reachable (s.work (.reclaim through false) { s.engine with
      flushQueue := rest
      store := store
      durable := store.manifest
      immutableMemtable := none }) := by
  obtain ⟨file, hfile⟩ := hbuild
  obtain ⟨store, edit, hprepare⟩ := Store.prepareFlush_returns s.engine.store hflushable hfile
  have hprepared := Reachable.flush hM hs hquiet.isResting hworker hqueue hprepare
  obtain ⟨store', through, -, hcommitted⟩ := Reachable.commitFlush hM hinv hprepared
  exact ⟨store', through, Reachable.clear hM hinv hquiet.isResting hquiet.woken hcommitted⟩

end Schedule

/-- A value of one MiB. -/
@[irreducible] def wideValue : Bytes := List.replicate (2^20) 0

/-- The value has one MiB. -/
theorem length_wideValue : wideValue.length = 2^20 := by
  rw [wideValue, List.length_replicate]

/-- A write that is larger than a target of one MiB, with its node. -/
def wide : Write := .put [1] wideValue

/-- The process behind its opening over an empty directory, with a target of one MiB. -/
def wideRuns : Lts (System Bytes ℕ) (ProcessLabel Bytes ℕ) :=
  (faultless vendoredSum (Sstable.format byteSum.crc32)).startingAt
    (System.first ℕ vendoredSum (2^20) ⟨4, by decide⟩)

/-- Its states are states of a process without failing I/O. -/
theorem faultless_of_wideRuns {s : System Bytes ℕ} (h : wideRuns.Reachable s) :
    (faultless vendoredSum (Sstable.format byteSum.crc32)).Reachable s := by
  refine @Lts.Reachable.invariant _ _ wideRuns
    (faultless vendoredSum (Sstable.format byteSum.crc32)).Reachable ?_ ?_ s h
  · rintro s rfl
    exact .initial (.inl (firstOpened_first _ _ _ _))
  · exact fun s label s' hs hstep => hs.step hstep

/-- Its Memtables keep to the bound on their size. -/
theorem sized_of_wideRuns {s : System Bytes ℕ} (h : wideRuns.Reachable s) : s.Sized := by
  refine @Lts.Reachable.invariant _ _ wideRuns System.Sized ?_ ?_ s h
  · rintro s rfl
    refine System.Sized.constructs (H := vendoredSum) ⟨Store.empty, none, 2^20, ⟨4, by decide⟩,
      fun through h => (Option.not_mem_none through h).elim,
      construct_empty vendoredSum (Sstable.format byteSum.crc32) _ _, rfl, fun _ => rfl⟩
  · exact fun s label s' hs hstep => hs.step hstep.1

/-- Two writers rotate before the worker has the mutex, and a third one waits for the slot. -/
theorem exists_deadlocked : ∃ s : System Bytes ℕ,
    (unstopped vendoredSum (Sstable.format byteSum.crc32)).Reachable s ∧ s.Deadlocked := by
  have hcalls : HasCalls vendoredSum (Sstable.format byteSum.crc32) wideRuns := hasCalls_faultless
  have hworks : HasWorker vendoredSum (Sstable.format byteSum.crc32) wideRuns := hasWorker_faultless
  have hinv : ∀ t, wideRuns.Reachable t → t.Invariant vendoredSum :=
    fun t ht => invariant_of_faultless (faultless_of_wideRuns ht)
  have hsized : ∀ t, wideRuns.Reachable t → t.Sized := fun t => sized_of_wideRuns
  have hkey : wide.key.length ≤ uint32Max := by decide
  have hvalue : (wide.call none).value.length ≤ uint32Max := by
    show wideValue.length ≤ uint32Max
    rw [length_wideValue]
    decide
  have hlarge : 2^20 ≤ wide.candidate.value.length := length_wideValue.ge
  have hentries : ∀ {m : Memtable} {r : Record}, m.Replays [r] → m.entryCount ≠ 0 :=
    fun h hzero => List.cons_ne_nil _ _ (h.entryCount_eq_zero_iff.1 hzero)
  -- A first write, and one that rotates.
  obtain ⟨log₀, active₀, calls₀, h₀, hnext₀, hreplays₀, hquiet₀, hidle₀, hs₀⟩ :=
    @Reachable.writeFirst _ _ _ _ vendoredSum _ wideRuns
      (System.first ℕ vendoredSum (2^20) ⟨4, by decide⟩) hcalls hinv (.initial rfl)
      (fun _ => rfl) rfl 0
      rfl wide _ rfl _ rfl rfl (Memtable.replays_new _) rfl hkey hvalue (by decide)
  replace hnext₀ : log₀.wal.nextSequence = 1 := hnext₀
  obtain ⟨log₁, active₁, calls₁, h₁, hnext₁, hreplays₁, hquiet₁, hidle₁, hs₁⟩ :=
    Reachable.rotate (i := 1) hcalls hinv hsized hs₀ hquiet₀ rfl (hidle₀ 1 (by decide)) (w := wide)
      rfl (hentries hreplays₀) rfl rfl rfl hlarge hkey hvalue (hnext₀.trans_ne (by decide))
  replace hnext₁ : log₁.wal.nextSequence = 2 := hnext₁.trans (congrArg (· + 1) hnext₀)
  -- The worker releases the slot.
  have hsingle := hreplays₀.frozen.entries_singleton
  have hbuild := @Sstable.format_builds byteSum.crc32 active₀.frozen.table.entries
    (hsingle ▸ List.cons_ne_nil _ _) (hsingle ▸ List.pairwise_singleton _ _)
    (hsingle ▸ by decide)
    (hsingle ▸ List.forall_mem_singleton.2 (show MurmurHash3.Fits wide.key by decide))
  obtain ⟨store, through, hs₂⟩ := Reachable.release hworks hinv hs₁ hquiet₁ rfl rfl
    ⟨rfl, hsingle ▸ List.cons_ne_nil _ _⟩ hbuild
  -- Before it has the mutex, another writer rotates.
  have hidle₂ : ∀ j, 2 ≤ j → calls₁ j = .idle := by
    intro j hj
    exact (hidle₁ j (by omega)).trans (hidle₀ j (by omega))
  obtain ⟨log₃, active₃, calls₃, h₃, -, hreplays₃, hquiet₃, hidle₃, hs₃⟩ :=
    Reachable.rotate (i := 2) hcalls hinv hsized hs₂ hquiet₁ rfl (hidle₂ 2 le_rfl) (w := wide)
      rfl (hentries hreplays₁) rfl rfl rfl hlarge hkey hvalue (hnext₁.trans_ne (by decide))
  -- The next one finds the slot occupied.
  have hrequired := rotationRequired_of_lt ((hsized _ hs₃).engine.active active₃ rfl)
    (hentries hreplays₃) hlarge
  have hwaits := ((hinv _ hs₃).prepare_of_required rfl rfl rfl hrequired).2 (Option.some_ne_none _)
  have hasleep := Reachable.sleep (i := 3) hcalls hs₃
    ((hidle₃ 3 (by decide)).trans (hidle₂ 3 (by decide)))
    ⟨fun j _ => (Pc.quiet_of_resting (hquiet₃ j)).1, rfl⟩ hwaits
  refine ⟨_, unstopped_of_faultless (faultless_of_wideRuns hasleep) fun j => ?_,
    ⟨3, wide, System.calls_put _ _ _ _ _⟩, through, rfl⟩
  by_cases hj : j = 3
  · rw [hj, System.calls_put]
    rfl
  · rw [System.calls_put_of_ne _ hj]
    exact (Pc.not_stops_of_resting (hquiet₃ j)).1

/-- Writers and the worker can block each other. -/
theorem rotation_deadlocks : ¬DeadlockFree vendoredSum (Sstable.format byteSum.crc32)
    (unstopped vendoredSum (Sstable.format byteSum.crc32) :
      Lts (System Bytes ℕ) (ProcessLabel Bytes ℕ)) := by
  intro hfree
  obtain ⟨s, hs, hdeadlocked⟩ := exists_deadlocked
  exact (hfree s hs).1 hdeadlocked

end Kronos
