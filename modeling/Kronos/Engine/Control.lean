import Kronos.Engine.System

/-!
# Who is where

What the program counters of a process say about each other, whatever the Memtables hold: a mutex
has one holder (`Exclusive`), and the calls of `shutdown` and the worker pass their stages in order
(`Stages`). No writer is between its check and its insertion once a shutdown is past its barrier,
so that the final Memtable is complete when it is handed over.
-/

namespace Kronos

/-! ## Holders of a mutex -/

/-- A mutex is held if it was locked. -/
@[simp] theorem Mutex.mem_heldIf {m m' : Mutex} {locked : Bool} :
    m' ∈ m.heldIf locked ↔ m' = m ∧ locked = true := by
  cases locked <;> simp [heldIf]

/-- An acquisition adds the mutex to those that a call holds. -/
theorem Pc.held_of_acquires {pc pc' : Pc} {m : Mutex} (h : pc.acquires = some (m, pc')) :
    ∀ m' ∈ pc'.held, m' = m ∨ m' ∈ pc.held := by
  unfold acquires at h
  split at h <;> cases h <;>
    simp [held, WritePoint.held, GetPoint.held, ShutdownPoint.held, or_comm]

/-- The worker holds what it held before, and the mutex that it acquires. -/
theorem WorkerPc.held_of_acquires {pc pc' : WorkerPc} {m : Mutex}
    (h : pc.acquires = some (m, pc')) : ∀ m' ∈ pc'.held, m' = m ∨ m' ∈ pc.held := by
  unfold acquires at h
  split at h <;> cases h <;> simp [held]

/-- A notification releases nothing, and acquires nothing. -/
@[simp] theorem Pc.held_woken (pc : Pc) : pc.woken.held = pc.held := by
  unfold woken
  split <;> rfl

/-- A call that begins holds nothing. -/
@[simp] theorem Request.held_start (request : Request) : request.start.held = [] := by
  cases request <;> rfl

section Steps

variable {F R ι : Type} {H : Hashing} {fmt : TableFormat F R} {i : ι} {e e' : KronosEngine F}
  {h h' : History ι}

/-- A section acquires nothing. -/
theorem CallStep.held_subset {pc pc' : Pc} (hstep : CallStep H fmt i e h pc e' h' pc') :
    ∀ m ∈ pc'.held, m ∈ pc.held := by
  cases hstep with
  | prepare w woken =>
    cases (e.prepareForWriteLocked woken w).1 <;>
      simp [KronosEngine.Prepared.point, Pc.held, WritePoint.held]
  | append w =>
    cases ((w.call none).run H e.log.wal).1 <;>
      simp [WritePoint.behindAppend, Pc.held, WritePoint.held]
  | active key => cases e.lookupActive key <;> simp [Pc.held, GetPoint.held]
  | immutable key snapshot =>
    cases snapshot.bind (·.memtable.lookupEntry key) <;> simp [Pc.held, GetPoint.held]
  | file key f rest winner =>
    cases e.store.lookupFile fmt key winner f <;> simp [Pc.held, GetPoint.held]
  | publish => cases e.shuttingDown <;> simp [Pc.held, ShutdownPoint.held]
  | _ => simp [Pc.held, WritePoint.held, GetPoint.held, ShutdownPoint.held]

/-- Behind a section of a job the worker holds nothing. -/
theorem WorkerPc.held_behind {task : Option SharedMemtable} {next : WorkerPc}
    (hnext : next.held = []) (result : Except Failure Unit) :
    (behind task next result).held = [] := by
  cases result with
  | ok _ => exact hnext
  | error failure => rfl

/-- Behind any section of its own it holds nothing. -/
theorem WorkerStep.held_eq_nil {fault : Option (WorkerFault F)} {pc pc' : WorkerPc}
    (hstep : WorkerStep H fmt e fault pc e' pc') : pc'.held = [] := by
  cases hstep with
  | commitFlush task edit fault => exact WorkerPc.held_behind rfl _
  | clear task flushedThrough => exact WorkerPc.held_behind rfl _
  | reclaim flushedThrough fault => exact WorkerPc.held_behind rfl _
  | checkSlot => cases e.immutableMemtable.isSome <;> rfl
  | commitCompaction edit fault => exact WorkerPc.held_behind rfl _
  | _ => rfl

end Steps

section Exclusive

variable {F R ι : Type} {H : Hashing} {fmt : TableFormat F R} {s s' : System F ι}

/-- A mutex has one holder. -/
structure Exclusive (s : System F ι) : Prop where
  calls : ∀ m i j, m ∈ (s.calls i).held → m ∈ (s.calls j).held → i = j
  worker : ∀ m i, m ∈ (s.calls i).held → m ∉ s.worker.held

/-- What is held behind a step of one thread was held before, or was free. -/
theorem Exclusive.mono (hs : Exclusive s) {m : Mutex} (hfree : s.Free m) (owner : Option ι)
    (hcalls : ∀ m' j, m' ∈ (s'.calls j).held →
      m' ∈ (s.calls j).held ∨ m' = m ∧ owner = some j)
    (hworker : ∀ m', m' ∈ s'.worker.held → m' ∈ s.worker.held ∨ m' = m ∧ owner = none) :
    Exclusive s' := by
  refine ⟨fun m' i j hi hj => ?_, fun m' i hi hw => ?_⟩
  · rcases hcalls m' i hi with hi | ⟨rfl, hi⟩
    · rcases hcalls m' j hj with hj | ⟨rfl, -⟩
      · exact hs.calls m' i j hi hj
      · exact absurd hi (hfree.1 i)
    · rcases hcalls m' j hj with hj | ⟨-, hj⟩
      · exact absurd hj (hfree.1 j)
      · exact Option.some.inj (hi.symm.trans hj)
  · rcases hcalls m' i hi with hi | ⟨rfl, hi⟩
    · rcases hworker m' hw with hw | ⟨rfl, -⟩
      · exact hs.worker m' i hi hw
      · exact absurd hi (hfree.1 i)
    · rcases hworker m' hw with hw | ⟨-, hw⟩
      · exact absurd hw hfree.2
      · rw [hw] at hi
        cases hi

/-- Without an acquisition, less is held. -/
theorem Exclusive.subset (hs : Exclusive s)
    (hcalls : ∀ m j, m ∈ (s'.calls j).held → m ∈ (s.calls j).held)
    (hworker : ∀ m, m ∈ s'.worker.held → m ∈ s.worker.held) : Exclusive s' :=
  ⟨fun m i j hi hj => hs.calls m i j (hcalls m i hi) (hcalls m j hj),
    fun m i hi hw => hs.worker m i (hcalls m i hi) (hworker m hw)⟩

variable [DecidableEq ι]

/-- The program counter of a call behind its move. -/
theorem System.calls_goto (s : System F ι) (i j : ι) (pc : Pc) :
    (s.goto i pc).calls j = if j = i then pc else s.calls j := by
  simp only [goto, Function.update_apply]

/-- A step keeps mutexes exclusive. -/
theorem Exclusive.step {label : ProcessLabel F ι} (hs : Exclusive s)
    (hstep : ProcessStep H fmt s label s') : Exclusive s' := by
  -- What a call that moves holds, if it acquires nothing.
  have hgoto : ∀ (i : ι) (pc : Pc), (∀ m ∈ pc.held, m ∈ (s.calls i).held) →
      ∀ m j, m ∈ ((s.goto i pc).calls j).held → m ∈ (s.calls j).held := by
    intro i pc hpc m j hm
    rw [System.calls_goto] at hm
    split_ifs at hm with hj
    · exact hj ▸ hpc m hm
    · exact hm
  cases hstep with
  | invoke i request hidle =>
    exact hs.subset (hgoto i _ (by simp)) fun _ hm => hm
  -- The mutex was free, so that nobody else holds it.
  | acquire i m pc hacquires hfree =>
    refine hs.mono hfree (some i) (fun m' j hm' => ?_) fun _ hm' => .inl hm'
    rw [System.calls_goto] at hm'
    split_ifs at hm' with hj
    · subst hj
      rcases Pc.held_of_acquires hacquires m' hm' with rfl | hm'
      · exact .inr ⟨rfl, rfl⟩
      · exact .inl hm'
    · exact .inl hm'
  | call i e h pc hcall =>
    exact hs.subset (hgoto i pc hcall.held_subset) fun _ hm => hm
  | notify i hpc =>
    refine hs.subset (fun m j hm => ?_) fun _ hm => hm
    have hwoken : m ∈ ((s.goto i (.shutdown (.barrier false))).calls j).held := by
      rwa [← Pc.held_woken]
    exact hgoto i _ (by simp [Pc.held, ShutdownPoint.held]) m j hwoken
  | join i error hpc hexited =>
    exact hs.subset (hgoto i _ (by simp [Pc.held, ShutdownPoint.held])) fun _ hm => hm
  | wake i => exact hs.subset (hgoto i _ (by simp)) fun _ hm => hm
  | workerAcquire m pc hacquires hfree =>
    refine hs.mono hfree none (fun m' j hm' => .inl hm') fun m' hm' => ?_
    rcases WorkerPc.held_of_acquires hacquires m' hm' with rfl | hm'
    · exact .inr ⟨rfl, rfl⟩
    · exact .inl hm'
  -- A section of the worker ends without its mutex.
  | worker fault e pc hworker =>
    refine hs.subset (fun _ _ hm => hm) fun m hm => ?_
    rw [hworker.held_eq_nil] at hm
    cases hm
  | notifyCleared flushedThrough hpc =>
    refine hs.subset (fun m j hm => Pc.held_woken (s.calls j) ▸ hm) fun m hm => ?_
    cases hm
  | notifyFailed hpc =>
    refine hs.subset (fun m j hm => Pc.held_woken (s.calls j) ▸ hm) fun m hm => ?_
    cases hm

end Exclusive

/-! ## Stages of a shutdown -/

/-- How far a call of `shutdown` has got, if it is the one that publishes the shutdown. -/
def ShutdownPoint.stage : ShutdownPoint → ℕ
  | publish _ => 0
  | notify => 1
  | barrier _ => 2
  | drain _ | asleep => 3
  | close _ => 4
  | join _ => 5
  | report .. => 6

/-- How far a call has got with a shutdown. One that has returned behind its own publication is at
the last stage, and other calls are at none. -/
def Pc.stage : Pc → ℕ
  | shutdown point => point.stage
  | stopped true _ => 7
  | _ => 0

/-- A writer is past its check, and its record has not reached the Memtable. -/
def Pc.writing : Pc → Bool
  | write _ .append | write _ (.insert ..) => true
  | _ => false

/-- The worker has recorded its failure, and goes on to its end. -/
def WorkerPc.ending : WorkerPc → Bool
  | notifyFailed | closeQueue => true
  | _ => false

/-- The worker has not failed. -/
def WorkerPc.healthy : WorkerPc → Bool
  | failed .. | notifyFailed | closeQueue | exited => false
  | _ => true

/-- Waking a call leaves its stage. -/
@[simp] theorem Pc.stage_woken (pc : Pc) : pc.woken.stage = pc.stage := by
  unfold woken
  split <;> rfl

/-- It leaves whether a record is on its way to the Memtable. -/
@[simp] theorem Pc.writing_woken (pc : Pc) : pc.woken.writing = pc.writing := by
  unfold woken
  split <;> rfl

/-- The acquisition of a mutex leaves both. -/
theorem Pc.acquires_stage {pc pc' : Pc} {m : Mutex} (h : pc.acquires = some (m, pc')) :
    pc'.stage = pc.stage ∧ pc'.writing = pc.writing := by
  unfold acquires at h
  split at h <;> cases h <;> exact ⟨rfl, rfl⟩

/-- It leaves whether the worker has recorded a failure, and a worker that has exited acquires
nothing. -/
theorem WorkerPc.acquires_ending {pc pc' : WorkerPc} {m : Mutex}
    (h : pc.acquires = some (m, pc')) :
    pc'.ending = pc.ending ∧ pc' ≠ .exited ∧ pc ≠ .exited := by
  unfold acquires at h
  split at h <;> cases h <;> exact ⟨rfl, nofun, nofun⟩

/-- A writer that is past its check holds `write_mutex_`. -/
theorem Pc.write_mem_held {pc : Pc} (h : pc.writing = true) : Mutex.write ∈ pc.held := by
  unfold writing at h
  split at h
  · exact List.mem_singleton_self _
  · exact .head _
  · cases h

/-- What the flags of an engine and the program counters say about each other. -/
structure Stages {F ι : Type} (s : System F ι) : Prop where
  unique : ∀ i j, 0 < (s.calls i).stage → 0 < (s.calls j).stage → i = j
  published : ∀ i, 0 < (s.calls i).stage → s.engine.shuttingDown = true
  first : s.engine.shuttingDown = true → ∃ i, 0 < (s.calls i).stage
  barrier : ∀ i j, 3 ≤ (s.calls i).stage → (s.calls j).writing = false
  noActive : s.engine.activeMemtable = none → ∃ i, 4 ≤ (s.calls i).stage
  closed : s.engine.queueClosed = true →
    s.engine.backgroundError.isSome ∨ ∃ i, 5 ≤ (s.calls i).stage
  joined : ∀ i, 6 ≤ (s.calls i).stage → s.worker = .exited
  exited : s.worker = .exited → s.engine.queueClosed = true
  recorded : s.worker.ending = true → s.engine.backgroundError.isSome
  failed : s.engine.backgroundError.isSome → s.worker.ending = true ∨ s.worker = .exited

section Stages

variable {F R ι : Type} {H : Hashing} {fmt : TableFormat F R} {s s' : System F ι}

/-- A step that moves no call to another stage keeps the stages. -/
theorem Stages.congr (hs : Stages s) (hflags : s.engine.SameFlags s'.engine)
    (hstage : ∀ j, (s'.calls j).stage = (s.calls j).stage)
    (hbarrier : ∀ i j, 3 ≤ (s.calls i).stage → (s'.calls j).writing = false)
    (hending : s'.worker.ending = s.worker.ending)
    (hexited : s'.worker = .exited ↔ s.worker = .exited) : Stages s' where
  unique i j hi hj := hs.unique i j (hstage i ▸ hi) (hstage j ▸ hj)
  published i hi := hflags.shuttingDown ▸ hs.published i (hstage i ▸ hi)
  first h := by
    obtain ⟨i, hi⟩ := hs.first (hflags.shuttingDown ▸ h)
    exact ⟨i, hstage i ▸ hi⟩
  barrier i j hi := hbarrier i j (hstage i ▸ hi)
  noActive h := by
    obtain ⟨i, hi⟩ := hs.noActive (hflags.active h)
    exact ⟨i, hstage i ▸ hi⟩
  closed h := by
    rw [hflags.backgroundError]
    refine (hs.closed (hflags.queueClosed ▸ h)).imp_right ?_
    rintro ⟨i, hi⟩
    exact ⟨i, hstage i ▸ hi⟩
  joined i hi := hexited.2 (hs.joined i (hstage i ▸ hi))
  exited h := hflags.queueClosed ▸ hs.exited (hexited.1 h)
  recorded h := hflags.backgroundError ▸ hs.recorded (hending ▸ h)
  failed h := by
    rw [hending, hexited]
    exact hs.failed (hflags.backgroundError ▸ h)

variable [DecidableEq ι]

/-- A call that moves on within its stage leaves all stages. -/
theorem System.stage_goto {i : ι} {pc : Pc} (hpc : pc.stage = (s.calls i).stage) (j : ι) :
    ((s.goto i pc).calls j).stage = (s.calls j).stage := by
  rw [System.calls_goto]
  split_ifs with hj
  · rw [hpc, hj]
  · rfl

/-- A call that moves on starts to write only if it says so. -/
theorem System.writing_goto {i : ι} {pc : Pc}
    (hpc : pc.writing = true → (s.calls i).writing = true) (j : ι)
    (h : ((s.goto i pc).calls j).writing = true) : (s.calls j).writing = true := by
  rw [System.calls_goto] at h
  split_ifs at h with hj
  · rw [hj]
    exact hpc h
  · exact h

/-- A call that moves within its stage, without passing its check, keeps the stages. -/
theorem Stages.goto (hs : Stages s) {i : ι} {pc : Pc} {e : KronosEngine F} {h : History ι}
    (hflags : s.engine.SameFlags e) (hstage : pc.stage = (s.calls i).stage)
    (hwriting : pc.writing = true → (s.calls i).writing = true) :
    Stages { s.goto i pc with engine := e, history := h } := by
  refine hs.congr hflags (System.stage_goto hstage) (fun k j hk => ?_) rfl .rfl
  have hnot := hs.barrier k j hk
  rw [Bool.eq_false_iff] at hnot ⊢
  exact fun hj => hnot (System.writing_goto hwriting j hj)

/-- The call of `shutdown` that moves to another stage. -/
theorem Stages.only (hs : Stages s) {i : ι} (hi : 0 < (s.calls i).stage) {pc : Pc} {j : ι}
    (hj : 0 < ((s.goto i pc).calls j).stage) : j = i := by
  by_contra hne
  rw [System.calls_goto, if_neg hne] at hj
  exact hne (hs.unique j i hj hi)

/-- A call of `shutdown` that moves on to a next stage keeps the stages, if what the next stage
claims is so. -/
theorem Stages.advance (hs : Stages s) {i : ι} {pc : Pc} {e : KronosEngine F} {h : History ι}
    (hi : 0 < (s.calls i).stage) (hle : (s.calls i).stage ≤ pc.stage) (hpc : pc.writing = false)
    (hshuttingDown : e.shuttingDown = s.engine.shuttingDown)
    (hbackgroundError : e.backgroundError = s.engine.backgroundError)
    (hopen : s.engine.queueClosed = true → e.queueClosed = true)
    (hactive : e.activeMemtable = none → s.engine.activeMemtable = none ∨ 4 ≤ pc.stage)
    (hclosed : e.queueClosed = true → s.engine.queueClosed = true ∨ 5 ≤ pc.stage)
    (hbarrier : 3 ≤ pc.stage → ∀ j, j ≠ i → (s.calls j).writing = false)
    (hjoined : 6 ≤ pc.stage → s.worker = .exited) :
    Stages { s.goto i pc with engine := e, history := h } := by
  have hself : (s.goto i pc).calls i = pc := by rw [System.calls_goto, if_pos rfl]
  -- The call is the only one in a stage, and goes on to a later one.
  have hle' : ∀ j, (s.calls j).stage ≤ ((s.goto i pc).calls j).stage := by
    intro j
    rw [System.calls_goto]
    split_ifs with hj
    · rw [hj]
      exact hle
    · exact le_rfl
  have honly : ∀ {j}, 0 < ((s.goto i pc).calls j).stage → j = i := fun hj => hs.only hi hj
  refine ⟨fun j k hj hk => (honly hj).trans (honly hk).symm, fun j hj => ?_, fun hflag => ?_,
    fun j k hj => ?_, fun hnone => ?_, fun hqueue => ?_, fun j hj => ?_, fun hexited => ?_,
    fun hending => ?_, fun herror => ?_⟩
  · exact hshuttingDown.trans (hs.published i hi)
  · exact ⟨i, hi.trans_le (hle' i)⟩
  · -- Behind the barrier no writer is past its check.
    have hstage : 3 ≤ pc.stage := by
      rw [honly (Nat.zero_lt_of_lt hj)] at hj
      rwa [← hself]
    show ((s.goto i pc).calls k).writing = false
    rw [System.calls_goto]
    split_ifs with hk
    · exact hpc
    · exact hbarrier hstage k hk
  · -- Without an active Memtable the last one has been handed over.
    rcases hactive hnone with hnone | hstage
    · obtain ⟨j, hj⟩ := hs.noActive hnone
      exact ⟨j, hj.trans (hle' j)⟩
    · exact ⟨i, by rwa [← hself] at hstage⟩
  · -- The queue is closed by a failure or by this call.
    rcases hclosed hqueue with hqueue | hstage
    · refine (hs.closed hqueue).imp (fun herror => hbackgroundError ▸ herror) ?_
      rintro ⟨j, hj⟩
      exact ⟨j, hj.trans (hle' j)⟩
    · exact .inr ⟨i, by rwa [← hself] at hstage⟩
  · refine hjoined ?_
    rw [honly (Nat.zero_lt_of_lt hj)] at hj
    rwa [← hself]
  · exact hopen (hs.exited hexited)
  · exact hbackgroundError ▸ hs.recorded hending
  · exact hs.failed (hbackgroundError ▸ herror)

/-- A section of a call keeps the stages. -/
theorem Stages.call (hs : Stages s) (hexclusive : Exclusive s) {i : ι} {e : KronosEngine F}
    {h : History ι} {pc : Pc} (hstep : CallStep H fmt i s.engine s.history (s.calls i) e h pc) :
    Stages { s.goto i pc with engine := e, history := h } := by
  generalize hcall : s.calls i = pc₀ at hstep
  cases hstep with
  | prepare w woken =>
    have hflags := (s.engine.onlyMemtables_prepare woken w).toSameFlags
    cases hready : (s.engine.prepareForWriteLocked woken w).1 with
    | ready =>
      -- The check passes only as long as no shutdown is published.
      have hnone : ∀ j, ¬3 ≤ (s.calls j).stage := by
        intro j hj
        have hpublished := hs.published j (Nat.zero_lt_of_lt hj)
        rw [(KronosEngine.flags_of_ready hready).1] at hpublished
        cases hpublished
      refine hs.congr hflags (System.stage_goto (hcall ▸ rfl)) (fun k j hk => ?_) rfl .rfl
      exact absurd hk (hnone k)
    | waits => exact hs.goto hflags (hcall ▸ rfl) nofun
    | threw failure => exact hs.goto hflags (hcall ▸ rfl) nofun
  | append w =>
    refine hs.goto ⟨rfl, rfl, rfl, id⟩ ?_ fun _ => hcall ▸ rfl
    cases ((w.call none).run H s.engine.log.wal).1 <;> exact hcall ▸ rfl
  | insert w sequence =>
    exact hs.goto (s.engine.onlyMemtables_insert w sequence).toSameFlags (hcall ▸ rfl) nofun
  | leave w result => exact hs.goto (.refl _) (hcall ▸ rfl) nofun
  | active key =>
    cases s.engine.lookupActive key <;> exact hs.goto (.refl _) (hcall ▸ rfl) nofun
  | immutable key snapshot =>
    cases snapshot.bind (·.memtable.lookupEntry key) <;>
      exact hs.goto (.refl _) (hcall ▸ rfl) nofun
  | copy key => exact hs.goto (.refl _) (hcall ▸ rfl) nofun
  | file key f rest winner =>
    cases s.engine.store.lookupFile fmt key winner f <;>
      exact hs.goto (.refl _) (hcall ▸ rfl) nofun
  | answer key winner => exact hs.goto (.refl _) (hcall ▸ rfl) nofun
  | publish =>
    cases hflag : s.engine.shuttingDown with
    | true => exact hs.goto ⟨rfl, rfl, hflag.symm, id⟩ (hcall ▸ rfl) nofun
    | false =>
      -- No other call is in a stage.
      have hnone : ∀ j, (s.calls j).stage = 0 := by
        intro j
        refine Nat.eq_zero_of_not_pos fun hj => ?_
        rw [hs.published j hj] at hflag
        cases hflag
      have hstage : ∀ j, ((s.goto i (.shutdown .notify)).calls j).stage =
          if j = i then 1 else 0 := by
        intro j
        rw [System.calls_goto]
        split_ifs
        · rfl
        · exact hnone j
      have honly : ∀ {j}, 0 < ((s.goto i (.shutdown .notify)).calls j).stage → j = i := by
        intro j hj
        by_contra hne
        rw [hstage, if_neg hne] at hj
        exact absurd hj (lt_irrefl 0)
      have hone : ∀ {j n}, 2 ≤ n → ¬n ≤ ((s.goto i (.shutdown .notify)).calls j).stage := by
        intro j n hn hj
        rw [hstage] at hj
        split_ifs at hj <;> omega
      refine ⟨fun j k hj hk => (honly hj).trans (honly hk).symm, fun _ _ => rfl,
        fun _ => ⟨i, by simp [System.calls_goto, Pc.stage, ShutdownPoint.stage]⟩,
        fun j k hj => absurd hj (hone (by decide)),
        fun hactive => ?_, fun hqueue => ?_, fun j hj => absurd hj (hone (by decide)),
        hs.exited, hs.recorded, hs.failed⟩
      · obtain ⟨j, hj⟩ := hs.noActive hactive
        rw [hnone j] at hj
        cases hj
      · refine (hs.closed hqueue).imp_right ?_
        rintro ⟨j, hj⟩
        rw [hnone j] at hj
        cases hj
  | barrier =>
    refine hs.advance (hcall ▸ Nat.two_pos) (hcall ▸ Nat.le_succ 2) rfl rfl rfl id .inl .inl
      (fun _ j hj => ?_) nofun
    -- A writer that is past its check would hold the mutex.
    rw [Bool.eq_false_iff]
    intro hwriting
    refine hj (hexclusive.calls .write j i (Pc.write_mem_held hwriting) ?_)
    rw [hcall]
    exact .head _
  | wait hwait => exact hs.goto (.refl _) (hcall ▸ rfl) nofun
  | drain hgo =>
    obtain ⟨hqueue, herror, hflag, -⟩ := s.engine.scheduleFinal_frame
    refine hs.advance (hcall ▸ Nat.succ_pos 2) (hcall ▸ Nat.le_succ 3) rfl hflag herror ?_
      (fun _ => .inr le_rfl) ?_ (fun _ j _ => ?_) nofun
    · exact fun h => hqueue.trans h
    · exact fun h => .inl (hqueue.symm.trans h)
    · exact hs.barrier i j (hcall ▸ le_rfl)
  | close error =>
    refine hs.advance (hcall ▸ Nat.succ_pos 3) (hcall ▸ Nat.le_succ 4) rfl rfl rfl (fun _ => rfl)
      .inl (fun _ => .inr le_rfl) (fun _ j _ => ?_) nofun
    exact hs.barrier i j (hcall ▸ Nat.le_succ 3)
  | report error =>
    refine hs.advance (hcall ▸ Nat.succ_pos 5) (hcall ▸ Nat.le_succ 6) rfl rfl rfl id .inl .inl
      (fun _ j _ => ?_) fun _ => ?_
    · exact hs.barrier i j (hcall ▸ Nat.le_add_left 3 3)
    · exact hs.joined i (hcall ▸ le_rfl)

omit [DecidableEq ι] in
/-- A step of the worker keeps the stages. -/
theorem Stages.work (hs : Stages s) {fault : Option (WorkerFault F)} {e : KronosEngine F}
    {pc : WorkerPc} (hstep : WorkerStep H fmt s.engine fault s.worker e pc) :
    Stages { s with engine := e, worker := pc } := by
  -- A section that leaves the flags, and does not lead to the end of the worker.
  have hquiet : ∀ {e : KronosEngine F} {pc : WorkerPc}, s.engine.SameFlags e →
      s.worker.ending = false → s.worker ≠ .exited → pc.ending = false → pc ≠ .exited →
      Stages { s with engine := e, worker := pc } := by
    intro e pc hflags hending hexited hending' hexited'
    exact hs.congr hflags (fun _ => rfl) hs.barrier (hending'.trans hending.symm)
      ⟨fun h => absurd h hexited', fun h => absurd h hexited⟩
  -- A job that fails leads to the handler, which has recorded nothing yet.
  have hbehind : ∀ {task : Option SharedMemtable} {next : WorkerPc} (result : Except Failure Unit),
      next.ending = false → next ≠ .exited →
      (WorkerPc.behind task next result).ending = false ∧
        WorkerPc.behind task next result ≠ .exited := by
    rintro task next (failure | _) hending hexited
    · exact ⟨rfl, nofun⟩
    · exact ⟨hending, hexited⟩
  generalize hworker : s.worker = pc₀ at hstep
  cases hstep with
  | drained hempty hclosed =>
    -- Nobody has joined a worker that is still at its pop.
    have hrunning : ∀ j, ¬6 ≤ (s.calls j).stage := by
      intro j hj
      rw [hs.joined j hj] at hworker
      cases hworker
    refine { hs with
      joined := fun j hj => absurd hj (hrunning j)
      exited := fun _ => hclosed
      recorded := nofun
      failed := fun _ => .inr rfl }
  | commitFlush task edit fault =>
    have h := @hbehind (some task) (.clear task (edit.persistedThrough.getD 0) false)
      (s.engine.commitEdit edit fault).1 rfl nofun
    exact hquiet (s.engine.sameFlags_commit edit fault) (hworker ▸ rfl) (hworker ▸ nofun) h.1 h.2
  | clear task flushedThrough =>
    have h := @hbehind (some task) (.notifyCleared flushedThrough)
      (s.engine.clearImmutable task).1 rfl nofun
    exact hquiet (s.engine.onlyMemtables_clear task).toSameFlags (hworker ▸ rfl)
      (hworker ▸ nofun) h.1 h.2
  | reclaim flushedThrough fault =>
    have h := @hbehind none (.checkSlot false)
      (Wal.reclaimThrough H flushedThrough fault s.engine.log).1 rfl nofun
    exact hquiet ⟨rfl, rfl, rfl, id⟩ (hworker ▸ rfl) (hworker ▸ nofun) h.1 h.2
  | checkSlot =>
    cases s.engine.immutableMemtable.isSome <;>
      exact hquiet (.refl _) (hworker ▸ rfl) (hworker ▸ nofun) rfl nofun
  | commitCompaction edit fault =>
    have h := @hbehind none .pop (s.engine.commitEdit edit fault).1 rfl nofun
    exact hquiet (s.engine.sameFlags_commit edit fault) (hworker ▸ rfl) (hworker ▸ nofun) h.1 h.2
  | record task failure =>
    -- The first failure is kept, so that there is one in either case.
    have hsome : (s.engine.recordFailure failure).backgroundError.isSome := by
      unfold KronosEngine.recordFailure
      split_ifs with hnone
      · rfl
      · simpa [Option.isSome_iff_ne_none] using hnone
    have hsame : ∀ {α : Type} (f : KronosEngine F → α), (∀ e error,
        f { e with backgroundError := error } = f e) →
        f (s.engine.recordFailure failure) = f s.engine := by
      intro α f hf
      unfold KronosEngine.recordFailure
      split_ifs
      · exact hf _ _
      · rfl
    have hflag := hsame (·.shuttingDown) fun _ _ => rfl
    have hactive := hsame (·.activeMemtable) fun _ _ => rfl
    have hexited : ∀ j, ¬6 ≤ (s.calls j).stage := by
      intro j hj
      rw [hs.joined j hj] at hworker
      cases hworker
    exact ⟨hs.unique, fun j hj => hflag.trans (hs.published j hj),
      fun h => hs.first (hflag.symm.trans h), hs.barrier,
      fun h => hs.noActive (hactive.symm.trans h), fun _ => .inl hsome,
      fun j hj => absurd hj (hexited j), nofun, fun _ => hsome, fun _ => .inl rfl⟩
  -- The worker closes the queue behind the failure that it has recorded.
  | closeQueue =>
    have herror := hs.recorded (hworker ▸ rfl)
    exact ⟨hs.unique, hs.published, hs.first, hs.barrier, hs.noActive, fun _ => .inl herror,
      fun _ _ => rfl, fun _ => rfl, nofun, fun _ => .inr rfl⟩
  | _ => exact hquiet ⟨rfl, rfl, rfl, id⟩ (hworker ▸ rfl) (hworker ▸ nofun) rfl nofun

omit [DecidableEq ι] in
/-- Waking every call keeps the stages. -/
theorem Stages.wakeAll (hs : Stages s) : Stages s.wakeAll :=
  hs.congr (.refl _) (fun j => Pc.stage_woken (s.calls j))
    (fun i j hi => (Pc.writing_woken (s.calls j)).trans (hs.barrier i j hi)) rfl .rfl

/-- A step keeps the stages. -/
theorem Stages.step {label : ProcessLabel F ι} (hs : Stages s) (hexclusive : Exclusive s)
    (hstep : ProcessStep H fmt s label s') : Stages s' := by
  cases hstep with
  | invoke i request hidle =>
    cases request <;> exact hs.goto (.refl _) (hidle ▸ rfl) nofun
  | acquire i m pc hacquires hfree =>
    obtain ⟨hstage, hwriting⟩ := Pc.acquires_stage hacquires
    exact hs.goto (.refl _) hstage fun h => hwriting ▸ h
  | call i e h pc hcall => exact hs.call hexclusive hcall
  | notify i hpc =>
    refine Stages.wakeAll (hs.advance (h := s.history) (hpc ▸ Nat.one_pos) (hpc ▸ Nat.le_succ 1)
      rfl rfl rfl id .inl .inl nofun nofun)
  | join i error hpc hexited =>
    exact hs.advance (h := s.history) (hpc ▸ Nat.succ_pos 4) (hpc ▸ Nat.le_succ 5) rfl rfl rfl id
      .inl .inl (fun _ j _ => hs.barrier i j (hpc ▸ Nat.le_add_left 3 2)) fun _ => hexited
  | wake i =>
    exact hs.goto (.refl _) (Pc.stage_woken _) fun h => (Pc.writing_woken _).symm.trans h
  | workerAcquire m pc hacquires hfree =>
    obtain ⟨hending, hpc, hworker⟩ := WorkerPc.acquires_ending hacquires
    exact hs.congr (.refl _) (fun _ => rfl) hs.barrier hending
      ⟨fun h => absurd h hpc, fun h => absurd h hworker⟩
  | worker fault e pc hworker => exact hs.work hworker
  | notifyCleared flushedThrough hpc =>
    refine hs.wakeAll.congr (.refl _) (fun _ => rfl) hs.wakeAll.barrier (hpc ▸ rfl) ?_
    exact ⟨nofun, fun h => nomatch hpc.symm.trans h⟩
  | notifyFailed hpc =>
    refine hs.wakeAll.congr (.refl _) (fun _ => rfl) hs.wakeAll.barrier (hpc ▸ rfl) ?_
    exact ⟨nofun, fun h => nomatch hpc.symm.trans h⟩

end Stages

end Kronos
