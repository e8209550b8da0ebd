import Kronos.Engine.Backpressure
import Kronos.Engine.Drained

/-!
# What a failure of the worker leaves

A job of the worker can fail anywhere up to its commit, and in its commit. The failure is recorded,
everybody who sleeps is woken, and the worker ends. The records that are not in the SSTables are in
the log and in a Memtable still, so lookups answer as before, and opening the directory again brings
everything back (`System.Survives`). A write that has not passed its check by then ends with the
failure, and has no record (`Pc.Refused`), and the first shutdown reports it (`Pc.Remembers`).
-/

namespace Kronos

open KronosEngine

/-! ## Writers behind a failure -/

/-- With a failure recorded, the check of a writer throws: this failure, unless the engine is
shutting down. -/
theorem KronosEngine.prepare_of_failed {F : Type} {e : KronosEngine F} {failure : Failure}
    (herror : e.backgroundError = some failure) (woken : Bool) (w : Write) :
    e.prepareForWriteLocked woken w =
      (.threw (if e.shuttingDown then shuttingDownFailure else failure), e) := by
  have hgo : e.writerMayGoOn = true := by simp [writerMayGoOn, herror]
  unfold prepareForWriteLocked
  rw [hgo, herror, Bool.not_true, Bool.and_false, if_neg Bool.false_ne_true]
  cases e.shuttingDown <;> rfl

/-- The failures with which a writer can end, when this one is recorded. -/
def KronosEngine.Throws {F : Type} (e : KronosEngine F) (failure failure' : Failure) : Prop :=
  failure' = failure ∨ failure' = shuttingDownFailure ∧ e.shuttingDown = true

/-- A write that has not passed its check, or that has ended with a failure. -/
def Pc.Refused (Throws : Failure → Prop) : Pc → Prop
  | write _ .enter | write _ (.prepare ..) | write _ .asleep => True
  | write _ (.leave result) | wrote _ result => ∃ failure, result = .error failure ∧ Throws failure
  | _ => False

namespace Pc

variable {P : Failure → Prop} {pc pc' : Pc}

/-- A write that was refused with some failures was refused with more of them. -/
theorem Refused.mono {Q : Failure → Prop} (h : pc.Refused P)
    (hmono : ∀ failure, P failure → Q failure) : pc.Refused Q := by
  have hresult : ∀ {result : Except Failure Unit},
      (∃ failure, result = .error failure ∧ P failure) →
        ∃ failure, result = .error failure ∧ Q failure := by
    rintro result ⟨failure, hresult, hP⟩
    exact ⟨failure, hresult, hmono failure hP⟩
  cases pc with
  | write w point =>
    cases point with
    | leave result => exact hresult h
    | append => exact h
    | insert => exact h
    | _ => trivial
  | wrote w result => exact hresult h
  | _ => exact h

/-- Waking a write does not let it pass its check. -/
theorem Refused.woken (h : pc.Refused P) : pc.woken.Refused P := by
  cases pc with
  | write w point => cases point <;> trivial
  | shutdown => cases h
  | _ => exact h

/-- Nor does the acquisition of a mutex. -/
theorem Refused.acquires (h : pc.Refused P) {m : Mutex} (hacquires : pc.acquires = some (m, pc')) :
    pc'.Refused P := by
  unfold Pc.acquires at hacquires
  split at hacquires <;> cases hacquires <;> trivial

/-- A write that is refused has no record. -/
theorem Refused.progress (h : pc.Refused P) : pc.progress = .absent := by
  cases pc with
  | write w point =>
    cases point with
    | leave result =>
      obtain ⟨failure, rfl, -⟩ := h
      rfl
    | append => cases h
    | insert => cases h
    | _ => rfl
  | wrote w result =>
    obtain ⟨failure, rfl, -⟩ := h
    rfl
  | _ => cases h

end Pc

section Refusals

variable {F R ι : Type} [DecidableEq ι] {H : Hashing} {fmt : TableFormat F R} {s s' : System F ι}

/-- A shutdown that is published stays so. -/
theorem ProcessStep.shuttingDown {label : ProcessLabel F ι} (hstep : ProcessStep H fmt s label s')
    (h : s.engine.shuttingDown = true) : s'.engine.shuttingDown = true := by
  cases hstep with
  | call i e h' pc hcall =>
    generalize s.calls i = pc₀ at hcall
    cases hcall with
    | prepare w woken => exact (s.engine.onlyMemtables_prepare woken w).shuttingDown.trans h
    | insert w sequence => exact (s.engine.onlyMemtables_insert w sequence).shuttingDown.trans h
    | publish => rfl
    | drain => exact s.engine.scheduleFinal_frame.2.2.1.trans h
    | _ => exact h
  | worker fault e pc hwork =>
    generalize s.worker = worker at hwork
    cases hwork with
    | commitFlush task edit fault =>
      exact (s.engine.sameFlags_commit edit fault).shuttingDown.trans h
    | commitCompaction edit fault =>
      exact (s.engine.sameFlags_commit edit fault).shuttingDown.trans h
    | clear task flushedThrough => exact (s.engine.onlyMemtables_clear task).shuttingDown.trans h
    | record task failure =>
      show (s.engine.recordFailure failure).shuttingDown = true
      unfold recordFailure
      split_ifs <;> exact h
    | _ => exact h
  | _ => exact h

/-- **A write that is refused stays so.** -/
theorem ProcessStep.refused {label : ProcessLabel F ι} (hstep : ProcessStep H fmt s label s')
    {failure : Failure} (herror : s.engine.backgroundError = some failure) {i : ι}
    (h : (s.calls i).Refused (s.engine.Throws failure)) :
    (s'.calls i).Refused (s'.engine.Throws failure) := by
  have hthrows : ∀ failure', s.engine.Throws failure failure' →
      s'.engine.Throws failure failure' :=
    fun _ => Or.imp_right (And.imp_right hstep.shuttingDown)
  cases hstep.moves i with
  | stays hsame => exact hsame ▸ h.mono hthrows
  | woken hwoken => exact hwoken ▸ h.woken.mono hthrows
  | begins request hidle _ =>
    rw [hidle] at h
    cases h
  | acquires m pc hacquires hpc => exact hpc ▸ (h.acquires hacquires).mono hthrows
  | runs pc hcall hpc =>
    rw [hpc]
    generalize s.calls i = pc₀ at hcall h
    generalize s'.engine = e', s'.history = h' at hcall hthrows
    cases hcall with
    -- The check finds the failure, or the shutdown.
    | prepare w woken =>
      rw [prepare_of_failed herror] at hthrows ⊢
      refine ⟨_, rfl, ?_⟩
      split_ifs with hshutdown
      · exact hthrows _ (.inr ⟨rfl, hshutdown⟩)
      · exact hthrows _ (.inl rfl)
    | leave w result => exact h.mono hthrows
    | _ => cases h
  | notifies hpc _ =>
    rw [hpc] at h
    cases h
  | joins error hpc _ _ =>
    rw [hpc] at h
    cases h

end Refusals

/-! ## Sleepers behind a failure -/

/-- Nobody sleeps when a failure is recorded, but before the notification. -/
def System.Awake {F ι : Type} (s : System F ι) : Prop :=
  s.engine.backgroundError.isSome → ∀ i, (s.calls i).sleeping = true → s.worker = .notifyFailed

namespace Pc

/-- A call that was woken does not sleep. -/
theorem sleeping_woken (pc : Pc) : pc.woken.sleeping = false := by
  cases pc with
  | write w point => cases point <;> rfl
  | shutdown point => cases point <;> rfl
  | _ => rfl

/-- Nor does one that acquires a mutex. -/
theorem sleeping_of_acquires {pc pc' : Pc} {m : Mutex} (h : pc.acquires = some (m, pc')) :
    pc'.sleeping = false := by
  unfold acquires at h
  split at h <;> cases h <;> rfl

end Pc

section Awake

variable {F R ι : Type} {H : Hashing} {fmt : TableFormat F R} {s s' : System F ι}

/-- A call falls asleep only while no failure is recorded. -/
theorem CallStep.error_of_sleeping {i : ι} {e e' : KronosEngine F} {h h' : History ι} {pc pc' : Pc}
    (hstep : CallStep H fmt i e h pc e' h' pc') (hsleeping : pc'.sleeping = true) :
    e'.backgroundError = none := by
  obtain ⟨w, woken, rfl, rfl, rfl⟩ | ⟨hwait, rfl, rfl⟩ := hstep.checks (.inr hsleeping)
  · cases herror : e.backgroundError with
    | none => exact (e.onlyMemtables_prepare woken w).backgroundError.trans herror
    | some failure =>
      rw [prepare_of_failed herror] at hsleeping
      cases hsleeping
  · unfold shutdownMayGoOn at hwait
    simpa using (Bool.or_eq_false_iff.1 hwait).2

/-- A section of the worker that records a failure goes on to the notification. -/
theorem WorkerStep.notifies {e e' : KronosEngine F} {fault : Option (WorkerFault F)}
    {pc pc' : WorkerPc} (hstep : WorkerStep H fmt e fault pc e' pc')
    (hnone : e.backgroundError = none) (herror : e'.backgroundError.isSome) :
    pc' = .notifyFailed := by
  have hsame : e'.backgroundError = e.backgroundError → pc' = .notifyFailed := by
    intro hsame
    rw [hsame, hnone] at herror
    cases herror
  cases hstep with
  | record => rfl
  | commitFlush task edit fault => exact hsame (e.sameFlags_commit edit fault).backgroundError
  | commitCompaction edit fault => exact hsame (e.sameFlags_commit edit fault).backgroundError
  | clear task flushedThrough => exact hsame (e.onlyMemtables_clear task).backgroundError
  | _ => exact hsame rfl

variable [DecidableEq ι]

/-- No step lets a call sleep behind a recorded failure. -/
theorem System.Awake.step (ha : s.Awake) {label : ProcessLabel F ι}
    (hstep : ProcessStep H fmt s label s') : s'.Awake := by
  -- A call that moves and does not sleep.
  have hgoto : ∀ {i : ι} {pc : Pc}, pc.sleeping = false → (s.goto i pc).Awake := by
    intro i pc hpc herror j hj
    rw [System.calls_goto] at hj
    split_ifs at hj
    · rw [hpc] at hj
      cases hj
    · exact ha herror j hj
  have hwoken : ∀ {pc : Pc} {P : Prop}, pc.woken.sleeping = true → P := by
    intro pc P hpc
    rw [Pc.sleeping_woken] at hpc
    cases hpc
  cases hstep with
  | invoke i request _ => cases request <;> exact hgoto rfl
  | acquire i m pc hacquires _ => exact hgoto (Pc.sleeping_of_acquires hacquires)
  | call i e h pc hcall =>
    intro herror j hj
    replace hj : ((s.goto i pc).calls j).sleeping = true := hj
    rw [System.calls_goto] at hj
    split_ifs at hj
    · -- Who falls asleep has found no failure.
      replace herror : e.backgroundError.isSome = true := herror
      rw [hcall.error_of_sleeping hj] at herror
      cases herror
    · exact ha (hcall.backgroundError ▸ herror) j hj
  | notify i _ => exact fun _ j hj => hwoken hj
  | join i error _ _ => exact hgoto rfl
  | wake i => exact hgoto (Pc.sleeping_woken _)
  | workerAcquire m pc hacquires _ =>
    intro herror j hj
    rw [ha herror j hj] at hacquires
    cases hacquires
  | worker fault e pc hwork =>
    intro herror j hj
    -- The worker that records a failure is the one that notifies next.
    cases hnone : s.engine.backgroundError with
    | none => exact hwork.notifies hnone herror
    | some failure =>
      rw [ha (hnone ▸ rfl) j hj] at hwork
      cases hwork
  | notifyCleared through _ => exact fun _ j hj => hwoken hj
  | notifyFailed _ => exact fun _ j hj => hwoken hj

omit [DecidableEq ι] in
/-- Where the worker stands that has failed. -/
theorem System.Failed.worker (hf : s.Failed) (hs : Stages s) :
    (∃ task failure locked, s.worker = .failed task failure locked) ∨ s.worker = .notifyFailed ∨
      s.worker = .closeQueue ∨ s.worker = .exited := by
  refine hf.imp_right fun herror => ?_
  rcases hs.failed herror with hending | hexited
  · generalize s.worker = worker at hending
    cases worker with
    | notifyFailed => exact .inl rfl
    | closeQueue => exact .inr (.inl rfl)
    | _ => cases hending
  · exact .inr (.inr hexited)

/-- **Nobody is held up by a failure**: as long as a call has not returned, some thread can go
on. -/
theorem System.mayProceed_of_failed (hs : Stages s) (ha : s.Awake) (hf : s.Failed) {i : ι}
    (hi : (s.calls i).underWay = true) : s.MayProceed H fmt := by
  by_contra hstuck
  obtain ⟨hworker, hfree, hsleeps⟩ := System.held_of_stuck hstuck
  -- Between the failure and its end, the worker can always go on.
  have hexited : s.worker = .exited := by
    by_contra hne
    refine hstuck (System.mayProceed_of_worker ?_ hne fun hpop => ?_)
    · rcases hf.worker hs with ⟨task, failure, locked, hfailed⟩ | hnotify | hclose | hexited
      · cases locked with
        | false =>
          -- It needs a mutex that nobody holds.
          refine absurd ⟨_, _, .workerAcquire .state (.failed task failure true) ?_
            (hfree .state nofun), trivial⟩ hstuck
          exact hfailed ▸ rfl
        | true =>
          rw [hfailed] at hworker
          cases hworker
      · exact hnotify ▸ rfl
      · exact hclose ▸ rfl
      · exact absurd hexited hne
    · rcases hf.worker hs with ⟨task, failure, locked, h⟩ | h | h | h <;> cases hpop.symm.trans h
  have herror : s.engine.backgroundError.isSome := by
    refine hf.resolve_left ?_
    rintro ⟨task, failure, locked, hfailed⟩
    cases hexited.symm.trans hfailed
  -- Behind the notification nobody sleeps.
  have hawake : ∀ j, (s.calls j).sleeping = false := by
    intro j
    rw [Bool.eq_false_iff]
    exact fun hj => nomatch hexited.symm.trans (ha herror j hj)
  -- So nobody holds `write_mutex_` either.
  have hwrite : s.Free .write := by
    refine ⟨fun j hj => ?_, hworker ▸ List.not_mem_nil⟩
    obtain ⟨w, hasleep⟩ := hsleeps j (List.ne_nil_of_mem hj)
    have hnot := hawake j
    rw [hasleep] at hnot
    cases hnot
  -- All mutexes are free, and the call has a next section.
  cases hnext : (s.calls i).acquires with
  | some next =>
    obtain ⟨m, pc⟩ := next
    by_cases hm : m = .write
    · exact hstuck ⟨_, _, .acquire i m pc hnext (hm ▸ hwrite), trivial⟩
    · exact hstuck ⟨_, _, .acquire i m pc hnext (hfree m hm), trivial⟩
  | none =>
    rcases @CallStep.exists_of_underWay _ _ _ H fmt i s.engine s.history _ hi hnext with
      hsleeping | (hnotify | ⟨error, hjoin⟩) | ⟨e, h, pc, hstep⟩
    · rw [hawake i] at hsleeping
      cases hsleeping
    · exact hstuck ⟨_, _, .notify i hnotify, trivial⟩
    · exact hstuck ⟨_, _, .join i error hjoin hexited, trivial⟩
    · exact hstuck ⟨_, _, .call i e h pc hstep, trivial⟩

end Awake

/-! ## What a shutdown reports -/

/-- A shutdown has no failure of its own to report, and the first one that has returned has reported
the failure of the worker, if there is one. -/
def Pc.Remembers {F : Type} (e : KronosEngine F) : Pc → Prop
  | shutdown (.close error) | shutdown (.join error) | shutdown (.report error _) => error = none
  | stopped true result => result = shutdownResult none e.backgroundError
  | _ => True

section Remembers

variable {F R ι : Type} [DecidableEq ι] {H : Hashing} {fmt : TableFormat F R} {s s' : System F ι}

/-- A step keeps what a shutdown reports. -/
theorem ProcessStep.remembers {label : ProcessLabel F ι} (hs : s.Invariant H)
    (hstep : ProcessStep H fmt s label s') {i : ι} (h : (s.calls i).Remembers s.engine) :
    (s'.calls i).Remembers s'.engine := by
  -- A result of a shutdown is kept, since no failure is recorded once the worker has exited.
  have hsame : ∀ {pc : Pc}, s.calls i = pc → pc.Remembers s'.engine := by
    rintro pc rfl
    generalize hpc : s.calls i = pc at h
    cases pc with
    | stopped first result =>
      cases first with
      | false => trivial
      | true =>
        have hexited := hs.stages.joined i (hpc ▸ Nat.le_succ 6)
        show result = shutdownResult none s'.engine.backgroundError
        rw [hstep.backgroundError_of_exited hexited]
        exact h
    | shutdown point => cases point <;> trivial
    | _ => trivial
  cases hstep.moves i with
  | stays hstays => exact hstays ▸ hsame rfl
  | woken hwoken =>
    rw [hwoken]
    generalize hpc : s.calls i = pc
    have h' := hsame hpc
    cases pc with
    | write w point => cases point <;> trivial
    | shutdown point => cases point <;> trivial
    | _ => exact h'
  | begins request _ hstart =>
    rw [hstart]
    cases request <;> trivial
  | acquires m pc hacquires hpc =>
    rw [hpc]
    generalize hpc₀ : s.calls i = pc₀ at hacquires h
    unfold Pc.acquires at hacquires
    split at hacquires <;> cases hacquires <;> trivial
  | runs pc hcall hpc =>
    rw [hpc]
    generalize hpc₀ : s.calls i = pc₀ at hcall h
    generalize s'.engine = e', s'.history = h' at hcall
    cases hcall with
    | drain =>
      have hschedules := hs.schedules hpc₀
      generalize s.engine.scheduleFinalMemtable = result at hschedules ⊢
      cases hschedules <;> rfl
    | close error => exact h
    -- The last section reads the recorded failure.
    | report error =>
      obtain rfl : error = none := h
      rfl
    | active key => cases s.engine.lookupActive key <;> trivial
    | immutable key snapshot => cases snapshot.bind (·.memtable.lookupEntry key) <;> trivial
    | file key f rest winner => cases s.engine.store.lookupFile fmt key winner f <;> trivial
    | publish => cases s.engine.shuttingDown <;> trivial
    | _ => trivial
  | notifies _ hpc =>
    rw [hpc]
    trivial
  | joins error hjoin _ hpc =>
    rw [hjoin] at h
    rw [hpc]
    exact h

end Remembers

/-! ## What survives -/

section Survives

variable {F R ι : Type} [DecidableEq ι]

/-- What holds of a process whose worker has failed. -/
structure System.Survives (H : Hashing) (fmt : TableFormat F R) (s : System F ι) : Prop where
  /-- The writes that have returned have their records, and these have reached a Memtable. -/
  acknowledged : Acknowledged s.calls s.history
  /-- Every lookup answers with the newest one. -/
  answers : (Node.running s).Recovers H fmt
  /-- Every record above the checkpoint of the MANIFEST file is in the log. -/
  logged : ∃ rs, s.engine.log.atPath = Wal.header ++ Wal.encodeRecords H rs ∧
    ∀ r ∈ s.history.records, ¬s.engine.durable.persistedThrough.any (r.sequence ≤ ·) → r ∈ rs
  /-- So opening the directory again brings all records back. -/
  reopens : ∀ store : Store F, store.manifest = s.engine.durable →
    Store.KeepsFiles s.engine.store store →
      (s.crashed s.engine.log.atPath store []).Recovers H fmt
  /-- As long as a call has not returned, some thread can go on. -/
  proceeds : ∀ i, (s.calls i).underWay = true → s.MayProceed H fmt
  /-- Behind the notification, nobody sleeps. -/
  released : s.engine.backgroundError.isSome → s.worker ≠ .notifyFailed →
    ∀ i, (s.calls i).sleeping = false
  /-- The first shutdown has joined the worker, and has thrown its failure. -/
  stopped : ∀ i result, s.calls i = .stopped true result → s.worker = .exited ∧
    ∃ failure, s.engine.backgroundError = some failure ∧ result = .error failure

/-- **A failed job loses nothing.** The step that fails changes no answer, everything survives it,
and a write that has not passed its check when the failure is recorded ends with the failure and has
no record. -/
def FailuresLoseNothing (H : Hashing) (fmt : TableFormat F R)
    (M : Lts (System F ι) (ProcessLabel F ι)) : Prop :=
  (∀ s label s', M.Reachable s → M.step s label s' → ¬s.Failed → s'.Failed →
    s'.history = s.history ∧ ∀ key, fmt.Takes key → ∃ winner winner',
      s.engine.lookup fmt key = .ok winner ∧ s'.engine.lookup fmt key = .ok winner' ∧
        (GetResult.of winner).answer = (GetResult.of winner').answer) ∧
  (∀ s, M.Reachable s → s.Failed → s.Survives H fmt) ∧
  ∀ s failure i w point, M.Reachable s → s.engine.backgroundError = some failure →
    s.calls i = .write w point → (point = .enter ∨ point = .asleep ∨
      ∃ woken locked, point = .prepare woken locked) →
    ∀ ls t, M.Run s ls t → (t.calls i).Refused (t.engine.Throws failure) ∧
      ∀ r, (i, r) ∉ t.history.logged

variable {H : Hashing} {fmt : TableFormat F R} {s s' : System F ι}

omit [DecidableEq ι] in
/-- What is not in the log is covered by the checkpoint of the MANIFEST file. -/
theorem System.Invariant.logged (hs : s.Invariant H) :
    ∃ rs, s.engine.log.atPath = Wal.header ++ Wal.encodeRecords H rs ∧
      ∀ r ∈ s.history.records, ¬s.engine.durable.persistedThrough.any (r.sequence ≤ ·) →
        r ∈ rs := by
  obtain ⟨g, hd, -⟩ := hs.data
  refine ⟨g.logged, ?_, fun r hr habove => ?_⟩
  · exact hd.atPath_eq
  · rw [hd.records, Generations.records_eq] at hr
    refine (List.mem_append.1 hr).resolve_left fun hreclaimed => habove ?_
    -- A record that is reclaimed is among those that the MANIFEST file covers.
    have hmem : r ∈ g.durable := by
      rcases hd.durable_cases with h | h <;> rw [h]
      · exact List.mem_append_left _ hreclaimed
      · exact List.mem_append_left _ (List.mem_append_left _ hreclaimed)
    rw [← hd.coveredBy_durable] at hmem
    exact (List.mem_filter.1 hmem).2

/-- Who is awake and what shutdowns report, in every process in the life of a directory. -/
theorem awake_of_reachable (h : (life H fmt).Reachable (.running s)) :
    s.Awake ∧ ∀ i, (s.calls i).Remembers s.engine := by
  refine running_invariant (P := fun s => s.Awake ∧ ∀ i, (s.calls i).Remembers s.engine) ?_ ?_ h
  · intro e calls history hresting
    have hquiet : ∀ i, (calls i).sleeping = false ∧ (calls i).Remembers e := by
      intro i
      have hi := hresting i
      generalize calls i = pc at hi
      cases pc with
      | write => cases hi
      | get => cases hi
      | shutdown => cases hi
      | stopped => cases hi
      | _ => exact ⟨rfl, trivial⟩
    refine ⟨fun _ i hi => ?_, fun i => (hquiet i).2⟩
    rw [(hquiet i).1] at hi
    cases hi
  · exact fun s label s' hs hP hstep =>
      ⟨hP.1.step hstep, fun i => hstep.remembers hs (hP.2 i)⟩

/-- The step in which the worker fails is its own, and leaves the history. -/
theorem ProcessStep.history_of_fails {label : ProcessLabel F ι}
    (hstep : ProcessStep H fmt s label s') (hnot : ¬s.Failed) (hfailed : s'.Failed) :
    s'.history = s.history := by
  cases hstep with
  | call i e h pc hcall =>
    refine absurd (hfailed.imp_right fun herror => ?_) hnot
    exact hcall.backgroundError ▸ herror
  | _ => rfl

end Survives

/-- A failed job loses nothing in every process whose tables fit and whose readers look up keys that
can be hashed. -/
theorem failuresLoseNothing {ι : Type} [DecidableEq ι] (crc32 : Bytes → UInt32) :
    FailuresLoseNothing (.vendored crc32) (Sstable.format crc32)
      (workingProcess (.vendored crc32) (Sstable.format crc32) Sstable.TableFits :
        Lts (System Bytes ι) (ProcessLabel Bytes ι)) := by
  have hlife : ∀ {s : System Bytes ι},
      (workingProcess (.vendored crc32) (Sstable.format crc32) Sstable.TableFits).Reachable s →
        (fittingLife (.vendored crc32) (Sstable.format crc32) Sstable.TableFits).Reachable
          (.running s) :=
    life_of_workingProcess
  have hrecovers : ∀ {node : Node Bytes ι},
      (fittingLife (.vendored crc32) (Sstable.format crc32) Sstable.TableFits).Reachable node →
        node.Recovers (.vendored crc32) (Sstable.format crc32) :=
    recovers_of_reachable fun _ => Sstable.format_represents crc32
  refine ⟨fun s label s' hs hstep hnot hfailed => ?_, fun s hs hfailed => ?_, ?_⟩
  · -- The step that fails leaves the history, and the answers with it.
    have hhistory := hstep.1.1.history_of_fails hnot hfailed
    refine ⟨hhistory, fun key hkey => ?_⟩
    obtain ⟨winner, hreturns, hanswer⟩ := hrecovers (hlife hs) key hkey
    obtain ⟨winner', hreturns', hanswer'⟩ := hrecovers (hlife (hs.step hstep)) key hkey
    exact ⟨winner, winner', hreturns, hreturns', by rw [hanswer, hanswer', hhistory]⟩
  · -- Behind a failure the invariants of a life still hold.
    have hs' := (hlife hs).of_restrict
    have hinv : s.Invariant (.vendored crc32) := invariant_of_reachable hs'
    obtain ⟨hawake, hremembers⟩ := awake_of_reachable hs'
    refine ⟨acknowledged_of_reachable hs', hrecovers (hlife hs), hinv.logged, ?_,
      fun i hi => System.mayProceed_of_failed hinv.stages hawake hfailed hi, ?_, ?_⟩
    · exact fun store hmanifest hkeeps =>
        hrecovers ((hlife hs).step ⟨.crash store hmanifest hkeeps, trivial⟩)
    · -- Behind the notification nobody sleeps.
      intro herror hworker i
      rw [Bool.eq_false_iff]
      exact fun hi => hworker (hawake herror i hi)
    · -- A shutdown that returns behind the failure throws it.
      intro i result hstopped
      have hexited := hinv.stages.joined i (by rw [hstopped]; exact Nat.le_succ 6)
      refine ⟨hexited, ?_⟩
      have herror : s.engine.backgroundError.isSome := by
        refine hfailed.resolve_left ?_
        rintro ⟨task, failure, locked, h⟩
        cases hexited.symm.trans h
      obtain ⟨failure, hrecorded⟩ := Option.isSome_iff_exists.1 herror
      have hresult := hremembers i
      rw [hstopped] at hresult
      refine ⟨failure, hrecorded, ?_⟩
      rw [show result = _ from hresult, hrecorded]
      rfl
  · -- A write before its check stays refused in every run, and has no record.
    intro s failure i w point hs herror hi hpoint ls t hrun
    have hrefused : (s.calls i).Refused (s.engine.Throws failure) := by
      rw [hi]
      rcases hpoint with rfl | rfl | ⟨woken, locked, rfl⟩ <;> trivial
    have hkeeps : ∀ (u : System Bytes ι) label v, (u.engine.backgroundError = some failure ∧
        (u.calls i).Refused (u.engine.Throws failure)) →
        (workingProcess (.vendored crc32) (Sstable.format crc32) Sstable.TableFits).step u label v →
          v.engine.backgroundError = some failure ∧
            (v.calls i).Refused (v.engine.Throws failure) :=
      fun u label v hu hstep => ⟨hstep.1.1.backgroundError hu.1, hstep.1.1.refused hu.1 hu.2⟩
    have hends := (hrun.invariant hkeeps ⟨herror, hrefused⟩).2
    refine ⟨hends, fun r hr => ?_⟩
    have howned := (acknowledged_of_reachable (hlife (hs.run hrun)).of_restrict).owned i r hr
    rw [show (t.calls i).progress = _ from hends.progress] at howned
    exact howned

/-- A commit of a final flush that fails behind the rename leaves a MANIFEST file that covers
everything. -/
theorem failed_of_commitFlush {F R ι : Type} [DecidableEq ι] {H : Hashing} {fmt : TableFormat F R}
    {s : System F ι} (hs : (logWorks H fmt).Reachable s) {task : SharedMemtable}
    {edit : ManifestEdit} (hworker : s.worker = .commitFlush task edit true)
    (hactive : s.engine.activeMemtable = none) (failure : Failure) :
    ∃ s', (logWorks H fmt).Reachable s' ∧ s'.Failed ∧ s'.history = s.history ∧
      coveredBy s'.engine.durable.persistedThrough s'.history.records = s'.history.applied := by
  have hinv := invariant_of_logWorks hs
  obtain ⟨g, hd, -⟩ := hinv.data
  have hnoError := hinv.stages.noError (hworker ▸ rfl) (hworker ▸ nofun)
  rw [hworker] at hd
  have hcommit := hd.commit_of_flush hnoError
  have hcovers := hd.coveredBy_first (Data.isPrefix_old_sealed g)
  have hcases := s.engine.commitEdit_cases edit (some (.behindRename failure))
  have hwork := @WorkerStep.commitFlush _ _ H fmt s.engine task edit (some (.behindRename failure))
  rw [← hworker] at hwork
  generalize s.engine.commitEdit edit (some (.behindRename failure)) = result at hcases hwork
  cases hcases with
  | rejected fault failure' hrejected => cases hrejected.symm.trans hcommit
  | behind failure' store hok =>
    obtain rfl := Except.ok.inj (hcommit.symm.trans hok)
    refine ⟨_, hs.step ⟨.worker _ _ _ hwork, trivial⟩, .inl ⟨_, _, _, rfl⟩, rfl, ?_⟩
    -- With the active Memtable handed over, nothing is behind the records of the slot.
    rw [hd.applied, Generations.applied, hd.noActive hactive, List.append_nil]
    exact hcovers

/-- The flush of a value of 2^32 - 1 bytes is covered by the MANIFEST file, and has failed. -/
theorem exists_failed : ∃ s : System Bytes ℕ,
    (logWorks vendoredSum (Sstable.format byteSum.crc32)).Reachable s ∧ s.Failed ∧
      s.history.records = [(Write.put [] Sstable.largestValue).record 0] ∧
      coveredBy s.engine.durable.persistedThrough s.history.records = s.history.records := by
  have hfirst : (faultless vendoredSum (Sstable.format byteSum.crc32)).Reachable
      (System.first ℕ vendoredSum 1048576 ⟨4, by decide⟩) :=
    .initial (.inl (firstOpened_first _ _ _ _))
  obtain ⟨wal, active, hreplays, hhanded⟩ := @oneHandedOver_reachable _ _ _ _ _ hasCalls_faultless
    _ _ hfirst (.put [] Sstable.largestValue) (Nat.zero_le _) Sstable.length_largestValue.le
  have hsingle := hreplays.frozen.entries_singleton
  obtain ⟨file, hfile⟩ := @Sstable.format_builds byteSum.crc32 active.frozen.table.entries
    (hsingle ▸ List.cons_ne_nil _ _) (hsingle ▸ List.pairwise_singleton _ _) (hsingle ▸ by decide)
    (hsingle ▸ List.forall_mem_singleton.2 (show MurmurHash3.Fits [] by decide))
  obtain ⟨store, edit, hprepare⟩ := Store.prepareFlush_returns (Store.empty : Store Bytes)
    (⟨rfl, hsingle ▸ List.cons_ne_nil _ _⟩ : Store.Flushable active.frozen) hfile
  have hprepared := @Reachable.flush _ _ _ _ _ _ _ _ hasWorker_faultless hhanded
    (fun j => (oneHandedOver_calls 1048576 ⟨4, by decide⟩ _ wal active j).1) rfl ⟨0, active.frozen⟩
    [] rfl store edit hprepare
  obtain ⟨s, hs, hfailed, hhistory, hcovered⟩ := failed_of_commitFlush
    (logWorks_of_faultless hprepared) rfl rfl
    (.exception "Failed to fsync parent directory: db")
  refine ⟨s, hs, hfailed, congrArg History.records hhistory, hcovered.trans ?_⟩
  rw [hhistory]
  rfl

/-- Then opening the directory again does not bring the value back. -/
theorem largestValue_not_restored :
    ¬FailuresLoseNothing vendoredSum (Sstable.format byteSum.crc32)
      (logWorks vendoredSum (Sstable.format byteSum.crc32) :
        Lts (System Bytes ℕ) (ProcessLabel Bytes ℕ)) := by
  rintro ⟨-, hsurvives, -⟩
  obtain ⟨s, hs, hfailed, hrecords, hcovered⟩ := exists_failed
  have hsame : (s.lostHistory []).records = s.history.records :=
    congrArg (List.map Prod.snd) (List.append_nil s.history.logged)
  have hcrashed := (life_of_logWorks hs).step
    (.crash { s.engine.store with manifest := s.engine.durable } rfl (.refl _))
  refine not_recovers_of_covered (invariant_of_reachable hcrashed) (hsame.trans hrecords) ?_
    ((hsurvives s hs hfailed).reopens _ rfl (.refl _))
  rw [hsame]
  exact hcovered

end Kronos
