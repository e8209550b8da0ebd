import Kronos.Engine.Recovered
import Kronos.Engine.SizeBound

/-!
# What a shutdown leaves

A shutdown that returns normally has persisted everything (`System.Persisted`). It has passed its
barrier, behind which no writer appends. It has handed over the active Memtable, if this has
entries, and has waited for the worker, which leaves its loop when the queue is closed and empty
(`System.Drains`). So every record is in the live SSTables, and in neither Memtable.

A failure of the worker is recorded, and stays (`ProcessStep.failed`), so a shutdown that returns
normally has had none behind it, of the reclamation of the log included (`working_or_failed`).
-/

namespace Kronos

open KronosEngine

/-! ## Failures stay -/

/-- A failure of the worker is recorded, or is about to be. -/
def System.Failed {F ι : Type} (s : System F ι) : Prop :=
  (∃ task failure locked, s.worker = .failed task failure locked) ∨
    s.engine.backgroundError.isSome

section Failures

variable {F R ι : Type} {H : Hashing} {fmt : TableFormat F R} {s s' : System F ι}

/-- A section of a call records no failure. -/
theorem CallStep.backgroundError {i : ι} {e e' : KronosEngine F} {h h' : History ι} {pc pc' : Pc}
    (hstep : CallStep H fmt i e h pc e' h' pc') : e'.backgroundError = e.backgroundError := by
  cases hstep with
  | prepare w woken => exact (e.onlyMemtables_prepare woken w).backgroundError
  | insert w sequence => exact (e.onlyMemtables_insert w sequence).backgroundError
  | drain => exact e.scheduleFinal_frame.2.1
  | _ => rfl

/-- A section of the worker keeps the failure that is recorded first. -/
theorem WorkerStep.backgroundError {e e' : KronosEngine F} {fault : Option (WorkerFault F)}
    {pc pc' : WorkerPc} (hstep : WorkerStep H fmt e fault pc e' pc') {failure : Failure}
    (h : e.backgroundError = some failure) : e'.backgroundError = some failure := by
  cases hstep with
  | commitFlush task edit fault => exact (e.sameFlags_commit edit fault).backgroundError ▸ h
  | commitCompaction edit fault => exact (e.sameFlags_commit edit fault).backgroundError ▸ h
  | clear task flushedThrough => exact (e.onlyMemtables_clear task).backgroundError ▸ h
  | record task failure =>
    unfold recordFailure
    rw [if_neg (by simp [h])]
    exact h
  | _ => exact h

/-- The worker that has failed records its failure. -/
theorem WorkerStep.records {e e' : KronosEngine F} {fault : Option (WorkerFault F)}
    {task : Option SharedMemtable} {failure : Failure} {locked : Bool} {pc' : WorkerPc}
    (hstep : WorkerStep H fmt e fault (.failed task failure locked) e' pc') :
    e'.backgroundError.isSome := by
  cases hstep with
  | record =>
    unfold recordFailure
    split_ifs with hnone
    · rfl
    · rwa [Option.isNone_iff_eq_none, ← Ne, ← Option.isSome_iff_ne_none] at hnone

variable [DecidableEq ι]

/-- The failure that is recorded stays. -/
theorem ProcessStep.backgroundError {label : ProcessLabel F ι}
    (hstep : ProcessStep H fmt s label s') {failure : Failure}
    (h : s.engine.backgroundError = some failure) : s'.engine.backgroundError = some failure := by
  cases hstep with
  | call i e' h' pc hcall => exact hcall.backgroundError.trans h
  | worker fault e pc hwork => exact hwork.backgroundError h
  | _ => exact h

/-- **A failure stays.** -/
theorem ProcessStep.failed {label : ProcessLabel F ι} (hstep : ProcessStep H fmt s label s')
    (h : s.Failed) : s'.Failed := by
  rcases h with ⟨task, failure, locked, hworker⟩ | herror
  · cases hstep with
    | workerAcquire m pc hacquires _ =>
      rw [hworker] at hacquires
      cases locked <;> cases hacquires
      exact .inl ⟨task, failure, true, rfl⟩
    | worker fault e pc hwork =>
      rw [hworker] at hwork
      exact .inr hwork.records
    | notifyCleared through hcleared => cases hworker.symm.trans hcleared
    | notifyFailed hfailed => cases hworker.symm.trans hfailed
    | _ => exact .inl ⟨task, failure, locked, hworker⟩
  · obtain ⟨failure, hrecorded⟩ := Option.isSome_iff_exists.1 herror
    exact .inr (Option.isSome_of_eq_some (hstep.backgroundError hrecorded))

variable {Fits : List TableRecord → Prop}

/-- A step over a log whose reclamation fails is one behind which the worker has failed, or it is
the same as one in which nothing fails. -/
theorem ProcessStep.works_or_fails {label : ProcessLabel F ι} (hs : s.Invariant H)
    (hstep : ProcessStep H fmt s label s') (hfits : label.Fitting fmt Fits s) :
    s'.Failed ∨ ∃ label', ProcessStep H fmt s label' s' ∧ label'.Fitting fmt Fits s ∧
      label'.LogWorks := by
  by_cases hworks : label.LogWorks
  · exact .inr ⟨label, hstep, hfits, hworks⟩
  obtain ⟨g, hd, -⟩ := hs.data
  cases hstep with
  | worker fault e pc hwork =>
    generalize hpc : s.worker = worker at hwork hd
    cases hwork with
    | reclaim through fault =>
      -- Only a reclamation is left, and one that throws is a failure of the worker.
      rcases hresult : Wal.reclaimThrough H through fault s.engine.log with ⟨failure | _, log⟩
      · exact .inl (.inl ⟨none, failure, false, rfl⟩)
      · -- The system call that would have failed is not reached.
        have hcontains := Wal.contains_records H hd.log.history
        rw [← hd.file_eq] at hcontains
        have hlog := Wal.reclaimThrough_ok hcontains hresult
        have hreturns := Wal.reclaimThrough_returns hd.log through
        refine .inr ⟨.worker none, ?_, ?_, trivial⟩
        · have hsame : WorkerStep H fmt s.engine none _ _ _ := .reclaim through none
          rw [hreturns, ← hlog] at hsame
          exact .worker none _ _ (hpc ▸ hsame)
        · intro rs hrs
          rw [System.building, hpc] at hrs
          cases hrs
    | commitFlush task edit fault => cases fault <;> exact absurd trivial hworks
    | commitCompaction edit fault => cases fault <;> exact absurd trivial hworks
    | _ => exact absurd trivial hworks
  | _ => exact absurd trivial hworks

/-- A process over a directory whose tables fit is one whose log works, or its worker has failed. -/
theorem working_or_failed (h : (fittingProcess H fmt Fits).Reachable s) :
    (workingProcess H fmt Fits).Reachable s ∨ s.Failed := by
  refine @Lts.Reachable.invariant _ _ (fittingProcess H fmt Fits)
    (fun s => (workingProcess H fmt Fits).Reachable s ∨ s.Failed) ?_ ?_ s h
  · exact fun s hs => .inl (Lts.Reachable.initial (M := workingProcess H fmt Fits) hs)
  · rintro s label s' (hs | hs) ⟨hstep, hfits⟩
    · have hinv := invariant_of_reachable (life_of_workingProcess hs).of_restrict
      rcases hstep.works_or_fails hinv hfits with hfailed | ⟨label', hstep', hfits', hworks⟩
      · exact .inr hfailed
      · exact .inl (hs.step ⟨⟨hstep', hfits'⟩, hworks⟩)
    · exact .inr (hstep.failed hs)

end Failures

/-! ## A shutdown that has returned -/

/-- A shutdown that has returned normally has found no failure. -/
def System.Returned {F ι : Type} (s : System F ι) : Prop :=
  ∀ i, s.calls i = .stopped true (.ok ()) → s.engine.backgroundError = none

section Returned

variable {F R ι : Type} {H : Hashing} {fmt : TableFormat F R} {s s' : System F ι}

/-- A section at whose end a shutdown returns normally finds no failure. -/
theorem CallStep.error_of_stopped {i : ι} {e e' : KronosEngine F} {h h' : History ι} {pc pc' : Pc}
    (hstep : CallStep H fmt i e h pc e' h' pc') (hpc' : pc' = .stopped true (.ok ())) :
    e'.backgroundError = none := by
  cases hstep with
  | active key => cases hlookup : e.lookupActive key <;> rw [hlookup] at hpc' <;> cases hpc'
  | immutable key snapshot =>
    cases hlookup : snapshot.bind (·.memtable.lookupEntry key) <;> rw [hlookup] at hpc' <;>
      cases hpc'
  | file key f rest winner =>
    cases hlookup : e.store.lookupFile fmt key winner f <;> rw [hlookup] at hpc' <;> cases hpc'
  | publish => cases hflag : e.shuttingDown <;> rw [hflag] at hpc' <;> cases hpc'
  | report error =>
    have hresult : shutdownResult error e.backgroundError = .ok () := (Pc.stopped.inj hpc').2
    unfold shutdownResult at hresult
    cases herror : error.or e.backgroundError with
    | some failure =>
      rw [herror] at hresult
      cases hresult
    | none => exact (Option.or_eq_none_iff.1 herror).2
  | _ => cases hpc'

variable [DecidableEq ι]

/-- When the worker has left its loop, no failure is recorded any more. -/
theorem ProcessStep.backgroundError_of_exited {label : ProcessLabel F ι}
    (hstep : ProcessStep H fmt s label s') (hexited : s.worker = .exited) :
    s'.engine.backgroundError = s.engine.backgroundError := by
  cases hstep with
  | call i e h pc hcall => exact hcall.backgroundError
  | worker fault e pc hwork =>
    rw [hexited] at hwork
    cases hwork
  | _ => rfl

/-- A shutdown that has returned normally is one that found no failure, whatever happens next. -/
theorem System.Returned.step (hr : s.Returned) (hs : Stages s) {label : ProcessLabel F ι}
    (hstep : ProcessStep H fmt s label s') : s'.Returned := by
  intro i hi
  have hbefore : s.calls i = .stopped true (.ok ()) → s'.engine.backgroundError = none := by
    intro hi
    have hexited := hs.joined i (by rw [hi]; exact Nat.le_succ 6)
    exact (hstep.backgroundError_of_exited hexited).trans (hr i hi)
  cases hstep.moves i with
  | stays hsame => exact hbefore (hsame.symm.trans hi)
  | woken hwoken =>
    have hpc : (s.calls i).woken = .stopped true (.ok ()) := hwoken.symm.trans hi
    unfold Pc.woken at hpc
    split at hpc
    · cases hpc
    · cases hpc
    · exact hbefore hpc
  | begins request _ hstart =>
    cases request <;> cases hstart.symm.trans hi
  | acquires m pc hacquires hpc =>
    obtain rfl := hpc.symm.trans hi
    unfold Pc.acquires at hacquires
    split at hacquires <;> cases hacquires
  | runs pc hcall hpc => exact hcall.error_of_stopped (hpc.symm.trans hi)
  | notifies _ hpc => cases hpc.symm.trans hi
  | joins error _ _ hpc => cases hpc.symm.trans hi

end Returned

/-! ## The hand-over, and the end of the worker -/

/-- The active Memtable has no entries, unless a failure is recorded. -/
def KronosEngine.Emptied {F : Type} (e : KronosEngine F) : Prop :=
  e.backgroundError.isSome ∨ ∀ active, e.activeMemtable = some active → active.entryCount = 0

/-- The queue is empty, unless a failure is recorded. -/
def KronosEngine.Popped {F : Type} (e : KronosEngine F) : Prop :=
  e.backgroundError.isSome ∨ e.flushQueue = []

/-- What a shutdown that has handed over, and a worker that has left its loop, leave behind. -/
structure System.Drains {F ι : Type} (s : System F ι) : Prop where
  emptied : ∀ i, 4 ≤ (s.calls i).stage → s.engine.Emptied
  popped : s.worker = .exited → s.engine.Popped

namespace System.Drains

variable {F R ι : Type} {H : Hashing} {fmt : TableFormat F R} {s s' : System F ι}

/-- Behind a hand-over, no section of a call fills the active Memtable again. -/
theorem emptied_of_call (hs : s.Invariant H) {k : ι} (hk : 4 ≤ (s.calls k).stage)
    (hemptied : s.engine.Emptied) {i : ι} {e : KronosEngine F} {h : History ι} {pc : Pc}
    (hcall : CallStep H fmt i s.engine s.history (s.calls i) e h pc) : e.Emptied := by
  generalize hpc : s.calls i = pc₀ at hcall
  cases hcall with
  | prepare w woken =>
    have hflag := hs.stages.published k (Nat.zero_lt_of_lt hk)
    have hprepares := hs.prepares woken w
    generalize s.engine.prepareForWriteLocked woken w = result at hprepares
    cases hprepares with
    | rotated active hshutdown _ _ _ _ _ => cases hflag.symm.trans hshutdown
    | _ => exact hemptied
  | insert w sequence =>
    have hwriting := hs.stages.barrier k i (Nat.le_of_succ_le hk)
    rw [hpc] at hwriting
    cases hwriting
  | drain hgo =>
    -- There is one shutdown, and it has handed over already.
    have hik := hs.stages.unique i k (hpc ▸ Nat.succ_pos 2) (Nat.zero_lt_of_lt hk)
    rw [← hik, hpc] at hk
    exact absurd hk (by show ¬4 ≤ 3; decide)
  | _ => exact hemptied

/-- When the worker has left its loop, no section of a call fills the queue again. -/
theorem popped_of_call (hs : s.Invariant H) (hexited : s.worker = .exited)
    (hpopped : s.engine.Popped) {i : ι} {e : KronosEngine F} {h : History ι} {pc : Pc}
    (hcall : CallStep H fmt i s.engine s.history (s.calls i) e h pc) : e.Popped := by
  have hclosed := hs.stages.closed (hs.stages.exited hexited)
  have hopen : s.engine.backgroundError = none → ∃ j, 5 ≤ (s.calls j).stage := fun hnone =>
    hclosed.resolve_left (by simp [hnone])
  generalize hpc : s.calls i = pc₀ at hcall
  cases hcall with
  | prepare w woken =>
    have hprepares := hs.prepares woken w
    generalize s.engine.prepareForWriteLocked woken w = result at hprepares
    cases hprepares with
    -- A rotation pushes, but no writer rotates behind a published shutdown.
    | rotated active hshutdown herror _ _ _ _ =>
      obtain ⟨j, hj⟩ := hopen herror
      cases (hs.stages.published j (Nat.zero_lt_of_lt hj)).symm.trans hshutdown
    | _ => exact hpopped
  | insert w sequence =>
    obtain ⟨active, hinsert⟩ := hs.inserts hpc
    rw [hinsert]
    exact hpopped
  | drain hgo =>
    have hschedules := hs.schedules hpc
    generalize s.engine.scheduleFinalMemtable = result at hschedules
    cases hschedules with
    | nothing _ => exact hpopped
    -- The shutdown that hands over is the one that closes the queue later.
    | handed active _ herror _ =>
      obtain ⟨j, hj⟩ := hopen herror
      have hij := hs.stages.unique i j (hpc ▸ Nat.succ_pos 2) (Nat.zero_lt_of_lt hj)
      rw [← hij, hpc] at hj
      exact absurd hj (by show ¬5 ≤ 3; decide)
  | _ => exact hpopped

/-- The hand-over itself leaves no entries in the active Memtable. -/
theorem emptied_of_drain (hs : s.Invariant H) {i : ι}
    (hpc : s.calls i = .shutdown (.drain true)) : s.engine.scheduleFinalMemtable.2.Emptied := by
  have hschedules := hs.schedules hpc
  generalize s.engine.scheduleFinalMemtable = result at hschedules
  cases hschedules with
  | nothing hnothing =>
    rcases hnothing with hnone | herror | ⟨active, hsome, hzero⟩
    · refine .inr fun active hactive => ?_
      cases hnone.symm.trans hactive
    · exact .inl (Option.isSome_iff_ne_none.2 herror)
    · refine .inr fun active' hactive => ?_
      obtain rfl := Option.some.inj (hsome.symm.trans hactive)
      exact hzero
  | handed active _ _ _ => exact .inr nofun

variable [DecidableEq ι]

/-- A section of a call. -/
theorem call (hd : s.Drains) (hs : s.Invariant H) {i : ι} {e : KronosEngine F} {h : History ι}
    {pc : Pc} (hcall : CallStep H fmt i s.engine s.history (s.calls i) e h pc) :
    System.Drains { s.goto i pc with engine := e, history := h } := by
  refine ⟨fun k hk => ?_, fun hexited => popped_of_call hs hexited (hd.popped hexited) hcall⟩
  by_cases hbefore : 4 ≤ (s.calls k).stage
  · exact emptied_of_call hs hbefore (hd.emptied k hbefore) hcall
  -- It is the hand-over that leads a shutdown there.
  have hki : k = i := by
    by_contra hne
    have hsame : (s.goto i pc).calls k = s.calls k := by rw [System.calls_goto, if_neg hne]
    exact hbefore (hsame ▸ hk)
  subst hki
  have hstage : 4 ≤ pc.stage := by
    have hself : (s.goto k pc).calls k = pc := by rw [System.calls_goto, if_pos rfl]
    exact hself ▸ hk
  -- No other section leads from an earlier stage to the fourth.
  generalize hpc : s.calls k = pc₀ at hcall hbefore
  cases hcall with
  | drain hgo => exact emptied_of_drain hs hpc
  | close error => exact absurd le_rfl hbefore
  | report error => exact absurd (Nat.le_add_left 4 2) hbefore
  | active key =>
    cases hlookup : s.engine.lookupActive key <;> rw [hlookup] at hstage <;> cases hstage
  | immutable key snapshot =>
    cases hlookup : snapshot.bind (·.memtable.lookupEntry key) <;> rw [hlookup] at hstage <;>
      cases hstage
  | file key f rest winner =>
    cases hlookup : s.engine.store.lookupFile fmt key winner f <;> rw [hlookup] at hstage <;>
      cases hstage
  | publish =>
    cases hflag : s.engine.shuttingDown
    · rw [hflag] at hstage
      exact absurd hstage (by show ¬4 ≤ 1; decide)
    · rw [hflag] at hstage
      cases hstage
  | wait _ => exact absurd hstage (by show ¬4 ≤ 3; decide)
  | barrier => exact absurd hstage (by show ¬4 ≤ 3; decide)
  | _ => cases hstage

omit [DecidableEq ι] in
/-- A section of the worker. -/
theorem work (hd : s.Drains) (hs : Stages s) {fault : Option (WorkerFault F)} {e : KronosEngine F}
    {pc : WorkerPc} (hstep : WorkerStep H fmt s.engine fault s.worker e pc) :
    System.Drains { s with engine := e, worker := pc } := by
  refine ⟨fun k hk => ?_, fun hexited => ?_⟩
  · rcases hd.emptied k hk with herror | hempty
    · obtain ⟨failure, hrecorded⟩ := Option.isSome_iff_exists.1 herror
      exact .inl (Option.isSome_of_eq_some (hstep.backgroundError hrecorded))
    · refine .inr ?_
      show ∀ active, e.activeMemtable = some active → active.entryCount = 0
      rw [hstep.sameActive.1]
      exact hempty
  · -- Behind a job, the worker goes on or fails, so that it exits from its pop or behind a failure.
    have hbehind :
      ∀ {task : Option SharedMemtable} {next : WorkerPc} {result : Except Failure Unit},
        next ≠ .exited → WorkerPc.behind task next result ≠ .exited := by
      rintro task next (failure | _) hnext
      · exact nofun
      · exact hnext
    obtain rfl : pc = .exited := hexited
    generalize hpc : s.worker = worker at hstep
    generalize hbehind' : WorkerPc.exited = pc' at hstep
    cases hstep with
    | drained hempty _ => exact .inr hempty
    | closeQueue => exact .inl (hs.recorded (hpc ▸ rfl))
    | commitFlush task edit fault => exact absurd hbehind'.symm (hbehind nofun)
    | commitCompaction edit fault => exact absurd hbehind'.symm (hbehind nofun)
    | clear task through => exact absurd hbehind'.symm (hbehind nofun)
    | reclaim through fault => exact absurd hbehind'.symm (hbehind nofun)
    | checkSlot =>
      cases hslot : s.engine.immutableMemtable.isSome <;> rw [hslot] at hbehind' <;> cases hbehind'
    | _ => cases hbehind'

omit [DecidableEq ι] in
/-- A step that moves no shutdown to its hand-over, and does nothing to the engine. -/
theorem congr {calls : ι → Pc} {worker : WorkerPc} (hd : s.Drains)
    (hcalls : ∀ k, 4 ≤ (calls k).stage → 4 ≤ (s.calls k).stage)
    (hworker : worker = .exited → s.worker = .exited) :
    System.Drains ⟨s.engine, worker, calls, s.history⟩ :=
  ⟨fun k hk => hd.emptied k (hcalls k hk), fun hexited => hd.popped (hworker hexited)⟩

/-- A step of a process. -/
theorem step (hd : s.Drains) (hs : s.Invariant H) {label : ProcessLabel F ι}
    (hstep : ProcessStep H fmt s label s') : s'.Drains := by
  -- A move that does not lead to the fourth stage brings no shutdown there.
  have hgoto : ∀ {i : ι} {pc : Pc}, (4 ≤ pc.stage → 4 ≤ (s.calls i).stage) →
      ∀ k, 4 ≤ ((s.goto i pc).calls k).stage → 4 ≤ (s.calls k).stage := by
    intro i pc hpc k hk
    rw [System.calls_goto] at hk
    split_ifs at hk with hki
    · exact hki ▸ hpc hk
    · exact hk
  have hwoken : ∀ (calls : ι → Pc) (k : ι), 4 ≤ (calls k).woken.stage → 4 ≤ (calls k).stage :=
    fun calls k hk => Pc.stage_woken (calls k) ▸ hk
  cases hstep with
  | invoke i request hidle => exact hd.congr (hgoto fun hk => by cases request <;> cases hk) id
  | acquire i m pc hacquires _ =>
    exact hd.congr (hgoto fun hk => (Pc.acquires_stage hacquires).1 ▸ hk) id
  | call i e h pc hcall => exact hd.call hs hcall
  | notify i hpc =>
    refine hd.congr (fun k hk => hgoto (fun hk => ?_) k (hwoken _ k hk)) id
    exact absurd hk (by show ¬4 ≤ 2; decide)
  | join i error hpc _ =>
    refine hd.congr (hgoto fun _ => ?_) id
    rw [hpc]
    exact Nat.le_succ 4
  | wake i => exact hd.congr (hgoto fun hk => hwoken s.calls i hk) id
  | workerAcquire m pc hacquires _ =>
    exact hd.congr (fun _ => id) fun hexited =>
      absurd hexited (WorkerPc.acquires_ending hacquires).2.1
  | worker fault e pc hwork => exact hd.work hs.stages hwork
  | notifyCleared through _ => exact hd.congr (hwoken s.calls) nofun
  | notifyFailed _ => exact hd.congr (hwoken s.calls) nofun

end System.Drains

section Life

variable {F R ι : Type} [DecidableEq ι] {H : Hashing} {fmt : TableFormat F R} {s : System F ι}

omit [DecidableEq ι] in
/-- The calls of an engine that was just opened have neither handed over nor returned. -/
theorem drains_of_resting {e : KronosEngine F} {calls : ι → Pc} {history : History ι}
    (hresting : ∀ i, (calls i).resting = true) :
    System.Drains ⟨e, .pop, calls, history⟩ ∧ System.Returned ⟨e, .pop, calls, history⟩ := by
  have hstage : ∀ i, (calls i).stage = 0 := fun i => (Pc.quiet_of_resting (hresting i)).2.1
  refine ⟨⟨fun i hi => ?_, nofun⟩, fun i hi => ?_⟩
  · rw [hstage i] at hi
    cases hi
  · have h := hstage i
    rw [show calls i = _ from hi] at h
    cases h

/-- What holds of every running state in the life of a directory. -/
theorem drains_of_reachable (h : (life H fmt).Reachable (.running s)) :
    s.Drains ∧ s.Returned := by
  refine running_invariant (P := fun s => s.Drains ∧ s.Returned)
    (fun e calls history => drains_of_resting) ?_ h
  exact fun s label s' hs hd hstep => ⟨hd.1.step hs hstep, hd.2.step hs.stages hstep⟩

variable {Fits : List TableRecord → Prop}

/-- The stages of a process, whether its worker fails or not. -/
theorem stages_of_reachable (h : (fittingProcess H fmt Fits).Reachable s) :
    Exclusive s ∧ Stages s ∧ s.Returned := by
  refine @Lts.Reachable.invariant _ _ (fittingProcess H fmt Fits)
    (fun s => Exclusive s ∧ Stages s ∧ s.Returned) ?_ ?_ s h
  · intro s hs
    have hinv : s.Invariant H := invariant_of_reachable (Lts.Reachable.of_restrict hs)
    exact ⟨hinv.exclusive, hinv.stages, (drains_of_reachable (Lts.Reachable.of_restrict hs)).2⟩
  · rintro s label s' ⟨hexclusive, hstages, hreturned⟩ ⟨hstep, -⟩
    exact ⟨hexclusive.step hstep, hstages.step hexclusive hstep, hreturned.step hstages hstep⟩

/-- When a shutdown has returned normally, the worker has not failed. -/
theorem not_failed_of_stopped (h : (fittingProcess H fmt Fits).Reachable s) {i : ι}
    (hstopped : s.calls i = .stopped true (.ok ())) : ¬s.Failed := by
  obtain ⟨-, hstages, hreturned⟩ := stages_of_reachable h
  rintro (⟨task, failure, locked, hworker⟩ | herror)
  · cases hworker.symm.trans (hstages.joined i (by rw [hstopped]; exact Nat.le_succ 6))
  · rw [hreturned i hstopped] at herror
    cases herror

end Life

/-! ## What is persisted -/

/-- A number is the largest sequence number of some records, and there is none for no records. -/
def LargestSequence (rs : List Record) : Option ℕ → Prop
  | none => rs = []
  | some checkpoint => (∃ r ∈ rs, r.sequence = checkpoint) ∧ ∀ r ∈ rs, r.sequence ≤ checkpoint

/-- The last record of a history has the largest one. -/
theorem largestSequence_lastSequence {rs : List Record} (hv : Wal.ValidHistory rs) :
    LargestSequence rs (lastSequence rs) := by
  cases hlast : lastSequence rs with
  | none => exact List.getLast?_eq_none_iff.1 (Option.map_eq_none_iff.1 hlast)
  | some checkpoint =>
    obtain ⟨hle, r, hr, hsequence⟩ := le_lastSequence hv hlast
    exact ⟨⟨r, hr, hsequence⟩, hle⟩

/-- An engine whose shutdown has persisted everything. -/
structure System.Persisted {F R ι : Type} (H : Hashing) (fmt : TableFormat F R) (s : System F ι) :
    Prop where
  exited : s.worker = .exited
  queue : s.engine.flushQueue = []
  active : ∀ active, s.engine.activeMemtable = some active → active.table.entries = []
  immutable : s.engine.immutableMemtable = none
  /-- Every record of the log has reached a Memtable. -/
  applied : s.history.applied = s.history.records
  /-- The live files answer as all records. -/
  live : ∀ key, fmt.Takes key → ∃ winner,
    s.engine.store.lookupFiles fmt s.engine.store.manifest.liveFiles key = .ok winner ∧
      (GetResult.of winner).answer = valueOf key s.history.applied
  /-- So do those that the MANIFEST file names. -/
  durable : ∀ key, fmt.Takes key → ∃ winner,
    s.engine.store.lookupFiles fmt s.engine.durable.liveFiles key = .ok winner ∧
      (GetResult.of winner).answer = valueOf key s.history.applied
  checkpoint : LargestSequence s.history.applied s.engine.store.manifest.persistedThrough ∧
    LargestSequence s.history.applied s.engine.durable.persistedThrough
  /-- The log has no record above the checkpoint. -/
  log : ∃ rs, s.engine.log.atPath = Wal.header ++ Wal.encodeRecords H rs ∧
    ∀ r ∈ rs, s.engine.durable.persistedThrough.any (r.sequence ≤ ·)
  /-- What `get` can see is of writes that have succeeded, or that an earlier crash has cut
  short. -/
  visible : ∀ key, ∀ v ∈ s.engine.versions fmt key, ∃ j r, (j, r) ∈ s.history.logged ∧
    r.key = key ∧ r.entry = v ∧
    ((∃ w, (s.calls j).progress = .applied w) ∨ ∃ crash, s.calls j = .lost crash)

section Persisted

variable {F R ι : Type} {H : Hashing} {fmt : TableFormat F R} {s : System F ι}

/-- Behind a barrier, a call with a record has succeeded, or was cut short. -/
theorem Stages.succeeded (hs : Stages s) {i : ι} (hi : 3 ≤ (s.calls i).stage)
    (ha : Acknowledged s.calls s.history) {j : ι} {r : Record} (hr : (j, r) ∈ s.history.logged) :
    (∃ w, (s.calls j).progress = .applied w) ∨ ∃ crash, s.calls j = .lost crash := by
  have howned := ha.owned j r hr
  have hwriting := hs.barrier i j hi
  cases hpc : s.calls j with
  | write w point =>
    rw [hpc] at howned hwriting
    cases point with
    | insert sequence locked => cases hwriting
    | leave result =>
      rcases result with failure | _
      · exact howned.elim
      · exact .inl ⟨w, rfl⟩
    | _ => exact howned.elim
  | wrote w result =>
    rw [hpc] at howned
    rcases result with failure | _
    · exact howned.elim
    · exact .inl ⟨w, rfl⟩
  | lost crash => exact .inr ⟨crash, rfl⟩
  | _ =>
    rw [hpc] at howned
    exact howned.elim

/-- What a shutdown that has returned normally leaves. -/
theorem System.Invariant.persisted (hs : s.Invariant H) (hc : Contents fmt s)
    (ha : Acknowledged s.calls s.history) (hd : s.Drains) (hr : s.Returned) {i : ι}
    (hstopped : s.calls i = .stopped true (.ok ())) : s.Persisted H fmt := by
  obtain ⟨g, hdata, hpending⟩ := hs.data
  have hstage : (s.calls i).stage = 7 := by rw [hstopped]; rfl
  have hpast : 3 ≤ (s.calls i).stage := hstage ▸ Nat.le_add_left 3 4
  have hexited := hs.stages.joined i (hstage ▸ Nat.le_succ 6)
  have herror := hr i hstopped
  have hnot : ¬s.engine.backgroundError.isSome := by simp [herror]
  have hqueue := (hd.popped hexited).resolve_left hnot
  have hempty := (hd.emptied i (hstage ▸ Nat.le_add_left 4 3)).resolve_left hnot
  -- The worker has exited with nothing in hand and nothing queued.
  have hslot : s.engine.immutableMemtable = none := by
    have htasks := hdata.tasks herror
    rw [hexited, hqueue] at htasks
    exact Option.toList_eq_nil_iff.1 htasks.symm
  -- All records are in the oldest generation.
  have hsealed := hdata.noSlot hslot
  have hrecent : g.recent = [] := by
    cases hactive : s.engine.activeMemtable with
    | none => exact hdata.noActive hactive
    | some active =>
      exact (hdata.active active hactive).2.entryCount_eq_zero_iff.1 (hempty active hactive)
  -- Behind the barrier no writer has a record between the log and the Memtable.
  have hnone : g.pending = [] := by
    by_contra hne
    obtain ⟨j, hj⟩ := hpending.found hne
    have hwriting := Pc.writing_of_pending (hj ▸ hne)
    rw [hs.stages.barrier i j hpast] at hwriting
    cases hwriting
  have happlied : s.history.applied = g.old := by
    rw [hdata.applied, Generations.applied, hsealed, hrecent, List.append_nil, List.append_nil]
  have hrecords : s.history.records = g.old := by
    rw [hdata.records, Generations.records, hnone, List.append_nil, ← hdata.applied, happlied]
  have hvalid : Wal.ValidHistory g.old := happlied ▸ hdata.history_applied
  -- The MANIFEST file covers all of them, as the one in memory does.
  have hdurable : g.durable = g.old := by
    refine hdata.durable_cases.elim id fun h => ?_
    rw [h, hsealed, List.append_nil]
  have hlive := hc.live
  have hfile := hc.durable
  rw [hdata.coveredBy_live, hexited] at hlive
  rw [hdata.coveredBy_durable, hdurable] at hfile
  -- A store that covers them answers with the last value of each key.
  have hanswers : ∀ {store : Store F}, store.Covers fmt g.old → ∀ key, fmt.Takes key →
      ∃ winner, store.lookupFiles fmt store.manifest.liveFiles key = .ok winner ∧
        (GetResult.of winner).answer = valueOf key s.history.applied := by
    intro store hcovers key hkey
    obtain ⟨winner, hreturns, hnewest⟩ := hcovers.lookupFiles hkey
    refine ⟨winner, hreturns, ?_⟩
    rw [happlied, ← answerOf_lastEntry]
    exact hcovers.answer hvalid hnewest
  have hcheckpoint := hdata.checkpoint
  rw [hexited] at hcheckpoint
  have hthrough : s.engine.durable.persistedThrough = lastSequence g.old :=
    hdurable ▸ hdata.durableCheckpoint
  refine ⟨hexited, hqueue, fun active hactive => List.length_eq_zero_iff.1 (hempty active hactive),
    hslot, happlied.trans hrecords.symm, hanswers hlive, hanswers hfile, ?_, ?_,
    fun key v hv => ?_⟩
  · rw [happlied, hcheckpoint, hthrough]
    exact ⟨largestSequence_lastSequence hvalid, largestSequence_lastSequence hvalid⟩
  · -- What is left in the log is covered by the checkpoint.
    refine ⟨g.logged, ?_, fun r hr => ?_⟩
    · exact hdata.atPath_eq
    · have hmem : r ∈ g.old := by
        rw [Generations.logged, hsealed, hrecent, hnone, List.append_nil, List.append_nil,
          List.append_nil] at hr
        exact List.mem_append_right _ hr
      have hlargest := largestSequence_lastSequence hvalid
      rw [hthrough]
      cases hlast : lastSequence g.old with
      | none =>
        rw [hlast] at hlargest
        rw [show g.old = [] from hlargest] at hmem
        cases hmem
      | some checkpoint =>
        rw [hlast] at hlargest
        exact decide_eq_true (hlargest.2 r hmem)
  · -- A version in a table is that of a write which was logged, and returned.
    obtain ⟨r, hr, hkey, hentry⟩ := hc.versions hs hv
    rw [happlied, ← hrecords] at hr
    obtain ⟨⟨j, r'⟩, hlogged, rfl⟩ := List.mem_map.1 hr
    exact ⟨j, r', hlogged, hkey, hentry,
      hs.stages.succeeded hpast ha hlogged⟩

end Persisted

/-! ## The barrier -/

section Barrier

variable {F R ι : Type} [DecidableEq ι] {H : Hashing} {fmt : TableFormat F R}
  {Fits : List TableRecord → Prop} {s s' : System F ι} {i : ι}

/-- A shutdown behind its barrier stays behind it, and no record is appended or applied any more. -/
theorem ProcessStep.behind_barrier {label : ProcessLabel F ι} (hs : Stages s)
    (hi : 3 ≤ (s.calls i).stage) (hstep : ProcessStep H fmt s label s') :
    3 ≤ (s'.calls i).stage ∧ s'.history = s.history := by
  constructor
  · cases hstep.moves i with
    | stays hsame => rwa [hsame]
    | woken hwoken => rwa [hwoken, Pc.stage_woken]
    | begins request hidle _ =>
      rw [hidle] at hi
      cases hi
    | acquires m pc hacquires hpc => rwa [hpc, (Pc.acquires_stage hacquires).1]
    | runs pc hcall hpc =>
      rw [hpc]
      generalize s.calls i = pc₀ at hcall hi
      generalize s'.engine = e, s'.history = h at hcall
      cases hcall with
      -- A call in this stage has published its shutdown already.
      | publish => cases hi
      | barrier => exact le_rfl
      | wait _ => exact hi
      | drain _ => exact Nat.le_succ 3
      | close error => exact Nat.le_add_left 3 2
      | report error => exact Nat.le_add_left 3 4
      | _ => cases hi
    | notifies hpc _ =>
      rw [hpc] at hi
      exact absurd hi (by show ¬3 ≤ 1; decide)
    | joins error _ _ hpc =>
      rw [hpc]
      exact Nat.le_add_left 3 3
  · cases hstep with
    | call j e h pc hcall =>
      -- No writer is past its check, so that no record is added.
      have hwriting := hs.barrier i j hi
      generalize s.calls j = pc₀ at hcall hwriting
      cases hcall with
      | append w => cases hwriting
      | insert w sequence => cases hwriting
      | _ => rfl
    | _ => rfl

/-- Along a run, a failure stays. -/
theorem failed_of_run {t : System F ι} {ls : List (ProcessLabel F ι)}
    (hrun : (fittingProcess H fmt Fits).Run t ls s) (h : t.Failed) : s.Failed := by
  refine hrun.invariant ?_ h
  rintro u label u' hu ⟨hstep, -⟩
  exact hstep.failed hu

/-- Along a run, a shutdown stays behind its barrier, and the history stays. -/
theorem history_of_run {t : System F ι} {ls : List (ProcessLabel F ι)}
    (ht : (fittingProcess H fmt Fits).Reachable t) (hrun : (fittingProcess H fmt Fits).Run t ls s)
    (hi : 3 ≤ (t.calls i).stage) : s.history = t.history := by
  have hstep : ∀ (u : System F ι) label u', ((fittingProcess H fmt Fits).Reachable u ∧
      3 ≤ (u.calls i).stage ∧ u.history = t.history) → (fittingProcess H fmt Fits).step u label u' →
      (fittingProcess H fmt Fits).Reachable u' ∧ 3 ≤ (u'.calls i).stage ∧
        u'.history = t.history := by
    rintro u label u' ⟨hu, hpast, hsame⟩ hstep
    obtain ⟨hpast', hsame'⟩ := hstep.1.behind_barrier (stages_of_reachable hu).2.1 hpast
    exact ⟨hu.step hstep, hpast', hsame'.trans hsame⟩
  exact (hrun.invariant hstep ⟨ht, hi, rfl⟩).2.2

/-- **A graceful shutdown persists everything.** When the first shutdown returns normally,
everything is in the live SSTables. From its barrier on, no writer appends, and what a lookup
answers stays. -/
def ShutdownsPersist (H : Hashing) (fmt : TableFormat F R)
    (M : Lts (System F ι) (ProcessLabel F ι)) : Prop :=
  (∀ s i, M.Reachable s → s.calls i = .stopped true (.ok ()) → s.Persisted H fmt ∧
    ∀ t ls, M.Reachable t → M.Run t ls s → 3 ≤ (t.calls i).stage →
      t.history = s.history ∧ ∀ key, fmt.Takes key → ∃ winner winner',
        t.engine.lookup fmt key = .ok winner ∧ s.engine.lookup fmt key = .ok winner' ∧
          (GetResult.of winner).answer = (GetResult.of winner').answer) ∧
  ∀ t i j w, M.Reachable t → 3 ≤ (t.calls i).stage → t.calls j ≠ .write w .append

end Barrier

/-- It does so in every process whose tables fit and whose readers look up keys that can be
hashed. -/
theorem shutdownsPersist {ι : Type} [DecidableEq ι] (crc32 : Bytes → UInt32) :
    ShutdownsPersist (.vendored crc32) (Sstable.format crc32)
      (fittingProcess (.vendored crc32) (Sstable.format crc32) Sstable.TableFits :
        Lts (System Bytes ι) (ProcessLabel Bytes ι)) := by
  refine ⟨fun s i hs hstopped => ?_, fun t i j w ht hi hj => ?_⟩
  · have hnot := not_failed_of_stopped hs hstopped
    have hcontents : ∀ {t : System Bytes ι},
        (fittingProcess (.vendored crc32) (Sstable.format crc32) Sstable.TableFits).Reachable t →
          ¬t.Failed → (life (.vendored crc32) (Sstable.format crc32)).Reachable (.running t) ∧
            t.Invariant (.vendored crc32) ∧ Contents (Sstable.format crc32) t := by
      intro t ht hnot
      have hlife := life_of_workingProcess ((working_or_failed ht).resolve_right hnot)
      exact ⟨hlife.of_restrict,
        contents_of_reachable (fun _ => Sstable.format_represents crc32) hlife⟩
    obtain ⟨hlife, hinv, hc⟩ := hcontents hs hnot
    obtain ⟨hdrains, hreturned⟩ := drains_of_reachable hlife
    refine ⟨hinv.persisted hc (acknowledged_of_reachable hlife) hdrains hreturned hstopped,
      fun t ls ht hrun hi => ?_⟩
    have hhistory := history_of_run ht hrun hi
    refine ⟨hhistory.symm, fun key hkey => ?_⟩
    -- A failure before would have stayed.
    have hnot' : ¬t.Failed := fun hfailed => hnot (failed_of_run hrun hfailed)
    obtain ⟨-, hinv', hc'⟩ := hcontents ht hnot'
    obtain ⟨winner, hreturns, hanswer⟩ := hc'.recovers hinv' key hkey
    obtain ⟨winner', hreturns', hanswer'⟩ := hc.recovers hinv key hkey
    exact ⟨winner, winner', hreturns, hreturns', by rw [hanswer, hanswer', hhistory]⟩
  · have hwriting := (stages_of_reachable ht).2.1.barrier i j hi
    rw [hj] at hwriting
    cases hwriting

/-! ## A shutdown behind a flush -/

namespace Reachable

variable {F R ι : Type} [DecidableEq ι] {H : Hashing} {fmt : TableFormat F R}
  {M : Lts (System F ι) (ProcessLabel F ι)} {s : System F ι} {i : ι}

/-- A shutdown that has handed over closes the queue, and returns when the worker has left its loop,
which finds the queue empty. -/
theorem stop (hcalls : HasCalls H fmt M) (hworks : HasWorker H fmt M) (hs : M.Reachable s)
    (halone : s.Alone i) (hworker : s.worker = .pop) (hqueue : s.engine.flushQueue = [])
    (herror : s.engine.backgroundError = none) (hi : s.calls i = .shutdown (.close none)) :
    M.Reachable (System.put ⟨s.engine, .exited, s.calls, s.history⟩ i (.stopped true (.ok ()))
      { s.engine with queueClosed := true } s.history) := by
  have hclosed := call hcalls (by rwa [System.put_self hi]) (.close none)
  have hexited : M.Reachable (System.put ⟨s.engine, .exited, s.calls, s.history⟩ i
      (.shutdown (.join none)) { s.engine with queueClosed := true } s.history) := by
    have hdrained : WorkerStep H fmt { s.engine with queueClosed := true } none s.worker
        { s.engine with queueClosed := true } .exited := hworker ▸ .drained hqueue rfl
    exact hclosed.step (hworks _ _ _ (.worker none _ _ hdrained) trivial)
  have hjoined : M.Reachable (System.put ⟨s.engine, .exited, s.calls, s.history⟩ i
      (.shutdown (.report none false)) { s.engine with queueClosed := true } s.history) := by
    have hstep := hexited.step
      (hcalls _ _ _ (.join i none (System.calls_put _ _ _ _ _) rfl) trivial)
    rwa [System.goto_put] at hstep
  have halone' : System.Alone ⟨s.engine, .exited, s.calls, s.history⟩ i := ⟨halone.calls, rfl⟩
  have hreports := acquire hcalls hjoined halone' (m := .state) rfl List.not_mem_nil
  have hreported := call hcalls hreports (.report none)
  rwa [show shutdownResult none s.engine.backgroundError = .ok () by rw [herror]; rfl] at hreported

end Reachable

/-- A shutdown returns normally over a value of 2^32 - 1 bytes. -/
theorem exists_stopped : ∃ s : System Bytes ℕ,
    (faultless vendoredSum (Sstable.format byteSum.crc32)).Reachable s ∧
      s.calls 1 = .stopped true (.ok ()) ∧
      s.history.applied = [(Write.put [] Sstable.largestValue).record 0] := by
  have hbuild := @Sstable.format_builds byteSum.crc32 [([], ⟨Sstable.largestValue, 0, .put⟩)]
    (List.cons_ne_nil _ _) (List.pairwise_singleton _ _) (by decide) (by simpa using by decide)
  obtain ⟨wal, active, store, through, -, ⟨f, file, htable⟩, hcommitted⟩ :=
    @oneCommitted_reachable _ _ vendoredSum (Sstable.format byteSum.crc32) 1048576 ⟨4, by decide⟩
      (.put [] Sstable.largestValue) (Nat.zero_le _) Sstable.length_largestValue.le hbuild
  have hcalls := @oneHandedOver_calls Bytes vendoredSum 1048576 ⟨4, by decide⟩
    (.put [] Sstable.largestValue) wal active
  have hinv : ∀ t : System Bytes ℕ,
      (faultless vendoredSum (Sstable.format byteSum.crc32)).Reachable t →
        t.Invariant vendoredSum := fun _ => invariant_of_faultless
  have hcleared := Reachable.clear hasWorker_faultless hinv (fun j => (hcalls j).1)
    (fun j => (hcalls j).2) hcommitted
  obtain ⟨log, hreclaimed⟩ := Reachable.reclaim hasWorker_faultless hinv (fun j => (hcalls j).1)
    hcleared rfl (htable.live ▸ show 1 < 4 by decide) htable.smallestKey_le
  have hstopped := Reachable.stop (i := 1) hasCalls_faultless hasWorker_faultless hreclaimed
    ⟨fun j _ => (hcalls j).1, rfl⟩ rfl rfl rfl rfl
  exact ⟨_, hstopped, System.calls_put _ _ _ _ _, rfl⟩

/-- Behind this shutdown, the value is not found. -/
theorem largestValue_not_persisted :
    ¬ShutdownsPersist vendoredSum (Sstable.format byteSum.crc32)
      (faultless vendoredSum (Sstable.format byteSum.crc32) :
        Lts (System Bytes ℕ) (ProcessLabel Bytes ℕ)) := by
  rintro ⟨hpersist, -⟩
  obtain ⟨s, hs, hstopped, happlied⟩ := exists_stopped
  obtain ⟨winner, hfound, hanswer⟩ := (hpersist s 1 hs hstopped).1.live []
    (show MurmurHash3.Fits [] by decide)
  have hlast : valueOf [] [(Write.put [] Sstable.largestValue).record 0] =
      some Sstable.largestValue := rfl
  rw [happlied, hlast] at hanswer
  have hshort := Sstable.length_of_answer hfound hanswer
  rw [Sstable.length_largestValue] at hshort
  exact lt_irrefl _ hshort

end Kronos
