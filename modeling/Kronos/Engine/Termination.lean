import Mathlib.Algebra.Order.BigOperators.Group.Finset
import Mathlib.Data.Prod.Lex
import Kronos.Base.Inevitable
import Kronos.Engine.Alert

/-!
# Every run comes to rest

As long as no call begins and nobody wakes for no reason, the threads of a process take finitely
many steps, whatever their order, and also when the I/O of the worker fails. What they can still do
is bounded by a rank (`System.rank`): a writer that waits can be woken again and again, but every
notification belongs to a Memtable that is flushed, to a failure or to a shutdown, of which there is
only one for every call that is under way.

Where a run ends, either every call has returned and the worker has nothing to do, or a writer and
the worker wait for each other (`comesToRest`). A shutdown resolves this as well, so that it always
returns (`shutdownReturns`).
-/

namespace Kronos

open KronosEngine

/-! ## What is left to do -/

/-- How often a call can still give the worker a Memtable, or wake the other calls. -/
def Pc.duties : Pc → ℕ
  | write _ .enter | write _ (.prepare ..) | write _ .asleep => 1
  | shutdown point => 7 - point.stage
  | _ => 0

/-- How many steps a call is away from the end of its stage, when there are `n` live SSTables. -/
def Pc.distance (n : ℕ) : Pc → ℕ
  | write _ .enter => 8
  | write _ (.prepare _ locked) => if locked then 6 else 7
  | write _ .asleep => 5
  | write _ .append => 4
  | write _ (.insert _ locked) => if locked then 2 else 3
  | write _ (.leave _) => 1
  | get _ (.active locked) => if locked then n + 6 else n + 7
  | get _ (.immutable _) => n + 5
  | get _ (.copy locked) => if locked then n + 3 else n + 4
  | get _ (.files rest _) => rest.length + 2
  | shutdown (.publish locked) | shutdown (.barrier locked) | shutdown (.drain locked)
  | shutdown (.report _ locked) => if locked then 1 else 2
  | _ => 0

/-- How many steps the worker is away from the end of its loop, when it takes no other Memtable. -/
def WorkerPc.distance : WorkerPc → ℕ
  | flush _ => 19
  | commitFlush _ _ locked => if locked then 17 else 18
  | clear _ _ locked => if locked then 15 else 16
  | notifyCleared _ => 14
  | reclaim _ locked => if locked then 12 else 13
  | checkSlot locked => if locked then 10 else 11
  | copyLive locked => if locked then 8 else 9
  | compact _ => 7
  | commitCompaction _ locked => if locked then 5 else 6
  | failed _ _ locked => if locked then 3 else 4
  | notifyFailed => 2
  | pop | closeQueue => 1
  | exited => 0

namespace Pc

/-- Waking a call leaves what it can still do. -/
@[simp] theorem duties_woken (pc : Pc) : pc.woken.duties = pc.duties := by
  unfold woken
  split <;> rfl

/-- It leaves whether the call is under way. -/
@[simp] theorem underWay_woken (pc : Pc) : pc.woken.underWay = pc.underWay := by
  unfold woken
  split <;> rfl

/-- To acquire a mutex is a step towards the end of a stage. -/
theorem distance_of_acquires {pc pc' : Pc} {m : Mutex} (h : pc.acquires = some (m, pc')) (n : ℕ) :
    pc'.duties = pc.duties ∧ pc'.distance n < pc.distance n ∧ pc.underWay = true := by
  unfold acquires at h
  split at h <;> cases h <;> refine ⟨rfl, ?_, rfl⟩ <;> simp [distance]

end Pc

/-- The acquisition of a mutex brings the worker closer to the end of its loop. -/
theorem WorkerPc.distance_of_acquires {pc pc' : WorkerPc} {m : Mutex}
    (h : pc.acquires = some (m, pc')) : pc'.distance < pc.distance := by
  unfold acquires at h
  split at h <;> cases h <;> simp [distance]

/-- A step of a thread that is under way, also of a worker whose I/O fails. -/
def ProcessLabel.Continues {F ι : Type} : ProcessLabel F ι → Prop
  | .acquire _ | .call _ | .workerAcquire | .worker _ => True
  | .invoke .. | .wake _ => False

/-! ## The sections -/

section Sections

variable {F R ι : Type} {H : Hashing} {fmt : TableFormat F R} {i : ι} {e e' : KronosEngine F}

/-- A call that runs a section is under way. -/
theorem CallStep.underWay {h h' : History ι} {pc pc' : Pc}
    (hstep : CallStep H fmt i e h pc e' h' pc') : pc.underWay = true := by
  cases hstep <;> rfl

/-- A section of a call discharges a duty, or it gets closer to the end of its stage and leaves the
queue. -/
theorem CallStep.advances {h h' : History ι} {pc pc' : Pc} (hopen : e.OpenFor pc)
    (hstep : CallStep H fmt i e h pc e' h' pc') :
    pc'.duties < pc.duties ∧ e'.flushQueue.length ≤ e.flushQueue.length + 1 ∨
      pc'.duties = pc.duties ∧ e'.flushQueue = e.flushQueue ∧
        pc'.distance e.store.manifest.liveFiles.length <
          pc.distance e.store.manifest.liveFiles.length := by
  have hhands := hstep.hands hopen
  cases hstep with
  | prepare w woken =>
    have hwaits := (hands_prepare (fun herror hshutdown => hopen herror (.inl hshutdown))
      woken w).2
    cases hresult : (e.prepareForWriteLocked woken w).1 with
    | ready => exact .inl ⟨Nat.one_pos, hhands.length_le⟩
    | threw failure => exact .inl ⟨Nat.one_pos, hhands.length_le⟩
    | waits => exact .inr ⟨rfl, by rw [(hwaits hresult).1], Nat.lt_succ_self 5⟩
  | append w =>
    cases ((w.call none).run H e.log.wal).1 with
    | ok sequence => exact .inr ⟨rfl, rfl, Nat.lt_succ_self 3⟩
    | error failure => exact .inr ⟨rfl, rfl, Nat.lt_add_of_pos_right (Nat.succ_pos 2)⟩
  | insert w sequence =>
    exact .inr ⟨rfl, (e.insertLocked_slot w sequence).2, Nat.lt_succ_self 1⟩
  | leave w result => exact .inr ⟨rfl, rfl, Nat.one_pos⟩
  | active key => cases e.lookupActive key <;> exact .inr ⟨rfl, rfl, by simp [Pc.distance]⟩
  | immutable key snapshot =>
    cases snapshot.bind (·.memtable.lookupEntry key) <;>
      exact .inr ⟨rfl, rfl, by simp [Pc.distance]⟩
  | copy key => exact .inr ⟨rfl, rfl, by simp [Pc.distance]⟩
  | file key f rest winner =>
    cases e.store.lookupFile fmt key winner f <;> exact .inr ⟨rfl, rfl, by simp [Pc.distance]⟩
  | answer key winner => exact .inr ⟨rfl, rfl, by simp [Pc.distance]⟩
  | wait hwait => exact .inr ⟨rfl, rfl, Nat.one_pos⟩
  -- The others are sections of a shutdown, which end its stage.
  | publish => cases e.shuttingDown <;> exact .inl ⟨by decide, hhands.length_le⟩
  | barrier => exact .inl ⟨by decide, hhands.length_le⟩
  | drain hgo => exact .inl ⟨Nat.lt_succ_self 3, hhands.length_le⟩
  | close error => exact .inl ⟨Nat.lt_succ_self 2, hhands.length_le⟩
  | report error => exact .inl ⟨Nat.one_pos, hhands.length_le⟩

/-- A section of the worker takes a Memtable from the queue, or it gets closer to the end of the
loop. -/
theorem WorkerStep.advances {fault : Option (WorkerFault F)} {pc pc' : WorkerPc}
    (hstep : WorkerStep H fmt e fault pc e' pc') :
    20 * e'.flushQueue.length + pc'.distance < 20 * e.flushQueue.length + pc.distance := by
  have hcommit : ∀ edit fault, (e.commitEdit edit fault).2.flushQueue = e.flushQueue := by
    intro edit fault
    have hcases := e.commitEdit_cases edit fault
    generalize e.commitEdit edit fault = result at hcases
    cases hcases <;> rfl
  -- Behind a section that may throw, the worker goes on or records its failure.
  have hbehind : ∀ {task : Option SharedMemtable} {next : WorkerPc} (result : Except Failure Unit),
      next.distance < pc.distance → 4 < pc.distance →
        (WorkerPc.behind task next result).distance < pc.distance := by
    rintro task next (failure | _) hnext hfails
    · exact hfails
    · exact hnext
  have hsame : e'.flushQueue = e.flushQueue → pc'.distance < pc.distance →
      20 * e'.flushQueue.length + pc'.distance < 20 * e.flushQueue.length + pc.distance := by
    intro hqueue hless
    rw [hqueue]
    exact Nat.add_lt_add_left hless _
  cases hstep with
  | pop task rest hqueue =>
    rw [hqueue]
    show 20 * rest.length + 19 < 20 * (rest.length + 1) + 1
    omega
  | commitFlush task edit fault =>
    exact hsame (hcommit edit fault) (hbehind _ (by simp [WorkerPc.distance])
      (by simp [WorkerPc.distance]))
  | clear task flushedThrough =>
    refine hsame ?_ (hbehind _ (by simp [WorkerPc.distance]) (by simp [WorkerPc.distance]))
    unfold clearImmutable
    split_ifs <;> rfl
  | reclaim flushedThrough fault =>
    exact hsame rfl (hbehind _ (by simp [WorkerPc.distance]) (by simp [WorkerPc.distance]))
  | checkSlot =>
    refine hsame rfl ?_
    split_ifs <;> simp [WorkerPc.distance]
  | commitCompaction edit fault =>
    exact hsame (hcommit edit fault) (hbehind _ (by simp [WorkerPc.distance])
      (by simp [WorkerPc.distance]))
  | record task failure =>
    refine hsame ?_ (by simp [WorkerPc.distance])
    unfold recordFailure
    split_ifs <;> rfl
  | _ => exact hsame rfl (by simp [WorkerPc.distance])

end Sections

/-! ## The rank of a state -/

section Rank

variable {F R ι : Type} {H : Hashing} {fmt : TableFormat F R} {s s' : System F ι} {A : Finset ι}

/-- What is left to do, when no other calls than these are under way: the duties first, with the
Memtables that are queued and the work on the current one, and then the steps within the stages. -/
def System.rank (A : Finset ι) (s : System F ι) : ℕ ×ₗ ℕ :=
  toLex (21 * ∑ i ∈ A, (s.calls i).duties + 20 * s.engine.flushQueue.length + s.worker.distance,
    ∑ i ∈ A, (s.calls i).distance s.engine.store.manifest.liveFiles.length)

/-- The calls that are under way are among these. -/
def System.Within (A : Finset ι) (s : System F ι) : Prop :=
  ∀ i, (s.calls i).underWay = true → i ∈ A

/-- The rank is less, when fewer duties are left. -/
theorem System.rank_lt_of_duties
    (h : 21 * ∑ i ∈ A, (s'.calls i).duties + 20 * s'.engine.flushQueue.length + s'.worker.distance <
      21 * ∑ i ∈ A, (s.calls i).duties + 20 * s.engine.flushQueue.length + s.worker.distance) :
    s'.rank A < s.rank A :=
  Prod.Lex.toLex_lt_toLex.2 (.inl h)

variable [DecidableEq ι]

/-- A sum over the calls, behind the move of one of them. -/
theorem System.sum_goto (f : Pc → ℕ) {i : ι} (hi : i ∈ A) (pc : Pc) :
    ∑ j ∈ A, f ((s.goto i pc).calls j) + f (s.calls i) = ∑ j ∈ A, f (s.calls j) + f pc :=
  sum_update f s.calls hi pc

/-- The rank is less behind a move of a call that discharges a duty, or that gets closer to the end
of its stage. -/
theorem System.rank_goto_lt {i : ι} (hi : i ∈ A) {pc : Pc} {e : KronosEngine F} {h : History ι}
    (hlive : e.store.manifest.liveFiles = s.engine.store.manifest.liveFiles)
    (hless : pc.duties < (s.calls i).duties ∧
        e.flushQueue.length ≤ s.engine.flushQueue.length + 1 ∨
      pc.duties = (s.calls i).duties ∧ e.flushQueue = s.engine.flushQueue ∧
        pc.distance s.engine.store.manifest.liveFiles.length <
          (s.calls i).distance s.engine.store.manifest.liveFiles.length) :
    System.rank A { s.goto i pc with engine := e, history := h } < s.rank A := by
  have hduties := System.sum_goto (s := s) Pc.duties hi pc
  rcases hless with ⟨hless, hqueue⟩ | ⟨hsame, hqueue, hless⟩
  · refine System.rank_lt_of_duties ?_
    show 21 * ∑ j ∈ A, ((s.goto i pc).calls j).duties + 20 * e.flushQueue.length + _ < _
    show _ + s.worker.distance < _
    omega
  · refine Prod.Lex.toLex_lt_toLex.2 (.inr ⟨?_, ?_⟩)
    · show 21 * ∑ j ∈ A, ((s.goto i pc).calls j).duties + 20 * e.flushQueue.length +
        s.worker.distance = _
      rw [hqueue]
      omega
    · show ∑ j ∈ A, ((s.goto i pc).calls j).distance e.store.manifest.liveFiles.length < _
      rw [hlive]
      have hdistance := System.sum_goto (s := s)
        (Pc.distance s.engine.store.manifest.liveFiles.length) hi pc
      omega

omit [DecidableEq ι] in
/-- A notification leaves the duties. -/
theorem System.duties_wakeAll (s : System F ι) (A : Finset ι) :
    ∑ i ∈ A, (s.wakeAll.calls i).duties = ∑ i ∈ A, (s.calls i).duties :=
  Finset.sum_congr rfl fun i _ => Pc.duties_woken (s.calls i)

/-- **A step of a thread decreases the rank.** -/
theorem ProcessStep.rank_lt (hs : Stages s) (hwithin : s.Within A) {label : ProcessLabel F ι}
    (hstep : ProcessStep H fmt s label s') (hcontinues : label.Continues) :
    s'.rank A < s.rank A := by
  cases hstep with
  | invoke => cases hcontinues
  | wake => cases hcontinues
  | acquire i m pc hacquires _ =>
    obtain ⟨hduties, hless, hunderWay⟩ := Pc.distance_of_acquires hacquires
      s.engine.store.manifest.liveFiles.length
    exact System.rank_goto_lt (e := s.engine) (h := s.history) (hwithin i hunderWay) rfl
      (.inr ⟨hduties, rfl, hless⟩)
  | call i e h pc hcall =>
    have hlive : e.store.manifest.liveFiles = s.engine.store.manifest.liveFiles := by
      rw [hcall.sameTables.1]
    exact System.rank_goto_lt (hwithin i hcall.underWay) hlive (hcall.advances (hs.openFor i))
  -- Waking the others gives them nothing more to do.
  | notify i hpc =>
    have hduties := System.sum_goto (s := s) Pc.duties (hwithin i (hpc ▸ rfl))
      (.shutdown (.barrier false))
    rw [hpc] at hduties
    refine System.rank_lt_of_duties ?_
    rw [System.duties_wakeAll]
    show _ + 20 * s.engine.flushQueue.length + s.worker.distance < _
    simp only [Pc.duties, ShutdownPoint.stage] at hduties ⊢
    omega
  | join i error hpc _ =>
    refine System.rank_goto_lt (e := s.engine) (h := s.history) (hwithin i (hpc ▸ rfl)) rfl
      (.inl ⟨?_, Nat.le_succ _⟩)
    rw [hpc]
    exact Nat.lt_succ_self 1
  | workerAcquire m pc hacquires _ =>
    refine System.rank_lt_of_duties (Nat.add_lt_add_left ?_ _)
    exact WorkerPc.distance_of_acquires hacquires
  -- A pop shortens the queue by more than the worker has left to do.
  | worker fault e pc hwork =>
    refine System.rank_lt_of_duties ?_
    have hless := hwork.advances
    show _ + 20 * e.flushQueue.length + pc.distance < _
    show 21 * ∑ i ∈ A, (s.calls i).duties + _ + _ < _
    omega
  | notifyCleared through hworker =>
    refine System.rank_lt_of_duties ?_
    show 21 * ∑ i ∈ A, (s.wakeAll.calls i).duties + _ + 13 < _
    rw [System.duties_wakeAll, hworker]
    exact Nat.lt_succ_self _
  | notifyFailed hworker =>
    refine System.rank_lt_of_duties ?_
    show 21 * ∑ i ∈ A, (s.wakeAll.calls i).duties + _ + 1 < _
    rw [System.duties_wakeAll, hworker]
    exact Nat.lt_succ_self _

end Rank

/-! ## Where a run ends -/

section Rest

variable {F R ι : Type} {H : Hashing} {fmt : TableFormat F R} {s s' : System F ι} {A : Finset ι}

/-- Every call has returned, and the worker has left its loop, or waits for a Memtable. -/
structure System.AtRest (s : System F ι) : Prop where
  calls : ∀ i, (s.calls i).underWay = false
  worker : s.worker = .exited ∨
    s.worker = .pop ∧ s.engine.flushQueue = [] ∧ s.engine.queueClosed = false

/-- A writer and the worker wait for each other, before any shutdown, and every other call that has
not returned is a writer that waits for the first one. -/
structure System.HungUp (s : System F ι) : Prop where
  deadlocked : s.Deadlocked
  shuttingDown : s.engine.shuttingDown = false
  calls : ∀ i, (s.calls i).underWay = true →
    ∃ w, s.calls i = .write w .enter ∨ s.calls i = .write w .asleep

variable [DecidableEq ι]

/-- No thread can take a step. -/
def System.Halts (H : Hashing) (fmt : TableFormat F R) (s : System F ι) : Prop :=
  ∀ label s', ProcessStep H fmt s label s' → ¬label.Continues

/-- A thread that can proceed continues. -/
theorem System.Halts.stuck (h : s.Halts H fmt) : ¬s.MayProceed H fmt := by
  rintro ⟨label, s', hstep, hproceeds⟩
  refine h label s' hstep ?_
  cases label with
  | invoke => cases hproceeds
  | wake => cases hproceeds
  | _ => trivial

/-- Where no thread can take a step, a call that is under way sleeps, or waits for `write_mutex_`,
or for the worker. -/
theorem System.Halts.waits (h : s.Halts H fmt) {i : ι} (hi : (s.calls i).underWay = true) :
    (s.calls i).sleeping = true ∨ (∃ pc, (s.calls i).acquires = some (.write, pc)) ∨
      ∃ error, s.calls i = .shutdown (.join error) := by
  obtain ⟨-, hfree, -⟩ := System.held_of_stuck h.stuck
  cases hnext : (s.calls i).acquires with
  | some next =>
    obtain ⟨m, pc⟩ := next
    by_cases hm : m = .write
    · exact .inr (.inl ⟨pc, hm ▸ rfl⟩)
    · exact absurd trivial (h _ _ (.acquire i m pc hnext (hfree m hm)))
  | none =>
    rcases @CallStep.exists_of_underWay _ _ _ H fmt i s.engine s.history _ hi hnext with
      hsleeping | (hnotify | hjoin) | ⟨e, h', pc, hstep⟩
    · exact .inl hsleeping
    · exact absurd trivial (h _ _ (.notify i hnotify))
    · exact .inr (.inr hjoin)
    · exact absurd trivial (h _ _ (.call i e h' pc hstep))

/-- Where no thread can take a step, nobody is about to notify the sleepers. -/
theorem System.Halts.not_notifying (h : s.Halts H fmt) : ¬s.Notifying := by
  rintro (⟨through, hworker⟩ | hworker | ⟨i, hi⟩)
  · exact h _ _ (.notifyCleared through hworker) trivial
  · exact h _ _ (.notifyFailed hworker) trivial
  · exact h _ _ (.notify i hi) trivial

/-- Where the worker waits for a Memtable or has left its loop, everything is at rest. -/
theorem System.Halts.atRest (h : s.Halts H fmt) (ha : s.Alert)
    (hworker : s.worker = .exited ∨ s.worker = .pop ∧ s.engine.flushQueue = []) : s.AtRest := by
  obtain ⟨hheld, -, hsleeps⟩ := System.held_of_stuck h.stuck
  have hopen : s.worker = .pop → s.engine.flushQueue = [] → s.engine.queueClosed = false := by
    intro hpop hqueue
    rw [Bool.eq_false_iff]
    exact fun hclosed =>
      h _ _ (.worker none _ _ (hpop ▸ WorkerStep.drained hqueue hclosed)) trivial
  -- The Memtable that a sleeper waits for would be queued, or with the worker.
  have hawake : ∀ i, (s.calls i).sleeping = false := by
    intro i
    rw [Bool.eq_false_iff]
    intro hi
    obtain ⟨hslot, herror⟩ := (ha.asleep i hi).resolve_left h.not_notifying
    have hbusy := ha.busy hslot herror
    rcases hworker with hexited | ⟨hpop, hqueue⟩
    · rw [hexited, ha.drained hexited herror] at hbusy
      rcases hbusy with hne | htask
      · exact hne rfl
      · cases htask
    · rw [hpop, hqueue] at hbusy
      rcases hbusy with hne | htask
      · exact hne rfl
      · cases htask
  -- Nobody sleeps with the mutex of the writers.
  have hfree : s.Free .write := by
    refine ⟨fun j hj => ?_, hheld ▸ List.not_mem_nil⟩
    obtain ⟨w, hasleep⟩ := hsleeps j (List.ne_nil_of_mem hj)
    have hnot := hawake j
    rw [hasleep] at hnot
    cases hnot
  refine ⟨fun i => ?_, hworker.imp_right fun ⟨hpop, hqueue⟩ => ⟨hpop, hqueue, hopen hpop hqueue⟩⟩
  rw [Bool.eq_false_iff]
  intro hi
  -- A call under way would sleep, or could acquire its mutex, or could join the worker.
  rcases h.waits hi with hsleeping | ⟨pc, hacquires⟩ | ⟨error, hjoin⟩
  · rw [hawake i] at hsleeping
    cases hsleeping
  · exact h _ _ (.acquire i _ pc hacquires hfree) trivial
  · rcases hworker with hexited | ⟨hpop, hqueue⟩
    · exact h _ _ (.join i error hjoin hexited) trivial
    · have hclosed := ha.closed i (hjoin ▸ le_rfl)
      rw [hopen hpop hqueue] at hclosed
      cases hclosed

/-- **Where no thread can take a step**, everything is at rest, or a writer and the worker wait for
each other. -/
theorem System.Halts.ends (h : s.Halts H fmt) (hs : Stages s) (ha : s.Alert) :
    s.AtRest ∨ s.HungUp := by
  obtain ⟨hheld, hfree, hsleeps⟩ := System.held_of_stuck h.stuck
  cases hnext : s.worker.acquires with
  | none =>
    refine .inl (h.atRest ha ?_)
    by_contra hbusy
    obtain ⟨hexited, hpop⟩ := not_or.1 hbusy
    exact h.stuck (System.mayProceed_of_worker hnext hexited fun hp hq => hpop ⟨hp, hq⟩)
  | some next =>
    obtain ⟨m, pc⟩ := next
    by_cases hm : m = .write
    · subst hm
      obtain ⟨through, hreclaim⟩ := WorkerPc.acquires_write hnext
      -- The worker waits for a mutex that only a sleeping writer can hold.
      obtain ⟨j, hj⟩ : ∃ j, Mutex.write ∈ (s.calls j).held := by
        by_contra hnone
        exact h _ _ (.workerAcquire .write pc hnext
          ⟨not_exists.1 hnone, hheld ▸ List.not_mem_nil⟩) trivial
      obtain ⟨w, hasleep⟩ := hsleeps j (List.ne_nil_of_mem hj)
      have hrunning : s.engine.shuttingDown = false := by
        rw [Bool.eq_false_iff]
        intro hshutdown
        obtain ⟨k, hk⟩ := ha.writers hshutdown j w hasleep
        exact h.not_notifying (.inr (.inr ⟨k, hk⟩))
      have hstage : ∀ i, (s.calls i).stage = 0 := by
        intro i
        refine Nat.eq_zero_of_not_pos fun hi => ?_
        cases hrunning.symm.trans (hs.published i hi)
      refine .inr ⟨⟨⟨j, w, hasleep⟩, through, hreclaim⟩, hrunning, fun i hi => ?_⟩
      have hi' := hstage i
      rcases h.waits hi with hsleeping | ⟨pc', hacquires⟩ | ⟨error, hjoin⟩
      · generalize s.calls i = pc₀ at hsleeping hi'
        unfold Pc.sleeping at hsleeping
        split at hsleeping
        · exact ⟨_, .inr rfl⟩
        · cases hi'
        · cases hsleeping
      · generalize s.calls i = pc₀ at hacquires hi'
        unfold Pc.acquires at hacquires
        split at hacquires <;> cases hacquires
        · exact ⟨_, .inl rfl⟩
        · cases hi'
      · rw [hjoin] at hi'
        cases hi'
    · exact absurd trivial (h _ _ (.workerAcquire m pc hnext (hfree m hm)))

end Rest

/-! ## Runs -/

section Runs

variable {F R ι : Type} [DecidableEq ι]

/-- A system without its steps that begin a call or wake one for no reason. -/
def continuing (M : Lts (System F ι) (ProcessLabel F ι)) : Lts (System F ι) (ProcessLabel F ι) :=
  M.restrict fun _ label => label.Continues

variable {H : Hashing} {fmt : TableFormat F R} {s s' : System F ι} {A : Finset ι}

/-- What holds in every state of a process, also of one whose log cannot be reclaimed. -/
structure System.Steady (s : System F ι) : Prop where
  exclusive : Exclusive s
  stages : Stages s
  alert : s.Alert

/-- A step keeps a process steady. -/
theorem System.Steady.step (h : s.Steady) {label : ProcessLabel F ι}
    (hstep : ProcessStep H fmt s label s') : s'.Steady :=
  ⟨h.exclusive.step hstep, h.stages.step h.exclusive hstep, h.alert.step h.stages hstep⟩

/-- A call at rest is not under way, and does not sleep. -/
theorem Pc.idle_of_resting {pc : Pc} (h : pc.resting = true) :
    pc.underWay = false ∧ pc.sleeping = false := by
  cases pc with
  | write => cases h
  | get => cases h
  | shutdown => cases h
  | _ => exact ⟨rfl, rfl⟩

omit [DecidableEq ι] in
/-- An engine that was just constructed is steady, when no call is under way. -/
theorem System.steady_of_resting {store : Store F} {active : Memtable} {wal : Wal}
    {memtableTargetBytes : ℕ} {compactionPolicy : CompactionPolicy}
    (hengine : s.engine = opened store active wal memtableTargetBytes compactionPolicy)
    (hworker : s.worker = .pop) (hresting : ∀ i, (s.calls i).resting = true) :
    s.Steady ∧ s.Within ∅ := by
  -- No call is under way, so that what is said of calls is void.
  have hquiet := fun i => Pc.quiet_of_resting (hresting i)
  have hidle := fun i => Pc.idle_of_resting (hresting i)
  have hstage : ∀ {i : ι} {n : ℕ}, 0 < n → ¬n ≤ (s.calls i).stage := by
    intro i n hn hle
    rw [(hquiet i).2.1] at hle
    exact absurd (hn.trans_le hle) (lt_irrefl 0)
  have hheld : ∀ m i, m ∉ (s.calls i).held := by
    intro m i hm
    rw [(hquiet i).1] at hm
    cases hm
  have hawake : ∀ i, ¬(s.calls i).sleeping = true := by
    intro i hi
    rw [(hidle i).2] at hi
    cases hi
  have hexited : s.worker ≠ .exited := by
    rw [hworker]
    nofun
  refine ⟨⟨⟨fun m i j hi => absurd hi (hheld m i), fun m i hi => absurd hi (hheld m i)⟩, ?_, ?_⟩,
    fun i hi => ?_⟩
  · refine ⟨fun i j hi => absurd hi (hstage Nat.one_pos),
      fun i hi => absurd hi (hstage Nat.one_pos), fun hflag => ?_,
      fun i j hi => absurd hi (hstage (Nat.succ_pos 2)), fun hnone => ?_,
      fun hclosed => ?_, fun i hi => absurd hi (hstage (Nat.succ_pos 5)),
      fun h => absurd h hexited, fun hending => ?_, fun herror => ?_⟩
    · rw [hengine] at hflag
      cases hflag
    · rw [hengine] at hnone
      cases hnone
    · rw [hengine] at hclosed
      cases hclosed
    · rw [hworker] at hending
      cases hending
    · rw [hengine] at herror
      cases herror
  · refine ⟨fun hslot => ?_, fun i hi => absurd hi (hawake i), fun _ i w hi => ?_,
      fun i hi => absurd hi (hstage (Nat.succ_pos 4)), fun h => absurd h hexited⟩
    · rw [hengine] at hslot
      cases hslot
    · exact absurd (hi ▸ rfl) (hawake i)
  · rw [(hidle i).1] at hi
    cases hi

/-- A step begins at most one call. -/
theorem ProcessStep.within (hwithin : s.Within A) {label : ProcessLabel F ι}
    (hstep : ProcessStep H fmt s label s') :
    ∃ B, s'.Within B ∧ (label.Continues → B = A) := by
  have hgoto : ∀ {i : ι} {pc : Pc}, (pc.underWay = true → (s.calls i).underWay = true) →
      (s.goto i pc).Within A := by
    intro i pc hpc j hj
    rw [System.calls_goto] at hj
    split_ifs at hj with hji
    · exact hji ▸ hwithin i (hpc hj)
    · exact hwithin j hj
  have hwoken : ∀ {pc : Pc}, pc.woken.underWay = true → pc.underWay = true := by
    intro pc hpc
    rwa [Pc.underWay_woken] at hpc
  cases hstep with
  -- Only a call that begins is one more.
  | invoke i request hidle =>
    refine ⟨insert i A, fun j hj => ?_, fun hcontinues => hcontinues.elim⟩
    rw [System.calls_goto] at hj
    split_ifs at hj with hji
    · exact hji ▸ Finset.mem_insert_self i A
    · exact Finset.mem_insert_of_mem (hwithin j hj)
  | acquire i m pc hacquires _ =>
    exact ⟨A, hgoto fun _ => (Pc.distance_of_acquires hacquires 0).2.2, fun _ => rfl⟩
  | call i e h pc hcall => exact ⟨A, hgoto fun _ => hcall.underWay, fun _ => rfl⟩
  | notify i hpc =>
    have hpassed : (s.goto i (.shutdown (.barrier false))).Within A := hgoto fun _ => hpc ▸ rfl
    exact ⟨A, fun j hj => hpassed j (hwoken hj), fun _ => rfl⟩
  | join i error hpc _ => exact ⟨A, hgoto fun _ => hpc ▸ rfl, fun _ => rfl⟩
  | wake i => exact ⟨A, hgoto hwoken, fun _ => rfl⟩
  | notifyCleared through _ => exact ⟨A, fun i hi => hwithin i (hwoken hi), fun _ => rfl⟩
  | notifyFailed _ => exact ⟨A, fun i hi => hwithin i (hwoken hi), fun _ => rfl⟩
  | _ => exact ⟨A, hwithin, fun _ => rfl⟩

/-- An engine that was just opened is steady, and so is every state that its process reaches. Only
finitely many calls are under way. -/
theorem steady_of_reachable (h : (process H fmt).Reachable s) :
    s.Steady ∧ ∃ A : Finset ι, s.Within A := by
  refine @Lts.Reachable.invariant _ _ (process H fmt)
    (fun s => s.Steady ∧ ∃ A : Finset ι, s.Within A) ?_ ?_ s h
  · intro s hopened
    obtain ⟨store, active, wal, memtableTargetBytes, compactionPolicy, hengine⟩ := hopened.engine
    obtain ⟨hsteady, hwithin⟩ :=
      System.steady_of_resting hengine hopened.worker (resting_of_opened hopened)
    exact ⟨hsteady, ∅, hwithin⟩
  · rintro s label s' ⟨hsteady, A, hwithin⟩ hstep
    obtain ⟨B, hB, -⟩ := hstep.within hwithin
    exact ⟨hsteady.step hstep, B, hB⟩

/-- From a steady state, every run ends, and it ends at rest or hung up. -/
theorem System.Steady.inevitable (h : s.Steady) (hwithin : s.Within A) :
    (continuing (process H fmt)).Inevitable (fun t => t.AtRest ∨ t.HungUp) s := by
  refine @Lts.Inevitable.of_rank _ _ (continuing (process H fmt)) _ _ _ _
    (fun s => s.Steady ∧ s.Within A) (System.rank A) ?_ ?_ s ⟨h, hwithin⟩
  · rintro s label s' ⟨hsteady, hwithin⟩ ⟨hstep, hcontinues⟩
    obtain ⟨B, hB, hsame⟩ := hstep.within hwithin
    exact ⟨⟨hsteady.step hstep, hsame hcontinues ▸ hB⟩,
      hstep.rank_lt hsteady.stages hwithin hcontinues⟩
  · rintro s ⟨hsteady, -⟩ hhalts
    have hhalts' : s.Halts H fmt := fun label s' hstep hcontinues =>
      hhalts label s' ⟨hstep, hcontinues⟩
    exact hhalts'.ends hsteady.stages hsteady.alert

/-- **Every run comes to rest**, unless a writer and the worker wait for each other: from any state
of a process on, the calls that are under way and the worker take finitely many steps, in any order
and with any failures of I/O. -/
def ComesToRest (M : Lts (System F ι) (ProcessLabel F ι)) : Prop :=
  ∀ s, M.Reachable s → (continuing M).Inevitable (fun t => t.AtRest ∨ t.HungUp) s

/-- **A shutdown returns.** From any state on in which one is published or under way, all calls
return and the worker leaves its loop, also if a writer and the worker waited for each other. -/
def ShutdownsReturn (M : Lts (System F ι) (ProcessLabel F ι)) : Prop :=
  ∀ s, M.Reachable s →
    (s.engine.shuttingDown = true ∨ ∃ i point, s.calls i = .shutdown point) →
      (continuing M).Inevitable
        (fun t => (∀ i, (t.calls i).underWay = false) ∧ t.worker = .exited) s

end Runs

/-- Every run of a process comes to rest or hangs up. -/
theorem comesToRest {F R ι : Type} [DecidableEq ι] (H : Hashing) (fmt : TableFormat F R) :
    ComesToRest (process H fmt : Lts (System F ι) (ProcessLabel F ι)) := by
  intro s hs
  obtain ⟨hsteady, A, hwithin⟩ := steady_of_reachable hs
  exact hsteady.inevitable hwithin

/-- A shutdown is published, or is about to be. -/
def System.Stopping {F ι : Type} (s : System F ι) : Prop :=
  s.engine.shuttingDown = true ∨ ∃ i locked, s.calls i = .shutdown (.publish locked)

section Stopping

variable {F R ι : Type} [DecidableEq ι] {H : Hashing} {fmt : TableFormat F R} {s s' : System F ι}

/-- A step lets the shutdown go on. -/
theorem System.Stopping.step (h : s.Stopping) {label : ProcessLabel F ι}
    (hstep : ProcessStep H fmt s label s') : s'.Stopping := by
  rcases h with hshutdown | ⟨i, locked, hi⟩
  · exact .inl (hstep.shuttingDown hshutdown)
  cases hstep.moves i with
  | stays hsame => exact .inr ⟨i, locked, hsame.trans hi⟩
  | woken hwoken =>
    rw [hi] at hwoken
    exact .inr ⟨i, locked, hwoken⟩
  | begins request hidle _ => cases hi.symm.trans hidle
  | acquires m pc hacquires hpc =>
    rw [hi] at hacquires
    cases locked with
    | false =>
      cases hacquires
      exact .inr ⟨i, true, hpc⟩
    | true => cases hacquires
  | runs pc hcall hpc =>
    refine .inl ?_
    rw [hi] at hcall
    generalize s'.engine = e', s'.history = h' at hcall ⊢
    cases hcall with
    | publish => rfl
  | notifies hnotify _ => cases hi.symm.trans hnotify
  | joins error hjoin _ _ => cases hi.symm.trans hjoin

end Stopping

/-- A shutdown of a process returns. -/
theorem shutdownsReturn {F R ι : Type} [DecidableEq ι] (H : Hashing) (fmt : TableFormat F R) :
    ShutdownsReturn (process H fmt : Lts (System F ι) (ProcessLabel F ι)) := by
  intro s hs hshutdown
  obtain ⟨hsteady, A, hwithin⟩ := steady_of_reachable hs
  -- A shutdown that is under way has published itself, or is about to.
  have hstopping : s.Stopping := by
    rcases hshutdown with h | ⟨i, point, hi⟩
    · exact .inl h
    · cases point with
      | publish locked => exact .inr ⟨i, locked, hi⟩
      | _ => exact .inl (hsteady.stages.published i (hi ▸ Nat.succ_pos _))
  have hkept : ∀ (t : System F ι) (label : ProcessLabel F ι) (t' : System F ι),
      t.Steady ∧ t.Stopping → (continuing (process H fmt)).step t label t' →
        t'.Steady ∧ t'.Stopping := by
    rintro t label t' ⟨ht, hstop⟩ ⟨hstep, -⟩
    exact ⟨ht.step hstep, hstop.step hstep⟩
  refine (hsteady.inevitable hwithin).mono hkept ?_ ⟨hsteady, hstopping⟩
  · rintro t ⟨ht, hstop⟩ (hrest | hhung)
    · refine ⟨hrest.calls, ?_⟩
      rcases hstop with hflag | ⟨i, locked, hi⟩
      · -- The shutdown that has published it has returned, and has joined the worker.
        obtain ⟨i, hi⟩ := ht.stages.first hflag
        refine ht.stages.joined i ?_
        have hreturned := hrest.calls i
        generalize t.calls i = pc at hi hreturned
        cases pc with
        | shutdown => cases hreturned
        | stopped first result =>
          cases first with
          | true => exact Nat.le_succ 6
          | false => cases hi
        | _ => cases hi
      · have hreturned := hrest.calls i
        rw [hi] at hreturned
        cases hreturned
    · -- An engine that hangs is not shutting down.
      exfalso
      rcases hstop with hflag | ⟨i, locked, hi⟩
      · cases hhung.shuttingDown.symm.trans hflag
      · obtain ⟨w, henter | hasleep⟩ := hhung.calls i (hi ▸ rfl)
        · cases hi.symm.trans henter
        · cases hi.symm.trans hasleep

/-- A write that is about to return comes to rest. -/
theorem comesToRest_put : ∃ s : System Bytes ℕ, (s.calls 0).underWay = true ∧
    (continuing (process vendoredSum (Sstable.format byteSum.crc32))).Inevitable
      (fun t => t.AtRest ∨ t.HungUp) s := by
  have hfirst : (process vendoredSum (Sstable.format byteSum.crc32)).Reachable
      (System.first ℕ vendoredSum 1048576 ⟨4, by decide⟩) :=
    .initial (.inl (firstOpened_first _ _ _ _))
  obtain ⟨wal, active, -, -, hinserted⟩ := firstInserted (fun _ _ _ hstep _ => hstep) hfirst 0
    (w := .put [97] [1]) (by decide) (by decide)
  exact ⟨_, rfl, comesToRest _ _ _ hinserted⟩

/-- A shutdown that has handed over the Memtable of a write returns. -/
theorem shutdownsReturn_put : ∃ s : System Bytes ℕ,
    s.calls 1 = .shutdown (.close none) ∧ s.worker = .pop ∧ s.engine.flushQueue.length = 1 ∧
    (continuing (process vendoredSum (Sstable.format byteSum.crc32))).Inevitable
      (fun t => (∀ i, (t.calls i).underWay = false) ∧ t.worker = .exited) s := by
  have hfirst : (process vendoredSum (Sstable.format byteSum.crc32)).Reachable
      (System.first ℕ vendoredSum 1048576 ⟨4, by decide⟩) :=
    .initial (.inl (firstOpened_first _ _ _ _))
  obtain ⟨wal, active, -, hhanded⟩ := oneHandedOver_reachable (fun _ _ _ hstep _ => hstep) hfirst
    (w := .put [97] [1]) (by decide) (by decide)
  exact ⟨_, rfl, rfl, rfl, shutdownsReturn _ _ _ hhanded (.inl rfl)⟩

end Kronos
