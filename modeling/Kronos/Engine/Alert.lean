import Kronos.Engine.Failures

/-!
# Who wakes the sleepers

A call sleeps on `immutable_cleared_cv_` until a notification. That none is lost is an invariant of
every process (`System.Alert`), also of one whose I/O fails: the Memtable in the slot is queued, or
the worker has it, so that who waits for the slot waits for something that comes; between a change
that ends a wait and its notification, the thread that changed it stands before the notification;
and once a shutdown has notified, no writer sleeps again.
-/

namespace Kronos

open KronosEngine

/-! ## The Memtables that are handed over -/

/-- A section leaves the slot and the queue, or it puts one Memtable into both, while the slot is
free and the queue is open. -/
def KronosEngine.Hands {F : Type} (e e' : KronosEngine F) : Prop :=
  e'.immutableMemtable = e.immutableMemtable ∧ e'.flushQueue = e.flushQueue ∨
    e.queueClosed = false ∧ e.immutableMemtable = none ∧
      ∃ task, e'.immutableMemtable = some task ∧ e'.flushQueue = e.flushQueue ++ [task]

namespace KronosEngine

variable {F : Type} {e : KronosEngine F}

/-- Nothing is handed over. -/
theorem Hands.refl (e : KronosEngine F) : Hands e e := .inl ⟨rfl, rfl⟩

/-- At most one Memtable is handed over at once. -/
theorem Hands.length_le {e' : KronosEngine F} (h : Hands e e') :
    e'.flushQueue.length ≤ e.flushQueue.length + 1 := by
  rcases h with ⟨-, hqueue⟩ | ⟨-, -, task, -, hqueue⟩
  · exact hqueue ▸ Nat.le_succ _
  · rw [hqueue, List.length_append]
    exact le_rfl

/-- A Memtable that is shared is queued, as long as the queue is open. -/
theorem hands_push (hqueue : e.queueClosed = false) (hfree : e.immutableMemtable = none)
    (frozen : Memtable) (next : Option Memtable) :
    ∃ e', (e.share frozen next).push ⟨e.nextAddress, frozen⟩ = (true, e') ∧ Hands e e' := by
  have hopen : ¬(e.share frozen next).queueClosed = true := by simp [share, hqueue]
  exact ⟨_, if_neg hopen, .inr ⟨hqueue, hfree, ⟨e.nextAddress, frozen⟩, rfl, rfl⟩⟩

/-- A rotation hands over the Memtable that it freezes. -/
theorem hands_rotate (hqueue : e.queueClosed = false) : Hands e e.rotateActiveMemtableLocked.2 := by
  unfold rotateActiveMemtableLocked
  cases e.activeMemtable with
  | none => exact .refl e
  | some active =>
    dsimp only
    split_ifs with hoccupied hempty
    · exact .refl e
    · exact .refl e
    · have hfree : e.immutableMemtable = none := by simpa using hoccupied
      rcases active.freeze with ⟨_ | _, frozen⟩
      · exact .refl e
      · obtain ⟨e', hpush, hhands⟩ :=
          hands_push hqueue hfree frozen (some (.new e.memtableTargetBytes))
        dsimp only
        rw [hpush]
        exact hhands

/-- What the check of a writer decides: to go on or to give up, or to sleep, when neither a shutdown
nor a failure would wake it. -/
theorem hands_prepare (hqueue : e.backgroundError = none → e.shuttingDown = false →
    e.queueClosed = false) (woken : Bool) (w : Write) :
    Hands e (e.prepareForWriteLocked woken w).2 ∧
      ((e.prepareForWriteLocked woken w).1 = .waits → (e.prepareForWriteLocked woken w).2 = e ∧
        e.immutableMemtable.isSome ∧ e.shuttingDown = false ∧ e.backgroundError = none) := by
  unfold prepareForWriteLocked
  by_cases hwait : (woken && !e.writerMayGoOn) = true
  · rw [if_pos hwait]
    refine ⟨.refl e, fun _ => ⟨rfl, ?_⟩⟩
    have hstays := (Bool.and_eq_true_iff.1 hwait).2
    simpa [writerMayGoOn, and_assoc, Option.isSome_iff_ne_none] using hstays
  rw [if_neg hwait]
  cases hshutdown : e.shuttingDown with
  | true => exact ⟨.refl e, fun h => by cases h⟩
  | false =>
    rw [if_neg Bool.false_ne_true]
    cases herror : e.backgroundError with
    | some failure => exact ⟨.refl e, fun h => by cases h⟩
    | none =>
      cases e.activeMemtable with
      | none => exact ⟨.refl e, fun h => by cases h⟩
      | some active =>
        dsimp only
        split_ifs with hoccupied hrequired
        · exact ⟨.refl e, fun _ => ⟨rfl, (Bool.and_eq_true_iff.1 hoccupied).2, rfl, rfl⟩⟩
        · have hhands := hands_rotate (hqueue herror hshutdown)
          rcases hresult : e.rotateActiveMemtableLocked with ⟨_ | _, e'⟩ <;>
            rw [hresult] at hhands <;> exact ⟨hhands, fun h => by cases h⟩
        · exact ⟨.refl e, fun h => by cases h⟩

/-- So does the shutdown, if there is one that it may hand over. -/
theorem hands_schedule (hqueue : e.backgroundError = none → e.queueClosed = false)
    (hgo : e.shutdownMayGoOn = true) : Hands e e.scheduleFinalMemtable.2 := by
  unfold scheduleFinalMemtable
  cases e.activeMemtable with
  | none => exact .refl e
  | some active =>
    dsimp only
    split_ifs with hschedule
    · rcases active.freeze with ⟨_ | _, frozen⟩
      · exact .refl e
      · rw [Bool.and_eq_true, Option.isNone_iff_eq_none] at hschedule
        have hfree : e.immutableMemtable = none := by simpa [shutdownMayGoOn, hschedule.1] using hgo
        obtain ⟨e', hpush, hhands⟩ := hands_push (hqueue hschedule.1) hfree frozen none
        dsimp only
        rw [hpush]
        exact hhands
    · exact .refl e

/-- An insertion hands nothing over. -/
theorem insertLocked_slot (e : KronosEngine F) (w : Write) (sequence : ℕ) :
    (e.insertLocked w sequence).2.immutableMemtable = e.immutableMemtable ∧
      (e.insertLocked w sequence).2.flushQueue = e.flushQueue := by
  unfold insertLocked
  cases e.activeMemtable with
  | none => exact ⟨rfl, rfl⟩
  | some active =>
    cases w with
    | put key value =>
      dsimp only
      rcases active.put key value sequence with ⟨_ | _ | _, active'⟩ <;> exact ⟨rfl, rfl⟩
    | remove key =>
      dsimp only
      rcases active.remove key sequence with ⟨_ | _ | _, active'⟩ <;> exact ⟨rfl, rfl⟩

end KronosEngine

/-! ## The sections -/

section Sections

variable {F R ι : Type} {H : Hashing} {fmt : TableFormat F R} {i : ι} {e e' : KronosEngine F}

/-- The queue is open where a call may hand over a Memtable. -/
def KronosEngine.OpenFor (e : KronosEngine F) (pc : Pc) : Prop :=
  e.backgroundError = none → e.shuttingDown = false ∨ pc.stage = 3 → e.queueClosed = false

/-- A section of a call hands over one Memtable, or none. -/
theorem CallStep.hands {h h' : History ι} {pc pc' : Pc} (hopen : e.OpenFor pc)
    (hstep : CallStep H fmt i e h pc e' h' pc') : e.Hands e' := by
  cases hstep with
  | prepare w woken =>
    exact (hands_prepare (fun herror hshutdown => hopen herror (.inl hshutdown)) woken w).1
  | insert w sequence => exact .inl (e.insertLocked_slot w sequence)
  | drain hgo => exact hands_schedule (fun herror => hopen herror (.inr rfl)) hgo
  | _ => exact .inl ⟨rfl, rfl⟩

/-- A call falls asleep only where it finds the slot occupied, and no failure recorded. A writer
does so only as long as no shutdown is published. -/
theorem CallStep.finds_occupied {h h' : History ι} {pc pc' : Pc} (hopen : e.OpenFor pc)
    (hstep : CallStep H fmt i e h pc e' h' pc') (hsleeping : pc'.sleeping = true) :
    e' = e ∧ e.immutableMemtable.isSome ∧ e.backgroundError = none ∧
      ∀ w, pc' = .write w .asleep → e.shuttingDown = false := by
  obtain ⟨w, woken, rfl, rfl, rfl⟩ | ⟨hwait, rfl, rfl⟩ := hstep.checks (.inr hsleeping)
  · have hwaits := (hands_prepare (fun herror hshutdown => hopen herror (.inl hshutdown))
      woken w).2
    cases hresult : (e.prepareForWriteLocked woken w).1 with
    | waits =>
      obtain ⟨hsame, hslot, hshutdown, herror⟩ := hwaits hresult
      exact ⟨hsame, hslot, herror, fun _ _ => hshutdown⟩
    | ready =>
      rw [hresult] at hsleeping
      cases hsleeping
    | threw failure =>
      rw [hresult] at hsleeping
      cases hsleeping
  · unfold shutdownMayGoOn at hwait
    have hboth := Bool.or_eq_false_iff.1 hwait
    exact ⟨rfl, by simpa [Option.isSome_iff_ne_none] using hboth.1, by simpa using hboth.2, nofun⟩

/-- A section that publishes a shutdown goes on to the notification. -/
theorem CallStep.publishes {h h' : History ι} {pc pc' : Pc}
    (hstep : CallStep H fmt i e h pc e' h' pc') (hshutdown : e'.shuttingDown = true) :
    e.shuttingDown = true ∨ pc' = .shutdown .notify := by
  cases hstep with
  | prepare w woken =>
    exact .inl ((e.onlyMemtables_prepare woken w).shuttingDown.symm.trans hshutdown)
  | insert w sequence =>
    exact .inl ((e.onlyMemtables_insert w sequence).shuttingDown.symm.trans hshutdown)
  | publish =>
    cases e.shuttingDown with
    | true => exact .inl rfl
    | false => exact .inr rfl
  | drain => exact .inl (e.scheduleFinal_frame.2.2.1.symm.trans hshutdown)
  | _ => exact .inl hshutdown

/-- A call closes the queue before it joins the worker, and nobody opens it again. -/
theorem CallStep.closes {h h' : History ι} {pc pc' : Pc}
    (hstep : CallStep H fmt i e h pc e' h' pc') :
    (e.queueClosed = true → e'.queueClosed = true) ∧
      (5 ≤ pc'.stage → e'.queueClosed = true ∨ 5 ≤ pc.stage) := by
  cases hstep with
  | prepare w woken =>
    exact ⟨fun h => (e.onlyMemtables_prepare woken w).queueClosed.trans h, nofun⟩
  | insert w sequence =>
    exact ⟨fun h => (e.onlyMemtables_insert w sequence).queueClosed.trans h, nofun⟩
  | append w => cases ((w.call none).run H e.log.wal).1 <;> exact ⟨id, nofun⟩
  | active key => cases e.lookupActive key <;> exact ⟨id, nofun⟩
  | immutable key snapshot =>
    cases snapshot.bind (·.memtable.lookupEntry key) <;> exact ⟨id, nofun⟩
  | file key f rest winner =>
    cases e.store.lookupFile fmt key winner f <;> exact ⟨id, nofun⟩
  | publish => cases e.shuttingDown <;> exact ⟨id, nofun⟩
  | drain => exact ⟨fun h => e.scheduleFinal_frame.1.trans h, nofun⟩
  | close error => exact ⟨fun _ => rfl, fun _ => .inl rfl⟩
  | report error => exact ⟨id, fun _ => .inr (Nat.le_succ 5)⟩
  | _ => exact ⟨id, nofun⟩

/-- A section of the worker holds on to its task, until it has released the slot or recorded its
failure. -/
theorem WorkerStep.keeps_task {fault : Option (WorkerFault F)} {pc pc' : WorkerPc}
    (hstep : WorkerStep H fmt e fault pc e' pc') (hslot : e'.immutableMemtable.isSome)
    (herror : e'.backgroundError = none) (hbusy : e.flushQueue ≠ [] ∨ pc.task.isSome) :
    e'.flushQueue ≠ [] ∨ pc'.task.isSome := by
  have hcommit : ∀ edit fault, (e.commitEdit edit fault).2.flushQueue = e.flushQueue := by
    intro edit fault
    have hcases := e.commitEdit_cases edit fault
    generalize e.commitEdit edit fault = result at hcases
    cases hcases <;> rfl
  -- Without a task in hand, the Memtable in the slot is in the queue.
  have hidle : pc.task = none → e.flushQueue ≠ [] := fun htask =>
    hbusy.resolve_right (by rw [htask]; exact nofun)
  cases hstep with
  | pop => exact .inr rfl
  | drained hqueue => exact .inl (hidle rfl)
  | flush => exact .inr rfl
  | flushThrows => exact .inr rfl
  | flushFails => exact .inr rfl
  | commitFlush task edit fault => cases (e.commitEdit edit fault).1 <;> exact .inr rfl
  -- The slot stays full only if the task was another one, which throws.
  | clear task flushedThrough =>
    unfold clearImmutable at hslot ⊢
    split_ifs at hslot ⊢
    · exact .inr rfl
    · cases hslot
  | checkSlot => exact .inl (hidle rfl)
  | commitCompaction edit fault => exact .inl (hcommit edit fault ▸ hidle rfl)
  -- Behind the first failure the claim is void.
  | record task failure =>
    unfold recordFailure at herror
    split_ifs at herror with hnone
    rw [herror] at hnone
    exact absurd rfl hnone
  | _ => exact .inl (hidle rfl)

/-- The worker publishes no shutdown, and it does not open the queue again. -/
theorem WorkerStep.flags {fault : Option (WorkerFault F)} {pc pc' : WorkerPc}
    (hstep : WorkerStep H fmt e fault pc e' pc') :
    e'.shuttingDown = e.shuttingDown ∧ (e.queueClosed = true → e'.queueClosed = true) := by
  cases hstep with
  | commitFlush task edit fault =>
    have h := e.sameFlags_commit edit fault
    exact ⟨h.shuttingDown, fun hclosed => h.queueClosed.trans hclosed⟩
  | commitCompaction edit fault =>
    have h := e.sameFlags_commit edit fault
    exact ⟨h.shuttingDown, fun hclosed => h.queueClosed.trans hclosed⟩
  | clear task flushedThrough =>
    have h := e.onlyMemtables_clear task
    exact ⟨h.shuttingDown, fun hclosed => h.queueClosed.trans hclosed⟩
  | record task failure =>
    unfold recordFailure
    split_ifs <;> exact ⟨rfl, id⟩
  | closeQueue => exact ⟨rfl, fun _ => rfl⟩
  | _ => exact ⟨rfl, id⟩

end Sections

/-- The engine of a process that was just opened. -/
theorem Opened.engine {F R ι : Type} [DecidableEq ι] {H : Hashing} {fmt : TableFormat F R}
    {s : System F ι} (h : Opened H fmt s) :
    ∃ store active wal memtableTargetBytes compactionPolicy,
      s.engine = opened store active wal memtableTargetBytes compactionPolicy := by
  rcases h with ⟨e, _, _, hok, rfl⟩ | ⟨node, _, _, -, hstep⟩
  · obtain ⟨active, wal, hopened⟩ := opened_of_construct hok
    exact ⟨_, active, wal, _, _, hopened⟩
  · cases hstep with
    | reopen _ _ hok =>
      obtain ⟨active, wal, hopened⟩ := opened_of_construct hok
      exact ⟨_, active, wal, _, _, hopened⟩

/-- Its worker waits for a Memtable. -/
theorem Opened.worker {F R ι : Type} [DecidableEq ι] {H : Hashing} {fmt : TableFormat F R}
    {s : System F ι} (h : Opened H fmt s) : s.worker = .pop := by
  rcases h with ⟨e, _, _, -, rfl⟩ | ⟨node, _, _, -, hstep⟩
  · rfl
  · cases hstep
    rfl

/-! ## Who will wake the sleepers -/

/-- Somebody is about to notify the sleepers. -/
def System.Notifying {F ι : Type} (s : System F ι) : Prop :=
  (∃ through, s.worker = .notifyCleared through) ∨ s.worker = .notifyFailed ∨
    ∃ i, s.calls i = .shutdown .notify

/-- Nobody is forgotten. -/
structure System.Alert {F ι : Type} (s : System F ι) : Prop where
  /-- The Memtable in the slot is queued, or the worker has it. -/
  busy : s.engine.immutableMemtable.isSome → s.engine.backgroundError = none →
    s.engine.flushQueue ≠ [] ∨ s.worker.task.isSome
  /-- Who sleeps is about to be notified, or waits for this Memtable. -/
  asleep : ∀ i, (s.calls i).sleeping = true →
    s.Notifying ∨ s.engine.immutableMemtable.isSome ∧ s.engine.backgroundError = none
  /-- Once a shutdown is published, a writer sleeps only until it notifies. -/
  writers : s.engine.shuttingDown = true → ∀ i w, s.calls i = .write w .asleep →
    ∃ j, s.calls j = .shutdown .notify
  /-- A shutdown closes the queue before it joins the worker. -/
  closed : ∀ i, 5 ≤ (s.calls i).stage → s.engine.queueClosed = true
  /-- A worker that has not failed leaves its loop with the queue empty. -/
  drained : s.worker = .exited → s.engine.backgroundError = none → s.engine.flushQueue = []

section Alert

variable {F R ι : Type} {H : Hashing} {fmt : TableFormat F R} {s s' : System F ι}

/-- The queue is open where a call may hand over a Memtable. -/
theorem Stages.openFor (hs : Stages s) (i : ι) : s.engine.OpenFor (s.calls i) := by
  intro herror hwhere
  refine hs.queueOpen herror fun j hj => ?_
  rcases hwhere with hshutdown | hstage
  · rw [hs.published j (Nat.zero_lt_of_lt hj)] at hshutdown
    cases hshutdown
  · obtain rfl := hs.unique j i (Nat.zero_lt_of_lt hj) (hstage ▸ Nat.succ_pos 2)
    omega

namespace System.Alert

/-- Where nobody sleeps, nobody has to be woken. -/
theorem of_awake (ha : s.Alert) (hengine : s'.engine = s.engine)
    (htask : s'.worker.task = s.worker.task) (hexited : s'.worker = .exited → s.worker = .exited)
    (hawake : ∀ i, (s'.calls i).sleeping = false)
    (hstage : ∀ i, 5 ≤ (s'.calls i).stage → 5 ≤ (s.calls i).stage) : s'.Alert where
  busy := by
    rw [hengine, htask]
    exact ha.busy
  asleep i hi := by
    rw [hawake i] at hi
    cases hi
  writers _ i w hi := by
    have hnot := hawake i
    rw [hi] at hnot
    cases hnot
  closed i hi := hengine ▸ ha.closed i (hstage i hi)
  drained hworker := by
    rw [hengine]
    exact ha.drained (hexited hworker)

variable [DecidableEq ι]

/-- A call that moves to where it does not sleep, and is about to notify if it was. -/
theorem goto (ha : s.Alert) {i : ι} {pc : Pc}
    (hkeeps : s.calls i = .shutdown .notify → pc = .shutdown .notify)
    (hsleeping : pc.sleeping = false) (hstage : 5 ≤ pc.stage → 5 ≤ (s.calls i).stage) :
    (s.goto i pc).Alert := by
  have hcalls : ∀ j, (s.goto i pc).calls j = if j = i then pc else s.calls j :=
    fun j => System.calls_goto s i j pc
  have hnotify : ∀ j, s.calls j = .shutdown .notify →
      (s.goto i pc).calls j = .shutdown .notify := by
    intro j hj
    rw [hcalls]
    split_ifs with hji
    · exact hkeeps (hji ▸ hj)
    · exact hj
  refine ⟨ha.busy, fun j hj => ?_, fun hshutdown j w hj => ?_, fun j hj => ?_, ha.drained⟩
  · -- The call that moves does not sleep, and the others sleep on.
    rw [hcalls] at hj
    split_ifs at hj with hji
    · rw [hsleeping] at hj
      cases hj
    · refine (ha.asleep j hj).imp_left (Or.imp_right (Or.imp_right ?_))
      rintro ⟨k, hk⟩
      exact ⟨k, hnotify k hk⟩
  · -- Nor does it sleep as a writer that the shutdown has to wake.
    rw [hcalls] at hj
    split_ifs at hj with hji
    · rw [hj] at hsleeping
      cases hsleeping
    · obtain ⟨k, hk⟩ := ha.writers hshutdown j w hj
      exact ⟨k, hnotify k hk⟩
  · -- A shutdown gets no further here.
    rw [hcalls] at hj
    split_ifs at hj with hji
    · exact ha.closed i (hstage hj)
    · exact ha.closed j hj

/-- A section of a call. -/
theorem call (ha : s.Alert) (hs : Stages s) {i : ι} {e : KronosEngine F} {h : History ι} {pc : Pc}
    (hstep : CallStep H fmt i s.engine s.history (s.calls i) e h pc) :
    System.Alert { s.goto i pc with engine := e, history := h } := by
  have hopen := hs.openFor i
  -- A notification is a step of its own.
  have hnot : s.calls i ≠ .shutdown .notify := by
    intro hnotify
    rw [hnotify] at hstep
    cases hstep
  have hcalls : ∀ j, (s.goto i pc).calls j = if j = i then pc else s.calls j :=
    fun j => System.calls_goto s i j pc
  have hself : (s.goto i pc).calls i = pc := by rw [hcalls, if_pos rfl]
  have hnotify : ∀ j, s.calls j = .shutdown .notify →
      (s.goto i pc).calls j = .shutdown .notify := by
    intro j hj
    rw [hcalls, if_neg]
    · exact hj
    · rintro rfl
      exact hnot hj
  -- Who falls asleep has found the slot occupied and no failure.
  have hfalls := @CallStep.finds_occupied _ _ _ _ _ _ _ _ _ _ _ _ hopen hstep
  refine ⟨fun hslot herror => ?_, fun j hj => ?_, fun hshutdown j w hj => ?_, fun j hj => ?_,
    fun hexited herror => ?_⟩
  · -- A Memtable that the section puts into the slot is pushed as well.
    rcases hstep.hands hopen with ⟨hsame, hqueue⟩ | ⟨-, -, task, -, hqueue⟩
    · show e.flushQueue ≠ [] ∨ _
      rw [hqueue]
      exact ha.busy (hsame ▸ hslot) (hstep.backgroundError.symm.trans herror)
    · exact .inl (by rw [show e.flushQueue = _ from hqueue]; simp)
  · -- The call that falls asleep, or another one that sleeps on.
    replace hj : ((s.goto i pc).calls j).sleeping = true := hj
    rw [hcalls] at hj
    split_ifs at hj with hji
    · obtain ⟨rfl, hslot, herror, -⟩ := hfalls hj
      exact .inr ⟨hslot, herror⟩
    · rcases ha.asleep j hj with hnotifying | ⟨hslot, herror⟩
      · refine .inl (hnotifying.imp_right (Or.imp_right ?_))
        rintro ⟨k, hk⟩
        exact ⟨k, hnotify k hk⟩
      · refine .inr ⟨?_, hstep.backgroundError.trans herror⟩
        rcases hstep.hands hopen with ⟨hsame, -⟩ | ⟨-, -, task, hshared, -⟩
        · exact hsame ▸ hslot
        · exact hshared ▸ rfl
  · -- A writer does not fall asleep behind the publication of a shutdown. The one who publishes
    -- will notify those that sleep.
    replace hj : (s.goto i pc).calls j = .write w .asleep := hj
    rw [hcalls] at hj
    split_ifs at hj with hji
    · obtain ⟨rfl, -, -, hrunning⟩ := hfalls (hj ▸ rfl)
      cases hshutdown.symm.trans (hrunning w hj)
    · rcases hstep.publishes hshutdown with hpublished | hnow
      · obtain ⟨k, hk⟩ := ha.writers hpublished j w hj
        exact ⟨k, hnotify k hk⟩
      · exact ⟨i, hself.trans hnow⟩
  · -- A shutdown at this stage has closed the queue.
    replace hj : 5 ≤ ((s.goto i pc).calls j).stage := hj
    rw [hcalls] at hj
    split_ifs at hj with hji
    · rcases hstep.closes.2 hj with hclosed | hstage
      · exact hclosed
      · exact hstep.closes.1 (ha.closed i hstage)
    · exact hstep.closes.1 (ha.closed j hj)
  · -- Nothing is pushed when the queue is closed.
    have hempty := ha.drained hexited (hstep.backgroundError.symm.trans herror)
    rcases hstep.hands hopen with ⟨-, hqueue⟩ | ⟨hfree, -⟩
    · exact hqueue.trans hempty
    · cases (hs.exited hexited).symm.trans hfree

omit [DecidableEq ι] in
/-- A section of the worker. -/
theorem work (ha : s.Alert) (hs : Stages s) {fault : Option (WorkerFault F)}
    {e : KronosEngine F} {pc : WorkerPc}
    (hstep : WorkerStep H fmt s.engine fault s.worker e pc) :
    System.Alert { s with engine := e, worker := pc } := by
  have herrors : e.backgroundError = none → s.engine.backgroundError = none := by
    intro hnone
    cases herror : s.engine.backgroundError with
    | none => rfl
    | some failure => cases hnone.symm.trans (hstep.backgroundError herror)
  refine ⟨fun hslot herror => ?_, fun i hi => ?_, fun hshutdown => ?_, fun i hi => ?_,
    fun hexited herror => ?_⟩
  · -- The worker keeps its task until the slot is free.
    refine hstep.keeps_task hslot herror (ha.busy ?_ (herrors herror))
    rcases hstep.immutableMemtable with ⟨hsame, -⟩ | ⟨hnone, -⟩
    · exact hsame ▸ hslot
    · rw [show e.immutableMemtable = none from hnone] at hslot
      cases hslot
  · -- A sleeper has a notification ahead, or waits for a full slot. When the slot becomes free, or
    -- a failure is recorded, the notification comes next.
    rcases ha.asleep i hi with (⟨through, hworker⟩ | hworker | hcall) | ⟨hslot, hnone⟩
    · exact absurd hworker (hstep.ends.1 through)
    · rw [hworker] at hstep
      cases hstep
    · exact .inl (.inr (.inr hcall))
    · by_cases herror : e.backgroundError = none
      · rcases hstep.immutableMemtable with ⟨hsame, -⟩ | ⟨-, hcleared⟩
        · exact .inr ⟨hsame ▸ hslot, herror⟩
        · exact .inl (.inl hcleared)
      · have hrecorded := Option.isSome_iff_ne_none.2 herror
        exact .inl (.inr (.inl (hstep.notifies hnone hrecorded)))
  · exact ha.writers (hstep.flags.1.symm.trans hshutdown)
  · exact hstep.flags.2 (ha.closed i hi)
  · -- The worker exits behind a failure, or when it has found the queue empty.
    obtain rfl : pc = .exited := hexited
    generalize hworker : s.worker = pc₀ at hstep
    rcases hstep.ends.2.2 rfl with rfl | ⟨rfl, -⟩
    · cases (herrors herror).symm.trans (Option.some_get (hs.recorded (hworker ▸ rfl))).symm
    · cases hstep with
      | drained hempty => exact hempty

/-- A step leaves nobody forgotten. -/
theorem step (ha : s.Alert) (hs : Stages s) {label : ProcessLabel F ι}
    (hstep : ProcessStep H fmt s label s') : s'.Alert := by
  cases hstep with
  | invoke i request hidle =>
    refine ha.goto (hidle ▸ nofun) ?_ ?_ <;> cases request
    all_goals first | rfl | exact nofun
  | acquire i m pc hacquires _ =>
    refine ha.goto (fun hnotify => ?_) (Pc.sleeping_of_acquires hacquires) fun hstage => ?_
    · rw [hnotify] at hacquires
      cases hacquires
    · exact (Pc.acquires_stage hacquires).1 ▸ hstage
  | call i e h pc hcall => exact ha.call hs hcall
  -- A notification wakes everybody, so that nobody sleeps behind it.
  | notify i hpc =>
    refine ha.of_awake rfl rfl id (fun j => Pc.sleeping_woken _) fun j hj => ?_
    replace hj : 5 ≤ ((s.goto i (.shutdown (.barrier false))).calls j).woken.stage := hj
    rw [Pc.stage_woken, System.calls_goto] at hj
    split_ifs at hj
    · exact absurd hj (by decide)
    · exact hj
  | join i error hpc _ => exact ha.goto (hpc ▸ nofun) rfl fun _ => hpc ▸ le_rfl
  | wake i =>
    refine ha.goto (fun hnotify => ?_) (Pc.sleeping_woken _) fun hstage => ?_
    · rw [hnotify]
      rfl
    · exact Pc.stage_woken (s.calls i) ▸ hstage
  -- The acquisition of a mutex passes no notification.
  | workerAcquire m pc hacquires _ =>
    obtain ⟨htask, -, -⟩ := WorkerPc.acquires_task hacquires
    refine ⟨?_, fun i hi => (ha.asleep i hi).imp_left ?_, ha.writers, ha.closed, fun hexited => ?_⟩
    · show _ → _ → _ ∨ pc.task.isSome
      rw [htask]
      exact ha.busy
    · rintro (⟨through, hworker⟩ | hworker | hcall)
      · rw [hworker] at hacquires
        cases hacquires
      · rw [hworker] at hacquires
        cases hacquires
      · exact .inr (.inr hcall)
    · exact absurd hexited (WorkerPc.acquires_ending hacquires).2.1
  | worker fault e pc hwork => exact ha.work hs hwork
  | notifyCleared through hworker =>
    exact ha.of_awake rfl (hworker ▸ rfl) nofun (fun _ => Pc.sleeping_woken _) fun j hj =>
      Pc.stage_woken (s.calls j) ▸ hj
  | notifyFailed hworker =>
    exact ha.of_awake rfl (hworker ▸ rfl) nofun (fun _ => Pc.sleeping_woken _) fun j hj =>
      Pc.stage_woken (s.calls j) ▸ hj

end System.Alert

end Alert

end Kronos
