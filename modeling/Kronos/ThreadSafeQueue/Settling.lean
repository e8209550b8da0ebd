import Mathlib.Data.Prod.Lex
import Kronos.Base.Inevitable
import Kronos.ThreadSafeQueue.Wakeups

/-!
# The queue settles

As long as no call begins and nobody wakes for no reason, the calls on a queue take finitely many
steps, in any order. A consumer that was woken may find the queue empty and sleep again, but every
notification belongs to a push or a shutdown, which makes one. Where the calls end, no consumer
sleeps unless the queue is open and all tasks that were accepted are taken (`settles`), and behind a
shutdown, none sleeps at all.
-/

namespace Kronos.ThreadSafeQueue

variable {T ι : Type}

/-! ## What is left to do -/

namespace Pc

/-- A call that has returned, or has not begun. -/
def Returned : Pc T → Prop
  | idle | pushed .. | popped _ | stopped => True
  | _ => False

/-- How many steps a `push` or a `shutdown` is away from its return. -/
def duties : Pc T → ℕ
  | push _ .enter | shutdown .enter => 3
  | push _ .locked | shutdown .locked => 2
  | push _ .notify | shutdown .notify => 1
  | _ => 0

/-- How many steps a consumer is away from its return, if nobody wakes it. -/
def distance : Pc T → ℕ
  | waitAndPop .enter | waitAndPop .reacquire => 4
  | waitAndPop .check => 3
  | waitAndPop .park => 2
  | waitAndPop .asleep => 1
  | _ => 0

/-- A call gets closer to its return, where a consumer leaves the duties of the others. -/
def Advances (pc pc' : Pc T) : Prop :=
  ¬pc.Returned ∧ (pc'.duties < pc.duties ∨ pc'.duties = pc.duties ∧ pc'.distance < pc.distance)

/-- Waking a call leaves what it can still do. -/
@[simp] theorem duties_woken (pc : Pc T) : pc.woken.duties = pc.duties := by
  unfold woken
  split <;> rfl

/-- It returns no call. -/
theorem returned_woken {pc : Pc T} : pc.woken.Returned ↔ pc.Returned := by
  unfold woken
  split <;> rfl

/-- The acquisition of the mutex brings a call closer to its end. -/
theorem advances_of_acquires {pc pc' : Pc T} (h : pc.acquires = some pc') : pc.Advances pc' := by
  unfold acquires at h
  split at h
  · cases h
    exact ⟨id, .inl (Nat.lt_succ_self 2)⟩
  · cases h
    exact ⟨id, .inr ⟨rfl, Nat.lt_succ_self 3⟩⟩
  · cases h
    exact ⟨id, .inr ⟨rfl, Nat.lt_succ_self 3⟩⟩
  · cases h
    exact ⟨id, .inl (Nat.lt_succ_self 2)⟩
  · cases h

end Pc

/-- So does a section. -/
theorem Section.advances {q q' : ThreadSafeQueue T} {pc pc' : Pc T} (h : Section q pc q' pc') :
    pc.Advances pc' := by
  cases h with
  | push task => cases (q.push task).1 <;> exact ⟨id, .inl (by simp [Pc.duties, Pc.behindPush])⟩
  | wait hwaits => exact ⟨id, .inr ⟨rfl, Nat.lt_succ_self 2⟩⟩
  | pop hgoes => exact ⟨id, .inr ⟨rfl, Nat.succ_pos 2⟩⟩
  | shutdown => cases q.shutdown.1 <;> exact ⟨id, .inl (by simp [Pc.duties, Pc.behindShutdown])⟩

/-- A step of a call that is under way. -/
def Label.Continues : Label ι → Prop
  | invoke _ | wake _ => False
  | _ => True

/-! ## The rank of a state -/

section Rank

variable {s s' : System T ι} {A : Finset ι}

/-- The calls that are under way are among these. -/
def System.Within (A : Finset ι) (s : System T ι) : Prop := ∀ i, ¬(s.calls i).Returned → i ∈ A

/-- What is left to do: the duties first, and then the steps of the consumers. -/
def System.rank (A : Finset ι) (s : System T ι) : ℕ ×ₗ ℕ :=
  toLex (∑ i ∈ A, (s.calls i).duties, ∑ i ∈ A, (s.calls i).distance)

variable [DecidableEq ι]

/-- The duties, behind a move of a call. -/
theorem System.duties_goto (s : System T ι) {i : ι} (hi : i ∈ A) (pc : Pc T) :
    ∑ j ∈ A, ((s.goto i pc).calls j).duties + (s.calls i).duties =
      ∑ j ∈ A, (s.calls j).duties + pc.duties :=
  sum_update Pc.duties s.calls hi pc

/-- The rank is less, when a call has got closer to its return. -/
theorem System.rank_lt_of_advances (hwithin : s.Within A) {i : ι} {pc : Pc T}
    (h : (s.calls i).Advances pc) (hcalls : s'.calls = (s.goto i pc).calls) :
    s'.rank A < s.rank A := by
  obtain ⟨hunderWay, hless⟩ := h
  have hduties := s.duties_goto (hwithin i hunderWay) pc
  have hdistance := sum_update Pc.distance s.calls (hwithin i hunderWay) pc
  rw [System.rank, hcalls]
  rcases hless with hless | ⟨hsame, hless⟩
  · exact Prod.Lex.toLex_lt_toLex.2 (.inl (by omega))
  · refine Prod.Lex.toLex_lt_toLex.2 (.inr ⟨?_, ?_⟩)
    · show ∑ j ∈ A, ((s.goto i pc).calls j).duties = _
      omega
    · show ∑ j ∈ A, (Function.update s.calls i pc j).distance < _
      omega

/-- **A step of a call decreases the rank.** -/
theorem Step.rank_lt (hwithin : s.Within A) {l : Label ι} (hstep : Step s l s')
    (hcontinues : l.Continues) : s'.rank A < s.rank A := by
  cases hstep with
  | invoke => cases hcontinues
  | wake => cases hcontinues
  | acquire i pc hacquires _ =>
    exact System.rank_lt_of_advances hwithin (Pc.advances_of_acquires hacquires) rfl
  | run i q pc hsection => exact System.rank_lt_of_advances hwithin hsection.advances rfl
  | notifyOne i j task hnotify hasleep =>
    -- The consumer that is woken has no duties, and the notification is one.
    have hi := s.duties_goto (hwithin i (hnotify ▸ id)) (.pushed task true)
    have hj := (s.goto i (.pushed task true)).duties_goto (hwithin j (hasleep ▸ id))
      (.waitAndPop .reacquire)
    have hasleep' : (s.goto i (.pushed task true)).calls j = .waitAndPop .asleep := by
      rw [System.goto_calls, if_neg, hasleep]
      rintro rfl
      cases hnotify.symm.trans hasleep
    rw [hnotify] at hi
    rw [hasleep'] at hj
    change _ + 1 = _ + 0 at hi
    change _ + 0 = _ + 0 at hj
    exact Prod.Lex.toLex_lt_toLex.2 (.inl (by omega))
  | notifyNobody i task hnotify _ =>
    refine System.rank_lt_of_advances hwithin ?_ rfl
    rw [hnotify]
    exact ⟨id, .inl Nat.one_pos⟩
  | notifyAll i hnotify =>
    have hi := s.duties_goto (hwithin i (hnotify ▸ id)) .stopped
    have hwoken : ∑ j ∈ A, ((s.goto i .stopped).wakeAll.calls j).duties =
        ∑ j ∈ A, ((s.goto i .stopped).calls j).duties :=
      Finset.sum_congr rfl fun j _ => Pc.duties_woken _
    rw [hnotify] at hi
    change _ + 1 = _ + 0 at hi
    exact Prod.Lex.toLex_lt_toLex.2 (.inl (by omega))
  | sleep i hpark =>
    refine System.rank_lt_of_advances hwithin ?_ rfl
    rw [hpark]
    exact ⟨id, .inr ⟨rfl, Nat.lt_succ_self 1⟩⟩

/-- A step begins at most one call. -/
theorem Step.within (hwithin : s.Within A) {l : Label ι} (hstep : Step s l s') :
    ∃ B, s'.Within B ∧ (l.Continues → B = A) := by
  have hgoto : ∀ {i : ι} {pc : Pc T}, (pc.Returned ∨ ¬(s.calls i).Returned) →
      (s.goto i pc).Within A := by
    intro i pc hpc j hj
    rw [System.goto_calls] at hj
    split_ifs at hj with hji
    · exact hji ▸ hwithin i (hpc.resolve_left hj)
    · exact hwithin j hj
  cases hstep with
  | invoke i pc hidle _ =>
    refine ⟨insert i A, fun j hj => ?_, fun hcontinues => hcontinues.elim⟩
    rw [System.goto_calls] at hj
    split_ifs at hj with hji
    · exact hji ▸ Finset.mem_insert_self i A
    · exact Finset.mem_insert_of_mem (hwithin j hj)
  | acquire i pc hacquires _ =>
    exact ⟨A, hgoto (.inr (Pc.advances_of_acquires hacquires).1), fun _ => rfl⟩
  | run i q pc hsection => exact ⟨A, hgoto (.inr hsection.advances.1), fun _ => rfl⟩
  | notifyOne i j task hnotify hasleep =>
    have hpushed : (s.goto i (.pushed task true)).Within A := hgoto (.inl trivial)
    refine ⟨A, fun k hk => ?_, fun _ => rfl⟩
    rw [System.goto_calls] at hk
    split_ifs at hk with hkj
    · exact hkj ▸ hwithin j (hasleep ▸ id)
    · exact hpushed k hk
  | notifyNobody i task _ _ => exact ⟨A, hgoto (.inl trivial), fun _ => rfl⟩
  | notifyAll i _ =>
    have hstopped : (s.goto i .stopped).Within A := hgoto (.inl trivial)
    exact ⟨A, fun j hj => hstopped j (mt Pc.returned_woken.2 hj), fun _ => rfl⟩
  | sleep i hpark => exact ⟨A, hgoto (.inr (hpark ▸ id)), fun _ => rfl⟩
  | wake i =>
    refine ⟨A, hgoto ?_, fun _ => rfl⟩
    rw [Pc.returned_woken]
    exact Classical.em _

end Rank

/-! ## Where the calls end -/

section Rest

variable {s s' : System T ι}

/-- Every call has returned, or it is a consumer that sleeps on an open queue, all of whose tasks
are taken. -/
structure System.AtRest (s : System T ι) : Prop where
  calls : ∀ i, (s.calls i).Returned ∨ s.calls i = .waitAndPop .asleep
  drained : s.Sleeps → s.contents = ⟨[], false⟩ ∧
    s.taken.map Prod.snd = s.accepted.map Prod.snd

/-- A shutdown is made, or is about to be. -/
def System.Stopping (s : System T ι) : Prop :=
  s.contents.shuttingDown = true ∨ ∃ i point, s.calls i = .shutdown point

/-- A call has returned, or it sleeps, or it is on its way to the end of a section. -/
theorem Pc.cases_of_not_returned {pc : Pc T} (h : ¬pc.Returned) :
    pc = .waitAndPop .asleep ∨ pc.Holds ∨ (∃ pc', pc.acquires = some pc') ∨
      (∃ task, pc = .push task .notify) ∨ pc = .shutdown .notify := by
  cases pc with
  | push task point =>
    cases point with
    | enter => exact .inr (.inr (.inl ⟨_, rfl⟩))
    | locked => exact .inr (.inl trivial)
    | notify => exact .inr (.inr (.inr (.inl ⟨task, rfl⟩)))
  | waitAndPop point =>
    cases point with
    | enter | reacquire => exact .inr (.inr (.inl ⟨_, rfl⟩))
    | check | park => exact .inr (.inl trivial)
    | asleep => exact .inl rfl
  | shutdown point =>
    cases point with
    | enter => exact .inr (.inr (.inl ⟨_, rfl⟩))
    | locked => exact .inr (.inl trivial)
    | notify => exact .inr (.inr (.inr (.inr rfl)))
  | _ => exact (h trivial).elim

variable [DecidableEq ι]

/-- **Where no call can take a step**, all are at rest. -/
theorem System.atRest_of_halts (hdeliveries : Deliveries s) (hwakeups : Wakeups s)
    (hhalts : ∀ l s', Step s l s' → ¬l.Continues) : s.AtRest := by
  have hfree : s.Free := by
    intro i hholds
    rcases hholds.cases s.contents with hpark | ⟨q, pc, hsection⟩
    · exact hhalts _ _ (.sleep i hpark) trivial
    · exact hhalts _ _ (.run i q pc hsection) trivial
  have hcalls : ∀ i, (s.calls i).Returned ∨ s.calls i = .waitAndPop .asleep := by
    intro i
    by_contra hi
    obtain ⟨hnot, hawake⟩ := not_or.1 hi
    rcases Pc.cases_of_not_returned hnot with hasleep | hholds | ⟨pc, hacquires⟩ | ⟨task, hpush⟩ |
      hshutdown
    · exact hawake hasleep
    · exact hfree i hholds
    · exact hhalts _ _ (.acquire i pc hacquires hfree) trivial
    · by_cases hsleeps : s.Sleeps
      · obtain ⟨j, hj⟩ := hsleeps
        exact hhalts _ _ (.notifyOne i j task hpush hj) trivial
      · exact hhalts _ _ (.notifyNobody i task hpush hsleeps) trivial
    · exact hhalts _ _ (.notifyAll i hshutdown) trivial
  refine ⟨hcalls, fun hsleeps => ?_⟩
  -- Nothing is outstanding, so that the queue has no task and is open.
  have hdue : ∀ i, ¬(s.calls i).Due := by
    intro i hi
    rcases hcalls i with hreturned | hasleep
    · generalize s.calls i = pc at hi hreturned
      cases pc <;> first | exact hi.elim | exact hreturned.elim
    · rw [hasleep] at hi
      exact hi
  have hempty : s.contents.queue = [] := by
    obtain ⟨attending, -, hall, hle⟩ := hwakeups.attended hsleeps
    cases attending with
    | nil => exact List.eq_nil_of_length_eq_zero (Nat.le_zero.1 hle)
    | cons i rest => exact absurd (hall i (.head _)) (hdue i)
  have hopen : s.contents.shuttingDown = false := by
    rw [Bool.eq_false_iff]
    intro hclosed
    obtain ⟨i, hi⟩ := hwakeups.closing hclosed hsleeps
    exact hhalts _ _ (.notifyAll i hi) trivial
  have horder := hdeliveries.order
  rw [hempty, List.append_nil] at horder
  refine ⟨?_, horder⟩
  cases hcontents : s.contents with
  | mk queue shuttingDown =>
    rw [hcontents] at hempty hopen
    rw [show queue = [] from hempty, show shuttingDown = false from hopen]

/-- A step lets a shutdown go on. -/
theorem System.Stopping.step (h : s.Stopping) (hs : Deliveries s) {l : Label ι}
    (hstep : Step s l s') : s'.Stopping := by
  by_cases hclosed : s.contents.shuttingDown = true
  · -- A queue that is shut down stays so.
    left
    cases hstep with
    | run i q pc hsection => exact hsection.shuttingDown hclosed
    | _ => exact hclosed
  obtain ⟨i, point, hi⟩ := h.resolve_left hclosed
  -- The shutdown has not closed the queue yet.
  have hbegins : point ≠ .notify := by
    rintro rfl
    exact hclosed (hs.closed.2 ⟨i, hi ▸ trivial⟩)
  -- It stays where it is as long as other calls move.
  have hstays : ∀ {t : System T ι} {j : ι} {pc : Pc T}, t.calls i = .shutdown point →
      (j = i → ∃ point, pc = .shutdown point) →
        ∃ point, (t.goto j pc).calls i = .shutdown point := by
    intro t j pc ht hpc
    rw [System.goto_calls]
    split_ifs with hij
    · exact hpc hij.symm
    · exact ⟨point, ht⟩
  cases hstep with
  | invoke j pc hidle _ =>
    refine .inr ⟨i, hstays hi ?_⟩
    rintro rfl
    cases hi.symm.trans hidle
  | acquire j pc hacquires _ =>
    refine .inr ⟨i, hstays hi ?_⟩
    rintro rfl
    rw [hi] at hacquires
    cases point <;> cases hacquires
    exact ⟨.locked, rfl⟩
  | run j q pc hsection =>
    by_cases hj : j = i
    · subst hj
      rw [hi] at hsection
      refine .inl (hsection.closed_iff.2 (.inr ?_))
      cases hsection
      cases s.contents.shutdown.1 <;> exact trivial
    · exact .inr ⟨i, hstays hi fun h => (hj h).elim⟩
  | notifyOne j k task hnotify hasleep =>
    obtain ⟨point', hi'⟩ : ∃ point, (s.goto j (.pushed task true)).calls i = .shutdown point :=
      hstays hi (by rintro rfl; cases hi.symm.trans hnotify)
    refine .inr ⟨i, ?_⟩
    rw [System.goto_calls, if_neg]
    · exact ⟨point', hi'⟩
    · rintro rfl
      cases hi.symm.trans hasleep
  | notifyNobody j task hnotify _ =>
    refine .inr ⟨i, hstays hi ?_⟩
    rintro rfl
    cases hi.symm.trans hnotify
  | notifyAll j hnotify => exact absurd (hs.closed.2 ⟨j, hnotify ▸ trivial⟩) hclosed
  | sleep j hpark =>
    refine .inr ⟨i, hstays hi ?_⟩
    rintro rfl
    cases hi.symm.trans hpark
  | wake j =>
    refine .inr ⟨i, hstays hi ?_⟩
    rintro rfl
    exact ⟨point, by rw [hi]; rfl⟩

end Rest

/-! ## Runs -/

section Runs

variable [DecidableEq ι]

/-- A system without its steps that begin a call or wake one for no reason. -/
def continuing (M : Lts (System T ι) (Label ι)) : Lts (System T ι) (Label ι) :=
  M.restrict fun _ l => l.Continues

/-- **The queue settles.** From every state on, the calls that are under way take finitely many
steps, in any order. At the end, all have returned but consumers that sleep on an open queue, all of
whose tasks are taken, and behind a shutdown, all have returned. -/
def Settles (M : Lts (System T ι) (Label ι)) : Prop :=
  ∀ s, M.Reachable s → (continuing M).Inevitable System.AtRest s ∧
    (s.Stopping → (continuing M).Inevitable (fun t => ∀ i, (t.calls i).Returned) s)

/-- Only finitely many calls are under way. -/
theorem within_of_reachable {s : System T ι} (hs : (system T ι).Reachable s) :
    ∃ A : Finset ι, s.Within A := by
  refine @Lts.Reachable.invariant _ _ (system T ι) (fun s => ∃ A : Finset ι, s.Within A) ?_ ?_ s hs
  · rintro s rfl
    exact ⟨∅, fun i hi => absurd trivial hi⟩
  · rintro s l s' ⟨A, hwithin⟩ hstep
    obtain ⟨B, hB, -⟩ := hstep.within hwithin
    exact ⟨B, hB⟩

/-- The queue settles, for any tasks and any number of calls. -/
theorem settles : Settles (system T ι) := by
  intro s hs
  obtain ⟨A, hwithin⟩ := within_of_reachable hs
  have hinv := invariant_of_reachable hs
  have hrest : (continuing (system T ι)).Inevitable System.AtRest s := by
    refine @Lts.Inevitable.of_rank _ _ (continuing (system T ι)) _ _ _ _
      (fun s => (Deliveries s ∧ Wakeups s) ∧ s.Within A) (System.rank A) ?_ ?_ s ⟨hinv, hwithin⟩
    · rintro s l s' ⟨⟨hdeliveries, hwakeups⟩, hwithin⟩ ⟨hstep, hcontinues⟩
      obtain ⟨B, hB, hsame⟩ := hstep.within hwithin
      exact ⟨⟨⟨hdeliveries.step hstep, hwakeups.step hstep⟩, hsame hcontinues ▸ hB⟩,
        hstep.rank_lt hwithin hcontinues⟩
    · rintro s ⟨⟨hdeliveries, hwakeups⟩, -⟩ hhalts
      exact System.atRest_of_halts hdeliveries hwakeups
        fun l s' hstep hcontinues => hhalts l s' ⟨hstep, hcontinues⟩
  refine ⟨hrest, fun hstopping => ?_⟩
  have hkept : ∀ (t : System T ι) (l : Label ι) (t' : System T ι),
      Deliveries t ∧ t.Stopping → (continuing (system T ι)).step t l t' →
        Deliveries t' ∧ t'.Stopping := by
    rintro t l t' ⟨hdeliveries, hstop⟩ ⟨hstep, -⟩
    exact ⟨hdeliveries.step hstep, hstop.step hdeliveries hstep⟩
  refine hrest.mono hkept ?_ ⟨hinv.1, hstopping⟩
  rintro t ⟨-, hstop⟩ hrest i
  refine (hrest.calls i).resolve_right fun hasleep => ?_
  -- A consumer would sleep on an open queue, with the shutdown still to come.
  have hopen := (hrest.drained ⟨i, hasleep⟩).1
  rcases hstop with hclosed | ⟨j, point, hj⟩
  · rw [hopen] at hclosed
    cases hclosed
  · have hj' := hrest.calls j
    rw [hj] at hj'
    rcases hj' with hreturned | hasleep'
    · exact hreturned
    · cases hasleep'

end Runs

end Kronos.ThreadSafeQueue
