import Kronos.ThreadSafeQueue.Deliveries

/-!
# No wakeup is lost

While a consumer sleeps, as many checks of the queue are outstanding as it has tasks: each by a
consumer that is awake, or by one that a notification is to wake (`System.Attended`). A push adds a
task and a notification, a notification that is spent wakes a consumer, and a consumer that checks
the queue takes a task or finds it empty. `Wakeups` is this invariant, together with the exclusion
that it needs, and `delivers` puts it beside the deliveries.
-/

namespace Kronos.ThreadSafeQueue

variable {T ι : Type}

/-- As many checks are outstanding as there are tasks in the queue: by consumers that are awake, or
that a notification is to wake. -/
def System.Attended (s : System T ι) : Prop :=
  ∃ attending : List ι, attending.Nodup ∧ (∀ i ∈ attending, (s.calls i).Due) ∧
    s.contents.queue.length ≤ attending.length

/-- The mutex has one holder, a consumer that is about to sleep has seen an empty queue that is not
shut down, and while a consumer sleeps, the queue is attended and a shutdown is to be notified. -/
structure Wakeups (s : System T ι) : Prop where
  exclusive : ∀ i j, (s.calls i).Holds → (s.calls j).Holds → i = j
  parked : ∀ i, s.calls i = .waitAndPop .park →
    s.contents.queue = [] ∧ s.contents.shuttingDown = false
  attended : s.Sleeps → s.Attended
  closing : s.contents.shuttingDown = true → s.Sleeps → ∃ i, s.calls i = .shutdown .notify

/-- A call goes on from one point to another where it neither holds the mutex anew nor falls asleep,
and the check or the notification that it owes, if any, is still outstanding. -/
structure Pc.Keeps (pc pc' : Pc T) : Prop where
  asleep : pc' = .waitAndPop .asleep → pc = .waitAndPop .asleep
  park : pc' = .waitAndPop .park → pc = .waitAndPop .park
  due : pc.Due → pc'.Due
  notify : pc = .shutdown .notify → pc' = .shutdown .notify

/-- A call that begins owes no notification. -/
theorem Pc.Starts.keeps {pc : Pc T} (h : pc.Starts) : Pc.idle.Keeps pc := by
  cases h <;> exact ⟨nofun, nofun, False.elim, nofun⟩

/-- It does not hold the mutex. -/
theorem Pc.Starts.not_holds {pc : Pc T} (h : pc.Starts) : ¬pc.Holds := by
  cases h <;> exact id

/-- Waking a call leaves what it owes. -/
theorem Pc.woken_keeps (pc : Pc T) : pc.Keeps pc.woken := by
  unfold Pc.woken
  split
  · exact ⟨nofun, nofun, False.elim, nofun⟩
  · exact ⟨id, id, id, id⟩

/-- Nobody gets the mutex by being woken. -/
theorem Pc.woken_holds {pc : Pc T} (h : pc.woken.Holds) : pc.Holds := by
  unfold Pc.woken at h
  split at h
  · exact h.elim
  · exact h

/-- A call that was woken does not sleep. -/
theorem Pc.woken_ne_asleep (pc : Pc T) : pc.woken ≠ .waitAndPop .asleep := by
  unfold Pc.woken
  split
  · nofun
  · assumption

/-- The acquisition of the mutex leaves what a call owes. -/
theorem Pc.acquires_keeps {pc pc' : Pc T} (h : pc.acquires = some pc') : pc.Keeps pc' := by
  unfold Pc.acquires at h
  split at h
  all_goals first
    | (cases h; exact ⟨nofun, nofun, fun hdue => hdue.elim, nofun⟩)
    | (cases h; exact ⟨nofun, nofun, fun _ => trivial, nofun⟩)
    | cases h

namespace Wakeups

variable {s s' : System T ι}

/-- Calls that keep what they owe keep the wakeups, when no section is run. -/
theorem keeps (hs : Wakeups s) (hcontents : s'.contents = s.contents)
    (hexclusive : ∀ i j, (s'.calls i).Holds → (s'.calls j).Holds → i = j)
    (hcalls : ∀ i, (s.calls i).Keeps (s'.calls i)) : Wakeups s' := by
  have hsleeps : s'.Sleeps → s.Sleeps := fun ⟨i, hi⟩ => ⟨i, (hcalls i).asleep hi⟩
  constructor
  · exact hexclusive
  · intro i hi
    rw [hcontents]
    exact hs.parked i ((hcalls i).park hi)
  · intro hsleep
    obtain ⟨attending, hnodup, hdue, hle⟩ := hs.attended (hsleeps hsleep)
    exact ⟨attending, hnodup, fun i hi => (hcalls i).due (hdue i hi), hcontents ▸ hle⟩
  · intro hclosed hsleep
    rw [hcontents] at hclosed
    obtain ⟨i, hi⟩ := hs.closing hclosed (hsleeps hsleep)
    exact ⟨i, (hcalls i).notify hi⟩

variable [DecidableEq ι]

/-- One call that keeps what it owes, and does not acquire the mutex. -/
theorem goto (hs : Wakeups s) {i : ι} {pc : Pc T} (hkeeps : (s.calls i).Keeps pc)
    (hholds : pc.Holds → (s.calls i).Holds) : Wakeups (s.goto i pc) := by
  have hbefore : ∀ k, ((s.goto i pc).calls k).Holds → (s.calls k).Holds := by
    intro k hk
    rw [System.goto_calls] at hk
    split_ifs at hk with hki
    · exact hki ▸ hholds hk
    · exact hk
  refine hs.keeps (show (s.goto i pc).contents = s.contents from rfl) ?_ ?_
  · exact fun k k' hk hk' => hs.exclusive k k' (hbefore k hk) (hbefore k' hk')
  · intro k
    rw [System.goto_calls]
    split_ifs with hki
    · exact hki ▸ hkeeps
    · exact ⟨id, id, id, id⟩

/-- A call that acquires the mutex, which nobody holds. -/
theorem acquire (hs : Wakeups s) {i : ι} {pc : Pc T} (hacquires : (s.calls i).acquires = some pc)
    (hfree : s.Free) : Wakeups (s.goto i pc) := by
  have honly : ∀ k, ((s.goto i pc).calls k).Holds → k = i := by
    intro k hk
    by_contra hne
    rw [System.goto_calls, if_neg hne] at hk
    exact hfree k hk
  refine hs.keeps (show (s.goto i pc).contents = s.contents from rfl) ?_ ?_
  · exact fun k k' hk hk' => (honly k hk).trans (honly k' hk').symm
  · intro k
    rw [System.goto_calls]
    split_ifs with hki
    · exact hki ▸ Pc.acquires_keeps hacquires
    · exact ⟨id, id, id, id⟩

/-- A section. -/
theorem run (hs : Wakeups s) {i : ι} {q : ThreadSafeQueue T} {pc : Pc T}
    (h : Section s.contents (s.calls i) q pc) (accepted taken : List (ι × T)) :
    Wakeups { s.goto i pc with contents := q, accepted := accepted, taken := taken } := by
  have hother : ∀ k, k ≠ i → (s.goto i pc).calls k = s.calls k := fun k hk => by
    rw [System.goto_calls, if_neg hk]
  have hself : (s.goto i pc).calls i = pc := by rw [System.goto_calls, if_pos rfl]
  -- The section ran under the mutex, so that nobody else holds it.
  have hholds : ∀ k, ((s.goto i pc).calls k).Holds → k = i := by
    intro k hk
    by_contra hne
    rw [hother k hne] at hk
    exact hne (hs.exclusive k i hk h.holds)
  -- No section falls asleep; parking is a step of its own.
  have hsleeps : (s.goto i pc).Sleeps → s.Sleeps := by
    rintro ⟨k, hk⟩
    by_cases hki : k = i
    · rw [hki, hself] at hk
      exact absurd hk h.ne_asleep
    · exact ⟨k, hother k hki ▸ hk⟩
  constructor
  · exact fun k k' hk hk' => (hholds k hk).trans (hholds k' hk').symm
  · intro k hk
    obtain rfl : k = i := hholds k (by
      show ((s.goto i pc).calls k).Holds
      rw [show (s.goto i pc).calls k = .waitAndPop .park from hk]
      exact trivial)
    exact h.parks (hself.symm.trans hk)
  · intro hsleep
    obtain ⟨attending, hnodup, hdue, hle⟩ := hs.attended (hsleeps hsleep)
    have hkept : ∀ k ∈ attending, k ≠ i → ((s.goto i pc).calls k).Due := fun k hk hki => by
      rw [hother k hki]
      exact hdue k hk
    rcases h.due with ⟨hnot, hnew, hgrows⟩ | hnone | hshrinks | ⟨hnot, hsame⟩
    · -- A task was added, and its notification attends to it.
      have hi : i ∉ attending := fun hi => hnot (hdue i hi)
      refine ⟨i :: attending, List.nodup_cons.2 ⟨hi, hnodup⟩, ?_, ?_⟩
      · intro k hk
        rcases List.mem_cons.1 hk with rfl | hk
        · show ((s.goto k pc).calls k).Due
          rwa [hself]
        · exact hkept k hk fun hki => hi (hki ▸ hk)
      · rw [List.length_cons, hgrows]
        exact Nat.succ_le_succ hle
    · exact ⟨[], List.nodup_nil, fun k hk => absurd hk List.not_mem_nil, hnone.le⟩
    · -- The consumer that took a task attends no longer.
      refine ⟨attending.erase i, hnodup.erase i, ?_, ?_⟩
      · intro k hk
        exact hkept k (List.mem_of_mem_erase hk) (hnodup.mem_erase_iff.1 hk).1
      · have := List.le_length_erase (a := i) (l := attending)
        show q.queue.length ≤ _
        omega
    · have hi : i ∉ attending := fun hi => hnot (hdue i hi)
      refine ⟨attending, hnodup, ?_, ?_⟩
      · exact fun k hk => hkept k hk fun hki => hi (hki ▸ hk)
      · show q.queue.length ≤ _
        rwa [hsame]
  · -- The shutdown that closes the queue notifies next.
    intro hclosed hsleep
    cases hbefore : s.contents.shuttingDown with
    | false => exact ⟨i, hself.trans (h.closes hbefore hclosed)⟩
    | true =>
      obtain ⟨k, hk⟩ := hs.closing hbefore (hsleeps hsleep)
      refine ⟨k, (hother k ?_).trans hk⟩
      rintro rfl
      have hholds := h.holds
      rw [hk] at hholds
      exact hholds

/-- `notify_one`, with a consumer to wake. -/
theorem notifyOne (hs : Wakeups s) {i j : ι} {task : T} (hnotify : s.calls i = .push task .notify)
    (hasleep : s.calls j = .waitAndPop .asleep) :
    Wakeups ((s.goto i (.pushed task true)).goto j (.waitAndPop .reacquire)) := by
  have hji : j ≠ i := by
    rintro rfl
    rw [hnotify] at hasleep
    cases hasleep
  generalize ht : (s.goto i (.pushed task true)).goto j (.waitAndPop .reacquire) = t
  have hi : t.calls i = .pushed task true := by
    rw [← ht, System.goto_calls, if_neg hji.symm, System.goto_calls, if_pos rfl]
  have hj : t.calls j = .waitAndPop .reacquire := by
    rw [← ht, System.goto_calls, if_pos rfl]
  have hother : ∀ k, k ≠ i → k ≠ j → t.calls k = s.calls k := fun k hki hkj => by
    rw [← ht, System.goto_calls, if_neg hkj, System.goto_calls, if_neg hki]
  have hcontents : t.contents = s.contents := by
    rw [← ht]
    rfl
  have hsleeps : s.Sleeps := ⟨j, hasleep⟩
  -- Neither of the two holds the mutex.
  have hbefore : ∀ k, (t.calls k).Holds → (s.calls k).Holds := by
    intro k hk
    by_cases hki : k = i
    · rw [hki, hi] at hk
      exact hk.elim
    by_cases hkj : k = j
    · rw [hkj, hj] at hk
      exact hk.elim
    exact hother k hki hkj ▸ hk
  constructor
  · exact fun k k' hk hk' => hs.exclusive k k' (hbefore k hk) (hbefore k' hk')
  · intro k hk
    have hki : k ≠ i := by
      rintro rfl
      rw [hi] at hk
      cases hk
    have hkj : k ≠ j := by
      rintro rfl
      rw [hj] at hk
      cases hk
    rw [hcontents]
    exact hs.parked k (hother k hki hkj ▸ hk)
  · intro _
    -- The notification is spent, and the consumer that it woke attends in its place.
    obtain ⟨attending, hnodup, hdue, hle⟩ := hs.attended hsleeps
    have hjnot : j ∉ attending := fun hmem => by
      have hdue := hdue j hmem
      rw [hasleep] at hdue
      exact hdue
    refine ⟨j :: attending.erase i, ?_, ?_, ?_⟩
    · exact List.nodup_cons.2 ⟨fun hmem => hjnot (List.mem_of_mem_erase hmem), hnodup.erase i⟩
    · intro k hk
      rcases List.mem_cons.1 hk with rfl | hk
      · rw [hj]
        exact trivial
      · have hmem := List.mem_of_mem_erase hk
        have hki := (hnodup.mem_erase_iff.1 hk).1
        rw [hother k hki fun hkj => hjnot (hkj ▸ hmem)]
        exact hdue k hmem
    · have := List.le_length_erase (a := i) (l := attending)
      rw [hcontents, List.length_cons]
      omega
  · -- A shutdown that has yet to notify is another call.
    intro hclosed _
    rw [hcontents] at hclosed
    obtain ⟨k, hk⟩ := hs.closing hclosed hsleeps
    refine ⟨k, (hother k ?_ ?_).trans hk⟩
    · rintro rfl
      rw [hnotify] at hk
      cases hk
    · rintro rfl
      rw [hasleep] at hk
      cases hk

/-- `notify_one`, without anybody to wake. -/
theorem notifyNobody (hs : Wakeups s) (i : ι) (task : T) (hnobody : ¬s.Sleeps) :
    Wakeups (s.goto i (.pushed task true)) := by
  have hother : ∀ k pc, (s.goto i (.pushed task true)).calls k = pc → pc ≠ .pushed task true →
      s.calls k = pc := by
    intro k pc hk hpc
    rw [System.goto_calls] at hk
    split_ifs at hk
    · exact absurd hk.symm hpc
    · exact hk
  have hstill : ¬(s.goto i (.pushed task true)).Sleeps := fun ⟨k, hk⟩ =>
    hnobody ⟨k, hother k _ hk nofun⟩
  have hbefore : ∀ k, ((s.goto i (.pushed task true)).calls k).Holds → (s.calls k).Holds := by
    intro k hk
    rwa [hother k _ rfl fun heq => by rw [heq] at hk; exact hk]
  constructor
  · exact fun k k' hk hk' => hs.exclusive k k' (hbefore k hk) (hbefore k' hk')
  · exact fun k hk => hs.parked k (hother k _ hk nofun)
  · exact fun hsleep => absurd hsleep hstill
  · exact fun _ hsleep => absurd hsleep hstill

/-- `notify_all`, after which nobody sleeps. -/
theorem notifyAll (hs : Wakeups s) (i : ι) :
    Wakeups (s.goto i .stopped).wakeAll := by
  have hstill : ¬(s.goto i .stopped).wakeAll.Sleeps := fun ⟨k, hk⟩ => Pc.woken_ne_asleep _ hk
  have hcases : ∀ k, ((s.goto i .stopped).wakeAll).calls k = .stopped ∨
      ((s.goto i .stopped).wakeAll).calls k = (s.calls k).woken := by
    intro k
    by_cases hk : k = i
    · left
      show ((s.goto i .stopped).calls k).woken = .stopped
      rw [System.goto_calls, if_pos hk]
      rfl
    · right
      show ((s.goto i .stopped).calls k).woken = _
      rw [System.goto_calls, if_neg hk]
  have hbefore : ∀ k, ((s.goto i .stopped).wakeAll.calls k).Holds → (s.calls k).Holds := by
    intro k hk
    rcases hcases k with heq | heq
    · rw [heq] at hk
      exact hk.elim
    · exact Pc.woken_holds (heq ▸ hk)
  constructor
  · exact fun k k' hk hk' => hs.exclusive k k' (hbefore k hk) (hbefore k' hk')
  · intro k hk
    rcases hcases k with heq | heq
    · rw [heq] at hk
      cases hk
    · exact hs.parked k ((Pc.woken_keeps _).park (heq ▸ hk))
  · exact fun hsleep => absurd hsleep hstill
  · exact fun _ hsleep => absurd hsleep hstill

/-- Falling asleep. -/
theorem sleep (hs : Wakeups s) {i : ι} (hpark : s.calls i = .waitAndPop .park) :
    Wakeups (s.goto i (.waitAndPop .asleep)) := by
  obtain ⟨hempty, hopen⟩ := hs.parked i hpark
  have hother : ∀ k pc, (s.goto i (.waitAndPop .asleep)).calls k = pc →
      pc ≠ .waitAndPop .asleep → s.calls k = pc := by
    intro k pc hk hpc
    rw [System.goto_calls] at hk
    split_ifs at hk
    · exact absurd hk.symm hpc
    · exact hk
  have hbefore : ∀ k, ((s.goto i (.waitAndPop .asleep)).calls k).Holds → (s.calls k).Holds := by
    intro k hk
    rwa [hother k _ rfl fun heq => by rw [heq] at hk; exact hk]
  constructor
  · exact fun k k' hk hk' => hs.exclusive k k' (hbefore k hk) (hbefore k' hk')
  · exact fun k hk => hs.parked k (hother k _ hk nofun)
  · intro _
    refine ⟨[], List.nodup_nil, fun k hk => absurd hk List.not_mem_nil, ?_⟩
    show s.contents.queue.length ≤ 0
    rw [hempty, List.length_nil]
  · intro hclosed _
    have hclosed : s.contents.shuttingDown = true := hclosed
    rw [hopen] at hclosed
    cases hclosed

/-- A step keeps the wakeups. -/
theorem step {l : Label ι} (hs : Wakeups s) (hstep : Step s l s') : Wakeups s' := by
  cases hstep with
  | invoke i pc hidle hstarts =>
    exact hs.goto (hidle ▸ hstarts.keeps) fun hholds => absurd hholds hstarts.not_holds
  | acquire i pc hacquires hfree => exact hs.acquire hacquires hfree
  | run i q pc hsection => exact hs.run hsection _ _
  | notifyOne i j task hnotify hasleep => exact hs.notifyOne hnotify hasleep
  | notifyNobody i task hnotify hnobody => exact hs.notifyNobody i task hnobody
  | notifyAll i hnotify => exact hs.notifyAll i
  | sleep i hpark => exact hs.sleep hpark
  | wake i => exact hs.goto (Pc.woken_keeps _) Pc.woken_holds

end Wakeups

/-! ## Every run -/

section Reachable

variable [DecidableEq ι] {s : System T ι}

omit [DecidableEq ι] in
/-- A queue that was just constructed. -/
theorem invariant_new : Deliveries (⟨.new, fun _ => .idle, [], []⟩ : System T ι) ∧
    Wakeups (⟨.new, fun _ => .idle, [], []⟩ : System T ι) := by
  have hawake : ¬(⟨.new, fun _ => .idle, [], []⟩ : System T ι).Sleeps := by
    rintro ⟨i, hi⟩
    cases hi
  constructor
  · refine ⟨rfl, by simp [Pc.gave], .nil, by simp [Pc.took], .nil, ?_, ?_, ?_⟩
    · refine iff_of_false Bool.false_ne_true ?_
      rintro ⟨i, hclosed⟩
      exact hclosed
    · intro i task hpc
      cases hpc
    · intro i result hpc
      cases hpc
  · refine ⟨fun i j hholds => hholds.elim, ?_, ?_, ?_⟩
    · intro i hpc
      cases hpc
    · exact fun hsleeps => absurd hsleeps hawake
    · exact fun _ hsleeps => absurd hsleeps hawake

/-- Both invariants hold in every reachable state. -/
theorem invariant_of_reachable (hs : (system T ι).Reachable s) : Deliveries s ∧ Wakeups s := by
  refine @Lts.Reachable.invariant _ _ _ (fun s => Deliveries s ∧ Wakeups s) ?_ ?_ s hs
  · rintro s rfl
    exact invariant_new
  · exact fun s l t hinv hstep => ⟨hinv.1.step hstep, hinv.2.step hstep⟩

/-- A section of `push` rejects the task when a shutdown has begun, and then adds nothing. Otherwise
it adds the task at the back. -/
theorem push_step {s' : System T ι} {i : ι} {task : T} (hpush : s.calls i = .push task .locked)
    (hstep : Step s (.run i) s') :
    (s'.calls i = .pushed task false ↔ s.contents.shuttingDown = true) ∧
      (s'.calls i = .pushed task false → s'.contents = s.contents ∧ s'.accepted = s.accepted) ∧
      (s'.calls i ≠ .pushed task false → s'.calls i = .push task .notify ∧
        s'.contents.queue = s.contents.queue ++ [task] ∧
        s'.accepted = s.accepted ++ [(i, task)]) := by
  cases hstep with
  | run i q pc h =>
    rw [hpush] at h
    obtain ⟨hiff, hrejects, haccepts⟩ := h.push_iff
    have hqueue := h.queue_eq
    have hself : (s.goto i pc).calls i = pc := by rw [System.goto_calls, if_pos rfl]
    dsimp only
    rw [hself]
    refine ⟨hiff, ?_, ?_⟩
    · intro hpc
      refine ⟨hrejects hpc, ?_⟩
      rw [hpc]
      rfl
    · intro hpc
      rw [haccepts hpc] at hqueue ⊢
      exact ⟨rfl, hqueue, rfl⟩

/-- No consumer sleeps on a queue that has tasks or is shut down while nothing is outstanding. -/
theorem outstanding (hs : (system T ι).Reachable s) (hsleeps : s.Sleeps)
    (hwork : s.contents.queue ≠ [] ∨ s.contents.shuttingDown = true) :
    ∃ j, (s.calls j).Due ∨ s.calls j = .shutdown .notify := by
  obtain ⟨-, hwakeups⟩ := invariant_of_reachable hs
  rcases hwork with hqueue | hclosed
  · -- The queue is attended, and so there is a check for each of its tasks.
    obtain ⟨attending, -, hdue, hle⟩ := hwakeups.attended hsleeps
    have hpos : 0 < attending.length := (List.length_pos_iff.2 hqueue).trans_le hle
    obtain ⟨j, hj⟩ := List.exists_mem_of_length_pos hpos
    exact ⟨j, .inl (hdue j hj)⟩
  · obtain ⟨j, hj⟩ := hwakeups.closing hclosed hsleeps
    exact ⟨j, .inr hj⟩

/-- In every reachable state, the tasks that were taken, and behind them those in the queue, are the
tasks that were accepted. A push is rejected when a shutdown has begun, and then adds nothing, a
consumer goes away with nothing when a shutdown has begun and all tasks are taken, and no consumer
sleeps on a queue that has tasks or is shut down while nothing is outstanding that wakes it or
checks the queue. -/
theorem delivers (hs : (system T ι).Reachable s) :
    s.taken.map Prod.snd ++ s.contents.queue = s.accepted.map Prod.snd ∧
    ((∀ i task, (i, task) ∈ s.accepted ↔ (s.calls i).gave = some task) ∧
      (s.accepted.map Prod.fst).Nodup) ∧
    ((∀ i task, (i, task) ∈ s.taken ↔ s.calls i = .popped (.ok (some task))) ∧
      (s.taken.map Prod.fst).Nodup) ∧
    (s.contents.shuttingDown = true ↔ ∃ i, (s.calls i).Closed) ∧
    (∀ i task s', s.calls i = .push task .locked → Step s (.run i) s' →
      (s'.calls i = .pushed task false ↔ s.contents.shuttingDown = true) ∧
      (s'.calls i = .pushed task false → s'.contents = s.contents ∧ s'.accepted = s.accepted) ∧
      (s'.calls i ≠ .pushed task false → s'.calls i = .push task .notify ∧
        s'.contents.queue = s.contents.queue ++ [task] ∧
        s'.accepted = s.accepted ++ [(i, task)])) ∧
    (∀ i result, s.calls i = .popped result → (∃ task, result = .ok (some task)) ∨
      result = .ok none ∧ s.contents.shuttingDown = true ∧
        s.taken.map Prod.snd = s.accepted.map Prod.snd) ∧
    ((∃ i, s.calls i = .waitAndPop .asleep) →
      s.contents.queue ≠ [] ∨ s.contents.shuttingDown = true →
      ∃ j, (s.calls j).Due ∨ s.calls j = .shutdown .notify) := by
  obtain ⟨hdeliveries, -⟩ := invariant_of_reachable hs
  refine ⟨hdeliveries.order, ⟨hdeliveries.gave, hdeliveries.gaveOnce⟩,
    ⟨?_, hdeliveries.tookOnce⟩, hdeliveries.closed, ?_, ?_, ?_⟩
  · -- A call that took a task has returned with it.
    intro i task
    rw [hdeliveries.took]
    constructor
    · intro htook
      unfold Pc.took at htook
      split at htook
      · next heq => rw [heq, Option.some.inj htook]
      · cases htook
    · intro hpopped
      rw [hpopped]
      rfl
  · exact fun i task s' hpush hstep => push_step hpush hstep
  · -- With the queue empty, everything accepted was taken.
    intro i result hpopped
    refine (hdeliveries.popped i result hpopped).imp_right ?_
    rintro ⟨hnone, hclosed, hempty⟩
    have horder := hdeliveries.order
    rw [hempty, List.append_nil] at horder
    exact ⟨hnone, hclosed, horder⟩
  · exact fun hsleeps hwork => outstanding hs hsleeps hwork

/-- A consumer that sleeps, and a task that was pushed, with its notification outstanding. -/
theorem delivers_of_one : ∃ s : System ℕ Bool, (system ℕ Bool).Reachable s ∧
    s.calls true = .waitAndPop .asleep ∧ s.contents.queue = [7] ∧
    ∃ j, (s.calls j).Due ∨ s.calls j = .shutdown .notify := by
  have hinitial : (system ℕ Bool).Reachable ⟨.new, fun _ => .idle, [], []⟩ := .initial rfl
  have hconsumer := hinitial.step (.invoke true _ rfl .waitAndPop)
  have hlocked := hconsumer.step (.acquire true _ rfl (by rintro (_ | _) <;> exact id))
  have hparked := hlocked.step (.run true _ _ (.wait rfl))
  have hasleep := hparked.step (.sleep true rfl)
  have hproducer := hasleep.step (.invoke false _ rfl (.push 7))
  have hlocked' := hproducer.step (.acquire false _ rfl (by rintro (_ | _) <;> exact id))
  have hpushed := hlocked'.step (.run false _ _ (.push 7))
  refine ⟨_, hpushed, rfl, rfl, ?_⟩
  exact (delivers hpushed).2.2.2.2.2.2 ⟨true, rfl⟩ (.inl (List.cons_ne_nil 7 []))

/-- What is outstanding is a notification, or a check by a consumer that waits for the mutex or has
it. -/
theorem Pc.Due.cases {pc : Pc T} (h : pc.Due) :
    (∃ task, pc = .push task .notify) ∨ (∃ pc', pc.acquires = some pc') ∨ pc.Holds := by
  unfold Pc.Due at h
  split at h
  · exact .inl ⟨_, rfl⟩
  · exact .inr (.inl ⟨_, rfl⟩)
  · exact .inr (.inr trivial)
  · exact .inr (.inl ⟨_, rfl⟩)
  · exact h.elim

/-- A call that has the mutex can run its section, or fall asleep. -/
theorem Pc.Holds.cases {pc : Pc T} (h : pc.Holds) (q : ThreadSafeQueue T) :
    pc = .waitAndPop .park ∨ ∃ q' pc', Section q pc q' pc' := by
  unfold Pc.Holds at h
  split at h
  · exact .inr ⟨_, _, .push _⟩
  · right
    cases hgoes : q.mayGoOn with
    | true => exact ⟨_, _, .pop hgoes⟩
    | false => exact ⟨_, _, .wait hgoes⟩
  · exact .inl rfl
  · exact .inr ⟨_, _, .shutdown⟩
  · exact h.elim

/-- Where a consumer sleeps on a queue that has tasks or is shut down, some call can move on. -/
theorem progress (hs : (system T ι).Reachable s) (hsleeps : s.Sleeps)
    (hwork : s.contents.queue ≠ [] ∨ s.contents.shuttingDown = true) :
    ∃ i l s', (l = .acquire i ∨ l = .run i ∨ l = .notify i ∨ l = .sleep i) ∧ Step s l s' := by
  by_cases hfree : s.Free
  · obtain ⟨j, hdue | hnotify⟩ := outstanding hs hsleeps hwork
    · rcases hdue.cases with ⟨task, hpush⟩ | ⟨pc, hacquires⟩ | hholds
      · obtain ⟨k, hk⟩ := hsleeps
        exact ⟨j, _, _, .inr (.inr (.inl rfl)), .notifyOne j k task hpush hk⟩
      · exact ⟨j, _, _, .inl rfl, .acquire j pc hacquires hfree⟩
      · exact absurd hholds (hfree j)
    · exact ⟨j, _, _, .inr (.inr (.inl rfl)), .notifyAll j hnotify⟩
  · -- The call that has the mutex runs its section, or falls asleep.
    obtain ⟨i, hi⟩ := not_forall_not.1 hfree
    rcases hi.cases s.contents with hpark | ⟨q, pc, hsection⟩
    · exact ⟨i, _, _, .inr (.inr (.inr rfl)), .sleep i hpark⟩
    · exact ⟨i, _, _, .inr (.inl rfl), .run i q pc hsection⟩

end Reachable

end Kronos.ThreadSafeQueue
