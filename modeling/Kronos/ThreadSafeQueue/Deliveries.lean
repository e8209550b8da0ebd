import Kronos.ThreadSafeQueue.Model

/-!
# What the queue delivers

The tasks that calls have taken, and behind them those in the queue, are the tasks that were
accepted, in order, each given by one call and taken by one at most. `Deliveries` is this invariant,
with what the results of the calls say about the queue. Every step but that of a section leaves the
queue alone (`Deliveries.goto`), and `Deliveries.run` is about the sections.
-/

namespace Kronos.ThreadSafeQueue

variable {T ι : Type}

/-- The tasks that were taken, and behind them those in the queue, are those that were accepted,
each of which is from a call of its own, and what calls have returned is true of the queue. -/
structure Deliveries (s : System T ι) : Prop where
  order : s.taken.map Prod.snd ++ s.contents.queue = s.accepted.map Prod.snd
  gave : ∀ i task, (i, task) ∈ s.accepted ↔ (s.calls i).gave = some task
  gaveOnce : (s.accepted.map Prod.fst).Nodup
  took : ∀ i task, (i, task) ∈ s.taken ↔ (s.calls i).took = some task
  tookOnce : (s.taken.map Prod.fst).Nodup
  closed : s.contents.shuttingDown = true ↔ ∃ i, (s.calls i).Closed
  rejected : ∀ i task, s.calls i = .pushed task false → s.contents.shuttingDown = true
  popped : ∀ i result, s.calls i = .popped result → (∃ task, result = .ok (some task)) ∨
    result = .ok none ∧ s.contents.shuttingDown = true ∧ s.contents.queue = []

/-- A call goes on from one point to another without giving, taking or returning anything. -/
def Pc.Passes (pc pc' : Pc T) : Prop :=
  pc' = pc ∨ pc'.gave = pc.gave ∧ pc'.took = pc.took ∧ (pc'.Closed ↔ pc.Closed) ∧
    (∀ task, pc' ≠ .pushed task false) ∧ ∀ result, pc' ≠ .popped result

/-- Waking a call passes no task. -/
theorem Pc.woken_passes (pc : Pc T) : pc.Passes pc.woken := by
  unfold Pc.woken
  split
  · exact .inr ⟨rfl, rfl, .rfl, nofun, nofun⟩
  · exact .inl rfl

/-- Nor does its beginning. -/
theorem Pc.Starts.passes {pc : Pc T} (h : pc.Starts) : Pc.idle.Passes pc := by
  cases h <;> exact .inr ⟨rfl, rfl, .rfl, nofun, nofun⟩

/-- Nor does the acquisition of the mutex. -/
theorem Pc.acquires_passes {pc pc' : Pc T} (h : pc.acquires = some pc') : pc.Passes pc' := by
  unfold Pc.acquires at h
  split at h
  all_goals first
    | (cases h; exact .inr ⟨rfl, rfl, .rfl, nofun, nofun⟩)
    | cases h

namespace Deliveries

variable {s s' : System T ι}

/-- Calls that give, take and return nothing keep the deliveries. -/
theorem passes (hs : Deliveries s) (hcontents : s'.contents = s.contents)
    (haccepted : s'.accepted = s.accepted) (htaken : s'.taken = s.taken)
    (hcalls : ∀ i, (s.calls i).Passes (s'.calls i)) : Deliveries s' := by
  have hgave : ∀ i, (s'.calls i).gave = (s.calls i).gave := fun i =>
    (hcalls i).elim (congrArg Pc.gave) (·.1)
  have htook : ∀ i, (s'.calls i).took = (s.calls i).took := fun i =>
    (hcalls i).elim (congrArg Pc.took) (·.2.1)
  have hclosed : ∀ i, (s'.calls i).Closed ↔ (s.calls i).Closed := fun i =>
    (hcalls i).elim (fun heq => by rw [heq]) (·.2.2.1)
  constructor
  · rw [hcontents, haccepted, htaken, hs.order]
  · intro i task
    rw [haccepted, hgave, hs.gave]
  · rw [haccepted]
    exact hs.gaveOnce
  · intro i task
    rw [htaken, htook, hs.took]
  · rw [htaken]
    exact hs.tookOnce
  · rw [hcontents, hs.closed]
    exact exists_congr fun i => (hclosed i).symm
  · intro i task hpc
    rw [hcontents]
    rcases hcalls i with hsame | ⟨-, -, -, hreturns, -⟩
    · exact hs.rejected i task (hsame ▸ hpc)
    · exact absurd hpc (hreturns task)
  · intro i result hpc
    rw [hcontents]
    rcases hcalls i with hsame | ⟨-, -, -, -, hreturns⟩
    · exact hs.popped i result (hsame ▸ hpc)
    · exact absurd hpc (hreturns result)

end Deliveries

/-- What is in a list with something more. -/
theorem System.mem_log {history : List (ι × T)} {i k : ι} {o : Option T} {task : T} :
    (k, task) ∈ System.log history i o ↔ (k, task) ∈ history ∨ k = i ∧ o = some task := by
  cases o with
  | none => simp [System.log]
  | some task' =>
    simp only [System.log, List.mem_append, List.mem_singleton, Prod.mk.injEq, Option.some.injEq,
      @eq_comm _ task]

/-- A call that returns adds its task to the history, if it has one. -/
theorem System.log_tasks (history : List (ι × T)) (i : ι) (o : Option T) :
    (System.log history i o).map Prod.snd = history.map Prod.snd ++ o.toList := by
  cases o with
  | none => simp [System.log]
  | some task => simp [System.log]

/-- A call that has given or taken nothing before is not in the list. -/
theorem System.log_nodup {history : List (ι × T)} {i : ι} (o : Option T)
    (hnodup : (history.map Prod.fst).Nodup) (hnew : ∀ task, (i, task) ∉ history) :
    ((System.log history i o).map Prod.fst).Nodup := by
  cases o with
  | none => exact hnodup
  | some task =>
    rw [System.log, List.map_append, List.nodup_append]
    refine ⟨hnodup, List.pairwise_singleton _ i, ?_⟩
    intro k hk k' hk' heq
    obtain ⟨⟨_, task'⟩, hmem, rfl⟩ := List.mem_map.1 hk
    obtain rfl : k' = i := List.mem_singleton.1 hk'
    exact hnew task' (heq ▸ hmem)

namespace Deliveries

variable [DecidableEq ι] {s s' : System T ι}

/-- One call that gives, takes and returns nothing keeps the deliveries. -/
theorem goto (hs : Deliveries s) {i : ι} {pc : Pc T} (hpasses : (s.calls i).Passes pc) :
    Deliveries (s.goto i pc) := by
  refine hs.passes rfl rfl rfl fun k => ?_
  rw [System.goto_calls]
  split_ifs with hk
  · exact hk ▸ hpasses
  · exact .inl rfl

/-- A section keeps the deliveries. -/
theorem run (hs : Deliveries s) {i : ι} {q : ThreadSafeQueue T} {pc : Pc T}
    (h : Section s.contents (s.calls i) q pc) :
    Deliveries { s.goto i pc with
      contents := q
      accepted := System.log s.accepted i pc.gave
      taken := System.log s.taken i pc.took } := by
  obtain ⟨hgave, htook⟩ := h.fresh
  constructor
  · -- What was taken, and what is left, is what was accepted.
    dsimp only
    rw [System.log_tasks, System.log_tasks, List.append_assoc, h.queue_eq, ← List.append_assoc,
      hs.order]
  · intro k task
    dsimp only
    rw [System.mem_log, hs.gave, System.goto_calls]
    split_ifs with hk
    · rw [hk, hgave]
      simp
    · simp [hk]
  · -- A call gives its task once.
    refine System.log_nodup _ hs.gaveOnce fun task hmem => ?_
    rw [hs.gave, hgave] at hmem
    cases hmem
  · intro k task
    dsimp only
    rw [System.mem_log, hs.took, System.goto_calls]
    split_ifs with hk
    · rw [hk, htook]
      simp
    · simp [hk]
  · -- A call takes one task at most.
    refine System.log_nodup _ hs.tookOnce fun task hmem => ?_
    rw [hs.took, htook] at hmem
    cases hmem
  · dsimp only
    rw [h.closed_iff, hs.closed]
    constructor
    · rintro (⟨k, hk⟩ | hpc)
      · refine ⟨k, ?_⟩
        rw [System.goto_calls, if_neg]
        · exact hk
        · rintro rfl
          exact h.not_closed hk
      · exact ⟨i, by rwa [System.goto_calls, if_pos rfl]⟩
    · rintro ⟨k, hk⟩
      rw [System.goto_calls] at hk
      split_ifs at hk
      · exact .inr hk
      · exact .inl ⟨k, hk⟩
  · -- A push is rejected by a queue that is shut down.
    intro k task hreturned
    dsimp only at hreturned ⊢
    rw [System.goto_calls] at hreturned
    split_ifs at hreturned
    · exact h.rejected hreturned
    · exact h.shuttingDown (hs.rejected k task hreturned)
  · -- A pop returns a task, or finds the queue shut down and empty.
    intro k result hreturned
    dsimp only at hreturned ⊢
    rw [System.goto_calls] at hreturned
    split_ifs at hreturned
    · exact h.popped hreturned
    · rcases hs.popped k result hreturned with htask | ⟨hnone, hclosed, hempty⟩
      · exact .inl htask
      · -- Nothing is added to a queue that is shut down.
        refine .inr ⟨hnone, h.shuttingDown hclosed, ?_⟩
        exact h.queue_nil hclosed hempty

/-- A step keeps the deliveries. -/
theorem step {l : Label ι} (hs : Deliveries s) (hstep : Step s l s') : Deliveries s' := by
  cases hstep with
  | invoke i pc hidle hstarts => exact hs.goto (hidle ▸ hstarts.passes)
  | acquire i pc hacquires hfree => exact hs.goto (Pc.acquires_passes hacquires)
  | run i q pc hsection => exact hs.run hsection
  -- The one that notifies returns, and the one that it wakes goes on. No task moves.
  | notifyOne i j task hnotify hasleep =>
    have hnotified : Deliveries (s.goto i (.pushed task true)) := by
      apply hs.goto
      rw [hnotify]
      exact .inr ⟨rfl, rfl, .rfl, nofun, nofun⟩
    apply hnotified.goto
    rw [System.goto_calls]
    split_ifs with hj
    · rw [hj, hnotify] at hasleep
      cases hasleep
    · rw [hasleep]
      exact .inr ⟨rfl, rfl, .rfl, nofun, nofun⟩
  | notifyNobody i task hnotify hnobody =>
    apply hs.goto
    rw [hnotify]
    exact .inr ⟨rfl, rfl, .rfl, nofun, nofun⟩
  | notifyAll i hnotify =>
    have hnotified : Deliveries (s.goto i .stopped) := by
      apply hs.goto
      rw [hnotify]
      exact .inr ⟨rfl, rfl, .rfl, nofun, nofun⟩
    exact hnotified.passes rfl rfl rfl fun k => Pc.woken_passes _
  | sleep i hpark =>
    apply hs.goto
    rw [hpark]
    exact .inr ⟨rfl, rfl, .rfl, nofun, nofun⟩
  | wake i => exact hs.goto (Pc.woken_passes _)

end Deliveries

end Kronos.ThreadSafeQueue
