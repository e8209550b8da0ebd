import Mathlib.Logic.Function.Basic
import Kronos.Base.Lts
import Kronos.Types

/-!
# The queue between threads

`thread_safe_queue` of `include/kronos/thread_safe_queue.hpp`: its sections under the mutex, and the
system of any number of calls of `push`, `wait_and_pop` and `shutdown` on one queue. A call acquires
the mutex in a step of its own, when nobody holds it, and runs a section in one step. Notifications
come behind the release of the mutex, in steps of their own. A consumer that waits has evaluated its
predicate under the mutex, sleeps until a notification or until it wakes for no reason, and then
acquires the mutex again.

Beside the queue, a state has the tasks that were accepted and those that were taken, each with its
call, which no step reads.
-/

namespace Kronos

/-- The contents of a `thread_safe_queue`. -/
structure ThreadSafeQueue (T : Type) where
  queue : List T
  shuttingDown : Bool
  deriving DecidableEq, Repr

namespace ThreadSafeQueue

variable {T : Type}

/-- The constructor. -/
def new : ThreadSafeQueue T := ⟨[], false⟩

/-- The section of `push`: whether the task is accepted. -/
def push (q : ThreadSafeQueue T) (task : T) : Bool × ThreadSafeQueue T :=
  if q.shuttingDown then (false, q) else (true, { q with queue := q.queue ++ [task] })

/-- The predicate of the wait in `wait_and_pop`. -/
def mayGoOn (q : ThreadSafeQueue T) : Bool := !q.queue.isEmpty || q.shuttingDown

/-- The section of `wait_and_pop` behind the wait. -/
def pop (q : ThreadSafeQueue T) : Except Failure (Option T) × ThreadSafeQueue T :=
  if q.shuttingDown && q.queue.isEmpty then (.ok none, q)
  else
    match q.queue with
    | task :: rest => (.ok (some task), { q with queue := rest })
    | [] => (.error (.undefined "front of an empty queue"), q)

/-- The section of `shutdown`: whether a notification follows. -/
def shutdown (q : ThreadSafeQueue T) : Bool × ThreadSafeQueue T :=
  if q.shuttingDown then (false, q) else (true, { q with shuttingDown := true })

/-! ## Program counters -/

/-- The points of `push`. -/
inductive PushPoint where
  | enter
  | locked
  | notify
  deriving DecidableEq, Repr

/-- The points of `wait_and_pop`. At `park`, the predicate was false, and the call releases the
mutex and falls asleep in one step. -/
inductive PopPoint where
  | enter
  | check
  | park
  | asleep
  | reacquire
  deriving DecidableEq, Repr

/-- The points of `shutdown`. -/
inductive ShutdownPoint where
  | enter
  | locked
  | notify
  deriving DecidableEq, Repr

/-- Where a call stands. -/
inductive Pc (T : Type) where
  | idle
  | push (task : T) (point : PushPoint)
  | waitAndPop (point : PopPoint)
  | shutdown (point : ShutdownPoint)
  | pushed (task : T) (accepted : Bool)
  | popped (result : Except Failure (Option T))
  | stopped

namespace Pc

/-- Whether a call holds the mutex. -/
def Holds : Pc T → Prop
  | push _ .locked | waitAndPop .check | waitAndPop .park | shutdown .locked => True
  | _ => False

/-- Where a call stands that has acquired the mutex. -/
def acquires : Pc T → Option (Pc T)
  | push task .enter => some (push task .locked)
  | waitAndPop .enter | waitAndPop .reacquire => some (waitAndPop .check)
  | shutdown .enter => some (shutdown .locked)
  | _ => none

/-- Where a call stands behind a notification. -/
def woken : Pc T → Pc T
  | waitAndPop .asleep => waitAndPop .reacquire
  | pc => pc

/-- A notification of one consumer, or a check of the queue by one that is awake, is outstanding. -/
def Due : Pc T → Prop
  | push _ .notify | waitAndPop .enter | waitAndPop .check | waitAndPop .reacquire => True
  | _ => False

/-- The task that a call has put into the queue. -/
def gave : Pc T → Option T
  | push task .notify | pushed task true => some task
  | _ => none

/-- The task that a call has taken from the queue. -/
def took : Pc T → Option T
  | popped (.ok (some task)) => some task
  | _ => none

/-- A call of `shutdown` has shut the queue down, or found it so. -/
def Closed : Pc T → Prop
  | shutdown .notify | stopped => True
  | _ => False

/-- A call begins. -/
inductive Starts : Pc T → Prop where
  | push (task : T) : Starts (push task .enter)
  | waitAndPop : Starts (waitAndPop .enter)
  | shutdown : Starts (shutdown .enter)

end Pc

/-! ## The system -/

/-- A queue, the calls on it, and the tasks that were accepted and taken, in order. -/
structure System (T ι : Type) where
  contents : ThreadSafeQueue T
  calls : ι → Pc T
  accepted : List (ι × T)
  taken : List (ι × T)

namespace System

variable {ι : Type}

/-- Nobody holds the mutex. -/
def Free (s : System T ι) : Prop := ∀ i, ¬(s.calls i).Holds

/-- A consumer sleeps. -/
def Sleeps (s : System T ι) : Prop := ∃ i, s.calls i = .waitAndPop .asleep

/-- A call moves on. -/
def goto [DecidableEq ι] (s : System T ι) (i : ι) (pc : Pc T) : System T ι :=
  { s with calls := Function.update s.calls i pc }

/-- Where the calls stand when one has moved on. -/
theorem goto_calls [DecidableEq ι] (s : System T ι) (i : ι) (pc : Pc T) (k : ι) :
    (s.goto i pc).calls k = if k = i then pc else s.calls k := Function.update_apply _ _ _ _

/-- `cv_.notify_all`. -/
def wakeAll (s : System T ι) : System T ι := { s with calls := fun i => (s.calls i).woken }

/-- The list with what a call has given or taken, if anything. -/
def log (history : List (ι × T)) (i : ι) : Option T → List (ι × T)
  | some task => history ++ [(i, task)]
  | none => history

end System

/-- What a step is: a call begins, acquires the mutex, runs a section, notifies, falls asleep, or
wakes for no reason. -/
inductive Label (ι : Type) where
  | invoke (i : ι)
  | acquire (i : ι)
  | run (i : ι)
  | notify (i : ι)
  | sleep (i : ι)
  | wake (i : ι)

section Steps

variable {ι : Type}

/-- Where the section of `push` leaves a call. -/
def Pc.behindPush (task : T) : Bool → Pc T
  | true => .push task .notify
  | false => .pushed task false

/-- Where the section of `shutdown` leaves a call. -/
def Pc.behindShutdown : Bool → Pc T
  | true => .shutdown .notify
  | false => .stopped

/-- The sections under the mutex. -/
inductive Section (q : ThreadSafeQueue T) : Pc T → ThreadSafeQueue T → Pc T → Prop where
  | push (task : T) :
    Section q (.push task .locked) (q.push task).2 (.behindPush task (q.push task).1)
  | wait : q.mayGoOn = false → Section q (.waitAndPop .check) q (.waitAndPop .park)
  | pop : q.mayGoOn = true → Section q (.waitAndPop .check) q.pop.2 (.popped q.pop.1)
  | shutdown :
    Section q (.shutdown .locked) q.shutdown.2 (.behindShutdown q.shutdown.1)

/-- The steps. `notify_one` wakes one of the consumers that sleep, if there are any. -/
inductive Step [DecidableEq ι] (s : System T ι) : Label ι → System T ι → Prop where
  | invoke (i : ι) (pc : Pc T) : s.calls i = .idle → pc.Starts → Step s (.invoke i) (s.goto i pc)
  | acquire (i : ι) (pc : Pc T) : (s.calls i).acquires = some pc → s.Free →
    Step s (.acquire i) (s.goto i pc)
  | run (i : ι) (q : ThreadSafeQueue T) (pc : Pc T) : Section s.contents (s.calls i) q pc →
    Step s (.run i) { s.goto i pc with
      contents := q
      accepted := System.log s.accepted i pc.gave
      taken := System.log s.taken i pc.took }
  | notifyOne (i j : ι) (task : T) : s.calls i = .push task .notify →
    s.calls j = .waitAndPop .asleep →
    Step s (.notify i) ((s.goto i (.pushed task true)).goto j (.waitAndPop .reacquire))
  | notifyNobody (i : ι) (task : T) : s.calls i = .push task .notify → ¬s.Sleeps →
    Step s (.notify i) (s.goto i (.pushed task true))
  | notifyAll (i : ι) : s.calls i = .shutdown .notify →
    Step s (.notify i) (s.goto i .stopped).wakeAll
  | sleep (i : ι) : s.calls i = .waitAndPop .park →
    Step s (.sleep i) (s.goto i (.waitAndPop .asleep))
  | wake (i : ι) : Step s (.wake i) (s.goto i (s.calls i).woken)

/-- A queue from its construction on. -/
def system (T ι : Type) [DecidableEq ι] : Lts (System T ι) (Label ι) where
  initial s := s = ⟨.new, fun _ => .idle, [], []⟩
  step := Step

end Steps

/-! ## What a section does -/

namespace Section

variable {q q' : ThreadSafeQueue T} {pc pc' : Pc T}

/-- A section runs under the mutex. -/
theorem holds (h : Section q pc q' pc') : pc.Holds := by cases h <;> exact trivial

/-- A section takes from the front, and adds at the back. -/
theorem queue_eq (h : Section q pc q' pc') :
    pc'.took.toList ++ q'.queue = q.queue ++ pc'.gave.toList := by
  cases h with
  | push task =>
    unfold ThreadSafeQueue.push
    split_ifs
    · simp [Pc.behindPush, Pc.gave, Pc.took]
    · simp [Pc.behindPush, Pc.gave, Pc.took]
  | wait hwaits => simp [Pc.gave, Pc.took]
  | pop hgoes =>
    unfold ThreadSafeQueue.pop
    split_ifs
    · simp [Pc.gave, Pc.took]
    · cases hqueue : q.queue with
      | nil => simp [Pc.gave, Pc.took, hqueue]
      | cons task rest => simp [Pc.gave, Pc.took]
  | shutdown =>
    unfold ThreadSafeQueue.shutdown
    split_ifs
    · simp [Pc.behindShutdown, Pc.gave, Pc.took]
    · simp [Pc.behindShutdown, Pc.gave, Pc.took]

/-- A queue that is shut down stays so. -/
theorem shuttingDown (h : Section q pc q' pc') (hclosed : q.shuttingDown = true) :
    q'.shuttingDown = true := by
  cases h with
  | push task => rwa [ThreadSafeQueue.push, if_pos hclosed]
  | wait hwaits => exact hclosed
  | pop hgoes =>
    unfold ThreadSafeQueue.pop
    split_ifs
    · exact hclosed
    · cases q.queue with
      | nil => exact hclosed
      | cons task rest => exact hclosed
  | shutdown => rwa [ThreadSafeQueue.shutdown, if_pos hclosed]

/-- Nothing is added to a queue that is shut down. -/
theorem queue_nil (h : Section q pc q' pc') (hclosed : q.shuttingDown = true)
    (hempty : q.queue = []) : q'.queue = [] := by
  cases h with
  | push task => rwa [ThreadSafeQueue.push, if_pos hclosed]
  | wait hwaits => exact hempty
  | pop hgoes =>
    rw [ThreadSafeQueue.pop, if_pos (by simp [hclosed, hempty])]
    exact hempty
  | shutdown => rwa [ThreadSafeQueue.shutdown, if_pos hclosed]

/-- A section of `push` rejects the task when the queue is shut down, and only then. -/
theorem push_iff {task : T} (h : Section q (.push task .locked) q' pc') :
    (pc' = .pushed task false ↔ q.shuttingDown = true) ∧
      (pc' = .pushed task false → q' = q) ∧
      (pc' ≠ .pushed task false → pc' = .push task .notify) := by
  cases h
  unfold ThreadSafeQueue.push
  split_ifs with hclosed
  · simp [Pc.behindPush, hclosed]
  · simp [Pc.behindPush, hclosed]

/-- A task is rejected by a queue that is shut down. -/
theorem rejected (h : Section q pc q' pc') {task : T} (hpc : pc' = .pushed task false) :
    q'.shuttingDown = true := by
  cases h with
  | push task' =>
    unfold ThreadSafeQueue.push at hpc ⊢
    split_ifs at hpc ⊢ with hclosed
    · exact hclosed
    · cases hpc
  | wait hwaits => cases hpc
  | pop hgoes => cases hpc
  | shutdown =>
    unfold ThreadSafeQueue.shutdown at hpc
    split_ifs at hpc <;> cases hpc

/-- A consumer goes away with nothing when the queue is shut down and empty, and never touches an
empty queue. -/
theorem popped (h : Section q pc q' pc') {result : Except Failure (Option T)}
    (hpc : pc' = .popped result) :
    (∃ task, result = .ok (some task)) ∨
      result = .ok none ∧ q'.shuttingDown = true ∧ q'.queue = [] := by
  cases h with
  | push task =>
    unfold ThreadSafeQueue.push at hpc
    split_ifs at hpc <;> cases hpc
  | wait hwaits => cases hpc
  | pop hgoes =>
    obtain rfl : q.pop.1 = result := Pc.popped.inj hpc
    unfold ThreadSafeQueue.pop
    split_ifs with hdrained
    · obtain ⟨hclosed, hempty⟩ := Bool.and_eq_true_iff.1 hdrained
      exact .inr ⟨rfl, hclosed, List.isEmpty_iff.1 hempty⟩
    · cases hqueue : q.queue with
      | nil =>
        -- The predicate of the wait holds, so that an empty queue is shut down.
        simp [mayGoOn, hqueue] at hgoes hdrained
        rw [hdrained] at hgoes
        cases hgoes
      | cons task rest => exact .inl ⟨task, rfl⟩
  | shutdown =>
    unfold ThreadSafeQueue.shutdown at hpc
    split_ifs at hpc <;> cases hpc

/-- The section that shuts the queue down is followed by a notification. -/
theorem closes (h : Section q pc q' pc') (hopen : q.shuttingDown = false)
    (hclosed : q'.shuttingDown = true) : pc' = .shutdown .notify := by
  have hnot : ¬q.shuttingDown = true := by simp [hopen]
  cases h with
  | push task =>
    rw [ThreadSafeQueue.push, if_neg hnot] at hclosed
    exact absurd hclosed hnot
  | wait hwaits => exact absurd hclosed hnot
  | pop hgoes =>
    unfold ThreadSafeQueue.pop at hclosed
    split_ifs at hclosed
    · exact absurd hclosed hnot
    · cases hqueue : q.queue with
      | nil =>
        rw [hqueue] at hclosed
        exact absurd hclosed hnot
      | cons task rest =>
        rw [hqueue] at hclosed
        exact absurd hclosed hnot
  | shutdown =>
    rw [ThreadSafeQueue.shutdown, if_neg hnot]
    rfl

/-- A queue is shut down behind a section of `shutdown`, or where it was so before. -/
theorem closed_iff (h : Section q pc q' pc') :
    q'.shuttingDown = true ↔ q.shuttingDown = true ∨ pc'.Closed := by
  constructor
  · intro hclosed
    cases hbefore : q.shuttingDown with
    | true => exact .inl rfl
    | false =>
      right
      rw [h.closes hbefore hclosed]
      exact trivial
  · rintro (hclosed | hpc)
    · exact h.shuttingDown hclosed
    · cases h with
      | push task => cases hresult : (q.push task).1 <;> rw [hresult] at hpc <;> exact hpc.elim
      | wait hwaits => exact hpc.elim
      | pop hgoes => exact hpc.elim
      | shutdown =>
        unfold ThreadSafeQueue.shutdown
        split_ifs with hclosed
        · exact hclosed
        · rfl

/-- No section ends asleep. -/
theorem ne_asleep (h : Section q pc q' pc') : pc' ≠ .waitAndPop .asleep := by
  cases h with
  | push task => cases (q.push task).1 <;> nofun
  | wait hwaits => nofun
  | pop hgoes => nofun
  | shutdown => cases q.shutdown.1 <;> nofun

/-- A consumer that waits has seen an empty queue that is not shut down. -/
theorem parks (h : Section q pc q' pc') (hpc : pc' = .waitAndPop .park) :
    q'.queue = [] ∧ q'.shuttingDown = false := by
  cases h with
  | push task => cases hresult : (q.push task).1 <;> rw [hresult] at hpc <;> cases hpc
  | wait hwaits => simpa [mayGoOn] using hwaits
  | pop hgoes => cases hpc
  | shutdown => cases hresult : q.shutdown.1 <;> rw [hresult] at hpc <;> cases hpc

/-- What a section means for the checks that are outstanding: the queue grows, and a notification is
outstanding; or a check was made, and the queue is empty or shrinks; or neither changes. -/
theorem due (h : Section q pc q' pc') :
    ¬pc.Due ∧ pc'.Due ∧ q'.queue.length = q.queue.length + 1 ∨
      q'.queue.length = 0 ∨ q'.queue.length + 1 = q.queue.length ∨
      ¬pc.Due ∧ q'.queue = q.queue := by
  cases h with
  | push task =>
    unfold ThreadSafeQueue.push
    split_ifs
    · exact .inr (.inr (.inr ⟨id, rfl⟩))
    · exact .inl ⟨id, trivial, by simp⟩
  | wait hwaits =>
    right; left
    have hboth : q.queue = [] ∧ q.shuttingDown = false := by simpa [mayGoOn] using hwaits
    rw [hboth.1, List.length_nil]
  | pop hgoes =>
    unfold ThreadSafeQueue.pop
    split_ifs with hdrained
    · right; left
      rw [List.isEmpty_iff.1 (Bool.and_eq_true_iff.1 hdrained).2, List.length_nil]
    · cases hqueue : q.queue with
      | nil => exact .inr (.inl (by simp [hqueue]))
      | cons task rest => exact .inr (.inr (.inl (by simp)))
  | shutdown =>
    unfold ThreadSafeQueue.shutdown
    split_ifs
    · exact .inr (.inr (.inr ⟨id, rfl⟩))
    · exact .inr (.inr (.inr ⟨id, rfl⟩))

/-- A call that runs a section has neither given nor taken anything before. -/
theorem fresh (h : Section q pc q' pc') : pc.gave = none ∧ pc.took = none := by
  cases h <;> exact ⟨rfl, rfl⟩

/-- Nor has it shut the queue down. -/
theorem not_closed (h : Section q pc q' pc') : ¬pc.Closed := by cases h <;> exact id

end Section

end ThreadSafeQueue

end Kronos
