import Kronos.Base.Simulation
import Kronos.ThreadSafeQueue.Wakeups

/-!
# The queue as one object

What the queue is for: a list of tasks, open or closed, on which `push`, `wait_and_pop` and
`shutdown` take effect at once (`Effect`). A call on the atomic queue begins, takes effect in one
step, and has its answer. The calls of `Kronos.ThreadSafeQueue.Model`, with their mutex, their
waits and their notifications, are simulated by these (`linearizes`): each takes effect in its
section under the mutex, which lies between its beginning and its return.
-/

namespace Kronos.ThreadSafeQueue

variable {T ι : Type}

/-- What a call asks for. -/
inductive Request (T : Type) where
  | push (task : T)
  | waitAndPop
  | shutdown

/-- What a call answers. -/
inductive Response (T : Type) where
  | pushed (accepted : Bool)
  | popped (task : Option T)
  | stopped

/-- What a call does to the queue. A consumer waits until there is a task, or the queue is
closed. -/
inductive Effect : ThreadSafeQueue T → Request T → Response T → ThreadSafeQueue T → Prop where
  | accept (tasks : List T) (task : T) :
    Effect ⟨tasks, false⟩ (.push task) (.pushed true) ⟨tasks ++ [task], false⟩
  | reject (tasks : List T) (task : T) :
    Effect ⟨tasks, true⟩ (.push task) (.pushed false) ⟨tasks, true⟩
  | take (task : T) (rest : List T) (closed : Bool) :
    Effect ⟨task :: rest, closed⟩ .waitAndPop (.popped (some task)) ⟨rest, closed⟩
  | drained : Effect ⟨[], true⟩ .waitAndPop (.popped none) ⟨[], true⟩
  | close (tasks : List T) (closed : Bool) :
    Effect ⟨tasks, closed⟩ .shutdown .stopped ⟨tasks, true⟩

/-- The queue by its effects alone. -/
def effects (T : Type) : Lts (ThreadSafeQueue T) (Request T × Response T) where
  initial q := q = .new
  step q l q' := Effect q l.1 l.2 q'

/-! ## Calls -/

/-- Where a call on the atomic queue stands. -/
inductive Status (T : Type) where
  | idle
  | pending (request : Request T)
  | answered (response : Response T)

/-- An atomic queue, and the calls on it. -/
structure Atomic (T ι : Type) where
  contents : ThreadSafeQueue T
  calls : ι → Status T

/-- What a step of the atomic queue is: a call begins, or it takes effect. -/
inductive AtomicLabel (T ι : Type) where
  | invoke (i : ι) (request : Request T)
  | effect (i : ι) (response : Response T)

/-- The steps of the atomic queue. -/
inductive AtomicStep [DecidableEq ι] (a : Atomic T ι) : AtomicLabel T ι → Atomic T ι → Prop where
  | invoke (i : ι) (request : Request T) : a.calls i = .idle →
    AtomicStep a (.invoke i request)
      { a with calls := Function.update a.calls i (.pending request) }
  | effect (i : ι) (request : Request T) (response : Response T) (q : ThreadSafeQueue T) :
    a.calls i = .pending request → Effect a.contents request response q →
    AtomicStep a (.effect i response) ⟨q, Function.update a.calls i (.answered response)⟩

/-- An atomic queue from its construction on. -/
def atomic (T ι : Type) [DecidableEq ι] : Lts (Atomic T ι) (AtomicLabel T ι) where
  initial a := a = ⟨.new, fun _ => .idle⟩
  step := AtomicStep

/-- What a call has to show: it waits for its effect until its section has run, and has the answer
from there on. No call shows that it touched an empty queue. -/
def Pc.shown : Pc T → Option (Status T)
  | idle => some .idle
  | push _ .notify => some (.answered (.pushed true))
  | push task _ => some (.pending (.push task))
  | waitAndPop _ => some (.pending .waitAndPop)
  | shutdown .notify => some (.answered .stopped)
  | shutdown _ => some (.pending .shutdown)
  | pushed _ accepted => some (.answered (.pushed accepted))
  | popped (.ok task) => some (.answered (.popped task))
  | popped (.error _) => none
  | stopped => some (.answered .stopped)

/-- The calls are those on an atomic queue. -/
structure Represents (s : System T ι) (a : Atomic T ι) : Prop where
  contents : a.contents = s.contents
  calls : ∀ i, (s.calls i).shown = some (a.calls i)

/-! ## The steps -/

/-- Waking a call shows nothing. -/
@[simp] theorem Pc.shown_woken (pc : Pc T) : pc.woken.shown = pc.shown := by
  unfold woken
  split <;> rfl

/-- Nor does the acquisition of the mutex. -/
theorem Pc.shown_of_acquires {pc pc' : Pc T} (h : pc.acquires = some pc') :
    pc'.shown = pc.shown := by
  unfold acquires at h
  split at h <;> cases h <;> rfl

/-- A call that begins waits for its effect. -/
theorem Pc.Starts.shown {pc : Pc T} (h : pc.Starts) :
    ∃ request, pc.shown = some (.pending request) := by
  cases h <;> exact ⟨_, rfl⟩

/-- A section has its effect at once, or it only finds that it has to wait. -/
theorem Section.effect {q q' : ThreadSafeQueue T} {pc pc' : Pc T} (h : Section q pc q' pc') :
    pc'.shown = pc.shown ∧ q' = q ∨
      ∃ request response, pc.shown = some (.pending request) ∧
        pc'.shown = some (.answered response) ∧ Effect q request response q' := by
  obtain ⟨tasks, closed⟩ := q
  cases h with
  | push task =>
    right
    cases closed with
    | true => exact ⟨_, _, rfl, rfl, .reject tasks task⟩
    | false => exact ⟨_, _, rfl, rfl, .accept tasks task⟩
  | wait hwaits => exact .inl ⟨rfl, rfl⟩
  | pop hgoes =>
    right
    cases tasks with
    | cons task rest =>
      refine ⟨_, .popped (some task), rfl, ?_, ?_⟩ <;> cases closed
      · rfl
      · rfl
      · exact .take task rest false
      · exact .take task rest true
    | nil =>
      cases closed with
      | true => exact ⟨_, _, rfl, rfl, .drained⟩
      | false => cases hgoes
  | shutdown =>
    right
    cases closed with
    | true => exact ⟨_, _, rfl, rfl, .close tasks true⟩
    | false => exact ⟨_, _, rfl, rfl, .close tasks false⟩

section Steps

variable [DecidableEq ι] {s s' : System T ι} {a : Atomic T ι}

/-- A call goes on, and still has the same to show. -/
theorem Represents.goto (h : Represents s a) {i : ι} {pc : Pc T}
    (hshown : pc.shown = (s.calls i).shown) : Represents (s.goto i pc) a := by
  refine ⟨h.contents, fun k => ?_⟩
  rw [System.goto_calls]
  split_ifs with hk
  · rw [hk, hshown, h.calls]
  · exact h.calls k

/-- A call goes on, and has something else to show. -/
theorem Represents.update (h : Represents s a) {i : ι} {pc : Pc T} {status : Status T}
    (hshown : pc.shown = some status) (k : ι) :
    ((s.goto i pc).calls k).shown = some (Function.update a.calls i status k) := by
  rw [System.goto_calls, Function.update_apply]
  split_ifs with hk
  · exact hshown
  · exact h.calls k

/-- A step is one of the atomic queue, or none. -/
theorem Represents.step (h : Represents s a) {l : Label ι} (hstep : Step s l s') :
    ∃ a', Represents s' a' ∧ (a' = a ∨ ∃ l', AtomicStep a l' a') := by
  cases hstep with
  | invoke i pc hidle hstarts =>
    obtain ⟨request, hshown⟩ := hstarts.shown
    have hcall := h.calls i
    rw [hidle] at hcall
    exact ⟨⟨a.contents, Function.update a.calls i (.pending request)⟩,
      ⟨h.contents, h.update hshown⟩, .inr ⟨_, .invoke i request (Option.some.inj hcall).symm⟩⟩
  | acquire i pc hacquires _ => exact ⟨a, h.goto (Pc.shown_of_acquires hacquires), .inl rfl⟩
  | run i q pc hsection =>
    rcases hsection.effect with ⟨hshown, rfl⟩ | ⟨request, response, hpending, hanswered, heffect⟩
    · have hrep := h.goto hshown
      exact ⟨a, ⟨hrep.contents, hrep.calls⟩, .inl rfl⟩
    · have hcall := h.calls i
      rw [hpending] at hcall
      rw [← h.contents] at heffect
      exact ⟨⟨q, _⟩, ⟨rfl, h.update hanswered⟩,
        .inr ⟨_, .effect i request response q (Option.some.inj hcall).symm heffect⟩⟩
  | notifyOne i j task hnotify hasleep =>
    have hpushed : Represents (s.goto i (.pushed task true)) a := h.goto (by rw [hnotify]; rfl)
    refine ⟨a, hpushed.goto ?_, .inl rfl⟩
    rw [System.goto_calls, if_neg, hasleep]
    · rfl
    · rintro rfl
      cases hnotify.symm.trans hasleep
  | notifyNobody i task hnotify _ => exact ⟨a, h.goto (by rw [hnotify]; rfl), .inl rfl⟩
  | notifyAll i hnotify =>
    have hstopped : Represents (s.goto i .stopped) a := h.goto (by rw [hnotify]; rfl)
    exact ⟨a, ⟨hstopped.contents, fun k => (Pc.shown_woken _).trans (hstopped.calls k)⟩, .inl rfl⟩
  | sleep i hpark => exact ⟨a, h.goto (by rw [hpark]; rfl), .inl rfl⟩
  | wake i => exact ⟨a, h.goto (Pc.shown_woken _), .inl rfl⟩

end Steps

/-- **The queue is linearizable.** Every run of calls is one of calls on the atomic queue, in which
each call takes effect in one step between its beginning and its return, with the answer that it
returns, and the queue has the same tasks throughout. -/
theorem linearizes [DecidableEq ι] : (system T ι).Simulation (atomic T ι) Represents where
  initial := by
    rintro s rfl
    exact ⟨_, rfl, rfl, fun _ => rfl⟩
  step _ _ _ _ h hstep := h.step hstep

end Kronos.ThreadSafeQueue
