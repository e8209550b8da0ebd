import Kronos.Base.Traces
import Kronos.Engine.Alert
import Kronos.ThreadSafeQueue.Atomic

/-!
# The flush queue of the engine

The engine has its queue as a list with a flag, which its sections change at once. Here these are
steps of the queue as one object (`ThreadSafeQueue.effects`): a rotation and a shutdown push, the
worker pops, and the shutdown, or the worker behind its failure, closes the queue. What they ask is
read off the slot of the engine and the point of the worker (`System.asks`), so that the queue is
compared with what the engine does, and not with itself (`flushQueue_simulates`). The calls of
`thread_safe_queue` are calls on this object as well (`ThreadSafeQueue.linearizes`), so that their
interleavings show the engine nothing else. -/

namespace Kronos

open KronosEngine ThreadSafeQueue

/-- `flush_queue_`. -/
def KronosEngine.queue {F : Type} (e : KronosEngine F) : ThreadSafeQueue SharedMemtable :=
  ⟨e.flushQueue, e.queueClosed⟩

section Sections

variable {F R ι : Type} {H : Hashing} {fmt : TableFormat F R} {i : ι} {e e' : KronosEngine F}

/-- What a section of a caller asks of the queue, and what it is told, as far as the engine shows
it: the section of a writer or of a shutdown that puts a Memtable into the free slot pushes it, and
a shutdown closes the queue. -/
def Pc.asks (e e' : KronosEngine F) :
    Pc → Option (ThreadSafeQueue.Request SharedMemtable × Response SharedMemtable)
  | write _ (.prepare ..) | shutdown (.drain _) =>
    if e.immutableMemtable.isSome then none
    else e'.immutableMemtable.map fun task => (.push task, .pushed true)
  | shutdown (.close _) => some (.shutdown, .stopped)
  | _ => none

/-- What a section of the worker asks of the queue, and what it is told: it pops the Memtable that
it flushes next, or nothing when it exits, and behind a failure it closes the queue. -/
def WorkerPc.asks :
    WorkerPc → WorkerPc →
      Option (ThreadSafeQueue.Request SharedMemtable × Response SharedMemtable)
  | pop, flush task => some (.waitAndPop, .popped (some task))
  | pop, exited => some (.waitAndPop, .popped none)
  | closeQueue, exited => some (.shutdown, .stopped)
  | _, _ => none

/-- The queue behind a section that asks it this, or nothing. -/
def KronosEngine.Uses (e : KronosEngine F)
    (asked : Option (ThreadSafeQueue.Request SharedMemtable × Response SharedMemtable))
    (e' : KronosEngine F) : Prop :=
  match asked with
  | none => e'.queue = e.queue
  | some (request, response) => Effect e.queue request response e'.queue

/-- Handing over a Memtable is a push that is accepted. -/
theorem KronosEngine.Hands.uses (h : e.Hands e') (hclosed : e'.queueClosed = e.queueClosed) :
    e.Uses (if e.immutableMemtable.isSome then none
      else e'.immutableMemtable.map fun task => (.push task, .pushed true)) e' := by
  unfold KronosEngine.Uses KronosEngine.queue
  rw [hclosed]
  rcases h with ⟨hslot, hqueue⟩ | ⟨hopen, hfree, task, hslot, hqueue⟩
  · rw [hslot, hqueue]
    cases e.immutableMemtable <;> rfl
  · rw [hslot, hqueue, hopen, hfree]
    exact .accept e.flushQueue task

/-- The section of a caller asks the queue what `Pc.asks` says. -/
theorem CallStep.uses {h h' : History ι} {pc pc' : Pc} (hopen : e.OpenFor pc)
    (hstep : CallStep H fmt i e h pc e' h' pc') : e.Uses (pc.asks e e') e' := by
  have hhands := hstep.hands hopen
  cases hstep with
  | prepare w woken => exact hhands.uses (e.onlyMemtables_prepare woken w).queueClosed
  | insert w sequence =>
    obtain ⟨-, hqueue⟩ := e.insertLocked_slot w sequence
    exact congrArg₂ ThreadSafeQueue.mk hqueue (e.onlyMemtables_insert w sequence).queueClosed
  | wait =>
    show e.Uses (if e.immutableMemtable.isSome then none
      else e.immutableMemtable.map fun task => (.push task, .pushed true)) e
    exact hhands.uses rfl
  | drain => exact hhands.uses e.scheduleFinal_frame.1
  | close error => exact .close e.flushQueue e.queueClosed
  | _ => rfl

/-- The section of the worker asks the queue what `WorkerPc.asks` says. -/
theorem WorkerStep.uses {fault : Option (WorkerFault F)} {pc pc' : WorkerPc}
    (hstep : WorkerStep H fmt e fault pc e' pc') : e.Uses (pc.asks pc') e' := by
  have hcommit : ∀ edit fault, (e.commitEdit edit fault).2.queue = e.queue := by
    intro edit fault
    have hcases := e.commitEdit_cases edit fault
    generalize e.commitEdit edit fault = result at hcases
    cases hcases <;> rfl
  cases hstep with
  | pop task rest hqueue =>
    unfold KronosEngine.Uses KronosEngine.queue
    rw [hqueue]
    exact Effect.take task rest e.queueClosed
  | drained hempty hclosed =>
    unfold KronosEngine.Uses KronosEngine.queue
    rw [hempty, hclosed]
    exact Effect.drained
  | commitFlush task edit fault => exact hcommit edit fault
  | commitCompaction edit fault => exact hcommit edit fault
  | clear task flushedThrough =>
    show (e.clearImmutable task).2.queue = e.queue
    unfold clearImmutable
    split_ifs <;> rfl
  | record task failure =>
    show (e.recordFailure failure).queue = e.queue
    unfold recordFailure
    split_ifs <;> rfl
  | closeQueue => exact .close e.flushQueue e.queueClosed
  | _ => rfl

end Sections

section Process

variable {F R ι : Type} [DecidableEq ι] {H : Hashing} {fmt : TableFormat F R} {s s' : System F ι}

/-- What a step of a process asks of the queue, and what it is told. -/
def System.asks (s : System F ι) (label : ProcessLabel F ι) (s' : System F ι) :
    Option (ThreadSafeQueue.Request SharedMemtable × Response SharedMemtable) :=
  match label with
  | .call i => (s.calls i).asks s.engine s'.engine
  | .worker _ => s.worker.asks s'.worker
  | _ => none

/-- A step of a process asks the queue what `System.asks` says. -/
theorem ProcessStep.uses (hs : Stages s) {label : ProcessLabel F ι}
    (hstep : ProcessStep H fmt s label s') : s.engine.Uses (s.asks label s') s'.engine := by
  cases hstep with
  | call i e h pc hcall => exact hcall.uses (hs.openFor i)
  | notify i hpoint =>
    show s.engine.Uses ((s.calls i).asks _ _) s.engine
    rw [hpoint]
    rfl
  | join i error hpoint _ =>
    show s.engine.Uses ((s.calls i).asks _ _) s.engine
    rw [hpoint]
    rfl
  | worker fault e pc hwork => exact hwork.uses
  | notifyCleared through hworker =>
    show s.engine.Uses (s.worker.asks _) s.engine
    rw [hworker]
    rfl
  | notifyFailed hworker =>
    show s.engine.Uses (s.worker.asks _) s.engine
    rw [hworker]
    rfl
  | _ => rfl

/-- **The flush queue is a queue.** What the steps of a process ask of its queue, and are told, is a
run of the queue as one object, from an open and empty one to what the engine has, also if the I/O
of the process fails: a rotation and the last hand-over are pushes that are accepted, the worker
goes on with the Memtable that it pops, and a shutdown and a failure close the queue. -/
theorem flushQueue_simulates (H : Hashing) (fmt : TableFormat F R) :
    ∀ s₀ asked s, (process H fmt : Lts (System F ι) (ProcessLabel F ι)).initial s₀ →
      (process H fmt).Traced System.asks s₀ asked s →
      (effects SharedMemtable).Run .new asked s.engine.queue := by
  intro s₀ asked s hopened htraced
  suffices h : (Exclusive s ∧ Stages s) ∧
      (effects SharedMemtable).Run .new asked s.engine.queue from h.2
  induction htraced with
  | nil =>
    have hinv := invariant_of_opened hopened
    obtain ⟨store, active, wal, memtableTargetBytes, compactionPolicy, hengine⟩ := hopened.engine
    refine ⟨⟨hinv.exclusive, hinv.stages⟩, ?_⟩
    rw [hengine]
    exact .nil
  | @snoc asked s t label _ hstep ih =>
    obtain ⟨⟨hexclusive, hstages⟩, hrun⟩ := ih
    refine ⟨⟨hexclusive.step hstep, hstages.step hexclusive hstep⟩, ?_⟩
    have huses := hstep.uses hstages
    cases hasks : s.asks label t with
    | none =>
      rw [hasks] at huses
      have hsame : t.engine.queue = s.engine.queue := huses
      rw [hsame, Option.toList_none, List.append_nil]
      exact hrun
    | some asked =>
      rw [hasks] at huses
      exact hrun.snoc huses

end Process

/-- A write, and the shutdown that hands its Memtable over. -/
theorem flushQueue_simulates_handedOver :
    ∃ asked memtable, (effects SharedMemtable).Run .new asked ⟨[⟨0, memtable⟩], false⟩ := by
  have hfirst : (process vendoredSum (Sstable.format byteSum.crc32)).Reachable
      (System.first ℕ vendoredSum 1048576 ⟨4, by decide⟩) :=
    .initial (.inl (firstOpened_first _ _ _ _))
  obtain ⟨wal, active, -, s₀, ls, hopened, hrun⟩ := oneHandedOver_reachable
    (fun _ _ _ hstep _ => hstep) hfirst (w := .put [97] [1]) (by decide) (by decide)
  obtain ⟨asked, htraced⟩ : ∃ asked, Lts.Traced _ System.asks s₀ asked _ := hrun.exists_traced
  exact ⟨asked, active.frozen, flushQueue_simulates _ _ s₀ asked _ hopened htraced⟩

end Kronos
