import Kronos.Base.DurableObject
import Kronos.Engine.Linearized

/-!
# The engine as a durable dictionary

What the engine is for: a map from keys to values, on which `put`, `remove` and `get` take effect at
once, and which survives that the process dies (`dictionary`). What can be seen of the life of a
directory whose tables fit and whose readers look up keys that can be hashed, the calls with their
answers and the crashes, can be seen of that dictionary (`durablyLinearizes`). The log of such a
directory is not reclaimed with a failure while its process goes on (`LifeStep.process`).

A write takes effect when its record reaches the active Memtable, or in the crash that finds it in
the log alone. A `get` finds out at its end at which instant it took effect (`trail_of_run`), so
that the engine is first simulated by a late object.
-/

namespace Kronos

open KronosEngine DurableObject

/-! ## The dictionary -/

/-- What a write makes of a map. -/
def Write.update (d : Bytes → Option Bytes) : Write → Bytes → Option Bytes
  | put key value => Function.update d key (some value)
  | remove key => Function.update d key none

/-- The map that the engine stands for. -/
def dictionary : SequentialObject (Bytes → Option Bytes) Write Bytes
    (Except Failure (Option Bytes)) where
  initial _ := none
  update := Write.update
  answer d key := .ok (d key)

/-- A dictionary with calls on it. -/
abbrev Dictionary (ι : Type) :=
  DurableObject.State Write Bytes (Except Failure (Option Bytes)) Failure ι

/-- The write that a record stands for. -/
def Record.write (r : Record) : Write :=
  if r.operation = .put then .put r.key r.value else .remove r.key

/-- The record of a write is read as that write. -/
@[simp] theorem Write.write_record (w : Write) (sequence : ℕ) : (w.record sequence).write = w := by
  cases w <;> rfl

/-- What a record does to a dictionary. -/
theorem Record.update_write (r : Record) (d : Bytes → Option Bytes) (key : Bytes) :
    r.write.update d key =
      if r.key = key then (if r.operation = .put then some r.value else none) else d key := by
  unfold Record.write
  split_ifs with hput hkey hkey
  · rw [Write.update, hkey, Function.update_self]
  · rw [Write.update, Function.update_of_ne (Ne.symm hkey)]
  · rw [Write.update, hkey, Function.update_self]
  · rw [Write.update, Function.update_of_ne (Ne.symm hkey)]

/-- The last record of a key decides its value. -/
theorem valueOf_concat (key : Bytes) (rs : List Record) (r : Record) :
    valueOf key (rs ++ [r]) =
      if r.key = key then (if r.operation = .put then some r.value else none)
      else valueOf key rs := by
  unfold valueOf
  rw [lastWrite_concat]
  split_ifs <;> simp [*]

/-- Records make a map of their values. -/
theorem behind_records (rs : List Record) (key : Bytes) :
    dictionary.behind (rs.map Record.write) key = valueOf key rs := by
  induction rs using List.reverseRecOn with
  | nil => rfl
  | append_singleton rs r ih =>
    have hbehind : dictionary.behind ((rs ++ [r]).map Record.write) =
        r.write.update (dictionary.behind (rs.map Record.write)) := by
      unfold SequentialObject.behind
      rw [List.map_append, List.foldl_append]
      rfl
    rw [hbehind, Record.update_write, ih, valueOf_concat]

/-! ## What can be seen of a directory -/

/-- What a call asks of the dictionary. -/
def Request.asked : Request → DurableObject.Request Write Bytes
  | write w => .update w
  | get key => .query key
  | shutdown => .other

/-- What a call that has returned has returned. -/
def Pc.response : Pc → Option (Response (Except Failure (Option Bytes)) Failure)
  | wrote _ (.ok ()) => some .updated
  | wrote _ (.error failure) => some (.refused failure)
  | got _ result => some (.answered (result.map GetResult.answer))
  | stopped _ result => some (.finished result)
  | _ => none

/-- What can be seen of a step in the life of a directory. -/
def Node.event {F ι : Type} : Node F ι → LifeLabel F ι → Node F ι →
    Option (Event Write Bytes (Except Failure (Option Bytes)) Failure ι)
  | _, .process (.invoke i request), _ => some (.begins i request.asked)
  | _, .process (.call i), .running s' => (s'.calls i).response.map (.returns i)
  | _, .process _, _ => none
  | _, .reopen .., _ => none
  | _, _, _ => some .crash

/-- Where a call of the engine stands on the dictionary. -/
def Pc.status (since : ℕ) : Pc → Status Write Bytes (Except Failure (Option Bytes)) Failure
  | idle => .idle
  | write _ (.leave (.ok ())) => .decided .updated
  | write _ (.leave (.error failure)) => .decided (.refused failure)
  | write w _ => .pending (.update w) since
  | get key _ => .pending (.query key) since
  | shutdown _ => .pending .other since
  | wrote .. | got .. | stopped .. => .returned
  | lost _ => .lost

section Shows

variable {F R ι : Type} [DecidableEq ι]

/-- A `get` that is under way began when so many records had been applied. -/
def System.Began (H : Hashing) (fmt : TableFormat F R) (Fits : List TableRecord → Prop)
    (s : System F ι) (i : ι) (since : ℕ) : Prop :=
  ∀ key point, s.calls i = .get key point → ∃ s₀ ls, (workingProcess H fmt Fits).Reachable s₀ ∧
    s₀.calls i = .get key (.active false) ∧ s₀.history.applied.length = since ∧
    (workingProcess H fmt Fits).Run s₀ ls s

/-- A running engine shows a dictionary. -/
structure System.Shows (H : Hashing) (fmt : TableFormat F R) (Fits : List TableRecord → Prop)
    (s : System F ι) (a : Dictionary ι) : Prop where
  updates : a.updates = s.history.applied.map Record.write
  calls : ∀ i, ∃ since, a.calls i = (s.calls i).status since ∧ s.Began H fmt Fits i since

/-- A directory shows a dictionary. No call runs on one that is closed. -/
def Node.Shows (H : Hashing) (fmt : TableFormat F R) (Fits : List TableRecord → Prop) :
    Node F ι → Dictionary ι → Prop
  | running s, a => s.Shows H fmt Fits a
  | closed _ _ calls h, a => a.updates = h.records.map Record.write ∧
    ∀ i, a.calls i = (calls i).status 0

/-! ## The steps of a process -/

/-- What a section of a call is for the dictionary: nothing, its update takes effect or is refused,
it returns what was decided, or it finds out what to return. -/
inductive CallShows (h h' : History ι) : Pc → Pc → Prop where
  | quiet {pc pc' : Pc} : h'.applied = h.applied → pc'.response = none →
    (∀ since, pc'.status since = pc.status since) → CallShows h h' pc pc'
  | applies {w : Write} {sequence : ℕ} {locked : Bool} :
    h'.applied = h.applied ++ [w.record sequence] →
    CallShows h h' (.write w (.insert sequence locked)) (.write w (.leave (.ok ())))
  | refused {w : Write} {point : WritePoint} {failure : Failure} : h'.applied = h.applied →
    (∀ since, (Pc.write w point).status since = .pending (.update w) since) →
    CallShows h h' (.write w point) (.write w (.leave (.error failure)))
  | leaves {w : Write} {result : Except Failure Unit} : h'.applied = h.applied →
    CallShows h h' (.write w (.leave result)) (.wrote w result)
  | answers {key : Bytes} {point : GetPoint} {result : Except Failure GetResult} :
    h'.applied = h.applied → CallShows h h' (.get key point) (.got key result)
  | finishes {point : ShutdownPoint} {first : Bool} {result : Except Failure Unit} :
    h'.applied = h.applied → CallShows h h' (.shutdown point) (.stopped first result)

omit [DecidableEq ι] in
/-- What a section of a call shows of itself and of the history. -/
theorem CallStep.shows {H : Hashing} {fmt : TableFormat F R} {s : System F ι} (hs : s.Invariant H)
    {i : ι} {e : KronosEngine F} {h : History ι} {pc : Pc}
    (hstep : CallStep H fmt i s.engine s.history (s.calls i) e h pc) :
    CallShows s.history h (s.calls i) pc := by
  generalize hcall : s.calls i = pc₀ at hstep
  -- A section answers its call, refuses it, applies its write, or shows nothing.
  cases hstep with
  | prepare w woken =>
    cases (s.engine.prepareForWriteLocked woken w).1 with
    | ready => exact .quiet rfl rfl fun _ => rfl
    | waits => exact .quiet rfl rfl fun _ => rfl
    | threw failure => exact .refused rfl fun _ => rfl
  | append w =>
    cases ((w.call none).run H s.engine.log.wal).1 with
    | ok sequence => exact .quiet rfl rfl fun _ => rfl
    | error failure => exact .refused rfl fun _ => rfl
  | insert w sequence =>
    obtain ⟨active, hinsert⟩ := hs.inserts hcall
    rw [hinsert]
    exact .applies rfl
  | leave w result => exact .leaves rfl
  | active key =>
    cases s.engine.lookupActive key with
    | none => exact .quiet rfl rfl fun _ => rfl
    | some entry => exact .answers rfl
  | immutable key snapshot =>
    cases snapshot.bind (·.memtable.lookupEntry key) with
    | none => exact .quiet rfl rfl fun _ => rfl
    | some entry => exact .answers rfl
  | file key f rest winner =>
    cases s.engine.store.lookupFile fmt key winner f with
    | ok winner => exact .quiet rfl rfl fun _ => rfl
    | error failure => exact .answers rfl
  | answer key winner => exact .answers rfl
  | publish =>
    split_ifs
    · exact .finishes rfl
    · exact .quiet rfl rfl fun _ => rfl
  | report error => exact .finishes rfl
  | _ => exact .quiet rfl rfl fun _ => rfl

section Process

variable {H : Hashing} {fmt : TableFormat F R} {Fits : List TableRecord → Prop} {s s' : System F ι}
  {a a' : Dictionary ι} {i : ι} {since : ℕ}

/-- A `get` that goes on has not begun later. -/
theorem System.Began.step (h : s.Began H fmt Fits i since) {label : ProcessLabel F ι}
    (hstep : (workingProcess H fmt Fits).step s label s')
    (hcall : ∀ key point, s'.calls i = .get key point →
      ∃ key point, s.calls i = .get key point) : s'.Began H fmt Fits i since := by
  intro key point hi
  obtain ⟨key', point', hi'⟩ := hcall key point hi
  obtain ⟨s₀, ls, hs₀, hbegins, hsince, hrun⟩ := h key' point' hi'
  have hkey : key' = key := by
    rcases (step_of_workingProcess _ _ _ hstep).get_or_got hi' with ⟨_, heq⟩ | ⟨_, heq⟩
    · cases heq.symm.trans hi
      rfl
    · cases heq.symm.trans hi
  exact ⟨s₀, ls ++ [label], hs₀, hkey ▸ hbegins, hsince, hrun.snoc hstep⟩

/-- What a pending query shows is a `get`. -/
theorem Pc.eq_get_of_status {pc : Pc} {key : Bytes}
    (h : pc.status since = .pending (.query key) since) : ∃ point, pc = .get key point := by
  cases pc with
  | get key' point =>
    cases h
    exact ⟨point, rfl⟩
  | write w point =>
    cases point with
    | leave result => rcases result with _ | _ <;> cases h
    | _ => cases h
  | _ => cases h

/-- A call shows the same as before. -/
theorem System.Began.of_status (h : s.Began H fmt Fits i since) {label : ProcessLabel F ι}
    (hstep : (workingProcess H fmt Fits).step s label s')
    (hstatus : (s'.calls i).status since = (s.calls i).status since) :
    s'.Began H fmt Fits i since := by
  refine h.step hstep fun key point hi => ?_
  rw [hi] at hstatus
  obtain ⟨point', hi'⟩ := Pc.eq_get_of_status hstatus.symm
  exact ⟨key, point', hi'⟩

/-- A step that applies nothing and changes nothing that a call shows. -/
theorem System.Shows.quiet (h : s.Shows H fmt Fits a) {label : ProcessLabel F ι}
    (hstep : (workingProcess H fmt Fits).step s label s')
    (happlied : s'.history.applied = s.history.applied)
    (hstatus : ∀ i since, (s'.calls i).status since = (s.calls i).status since) :
    s'.Shows H fmt Fits a := by
  refine ⟨happlied ▸ h.updates, fun i => ?_⟩
  obtain ⟨since, hcall, hbegan⟩ := h.calls i
  exact ⟨since, hcall.trans (hstatus i since).symm, hbegan.of_status hstep (hstatus i since)⟩

/-- A step that changes what one call shows. -/
theorem System.Shows.moves (h : s.Shows H fmt Fits a) {label : ProcessLabel F ι}
    (hstep : (workingProcess H fmt Fits).step s label s')
    (hother : ∀ j, j ≠ i → s'.calls j = s.calls j)
    (hbegan : s'.Began H fmt Fits i since) {updates : List Write}
    (hupdates : updates = s'.history.applied.map Record.write) :
    s'.Shows H fmt Fits
      (State.set { a with updates := updates } i ((s'.calls i).status since)) := by
  refine ⟨hupdates, fun j => ?_⟩
  rw [State.calls_set]
  split_ifs with hj
  · subst hj
    exact ⟨since, rfl, hbegan⟩
  · obtain ⟨since', hcall, hbegan'⟩ := h.calls j
    have hsame := congrArg (Pc.status since') (hother j hj)
    exact ⟨since', hcall.trans hsame.symm, hbegan'.of_status hstep hsame⟩

/-- A `get` answers by the updates that had taken effect at an instant since it began. -/
theorem System.Shows.answered (hfmt : fmt.Holds Fits) (h : s.Shows H fmt Fits a)
    {label : ProcessLabel F ι} (hstep : (workingProcess H fmt Fits).step s label s')
    (happlied : s'.history.applied = s.history.applied) {key : Bytes} {point : GetPoint}
    {result : Except Failure GetResult} (hi : s.calls i = .get key point)
    (hi' : s'.calls i = .got key result) : ∃ since n, a.calls i = .pending (.query key) since ∧
      since ≤ n ∧ n ≤ a.updates.length ∧
      result.map GetResult.answer =
        dictionary.answer (dictionary.behind (a.updates.take n)) key := by
  obtain ⟨since, hcall, hbegan⟩ := h.calls i
  obtain ⟨s₀, ls, hs₀, hbegins, rfl, hrun⟩ := hbegan key point hi
  have htrail := trail_of_run hfmt hs₀ hbegins (hrun.snoc hstep)
  rw [hi'] at htrail
  obtain ⟨-, t, r, ⟨⟨front, back, -, hfront, hback⟩, -⟩, rfl, hvalue⟩ := htrail
  have hearlier := applied_of_run step_of_workingProcess hfront
  obtain ⟨rest, hrest⟩ := applied_of_run step_of_workingProcess hback
  rw [happlied] at hrest
  have hupdates : a.updates = t.history.applied.map Record.write ++ rest.map Record.write := by
    rw [h.updates, ← hrest, List.map_append]
  refine ⟨_, t.history.applied.length, hcall.trans (congrArg _ hi), hearlier.length_le, ?_, ?_⟩
  · rw [hupdates, List.length_append, List.length_map]
    exact Nat.le_add_right _ _
  · have htake : a.updates.take t.history.applied.length = t.history.applied.map Record.write := by
      rw [hupdates]
      exact List.take_left' (List.length_map _)
    rw [htake]
    show Except.ok r.answer = Except.ok (dictionary.behind (t.history.applied.map Record.write) key)
    rw [behind_records, hvalue]

/-- A section of a call. -/
theorem System.Shows.call (hfmt : fmt.Holds Fits) (h : s.Shows H fmt Fits a) (hs : s.Invariant H)
    {e : KronosEngine F} {history : History ι} {pc : Pc}
    (hcall : CallStep H fmt i s.engine s.history (s.calls i) e history pc)
    (hstep : (workingProcess H fmt Fits).step s (.call i)
      { s.goto i pc with engine := e, history := history }) :
    ∃ a', System.Shows H fmt Fits { s.goto i pc with engine := e, history := history } a' ∧
      (late dictionary Failure ι).Traced event a (pc.response.map (.returns i)).toList a' := by
  have hself : (s.goto i pc).calls i = pc := by rw [System.calls_goto, if_pos rfl]
  have hother : ∀ j, j ≠ i → (s.goto i pc).calls j = s.calls j := fun j hj => by
    rw [System.calls_goto, if_neg hj]
  obtain ⟨since, hai, hbegan⟩ := h.calls i
  have hshows := hcall.shows hs
  generalize hpc : s.calls i = pc₀ at hshows hai
  -- The call has the status of its new point, and the dictionary is behind the applied records.
  have hmoves : ∀ updates : List Write, (∀ key point, pc ≠ .get key point) →
      updates = history.applied.map Record.write →
      System.Shows H fmt Fits { s.goto i pc with engine := e, history := history }
        (State.set { a with updates := updates } i (pc.status since)) := by
    intro updates hget hupdates
    have hbegan' : System.Began H fmt Fits { s.goto i pc with engine := e, history := history } i
        since := fun key point hi => absurd (hself.symm.trans hi) (hget key point)
    have hnow := h.moves hstep hother hbegan' hupdates
    rwa [show (s.goto i pc).calls i = pc from hself] at hnow
  cases hshows with
  | quiet happlied hresponse hstatus =>
    refine ⟨a, h.quiet hstep happlied fun j since => ?_, ?_⟩
    · show ((s.goto i pc).calls j).status since = (s.calls j).status since
      by_cases hj : j = i
      · rw [hj, hself, hstatus, hpc]
      · rw [hother j hj]
    · rw [hresponse]
      exact .nil
  -- The insertion is where the write takes effect.
  | @applies w sequence locked happlied =>
    refine ⟨_, hmoves (a.updates ++ [w]) nofun ?_, ?_⟩
    · rw [happlied, List.map_append, ← h.updates, List.map_singleton, Write.write_record]
    · exact Lts.Traced.nil.silent (.step (.update i w since hai)) rfl
  | @refused w point failure happlied hstatus =>
    refine ⟨_, hmoves a.updates nofun (happlied ▸ h.updates), ?_⟩
    exact Lts.Traced.nil.silent (.step (.refuse i w since failure (hai.trans (hstatus since)))) rfl
  -- The write was applied or refused before, and now returns.
  | @leaves w result happlied =>
    refine ⟨_, hmoves a.updates nofun (happlied ▸ h.updates), ?_⟩
    cases result with
    | ok _ => exact Lts.Traced.nil.step (.step (.returns i _ hai)) rfl
    | error failure => exact Lts.Traced.nil.step (.step (.returns i _ hai)) rfl
  -- The read takes effect late, behind an update since it began.
  | @answers key point result happlied =>
    obtain ⟨since, n, hpending, hsince, hn, hanswer⟩ := h.answered hfmt hstep happlied hpc hself
    refine ⟨_, hmoves a.updates nofun (happlied ▸ h.updates), ?_⟩
    have hquery := LateStep.query (o := dictionary) (E := Failure) i key since n hpending hsince hn
    rw [← hanswer] at hquery
    exact hquery.returns
  | @finishes point first result happlied =>
    refine ⟨_, hmoves a.updates nofun (happlied ▸ h.updates), ?_⟩
    exact (LateStep.step (.finish i since result hai)).returns

omit [DecidableEq ι] in
/-- Waking a call does not change its status. -/
@[simp] theorem Pc.status_woken (pc : Pc) : pc.woken.status since = pc.status since := by
  unfold woken
  split <;> rfl

/-- Nor does the acquisition of a mutex. -/
theorem Pc.status_of_acquires {pc pc' : Pc} {m : Mutex} (h : pc.acquires = some (m, pc')) :
    pc'.status since = pc.status since := by
  unfold acquires at h
  split at h <;> cases h <;> rfl

/-- A step of a process is matched by steps of the late dictionary. -/
theorem System.Shows.process (hfmt : fmt.Holds Fits) (h : s.Shows H fmt Fits a)
    (hs : s.Invariant H) (hlife : (workingProcess H fmt Fits).Reachable s)
    {label : ProcessLabel F ι} (hstep : (workingProcess H fmt Fits).step s label s') :
    ∃ a', s'.Shows H fmt Fits a' ∧ (late dictionary Failure ι).Traced event a
      (Node.event (.running s) (.process label) (.running s')).toList a' := by
  have hself : ∀ i pc, (s.goto i pc).calls i = pc := fun i pc => by
    rw [System.calls_goto, if_pos rfl]
  -- A move that does not change the status of its call changes no status.
  have hsame : ∀ {i pc}, (∀ since, pc.status since = (s.calls i).status since) →
      ∀ j since, ((s.goto i pc).calls j).status since = (s.calls j).status since := by
    intro i pc hpc j since
    rw [System.calls_goto]
    split_ifs with hj
    · rw [hj, hpc]
    · rfl
  have hprocess := step_of_workingProcess _ _ _ hstep
  cases hprocess with
  -- The call begins behind the updates that there are.
  | invoke i request hidle =>
    have hlength : s.history.applied.length = a.updates.length := by
      rw [h.updates, List.length_map]
    have hstatus : ((s.goto i request.start).calls i).status a.updates.length =
        .pending request.asked a.updates.length := by
      rw [hself]
      cases request <;> rfl
    have hbegan : (s.goto i request.start).Began H fmt Fits i a.updates.length := by
      intro key point hi
      rw [hself] at hi
      cases request with
      | get key' =>
        cases hi
        exact ⟨_, [], hlife.step hstep, hself i _, hlength, .nil⟩
      | _ => cases hi
    have hshows := h.moves hstep (fun j hj => by rw [System.calls_goto, if_neg hj]) hbegan h.updates
    rw [hstatus] at hshows
    obtain ⟨since, hai, -⟩ := h.calls i
    rw [hidle] at hai
    exact ⟨_, hshows, Lts.Traced.nil.step (LateStep.step (.begins i request.asked hai)) rfl⟩
  | acquire i m pc hacquires _ =>
    exact ⟨a, h.quiet hstep rfl (hsame fun since => Pc.status_of_acquires hacquires), .nil⟩
  | call i e history pc hcall =>
    obtain ⟨a', hshows, htraced⟩ := h.call hfmt hs hcall hstep
    refine ⟨a', hshows, ?_⟩
    rwa [← hself i pc] at htraced
  | notify i hpoint =>
    refine ⟨a, h.quiet hstep rfl fun j since => ?_, ?_⟩
    · exact (Pc.status_woken _).trans (hsame (fun since => by rw [hpoint]; rfl) j since)
    · have hresponse : ((s.goto i (.shutdown (.barrier false))).wakeAll.calls i).response = none :=
        congrArg (fun pc => Pc.response (Pc.woken pc)) (hself i _)
      rw [Node.event, hresponse]
      exact .nil
  | join i error hpoint _ =>
    refine ⟨a, h.quiet hstep rfl (hsame fun since => by rw [hpoint]; rfl), ?_⟩
    rw [Node.event, hself]
    exact .nil
  | wake i =>
    exact ⟨a, h.quiet hstep rfl (hsame fun since => Pc.status_woken _), .nil⟩
  | workerAcquire m pc _ _ => exact ⟨a, h.quiet hstep rfl fun _ _ => rfl, .nil⟩
  | worker fault e pc _ => exact ⟨a, h.quiet hstep rfl fun _ _ => rfl, .nil⟩
  | notifyCleared through _ => exact ⟨a, h.quiet hstep rfl fun j since => Pc.status_woken _, .nil⟩
  | notifyFailed _ => exact ⟨a, h.quiet hstep rfl fun j since => Pc.status_woken _, .nil⟩

end Process

/-! ## The life of a directory -/

section Life

variable {H : Hashing} {fmt : TableFormat F R} {Fits : List TableRecord → Prop} {s : System F ι}
  {a : Dictionary ι}

/-- What a crash makes of a call. -/
theorem Pc.crashes_lose (since n : ℕ) (pc : Pc) :
    (pc.status since).Crashes ((pc.lose n).status 0) := by
  cases pc with
  | write w point =>
    refine .inr ⟨?_, rfl⟩
    cases point with
    | leave result => rcases result with _ | _ <;> exact nofun
    | _ => exact nofun
  | get key point => exact .inr ⟨nofun, rfl⟩
  | shutdown point => exact .inr ⟨nofun, rfl⟩
  | stopped first result => exact .inr ⟨nofun, rfl⟩
  | _ => exact .inl ⟨trivial, rfl⟩

/-- Behind a crash, no call is under way. -/
theorem Pc.over_of_resting {pc : Pc} (h : pc.resting = true) : (pc.status 0).Over := by
  cases pc with
  | idle | wrote w result | got key result | lost crash => trivial
  | _ => cases h

/-- A record that is pending is that of a write which is to insert it. -/
theorem Pc.insert_of_pending {pc : Pc} (h : pc.pending ≠ []) :
    ∃ w sequence locked, pc = .write w (.insert sequence locked) := by
  unfold pending at h
  split at h
  · exact ⟨_, _, _, rfl⟩
  · exact absurd rfl h

/-- A crash takes away the calls, and the update that is in the log alone takes effect. -/
theorem System.Shows.crash (h : s.Shows H fmt Fits a) (hs : s.Invariant H) {log : Bytes}
    {store : Store F} {kept : List (ι × Record)}
    (hkept : kept = [] ∨ ∃ i w r, kept = [(i, r)] ∧ r.write = w ∧ s.calls i = .write w .append) :
    ∃ a', (s.crashed log store kept).Shows H fmt Fits a' ∧
      (late dictionary Failure ι).Traced event a [.crash] a' := by
  obtain ⟨g, hd, hp⟩ := hs.data
  -- The log may hold one record more than the Memtables: that of a write which is lost.
  have hlate : ∃ update : Option (ι × Write),
      (∀ p ∈ update, ∃ since, a.calls p.1 = .pending (.update p.2) since) ∧
        (s.lostHistory kept).records.map Record.write =
          a.updates ++ update.toList.map Prod.snd := by
    have hrecords : (s.lostHistory kept).records.map Record.write =
        a.updates ++ (g.pending ++ kept.map Prod.snd).map Record.write := by
      have hlost : (s.lostHistory kept).records = s.history.records ++ kept.map Prod.snd :=
        List.map_append
      rw [hlost, hd.records, Generations.records, ← hd.applied, h.updates, List.append_assoc,
        List.map_append]
    have hupdate : ∀ i w, (∀ since, (s.calls i).status since = .pending (.update w) since) →
        ∀ p ∈ some (i, w), ∃ since, a.calls p.1 = .pending (.update p.2) since := by
      rintro i w hstatus _ ⟨⟩
      obtain ⟨since, hai, -⟩ := h.calls i
      exact ⟨since, hai.trans (hstatus since)⟩
    rw [hrecords]
    rcases hkept with rfl | ⟨i, w, r, rfl, hwrite, hcall⟩
    · by_cases hpending : g.pending = []
      · exact ⟨none, fun p hp => absurd hp (Option.not_mem_none p), by simp [hpending]⟩
      · -- The record of a call is between the log and the Memtable.
        obtain ⟨i, hi⟩ := hp.found hpending
        obtain ⟨w, sequence, locked, hcall⟩ := Pc.insert_of_pending (hi ▸ hpending)
        refine ⟨some (i, w), hupdate i w fun since => by rw [hcall]; rfl, ?_⟩
        rw [← hi, hcall]
        simp [Pc.pending]
    · have hheld : Mutex.write ∈ (s.calls i).held := hcall ▸ .head _
      have hpending := hs.nothing_pending hp hheld (by rw [hcall]; rfl)
      refine ⟨some (i, w), hupdate i w fun since => by rw [hcall]; rfl, ?_⟩
      simp [hpending, hwrite]
  obtain ⟨update, hpending, hrecords⟩ := hlate
  refine ⟨⟨_, fun i => (s.lostCalls i).status 0⟩, ⟨hrecords.symm, fun i => rfl⟩,
    Lts.Traced.nil.step (LateStep.step (.crash update _ hpending fun i => ?_)) rfl⟩
  obtain ⟨since, hai, -⟩ := h.calls i
  rw [hai]
  exact Pc.crashes_lose since _ _

/-- A step in the life of a directory is matched by steps of the late dictionary. -/
theorem Node.Shows.step (hfmt : fmt.Holds Fits) {node node' : Node F ι}
    (h : node.Shows H fmt Fits a) (hlife : (fittingLife H fmt Fits).Reachable node)
    {label : LifeLabel F ι} (hstep : (fittingLife H fmt Fits).step node label node') :
    ∃ a', node'.Shows H fmt Fits a' ∧ (late dictionary Failure ι).Traced DurableObject.event a
      (node.event label node').toList a' := by
  have hinv := invariant_of_reachable hlife.of_restrict
  obtain ⟨hlifeStep, hfits⟩ := hstep
  cases hlifeStep with
  | @process s s' label hprocess hworks =>
    exact System.Shows.process hfmt h hinv (.initial hlife) ⟨⟨hprocess, hfits⟩, hworks⟩
  | @crash s store _ _ => exact System.Shows.crash h hinv (.inl rfl)
  | @crashInAppend s i w fault hcall =>
    refine System.Shows.crash h hinv ?_
    have hwrite : ((w.call (some fault)).record s.engine.log.wal.nextSequence).write = w := by
      cases w <;> rfl
    unfold Wal.Call.kept
    rcases (w.call (some fault)).leaves H s.engine.log.wal with _ | _ | _ | _
    · exact .inl rfl
    · exact .inr ⟨i, w, _, rfl, hwrite, hcall⟩
    · exact .inr ⟨i, w, _, rfl, hwrite, hcall⟩
    · exact .inl rfl
  | @crashInCommit s edit store _ _ => exact System.Shows.crash h hinv (.inl rfl)
  | @crashInReclaim s flushedThrough point _ => exact System.Shows.crash h hinv (.inl rfl)
  | @crashInRecovery log store calls history w point _ =>
    obtain ⟨hupdates, hcalls⟩ := h
    have hover : ∀ i, (a.calls i).Over := fun i => by
      rw [hcalls i]
      exact Pc.over_of_resting (ClosedInvariant.resting hinv i)
    have hcrash : Step dictionary a .crash ⟨a.updates ++ [], a.calls⟩ :=
      .crash none a.calls nofun fun i => .inl ⟨hover i, rfl⟩
    exact ⟨⟨a.updates ++ [], a.calls⟩, ⟨(List.append_nil _).trans hupdates, hcalls⟩,
      Lts.Traced.nil.step (.step hcrash) rfl⟩
  | @reopen log store calls history e memtableTargetBytes compactionPolicy _ =>
    obtain ⟨hupdates, hcalls⟩ := h
    refine ⟨a, ⟨hupdates, fun i => ⟨0, hcalls i, fun key point hi => ?_⟩⟩, .nil⟩
    have hresting := ClosedInvariant.resting hinv i
    rw [show calls i = .get key point from hi] at hresting
    cases hresting

end Life

end Shows

/-- What can be seen of a life is what can be seen of a durable dictionary: every call takes effect
in one step between its beginning and its return, also when the process dies. -/
def DurablyLinearizes {F ι : Type} [DecidableEq ι] (M : Lts (Node F ι) (LifeLabel F ι)) : Prop :=
  ∀ node trace node', M.initial node → M.Traced Node.event node trace node' →
    ∃ a, (atomic dictionary Failure ι).Traced DurableObject.event (new _ _ _ _ _) trace a

/-- **The engine is a durable dictionary**, in the life of a directory whose tables fit and whose
readers look up keys that can be hashed: with any number of processes, calls, failures of the jobs
and commits of the worker, and crashes. -/
theorem durablyLinearizes {ι : Type} [DecidableEq ι] (crc32 : Bytes → UInt32) :
    DurablyLinearizes (fittingLife (.vendored crc32) (Sstable.format crc32) Sstable.TableFits :
      Lts (Node Bytes ι) (LifeLabel Bytes ι)) := by
  intro node trace node' hinitial htraced
  have hfirst : node.Shows (.vendored crc32) (Sstable.format crc32) Sstable.TableFits
      (new _ _ _ _ _) := by
    obtain ⟨s, ⟨e, memtableTargetBytes, compactionPolicy, -, rfl⟩, rfl⟩ := hinitial
    exact ⟨rfl, fun i => ⟨0, rfl, nofun⟩⟩
  let Rel : Node Bytes ι → Dictionary ι → Prop := fun node a =>
    (fittingLife (.vendored crc32) (Sstable.format crc32) Sstable.TableFits).Reachable node ∧
      node.Shows (.vendored crc32) (Sstable.format crc32) Sstable.TableFits a
  have hstep : ∀ node label node' a, Rel node a →
      (fittingLife (.vendored crc32) (Sstable.format crc32) Sstable.TableFits).step
        node label node' → ∃ a', Rel node' a' ∧
        (late dictionary Failure ι).Traced DurableObject.event a
          (Node.event node label node').toList a' := by
    intro node label node' a ⟨hlife, hshows⟩ hstep
    obtain ⟨a', hshows', hmatched⟩ :=
      hshows.step (fun _ => Sstable.format_represents crc32) hlife hstep
    exact ⟨a', ⟨hlife.step hstep, hshows'⟩, hmatched⟩
  obtain ⟨a, -, hlate⟩ := htraced.simulate hstep ⟨Lts.Reachable.initial hinitial, hfirst⟩
  exact ⟨a, traced_atomic hlate⟩

end Kronos
