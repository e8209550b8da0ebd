import Kronos.Engine.Contents

/-!
# What the calls have in the log

Every record of the log is that of one call of `put` or `remove`, and a call has one record at most
(`Acknowledged`). A call that has returned normally has one, which has reached a Memtable. A call
that has thrown has none. Of the calls that a crash takes away, one at most has a record: the one
that held `write_mutex_`. So the records of the log are the acknowledged writes, and for each crash
one more write, or none.

`valueOf` is what the records give to a key, as a map from keys to values: the reference for every
answer of `get`.
-/

namespace Kronos

open KronosEngine

/-! ## The value of a key -/

/-- The value that some records give to a key: that of its last write, if this is a PUT. -/
def valueOf (key : Bytes) (rs : List Record) : Option Bytes :=
  (lastWrite Record.key key rs).bind fun r => if r.operation = .put then some r.value else none

/-- The last version of a key answers with its value. -/
theorem answerOf_lastEntry (key : Bytes) (rs : List Record) :
    answerOf (lastEntry key rs) = valueOf key rs := by
  unfold lastEntry valueOf
  cases lastWrite Record.key key rs with
  | none => rfl
  | some r =>
    rw [Option.map_some, Option.bind_some, Record.entry]
    split_ifs with hput
    · rfl
    · rfl

/-- Records of other keys do not change the value. -/
theorem valueOf_append_of_none {key : Bytes} {rs rs' : List Record}
    (h : lastEntry key rs' = none) : valueOf key (rs ++ rs') = valueOf key rs := by
  rw [← answerOf_lastEntry, ← answerOf_lastEntry, lastEntry_append, h, Option.none_or]

/-! ## The record of a call -/

/-- How far a call is with its record: it has none in the log, it has one that is to reach a
Memtable, it has one that has, or the process has died in it. -/
inductive Progress where
  | absent
  | logged (r : Record)
  | applied (w : Write)
  | lost (crash : ℕ)

/-- How far a call is with its record. -/
def Pc.progress : Pc → Progress
  | write w (.insert sequence _) => .logged (w.record sequence)
  | write w (.leave (.ok ())) | wrote w (.ok ()) => .applied w
  | lost crash => .lost crash
  | _ => .absent

/-- The record that a call can have in the log. -/
def Progress.Owns (r : Record) : Progress → Prop
  | absent => False
  | logged r' => r = r'
  | applied w => ∃ sequence, r = w.record sequence
  | lost _ => True

/-- What calls and the history say about each other. -/
structure Acknowledged {ι : Type} (calls : ι → Pc) (h : History ι) : Prop where
  /-- A record that is to reach a Memtable is in the log. -/
  logged : ∀ i r, (calls i).progress = .logged r → (i, r) ∈ h.logged
  /-- The record of a write that has returned, or is about to, is in the log and in a Memtable. -/
  applied : ∀ i w, (calls i).progress = .applied w →
    ∃ sequence, (i, w.record sequence) ∈ h.logged ∧ w.record sequence ∈ h.applied
  /-- A record of the log is that of its call. -/
  owned : ∀ i r, (i, r) ∈ h.logged → (calls i).progress.Owns r
  /-- A call has one record at most. -/
  once : (h.logged.map Prod.fst).Nodup
  /-- Of the calls that a crash has taken away, one at most has a record. -/
  lost : ∀ i j crash, (calls i).progress = .lost crash → (calls j).progress = .lost crash →
    ∀ r r', (i, r) ∈ h.logged → (j, r') ∈ h.logged → i = j
  /-- The crashes are numbered. -/
  crashes : ∀ i crash, (calls i).progress = .lost crash → crash < h.crashes

namespace Pc

/-- Waking a call does not move its record. -/
@[simp] theorem progress_woken (pc : Pc) : pc.woken.progress = pc.progress := by
  unfold woken
  split <;> rfl

/-- Nor does the acquisition of a mutex. -/
theorem progress_of_acquires {pc pc' : Pc} {m : Mutex} (h : pc.acquires = some (m, pc')) :
    pc'.progress = pc.progress := by
  unfold acquires at h
  split at h <;> cases h <;> rfl

/-- A call that begins has no record. -/
@[simp] theorem progress_start (request : Request) : request.start.progress = .absent := by
  cases request <;> rfl

/-- A call that a crash takes away, or that it leaves. -/
theorem lose_cases (n : ℕ) (pc : Pc) :
    pc.lose n = .lost n ∨ pc.lose n = pc ∧ ∀ w point, pc ≠ .write w point := by
  cases pc with
  | idle => exact .inr ⟨rfl, nofun⟩
  | wrote w result => exact .inr ⟨rfl, nofun⟩
  | got key result => exact .inr ⟨rfl, nofun⟩
  | lost crash => exact .inr ⟨rfl, nofun⟩
  | _ => exact .inl rfl

/-- A running call with a record holds `write_mutex_`. -/
theorem write_mem_held_of_owns {pc : Pc} {n : ℕ} (hlost : pc.lose n = .lost n)
    (hnew : pc.progress ≠ .lost n) {r : Record} (howns : pc.progress.Owns r) :
    Mutex.write ∈ pc.held := by
  cases pc with
  | write w point =>
    cases point with
    | insert sequence locked => exact .head _
    | leave result => exact .head _
    | _ => exact howns.elim
  | get key point => exact howns.elim
  | shutdown point => exact howns.elim
  | stopped first result => exact howns.elim
  | lost crash =>
    cases hlost
    exact absurd rfl hnew
  | _ => cases hlost

end Pc

namespace Acknowledged

section Calls

variable {ι : Type} {calls calls' : ι → Pc} {h : History ι}

/-- Calls that are as far as before. -/
theorem congr (ha : Acknowledged calls h) (hsame : ∀ i, (calls' i).progress = (calls i).progress) :
    Acknowledged calls' h where
  logged i r hi := ha.logged i r (hsame i ▸ hi)
  applied i w hi := ha.applied i w (hsame i ▸ hi)
  owned i r hi := hsame i ▸ ha.owned i r hi
  once := ha.once
  lost i j crash hi hj := ha.lost i j crash (hsame i ▸ hi) (hsame j ▸ hj)
  crashes i crash hi := ha.crashes i crash (hsame i ▸ hi)

end Calls

section Process

variable {F R ι : Type} {H : Hashing} {fmt : TableFormat F R} {s s' : System F ι}

variable [DecidableEq ι]

/-- A call that moves on with its record where it was leaves all records there. -/
theorem progress_goto {i : ι} {pc : Pc} (hpc : pc.progress = (s.calls i).progress) (j : ι) :
    ((s.goto i pc).calls j).progress = (s.calls j).progress := by
  rw [System.calls_goto]
  split_ifs with hj
  · rw [hpc, hj]
  · rfl

/-- A call appends its record. -/
theorem append (ha : Acknowledged s.calls s.history) {i : ι} {w : Write} {sequence : ℕ}
    (hcall : s.calls i = .write w .append) :
    Acknowledged (s.goto i (.write w (.insert sequence false))).calls
      (s.history.append i w (.ok sequence)) := by
  -- The call that appended has its record in the log now, and no other call has moved.
  have hself : ((s.goto i (.write w (.insert sequence false))).calls i).progress =
      .logged (w.record sequence) := by rw [System.calls_goto, if_pos rfl]; rfl
  have hother : ∀ j, j ≠ i →
      ((s.goto i (.write w (.insert sequence false))).calls j).progress = (s.calls j).progress := by
    intro j hj
    rw [System.calls_goto, if_neg hj]
  -- Before, the log had no record of this call.
  have hnone : ∀ r, (i, r) ∉ s.history.logged := by
    intro r hr
    have howned := ha.owned i r hr
    rw [hcall] at howned
    exact howned
  have hmem : ∀ {j r}, (j, r) ∈ (s.history.append i w (.ok sequence)).logged →
      (j, r) ∈ s.history.logged ∨ j = i ∧ r = w.record sequence := by
    intro j r hr
    rcases List.mem_append.1 hr with hr | hr
    · exact .inl hr
    · exact .inr (Prod.mk.inj (List.mem_singleton.1 hr))
  have hmono : ∀ {p}, p ∈ s.history.logged → p ∈ (s.history.append i w (.ok sequence)).logged :=
    fun hp => List.mem_append_left _ hp
  refine ⟨fun j r hj => ?_, fun j w' hj => ?_, fun j r hr => ?_, ?_, fun j k crash hj hk => ?_,
    fun j crash hj => ?_⟩
  · by_cases hji : j = i
    · rw [hji, hself] at hj
      cases hj
      exact hji ▸ List.mem_append_right _ (List.mem_singleton_self _)
    · exact hmono (ha.logged j r (hother j hji ▸ hj))
  · by_cases hji : j = i
    · rw [hji, hself] at hj
      cases hj
    · obtain ⟨n, hlogged, happlied⟩ := ha.applied j w' (hother j hji ▸ hj)
      exact ⟨n, hmono hlogged, happlied⟩
  · rcases hmem hr with hr | ⟨rfl, rfl⟩
    · have hji : j ≠ i := fun hji => hnone r (hji ▸ hr)
      rw [hother j hji]
      exact ha.owned j r hr
    · rw [hself]
      rfl
  · -- Every call still has one record at most.
    show ((s.history.logged ++ [(i, w.record sequence)]).map Prod.fst).Nodup
    rw [List.map_append, List.map_singleton, List.nodup_append]
    refine ⟨ha.once, List.nodup_singleton i, fun j hj k hk hjk => ?_⟩
    obtain ⟨⟨j', r⟩, hr, rfl⟩ := List.mem_map.1 hj
    rw [List.mem_singleton.1 hk] at hjk
    obtain rfl : j' = i := hjk
    exact hnone r hr
  · -- Two calls that one crash has lost were lost before this step.
    have hlost : ∀ {j}, ((s.goto i (.write w (.insert sequence false))).calls j).progress =
        .lost crash → j ≠ i ∧ (s.calls j).progress = .lost crash := by
      intro j hj
      have hji : j ≠ i := by
        intro hji
        rw [hji, hself] at hj
        cases hj
      exact ⟨hji, hother j hji ▸ hj⟩
    intro r r' hr hr'
    obtain ⟨hji, hj⟩ := hlost hj
    obtain ⟨hki, hk⟩ := hlost hk
    exact ha.lost j k crash hj hk r r' ((hmem hr).resolve_right fun h => hji h.1)
      ((hmem hr').resolve_right fun h => hki h.1)
  · by_cases hji : j = i
    · rw [hji, hself] at hj
      cases hj
    · exact ha.crashes j crash (hother j hji ▸ hj)

/-- The record of a call reaches a Memtable. -/
theorem insert (ha : Acknowledged s.calls s.history) {i : ι} {w : Write} {sequence : ℕ}
    {locked : Bool} (hcall : s.calls i = .write w (.insert sequence locked)) :
    Acknowledged (s.goto i (.write w (.leave (.ok ())))).calls
      (s.history.insert w sequence (.ok ())) := by
  have hself : ((s.goto i (.write w (.leave (.ok ())))).calls i).progress = .applied w := by
    rw [System.calls_goto, if_pos rfl]; rfl
  have hother : ∀ j, j ≠ i →
      ((s.goto i (.write w (.leave (.ok ())))).calls j).progress = (s.calls j).progress := by
    intro j hj
    rw [System.calls_goto, if_neg hj]
  -- The record was logged, and is applied now.
  have hlogged : (i, w.record sequence) ∈ s.history.logged := ha.logged i _ (hcall ▸ rfl)
  -- A step of a process loses no call.
  have hlost : ∀ {j crash}, ((s.goto i (.write w (.leave (.ok ())))).calls j).progress =
      .lost crash → (s.calls j).progress = .lost crash := by
    intro j crash hj
    by_cases hji : j = i
    · rw [hji, hself] at hj
      -- The call is applied, and no longer just logged.
      cases hj
    · exact hother j hji ▸ hj
  refine ⟨fun j r hj => ?_, fun j w' hj => ?_, fun j r hr => ?_, ha.once,
    fun j k crash hj hk => ha.lost j k crash (hlost hj) (hlost hk),
    fun j crash hj => ha.crashes j crash (hlost hj)⟩
  · by_cases hji : j = i
    · rw [hji, hself] at hj
      cases hj
    · exact ha.logged j r (hother j hji ▸ hj)
  · by_cases hji : j = i
    · rw [hji, hself] at hj
      cases hj
      exact ⟨sequence, hji ▸ hlogged, List.mem_append_right _ (List.mem_singleton_self _)⟩
    · obtain ⟨n, hin, happlied⟩ := ha.applied j w' (hother j hji ▸ hj)
      exact ⟨n, hin, List.mem_append_left _ happlied⟩
  · by_cases hji : j = i
    · rw [hji, hself]
      have howned := ha.owned i r (hji ▸ hr)
      rw [hcall] at howned
      exact ⟨sequence, howned⟩
    · rw [hother j hji]
      exact ha.owned j r hr

/-- A section of a call keeps what the calls have in the log. -/
theorem call (ha : Acknowledged s.calls s.history) (hs : s.Invariant H) {i : ι}
    {e : KronosEngine F} {h : History ι} {pc : Pc}
    (hstep : CallStep H fmt i s.engine s.history (s.calls i) e h pc) :
    Acknowledged (s.goto i pc).calls h := by
  generalize hcall : s.calls i = pc₀ at hstep
  have hquiet : ∀ {pc : Pc}, pc.progress = pc₀.progress →
      Acknowledged (s.goto i pc).calls s.history :=
    fun hpc => ha.congr (progress_goto (hcall ▸ hpc))
  cases hstep with
  | prepare w woken =>
    cases (s.engine.prepareForWriteLocked woken w).1 <;> exact hquiet rfl
  | append w =>
    cases ((w.call none).run H s.engine.log.wal).1 with
    | error failure => exact hquiet rfl
    | ok sequence => exact ha.append hcall
  | insert w sequence =>
    obtain ⟨active, hinsert⟩ := hs.inserts hcall
    rw [hinsert]
    exact ha.insert hcall
  | leave w result =>
    rcases result with failure | _ <;> exact hquiet rfl
  | active key => cases s.engine.lookupActive key <;> exact hquiet rfl
  | immutable key snapshot =>
    cases snapshot.bind (·.memtable.lookupEntry key) <;> exact hquiet rfl
  | file key f rest winner =>
    cases s.engine.store.lookupFile fmt key winner f <;> exact hquiet rfl
  | publish => cases s.engine.shuttingDown <;> exact hquiet rfl
  | _ => exact hquiet rfl

/-- A step of a process keeps it. -/
theorem step (ha : Acknowledged s.calls s.history) (hs : s.Invariant H)
    {label : ProcessLabel F ι} (hstep : ProcessStep H fmt s label s') :
    Acknowledged s'.calls s'.history := by
  cases hstep with
  | invoke i request hidle => exact ha.congr (progress_goto (by rw [hidle, Pc.progress_start]; rfl))
  | acquire i m pc hacquires _ => exact ha.congr (progress_goto (Pc.progress_of_acquires hacquires))
  | call i e h pc hcall => exact ha.call hs hcall
  | notify i hpc =>
    have hmoved : Acknowledged (s.goto i (.shutdown (.barrier false))).calls s.history :=
      ha.congr (progress_goto (by rw [hpc]; rfl))
    exact hmoved.congr fun j => Pc.progress_woken _
  | join i error hpc _ => exact ha.congr (progress_goto (hpc ▸ rfl))
  | wake i => exact ha.congr (progress_goto (Pc.progress_woken _))
  | notifyCleared through _ => exact ha.congr fun j => Pc.progress_woken _
  | notifyFailed _ => exact ha.congr fun j => Pc.progress_woken _
  | workerAcquire m pc _ _ => exact ha
  | worker fault e pc _ => exact ha

end Process

section Life

variable {F R ι : Type} {H : Hashing} {fmt : TableFormat F R} {s : System F ι}

/-- A crash keeps it, with one more record of the call that was about to append. -/
theorem crash (ha : Acknowledged s.calls s.history) (hexclusive : Exclusive s)
    {kept : List (ι × Record)}
    (hkept : kept = [] ∨ ∃ i w r, kept = [(i, r)] ∧ s.calls i = .write w .append) :
    Acknowledged s.lostCalls (s.lostHistory kept) := by
  have hnumber : ∀ j, (s.calls j).progress ≠ .lost s.history.crashes := fun j hj =>
    absurd (ha.crashes j _ hj) (lt_irrefl _)
  have hlost : ∀ j, s.lostCalls j = .lost s.history.crashes ∨
      s.lostCalls j = s.calls j ∧ ∀ w point, s.calls j ≠ .write w point := fun j =>
    Pc.lose_cases _ _
  -- The call that was about to append holds the mutex, and has no record yet.
  have hnew : ∀ {p}, p ∈ kept → Mutex.write ∈ (s.calls p.1).held ∧
      s.lostCalls p.1 = .lost s.history.crashes ∧ ∀ r, (p.1, r) ∉ s.history.logged := by
    intro p hp
    rcases hkept with rfl | ⟨i, w, r, rfl, hcall⟩
    · cases hp
    · obtain rfl := List.mem_singleton.1 hp
      have hlose : s.lostCalls i = .lost s.history.crashes := congrArg (Pc.lose _) hcall
      refine ⟨hcall ▸ .head _, hlose, fun r' hr' => ?_⟩
      have howned := ha.owned i r' hr'
      rw [hcall] at howned
      exact howned
  -- A lost call with a record was inside its append or its insertion, and held the mutex.
  have hheld : ∀ {j r}, (j, r) ∈ s.history.logged ++ kept →
      s.lostCalls j = .lost s.history.crashes → Mutex.write ∈ (s.calls j).held := by
    intro j r hr hj
    rcases List.mem_append.1 hr with hr | hr
    · exact Pc.write_mem_held_of_owns hj (hnumber j) (ha.owned j r hr)
    · exact (hnew hr).1
  refine ⟨fun j r hj => ?_, fun j w hj => ?_, fun j r hr => ?_, ?_, fun j k crash hj hk => ?_,
    fun j crash hj => ?_⟩
  · rcases hlost j with heq | ⟨heq, -⟩
    · rw [heq] at hj
      cases hj
    · exact List.mem_append_left _ (ha.logged j r (heq ▸ hj))
  · rcases hlost j with heq | ⟨heq, -⟩
    · rw [heq] at hj
      cases hj
    · obtain ⟨n, hlogged, happlied⟩ := ha.applied j w (heq ▸ hj)
      exact ⟨n, List.mem_append_left _ hlogged, happlied⟩
  · rcases hlost j with heq | ⟨heq, -⟩
    · rw [heq]
      trivial
    · rcases List.mem_append.1 hr with hr | hr
      · rw [heq]
        exact ha.owned j r hr
      · rw [(hnew hr).2.1]
        trivial
  · -- The record that the crash may have kept is the first of its call.
    show ((s.history.logged ++ kept).map Prod.fst).Nodup
    rw [List.map_append, List.nodup_append]
    refine ⟨ha.once, ?_, fun j hj k hk hjk => ?_⟩
    · rcases hkept with rfl | ⟨i, w, r, rfl, -⟩
      · exact List.nodup_nil
      · exact List.nodup_singleton i
    · obtain ⟨⟨j', r⟩, hr, rfl⟩ := List.mem_map.1 hj
      obtain ⟨p, hp, rfl⟩ := List.mem_map.1 hk
      obtain rfl : j' = p.1 := hjk
      exact (hnew hp).2.2 r hr
  · intro r r' hr hr'
    by_cases hcrash : crash = s.history.crashes
    · -- Both held the mutex when the process died.
      subst hcrash
      have hboth : ∀ {j}, (s.lostCalls j).progress = .lost s.history.crashes →
          s.lostCalls j = .lost s.history.crashes := by
        intro j hj
        rcases hlost j with heq | ⟨heq, -⟩
        · exact heq
        · exact absurd (heq ▸ hj) (hnumber j)
      exact hexclusive.calls .write j k (hheld hr (hboth hj)) (hheld hr' (hboth hk))
    · -- An earlier crash has lost the same calls as before.
      have hsame : ∀ {j}, (s.lostCalls j).progress = .lost crash →
          (s.calls j).progress = .lost crash ∧ ∀ {r}, (j, r) ∈ s.history.logged ++ kept →
            (j, r) ∈ s.history.logged := by
        intro j hj
        rcases hlost j with heq | ⟨heq, -⟩
        · rw [heq] at hj
          cases hj
          exact absurd rfl hcrash
        · refine ⟨heq ▸ hj, fun hr => (List.mem_append.1 hr).resolve_right fun hr => ?_⟩
          rw [(hnew hr).2.1] at hj
          cases hj
          exact hcrash rfl
      obtain ⟨hj, hjr⟩ := hsame hj
      obtain ⟨hk, hkr⟩ := hsame hk
      exact ha.lost j k crash hj hk r r' (hjr hr) (hkr hr')
  · rcases hlost j with heq | ⟨heq, -⟩
    · rw [heq] at hj
      cases hj
      exact Nat.lt_succ_self _
    · exact (ha.crashes j crash (heq ▸ hj)).trans (Nat.lt_succ_self _)

/-- Opening the directory again brings every record into a Memtable, or finds it in an SSTable. -/
theorem reopen {calls : ι → Pc} {h : History ι} (ha : Acknowledged calls h) :
    Acknowledged calls { h with applied := h.records } :=
  { ha with
    applied := fun i w hi => by
      obtain ⟨n, hlogged, -⟩ := ha.applied i w hi
      exact ⟨n, hlogged, List.mem_map_of_mem hlogged⟩ }

end Life

end Acknowledged

/-! ## The life of a directory -/

/-- The calls that were made on a directory, and its history. -/
def Node.Acknowledged {F ι : Type} : Node F ι → Prop
  | running s => Kronos.Acknowledged s.calls s.history
  | closed _ _ calls h => Kronos.Acknowledged calls h

section Life

variable {F R ι : Type} [DecidableEq ι] {H : Hashing} {fmt : TableFormat F R} {node : Node F ι}

/-- **What the calls have in the log.** It is kept by every step in the life of a directory. -/
theorem Node.Acknowledged.step {node' : Node F ι} {label : LifeLabel F ι}
    (ha : node.Acknowledged) (hs : node.Invariant H) (hstep : LifeStep H fmt node label node') :
    node'.Acknowledged := by
  cases hstep with
  | process label hstep _ => exact Kronos.Acknowledged.step ha hs hstep
  | @crash s store _ _ =>
    exact Kronos.Acknowledged.crash ha (System.Invariant.exclusive hs) (.inl rfl)
  | @crashInAppend s i w fault hcall =>
    refine Kronos.Acknowledged.crash ha (System.Invariant.exclusive hs) ?_
    unfold Wal.Call.kept
    rcases (w.call (some fault)).leaves H s.engine.log.wal with _ | _ | _ | _
    · exact .inl rfl
    · exact .inr ⟨i, w, _, rfl, hcall⟩
    · exact .inr ⟨i, w, _, rfl, hcall⟩
    · exact .inl rfl
  | @crashInCommit s edit store _ _ =>
    exact Kronos.Acknowledged.crash ha (System.Invariant.exclusive hs) (.inl rfl)
  | @crashInReclaim s flushedThrough point _ =>
    exact Kronos.Acknowledged.crash ha (System.Invariant.exclusive hs) (.inl rfl)
  | crashInRecovery point _ => exact ha
  | reopen memtableTargetBytes compactionPolicy _ => exact Kronos.Acknowledged.reopen ha

/-- It holds in every state of this life. -/
theorem acknowledged_of_reachable (h : (life H fmt).Reachable node) : node.Acknowledged := by
  refine (@Lts.Reachable.invariant _ _ (life H fmt)
    (fun node => node.Invariant H ∧ node.Acknowledged) ?_ ?_ node h).2
  · rintro _ ⟨s, hopened, rfl⟩
    refine ⟨invariant_of_firstOpened hopened, ?_⟩
    obtain ⟨e, memtableTargetBytes, compactionPolicy, -, rfl⟩ := hopened
    exact ⟨nofun, nofun, nofun, List.nodup_nil, nofun, nofun⟩
  · exact fun node label node' hs hstep => ⟨hs.1.step hstep, hs.2.step hs.1 hstep⟩

end Life

end Kronos
