import Kronos.Engine.Termination

/-!
# Writes behind a shutdown or a failure

A writer checks both flags of the engine before it appends, and goes on to append without the mutex
that the flags are under. So one write can still reach the log behind a shutdown or a failure: the
one which had passed its check. It holds `write_mutex_`, so there is no other (`writesStop`), and
the writes that come later end with the shutdown, or with the failure of the worker.
-/

namespace Kronos

open KronosEngine

section Checks

variable {F : Type} {e : KronosEngine F}

/-- A shutdown has begun, or the worker has failed. -/
def KronosEngine.Closing (e : KronosEngine F) : Prop :=
  e.shuttingDown = true ∨ e.backgroundError.isSome

/-- The failures with which a check can end then. -/
def KronosEngine.Ends (e : KronosEngine F) (failure : Failure) : Prop :=
  failure = shuttingDownFailure ∧ e.shuttingDown = true ∨ e.backgroundError = some failure

/-- No writer passes its check then. -/
theorem KronosEngine.prepare_of_closing (h : e.Closing) (woken : Bool) (w : Write) :
    ∃ failure, e.prepareForWriteLocked woken w = (.threw failure, e) ∧ e.Ends failure := by
  cases herror : e.backgroundError with
  | some failure =>
    refine ⟨_, prepare_of_failed herror woken w, ?_⟩
    split_ifs with hshutdown
    · exact .inl ⟨rfl, hshutdown⟩
    · exact .inr herror
  | none =>
    have hshutdown : e.shuttingDown = true := by
      rcases h with h | h
      · exact h
      · rw [herror] at h
        cases h
    refine ⟨shuttingDownFailure, ?_, .inl ⟨rfl, hshutdown⟩⟩
    have hgo : e.writerMayGoOn = true := by simp [writerMayGoOn, hshutdown]
    unfold prepareForWriteLocked
    rw [hgo, hshutdown, Bool.not_true, Bool.and_false, if_neg Bool.false_ne_true, if_pos rfl]

end Checks

/-- A write that is past its check, and still holds `write_mutex_`. -/
def Pc.Admitted : Pc → Prop
  | write _ .append | write _ (.insert ..) | write _ (.leave _) => True
  | _ => False

/-- A write past its check holds `write_mutex_`. -/
theorem Pc.Admitted.write_mem_held {pc : Pc} (h : pc.Admitted) : Mutex.write ∈ pc.held := by
  cases pc with
  | write w point =>
    cases point with
    | append | insert | leave => exact List.mem_cons_self
    | _ => cases h
  | _ => cases h

section Steps

variable {F R ι : Type} [DecidableEq ι] {H : Hashing} {fmt : TableFormat F R} {s s' : System F ι}
  {label : ProcessLabel F ι}

/-- An engine that is closing keeps closing. -/
theorem ProcessStep.closing (hstep : ProcessStep H fmt s label s') (h : s.engine.Closing) :
    s'.engine.Closing := by
  refine h.imp hstep.shuttingDown fun herror => ?_
  obtain ⟨failure, hrecorded⟩ := Option.isSome_iff_exists.1 herror
  exact Option.isSome_of_eq_some (hstep.backgroundError hrecorded)

/-- A failure with which a check can end stays one. -/
theorem ProcessStep.ends (hstep : ProcessStep H fmt s label s') {failure : Failure}
    (h : s.engine.Ends failure) : s'.engine.Ends failure :=
  h.imp (And.imp_right hstep.shuttingDown) hstep.backgroundError

/-- A write that has not passed its check, or that has ended with a failure, or a call that is no
write. -/
def Pc.Outside (P : Failure → Prop) : Pc → Prop
  | write w point => (write w point).Refused P
  | wrote w result => (wrote w result).Refused P
  | _ => True

/-- A write that was refused is outside. -/
theorem Pc.Refused.outside {P : Failure → Prop} {pc : Pc} (h : pc.Refused P) : pc.Outside P := by
  cases pc with
  | write w point => exact h
  | wrote w result => exact h
  | _ => trivial

omit [DecidableEq ι] in
/-- A write that is outside while the engine closes stays there, since its check fails. -/
theorem CallStep.outside {i : ι} {e e' : KronosEngine F} {h h' : History ι} {pc pc' : Pc}
    (hstep : CallStep H fmt i e h pc e' h' pc') (hclosing : e.Closing)
    (houtside : pc.Outside e.Ends) : pc'.Outside e.Ends := by
  cases hstep with
  | prepare w woken =>
    obtain ⟨failure, hthrew, hends⟩ := prepare_of_closing hclosing woken w
    rw [hthrew]
    exact ⟨failure, rfl, hends⟩
  | leave w result => exact houtside
  | append w => cases houtside
  | insert w sequence => cases houtside
  | active key => cases e.lookupActive key <;> trivial
  | immutable key snapshot => cases snapshot.bind (·.memtable.lookupEntry key) <;> trivial
  | file key f rest winner => cases e.store.lookupFile fmt key winner f <;> trivial
  | publish => cases e.shuttingDown <;> trivial
  | _ => trivial

/-- **Behind the flags no write passes its check**, and a write that ends has a flag for it. -/
theorem ProcessStep.outside (hstep : ProcessStep H fmt s label s') (hclosing : s.engine.Closing)
    {i : ι} (h : (s.calls i).Outside s.engine.Ends) : (s'.calls i).Outside s'.engine.Ends := by
  -- A failure with which a check can end before the step is one behind it.
  have hmono : ∀ {pc : Pc}, pc.Outside s.engine.Ends → pc.Outside s'.engine.Ends := by
    intro pc hpc
    cases pc with
    | write w point =>
      have hrefused : (Pc.write w point).Refused s.engine.Ends := hpc
      exact hrefused.mono fun _ => hstep.ends
    | wrote w result =>
      have hrefused : (Pc.wrote w result).Refused s.engine.Ends := hpc
      exact hrefused.mono fun _ => hstep.ends
    | _ => trivial
  -- Only the call's own section could let it pass the check, and that throws.
  cases hstep.moves i with
  | stays hsame => exact hsame ▸ hmono h
  | woken hwoken =>
    rw [hwoken]
    generalize s.calls i = pc at h
    cases pc with
    | write w point => exact hmono (Pc.Refused.woken h).outside
    | wrote w result => exact hmono h
    | shutdown point => cases point <;> trivial
    | _ => trivial
  | begins request hidle hstart =>
    rw [hstart]
    cases request <;> trivial
  | acquires m pc hacquires hpc =>
    rw [hpc]
    generalize s.calls i = pc₀ at h hacquires
    unfold Pc.acquires at hacquires
    split at hacquires <;> cases hacquires <;> trivial
  | runs pc hcall hpc => exact hpc ▸ hmono (hcall.outside hclosing h)
  | notifies _ hpoint => exact hpoint ▸ trivial
  | joins error _ _ hpoint => exact hpoint ▸ trivial

omit [DecidableEq ι] in
/-- A write comes to its append from its check. -/
theorem CallStep.outside_of_append {i : ι} {e e' : KronosEngine F} {h h' : History ι} {pc pc' : Pc}
    {w : Write} (hstep : CallStep H fmt i e h pc e' h' pc') (hpc : pc' = .write w .append)
    (P : Failure → Prop) : pc.Outside P := by
  cases hstep with
  | append w' =>
    cases hresult : ((w'.call none).run H e.log.wal).1 <;> rw [hresult] at hpc <;> cases hpc
  | insert => cases hpc
  | leave => cases hpc
  | _ => trivial

/-- Neither does one come to its append. -/
theorem ProcessStep.append_of_append (hstep : ProcessStep H fmt s label s')
    (hclosing : s.engine.Closing) {i : ι} {w : Write} (h : s'.calls i = .write w .append) :
    s.calls i = .write w .append := by
  by_contra hnot
  have houtside : (s.calls i).Outside s.engine.Ends → False := fun hi => by
    have := hstep.outside hclosing hi
    rwa [h] at this
  cases hstep.moves i with
  | stays hsame => exact hnot (hsame ▸ h)
  | woken hwoken =>
    rw [h] at hwoken
    generalize s.calls i = pc at hwoken hnot
    cases pc with
    | write w' point => cases point <;> cases hwoken; exact hnot rfl
    | shutdown point => cases point <;> cases hwoken
    | _ => cases hwoken
  | begins request hidle _ => exact houtside (hidle ▸ trivial)
  | acquires m pc hacquires hpc =>
    obtain rfl := hpc.symm.trans h
    unfold Pc.acquires at hacquires
    split at hacquires <;> cases hacquires
  | runs pc hcall hpc =>
    exact houtside (hcall.outside_of_append (hpc.symm.trans h) _)
  | notifies hpoint _ => exact houtside (hpoint ▸ trivial)
  | joins error hpoint _ _ => exact houtside (hpoint ▸ trivial)

/-- The log takes the record of a write that appends. -/
theorem ProcessStep.logged_cases (hstep : ProcessStep H fmt s label s') :
    s'.history.logged = s.history.logged ∨
      ∃ i w sequence, s.calls i = .write w .append ∧
        s'.history.logged = s.history.logged ++ [(i, w.record sequence)] ∧
        ∀ w', s'.calls i ≠ .write w' .append := by
  cases hstep with
  | call i e h pc hcall =>
    generalize hi : s.calls i = pc₀ at hcall
    cases hcall with
    | append w =>
      cases ((w.call none).run H s.engine.log.wal).1 with
      | error failure => exact .inl rfl
      | ok sequence =>
        refine .inr ⟨i, w, sequence, hi, rfl, fun w' => ?_⟩
        rw [System.calls_goto, if_pos rfl]
        nofun
    | insert w sequence => cases (s.engine.insertLocked w sequence).1 <;> exact .inl rfl
    | _ => exact .inl rfl
  | _ => exact .inl rfl

/-- A call that has returned has returned. -/
theorem ProcessStep.returned (hstep : ProcessStep H fmt s label s') {i : ι}
    (hreturned : (s.calls i).underWay = false) (hbegun : s.calls i ≠ .idle) :
    s'.calls i = s.calls i := by
  have hnot : ∀ {P : Prop}, (s.calls i).underWay = true → P := fun h => by
    rw [hreturned] at h
    cases h
  cases hstep.moves i with
  | stays hsame => exact hsame
  | woken hwoken =>
    rw [hwoken]
    generalize s.calls i = pc at hreturned
    cases pc with
    | write | get | shutdown => cases hreturned
    | _ => rfl
  | begins request hidle _ => exact (hbegun hidle).elim
  | acquires m pc hacquires _ => exact hnot (Pc.distance_of_acquires (n := 0) hacquires).2.2
  | runs pc hcall _ => exact hnot hcall.underWay
  | notifies hpoint _ => exact hnot (hpoint ▸ rfl)
  | joins error hpoint _ _ => exact hnot (hpoint ▸ rfl)

end Steps

/-! ## Runs -/

section Runs

variable {F R ι : Type} [DecidableEq ι]

/-- What a run changes behind a shutdown or a failure. One write at most is past its check; at most
this one still gets a record, at most this one still returns, and the others end with the shutdown
or the failure. -/
structure System.Stops (s s' : System F ι) : Prop where
  admitted : ∀ i j, (s.calls i).Admitted → (s.calls j).Admitted → i = j
  logged : s'.history.logged = s.history.logged ∨
    ∃ i w sequence, s.calls i = .write w .append ∧
      s'.history.logged = s.history.logged ++ [(i, w.record sequence)]
  returns : ∀ i w, s'.calls i = .wrote w (.ok ()) →
    s.calls i = .wrote w (.ok ()) ∨ (s.calls i).Admitted
  ends : ∀ i w failure, s'.calls i = .wrote w (.error failure) →
    s.calls i = .wrote w (.error failure) ∨ (s.calls i).Admitted ∨ s'.engine.Ends failure

/-- Behind a shutdown or a failure, the writes stop. -/
def WritesStop (M : Lts (System F ι) (ProcessLabel F ι)) : Prop :=
  ∀ s ls s', M.Reachable s → s.engine.Closing → M.Run s ls s' → s.Stops s'

variable {H : Hashing} {fmt : TableFormat F R} {s s' : System F ι}

/-- How far the log has got since a state in which the engine was closing. -/
def System.Appended (s s' : System F ι) : Prop :=
  s'.history.logged = s.history.logged ∧
      (∀ i w, s'.calls i = .write w .append → s.calls i = .write w .append) ∨
    (∃ i w sequence, s.calls i = .write w .append ∧
      s'.history.logged = s.history.logged ++ [(i, w.record sequence)]) ∧
      ∀ i w, s'.calls i ≠ .write w .append

/-- No step appends more than the write that was past its check. -/
theorem System.Appended.step {t : System F ι} {label : ProcessLabel F ι}
    (h : s.Appended s') (hclosing : s'.engine.Closing) (hexclusive : Exclusive s')
    (hstep : ProcessStep H fmt s' label t) : s.Appended t := by
  rcases h with ⟨hsame, hfrom⟩ | ⟨happended, hnone⟩
  · rcases hstep.logged_cases with hlogged | ⟨i, w, sequence, hi, hlogged, hbehind⟩
    · exact .inl ⟨hlogged.trans hsame, fun i w hi => hfrom i w (hstep.append_of_append hclosing hi)⟩
    · refine .inr ⟨⟨i, w, sequence, hfrom i w hi, hsame ▸ hlogged⟩, fun j w' hj => ?_⟩
      -- Two writes at their appends would both hold the mutex of the writers.
      have hj' := hstep.append_of_append hclosing hj
      have hsame : i = j := hexclusive.calls .write i j (by rw [hi]; exact List.mem_cons_self)
        (by rw [hj']; exact List.mem_cons_self)
      exact hbehind w' (hsame ▸ hj)
  · refine .inr ⟨?_, fun i w hi => hnone i w (hstep.append_of_append hclosing hi)⟩
    rcases hstep.logged_cases with hlogged | ⟨i, w, sequence, hi, -, -⟩
    · exact hlogged ▸ happended
    · exact (hnone i w hi).elim

/-- A call is a write past its check, a write that has returned, or outside. -/
theorem Pc.outside_cases (P : Failure → Prop) (pc : Pc) :
    pc.Outside P ∨ pc.Admitted ∨ ∃ w result, pc = .wrote w result := by
  cases pc with
  | write w point =>
    cases point with
    | append | insert | leave => exact .inr (.inl trivial)
    | _ => exact .inl trivial
  | wrote w result => exact .inr (.inr ⟨w, result, rfl⟩)
  | _ => exact .inl trivial

/-- A write that returns had returned, was past its check, or has a flag for its failure. -/
theorem wrote_of_run (hclosing : s.engine.Closing) {ls : List (ProcessLabel F ι)}
    (hrun : (process H fmt).Run s ls s') {i : ι} {w : Write} {result : Except Failure Unit}
    (hi : s'.calls i = .wrote w result) :
    s.calls i = .wrote w result ∨ (s.calls i).Admitted ∨
      ∃ failure, result = .error failure ∧ s'.engine.Ends failure := by
  rcases (s.calls i).outside_cases s.engine.Ends with houtside | hadmitted | ⟨w₀, result₀, hwrote⟩
  · have hkept : ∀ t label t', t.engine.Closing ∧ (t.calls i).Outside t.engine.Ends →
        ProcessStep H fmt t label t' → t'.engine.Closing ∧ (t'.calls i).Outside t'.engine.Ends :=
      fun t label t' h hstep => ⟨hstep.closing h.1, hstep.outside h.1 h.2⟩
    obtain ⟨-, hrefused⟩ := hrun.invariant hkept ⟨hclosing, houtside⟩
    rw [hi] at hrefused
    exact .inr (.inr hrefused)
  · exact .inr (.inl hadmitted)
  · have hkept : ∀ t label t', t.calls i = .wrote w₀ result₀ → ProcessStep H fmt t label t' →
        t'.calls i = .wrote w₀ result₀ :=
      fun t label t' h hstep => (hstep.returned (by rw [h]; rfl) (by rw [h]; nofun)).trans h
    have hlast := hrun.invariant hkept hwrote
    exact .inl (hwrote.trans (hlast.symm.trans hi))

/-- **Behind a shutdown or a failure at most the one write that is past its check is still recorded,
and at most this one still returns.** -/
theorem writesStop (H : Hashing) (fmt : TableFormat F R) :
    WritesStop (process H fmt : Lts (System F ι) (ProcessLabel F ι)) := by
  intro s ls s' hs hclosing hrun
  obtain ⟨hsteady, -⟩ := steady_of_reachable hs
  refine ⟨fun i j hi hj => hsteady.exclusive.calls .write i j hi.write_mem_held hj.write_mem_held,
    ?_, fun i w hi => ?_, fun i w failure hi => ?_⟩
  · have hkept : ∀ t label t', (t.engine.Closing ∧ t.Steady) ∧ s.Appended t →
        ProcessStep H fmt t label t' → (t'.engine.Closing ∧ t'.Steady) ∧ s.Appended t' :=
      fun t label t' ⟨⟨hclosing, hsteady⟩, happended⟩ hstep =>
        ⟨⟨hstep.closing hclosing, hsteady.step hstep⟩,
          happended.step hclosing hsteady.exclusive hstep⟩
    obtain ⟨-, happended⟩ :=
      hrun.invariant hkept ⟨⟨hclosing, hsteady⟩, .inl ⟨rfl, fun _ _ => id⟩⟩
    exact happended.imp And.left And.left
  · rcases wrote_of_run hclosing hrun hi with hi | hi | ⟨failure, hfailure, -⟩
    · exact .inl hi
    · exact .inr hi
    · cases hfailure
  · rcases wrote_of_run hclosing hrun hi with hi | hi | ⟨failure', hfailure, hends⟩
    · exact .inl hi
    · exact .inr (.inl hi)
    · cases hfailure
      exact .inr (.inr hends)

end Runs

/-- A write that is about to return when a shutdown is published is the one that still returns. -/
theorem writesStop_put : ∃ s s' : System Bytes ℕ, s.engine.Closing ∧ (s.calls 0).Admitted ∧
    s'.calls 0 = .wrote (.put [97] [1]) (.ok ()) ∧ s.Stops s' := by
  have hfirst : (process vendoredSum (Sstable.format byteSum.crc32)).Reachable
      (System.first ℕ vendoredSum 1048576 ⟨4, by decide⟩) :=
    .initial (.inl (firstOpened_first _ _ _ _))
  have hcalls : HasCalls vendoredSum (Sstable.format byteSum.crc32)
      (process vendoredSum (Sstable.format byteSum.crc32) : Lts (System Bytes ℕ) _) :=
    fun _ _ _ hstep _ => hstep
  obtain ⟨wal, active, -, -, hinserted⟩ := firstInserted hcalls hfirst 0 (w := .put [97] [1])
    (by decide) (by decide)
  have hbegun := @Reachable.invoke _ _ _ _ _ _ _ _ 1 hcalls hinserted rfl .shutdown trivial
  generalize hs : (System.first ℕ vendoredSum 1048576 ⟨4, by decide⟩).put 0
    (.write (.put [97] [1]) (.leave (.ok ())))
    (written vendoredSum 1048576 ⟨4, by decide⟩ wal active)
    (.single 0 (.put [97] [1])) = s at hbegun
  -- The write holds its own mutex only, so the shutdown gets that of the state.
  have hfree : (s.put 1 (.shutdown (.publish false)) s.engine s.history).Free .state := by
    subst hs
    refine ⟨fun j => ?_, List.not_mem_nil⟩
    by_cases h1 : j = 1
    · subst h1
      exact List.not_mem_nil
    rw [System.calls_put_of_ne _ h1]
    by_cases h0 : j = 0
    · subst h0
      show Mutex.state ∉ [Mutex.write]
      decide
    · rw [System.calls_put_of_ne _ h0]
      exact List.not_mem_nil
  have hlocked := hbegun.step (.acquire 1 .state (.shutdown (.publish true)) rfl hfree)
  rw [System.goto_put] at hlocked
  have hpublished := Reachable.call hcalls hlocked .publish
  generalize ht : s.put 1 _ _ _ = t at hpublished
  have hleaves : t.calls 0 = .write (.put [97] [1]) (.leave (.ok ())) := by
    subst ht hs
    rfl
  have hreturns : ProcessStep vendoredSum (Sstable.format byteSum.crc32) t (.call 0)
      { t.goto 0 (.wrote (.put [97] [1]) (.ok ())) with
        engine := t.engine, history := t.history } :=
    .call 0 _ _ _ (hleaves ▸ .leave _ _)
  have hclosing : t.engine.Closing := by
    subst ht
    exact .inl rfl
  have hwrote : (t.goto 0 (.wrote (.put [97] [1]) (.ok ()))).calls 0 =
      .wrote (.put [97] [1]) (.ok ()) := by
    rw [System.calls_goto, if_pos rfl]
  exact ⟨t, _, hclosing, hleaves ▸ trivial, hwrote,
    writesStop _ _ t _ _ hpublished hclosing (Lts.Run.nil.snoc hreturns)⟩

end Kronos
