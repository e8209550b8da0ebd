import Mathlib.Data.Set.Finite.Basic
import Mathlib.Data.Finset.Insert
import Mathlib.Logic.Function.Basic
import Kronos.Base.Traces

/-!
# Durable objects

An object that updates change and queries read (`SequentialObject`), with any number of calls at
once. Each call takes effect in one step between its beginning and its return. A crash takes away
the calls that have not returned: their updates have taken effect, or never do, except for one that
may do so in the crash (`atomic`). What has taken effect stays.

In a `late` object, a query may answer by the updates that had taken effect at an earlier instant
since it began. Nobody can tell the difference: the traces of the late object are traces of the
atomic one (`traced_atomic`). So an implementation may find out late at which instant its query took
effect.
-/

/-- A sequential object: what is in it at first, what an update makes of it, and what a query
answers. -/
structure SequentialObject (S U Q A : Type*) where
  initial : S
  update : S → U → S
  answer : S → Q → A

namespace SequentialObject

variable {S U Q A : Type*}

/-- The object behind some updates. -/
def behind (o : SequentialObject S U Q A) (updates : List U) : S := updates.foldl o.update o.initial

end SequentialObject

namespace DurableObject

variable {S U Q A E ι : Type*}

/-- What a call asks for. A call may ask for nothing of the object. -/
inductive Request (U Q : Type*) where
  | update (u : U)
  | query (q : Q)
  | other

/-- What a call returns. An update that is refused has no effect. -/
inductive Response (A E : Type*) where
  | updated
  | refused (error : E)
  | answered (answer : A)
  | finished (result : Except E Unit)

/-- Where a call stands. A pending call knows how many updates had taken effect when it began, and a
decided one what it is about to return. -/
inductive Status (U Q A E : Type*) where
  | idle
  | pending (request : Request U Q) (since : ℕ)
  | decided (response : Response A E)
  | returned
  | lost

/-- The updates that have taken effect, in order, and the calls. -/
structure State (U Q A E ι : Type*) where
  updates : List U
  calls : ι → Status U Q A E

/-- What can be seen of an object: the calls that begin and return, and the crashes. -/
inductive Event (U Q A E ι : Type*) where
  | begins (i : ι) (request : Request U Q)
  | returns (i : ι) (response : Response A E)
  | crash

/-- What a step of an object is. A call is decided when it takes effect. -/
inductive Label (U Q A E ι : Type*) where
  | begins (i : ι) (request : Request U Q)
  | decides (i : ι)
  | returns (i : ι) (response : Response A E)
  | crash

/-- What can be seen of a step. -/
def Label.event : Label U Q A E ι → Option (Event U Q A E ι)
  | begins i request => some (.begins i request)
  | decides _ => none
  | returns i response => some (.returns i response)
  | crash => some .crash

/-- What can be seen of a step between two states. -/
def event (_ : State U Q A E ι) (label : Label U Q A E ι) (_ : State U Q A E ι) :
    Option (Event U Q A E ι) := label.event

/-- A call that a crash leaves as it is. -/
def Status.Over : Status U Q A E → Prop
  | idle | returned | lost => True
  | pending .. | decided _ => False

/-- What a crash makes of a call. -/
def Status.Crashes (status status' : Status U Q A E) : Prop :=
  status.Over ∧ status' = status ∨ status ≠ .idle ∧ status' = .lost

variable [DecidableEq ι]

/-- A call moves on. -/
def State.set (a : State U Q A E ι) (i : ι) (status : Status U Q A E) : State U Q A E ι :=
  { a with calls := Function.update a.calls i status }

/-- Setting the status of a call changes that of no other call. -/
@[simp] theorem State.calls_set (a : State U Q A E ι) (i j : ι) (status : Status U Q A E) :
    (a.set i status).calls j = if j = i then status else a.calls j :=
  Function.update_apply a.calls i status j

/-- Of two settings of one call the later one stays. -/
theorem State.set_set (a : State U Q A E ι) (i : ι) (status status' : Status U Q A E) :
    (a.set i status).set i status' = a.set i status' := by
  unfold set
  rw [Function.update_idem]

/-- The steps of an atomic object. -/
inductive Step (o : SequentialObject S U Q A) (a : State U Q A E ι) :
    Label U Q A E ι → State U Q A E ι → Prop where
  | begins (i : ι) (request : Request U Q) : a.calls i = .idle →
    Step o a (.begins i request) (a.set i (.pending request a.updates.length))
  | update (i : ι) (u : U) (since : ℕ) : a.calls i = .pending (.update u) since →
    Step o a (.decides i)
      (State.set { a with updates := a.updates ++ [u] } i (.decided .updated))
  | refuse (i : ι) (u : U) (since : ℕ) (error : E) : a.calls i = .pending (.update u) since →
    Step o a (.decides i) (a.set i (.decided (.refused error)))
  | query (i : ι) (q : Q) (since : ℕ) : a.calls i = .pending (.query q) since →
    Step o a (.decides i) (a.set i (.decided (.answered (o.answer (o.behind a.updates) q))))
  | finish (i : ι) (since : ℕ) (result : Except E Unit) : a.calls i = .pending .other since →
    Step o a (.decides i) (a.set i (.decided (.finished result)))
  | returns (i : ι) (response : Response A E) : a.calls i = .decided response →
    Step o a (.returns i response) (a.set i .returned)
  | crash (late : Option (ι × U)) (calls : ι → Status U Q A E) :
    (∀ p ∈ late, ∃ since, a.calls p.1 = .pending (.update p.2) since) →
    (∀ i, (a.calls i).Crashes (calls i)) →
    Step o a .crash ⟨a.updates ++ late.toList.map Prod.snd, calls⟩

/-- The steps of a late object. -/
inductive LateStep (o : SequentialObject S U Q A) (a : State U Q A E ι) :
    Label U Q A E ι → State U Q A E ι → Prop where
  | step {label : Label U Q A E ι} {a' : State U Q A E ι} : Step o a label a' →
    LateStep o a label a'
  | query (i : ι) (q : Q) (since n : ℕ) : a.calls i = .pending (.query q) since → since ≤ n →
    n ≤ a.updates.length → LateStep o a (.decides i)
      (a.set i (.decided (.answered (o.answer (o.behind (a.updates.take n)) q))))

/-- An object before any call. -/
def new (U Q A E ι : Type*) : State U Q A E ι := ⟨[], fun _ => .idle⟩

/-- The atomic object. -/
def atomic (o : SequentialObject S U Q A) (E ι : Type*) [DecidableEq ι] :
    Lts (State U Q A E ι) (Label U Q A E ι) := ⟨(· = new U Q A E ι), Step o⟩

/-- The late object. -/
def late (o : SequentialObject S U Q A) (E ι : Type*) [DecidableEq ι] :
    Lts (State U Q A E ι) (Label U Q A E ι) := ⟨(· = new U Q A E ι), LateStep o⟩

/-- A call is decided and returns. -/
theorem LateStep.returns {o : SequentialObject S U Q A} {a : State U Q A E ι} {i : ι}
    {response : Response A E} (h : LateStep o a (.decides i) (a.set i (.decided response))) :
    (late o E ι).Traced event a [.returns i response] (a.set i .returned) := by
  have hdecided : (a.set i (.decided response)).calls i = .decided response := by
    rw [State.calls_set, if_pos rfl]
  have htraced : (late o E ι).Traced event a [] (a.set i (.decided response)) :=
    Lts.Traced.nil.silent h rfl
  have hreturned := htraced.snoc (LateStep.step (.returns i response hdecided))
  rwa [State.set_set] at hreturned

/-! ## Choosing instants -/

/-- What a call is when its query takes effect behind the first `n` updates, for a choice of `n`. -/
def Status.chosen (o : SequentialObject S U Q A) (updates : List U) :
    Status U Q A E → Option ℕ → Status U Q A E
  | pending (.query q) _, some n => decided (.answered (o.answer (o.behind (updates.take n)) q))
  | status, _ => status

/-- A state of the late object, whose queries have taken effect at the instants of a choice. -/
def State.choose (o : SequentialObject S U Q A) (a : State U Q A E ι) (c : ι → Option ℕ) :
    State U Q A E ι := { a with calls := fun i => (a.calls i).chosen o a.updates (c i) }

/-- A choice of instants for some of the queries that are pending. -/
structure Choice (a : State U Q A E ι) (c : ι → Option ℕ) : Prop where
  finite : {i | c i ≠ none}.Finite
  between : ∀ i n, c i = some n → ∃ q since, a.calls i = .pending (.query q) since ∧ since ≤ n ∧
    n ≤ a.updates.length

section Choices

variable {o : SequentialObject S U Q A} {a : State U Q A E ι} {c : ι → Option ℕ} {i : ι}

omit [DecidableEq ι] in
/-- A call for which nothing is chosen stays as it is. -/
@[simp] theorem Status.chosen_none (updates : List U) (status : Status U Q A E) :
    status.chosen o updates none = status := by
  unfold chosen
  split
  · next heq => cases heq
  · rfl

omit [DecidableEq ι] in
/-- Without a choice for it, a call is as it was. -/
theorem State.choose_calls (h : c i = none) : (a.choose o c).calls i = a.calls i := by
  show (a.calls i).chosen o a.updates (c i) = a.calls i
  rw [h, Status.chosen_none]

omit [DecidableEq ι] in
/-- A state for which nothing is chosen stays as it is. -/
theorem State.choose_none : a.choose o (fun _ => none) = a := by
  unfold choose
  simp only [Status.chosen_none]

/-- A call without a choice moves on. -/
theorem State.choose_set (h : c i = none) (status : Status U Q A E) :
    (a.set i status).choose o c = (a.choose o c).set i status := by
  unfold choose set
  congr 1
  funext j
  by_cases hj : j = i
  · subst hj
    simp [h]
  · simp [hj]

/-- A pending query takes effect at its instant. -/
theorem State.choose_query {q : Q} {since : ℕ} (h : a.calls i = .pending (.query q) since) (n : ℕ) :
    a.choose o (Function.update c i (some n)) =
      (a.choose o c).set i (.decided (.answered (o.answer (o.behind (a.updates.take n)) q))) := by
  unfold choose set
  congr 1
  funext j
  by_cases hj : j = i
  · subst hj
    simp [h, Status.chosen]
  · simp [hj]

omit [DecidableEq ι] in
/-- An update takes effect behind the instants of a choice. -/
theorem State.choose_append (h : Choice a c) (u : U) :
    State.choose o { a with updates := a.updates ++ [u] } c =
      { a.choose o c with updates := a.updates ++ [u] } := by
  unfold choose
  congr 1
  funext j
  cases hj : c j with
  | none => simp [hj]
  | some n =>
    obtain ⟨q, since, hpending, -, hn⟩ := h.between j n hj
    simp only [hj, hpending, Status.chosen, List.take_append_of_le_length hn]

omit [DecidableEq ι] in
/-- Only a pending query has an instant. -/
theorem Choice.eq_none (hc : Choice a c) (h : ∀ q since, a.calls i ≠ .pending (.query q) since) :
    c i = none := by
  cases hi : c i with
  | none => rfl
  | some n =>
    obtain ⟨q, since, hpending, -⟩ := hc.between i n hi
    exact absurd hpending (h q since)

/-- The instants of the other calls are there before a call moves on. -/
theorem Choice.of_set {status : Status U Q A E} (hc : Choice (a.set i status) c) (hi : c i = none) :
    Choice a c := by
  refine ⟨hc.finite, fun j n hj => ?_⟩
  have hne : j ≠ i := by
    rintro rfl
    cases hi.symm.trans hj
  obtain ⟨q, since, hpending, hbounds⟩ := hc.between j n hj
  refine ⟨q, since, ?_, hbounds⟩
  rwa [State.calls_set, if_neg hne] at hpending

omit [DecidableEq ι] in
/-- Earlier instants are there before an update takes effect. -/
theorem Choice.of_append {u : U} (hc : Choice { a with updates := a.updates ++ [u] } c)
    (hearlier : ∀ i, c i ≠ some (a.updates ++ [u]).length) : Choice a c := by
  refine ⟨hc.finite, fun i n hi => ?_⟩
  obtain ⟨q, since, hpending, hsince, hn⟩ := hc.between i n hi
  have hne : n ≠ (a.updates ++ [u]).length := fun h => hearlier i (hi.trans (congrArg some h))
  have hlt : n < (a.updates ++ [u]).length := lt_of_le_of_ne hn hne
  rw [List.length_append, List.length_singleton] at hlt
  exact ⟨q, since, hpending, hsince, Nat.le_of_lt_succ hlt⟩

/-- A call that has moved on, and is no pending query. -/
theorem Choice.of_decided {response : Response A E} (hc : Choice (a.set i (.decided response)) c) :
    c i = none ∧ Choice a c := by
  have hi : c i = none := hc.eq_none fun q since h => by
    rw [State.calls_set, if_pos rfl] at h
    cases h
  exact ⟨hi, hc.of_set hi⟩

/-- One more query has an instant. -/
theorem Choice.extend (hc : Choice a c) {q : Q} {since n : ℕ}
    (h : a.calls i = .pending (.query q) since) (hsince : since ≤ n) (hn : n ≤ a.updates.length) :
    Choice a (Function.update c i (some n)) := by
  refine ⟨(hc.finite.insert i).subset fun j hj => ?_, fun j m hj => ?_⟩
  · by_cases hji : j = i
    · exact .inl hji
    · rw [Set.mem_ofPred_eq, Function.update_of_ne hji] at hj
      exact .inr hj
  · by_cases hji : j = i
    · subst hji
      rw [Function.update_self] at hj
      cases hj
      exact ⟨q, since, h, hsince, hn⟩
    · rw [Function.update_of_ne hji] at hj
      exact hc.between j m hj

/-! ## Late queries -/

variable {s : State U Q A E ι} {trace : List (Event U Q A E ι)}

/-- Some pending queries take effect now. -/
theorem Traced.catchUp (h : (atomic o E ι).Traced event s trace (a.choose o c)) (late : Finset ι)
    (hlate : ∀ i ∈ late, c i = none ∧ ∃ q since, a.calls i = .pending (.query q) since) :
    (atomic o E ι).Traced event s trace
      (a.choose o fun i => if i ∈ late then some a.updates.length else c i) := by
  induction late using Finset.induction_on with
  | empty => simpa using h
  | insert i late hi ih =>
    have hbefore := ih fun j hj => hlate j (Finset.mem_insert_of_mem hj)
    obtain ⟨hnone, q, since, hpending⟩ := hlate i (Finset.mem_insert_self i late)
    have hcall : (a.choose o fun j => if j ∈ late then some a.updates.length else c j).calls i =
        .pending (.query q) since := by
      rw [State.choose_calls (by rw [if_neg hi, hnone]), hpending]
    have hinsert : (fun j => if j ∈ insert i late then some a.updates.length else c j) =
        Function.update (fun j => if j ∈ late then some a.updates.length else c j) i
          (some a.updates.length) := by
      funext j
      by_cases hj : j = i <;> simp [hj]
    rw [hinsert, State.choose_query hpending, List.take_length]
    exact hbefore.silent (.query i q since hcall) rfl

/-- A step of the late object, when no query is to take effect behind it. -/
theorem LateStep.traced {label : Label U Q A E ι} {a' : State U Q A E ι}
    (hstep : LateStep o a label a') (hc : Choice a' c)
    (hearlier : ∀ i, c i ≠ some a'.updates.length)
    (h : ∀ c, Choice a c → (atomic o E ι).Traced event s trace (a.choose o c)) :
    (atomic o E ι).Traced event s (trace ++ label.event.toList) (a'.choose o c) := by
  cases hstep with
  | query i q since n hpending hsince hn =>
    obtain ⟨hi, hbefore⟩ := hc.of_decided
    rw [State.choose_set hi, ← State.choose_query hpending]
    exact (List.append_nil trace).symm ▸ h _ (hbefore.extend hpending hsince hn)
  | step hstep =>
    cases hstep with
    | begins i request hidle =>
      have hi : c i = none := by
        cases hi : c i with
        | none => rfl
        | some n =>
          obtain ⟨q, since, hpending, hsince, hn⟩ := hc.between i n hi
          rw [State.calls_set, if_pos rfl] at hpending
          cases hpending
          exact absurd (hi.trans (congrArg some (le_antisymm hn hsince))) (hearlier i)
      rw [State.choose_set hi]
      exact (h c (hc.of_set hi)).snoc (.begins i request ((State.choose_calls hi).trans hidle))
    | update i u since hpending =>
      obtain ⟨hi, hbefore⟩ := hc.of_decided
      have hchoice : Choice a c := hbefore.of_append hearlier
      rw [State.choose_set hi, State.choose_append hchoice]
      exact (h c hchoice).snoc (.update i u since ((State.choose_calls hi).trans hpending))
    | refuse i u since error hpending =>
      obtain ⟨hi, hbefore⟩ := hc.of_decided
      rw [State.choose_set hi]
      exact (h c hbefore).snoc (.refuse i u since error ((State.choose_calls hi).trans hpending))
    | query i q since hpending =>
      obtain ⟨hi, hbefore⟩ := hc.of_decided
      rw [State.choose_set hi]
      exact (h c hbefore).snoc (.query i q since ((State.choose_calls hi).trans hpending))
    | finish i since result hpending =>
      obtain ⟨hi, hbefore⟩ := hc.of_decided
      rw [State.choose_set hi]
      exact (h c hbefore).snoc (.finish i since result ((State.choose_calls hi).trans hpending))
    | returns i response hdecided =>
      have hi : c i = none := hc.eq_none fun q since h => by
        rw [State.calls_set, if_pos rfl] at h
        cases h
      rw [State.choose_set hi]
      exact (h c (hc.of_set hi)).snoc (.returns i response ((State.choose_calls hi).trans hdecided))
    | crash late calls hlate hcrashes =>
      -- No query is left.
      have hnone : c = fun _ => none := by
        funext i
        refine hc.eq_none fun q since hi => ?_
        have hi : calls i = .pending (.query q) since := hi
        rcases hcrashes i with ⟨hover, hsame⟩ | ⟨-, hlost⟩
        · rw [← hsame, hi] at hover
          exact hover
        · cases hi.symm.trans hlost
      subst hnone
      have hbefore := h (fun _ => none) ⟨by simp, nofun⟩
      rw [State.choose_none] at hbefore ⊢
      exact hbefore.snoc (.crash late calls hlate hcrashes)

/-- The queries of a late object have taken effect at any instants since they began. -/
theorem Traced.choose (h : (late o E ι).Traced event (new U Q A E ι) trace a) :
    ∀ c, Choice a c → (atomic o E ι).Traced event (new U Q A E ι) trace (a.choose o c) := by
  induction h with
  | nil =>
    intro c hc
    have hnone : c = fun _ => none := funext fun i => hc.eq_none fun _ _ => nofun
    rw [hnone, State.choose_none]
    exact .nil
  | @snoc trace a a' label _ hstep ih =>
    intro c hc
    -- Those that take effect behind the step come last.
    let now : Finset ι := (hc.finite.subset fun i (hi : c i = some a'.updates.length) =>
      show c i ≠ none from hi ▸ Option.some_ne_none _).toFinset
    have hnow : ∀ i, i ∈ now ↔ c i = some a'.updates.length := fun i => Set.Finite.mem_toFinset _
    let earlier : ι → Option ℕ := fun i => if i ∈ now then none else c i
    have hsome : ∀ i n, earlier i = some n → i ∉ now ∧ c i = some n := fun i n h => by
      have h : (if i ∈ now then none else c i) = some n := h
      split_ifs at h with hi
      exact ⟨hi, h⟩
    have hchoice : Choice a' earlier := by
      refine ⟨hc.finite.subset fun i hi => ?_, fun i n hi => hc.between i n (hsome i n hi).2⟩
      obtain ⟨n, hn⟩ := Option.ne_none_iff_exists'.1 hi
      exact show c i ≠ none from (hsome i n hn).2 ▸ Option.some_ne_none n
    have hearlier : ∀ i, earlier i ≠ some a'.updates.length := fun i hi =>
      (hsome i _ hi).1 ((hnow i).2 (hsome i _ hi).2)
    have hlate : ∀ i ∈ now,
        earlier i = none ∧ ∃ q since, a'.calls i = .pending (.query q) since := by
      intro i hi
      obtain ⟨q, since, hpending, -⟩ := hc.between i _ ((hnow i).1 hi)
      exact ⟨if_pos hi, q, since, hpending⟩
    have hall : (fun i => if i ∈ now then some a'.updates.length else earlier i) = c := by
      funext i
      split_ifs with hi
      · exact ((hnow i).1 hi).symm
      · exact if_neg hi
    have hcaught := Traced.catchUp (hstep.traced hchoice hearlier ih) now hlate
    rwa [hall] at hcaught

/-- **Late queries are atomic.** What can be seen of a late object can be seen of an atomic one. -/
theorem traced_atomic (h : (late o E ι).Traced event (new U Q A E ι) trace a) :
    (atomic o E ι).Traced event (new U Q A E ι) trace a := by
  have hchoice := Traced.choose h (fun _ => none) ⟨by simp, nofun⟩
  rwa [State.choose_none] at hchoice

end Choices

end DurableObject
