import Mathlib.Data.List.Basic

/-!
# Labelled transition systems

Systems that move by labelled steps, their runs from a state, and the states that are reachable
from an initial one. An invariant of the steps holds in every reachable state
(`Lts.Reachable.invariant`), and a system whose steps are restricted by a condition reaches only
states that the unrestricted one reaches (`Lts.Reachable.of_restrict`). Along a run, what grows by
single entries takes every value between the first and the last (`Lts.Run.exists_through`).
-/

/-- A labelled transition system over states `S`, with labels `L`. -/
structure Lts (S L : Type*) where
  initial : S → Prop
  step : S → L → S → Prop

namespace Lts

variable {S L : Type*} {M : Lts S L}

/-- A run from a state, with the labels of its steps. -/
inductive Run (M : Lts S L) (s : S) : List L → S → Prop where
  | nil : Run M s [] s
  | snoc {ls : List L} {t u : S} {l : L} : Run M s ls t → M.step t l u → Run M s (ls ++ [l]) u

/-- The states that runs from an initial state reach. -/
def Reachable (M : Lts S L) (s : S) : Prop := ∃ s₀ ls, M.initial s₀ ∧ M.Run s₀ ls s

/-- The system whose steps meet a condition on the state before them and on their label. -/
def restrict (M : Lts S L) (Allowed : S → L → Prop) : Lts S L where
  initial := M.initial
  step s l t := M.step s l t ∧ Allowed s l

/-- The same system, from a state on. -/
def startingAt (M : Lts S L) (s : S) : Lts S L := ⟨(· = s), M.step⟩

/-- An initial state is reachable. -/
theorem Reachable.initial {s : S} (h : M.initial s) : M.Reachable s := ⟨s, [], h, .nil⟩

/-- A step from a reachable state leads to one. -/
theorem Reachable.step {s t : S} {l : L} (h : M.Reachable s) (hstep : M.step s l t) :
    M.Reachable t := by
  obtain ⟨s₀, ls, hinit, hrun⟩ := h
  exact ⟨s₀, ls ++ [l], hinit, hrun.snoc hstep⟩

/-- A run from a reachable state leads to one. -/
theorem Reachable.run {s t : S} {ls : List L} (h : M.Reachable s) (hrun : M.Run s ls t) :
    M.Reachable t := by
  induction hrun with
  | nil => exact h
  | snoc _ hstep ih => exact ih.step hstep

/-- A run goes on behind another one. -/
theorem Run.append {s t u : S} {ls ls' : List L} (h : M.Run s ls t) (h' : M.Run t ls' u) :
    M.Run s (ls ++ ls') u := by
  induction h' with
  | nil =>
    rw [List.append_nil]
    exact h
  | snoc _ hstep ih =>
    rw [← List.append_assoc]
    exact ih.snoc hstep

/-- What every step preserves, a run preserves. -/
theorem Run.invariant {Inv : S → Prop} (hstep : ∀ s l t, Inv s → M.step s l t → Inv t) {s t : S}
    {ls : List L} (hrun : M.Run s ls t) (hs : Inv s) : Inv t := by
  induction hrun with
  | nil => exact hs
  | snoc _ h ih => exact hstep _ _ _ ih h

/-- An invariant of the initial states and of the steps holds in every reachable state. -/
theorem Reachable.invariant {Inv : S → Prop} (hinit : ∀ s, M.initial s → Inv s)
    (hstep : ∀ s l t, Inv s → M.step s l t → Inv t) {s : S} (h : M.Reachable s) : Inv s := by
  obtain ⟨s₀, ls, hs₀, hrun⟩ := h
  exact hrun.invariant hstep (hinit s₀ hs₀)

/-- What is reached from a state on, a run from this state reaches. -/
theorem Reachable.exists_run {s t : S} (h : (M.startingAt s).Reachable t) : ∃ ls, M.Run s ls t := by
  refine @Reachable.invariant S L (M.startingAt s) (fun t => ∃ ls, M.Run s ls t) ?_ ?_ t h
  · rintro t rfl
    exact ⟨[], .nil⟩
  · rintro t l u ⟨ls, hrun⟩ hstep
    exact ⟨ls ++ [l], hrun.snoc hstep⟩

/-! ## The states of a run -/

/-- A run passes through a state. -/
def Through (M : Lts S L) (s : S) (ls : List L) (u t : S) : Prop :=
  ∃ front back, ls = front ++ back ∧ M.Run s front t ∧ M.Run t back u

/-- A run passes through its last state. -/
theorem Run.through {s u : S} {ls : List L} (h : M.Run s ls u) : M.Through s ls u u :=
  ⟨ls, [], (List.append_nil ls).symm, h, .nil⟩

/-- What a run passes through, its continuation passes through. -/
theorem Through.snoc {s t u v : S} {ls : List L} {l : L} (h : M.Through s ls u t)
    (hstep : M.step u l v) : M.Through s (ls ++ [l]) v t := by
  obtain ⟨front, back, rfl, hfront, hback⟩ := h
  exact ⟨front, back ++ [l], List.append_assoc .., hfront, hback.snoc hstep⟩

/-- A state of the second part of a run is one of the run. -/
theorem Through.of_back {s t u v : S} {ls ls' : List L} (hrun : M.Run s ls t)
    (h : M.Through t ls' v u) : M.Through s (ls ++ ls') v u := by
  obtain ⟨front, back, rfl, hfront, hback⟩ := h
  exact ⟨ls ++ front, back, (List.append_assoc ..).symm, hrun.append hfront, hback⟩

/-- A list that grows by single entries along a run is every list between the first and the last. -/
theorem Run.exists_through {A : Type*} {f : S → List A}
    (hgrows : ∀ s l t, M.step s l t → f t = f s ∨ ∃ a, f t = f s ++ [a]) {s u : S} {ls : List L}
    (hrun : M.Run s ls u) {d : List A} (hfirst : f s <+: d) (hlast : d <+: f u) :
    ∃ t, M.Through s ls u t ∧ f t = d := by
  induction hrun with
  | nil => exact ⟨s, Run.nil.through, hfirst.sublist.antisymm hlast.sublist⟩
  | @snoc ls t u l hrun hstep ih =>
    have hearlier : d <+: f t → ∃ t', M.Through s (ls ++ [l]) u t' ∧ f t' = d := by
      intro h
      obtain ⟨t', hthrough, ht'⟩ := ih h
      exact ⟨t', hthrough.snoc hstep, ht'⟩
    rcases hgrows t l u hstep with hsame | ⟨a, happend⟩
    · exact hearlier (hsame ▸ hlast)
    · rw [happend, List.prefix_concat_iff] at hlast
      rcases hlast with rfl | hbefore
      · exact ⟨u, (hrun.snoc hstep).through, happend⟩
      · exact hearlier hbefore

/-- What a restricted system reaches, the unrestricted one reaches. -/
theorem Reachable.of_restrict {Allowed : S → L → Prop} {s : S}
    (h : (M.restrict Allowed).Reachable s) : M.Reachable s := by
  refine @Reachable.invariant S L (M.restrict Allowed) M.Reachable ?_ ?_ s h
  · exact fun s hs => Reachable.initial (M := M) hs
  · exact fun s l t hs hstep => hs.step hstep.1

end Lts
