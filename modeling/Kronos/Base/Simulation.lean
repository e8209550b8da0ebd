import Kronos.Base.Inevitable

/-!
# Simulations

A relation between the states of two systems is a simulation, when every step of the first system is
a step of the second one, or leaves the state of the second one as it is (`Lts.Simulation`). Then
every run of the first system is matched by one of the second (`Simulation.run`), and what is
reachable in the first is related to something that is reachable in the second
(`Simulation.reachable`). When no step is matched by none, and the first system can take a step
where the second one can, it also gets where the second one gets (`Inevitable.of_matched`). A map of
the states and the labels that carries steps to steps carries runs to runs (`Run.map`).
-/

namespace Lts

variable {S S' L L' : Type*} {M : Lts S L} {N : Lts S' L'} {Rel : S → S' → Prop}

/-- The steps of `M` are steps of `N` between related states, or none. -/
structure Simulation (M : Lts S L) (N : Lts S' L') (Rel : S → S' → Prop) : Prop where
  initial : ∀ s, M.initial s → ∃ s', N.initial s' ∧ Rel s s'
  step : ∀ s l t s', Rel s s' → M.step s l t → ∃ t', Rel t t' ∧ (t' = s' ∨ ∃ l', N.step s' l' t')

/-- A run from a related state is matched. -/
theorem Simulation.run (h : M.Simulation N Rel) {s t : S} {s' : S'} {ls : List L}
    (hrun : M.Run s ls t) (hrel : Rel s s') : ∃ ls' t', Rel t t' ∧ N.Run s' ls' t' := by
  induction hrun with
  | nil => exact ⟨[], s', hrel, .nil⟩
  | @snoc ls t u l _ hstep ih =>
    obtain ⟨ls', t', hrel', hrun'⟩ := ih
    obtain ⟨u', hrel'', rfl | ⟨l', hstep'⟩⟩ := h.step t l u t' hrel' hstep
    · exact ⟨ls', u', hrel'', hrun'⟩
    · exact ⟨ls' ++ [l'], u', hrel'', hrun'.snoc hstep'⟩

/-- What is reachable is related to something that is reachable. -/
theorem Simulation.reachable (h : M.Simulation N Rel) {s : S} (hs : M.Reachable s) :
    ∃ s', N.Reachable s' ∧ Rel s s' := by
  obtain ⟨s₀, ls, hinitial, hrun⟩ := hs
  obtain ⟨s₀', hinitial', hrel⟩ := h.initial s₀ hinitial
  obtain ⟨ls', s', hrel', hrun'⟩ := h.run hrun hrel
  exact ⟨s', ⟨s₀', ls', hinitial', hrun'⟩, hrel'⟩

/-- A map of states and labels that carries steps to steps carries runs to runs. -/
theorem Run.map {Inv : S → Prop} {f : S → S'} {g : L → L'}
    (hstep : ∀ s l t, Inv s → M.step s l t → Inv t ∧ N.step (f s) (g l) (f t)) {s t : S}
    {ls : List L} (hrun : M.Run s ls t) (hs : Inv s) : N.Run (f s) (ls.map g) (f t) := by
  suffices h : Inv t ∧ N.Run (f s) (ls.map g) (f t) from h.2
  induction hrun with
  | nil => exact ⟨hs, .nil⟩
  | @snoc ls t u l _ hlast ih =>
    obtain ⟨ht, hrun'⟩ := ih
    obtain ⟨hu, hlast'⟩ := hstep t l u ht hlast
    rw [List.map_append]
    exact ⟨hu, hrun'.snoc hlast'⟩

/-- What the second system cannot avoid, the first one cannot avoid, when each of its steps is a
step of the second one, and it can take a step where the second one can. -/
theorem Inevitable.of_matched {Goal : S → Prop} {Goal' : S' → Prop}
    (hstep : ∀ s l t s', Rel s s' → M.step s l t → ∃ l' t', Rel t t' ∧ N.step s' l' t')
    (hlive : ∀ s s', Rel s s' → (∃ l' t', N.step s' l' t') → ∃ l t, M.step s l t)
    (hgoal : ∀ s s', Rel s s' → Goal' s' → Goal s) {s' : S'} (h : N.Inevitable Goal' s') {s : S}
    (hrel : Rel s s') : M.Inevitable Goal s := by
  induction h generalizing s with
  | now hnow => exact .now (hgoal s _ hrel hnow)
  | later hnext _ ih =>
    refine .later (hlive s _ hrel hnext) fun l t hst => ?_
    obtain ⟨l', t', hrel', hst'⟩ := hstep s l t _ hrel hst
    exact ih l' t' hst' hrel'

end Lts
