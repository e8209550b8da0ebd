import Kronos.Base.Lts

/-!
# Traces

What a run shows to the outside: the events of its steps, in their order (`Lts.Traced`). Two systems
with the same events are compared by their traces. When every step of the first system is matched by
a part of a run of the second one with the same event, the traces of the first system are traces of
the second (`Traced.simulate`).
-/

namespace Lts

variable {S S' L L' E : Type*}

/-- A run from a state, with its events. -/
inductive Traced (M : Lts S L) (event : S → L → S → Option E) (s : S) : List E → S → Prop where
  | nil : Traced M event s [] s
  | snoc {trace : List E} {t u : S} {l : L} : Traced M event s trace t → M.step t l u →
    Traced M event s (trace ++ (event t l u).toList) u

variable {M : Lts S L} {N : Lts S' L'} {event : S → L → S → Option E}
  {event' : S' → L' → S' → Option E}

/-- A run goes on by a step. -/
theorem Traced.step {s t u : S} {trace trace' : List E} {l : L} (h : M.Traced event s trace t)
    (hstep : M.step t l u) (htrace : trace ++ (event t l u).toList = trace') :
    M.Traced event s trace' u :=
  htrace ▸ h.snoc hstep

/-- A step without an event adds nothing to a trace. -/
theorem Traced.silent {s t u : S} {trace : List E} {l : L} (h : M.Traced event s trace t)
    (hstep : M.step t l u) (hevent : event t l u = none) : M.Traced event s trace u := by
  refine h.step hstep ?_
  rw [hevent, Option.toList_none, List.append_nil]

/-- Every run shows something. -/
theorem Run.exists_traced {s t : S} {ls : List L} (h : M.Run s ls t) :
    ∃ trace, M.Traced event s trace t := by
  induction h with
  | nil => exact ⟨[], .nil⟩
  | snoc _ hstep ih =>
    obtain ⟨trace, htraced⟩ := ih
    exact ⟨_, htraced.snoc hstep⟩

/-- A run goes on behind another one. -/
theorem Traced.append {s t u : S} {trace trace' : List E} (h : M.Traced event s trace t)
    (h' : M.Traced event t trace' u) : M.Traced event s (trace ++ trace') u := by
  induction h' with
  | nil =>
    rw [List.append_nil]
    exact h
  | snoc _ hstep ih =>
    rw [← List.append_assoc]
    exact ih.snoc hstep

/-- When every step of `M` is matched by a part of a run of `N` with the same event, so is every run
of `M`. -/
theorem Traced.simulate {Rel : S → S' → Prop}
    (hstep : ∀ s l t s', Rel s s' → M.step s l t →
      ∃ t', Rel t t' ∧ N.Traced event' s' (event s l t).toList t')
    {s t : S} {s' : S'} {trace : List E} (h : M.Traced event s trace t) (hrel : Rel s s') :
    ∃ t', Rel t t' ∧ N.Traced event' s' trace t' := by
  induction h with
  | nil => exact ⟨s', hrel, .nil⟩
  | @snoc trace t u l _ hlast ih =>
    obtain ⟨t', hrel', htraced⟩ := ih
    obtain ⟨u', hrel'', hpart⟩ := hstep t l u t' hrel' hlast
    exact ⟨u', hrel'', htraced.append hpart⟩

end Lts
