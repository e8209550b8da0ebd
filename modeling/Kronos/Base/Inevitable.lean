import Mathlib.Algebra.BigOperators.Group.Finset.Basic
import Mathlib.Algebra.BigOperators.Group.Finset.Piecewise
import Mathlib.Order.WellFounded
import Kronos.Base.Lts

/-!
# What a system cannot avoid

A system gets to a goal whatever it does (`Lts.Inevitable`), when it is there, or when it can take
a step and every step leads to a state from which it gets there. Neither a run that goes on for ever
nor one that gets stuck avoids the goal. A rank in a well-founded order that every step decreases,
and a step for every state off the goal, are enough (`Inevitable.of_rank`). A rank that is a sum
over the threads of a system changes by what the thread that moves changes in it (`sum_update`).
-/

namespace Lts

variable {S L : Type*} {M : Lts S L} {Goal : S → Prop}

/-- Whatever steps the system takes, it gets to the goal. -/
inductive Inevitable (M : Lts S L) (Goal : S → Prop) : S → Prop where
  | now {s : S} : Goal s → Inevitable M Goal s
  | later {s : S} : (∃ l t, M.step s l t) → (∀ l t, M.step s l t → Inevitable M Goal t) →
    Inevitable M Goal s

/-- A system gets to a goal when every step decreases a rank, and only at the goal there is none. -/
theorem Inevitable.of_rank {A : Type*} [LT A] [WellFoundedLT A] {Inv : S → Prop} {rank : S → A}
    (hstep : ∀ s l t, Inv s → M.step s l t → Inv t ∧ rank t < rank s)
    (hstuck : ∀ s, Inv s → (∀ l t, ¬M.step s l t) → Goal s) {s : S} (hs : Inv s) :
    M.Inevitable Goal s := by
  -- By induction on the rank, with the state free.
  induction hrank : rank s using WellFoundedLT.induction generalizing s with
  | ind a ih =>
    by_cases hnext : ∃ l t, M.step s l t
    · refine .later hnext fun l t hst => ?_
      obtain ⟨ht, hless⟩ := hstep s l t hs hst
      exact ih (rank t) (hrank ▸ hless) ht rfl
    · exact .now (hstuck s hs fun l t hst => hnext ⟨l, t, hst⟩)

/-- An invariant is there at the goal. -/
theorem Inevitable.mono {Inv Goal' : S → Prop} {s : S} (h : M.Inevitable Goal s)
    (hstep : ∀ s l t, Inv s → M.step s l t → Inv t) (hgoal : ∀ s, Inv s → Goal s → Goal' s)
    (hs : Inv s) : M.Inevitable Goal' s := by
  induction h with
  | now h => exact .now (hgoal _ hs h)
  | later hnext _ ih => exact .later hnext fun l t hst => ih l t hst (hstep _ l t hs hst)

end Lts

/-- A sum over threads, behind the move of one of them. -/
theorem sum_update {I P : Type*} [DecidableEq I] (f : P → ℕ) (threads : I → P) {A : Finset I}
    {i : I} (hi : i ∈ A) (p : P) :
    ∑ j ∈ A, f (Function.update threads i p j) + f (threads i) =
      ∑ j ∈ A, f (threads j) + f p := by
  have hothers : ∑ j ∈ A.erase i, f (Function.update threads i p j) =
      ∑ j ∈ A.erase i, f (threads j) := by
    refine Finset.sum_congr rfl fun j hj => ?_
    rw [Function.update_of_ne (Finset.ne_of_mem_erase hj)]
  rw [← Finset.add_sum_erase A _ hi, ← Finset.add_sum_erase A (fun j => f (threads j)) hi, hothers,
    Function.update_self]
  omega
