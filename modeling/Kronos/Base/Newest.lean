import Mathlib.Data.Set.Function

/-!
# The newest of some versions

Versions are ordered by a rank, such as a sequence number. A set of versions has a newest one, and
`Newest` says which it is, or that there is none. It is unique where the rank tells the versions
apart (`Newest.unique`). A search that keeps the newer of two candidates finds it (`newest_fold`).
-/

variable {V : Type}

/-- A newest version of a set, or none for the empty set. -/
def Newest (rank : V → ℕ) (S : Set V) : Option V → Prop
  | none => ∀ v, v ∉ S
  | some v => v ∈ S ∧ ∀ v' ∈ S, rank v' ≤ rank v

/-- The newer of two candidates. The first one wins a tie. -/
def newer (rank : V → ℕ) (winner candidate : Option V) : Option V :=
  match winner, candidate with
  | winner, none => winner
  | none, some c => some c
  | some w, some c => if rank c > rank w then some c else some w

/-- The newer of two candidates is one of them. -/
theorem newer_cases (rank : V → ℕ) (winner candidate : Option V) :
    newer rank winner candidate = winner ∨ newer rank winner candidate = candidate := by
  unfold newer
  split
  · exact .inl rfl
  · exact .inr rfl
  · split_ifs
    · exact .inr rfl
    · exact .inl rfl

namespace Newest

variable {rank : V → ℕ} {S T : Set V} {o o' : Option V}

/-- Where the rank tells versions apart, there is one newest. -/
theorem unique (hinj : Set.InjOn rank S) (h : Newest rank S o) (h' : Newest rank S o') :
    o = o' := by
  cases o with
  | none =>
    cases o' with
    | none => rfl
    | some v' => exact absurd h'.1 (h v')
  | some v =>
    cases o' with
    | none => exact absurd h.1 (h' v)
    | some v' => exact congrArg some (hinj h.1 h'.1 (le_antisymm (h'.2 v h.1) (h.2 v' h'.1)))

/-- The newest value depends on the set only. -/
theorem congr (h : Newest rank S o) (hST : S = T) : Newest rank T o := hST ▸ h

/-- The newest of two sets is the newer of their newest versions. -/
theorem union (h : Newest rank S o) (h' : Newest rank T o') :
    Newest rank (S ∪ T) (newer rank o o') := by
  cases o with
  | none =>
    cases o' with
    | none => exact fun v hv => hv.elim (h v) (h' v)
    | some c => exact ⟨.inr h'.1, fun v hv => hv.elim (fun hv => absurd hv (h v)) (h'.2 v)⟩
  | some w =>
    cases o' with
    | none => exact ⟨.inl h.1, fun v hv => hv.elim (h.2 v) (fun hv => absurd hv (h' v))⟩
    | some c =>
      rw [newer]
      by_cases hlt : rank c > rank w
      · rw [if_pos hlt]
        exact ⟨.inr h'.1, fun v hv => hv.elim (fun hv => (h.2 v hv).trans hlt.le) (h'.2 v)⟩
      · rw [if_neg hlt]
        exact ⟨.inl h.1, fun v hv => hv.elim (h.2 v) fun hv => (h'.2 v hv).trans (not_lt.1 hlt)⟩

/-- An empty set has no newest value. -/
theorem empty (rank : V → ℕ) : Newest rank ∅ none := fun _ hv => hv

/-- The only value of a set is its newest. -/
theorem singleton (rank : V → ℕ) (v : V) : Newest rank {v} (some v) :=
  ⟨rfl, fun _ hv => (congrArg rank hv).le⟩

end Newest

/-- The versions that some candidates give. -/
def versionsOf (candidates : List (Option V)) : Set V := {v | some v ∈ candidates}

/-- A search over candidates that keeps the newer one ends with the newest of what it started with
and of them. -/
theorem newest_fold {rank : V → ℕ} (candidates : List (Option V)) {S : Set V} {o : Option V}
    (h : Newest rank S o) :
    Newest rank (S ∪ versionsOf candidates) (candidates.foldl (newer rank) o) := by
  induction candidates generalizing S o with
  | nil => exact h.congr (by simp [versionsOf])
  | cons c candidates ih =>
    have hc : Newest rank {v | c = some v} c := by
      cases c with
      | none => exact fun v (hv : none = some v) => nomatch hv
      | some v => exact ⟨rfl, fun v' hv' => (congrArg rank (Option.some.inj hv')).ge⟩
    refine (ih (h.union hc)).congr ?_
    ext v
    simp only [versionsOf, Set.mem_union, Set.mem_ofPred_eq, List.mem_cons, @eq_comm _ c]
    tauto

