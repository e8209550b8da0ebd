import Kronos.Base.Newest

/-!
# The last write to a key

A history is a list of writes, each with a key. `lastWrite` is the write that a key has its value
from: the last one of the list. A history that is extended changes it only for the keys that are
written (`lastWrite_append`), and where ranks increase along the history, the last write to a key is
the newest (`newest_lastWrite`).
-/

variable {W K : Type} [DecidableEq K] {key : W → K}

/-- The last write to a key. -/
def lastWrite (key : W → K) (k : K) (ws : List W) : Option W :=
  (ws.filter fun w => key w = k).getLast?

/-- Of two histories, the later one decides, unless it does not write the key. -/
theorem lastWrite_append (k : K) (ws ws' : List W) :
    lastWrite key k (ws ++ ws') = (lastWrite key k ws').or (lastWrite key k ws) := by
  unfold lastWrite
  rw [List.filter_append, List.getLast?_append]

/-- A write is the last one to its key, and leaves those to the others. -/
theorem lastWrite_concat (k : K) (ws : List W) (w : W) :
    lastWrite key k (ws ++ [w]) = if key w = k then some w else lastWrite key k ws := by
  rw [lastWrite_append]
  by_cases h : key w = k
  · simp [lastWrite, h]
  · simp [lastWrite, h]

/-- There is no last write exactly to a key that is not written. -/
theorem lastWrite_eq_none_iff {k : K} {ws : List W} :
    lastWrite key k ws = none ↔ ∀ w ∈ ws, key w ≠ k := by
  unfold lastWrite
  rw [List.getLast?_eq_none_iff, List.filter_eq_nil_iff]
  simp

/-- The last write to a key is in the history, and writes the key. -/
theorem mem_of_lastWrite {k : K} {ws : List W} {w : W} (h : lastWrite key k ws = some w) :
    w ∈ ws ∧ key w = k := by
  have hmem := List.mem_filter.1 (List.mem_of_getLast? h)
  exact ⟨hmem.1, of_decide_eq_true hmem.2⟩

/-- Where the ranks increase, the last write to a key is its newest. -/
theorem newest_lastWrite {rank : W → ℕ} {ws : List W} (h : ws.Pairwise (rank · < rank ·)) (k : K) :
    Newest rank {w | w ∈ ws ∧ key w = k} (lastWrite key k ws) := by
  cases hlast : lastWrite key k ws with
  | none =>
    rintro w ⟨hmem, hkey⟩
    exact lastWrite_eq_none_iff.1 hlast w hmem hkey
  | some w =>
    refine ⟨mem_of_lastWrite hlast, ?_⟩
    rintro w' ⟨hmem, hkey⟩
    unfold lastWrite at hlast
    obtain ⟨front, hfront⟩ := List.getLast?_eq_some_iff.1 hlast
    have hsorted := h.filter fun w => key w = k
    have hmem' : w' ∈ ws.filter fun w => key w = k :=
      List.mem_filter.2 ⟨hmem, decide_eq_true hkey⟩
    rw [hfront] at hsorted hmem'
    rcases List.mem_append.1 hmem' with hearlier | hthis
    · exact ((List.pairwise_append.1 hsorted).2.2 w' hearlier w (.head _)).le
    · rw [List.mem_singleton.1 hthis]
