import Mathlib.Data.List.Dedup
import Kronos.Base.Newest
import Kronos.Memtable

/-!
# Writing to a Memtable

What a sequence of `put` and `remove` leaves in a Memtable. A Memtable's usage is `Exact` when it is
the sum of the estimated sizes of its entries, which a write keeps (`Exact.write`), and no write of
an exact Memtable takes away more than there is (`Exact.old_le`). After any writes the Memtable
`Holds` the newest one to each key (`Holds.run`), and when their sequence numbers are distinct that
determines it (`Holds.unique`), in whichever order they came (`runAll_perm`).
-/

namespace Kronos

/-- A call of `put` or `remove`. -/
inductive MemtableWrite where
  | put (key value : Bytes) (sequence : ℕ)
  | remove (key : Bytes) (sequence : ℕ)
  deriving DecidableEq, Repr

namespace MemtableWrite

/-- The key that a call writes. -/
def key : MemtableWrite → Bytes
  | put key _ _ | remove key _ => key

/-- The sequence number that a call writes under. -/
def sequence : MemtableWrite → ℕ
  | put _ _ sequence | remove _ sequence => sequence

/-- The version that a call writes. -/
def entry : MemtableWrite → InternalEntry
  | put _ value sequence => ⟨value, sequence, .put⟩
  | remove _ sequence => ⟨[], sequence, .delete⟩

/-- What a call returns, and the Memtable that it leaves. -/
def run (m : Memtable) : MemtableWrite → WriteResult × Memtable
  | put key value sequence => m.put key value sequence
  | remove key sequence => m.remove key sequence

/-- The entry of a write has its sequence number. -/
@[simp] theorem entry_sequence (w : MemtableWrite) : w.entry.sequence = w.sequence := by
  cases w <;> rfl

/-- `put` and `remove` share their code. -/
theorem run_eq (m : Memtable) (w : MemtableWrite) : w.run m = m.write w.key w.entry := by
  cases w <;> rfl

end MemtableWrite

namespace Memtable

/-- What calls in a row leave. -/
def runAll (m : Memtable) (ws : List MemtableWrite) : Memtable :=
  ws.foldl (fun m w => (w.run m).2) m

/-! ## One write -/

/-- A write that does not succeed changes nothing. -/
theorem write_of_ne_success {m : Memtable} {key : Bytes} {newEntry : InternalEntry}
    (h : (m.write key newEntry).1 ≠ .success) : (m.write key newEntry).2 = m := by
  unfold write at h ⊢
  by_cases hstate : m.state ≠ .mutable
  · rw [if_pos hstate]
  rw [if_neg hstate] at h ⊢
  cases hlookup : m.lookupEntry key with
  | none =>
    rw [hlookup] at h
    exact absurd rfl h
  | some old =>
    rw [hlookup] at h
    dsimp only at h ⊢
    split_ifs at h ⊢ with hold
    · rfl
    · exact absurd rfl h

/-- A frozen Memtable rejects every write. -/
theorem write_of_immutable {m : Memtable} (hstate : m.state = .immutable) (key : Bytes)
    (newEntry : InternalEntry) : m.write key newEntry = (.immutable, m) := by
  rw [write, if_pos (by rw [hstate]; decide)]

/-- `freeze` leaves a frozen Memtable. -/
theorem freeze_state (m : Memtable) : m.freeze.2.state = .immutable := by
  unfold freeze
  split_ifs with hstate
  · rfl
  · cases h : m.state with
    | immutable => rfl
    | mutable => exact absurd h hstate

/-- A Memtable can be frozen once. -/
theorem freeze_of_immutable {m : Memtable} (hstate : m.state = .immutable) :
    m.freeze = (false, m) := by
  rw [freeze, if_neg (by rw [hstate]; decide)]

/-- A write changes neither the state nor the target. -/
theorem write_state (m : Memtable) (key : Bytes) (newEntry : InternalEntry) :
    (m.write key newEntry).2.state = m.state ∧
      (m.write key newEntry).2.targetBytes = m.targetBytes := by
  by_cases hresult : (m.write key newEntry).1 = .success
  · unfold write at hresult ⊢
    by_cases hstate : m.state ≠ .mutable
    · rw [if_pos hstate]
      exact ⟨rfl, rfl⟩
    rw [if_neg hstate]
    cases m.lookupEntry key with
    | none => exact ⟨rfl, rfl⟩
    | some old =>
      dsimp only
      split_ifs
      · exact ⟨rfl, rfl⟩
      · exact ⟨rfl, rfl⟩
  · rw [write_of_ne_success hresult]
    exact ⟨rfl, rfl⟩

/-- Behind a write to a mutable Memtable, its key has the newer one of two versions. -/
theorem lookupEntry_write {m : Memtable} (hstate : m.state = .mutable) (key : Bytes)
    (newEntry : InternalEntry) (key' : Bytes) :
    (m.write key newEntry).2.lookupEntry key' =
      if key' = key then newer InternalEntry.sequence (m.lookupEntry key) (some newEntry)
      else m.lookupEntry key' := by
  have hinsert : (m.table.insert key newEntry).lookup key' =
      if key' = key then some newEntry else m.lookupEntry key' := by
    rw [OrderedMap.lookup_insert]
    split_ifs <;> rfl
  rw [write, if_neg (not_not.2 hstate)]
  cases hlookup : m.lookupEntry key with
  | none => exact hinsert
  | some old =>
    dsimp only [newer]
    by_cases hold : newEntry.sequence ≤ old.sequence
    · rw [if_pos hold, if_neg (not_lt.2 hold)]
      by_cases hkey : key' = key
      · rw [if_pos hkey, hkey, hlookup]
      · rw [if_neg hkey]
    · rw [if_neg hold, if_pos (not_le.1 hold)]
      exact hinsert

/-! ## The accounting -/

/-- The usage is the sum of the estimated sizes of the entries. -/
def Exact (m : Memtable) : Prop := m.memoryUsage = m.table.weight estimateEntrySize

/-- An empty Memtable is accounted for exactly. -/
theorem exact_new (targetBytes : ℕ) : (new targetBytes).Exact := rfl

namespace Exact

variable {m : Memtable}

/-- The estimated size of a version that is replaced is contained in the usage. -/
theorem old_le (h : m.Exact) {key : Bytes} {old : InternalEntry}
    (hlookup : m.lookupEntry key = some old) : estimateEntrySize key old ≤ m.memoryUsage :=
  calc estimateEntrySize key old
      ≤ m.table.weight estimateEntrySize := OrderedMap.size_le_weight estimateEntrySize hlookup
    _ = m.memoryUsage := h.symm

/-- A write keeps the usage exact. -/
theorem write (h : m.Exact) (key : Bytes) (newEntry : InternalEntry) :
    (m.write key newEntry).2.Exact := by
  have hweight := OrderedMap.weight_insert estimateEntrySize m.table key newEntry
  unfold Memtable.write
  by_cases hstate : m.state ≠ .mutable
  · rwa [if_pos hstate]
  rw [if_neg hstate]
  cases hlookup : m.lookupEntry key with
  | none =>
    -- A new key adds the size of its entry.
    have hnone : m.table.lookup key = none := hlookup
    rw [hnone, Option.elim_none, Nat.add_zero] at hweight
    exact (congrArg (· + _) h).trans hweight.symm
  | some old =>
    have hsome : m.table.lookup key = some old := hlookup
    rw [hsome, Option.elim_some] at hweight
    dsimp only
    split_ifs with hold
    · exact h
    · -- The old entry's size was in the sum, so that the subtraction is exact.
      have hle := h.old_le hlookup
      have husage : m.memoryUsage = m.table.weight estimateEntrySize := h
      change _ - _ + _ = (m.table.insert key newEntry).weight estimateEntrySize
      omega

/-- Freezing changes no entry. -/
theorem freeze (h : m.Exact) : m.freeze.2.Exact := by
  unfold Memtable.freeze
  split_ifs
  · exact h
  · exact h

end Exact

/-! ## The estimate -/

/-- The estimate depends on the length of the value only, so that a candidate stands for any version
with its value. It predicts exactly whether a write that succeeds exceeds the target, as long as the
candidate is newer than what it replaces. -/
theorem wouldExceedTarget_iff {m : Memtable} {key : Bytes} {candidate newEntry : InternalEntry}
    (hvalue : candidate.value = newEntry.value)
    (hnewer : ∀ old, m.lookupEntry key = some old → old.sequence < candidate.sequence)
    (hsuccess : (m.write key newEntry).1 = .success) :
    m.wouldExceedTarget key candidate = true ↔
      m.targetBytes < (m.write key newEntry).2.memoryUsage := by
  have hsize : estimateEntrySize key candidate = estimateEntrySize key newEntry := by
    unfold estimateEntrySize
    rw [hvalue]
  unfold write at hsuccess ⊢
  by_cases hstate : m.state ≠ .mutable
  · rw [if_pos hstate] at hsuccess
    cases hsuccess
  rw [if_neg hstate] at hsuccess ⊢
  unfold wouldExceedTarget
  cases hlookup : m.lookupEntry key with
  | none =>
    dsimp only
    rw [hsize, decide_eq_true_iff]
  | some old =>
    rw [hlookup] at hsuccess
    dsimp only at hsuccess ⊢
    by_cases hold : old.sequence ≥ newEntry.sequence
    · rw [if_pos hold] at hsuccess
      cases hsuccess
    · rw [if_neg hold, if_neg (not_le.2 (hnewer old hlookup)), hsize, decide_eq_true_iff]

/-- A write to an empty Memtable that succeeds leaves one entry. -/
theorem entryCount_write {m : Memtable} (hempty : m.entryCount = 0) {key : Bytes}
    {newEntry : InternalEntry} (hsuccess : (m.write key newEntry).1 = .success) :
    (m.write key newEntry).2.entryCount = 1 := by
  have hentries : m.table.entries = [] := List.eq_nil_of_length_eq_zero hempty
  have hlookup : m.lookupEntry key = none := by
    rw [lookupEntry, OrderedMap.lookup, hentries, List.lookup_nil]
  have hinsert : (m.table.insert key newEntry).entries = [(key, newEntry)] := by
    change OrderedMap.insertEntry key newEntry m.table.entries = _
    rw [hentries, OrderedMap.insertEntry]
  unfold write at hsuccess ⊢
  by_cases hstate : m.state ≠ .mutable
  · rw [if_pos hstate] at hsuccess
    cases hsuccess
  rw [if_neg hstate, hlookup]
  exact congrArg List.length hinsert

/-! ## The newest write to each key -/

/-- A mutable Memtable with the newest of some writes to each key, and with exact accounting. -/
structure Holds (targetBytes : ℕ) (ws : List MemtableWrite) (m : Memtable) : Prop where
  state : m.state = .mutable
  target : m.targetBytes = targetBytes
  exact : m.Exact
  newest : ∀ key, ∃ o, Newest MemtableWrite.sequence {w | w ∈ ws ∧ w.key = key} o ∧
    m.lookupEntry key = o.map MemtableWrite.entry

namespace Holds

variable {targetBytes : ℕ} {ws : List MemtableWrite} {m : Memtable}

/-- An empty Memtable holds no write. -/
theorem new (targetBytes : ℕ) : Holds targetBytes [] (.new targetBytes) where
  state := rfl
  target := rfl
  exact := rfl
  newest _ := ⟨none, fun _ hw => absurd hw.1 List.not_mem_nil, rfl⟩

/-- The newer of two versions is that of the newer write. -/
theorem newer_map (o : Option MemtableWrite) (w : MemtableWrite) :
    newer InternalEntry.sequence (o.map MemtableWrite.entry) (some w.entry) =
      (newer MemtableWrite.sequence o (some w)).map MemtableWrite.entry := by
  cases o with
  | none => rfl
  | some w' =>
    simp only [newer, Option.map_some, MemtableWrite.entry_sequence]
    by_cases hlt : w.sequence > w'.sequence
    · rw [if_pos hlt, if_pos hlt, Option.map_some]
    · rw [if_neg hlt, if_neg hlt, Option.map_some]

/-- One more write. -/
theorem write (h : Holds targetBytes ws m) (w : MemtableWrite) :
    Holds targetBytes (ws ++ [w]) (w.run m).2 := by
  rw [w.run_eq]
  constructor
  · exact (m.write_state w.key w.entry).1.trans h.state
  · exact (m.write_state w.key w.entry).2.trans h.target
  · exact h.exact.write w.key w.entry
  · intro key
    obtain ⟨o, hnewest, hlookup⟩ := h.newest key
    rw [lookupEntry_write h.state]
    by_cases hkey : key = w.key
    · rw [if_pos hkey, ← hkey, hlookup, newer_map]
      refine ⟨_, (hnewest.union (.singleton _ w)).congr ?_, rfl⟩
      ext w'
      simp only [Set.mem_union, Set.mem_ofPred_eq, Set.mem_singleton_iff, List.mem_append,
        List.mem_singleton]
      constructor
      · rintro (⟨hmem, hkey'⟩ | rfl)
        · exact ⟨.inl hmem, hkey'⟩
        · exact ⟨.inr rfl, hkey.symm⟩
      · rintro ⟨hmem | hmem, hkey'⟩
        · exact .inl ⟨hmem, hkey'⟩
        · exact .inr hmem
    · rw [if_neg hkey]
      refine ⟨o, hnewest.congr ?_, hlookup⟩
      ext w'
      simp only [Set.mem_ofPred_eq, List.mem_append, List.mem_singleton]
      constructor
      · exact fun ⟨hmem, hkey'⟩ => ⟨.inl hmem, hkey'⟩
      · rintro ⟨hmem | hmem, hkey'⟩
        · exact ⟨hmem, hkey'⟩
        · exact absurd (hmem ▸ hkey').symm hkey

/-- Writes in a row. -/
theorem run (h : Holds targetBytes ws m) (ws' : List MemtableWrite) :
    Holds targetBytes (ws ++ ws') (m.runAll ws') := by
  induction ws' generalizing ws m with
  | nil => rwa [List.append_nil]
  | cons w ws' ih =>
    rw [List.append_cons]
    exact ih (h.write w)

/-- Two Memtables that hold the same writes are the same, when the sequence numbers tell the writes
apart. -/
theorem unique {ws' : List MemtableWrite} {m' : Memtable} (h : Holds targetBytes ws m)
    (h' : Holds targetBytes ws' m') (hmem : ∀ w, w ∈ ws ↔ w ∈ ws')
    (hdistinct : (ws.map MemtableWrite.sequence).Nodup) : m = m' := by
  have htable : m.table = m'.table := by
    apply OrderedMap.ext_lookup
    intro key
    obtain ⟨o, hnewest, hlookup⟩ := h.newest key
    obtain ⟨o', hnewest', hlookup'⟩ := h'.newest key
    have hsame : {w | w ∈ ws' ∧ w.key = key} = {w | w ∈ ws ∧ w.key = key} := by
      ext w
      exact and_congr_left fun _ => (hmem w).symm
    have hinj : Set.InjOn MemtableWrite.sequence {w | w ∈ ws ∧ w.key = key} :=
      fun w hw w' hw' heq => List.inj_on_of_nodup_map hdistinct hw.1 hw'.1 heq
    have ho : o = o' := hnewest.unique hinj (hnewest'.congr hsame)
    exact hlookup.trans (ho ▸ hlookup'.symm)
  have husage : m.memoryUsage = m'.memoryUsage :=
    calc m.memoryUsage
        = m.table.weight estimateEntrySize := h.exact
      _ = m'.table.weight estimateEntrySize := by rw [htable]
      _ = m'.memoryUsage := h'.exact.symm
  obtain ⟨table, memoryUsage, target, state⟩ := m
  obtain ⟨table', memoryUsage', target', state'⟩ := m'
  obtain rfl : table = table' := htable
  obtain rfl : memoryUsage = memoryUsage' := husage
  obtain rfl : state = state' := h.state.trans h'.state.symm
  obtain rfl : target = target' := h.target.trans h'.target.symm
  rfl

/-- There is one entry for each key that was written. -/
theorem entryCount (h : Holds targetBytes ws m) :
    m.entryCount = (ws.map MemtableWrite.key).dedup.length := by
  have hkeys : (m.table.entries.map Prod.fst).Nodup :=
    List.Pairwise.map _ (fun r r' (hlt : r.1 < r'.1) => hlt.ne) m.table.sorted
  have hperm : (m.table.entries.map Prod.fst).Perm (ws.map MemtableWrite.key).dedup := by
    rw [List.perm_ext_iff_of_nodup hkeys (List.nodup_dedup _)]
    intro key
    rw [List.mem_dedup, List.mem_map, List.mem_map]
    obtain ⟨o, hnewest, hlookup⟩ := h.newest key
    constructor
    · rintro ⟨⟨key, entry⟩, hmem, rfl⟩
      -- A key with an entry has a newest write.
      rw [lookupEntry, OrderedMap.lookup_eq_some_iff.2 hmem] at hlookup
      cases o with
      | none => cases hlookup
      | some w => exact ⟨w, hnewest.1.1, hnewest.1.2⟩
    · rintro ⟨w, hmem, hkey⟩
      cases o with
      | none => exact absurd ⟨hmem, hkey⟩ (hnewest w)
      | some newest =>
        exact ⟨(key, newest.entry), OrderedMap.lookup_eq_some_iff.1 hlookup, rfl⟩
  rw [Memtable.entryCount, ← hperm.length_eq, List.length_map]

end Holds

/-- Writes with distinct sequence numbers leave the same Memtable in every order. -/
theorem runAll_perm (targetBytes : ℕ) {ws ws' : List MemtableWrite} (hperm : ws'.Perm ws)
    (hdistinct : (ws.map MemtableWrite.sequence).Nodup) :
    (new targetBytes).runAll ws' = (new targetBytes).runAll ws :=
  (((Holds.new targetBytes).run ws).unique ((Holds.new targetBytes).run ws')
    (fun _ => hperm.mem_iff.symm) hdistinct).symm

/-- The Memtable is the last writer's, by sequence number, in whichever order the writes come. Its
accounting is exact at each of them, and no subtraction wraps. A write that is rejected changes
nothing, and nothing changes a frozen Memtable. -/
theorem last_writer_wins (targetBytes : ℕ) {ws : List MemtableWrite}
    (hdistinct : (ws.map MemtableWrite.sequence).Nodup) :
    (∃ m, (∀ ws' : List MemtableWrite, ws'.Perm ws → (new targetBytes).runAll ws' = m) ∧
      (∀ key, ∃ o, Newest MemtableWrite.sequence {w | w ∈ ws ∧ w.key = key} o ∧
        m.lookupEntry key = o.map MemtableWrite.entry) ∧
      m.entryCount = (ws.map MemtableWrite.key).dedup.length ∧
      m.memoryUsage = (m.table.entries.map fun r => estimateEntrySize r.1 r.2).sum) ∧
    (∀ before w rest, (before ++ w :: rest : List MemtableWrite).Perm ws →
      ((new targetBytes).runAll before).Exact ∧
      ∀ old, ((new targetBytes).runAll before).lookupEntry w.key = some old →
        estimateEntrySize w.key old ≤ ((new targetBytes).runAll before).memoryUsage) ∧
    (∀ (m : Memtable) (w : MemtableWrite), (w.run m).1 ≠ .success → (w.run m).2 = m) ∧
    (∀ m : Memtable, (∀ w : MemtableWrite, w.run m.freeze.2 = (.immutable, m.freeze.2)) ∧
      m.freeze.2.freeze = (false, m.freeze.2)) := by
  have hholds := (Holds.new targetBytes).run ws
  refine ⟨⟨(new targetBytes).runAll ws, ?_, hholds.newest, hholds.entryCount, hholds.exact⟩,
    ?_, ?_, ?_⟩
  · intro ws' hperm
    exact runAll_perm targetBytes hperm hdistinct
  · intro before w rest _
    have hexact := ((Holds.new targetBytes).run before).exact
    exact ⟨hexact, fun old hlookup => hexact.old_le hlookup⟩
  · intro m w hresult
    rw [w.run_eq] at hresult ⊢
    exact write_of_ne_success hresult
  · intro m
    constructor
    · intro w
      rw [w.run_eq]
      exact write_of_immutable m.freeze_state w.key w.entry
    · exact freeze_of_immutable m.freeze_state

/-- Three writes to two keys, one of which is removed in between. -/
theorem last_writer_wins_of_three :
    ([MemtableWrite.put [1] [7] 2, .remove [1] 5, .put [2] [] 3].map
      MemtableWrite.sequence).Nodup ∧
    ∃ m : Memtable, (new 512).runAll [.put [1] [7] 2, .remove [1] 5, .put [2] [] 3] = m ∧
      (new 512).runAll [.put [2] [] 3, .remove [1] 5, .put [1] [7] 2] = m ∧
      m.entryCount = 2 := by
  have hdistinct : ([MemtableWrite.put [1] [7] 2, .remove [1] 5, .put [2] [] 3].map
      MemtableWrite.sequence).Nodup := by decide
  obtain ⟨⟨m, hrun, -, hcount, -⟩, -⟩ := last_writer_wins 512 hdistinct
  exact ⟨hdistinct, m, hrun _ (.refl _), hrun _ (by decide), hcount.trans (by decide)⟩

end Memtable

end Kronos
