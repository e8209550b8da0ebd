import Kronos.Wal.Reclaim

/-!
# After an exception

What a `Wal` is good for after `recover` or `reclaimThrough` threw. A later append is safe when the
allocator was not lowered, the descriptor refers to the file that the path names, and the file
position is at its end (`Usable`), and when what the file then consists of can be read back with
the new record behind it (`PutsFound`). Which failing calls leave that behind is decided by the
state before the call (`keepsUsable_iff`): the ones before the loop of recovery and those of the
rewrite do, the ones behind the replacement of the file never do, and a pass that stops does so
only at the end of a whole log.
-/

namespace Kronos.Wal

open ByteString

/-! ## The property -/

/-- A construction over the bytes of a file, and a recovery, return these records. -/
def Recovers (H : Hashing) (file : Bytes) (rs : List Record) : Prop :=
  ∃ w, construct (some file) = .ok w ∧ (recover H w).1 = .ok rs

/-- The allocator is not lower than before, the descriptor refers to the file that the path names,
and its position is the end of that file. -/
structure Usable (before after : LogFiles) : Prop where
  allocator : before.wal.nextSequence ≤ after.wal.nextSequence
  descriptor : after.named = none
  position : after.wal.position = after.wal.file.length

/-- A `put` that returns overwrites nothing in the file that the path names, and a recovery of that
file finds its record behind those that it found before, with a larger sequence number. -/
def PutsFound (H : Hashing) (l : LogFiles) : Prop :=
  ∀ key value sequence w, put H key value none l.wal = (.ok sequence, w) →
    l.atPath <+: LogFiles.atPath { l with wal := w } ∧
    ∃ rs, Recovers H l.atPath rs ∧ (∀ r ∈ rs, r.sequence < sequence) ∧
      Recovers H (LogFiles.atPath { l with wal := w }) (rs ++ [⟨sequence, .put, key, value⟩])

/-- What remains of the object after an exception is as good as before. -/
def KeepsUsable (H : Hashing) (before after : LogFiles) : Prop :=
  Usable before after ∧ PutsFound H after

/-! ## The calls -/

/-- A call of `recover` or `reclaimThrough`, with the system call that fails in it. -/
inductive MaintenanceCall where
  | recover (fault : Option RecoverFault)
  | reclaimThrough (checkpoint : ℕ) (fault : Option ReclaimFault)
  deriving DecidableEq, Repr

namespace MaintenanceCall

/-- Making the call. -/
def run (H : Hashing) : MaintenanceCall → LogFiles → Except Failure Unit × LogFiles
  | recover fault, l =>
    ((recoverWith H fault l.wal).1.map fun _ => (), { l with wal := (recoverWith H fault l.wal).2 })
  | reclaimThrough checkpoint fault, l => Wal.reclaimThrough H checkpoint fault l

/-- Whether a system call of the call fails. -/
def Faulty : MaintenanceCall → Prop
  | recover fault => fault ≠ none
  | reclaimThrough _ fault => fault ≠ none

/-- The same call without a failing system call. -/
def clean : MaintenanceCall → MaintenanceCall
  | recover _ => recover none
  | reclaimThrough checkpoint _ => reclaimThrough checkpoint none

/-- The call throws, and the system call that fails, if there is one, is the reason: without it,
something else happens. Without a failing call, the reason is a corrupt record. -/
structure Throws (H : Hashing) (c : MaintenanceCall) (l : LogFiles) : Prop where
  error : ∃ failure, (c.run H l).1 = .error failure
  reason : c.Faulty → c.run H l ≠ c.clean.run H l

end MaintenanceCall

/-! ## When a later append is found -/

/-- A log of the records `rs` with the rest `t` can be continued from the allocator `n`: it consists
of whole records, and the allocator is behind them. Otherwise no append returns at all, when no
sequence number is left. -/
def Continues (rs : List Record) (t : Bytes) (n : ℕ) : Prop :=
  n = uint64Max ∨ (t = [] ∧ ∀ r ∈ rs, r.sequence < n)

/-- A recovery that returns found its records at the beginning of the file. -/
theorem recovers_iff {H : Hashing} {file : Bytes} (hheader : header <+: file) {rs : List Record} :
    Recovers H file rs ↔ ∃ t, Contains H file rs t ∧
      (scanBehind H rs t = .eof ∨ scanBehind H rs t = .torn) := by
  obtain ⟨rs', t, hfile⟩ := exists_contains H hheader
  have hopened := construct_of_header hheader
  have hspec := @recover_spec H ⟨file, file.length, 0⟩ rs' t hfile
  constructor
  · rintro ⟨w, hw, hrecover⟩
    rw [hopened] at hw
    cases hw
    rcases hspec with ⟨failure, consumed, -, h⟩ | ⟨hscan, h⟩
    · rw [h] at hrecover
      cases hrecover
    · rw [h] at hrecover
      cases hrecover
      exact ⟨t, hfile, hscan⟩
  · rintro ⟨t', hfile', hscan'⟩
    refine ⟨_, hopened, ?_⟩
    rcases @recover_spec H ⟨file, file.length, 0⟩ rs t' hfile' with ⟨_, _, h, -⟩ | ⟨-, h⟩
    · rw [h] at hscan'
      simp at hscan'
    · rw [h]

/-- Appends behind a whole log with a fresh allocator are found. -/
theorem putsFound_of_continues {H : Hashing} {l : LogFiles} {rs : List Record} {t : Bytes}
    (hl : Contains H l.wal.file rs t) (hn : l.wal.nextSequence ≤ uint64Max)
    (hnamed : l.named = none) (hposition : l.wal.position = l.wal.file.length)
    (hcontinues : Continues rs t l.wal.nextSequence) : PutsFound H l := by
  intro key value sequence w hput
  have hmax : l.wal.nextSequence ≠ uint64Max := by
    intro hmax
    unfold put writeRecord at hput
    rw [if_pos hmax] at hput
    cases hput
  obtain ⟨rfl, hfresh⟩ := hcontinues.resolve_left hmax
  have hend : AtEnd H .synced l.wal rs :=
    ⟨hposition, hl.history, hn, fun _ => hfresh, ⟨[], hl.file, tornTail_nil H, .inr rfl⟩⟩
  have hrun := (Call.put key value none).run_spec H hposition
  have hcall : (Call.put key value none).run H l.wal = (.ok sequence, w) := hput
  rcases Call.leaves_of_fault_none (H := H) (c := .put key value none) rfl l.wal with
    hleaves | hleaves
  · rw [hleaves, hcall] at hrun
    obtain ⟨failure, hrun⟩ := hrun
    cases hrun
  · have hstep := hend.run (c := .put key value none) trivial
    unfold Call.kept at hstep
    rw [hleaves, hcall] at hstep hrun
    cases hrun
    obtain ⟨w', hopened, hrecover⟩ := hend.reopen
    obtain ⟨w'', hopened', hrecover'⟩ := hstep.reopen
    refine ⟨?_, rs, ⟨w', ?_, ?_⟩, hfresh, ⟨w'', ?_, ?_⟩⟩
    · simp [LogFiles.atPath, hnamed, append]
    · rw [LogFiles.atPath, hnamed]
      exact hopened
    · rw [hrecover]
    · rw [LogFiles.atPath, hnamed]
      exact hopened'
    · rw [hrecover']
      rfl

/-- A short put that returns appends its record at the file position. -/
theorem put_short (H : Hashing) {w : Wal} (hmax : w.nextSequence ≠ uint64Max)
    (hposition : w.position = w.file.length) {key : Bytes} (hkey : key.length ≤ uint32Max) :
    put H key [] none w = (.ok w.nextSequence,
      { w.append (encodeRecord H ⟨w.nextSequence, .put, key, []⟩) with
        nextSequence := w.nextSequence + 1 }) := by
  unfold put writeRecord
  rw [if_neg hmax]
  dsimp only
  rw [if_neg (by simpa [uint32Max] using hkey), write_of_end hposition]

/-- A record whose append is found lies at the end of the log, with nothing before it that is not
a record. -/
theorem encodeRecord_of_found {H : Hashing} {file : Bytes} {rs : List Record} {t : Bytes}
    (hfile : Contains H file rs t) {rs' : List Record} {r : Record} (hbefore : Recovers H file rs')
    (hafter : Recovers H (file ++ encodeRecord H r) (rs' ++ [r])) :
    rs' = rs ∧ ∃ t', t ++ encodeRecord H r = encodeRecord H r ++ t' := by
  have hheader : header <+: file := by
    rw [hfile.file, List.append_assoc]
    exact List.prefix_append _ _
  have hrs : rs' = rs := by
    obtain ⟨w, hopened, hrecover⟩ := hbefore
    rw [construct_of_header hheader] at hopened
    cases hopened
    rcases @recover_spec H ⟨file, file.length, 0⟩ rs t hfile with ⟨_, _, -, h⟩ | ⟨-, h⟩
    · rw [h] at hrecover
      cases hrecover
    · rw [h] at hrecover
      cases hrecover
      rfl
  subst hrs
  obtain ⟨t', hcontains, -⟩ :=
    (recovers_iff (hheader.trans (List.prefix_append _ _))).1 hafter
  have heq := hcontains.file
  rw [hfile.file, encodeRecords_append, encodeRecords_cons, encodeRecords_nil] at heq
  simp only [List.append_assoc, List.append_cancel_left_eq, List.append_nil] at heq
  exact ⟨rfl, t', by simpa using heq⟩

/-- Bytes that two records with keys of different lengths are both shifted by are none. -/
theorem eq_nil_of_shift {H : Hashing} {n : ℕ} {t t0 t1 : Bytes}
    (h0 : t ++ encodeRecord H ⟨n, .put, [], []⟩ = encodeRecord H ⟨n, .put, [], []⟩ ++ t0)
    (h1 : t ++ encodeRecord H ⟨n, .put, [0], []⟩ = encodeRecord H ⟨n, .put, [0], []⟩ ++ t1) :
    t = [] := by
  -- The encodings agree up to the lowest byte of the key length, at offset 9.
  generalize hr0 : encodeRecord H ⟨n, .put, [], []⟩ = e0 at h0
  generalize hr1 : encodeRecord H ⟨n, .put, [0], []⟩ = e1 at h1
  have hlen0 : 9 < e0.length := by rw [← hr0]; simp [recordLength]
  have hlen1 : 9 < e1.length := by rw [← hr1]; simp [recordLength]
  have hnine0 : e0[9]? = some 0 := by rw [← hr0]; rfl
  have hnine1 : e1[9]? = some 1 := by rw [← hr1]; rfl
  have hagree : e0.take 9 = e1.take 9 := by rw [← hr0, ← hr1]; rfl
  have hat0 : (t ++ e0)[9]? = some 0 := by rw [h0, List.getElem?_append_left hlen0, hnine0]
  have hat1 : (t ++ e1)[9]? = some 1 := by rw [h1, List.getElem?_append_left hlen1, hnine1]
  by_contra hne
  have hpos : 0 < t.length := List.length_pos_of_ne_nil hne
  rcases Nat.lt_or_ge 9 t.length with hlt | hge
  · rw [List.getElem?_append_left hlt] at hat0 hat1
    rw [hat0] at hat1
    exact absurd hat1 (by decide)
  · rw [List.getElem?_append_right hge] at hat0 hat1
    have hsame : e0[9 - t.length]? = e1[9 - t.length]? := by
      rw [← List.getElem?_take_of_lt (show 9 - t.length < 9 by omega), hagree,
        List.getElem?_take_of_lt (by omega)]
    rw [hsame, hat1] at hat0
    exact absurd hat0 (by decide)

/-- Appends are found only behind a whole log, with a fresh allocator. -/
theorem continues_of_putsFound {H : Hashing} {l : LogFiles} {rs : List Record} {t : Bytes}
    (hl : Contains H l.wal.file rs t) (hnamed : l.named = none)
    (hposition : l.wal.position = l.wal.file.length) (hfound : PutsFound H l) :
    Continues rs t l.wal.nextSequence := by
  by_cases hmax : l.wal.nextSequence = uint64Max
  · exact .inl hmax
  have hshift : ∀ key : Bytes, key.length ≤ uint32Max →
      (∀ r ∈ rs, r.sequence < l.wal.nextSequence) ∧
        ∃ t', t ++ encodeRecord H ⟨l.wal.nextSequence, .put, key, []⟩ =
          encodeRecord H ⟨l.wal.nextSequence, .put, key, []⟩ ++ t' := by
    intro key hkey
    obtain ⟨-, rs', hbefore, hfresh, hafter⟩ :=
      hfound key [] _ _ (put_short H hmax hposition hkey)
    simp only [LogFiles.atPath, hnamed, Option.getD_none, append] at hbefore hafter
    obtain ⟨rfl, ht⟩ := encodeRecord_of_found hl hbefore hafter
    exact ⟨hfresh, ht⟩
  obtain ⟨hfresh, t0, h0⟩ := hshift [] (Nat.zero_le _)
  obtain ⟨-, t1, h1⟩ := hshift [0] (by decide)
  exact .inr ⟨eq_nil_of_shift h0 h1, hfresh⟩

/-- An object at the end of the file that its path names is as good as before, if its allocator is,
exactly when its log can be continued. -/
theorem keepsUsable_iff_continues {H : Hashing} {before after : LogFiles} {rs : List Record}
    {t : Bytes} (hafter : Contains H after.wal.file rs t)
    (hn : after.wal.nextSequence ≤ uint64Max) :
    KeepsUsable H before after ↔ after.named = none ∧
      after.wal.position = after.wal.file.length ∧
      before.wal.nextSequence ≤ after.wal.nextSequence ∧
      Continues rs t after.wal.nextSequence := by
  constructor
  · rintro ⟨⟨hallocator, hnamed, hposition⟩, hfound⟩
    exact ⟨hnamed, hposition, hallocator, continues_of_putsFound hafter hnamed hposition hfound⟩
  · rintro ⟨hnamed, hposition, hallocator, hcontinues⟩
    exact ⟨⟨hallocator, hnamed, hposition⟩,
      putsFound_of_continues hafter hn hnamed hposition hcontinues⟩

/-! ## Which exceptions keep the object usable -/

/-- The failing calls of `recover`, and the corrupt record when none fails, that leave the object
as good as before, from the state before the call: a log of the records `rs` and the rest `t`. -/
def RecoverFault.Harmless (H : Hashing) (w : Wal) (rs : List Record) (t : Bytes) :
    Option RecoverFault → Prop
  | none => (∃ failure, scanBehind H rs t = .corrupt failure t.length) ∧
    w.nextSequence ≤ nextAfter rs w.nextSequence ∧ Continues rs t (nextAfter rs w.nextSequence)
  | some .stat | some .seekHeader => w.position = w.file.length ∧ Continues rs t w.nextSequence
  | some (.tellRecord position) | some (.tellPayload position) | some (.read position) =>
    position = w.file.length ∧ w.nextSequence ≤ nextAfter rs w.nextSequence ∧
      Continues rs t (nextAfter rs w.nextSequence)
  | some .truncate => t.length ≤ 17 ∧ w.nextSequence ≤ nextAfter rs w.nextSequence ∧
    Continues rs t (nextAfter rs w.nextSequence)
  | some .sync => False
  | some .seekEnd => t = [] ∧ w.nextSequence ≤ nextAfter rs w.nextSequence

/-- The same for both calls. -/
def MaintenanceCall.Harmless (H : Hashing) (l : LogFiles) (rs : List Record) (t : Bytes) :
    MaintenanceCall → Prop
  | recover fault => l.named = none ∧ RecoverFault.Harmless H l.wal rs t fault
  | reclaimThrough _ fault =>
    match fault with
    | none => l.named = none ∧ RecoverFault.Harmless H l.wal rs t none
    | some (.recover f) => l.named = none ∧ RecoverFault.Harmless H l.wal rs t (some f)
    | some .create | some (.write _) | some .sync | some .close | some .rename => l.named = none
    | some .reopen | some .seek => False
    | some .openParent | some .syncParent => True

/-- The allocator that a recovery leaves is behind its records. -/
theorem continues_nextAfter {rs : List Record} (hv : ValidHistory rs) (n : ℕ) :
    Continues rs [] (nextAfter rs n) := .inr ⟨rfl, hv.lt_nextAfter n⟩

/-- At the end of its file, an incomplete rest is none. -/
theorem scanBehind_eof_iff {H : Hashing} {rs : List Record} {t : Bytes} :
    scanBehind H rs t = .eof ↔ t = [] := by
  constructor
  · exact scan_eof
  · rintro rfl
    rfl

/-- Without a failing call, what `RecoveredWith` says is what `recover` does. -/
theorem RecoveredWith.eq_recover {H : Hashing} {w : Wal} {rs : List Record} {t : Bytes}
    (hw : Contains H w.file rs t) {x : Except Failure (List Record) × Wal}
    (h : RecoveredWith H none w rs t x) : recover H w = x := by
  have hspec := recover_spec hw
  cases h with
  | corrupt failure consumed hscan =>
    rcases hspec with ⟨failure', consumed', hscan', hrecover⟩ | ⟨hscan', -⟩
    · rw [hscan] at hscan'
      cases hscan'
      exact hrecover
    · rw [hscan] at hscan'
      simp at hscan'
  | returned hscan =>
    rcases hspec with ⟨failure', consumed', hscan', -⟩ | ⟨-, hrecover⟩
    · rw [hscan'] at hscan
      simp at hscan
    · exact hrecover
  | unmoved f hf => cases hf
  | stopped f position rs' hf => cases hf
  | truncate position hf => cases hf
  | sync position hf => cases hf
  | seekEnd position hf => cases hf

/-- After a recovery that throws. -/
theorem RecoveredWith.keepsUsable {H : Hashing} {l : LogFiles} {rs : List Record} {t : Bytes}
    (hl : Contains H l.wal.file rs t) (hn : l.wal.nextSequence ≤ uint64Max)
    {fault : Option RecoverFault} {failure : Failure} {w : Wal}
    (h : RecoveredWith H fault l.wal rs t (.error failure, w))
    (hreason : fault ≠ none → recover H l.wal ≠ (.error failure, w)) :
    KeepsUsable H l { l with wal := w } ↔
      l.named = none ∧ RecoverFault.Harmless H l.wal rs t fault := by
  have hnext : nextAfter rs l.wal.nextSequence ≤ uint64Max := nextAfter_le hl.history hn
  have hwhole := contains_records H hl.history
  have hfilelen : l.wal.file.length = (header ++ encodeRecords H rs).length + t.length := by
    rw [hl.file, List.length_append]
  cases h with
  | unmoved f hf hkind =>
    rw [keepsUsable_iff_continues hl hn]
    subst hf
    rcases hkind with rfl | rfl
    · simp [RecoverFault.Harmless]
    · simp [RecoverFault.Harmless]
  | corrupt failure consumed hscan =>
    -- A failing call is not the reason.
    have hfault : fault = none := by
      by_contra hfault
      exact hreason hfault (RecoveredWith.eq_recover hl (.corrupt failure consumed hscan))
    subst hfault
    rw [keepsUsable_iff_continues (by exact hl) (by exact hnext)]
    simp only [RecoverFault.Harmless, hscan, Scan.corrupt.injEq, exists_and_right, exists_eq',
      true_and]
    constructor
    · rintro ⟨hnamed, hposition, hrest⟩
      exact ⟨hnamed, by omega, hrest⟩
    · rintro ⟨hnamed, hposition, hrest⟩
      exact ⟨hnamed, by omega, hrest⟩
  | stopped f position rs' hf hstop hall =>
    subst hf
    have hharmless : RecoverFault.Harmless H l.wal rs t (some f) ↔
        position = l.wal.file.length ∧ l.wal.nextSequence ≤ nextAfter rs l.wal.nextSequence ∧
          Continues rs t (nextAfter rs l.wal.nextSequence) := by
      cases f <;> cases hstop <;> rfl
    rw [hharmless]
    by_cases hposition : position = l.wal.file.length
    · obtain rfl := hall hposition
      rw [keepsUsable_iff_continues (by exact hl) (by exact hnext)]
    · constructor
      · rintro ⟨husable, -⟩
        exact absurd husable.position hposition
      · rintro ⟨-, h, -⟩
        exact absurd h hposition
  | truncate position hf hscan hend =>
    subst hf
    rw [keepsUsable_iff_continues (by exact hl) (by exact hnext)]
    simp only [RecoverFault.Harmless, hend]
  | sync position hf hscan hlt =>
    subst hf
    simp only [RecoverFault.Harmless, and_false, iff_false]
    rintro ⟨husable, -⟩
    exact absurd husable.position (Nat.ne_of_gt hlt)
  | seekEnd position hf hend =>
    subst hf
    rw [keepsUsable_iff_continues (by exact hwhole) (by exact hnext)]
    simp only [RecoverFault.Harmless, continues_nextAfter hl.history, and_true]
    rcases hend with ⟨hscan, hposition⟩ | ⟨hscan, hlt⟩
    · simp only [scanBehind_eof_iff.1 hscan, hposition, true_and]
    · constructor
      · rintro ⟨-, hposition, -⟩
        exact absurd hposition (Nat.ne_of_gt hlt)
      · rintro ⟨-, rfl, -⟩
        rw [scanBehind_eof_iff.2 rfl] at hscan
        cases hscan

/-- The object over a log of records, at its end and with an allocator that was not lowered, is as
good as before when its descriptor refers to the file that the path names. -/
theorem keepsUsable_records {H : Hashing} {before after : LogFiles} {rs rs' : List Record}
    (hv : ValidHistory rs) (hrs' : rs'.Sublist rs) (hn : before.wal.nextSequence ≤ uint64Max)
    (hafter : after.wal = ⟨header ++ encodeRecords H rs', (header ++ encodeRecords H rs').length,
      max (nextAfter rs before.wal.nextSequence) before.wal.nextSequence⟩) :
    KeepsUsable H before after ↔ after.named = none := by
  have hcontains : Contains H after.wal.file rs' [] := by
    rw [hafter]
    exact contains_records H (hv.sublist hrs')
  have hbounded : after.wal.nextSequence ≤ uint64Max := by
    rw [hafter]
    exact max_le (nextAfter_le hv hn) hn
  have hcontinues : Continues rs' [] after.wal.nextSequence := by
    rw [hafter]
    exact .inr ⟨rfl, fun r hr =>
      lt_of_lt_of_le (hv.lt_nextAfter _ r (hrs'.subset hr)) (le_max_left _ _)⟩
  rw [keepsUsable_iff_continues hcontains hbounded]
  have hposition : after.wal.position = after.wal.file.length := by rw [hafter]
  have hallocator : before.wal.nextSequence ≤ after.wal.nextSequence := by
    rw [hafter]
    exact le_max_right _ _
  simp only [hposition, hallocator, hcontinues, and_true]

/-- **After an exception.** A call of `recover` or `reclaimThrough` that throws leaves the object as
good as before exactly when the point at which it throws is harmless in the state before it. -/
theorem keepsUsable_iff {H : Hashing} {l : LogFiles} {rs : List Record} {t : Bytes}
    (hl : Contains H l.wal.file rs t) (hn : l.wal.nextSequence ≤ uint64Max) {c : MaintenanceCall}
    (h : c.Throws H l) : KeepsUsable H l (c.run H l).2 ↔ c.Harmless H l rs t := by
  obtain ⟨⟨failure, herror⟩, hreason⟩ := h
  cases c with
  | recover fault =>
    have hspec := recoverWith_spec hl fault
    have hclean := recoverWith_none H l.wal
    simp only [MaintenanceCall.run, MaintenanceCall.clean, MaintenanceCall.Faulty, hclean] at *
    rcases hresult : recoverWith H fault l.wal with ⟨failure' | records, w⟩
    · rw [hresult] at hspec hreason
      exact hspec.keepsUsable hl hn fun hfault heq => hreason hfault (by rw [heq])
    · rw [hresult] at herror
      cases herror
  | reclaimThrough checkpoint fault =>
    simp only [MaintenanceCall.run, MaintenanceCall.clean, MaintenanceCall.Faulty] at *
    rcases reclaimPrelude_cases hl fault with ⟨failure', w, hprelude, hspec⟩ |
      ⟨rfl, failure', hprelude⟩ | ⟨hcreate, hprelude⟩
    · -- The recovery throws.
      have hrun : Wal.reclaimThrough H checkpoint fault l =
          (.error failure', { l with wal := w }) := by
        rw [Wal.reclaimThrough, hprelude]
      have hclean : recover H l.wal = (.error failure', w) →
          Wal.reclaimThrough H checkpoint none l = (.error failure', { l with wal := w }) := by
        intro heq
        unfold Wal.reclaimThrough reclaimPrelude
        simp only [Option.bind_none, recoverWith_none, heq]
      rw [hrun] at hreason ⊢
      have hiff := hspec.keepsUsable hl hn fun hfault heq =>
        hreason (fun hnone => hfault (by rw [hnone]; rfl)) (hclean heq).symm
      rw [hiff]
      cases hf : fault with
      | none => rfl
      | some f =>
        cases f with
        | recover f => rfl
        | _ =>
          -- No call of the recovery fails, so it throws without one as well.
          rw [hf] at hspec hreason
          exact absurd (hclean (RecoveredWith.eq_recover hl hspec)).symm (hreason (by simp))
    · -- The temporary file is not created.
      have hrun : Wal.reclaimThrough H checkpoint (some .create) l =
          (.error failure', { l with wal := reclaimable H rs l.wal.nextSequence }) := by
        rw [Wal.reclaimThrough, hprelude]
      rw [hrun]
      exact keepsUsable_records hl.history (List.Sublist.refl rs) hn rfl
    · have hbody := reclaimBody_spec H checkpoint fault hl.history
        { l with wal := reclaimable H rs l.wal.nextSequence, temp := some [] }
      rw [Wal.reclaimThrough, hprelude] at herror hreason ⊢
      dsimp only at herror hreason ⊢
      generalize reclaimBody H checkpoint fault rs _ = x at hbody herror hreason ⊢
      cases hbody with
      | kept failure temp hfault =>
        have hharmless : MaintenanceCall.Harmless H l rs t (.reclaimThrough checkpoint fault) ↔
            l.named = none := by
          rcases hfault with ⟨size, rfl⟩ | rfl | rfl | rfl <;> rfl
        rw [hharmless]
        exact keepsUsable_records hl.history (List.Sublist.refl rs) hn rfl
      | replaced failure hfault =>
        have hharmless : ¬MaintenanceCall.Harmless H l rs t (.reclaimThrough checkpoint fault) := by
          rcases hfault with rfl | rfl <;> exact id
        refine iff_of_false ?_ hharmless
        rintro ⟨husable, -⟩
        exact absurd husable.descriptor (by simp)
      | switched hreopen hseek =>
        dsimp only at herror hreason ⊢
        split_ifs at herror ⊢ with hopen hsync
        · subst hopen
          refine iff_of_true ?_ trivial
          exact (keepsUsable_records hl.history List.filter_sublist hn rfl).2 rfl
        · subst hsync
          refine iff_of_true ?_ trivial
          exact (keepsUsable_records hl.history List.filter_sublist hn rfl).2 rfl

/-! ## Examples -/

/-- A log of one record, after its append. -/
def oneRecordLog (H : Hashing) : LogFiles :=
  ⟨⟨header ++ encodeRecords H [⟨0, .put, [97], [1]⟩], 28, 1⟩, none, none⟩

/-- The one record is a history. -/
theorem oneRecord_history : ValidHistory [⟨0, .put, [97], [1]⟩] :=
  ⟨by simp [Record.Writable, uint32Max], by simp [uint64Max], by simp⟩

/-- A reclamation whose `rename` fails keeps the object as good as before. -/
theorem keepsUsable_rename : KeepsUsable default (oneRecordLog default)
    ((MaintenanceCall.reclaimThrough 0 (some .rename)).run default (oneRecordLog default)).2 := by
  have hthrows : (MaintenanceCall.reclaimThrough 0 (some .rename)).Throws default
      (oneRecordLog default) := by
    refine ⟨⟨_, rfl⟩, fun _ heq => ?_⟩
    have hresult := congrArg Prod.fst heq
    cases hresult
  exact (keepsUsable_iff (contains_records default oneRecord_history) (by decide) hthrows).2 rfl

/-- The recovery that a reclamation of this log starts with. -/
theorem oneRecord_prelude (H : Hashing) {fault : Option ReclaimFault}
    (hinside : fault.bind (·.inRecovery) = none) (hcreate : fault ≠ some .create) :
    reclaimPrelude H fault (oneRecordLog H) =
      (.ok [⟨0, .put, [97], [1]⟩], { oneRecordLog H with temp := some [] }) := by
  have hrecover : recoverWith H none (oneRecordLog H).wal =
      (.ok [⟨0, .put, [97], [1]⟩], (oneRecordLog H).wal) := by
    rw [recoverWith_none]
    exact recover_records H _ oneRecord_history (tornTail_nil H) (by simp [oneRecordLog])
  unfold reclaimPrelude
  rw [hinside, hrecover]
  dsimp only
  rw [if_neg hcreate]
  rfl

/-- When the new log cannot be reopened, the descriptor stays on the file that it replaced. -/
theorem reopenFailed (H : Hashing) :
    (MaintenanceCall.reclaimThrough 0 (some .reopen)).run H (oneRecordLog H) =
      (.error (.exception "Failed to reopen WAL after reclamation"),
        { oneRecordLog H with named := some header }) := by
  show Wal.reclaimThrough H 0 (some .reopen) (oneRecordLog H) = _
  unfold Wal.reclaimThrough
  rw [oneRecord_prelude H rfl (by simp)]
  rfl

/-- Without the failure, it is moved to the new log. -/
theorem reopened (H : Hashing) :
    (MaintenanceCall.reclaimThrough 0 none).run H (oneRecordLog H) =
      (.ok (), ⟨⟨header, 5, 1⟩, none, none⟩) := by
  show Wal.reclaimThrough H 0 none (oneRecordLog H) = _
  unfold Wal.reclaimThrough
  rw [oneRecord_prelude H rfl (by simp)]
  rfl

/-- A later `put` then returns, but its record is not in the file that the path names, whatever the
hash functions are. -/
theorem reopenFailed_not_usable :
    (∀ H : Hashing,
      (MaintenanceCall.reclaimThrough 0 (some .reopen)).Throws H (oneRecordLog H)) ∧
    (∀ H : Hashing, ∃ w, put H [98] [2] none
      ((MaintenanceCall.reclaimThrough 0 (some .reopen)).run H (oneRecordLog H)).2.wal =
        (.ok 1, w)) ∧
    (∀ H : Hashing, Recovers H
      ((MaintenanceCall.reclaimThrough 0 (some .reopen)).run H (oneRecordLog H)).2.atPath []) ∧
    ∀ H : Hashing, ¬KeepsUsable H (oneRecordLog H)
      ((MaintenanceCall.reclaimThrough 0 (some .reopen)).run H (oneRecordLog H)).2 := by
  have hclean : (MaintenanceCall.reclaimThrough 0 (some .reopen)).clean = .reclaimThrough 0 none :=
    rfl
  refine ⟨fun H => ⟨⟨_, congrArg Prod.fst (reopenFailed H)⟩, fun _ => ?_⟩, fun H => ?_, fun H => ?_,
    fun H => ?_⟩
  · rw [hclean, reopenFailed H, reopened H]
    exact fun heq => nomatch congrArg Prod.fst heq
  · rw [reopenFailed H]
    exact ⟨_, rfl⟩
  · rw [reopenFailed H]
    exact ⟨_, rfl, rfl⟩
  · rw [reopenFailed H]
    rintro ⟨husable, -⟩
    exact absurd husable.descriptor (by simp)

end Kronos.Wal
