import Kronos.Wal.Scan

/-!
# The recovery pass over a log

What `recover` does on a file that a run of appends left behind: a header, the encodings of records
with increasing sequence numbers, and a tail that is nothing or an incomplete record. It returns
the records, cuts the tail off, and leaves the allocator after the last record and the file
position at the end (`recover_records`). Conversely, whatever the file was, a recovery that
succeeds leaves such a file, and returns its records (`recover_ok`).
-/

namespace Kronos.Wal

/-- A history of the log: records that appends can write, with increasing sequence numbers below
`UINT64_MAX`. -/
structure ValidHistory (rs : List Record) : Prop where
  writable : ∀ r ∈ rs, r.Writable
  sequence_lt : ∀ r ∈ rs, r.sequence < uint64Max
  increasing : rs.Pairwise fun r r' => r.sequence < r'.sequence

/-- The records behind the first are a history. -/
theorem ValidHistory.tail {r : Record} {rs : List Record} (h : ValidHistory (r :: rs)) :
    ValidHistory rs :=
  ⟨fun r' h' => h.writable r' (.tail _ h'), fun r' h' => h.sequence_lt r' (.tail _ h'),
    h.increasing.of_cons⟩

/-- A record before a history extends it. -/
theorem ValidHistory.cons {r : Record} {rs : List Record} (h : ValidHistory rs) (hr : r.Writable)
    (hs : r.sequence < uint64Max) (hfirst : ∀ r' ∈ rs, r.sequence < r'.sequence) :
    ValidHistory (r :: rs) :=
  ⟨List.forall_mem_cons.2 ⟨hr, h.writable⟩, List.forall_mem_cons.2 ⟨hs, h.sequence_lt⟩,
    h.increasing.cons hfirst⟩

/-- An append extends a history. -/
theorem ValidHistory.append {rs : List Record} {r : Record} (h : ValidHistory rs)
    (hr : r.Writable) (hs : r.sequence < uint64Max)
    (hlast : ∀ r' ∈ rs, r'.sequence < r.sequence) : ValidHistory (rs ++ [r]) where
  writable r' h' := by
    rcases List.mem_append.1 h' with h' | h'
    · exact h.writable r' h'
    · rwa [List.mem_singleton.1 h']
  sequence_lt r' h' := by
    rcases List.mem_append.1 h' with h' | h'
    · exact h.sequence_lt r' h'
    · rwa [List.mem_singleton.1 h']
  increasing := by
    rw [List.pairwise_append]
    exact ⟨h.increasing, List.pairwise_singleton _ _,
      fun r' h' r'' h'' => by rw [List.mem_singleton.1 h'']; exact hlast r' h'⟩

/-- A part of a history is one. -/
theorem ValidHistory.sublist {rs rs' : List Record} (h : ValidHistory rs)
    (hsub : rs'.Sublist rs) : ValidHistory rs' :=
  ⟨fun r h' => h.writable r (hsub.subset h'), fun r h' => h.sequence_lt r (hsub.subset h'),
    h.increasing.sublist hsub⟩

/-- No records have no bytes. -/
@[simp] theorem encodeRecords_nil (H : Hashing) : encodeRecords H [] = [] := rfl

/-- The bytes of a record come before those of the records behind it. -/
@[simp] theorem encodeRecords_cons (H : Hashing) (r : Record) (rs : List Record) :
    encodeRecords H (r :: rs) = encodeRecord H r ++ encodeRecords H rs := rfl

/-- The bytes of two histories are those of the second behind those of the first. -/
@[simp] theorem encodeRecords_append (H : Hashing) (rs rs' : List Record) :
    encodeRecords H (rs ++ rs') = encodeRecords H rs ++ encodeRecords H rs' := by
  simp [encodeRecords]

/-- The encoding of a list of records is at least as long as the list. -/
theorem length_le_encodeRecords (H : Hashing) (rs : List Record) :
    rs.length ≤ (encodeRecords H rs).length := by
  induction rs with
  | nil => rfl
  | cons r rs ih =>
    simp only [encodeRecords_cons, List.length_append, List.length_cons, length_encodeRecord,
      recordLength]
    omega

/-- The allocator after the records `rs` of a recovery that found it at `n`. -/
def nextAfter (rs : List Record) (n : ℕ) : ℕ := rs.getLast?.elim n (·.sequence + 1)

/-- Without a record the allocator stays. -/
@[simp] theorem nextAfter_nil (n : ℕ) : nextAfter [] n = n := rfl

/-- The first record sets it to the number behind its own. -/
@[simp] theorem nextAfter_cons (r : Record) (rs : List Record) (n : ℕ) :
    nextAfter (r :: rs) n = nextAfter rs (r.sequence + 1) := by
  cases rs with
  | nil => rfl
  | cons r' rs => simp [nextAfter, List.getLast?_cons]

/-- The allocator after a recovery does not depend on where an earlier recovery left it. -/
@[simp] theorem nextAfter_nextAfter (rs : List Record) (n : ℕ) :
    nextAfter rs (nextAfter rs n) = nextAfter rs n := by
  unfold nextAfter
  cases rs.getLast? <;> rfl

/-- The allocator is left after every record of a history. -/
theorem ValidHistory.lt_nextAfter {rs : List Record} (h : ValidHistory rs) (n : ℕ) :
    ∀ r ∈ rs, r.sequence < nextAfter rs n := by
  intro r hr
  rcases List.eq_nil_or_concat' rs with rfl | ⟨front, last, rfl⟩
  · simp at hr
  · have hnext : nextAfter (front ++ [last]) n = last.sequence + 1 := by simp [nextAfter]
    rw [hnext]
    rcases List.mem_append.1 hr with hr | hr
    · exact Nat.lt_succ_of_lt ((List.pairwise_append.1 h.increasing).2.2 r hr last (.head _))
    · rw [List.mem_singleton.1 hr]
      exact Nat.lt_succ_self _

/-- The allocator stays in its range. -/
theorem nextAfter_le {rs : List Record} (h : ValidHistory rs) {n : ℕ} (hn : n ≤ uint64Max) :
    nextAfter rs n ≤ uint64Max := by
  unfold nextAfter
  cases hlast : rs.getLast? with
  | none => exact hn
  | some r => exact h.sequence_lt r (List.mem_of_getLast? hlast)

/-- The object that a recovery leaves behind on a log with the records `rs`. -/
def recovered (H : Hashing) (rs : List Record) (n : ℕ) : Wal :=
  ⟨header ++ encodeRecords H rs, (header ++ encodeRecords H rs).length, nextAfter rs n⟩

/-! ## Construction -/

/-- A file with a header is opened as it is. -/
theorem construct_of_header {file : Bytes} (h : header <+: file) :
    construct (some file) = .ok ⟨file, file.length, 0⟩ := by
  obtain ⟨body, rfl⟩ := h
  rfl

/-- What is opened has a header, and an allocator that starts from zero. -/
theorem construct_ok {file : Option Bytes} {w : Wal} (h : construct file = .ok w) :
    header <+: w.file ∧ w.nextSequence = 0 := by
  cases file with
  | none =>
    cases h
    exact ⟨List.prefix_rfl, rfl⟩
  | some file =>
    unfold construct at h
    dsimp only at h
    split_ifs at h with h1 h2 h3 h4
    cases h
    refine ⟨⟨file.drop 5, ?_⟩, rfl⟩
    rw [header, ← not_not.1 h2, ← not_not.1 h4, ← List.take_add, List.take_append_drop]

/-! ## One pass -/

/-- The pass on a complete record. -/
theorem recoverRecord_of_record {H : Hashing} {previousSequence : Option ℕ} {w : Wal} {r : Record}
    (hp : w.position ≤ w.file.length) (h : scan H previousSequence w.remaining = .record r) :
    recoverRecord H w.file.length previousSequence w =
      (.ok (some r), { w.advance (recordLength r.key.length r.value.length) with
        nextSequence := r.sequence + 1 }) := by
  have hpass := recoverRecord_eq H previousSequence w hp
  rw [h] at hpass
  exact hpass.eq_of_record

/-- The pass that ends the loop. -/
theorem recoverRecord_of_end {H : Hashing} {previousSequence : Option ℕ} {w : Wal}
    (hp : w.position ≤ w.file.length)
    (h : scan H previousSequence w.remaining =
      if w.remaining.length = 0 then .eof else .torn) :
    ∃ position, recoverRecord H w.file.length previousSequence w =
      (.ok none, { w with file := w.file.take w.position, position := position }) := by
  have hpass := recoverRecord_eq H previousSequence w hp
  rw [h] at hpass
  split_ifs at hpass with h0
  · refine ⟨w.position, ?_⟩
    have hlen : w.file.length - w.position = 0 := by
      simpa only [remaining, List.length_drop] using h0
    rw [hpass.eq_of_eof, List.take_of_length_le (by omega)]
  · exact hpass.eq_of_torn

/-! ## The loop -/

/-- Bytes that no record is found in, and no corruption: nothing, or an incomplete record. -/
def TornTail (H : Hashing) (t : Bytes) : Prop :=
  ∀ previousSequence, scan H previousSequence t = if t.length = 0 then .eof else .torn

/-- Nothing is a tail that recovery drops. -/
theorem tornTail_nil (H : Hashing) : TornTail H [] := fun _ => rfl

/-- A proper prefix of the encoding of a record is a torn tail. -/
theorem tornTail_of_prefix {H : Hashing} {r : Record} {t : Bytes} (hr : r.Writable)
    (hs : r.sequence ≤ uint64Max) (ht : t <+: encodeRecord H r)
    (hlt : t.length < (encodeRecord H r).length) : TornTail H t :=
  fun previousSequence => scan_prefix H previousSequence r t hr hs ht hlt

/-- The loop of `recover`, from a file position on which records and a torn tail follow. -/
theorem recoverLoop_records (H : Hashing) (t : Bytes) (ht : TornTail H t) (rs : List Record) :
    ∀ (pre : Bytes) (fuel : ℕ) (previousSequence : Option ℕ) (records : List Record) (n : ℕ),
      ValidHistory rs → (∀ previous ∈ previousSequence, ∀ r ∈ rs, previous < r.sequence) →
      rs.length < fuel →
      ∃ position,
      recoverLoop H (pre ++ encodeRecords H rs ++ t).length fuel previousSequence records
          ⟨pre ++ encodeRecords H rs ++ t, pre.length, n⟩ =
        (.ok (records ++ rs), ⟨pre ++ encodeRecords H rs, position, nextAfter rs n⟩) := by
  induction rs with
  | nil =>
    intro pre fuel previousSequence records n _ _ hfuel
    obtain ⟨fuel, rfl⟩ := Nat.exists_eq_add_of_lt hfuel
    have hrem : remaining ⟨pre ++ encodeRecords H [] ++ t, pre.length, n⟩ = t := by
      simp [remaining]
    have hscan := ht previousSequence
    rw [← hrem] at hscan
    obtain ⟨position, hpass⟩ := recoverRecord_of_end (by simp) hscan
    refine ⟨position, ?_⟩
    rw [recoverLoop, hpass]
    simp
  | cons r rs ih =>
    intro pre fuel previousSequence records n hv hprev hfuel
    obtain ⟨fuel, rfl⟩ := Nat.exists_eq_add_of_lt hfuel
    have hrem : remaining ⟨pre ++ encodeRecords H (r :: rs) ++ t, pre.length, n⟩ =
        encodeRecord H r ++ (encodeRecords H rs ++ t) := by
      simp [remaining]
    have hr := hv.writable r (.head _)
    have hs := hv.sequence_lt r (.head _)
    have hfilter : previousSequence.filter (r.sequence ≤ ·) = none := by
      rw [Option.filter_eq_none_iff]
      intro previous h
      simpa using hprev previous h r (.head _)
    have hscan : scan H previousSequence
        (remaining ⟨pre ++ encodeRecords H (r :: rs) ++ t, pre.length, n⟩) = .record r := by
      rw [hrem, scan_encodeRecord H _ r _ hr hs.le, hfilter]
      simp only [if_neg hs.ne]
    have hpass := recoverRecord_of_record (by simp) hscan
    -- The rest of the loop runs with the record moved into the part already read.
    obtain ⟨position, hrest⟩ :=
      ih (pre ++ encodeRecord H r) (rs.length + fuel + 1) (some r.sequence)
      (records ++ [r]) (r.sequence + 1) hv.tail
      (fun previous h r' h' => by
        rw [← Option.mem_some.1 h]
        exact List.rel_of_pairwise_cons hv.increasing h') (by omega)
    refine ⟨position, ?_⟩
    rw [List.length_cons, show rs.length + 1 + fuel + 1 = rs.length + fuel + 1 + 1 by omega,
      recoverLoop, hpass]
    simp only [advance, nextAfter_cons, encodeRecords_cons] at hrest ⊢
    simpa [List.append_assoc] using hrest

/-- The loop of `recover`, when it succeeds: from the file position on, it found the records that
it returns, and cut off the rest. -/
theorem recoverLoop_ok (H : Hashing) (fuel : ℕ) :
    ∀ (previousSequence : Option ℕ) (records records' : List Record) (w w' : Wal),
      w.position ≤ w.file.length →
      recoverLoop H w.file.length fuel previousSequence records w = (.ok records', w') →
      ∃ rs, records' = records ++ rs ∧ ValidHistory rs ∧
        (∀ previous ∈ previousSequence, ∀ r ∈ rs, previous < r.sequence) ∧
        w'.file = w.file.take w.position ++ encodeRecords H rs ∧
        w'.nextSequence = nextAfter rs w.nextSequence := by
  induction fuel with
  | zero =>
    intro previousSequence records records' w w' _ h
    cases h
  | succ fuel ih =>
    intro previousSequence records records' w w' hp h
    have hpass := recoverRecord_eq H previousSequence w hp
    rw [recoverLoop] at h
    cases hscan : scan H previousSequence w.remaining with
    | eof =>
      have hlen : w.file.length - w.position = 0 := by
        simpa only [remaining, List.drop_eq_nil_iff, Nat.sub_eq_zero_iff_le] using scan_eof hscan
      rw [hscan] at hpass
      rw [hpass.eq_of_eof] at h
      cases h
      refine ⟨[], by simp, ⟨by simp, by simp, .nil⟩, by simp, ?_, rfl⟩
      rw [List.take_of_length_le (by omega), encodeRecords_nil, List.append_nil]
    | torn =>
      rw [hscan] at hpass
      obtain ⟨position, hpass⟩ := hpass.eq_of_torn
      rw [hpass] at h
      cases h
      exact ⟨[], by simp, ⟨by simp, by simp, .nil⟩, by simp, by simp, rfl⟩
    | record r =>
      rw [hscan] at hpass
      rw [hpass.eq_of_record] at h
      obtain ⟨⟨post, hpost⟩, hr, hs, hprev⟩ := scan_record hscan
      -- The record moves into the part already read.
      have hread : w.file.take (w.position + recordLength r.key.length r.value.length) =
          w.file.take w.position ++ encodeRecord H r := by
        rw [List.take_add, ← remaining, hpost, List.take_left' (length_encodeRecord H r)]
      have hfits := congrArg List.length hread
      obtain ⟨rs, hrecords, hv, hseq, hkept, halloc⟩ := ih (some r.sequence) (records ++ [r])
        records' { w.advance (recordLength r.key.length r.value.length) with
          nextSequence := r.sequence + 1 } w' (by
            simp only [List.length_take, List.length_append, length_encodeRecord] at hfits
            simp only [advance_position, advance_file]
            omega) h
      refine ⟨r :: rs, by simpa using hrecords, hv.cons hr hs fun r' h' => hseq _ rfl r' h', ?_, ?_,
        by simpa using halloc⟩
      · intro previous h' r' hr'
        rcases List.mem_cons.1 hr' with rfl | hr'
        · exact hprev previous h'
        · exact (hprev previous h').trans (hseq _ rfl r' hr')
      · simp only [advance_file, advance_position] at hkept
        rw [hkept, hread, encodeRecords_cons, List.append_assoc]
    | corrupt failure consumed =>
      rw [hscan] at hpass
      rw [hpass.eq_of_corrupt] at h
      cases h

/-! ## Recovery -/

/-- Recovery over a header, records and a torn tail returns the records, cuts the tail off, and
restores the allocator and the file position. -/
theorem recover_records (H : Hashing) {rs : List Record} {t : Bytes} (w : Wal)
    (hv : ValidHistory rs) (ht : TornTail H t) (hw : w.file = header ++ encodeRecords H rs ++ t) :
    recover H w = (.ok rs, recovered H rs w.nextSequence) := by
  have hfuel : rs.length < w.file.length + 1 := by
    have := length_le_encodeRecords H rs
    rw [hw, List.length_append, List.length_append]
    omega
  obtain ⟨position, hloop⟩ := recoverLoop_records H t ht rs header (w.file.length + 1) none []
    w.nextSequence hv (by simp) hfuel
  rw [← hw] at hloop
  unfold recover
  dsimp only
  rw [hloop]
  rfl

/-- A recovery that succeeds, over a file with a header, leaves the header and the records that it
returns. -/
theorem recover_ok {H : Hashing} {w w' : Wal} {rs : List Record} (hheader : header <+: w.file)
    (h : recover H w = (.ok rs, w')) :
    ValidHistory rs ∧ w' = recovered H rs w.nextSequence := by
  unfold recover at h
  dsimp only at h
  split at h
  case h_2 => cases h
  case h_1 records w'' hloop =>
  obtain ⟨rs', hrecords, hv, -, hfile, hnext⟩ := recoverLoop_ok H _ none [] records
    { w with position := header.length } w'' hheader.length_le hloop
  obtain ⟨body, hbody⟩ := hheader
  rw [List.nil_append] at hrecords
  subst hrecords
  cases h
  have hfile' : w''.file = header ++ encodeRecords H rs := by
    rw [hfile, ← hbody, List.take_left' rfl]
  exact ⟨hv, by rw [recovered, ← hfile', ← hnext]⟩

end Kronos.Wal
