import Kronos.Wal.Reclaim

/-!
# The allocator is a 64-bit number

The allocator of a log never exceeds `UINT64_MAX`, whatever the bytes of the log are and whichever
system call fails: a recovery rejects a record with that number before it raises the allocator
behind it, and an append that finds the allocator there throws. So the numbers that the log hands
out are below it.
-/

namespace Kronos.Wal

open ByteString

/-- The allocator is a 64-bit number. -/
def Bounded (w : Wal) : Prop := w.nextSequence ≤ uint64Max

section Recovery

variable {α β : Type} {w : Wal} {fault : Option RecoverFault}

/-- Two calls in sequence keep the allocator within 64 bits when each of them does. -/
theorem bounded_andThen {x : Except Failure α × Wal} {k : α → Wal → Except Failure β × Wal}
    (hx : x.2.Bounded) (hk : ∀ a w, w.Bounded → (k a w).2.Bounded) : (andThen x k).2.Bounded := by
  obtain ⟨result, w⟩ := x
  cases result with
  | error failure => exact hx
  | ok a => exact hk a w hx

/-- A read leaves the allocator. -/
theorem bounded_readUpToWith (hw : w.Bounded) (n : ℕ) : (readUpToWith fault n w).2.Bounded := by
  unfold readUpToWith
  split
  · split_ifs
    · exact hw
    · exact hw
  · exact hw

/-- So does a query of the position. -/
theorem bounded_tellWith (hw : w.Bounded) (tell : ℕ → RecoverFault) :
    (tellWith fault tell w).2.Bounded := by
  unfold tellWith
  split_ifs
  · exact hw
  · exact hw

/-- So does the truncation of a tail. -/
theorem bounded_truncateIncompleteTailWith (hw : w.Bounded) (recordStart : ℕ) :
    (truncateIncompleteTailWith fault recordStart w).2.Bounded := by
  unfold truncateIncompleteTailWith
  split_ifs
  · exact hw
  · exact hw
  · exact hw

/-- A branch keeps the allocator within 64 bits when both cases do. -/
theorem bounded_ite {c : Prop} [Decidable c] {x y : Except Failure α × Wal} (hx : c → x.2.Bounded)
    (hy : ¬c → y.2.Bounded) : (if c then x else y).2.Bounded := by
  split_ifs with h
  · exact hx h
  · exact hy h

/-- One pass keeps the allocator bounded: a valid record has eight bytes of sequence number, which
are not all ones. -/
theorem bounded_recoverRecordWith (H : Hashing) (walFileSize : ℕ) (previousSequence : Option ℕ)
    (hw : w.Bounded) :
    (recoverRecordWith H fault walFileSize previousSequence w).2.Bounded := by
  have htruncate : ∀ {recordStart : ℕ} {w : Wal}, w.Bounded →
      (truncateIncompleteTailWith fault recordStart w).2.Bounded := fun hw =>
    bounded_truncateIncompleteTailWith hw _
  unfold recoverRecordWith
  refine bounded_andThen (bounded_tellWith hw _) fun recordStart w hw => ?_
  refine bounded_andThen (bounded_readUpToWith hw 8) fun sequenceBytes w hw => ?_
  refine bounded_ite (fun _ => hw) fun _ => ?_
  refine bounded_ite (fun _ => htruncate hw) fun hlength => ?_
  refine bounded_andThen (bounded_readUpToWith hw 1) fun operationBytes w hw => ?_
  refine bounded_ite (fun _ => htruncate hw) fun _ => ?_
  refine bounded_ite (fun _ => hw) fun _ => ?_
  refine bounded_andThen (bounded_readUpToWith hw 4) fun keyLengthBytes w hw => ?_
  refine bounded_ite (fun _ => htruncate hw) fun _ => ?_
  refine bounded_andThen (bounded_readUpToWith hw 4) fun valueLengthBytes w hw => ?_
  refine bounded_ite (fun _ => htruncate hw) fun _ => ?_
  refine bounded_andThen (bounded_tellWith hw _) fun payloadPosition w hw => ?_
  refine bounded_ite (fun _ => hw) fun _ => ?_
  refine bounded_ite (fun _ => htruncate hw) fun _ => ?_
  refine bounded_andThen (bounded_readUpToWith hw _) fun key w hw => ?_
  refine bounded_ite (fun _ => htruncate hw) fun _ => ?_
  refine bounded_andThen (bounded_readUpToWith hw _) fun value w hw => ?_
  refine bounded_ite (fun _ => htruncate hw) fun _ => ?_
  refine bounded_andThen (bounded_readUpToWith hw 4) fun checksumBytes w hw => ?_
  refine bounded_ite (fun _ => htruncate hw) fun _ => ?_
  refine bounded_ite (fun _ => hw) fun _ => ?_
  cases previousSequence.filter (ofLe sequenceBytes ≤ ·) with
  | some previous => exact hw
  | none =>
    refine bounded_ite (fun _ => hw) fun hmax => ?_
    have hlt := ofLe_lt sequenceBytes
    rw [not_not.1 hlength] at hlt
    change ofLe sequenceBytes + 1 ≤ uint64Max
    unfold uint64Max at hmax ⊢
    omega

/-- So does the loop. -/
theorem bounded_recoverLoopWith (H : Hashing) (walFileSize fuel : ℕ) :
    ∀ {previousSequence : Option ℕ} {records : List Record} {w : Wal}, w.Bounded →
      (recoverLoopWith H fault walFileSize fuel previousSequence records w).2.Bounded := by
  induction fuel with
  | zero => exact fun hw => hw
  | succ fuel ih =>
    intro previousSequence records w hw
    have hpass := @bounded_recoverRecordWith w fault H walFileSize previousSequence hw
    unfold recoverLoopWith
    generalize recoverRecordWith H fault walFileSize previousSequence w = result at hpass ⊢
    rcases result with ⟨failure | _ | r, w'⟩
    · exact hpass
    · exact hpass
    · exact ih hpass

/-- A recovery keeps the allocator bounded. -/
theorem bounded_recoverWith (H : Hashing) (hw : w.Bounded) :
    (recoverWith H fault w).2.Bounded := by
  have hloop := @bounded_recoverLoopWith fault H w.file.length (w.file.length + 1) none []
    { w with position := header.length } hw
  unfold recoverWith
  refine bounded_ite (fun _ => hw) fun _ => bounded_ite (fun _ => hw) fun _ => ?_
  dsimp only
  generalize recoverLoopWith H fault w.file.length (w.file.length + 1) none []
    { w with position := header.length } = result at hloop ⊢
  rcases result with ⟨failure | records, w'⟩
  · exact hloop
  · exact bounded_ite (fun _ => hloop) fun _ => hloop

/-- A raise to a number of 64 bits keeps it there. -/
theorem bounded_ensureNextSequenceAtLeast (hw : w.Bounded) {n : ℕ} (hn : n ≤ uint64Max) :
    (w.ensureNextSequenceAtLeast n).Bounded := by
  unfold ensureNextSequenceAtLeast
  split_ifs
  · exact hn
  · exact hw

end Recovery

/-- A reclamation keeps the allocator bounded. -/
theorem bounded_reclaimThrough (H : Hashing) (checkpoint : ℕ) (fault : Option ReclaimFault)
    {l : LogFiles} (hl : l.wal.Bounded) :
    (reclaimThrough H checkpoint fault l).2.wal.Bounded := by
  have hprelude : (reclaimPrelude H fault l).2.wal.Bounded := by
    have hrecovered := @bounded_recoverWith l.wal (fault.bind (·.inRecovery)) H hl
    unfold reclaimPrelude
    dsimp only
    generalize recoverWith H (fault.bind (·.inRecovery)) l.wal = result at hrecovered ⊢
    rcases result with ⟨failure | records, w⟩
    · exact hrecovered
    · dsimp only
      split_ifs
      · exact bounded_ensureNextSequenceAtLeast hrecovered hl
      · exact bounded_ensureNextSequenceAtLeast hrecovered hl
  have hbody : ∀ records l, l.wal.Bounded →
      (reclaimBody H checkpoint fault records l).2.wal.Bounded := by
    intro records l hl
    unfold reclaimBody
    rcases rewrite H (fault.bind (·.room)) checkpoint records with ⟨failure | _, temp⟩
    · exact hl
    · dsimp only
      split_ifs <;> exact hl
  unfold reclaimThrough
  generalize reclaimPrelude H fault l = prelude at hprelude ⊢
  rcases prelude with ⟨failure | records, l'⟩
  · exact hprelude
  · have hafter := hbody records l' hprelude
    dsimp only
    generalize reclaimBody H checkpoint fault records l' = body at hafter ⊢
    rcases body with ⟨failure | _, l''⟩
    · exact hafter
    · dsimp only
      split_ifs <;> exact hafter

/-- An append keeps the allocator bounded, and the number that it returns is below the bound. -/
theorem bounded_run (H : Hashing) (c : Call) {w : Wal} (hw : w.Bounded) :
    (c.run H w).2.Bounded ∧ ∀ sequence, (c.run H w).1 = .ok sequence → sequence < uint64Max := by
  rw [Call.run_eq]
  unfold writeRecord
  by_cases hmax : w.nextSequence = uint64Max
  · rw [if_pos hmax]
    exact ⟨hw, nofun⟩
  rw [if_neg hmax]
  have hlt : w.nextSequence < uint64Max := lt_of_le_of_ne hw hmax
  have hreturns : ∀ sequence, (Except.ok w.nextSequence : Except Failure ℕ) = .ok sequence →
      sequence < uint64Max := by
    intro sequence hsequence
    cases hsequence
    exact hlt
  dsimp only
  split_ifs
  · exact ⟨hw, nofun⟩
  cases c.fault with
  | none => exact ⟨hlt, hreturns⟩
  | some fault =>
    cases fault with
    | fsync => exact ⟨hw, nofun⟩
    | write written =>
      dsimp only
      split_ifs
      · exact ⟨hw, nofun⟩
      · exact ⟨hlt, hreturns⟩

end Kronos.Wal
