import Kronos.Lsm.Store
import Kronos.Wal.Reclaim

/-!
# Opening the engine

`KronosEngine::recover` of `src/engine.cpp`, which the constructor calls before it starts the
maintenance worker. The live SSTables are opened, the log is recovered, the records behind the
MANIFEST's checkpoint are applied to the active Memtable, and the sequence allocator is raised
behind the checkpoint.

A record at or below the checkpoint does not reach the Memtable, so a reclamation through a
checkpoint that the MANIFEST has reached changes nothing that a later recovery rebuilds
(`reclaimThrough_survivors`).
-/

namespace Kronos.KronosEngine

variable {F R : Type}

/-- `validateManifestSstables`. -/
def validateManifestSstables (fmt : TableFormat F R) (s : Store F) : Except Failure Unit :=
  s.manifest.liveFiles.forM fun metadata => do
    if !s.fileExists metadata.path then
      .error (.exception ("MANIFEST references a missing SSTable: " ++ metadata.path.string))
    else
      let _ ← s.openSstable fmt metadata.path
      .ok ()

/-- The operation of a recovered record, on the active Memtable. -/
def applyRecord (active : Memtable) (r : Record) : Except Failure Memtable :=
  if r.operation = .put then
    match active.put r.key r.value r.sequence with
    | (.success, active) => .ok active
    | _ => .error (.exception "Active Memtable rejected recovered WAL PUT")
  else if r.operation = .delete then
    match active.remove r.key r.sequence with
    | (.success, active) => .ok active
    | _ => .error (.exception "Active Memtable rejected recovered WAL DELETE")
  else .error (.exception "WAL recovery produced an invalid operation")

/-- The loop of `recover` over the records of the log. -/
def replay (checkpoint : Option ℕ) :
    Option ℕ → List Record → Memtable → Except Failure Memtable
  | _, [], active => .ok active
  | previousSequence, r :: rs, active =>
    if previousSequence.any (r.sequence ≤ ·) then
      .error (.exception "WAL recovery found non-increasing sequence numbers")
    else if r.sequence = uint64Max then .error (.exception "WAL sequence space exhausted")
    else if checkpoint.any (r.sequence ≤ ·) then replay checkpoint (some r.sequence) rs active
    else applyRecord active r >>= replay checkpoint (some r.sequence) rs

/-- `recover`. -/
def recover (H : Hashing) (fmt : TableFormat F R) (s : Store F) (wal : Wal) (active : Memtable) :
    Except Failure (Memtable × Wal) := do
  validateManifestSstables fmt s
  match wal.recover H with
  | (.error failure, _) => .error failure
  | (.ok records, wal) =>
    let active ← replay s.manifest.persistedThrough none records active
    match s.manifest.persistedThrough with
    | none => .ok (active, wal)
    | some checkpoint =>
      if checkpoint = uint64Max then .error (.exception "WAL sequence space exhausted")
      else .ok (active, wal.ensureNextSequenceAtLeast (checkpoint + 1))

/-- The state that a construction over a directory starts from: a new Memtable, and the log. -/
def start (H : Hashing) (fmt : TableFormat F R) (s : Store F) (log : Option Bytes)
    (memtableTargetBytes : ℕ) : Except Failure (Memtable × Wal) := do
  let wal ← Wal.construct log
  recover H fmt s wal (.new memtableTargetBytes)

/-! ## What a recovery applies -/

/-- The records that are newer than the checkpoint. -/
def newerThan (checkpoint : Option ℕ) (rs : List Record) : List Record :=
  rs.filter fun r => !checkpoint.any (r.sequence ≤ ·)

/-- A recovery applies the records of the log that are newer than the checkpoint, in order. -/
theorem replay_eq (checkpoint : Option ℕ) {rs : List Record} (hv : Wal.ValidHistory rs) :
    ∀ (previousSequence : Option ℕ) (active : Memtable),
      (∀ previous ∈ previousSequence, ∀ r ∈ rs, previous < r.sequence) →
      replay checkpoint previousSequence rs active =
        (newerThan checkpoint rs).foldlM applyRecord active := by
  induction rs with
  | nil => exact fun _ _ _ => rfl
  | cons r rs ih =>
    intro previousSequence active hprevious
    have hlater : ∀ previous ∈ some r.sequence, ∀ r' ∈ rs, previous < r'.sequence := by
      intro previous h r' hr'
      rw [← Option.mem_some.1 h]
      exact List.rel_of_pairwise_cons hv.increasing hr'
    have hincreasing : ¬previousSequence.any (r.sequence ≤ ·) := by
      cases previousSequence with
      | none => simp
      | some previous => simpa using hprevious previous rfl r (.head _)
    unfold replay
    rw [if_neg hincreasing, if_neg (hv.sequence_lt r (.head _)).ne]
    split_ifs with hold
    · have hskip : newerThan checkpoint (r :: rs) = newerThan checkpoint rs :=
        List.filter_cons_of_neg (by simpa using hold)
      rw [ih hv.tail _ _ hlater, hskip]
    · have hkeep : newerThan checkpoint (r :: rs) = r :: newerThan checkpoint rs :=
        List.filter_cons_of_pos (by simpa using hold)
      rw [hkeep, List.foldlM_cons]
      congr 1
      funext active'
      exact ih hv.tail _ _ hlater

/-- Records that a reclamation drops are none that a recovery applies, once the MANIFEST has
reached its checkpoint. -/
theorem newerThan_survivors {checkpoint persistedThrough : ℕ} (h : checkpoint ≤ persistedThrough)
    (rs : List Record) :
    newerThan (some persistedThrough) (Wal.survivors checkpoint rs) =
      newerThan (some persistedThrough) rs := by
  unfold newerThan Wal.survivors
  rw [List.filter_filter]
  refine List.filter_congr fun r _ => ?_
  rw [Bool.eq_iff_iff]
  simp only [Option.any_some, Bool.and_eq_true, Bool.not_eq_true', decide_eq_false_iff_not,
    decide_eq_true_eq]
  omega

/-- The allocator behind the records of a history that the checkpoint covers. -/
theorem nextAfter_survivors {checkpoint persistedThrough : ℕ} (h : checkpoint ≤ persistedThrough)
    {rs : List Record} (hv : Wal.ValidHistory rs) :
    max (Wal.nextAfter (Wal.survivors checkpoint rs) 0) (persistedThrough + 1) =
      max (Wal.nextAfter rs 0) (persistedThrough + 1) := by
  rcases List.eq_nil_or_concat' rs with rfl | ⟨front, last, rfl⟩
  · rfl
  have hfront : ∀ r ∈ front, r.sequence < last.sequence := fun r hr =>
    (List.pairwise_append.1 hv.increasing).2.2 r hr last (.head _)
  have hlast : Wal.nextAfter (front ++ [last]) 0 = last.sequence + 1 := by simp [Wal.nextAfter]
  rcases Nat.lt_or_ge checkpoint last.sequence with hlt | hge
  · have hkeep : Wal.survivors checkpoint (front ++ [last]) =
        Wal.survivors checkpoint front ++ [last] := by
      simp [Wal.survivors, hlt]
    rw [hkeep, hlast]
    simp [Wal.nextAfter]
  · have hdrop : Wal.survivors checkpoint (front ++ [last]) = [] := by
      refine List.filter_eq_nil_iff.2 fun r hr => ?_
      rcases List.mem_append.1 hr with hr | hr
      · simpa using ((hfront r hr).trans_le hge).le
      · rw [List.mem_singleton.1 hr]
        simpa using hge
    rw [hdrop, hlast, Wal.nextAfter_nil]
    omega

/-- What a construction starts from, over the log of a history with a torn tail. -/
theorem start_torn (H : Hashing) (fmt : TableFormat F R) (s : Store F) {rs : List Record}
    {t : Bytes} (hv : Wal.ValidHistory rs) (ht : Wal.TornTail H t) (memtableTargetBytes : ℕ) :
    start H fmt s (some (Wal.header ++ Wal.encodeRecords H rs ++ t)) memtableTargetBytes =
      (do
        validateManifestSstables fmt s
        let active ← (newerThan s.manifest.persistedThrough rs).foldlM applyRecord
          (.new memtableTargetBytes)
        match s.manifest.persistedThrough with
        | none => .ok (active, Wal.recovered H rs 0)
        | some checkpoint =>
          if checkpoint = uint64Max then .error (.exception "WAL sequence space exhausted")
          else
            .ok (active, (Wal.recovered H rs 0).ensureNextSequenceAtLeast (checkpoint + 1))) := by
  have hrecover := Wal.recover_records H ⟨Wal.header ++ Wal.encodeRecords H rs ++ t,
    (Wal.header ++ Wal.encodeRecords H rs ++ t).length, 0⟩ hv ht rfl
  have hprefix : Wal.header <+: Wal.header ++ Wal.encodeRecords H rs ++ t := by
    rw [List.append_assoc]
    exact List.prefix_append _ _
  unfold start
  rw [Wal.construct_of_header hprefix, ok_bind]
  unfold recover
  rw [hrecover]
  dsimp only
  rw [replay_eq _ hv none _ (by simp)]

/-- The same, over a log of complete records. -/
theorem start_eq (H : Hashing) (fmt : TableFormat F R) (s : Store F) {rs : List Record}
    (hv : Wal.ValidHistory rs) (memtableTargetBytes : ℕ) :
    start H fmt s (some (Wal.header ++ Wal.encodeRecords H rs)) memtableTargetBytes =
      (do
        validateManifestSstables fmt s
        let active ← (newerThan s.manifest.persistedThrough rs).foldlM applyRecord
          (.new memtableTargetBytes)
        match s.manifest.persistedThrough with
        | none => .ok (active, Wal.recovered H rs 0)
        | some checkpoint =>
          if checkpoint = uint64Max then .error (.exception "WAL sequence space exhausted")
          else
            .ok (active, (Wal.recovered H rs 0).ensureNextSequenceAtLeast (checkpoint + 1))) := by
  have htorn := start_torn H fmt s hv (Wal.tornTail_nil H) memtableTargetBytes
  rwa [List.append_nil] at htorn

/-- The part of the starting state that later calls can see. -/
def visible (x : Memtable × Wal) : Memtable × ℕ := (x.1, x.2.nextSequence)

/-- An engine starts in the same state from a log and from its survivors, once the MANIFEST has
reached the checkpoint. -/
theorem start_survivors (H : Hashing) (fmt : TableFormat F R) (s : Store F) {rs : List Record}
    (hv : Wal.ValidHistory rs) (memtableTargetBytes : ℕ) {checkpoint persistedThrough : ℕ}
    (hmanifest : s.manifest.persistedThrough = some persistedThrough)
    (hle : checkpoint ≤ persistedThrough) :
    (start H fmt s (some (Wal.header ++ Wal.encodeRecords H (Wal.survivors checkpoint rs)))
        memtableTargetBytes).map visible =
      (start H fmt s (some (Wal.header ++ Wal.encodeRecords H rs))
        memtableTargetBytes).map visible := by
  rw [start_eq H fmt s hv, start_eq H fmt s (hv.survivors checkpoint), hmanifest,
    newerThan_survivors hle]
  -- The allocator ends behind the log and behind the checkpoint.
  have hnext : ∀ rs, ((Wal.recovered H rs 0).ensureNextSequenceAtLeast
      (persistedThrough + 1)).nextSequence =
        max (Wal.nextAfter rs 0) (persistedThrough + 1) := by
    intro rs
    unfold Wal.ensureNextSequenceAtLeast Wal.recovered
    dsimp only
    split_ifs with h
    · exact (max_eq_right h.le).symm
    · exact (max_eq_left (Nat.not_lt.1 h)).symm
  -- Both openings do the same from here on.
  cases validateManifestSstables fmt s with
  | error failure => rfl
  | ok _ =>
    simp only [ok_bind]
    cases (newerThan (some persistedThrough) rs).foldlM applyRecord (.new memtableTargetBytes) with
    | error failure => rfl
    | ok active =>
      simp only [ok_bind]
      split_ifs
      · rfl
      · simp only [Except.map, visible, hnext, nextAfter_survivors hle hv]

/-- **Reclamation.** Over a log of complete records, a reclamation through a checkpoint that returns
leaves under the path exactly the header and the encodings of the records behind the checkpoint.
The allocator is not lowered, and is behind every old record. Later calls append behind the
survivors, with larger sequence numbers than all old records had. Whatever point of the rewrite a
crash comes at, and when there is none, an engine whose MANIFEST has reached the checkpoint starts
with the same Memtable and the same allocator as from the old log. -/
theorem reclaimThrough_survivors {H : Hashing} {rs : List Record} (hv : Wal.ValidHistory rs)
    {l l' : LogFiles} (hfile : l.wal.file = Wal.header ++ Wal.encodeRecords H rs)
    (hnamed : l.named = none) (hbounded : l.wal.nextSequence ≤ uint64Max) {checkpoint : ℕ}
    {fault : Option Wal.ReclaimFault}
    (hreturn : Wal.reclaimThrough H checkpoint fault l = (.ok (), l')) :
    l'.atPath = Wal.header ++ Wal.encodeRecords H (rs.filter (checkpoint < ·.sequence)) ∧
      l'.named = none ∧ l.wal.nextSequence ≤ l'.wal.nextSequence ∧
      (∀ r ∈ rs, r.sequence < l'.wal.nextSequence) ∧
      (∀ calls : List Wal.Call, (∀ c ∈ calls, c.fault = none) →
        let (results, w) := Wal.runCalls H calls l'.wal
        w.file = l'.atPath ++ Wal.encodeRecords H (Wal.acknowledged results) ∧
          Wal.ValidHistory (Wal.acknowledged results) ∧
          ∀ r ∈ rs, ∀ r' ∈ Wal.acknowledged results, r.sequence < r'.sequence) ∧
      ∀ (F R : Type) (fmt : TableFormat F R) (s : Store F) (memtableTargetBytes : ℕ)
        (persistedThrough : ℕ), s.manifest.persistedThrough = some persistedThrough →
        checkpoint ≤ persistedThrough →
        (start H fmt s (some l'.atPath) memtableTargetBytes).map visible =
            (start H fmt s (some l.atPath) memtableTargetBytes).map visible ∧
          ∀ point, (start H fmt s (some (Wal.reclaimCrash H checkpoint point l).atPath)
              memtableTargetBytes).map visible =
            (start H fmt s (some l.atPath) memtableTargetBytes).map visible := by
  have hcontains : Wal.Contains H l.wal.file rs [] := by
    rw [hfile]
    exact Wal.contains_records H hv
  obtain rfl := Wal.reclaimThrough_ok hcontains hreturn
  have hend := Wal.atEnd_reclaimed H hv checkpoint hbounded
  have hnew : LogFiles.atPath ⟨Wal.reclaimed H checkpoint rs l.wal.nextSequence, none, none⟩ =
      Wal.header ++ Wal.encodeRecords H (Wal.survivors checkpoint rs) := rfl
  have hold : l.atPath = Wal.header ++ Wal.encodeRecords H rs := by
    rw [LogFiles.atPath, hnamed, Option.getD_none, hfile]
  have hfresh : ∀ r ∈ rs, r.sequence <
      (Wal.reclaimed H checkpoint rs l.wal.nextSequence).nextSequence := fun r hr =>
    lt_of_lt_of_le (hv.lt_nextAfter _ r hr) (le_max_left _ _)
  refine ⟨rfl, rfl, le_max_right _ _, hfresh, fun calls hcalls => ?_,
    fun F R fmt s memtableTargetBytes persistedThrough hmanifest hle => ⟨?_, fun point => ?_⟩⟩
  · -- Later appends go behind the survivors, with numbers above all that were given.
    have hrun := hend.runCalls_synced calls hcalls
    have hle := Wal.nextSequence_le_of_acknowledged H calls hcalls hend.position
    obtain ⟨t, hrunfile, -, ht⟩ := hrun.file
    obtain rfl : t = [] := ht.resolve_left (by simp)
    refine ⟨?_, hrun.history.sublist (List.sublist_append_right _ _), fun r hr r' hr' =>
      (hfresh r hr).trans_le (hle r' hr')⟩
    rw [hrunfile, hnew, Wal.encodeRecords_append, List.append_nil, List.append_assoc]
  · rw [hnew, hold]
    exact start_survivors H fmt s hv memtableTargetBytes hmanifest hle
  · -- A crash leaves the old file, or the survivors.
    rcases Wal.reclaimCrash_atPath checkpoint point hcontains hnamed with h | h | h
    · rw [h, hold, hfile]
    · rw [h, hold]
    · rw [h, hold]
      exact start_survivors H fmt s hv memtableTargetBytes hmanifest hle

/-- Two records, of which the first is reclaimed, in a log whose allocator is ahead of it. -/
theorem reclaimThrough_survivors_two :
    ∃ l' : LogFiles,
      Wal.reclaimThrough default 3 none
        ⟨⟨Wal.header ++ Wal.encodeRecords default [⟨3, .put, [97], [1]⟩, ⟨4, .delete, [97], []⟩],
          50, 9⟩, none, none⟩ = (.ok (), l') ∧
      l'.atPath = Wal.header ++ Wal.encodeRecords default [⟨4, .delete, [97], []⟩] ∧
      l'.wal.nextSequence = 9 := by
  have hv : Wal.ValidHistory [⟨3, .put, [97], [1]⟩, ⟨4, .delete, [97], []⟩] :=
    ⟨by simp [Record.Writable, uint32Max], by simp [uint64Max], by simp⟩
  have hreturn : Wal.reclaimThrough default 3 none
      ⟨⟨Wal.header ++ Wal.encodeRecords default [⟨3, .put, [97], [1]⟩, ⟨4, .delete, [97], []⟩],
        50, 9⟩, none, none⟩ =
      (.ok (), ⟨⟨Wal.header ++ Wal.encodeRecords default [⟨4, .delete, [97], []⟩], 27, 9⟩,
        none, none⟩) := by rfl
  have h := reclaimThrough_survivors hv rfl rfl (by decide) hreturn
  exact ⟨_, hreturn, h.1, rfl⟩

end Kronos.KronosEngine
