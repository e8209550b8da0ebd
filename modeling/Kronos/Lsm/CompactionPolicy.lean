import Kronos.Lsm.Manifest
import Mathlib.Data.List.Nodup

/-!
# The compaction policy

`CompactionPolicy` of `src/compaction_policy.cpp`: when a compaction should happen, and which live
SSTables take part in it. Level 0 may hold overlapping tables, and is compacted as a whole. Level 1
is the bottom level. The plan takes those of its tables that overlap the key range envelope of
level 0 (`pickCompaction_ok`).
-/

namespace Kronos

/-- `CompactionPlan`. -/
structure CompactionPlan where
  inputFiles : List SstableMetadata
  outputLevel : ℕ
  canDropTombstones : Bool
  deriving DecidableEq, Repr

/-- A `CompactionPolicy`, whose trigger is at least one. -/
structure CompactionPolicy where
  l0FileTrigger : ℕ
  trigger_pos : 0 < l0FileTrigger

namespace CompactionPolicy

/-- `BOTTOM_LEVEL`. -/
def bottomLevel : ℕ := 1

/-- The constructor. -/
def new (l0FileTrigger : ℕ) : Except Failure CompactionPolicy :=
  if h : l0FileTrigger = 0 then
    .error (.exception "L0 compaction trigger must be greater than zero")
  else .ok ⟨l0FileTrigger, Nat.pos_of_ne_zero h⟩

/-- `rangesOverlap`, for inclusive ranges. -/
def rangesOverlap (aSmallest aLargest bSmallest bLargest : Bytes) : Bool :=
  !(aLargest < bSmallest || bLargest < aSmallest)

/-- `shouldCompact`. -/
def shouldCompact (policy : CompactionPolicy) (liveFiles : List SstableMetadata) : Bool :=
  policy.l0FileTrigger ≤ liveFiles.countP (·.level = 0)

/-- The files of a level, whose ranges must be valid. -/
def filesOfLevel (level : ℕ) (message : String) (liveFiles : List SstableMetadata) :
    Except Failure (List SstableMetadata) :=
  let files := liveFiles.filter (·.level = level)
  if files.any fun f => f.smallestKey > f.largestKey then .error (.exception message)
  else .ok files

/-- The least key of some ranges, from a first one on. -/
def smallestKey (first : Bytes) (files : List SstableMetadata) : Bytes :=
  files.foldl (fun key f => min key f.smallestKey) first

/-- The greatest key of some ranges, from a first one on. -/
def largestKey (first : Bytes) (files : List SstableMetadata) : Bytes :=
  files.foldl (fun key f => max key f.largestKey) first

/-- `pickCompaction`. -/
def pickCompaction (policy : CompactionPolicy) (liveFiles : List SstableMetadata) :
    Except Failure (Option CompactionPlan) := do
  let l0Files ← filesOfLevel 0 "Invalid L0 SSTable key range" liveFiles
  if l0Files.length < policy.l0FileTrigger then .ok none
  else
    match l0Files with
    | [] => .error (.undefined "l0_files[0] of no files")
    | first :: _ => do
      let smallest := smallestKey first.smallestKey l0Files
      let largest := largestKey first.largestKey l0Files
      let l1Files ← filesOfLevel 1 "Invalid L1 SSTable key range" liveFiles
      let overlapping := l1Files.filter fun f =>
        rangesOverlap smallest largest f.smallestKey f.largestKey
      let outputLevel := 1
      .ok (some ⟨sortMetadata (l0Files ++ overlapping), outputLevel, outputLevel = bottomLevel⟩)

/-! ## What a plan takes -/

/-- Two ranges overlap when neither ends before the other begins. -/
theorem rangesOverlap_iff {aSmallest aLargest bSmallest bLargest : Bytes} :
    rangesOverlap aSmallest aLargest bSmallest bLargest = true ↔
      bSmallest ≤ aLargest ∧ aSmallest ≤ bLargest := by
  simp only [rangesOverlap, Bool.not_eq_true', Bool.or_eq_false_iff, decide_eq_false_iff_not,
    not_lt]

/-- The envelope begins no later than its first key, and than every range in it. -/
theorem smallestKey_le (files : List SstableMetadata) (first : Bytes) :
    smallestKey first files ≤ first ∧ ∀ f ∈ files, smallestKey first files ≤ f.smallestKey := by
  induction files generalizing first with
  | nil => exact ⟨le_rfl, fun f hf => absurd hf List.not_mem_nil⟩
  | cons f files ih =>
    obtain ⟨hfirst, hfiles⟩ := ih (min first f.smallestKey)
    refine ⟨hfirst.trans (min_le_left _ _), fun f' hf' => ?_⟩
    rcases List.mem_cons.1 hf' with rfl | hf'
    · exact hfirst.trans (min_le_right _ _)
    · exact hfiles f' hf'

/-- The envelope ends no earlier than its first key, and than every range in it. -/
theorem le_largestKey (files : List SstableMetadata) (first : Bytes) :
    first ≤ largestKey first files ∧ ∀ f ∈ files, f.largestKey ≤ largestKey first files := by
  induction files generalizing first with
  | nil => exact ⟨le_rfl, fun f hf => absurd hf List.not_mem_nil⟩
  | cons f files ih =>
    obtain ⟨hfirst, hfiles⟩ := ih (max first f.largestKey)
    refine ⟨(le_max_left _ _).trans hfirst, fun f' hf' => ?_⟩
    rcases List.mem_cons.1 hf' with rfl | hf'
    · exact (le_max_right _ _).trans hfirst
    · exact hfiles f' hf'

/-- What `pickCompaction` promises of a plan: an envelope of all ranges of level 0, whose files are
all inputs, and the files of level 1 that overlap it. -/
structure Selects (liveFiles : List SstableMetadata) (plan : CompactionPlan)
    (smallest largest : Bytes) : Prop where
  /-- The envelope holds every range of level 0. -/
  envelope : ∀ f ∈ liveFiles, f.level = 0 → smallest ≤ f.smallestKey ∧ f.largestKey ≤ largest
  /-- The inputs are the files of level 0 and those of level 1 that overlap the envelope. -/
  inputs : ∀ f, f ∈ plan.inputFiles ↔ f ∈ liveFiles ∧ (f.level = 0 ∨
    f.level = 1 ∧ f.smallestKey ≤ largest ∧ smallest ≤ f.largestKey)
  /-- There is an input. -/
  nonempty : plan.inputFiles ≠ []
  /-- No input is taken twice. -/
  nodup : Manifest.DistinctPaths liveFiles → Manifest.DistinctPaths plan.inputFiles
  /-- The output goes to the bottom level. -/
  outputLevel : plan.outputLevel = 1
  /-- Tombstones may be dropped there. -/
  canDropTombstones : plan.canDropTombstones = true

/-- What is selected are the files of the level. -/
theorem filesOfLevel_ok {level : ℕ} {message : String} {liveFiles files : List SstableMetadata}
    (h : filesOfLevel level message liveFiles = .ok files) :
    files = liveFiles.filter (·.level = level) := by
  unfold filesOfLevel at h
  dsimp only at h
  split_ifs at h
  exact (Except.ok.inj h).symm

/-- Live files with valid ranges are accepted. -/
theorem filesOfLevel_eq {level : ℕ} {message : String} {liveFiles : List SstableMetadata}
    (h : ∀ f ∈ liveFiles, f.smallestKey ≤ f.largestKey) :
    filesOfLevel level message liveFiles = .ok (liveFiles.filter (·.level = level)) := by
  rw [filesOfLevel]
  refine if_neg ?_
  simpa using fun f hf _ => h f hf

/-- Files of two levels, taken from files with distinct paths, have distinct paths. -/
theorem distinctPaths_levels {liveFiles : List SstableMetadata} (overlaps : SstableMetadata → Bool)
    (h : Manifest.DistinctPaths liveFiles) :
    Manifest.DistinctPaths (sortMetadata (liveFiles.filter (·.level = 0) ++
      (liveFiles.filter (·.level = 1)).filter overlaps)) := by
  rw [Manifest.distinctPaths_sortMetadata, Manifest.DistinctPaths, List.map_append]
  refine List.nodup_append.2 ⟨?_, ?_, ?_⟩
  · exact h.sublist (List.filter_sublist.map _)
  · exact h.sublist ((List.filter_sublist.trans List.filter_sublist).map _)
  · -- A path on both sides would be that of one file on two levels.
    rintro path hpath path' hpath' rfl
    obtain ⟨f, hf, rfl⟩ := List.mem_map.1 hpath
    obtain ⟨g, hg, hfg⟩ := List.mem_map.1 hpath'
    obtain ⟨hfmem, hf⟩ := List.mem_filter.1 hf
    obtain ⟨hgmem, hg⟩ := List.mem_filter.1 (List.mem_of_mem_filter hg)
    have heq : g = f := List.inj_on_of_nodup_map h hgmem hfmem hfg
    subst heq
    have hzero : g.level = 0 := by simpa using hf
    have hone : g.level = 1 := by simpa using hg
    omega

/-- What a plan takes. -/
theorem pickCompaction_ok {policy : CompactionPolicy} {liveFiles : List SstableMetadata}
    {plan : CompactionPlan} (h : policy.pickCompaction liveFiles = .ok (some plan)) :
    ∃ smallest largest, Selects liveFiles plan smallest largest := by
  unfold pickCompaction at h
  obtain ⟨l0Files, hl0, h⟩ := bind_eq_ok h
  have hl0Files := filesOfLevel_ok hl0
  by_cases hcount : l0Files.length < policy.l0FileTrigger
  · rw [if_pos hcount] at h
    cases h
  rw [if_neg hcount] at h
  cases hfirst : l0Files with
  | nil => rw [hfirst] at h; cases h
  | cons first rest =>
    rw [hfirst] at h
    obtain ⟨l1Files, hl1, h⟩ := bind_eq_ok h
    have hl1Files := filesOfLevel_ok hl1
    cases h
    rw [← hfirst, hl0Files, hl1Files]
    generalize hs : smallestKey first.smallestKey (liveFiles.filter (·.level = 0)) = smallest
    generalize hl : largestKey first.largestKey (liveFiles.filter (·.level = 0)) = largest
    refine ⟨smallest, largest, ⟨fun f hf hlevel => ?_, fun f => ?_, ?_,
      distinctPaths_levels _, rfl, rfl⟩⟩
    · have hmem : f ∈ liveFiles.filter (·.level = 0) :=
        List.mem_filter.2 ⟨hf, by simpa using hlevel⟩
      exact ⟨hs ▸ (smallestKey_le _ _).2 f hmem, hl ▸ (le_largestKey _ _).2 f hmem⟩
    · simp only [Manifest.mem_sortMetadata, List.mem_append, List.mem_filter, decide_eq_true_eq,
        rangesOverlap_iff]
      tauto
    · have hmem : first ∈ liveFiles.filter (·.level = 0) := by
        rw [← hl0Files, hfirst]
        exact .head _
      exact List.ne_nil_of_mem (Manifest.mem_sortMetadata.2 (List.mem_append_left _ hmem))

/-- Over live files with valid ranges, the policy does not throw. -/
theorem pickCompaction_returns (policy : CompactionPolicy) {liveFiles : List SstableMetadata}
    (h : ∀ f ∈ liveFiles, f.smallestKey ≤ f.largestKey) :
    ∃ plan, policy.pickCompaction liveFiles = .ok plan := by
  unfold pickCompaction
  rw [filesOfLevel_eq h, filesOfLevel_eq h]
  simp only [ok_bind]
  by_cases hcount : (liveFiles.filter (·.level = 0)).length < policy.l0FileTrigger
  · exact ⟨none, if_pos hcount⟩
  · rw [if_neg hcount]
    cases hfirst : liveFiles.filter (·.level = 0) with
    | nil => exact absurd policy.trigger_pos (by simpa [hfirst] using hcount)
    | cons first rest => exact ⟨_, rfl⟩

end CompactionPolicy

end Kronos
