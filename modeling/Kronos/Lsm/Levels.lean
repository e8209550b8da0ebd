import Kronos.Lsm.Operations

/-!
# The levels

The invariant of the two levels (`TwoLevels`): there is no third one, and the ranges of level 1 are
apart. A plan takes every file of level 1 that meets the envelope of level 0, so that a file that it
leaves lies on one side of all that it takes (`Selects.beside`). This keeps the output of a
compaction apart from the files that stay, and closes the plan under overlap (`Selects.closed`).
-/

namespace Kronos

/-- The ranges of two files do not meet. -/
def SstableMetadata.Apart (f g : SstableMetadata) : Prop :=
  f.largestKey < g.smallestKey ∨ g.largestKey < f.smallestKey

/-- Two ranges that do not meet do not meet either way round. -/
theorem SstableMetadata.Apart.symm {f g : SstableMetadata} (h : f.Apart g) : g.Apart f := Or.symm h

/-- Files that are apart have no key in common. -/
theorem SstableMetadata.Apart.not_covers {f g : SstableMetadata} (h : f.Apart g) {key : Bytes}
    (hf : f.Covers key) : ¬g.Covers key := by
  rintro ⟨hsmallest, hlargest⟩
  rcases h with h | h
  · exact absurd (hf.2.trans_lt (h.trans_le hsmallest)) (lt_irrefl key)
  · exact absurd (hlargest.trans_lt (h.trans_le hf.1)) (lt_irrefl key)

/-- Live files on two levels, of which the lower one does not overlap. -/
structure TwoLevels (liveFiles : List SstableMetadata) : Prop where
  level : ∀ f ∈ liveFiles, f.level = 0 ∨ f.level = 1
  range : ∀ f ∈ liveFiles, f.smallestKey ≤ f.largestKey
  apart : ∀ f ∈ liveFiles, ∀ g ∈ liveFiles, f.level = 1 → g.level = 1 → f ≠ g → f.Apart g

namespace CompactionPolicy

variable {liveFiles : List SstableMetadata} {plan : CompactionPlan} {smallest largest : Bytes}

/-- A live file that a plan leaves is on level 1, and outside the envelope. -/
theorem Selects.outside (h : Selects liveFiles plan smallest largest)
    (hlevels : TwoLevels liveFiles)
    {g : SstableMetadata} (hg : g ∈ liveFiles) (hnot : g ∉ plan.inputFiles) :
    g.level = 1 ∧ (largest < g.smallestKey ∨ g.largestKey < smallest) := by
  rw [h.inputs] at hnot
  have hlevel : g.level = 1 := by
    rcases hlevels.level g hg with hzero | hone
    · exact absurd ⟨hg, .inl hzero⟩ hnot
    · exact hone
  refine ⟨hlevel, ?_⟩
  by_contra hmeets
  obtain ⟨hsmallest, hlargest⟩ := not_or.1 hmeets
  exact hnot ⟨hg, .inr ⟨hlevel, not_lt.1 hsmallest, not_lt.1 hlargest⟩⟩

/-- A live file that a plan leaves lies on one side of all its inputs. -/
theorem Selects.beside (h : Selects liveFiles plan smallest largest) (hlevels : TwoLevels liveFiles)
    {g : SstableMetadata} (hg : g ∈ liveFiles) (hnot : g ∉ plan.inputFiles) :
    (∀ f ∈ plan.inputFiles, f.largestKey < g.smallestKey) ∨
      ∀ f ∈ plan.inputFiles, g.largestKey < f.smallestKey := by
  obtain ⟨hlevel, hside⟩ := h.outside hlevels hg hnot
  have hrange := hlevels.range g hg
  -- An input of level 1 is apart from the file, and meets the envelope.
  have hapart : ∀ f ∈ plan.inputFiles, f.level = 1 → f.Apart g := by
    intro f hf hone
    refine hlevels.apart f ((h.inputs f).1 hf).1 g hg hone hlevel ?_
    rintro rfl
    exact hnot hf
  rcases hside with habove | hbelow
  · left
    intro f hf
    rcases ((h.inputs f).1 hf) with ⟨hlive, hzero | ⟨hone, hle, -⟩⟩
    · exact (h.envelope f hlive hzero).2.trans_lt habove
    · rcases hapart f hf hone with hlt | hlt
      · exact hlt
      · -- Otherwise the input would begin above the envelope.
        have hgt : largest < f.smallestKey := habove.trans_le (hrange.trans hlt.le)
        exact absurd hle (not_le.2 hgt)
  · right
    intro f hf
    rcases ((h.inputs f).1 hf) with ⟨hlive, hzero | ⟨hone, -, hle⟩⟩
    · exact hbelow.trans_le (h.envelope f hlive hzero).1
    · rcases hapart f hf hone with hlt | hlt
      · have hgt : f.largestKey < smallest := hlt.trans_le (hrange.trans hbelow.le)
        exact absurd hle (not_le.2 hgt)
      · exact hlt

/-- A plan is closed under overlap: a live file whose range contains a key is an input, if the range
of an input contains it. -/
theorem Selects.closed (h : Selects liveFiles plan smallest largest) (hlevels : TwoLevels liveFiles)
    {f g : SstableMetadata} {key : Bytes} (hf : f ∈ plan.inputFiles) (hfkey : f.Covers key)
    (hg : g ∈ liveFiles) (hgkey : g.Covers key) : g ∈ plan.inputFiles := by
  by_contra hnot
  rcases h.beside hlevels hg hnot with hbelow | habove
  · exact SstableMetadata.Apart.not_covers (.inl (hbelow f hf)) hfkey hgkey
  · exact SstableMetadata.Apart.not_covers (.inr (habove f hf)) hfkey hgkey

end CompactionPolicy

namespace Store

variable {F R : Type} {fmt : TableFormat F R}

/-- The invariant of a store: exact metadata, on two levels. -/
structure Layered (fmt : TableFormat F R) (s : Store F) : Prop where
  tabled : s.Tabled fmt
  levels : TwoLevels s.manifest.liveFiles

/-- An empty directory has no file. -/
theorem layered_empty : (empty : Store F).Layered fmt :=
  ⟨⟨.nil, fun _ hf => absurd hf List.not_mem_nil⟩, ⟨fun _ hf => absurd hf List.not_mem_nil,
    fun _ hf => absurd hf List.not_mem_nil, fun _ hf => absurd hf List.not_mem_nil⟩⟩

/-- What an update needs to keep the two levels: the files that it adds have ranges, and one that
goes to level 1 is apart from those that stay there. -/
theorem Updates.twoLevels {s s' : Store F} {removed : List SstablePath}
    {added : List SstableMetadata} (hupdates : Updates s s' removed added)
    (h : TwoLevels s.manifest.liveFiles) (hrange : ∀ f ∈ added, f.smallestKey ≤ f.largestKey)
    (hlevel : ∀ f ∈ added, f.level = 0 ∨ f.level = 1) (hone : ∀ f ∈ added, ∀ g ∈ added, f = g)
    (hapart : ∀ f ∈ added, f.level = 1 → ∀ g ∈ s.manifest.liveFiles, g.path ∉ removed →
      g.level = 1 → f.Apart g) : TwoLevels s'.manifest.liveFiles := by
  refine ⟨fun f hf => ?_, fun f hf => ?_, ?_⟩
  · rcases (hupdates.live f).1 hf with ⟨hf, -⟩ | hf
    · exact h.level f hf
    · exact hlevel f hf
  · rcases (hupdates.live f).1 hf with ⟨hf, -⟩ | hf
    · exact h.range f hf
    · exact hrange f hf
  · intro f hf g hg hfone hgone hne
    rcases (hupdates.live f).1 hf with ⟨hf, hfstays⟩ | hf
    · rcases (hupdates.live g).1 hg with ⟨hg, -⟩ | hg
      · exact h.apart f hf g hg hfone hgone hne
      · exact (hapart g hg hgone f hf hfstays hfone).symm
    · rcases (hupdates.live g).1 hg with ⟨hg, hgstays⟩ | hg
      · exact hapart f hf hfone g hg hgstays hgone
      · exact absurd (hone f hf g hg) hne

/-- An update keeps the invariant, if the files that it adds have exact metadata. -/
theorem Layered.update {s s' : Store F} {removed : List SstablePath} {added : List SstableMetadata}
    (h : s.Layered fmt) (hupdates : Updates s s' removed added)
    (hrecords : ∀ f ∈ added, ∃ rs, s'.Records fmt f rs)
    (hlevel : ∀ f ∈ added, f.level = 0 ∨ f.level = 1)
    (hone : ∀ f ∈ added, ∀ g ∈ added, f = g)
    (hapart : ∀ f ∈ added, f.level = 1 → ∀ g ∈ s.manifest.liveFiles, g.path ∉ removed →
      g.level = 1 → f.Apart g) : s'.Layered fmt := by
  have hexact : ∀ f ∈ s'.manifest.liveFiles, ∃ rs, s'.Records fmt f rs := by
    intro f hf
    rcases (hupdates.live f).1 hf with ⟨hf, -⟩ | hf
    · obtain ⟨rs, hrecords⟩ := h.tabled.exact f hf
      exact ⟨rs, hrecords.mono hupdates.keeps⟩
    · exact hrecords f hf
  refine ⟨⟨hupdates.distinct, hexact⟩,
    hupdates.twoLevels h.levels (fun f hf => ?_) hlevel hone hapart⟩
  obtain ⟨rs, hrecords⟩ := hrecords f hf
  exact hrecords.smallestKey_le

/-! ## A flush -/

/-- The effect of a committed flush. -/
structure Flushed (fmt : TableFormat F R) (s s' : Store F) (memtable : Memtable)
    (f : SstableMetadata) (through : ℕ) : Prop where
  updates : Updates s s' [] [f]
  records : s'.Records fmt f memtable.table.entries
  level : f.level = 0
  highest : IsHighest memtable.table.entries through
  checkpoint : Manifest.advanceCheckpoint s.manifest.persistedThrough (some through) =
    .ok s'.manifest.persistedThrough

/-- What a flush that returns did. -/
theorem flushMemtable_ok {s s' : Store F} {memtable : Memtable} (htabled : s.Tabled fmt)
    (hrep : fmt.Represents memtable.table.entries) (h : s.flushMemtable fmt memtable = .ok s') :
    ∃ f through, Flushed fmt s s' memtable f through := by
  obtain ⟨⟨s₁, edit⟩, hprepare, hcommit⟩ := bind_eq_ok h
  have hflushable := flushable_of_prepareFlush hprepare
  obtain ⟨s₁', f, through, hprepare', hwrites, hlevel, hhighest⟩ :=
    s.prepareFlush_spec hflushable hrep
  obtain ⟨rfl, rfl⟩ := Prod.mk.inj (Except.ok.inj (hprepare.symm.trans hprepare'))
  have htabled₁ := htabled.of_manifest_eq hwrites.manifest hwrites.keeps
  have hvalid := hwrites.valid htabled (some through)
  dsimp only at hcommit
  rw [commit_eq hvalid htabled₁.distinct] at hcommit
  obtain ⟨checkpoint, hadvance, hcommit⟩ := bind_eq_ok hcommit
  cases hcommit
  have hupdates := updates_commit hvalid htabled₁.distinct checkpoint
  refine ⟨f, through, ⟨⟨?_, hupdates.distinct, hwrites.keeps.trans hupdates.keeps⟩,
    hwrites.records.mono hupdates.keeps, hlevel, hhighest, ?_⟩⟩
  · rw [← hwrites.manifest]
    exact hupdates.live
  · rw [← hwrites.manifest]
    exact hadvance

/-- A flush keeps the levels. -/
theorem Layered.flush {s s' : Store F} {memtable : Memtable} {f : SstableMetadata} {through : ℕ}
    (h : s.Layered fmt) (hflushed : Flushed fmt s s' memtable f through) : s'.Layered fmt := by
  refine h.update hflushed.updates (fun f' hf' => ?_) (fun f' hf' => ?_) (fun f' hf' g' hg' => ?_)
    fun f' hf' hone => ?_
  · rw [List.mem_singleton.1 hf']
    exact ⟨_, hflushed.records⟩
  · rw [List.mem_singleton.1 hf']
    exact .inl hflushed.level
  · rw [List.mem_singleton.1 hf', List.mem_singleton.1 hg']
  · rw [List.mem_singleton.1 hf', hflushed.level] at hone
    cases hone

/-! ## A compaction -/

/-- The effect of a committed compaction. -/
structure Compacted (fmt : TableFormat F R) (s s' : Store F) (plan : CompactionPlan)
    (smallest largest : Bytes) (inputs : List (List TableRecord)) (output : List TableRecord)
    (added : List SstableMetadata) : Prop where
  selects : CompactionPolicy.Selects s.manifest.liveFiles plan smallest largest
  holds : List.Forall₂ (s.Holds fmt) plan.inputFiles inputs
  merged : Compactor.Merged true inputs output
  updates : Updates s s' (plan.inputFiles.map (·.path)) added
  output : output = [] ∧ added = [] ∨
    ∃ f, added = [f] ∧ f.level = 1 ∧ s'.Records fmt f output
  checkpoint : s'.manifest.persistedThrough = s.manifest.persistedThrough

/-- A prepared compaction is committed. -/
theorem Compacts.commit {s s₁ : Store F} {plan : CompactionPlan} {smallest largest : Bytes}
    {inputs : List (List TableRecord)} {output : List TableRecord} {added : List SstableMetadata}
    (h : Compacts fmt s s₁ plan smallest largest inputs output added) (htabled : s.Tabled fmt) :
    ∃ s', s₁.commit ⟨plan.inputFiles.map (·.path), added, none⟩ = .ok s' ∧
      Compacted fmt s s' plan smallest largest inputs output added := by
  have htabled₁ := htabled.of_manifest_eq h.manifest h.keeps
  have hvalid := h.valid htabled
  have hupdates := updates_commit hvalid htabled₁.distinct s₁.manifest.persistedThrough
  refine ⟨_, (commit_eq hvalid htabled₁.distinct).trans rfl, h.selects, h.holds, h.merged,
    ⟨?_, hupdates.distinct, h.keeps.trans hupdates.keeps⟩, h.output.imp_right ?_, ?_⟩
  · rw [← h.manifest]
    exact hupdates.live
  · exact fun ⟨f, hadded, hlevel, hwrites⟩ =>
      ⟨f, hadded, hlevel, hwrites.records.mono hupdates.keeps⟩
  · change s₁.manifest.persistedThrough = s.manifest.persistedThrough
    rw [h.manifest]

/-- A compaction returns. It changes nothing, or replaces what its plan takes by the merge. -/
theorem maybeCompact_spec {s : Store F} (htabled : s.Tabled fmt) (policy : CompactionPolicy)
    (hrep : ∀ plan output, policy.pickCompaction s.manifest.liveFiles = .ok (some plan) →
      s.planOutput fmt plan = .ok output → output ≠ [] → fmt.Represents output) :
    s.maybeCompact fmt policy = .ok s ∨
      ∃ s' plan smallest largest inputs output added, s.maybeCompact fmt policy = .ok s' ∧
        policy.pickCompaction s.manifest.liveFiles = .ok (some plan) ∧
        Compacted fmt s s' plan smallest largest inputs output added := by
  rcases prepareCompaction_spec htabled policy hrep with hnone |
    ⟨s₁, plan, smallest, largest, inputs, output, added, hplan, hprepare, hcompacts⟩
  · left
    rw [maybeCompact, hnone, ok_bind]
  · right
    obtain ⟨s', hcommit, hcompacted⟩ := hcompacts.commit htabled
    refine ⟨s', plan, smallest, largest, inputs, output, added, ?_, hplan, hcompacted⟩
    rw [maybeCompact, hprepare, ok_bind]
    exact hcommit

section Compacted

variable {s s' : Store F} {plan : CompactionPlan} {smallest largest : Bytes}
  {inputs : List (List TableRecord)} {output : List TableRecord} {added : List SstableMetadata}

/-- The files of the plan are live. -/
theorem Compacted.input_live (h : Compacted fmt s s' plan smallest largest inputs output added)
    {f : SstableMetadata} (hf : f ∈ plan.inputFiles) : f ∈ s.manifest.liveFiles :=
  ((h.selects.inputs f).1 hf).1

/-- A live file stays exactly if the plan leaves it. -/
theorem Compacted.stays_iff (h : Compacted fmt s s' plan smallest largest inputs output added)
    (htabled : s.Tabled fmt) {f : SstableMetadata} (hf : f ∈ s.manifest.liveFiles) :
    f.path ∉ plan.inputFiles.map (·.path) ↔ f ∉ plan.inputFiles := by
  constructor
  · exact fun hnot hmem => hnot (List.mem_map_of_mem hmem)
  · rintro hnot hmem
    obtain ⟨g, hg, hpath⟩ := List.mem_map.1 hmem
    have heq : g = f := List.inj_on_of_nodup_map htabled.distinct (h.input_live hg) hf hpath
    exact hnot (heq ▸ hg)

/-- A record of the output comes from an input, whose range covers its key. -/
theorem Compacted.output_covered (h : Compacted fmt s s' plan smallest largest inputs output added)
    (htabled : s.Tabled fmt) {r : TableRecord} (hr : r ∈ output) :
    ∃ f ∈ plan.inputFiles, f.Covers r.1 := by
  obtain ⟨f, hf, rs, hholds, hmem⟩ := (mem_versions_inputs h.holds).1 (h.merged.mem_versions hr).1
  obtain ⟨rs', hrecords⟩ := htabled.exact f (h.input_live hf)
  exact ⟨f, hf, hrecords.covers (hholds.unique hrecords.holds ▸ hmem)⟩

/-- A compaction keeps the levels. -/
theorem Layered.compact (hlayered : s.Layered fmt)
    (h : Compacted fmt s s' plan smallest largest inputs output added) : s'.Layered fmt := by
  rcases h.output with ⟨-, hadded⟩ | ⟨f, hadded, hlevel, hrecords⟩
  · have hnone : ∀ f, f ∉ added := fun f hf => List.not_mem_nil (hadded ▸ hf)
    exact hlayered.update h.updates (fun f hf => absurd hf (hnone f))
      (fun f hf => absurd hf (hnone f)) (fun f hf => absurd hf (hnone f))
      fun f hf => absurd hf (hnone f)
  · have honly : ∀ f' ∈ added, f' = f := fun f' hf' => List.mem_singleton.1 (hadded ▸ hf')
    refine hlayered.update h.updates (fun f' hf' => honly f' hf' ▸ ⟨_, hrecords⟩)
      (fun f' hf' => honly f' hf' ▸ .inr hlevel)
      (fun f' hf' g hg => (honly f' hf').trans (honly g hg).symm) fun f' hf' _ g hg hstays _ => ?_
    rw [honly f' hf']
    -- The ends of the output's range are keys of inputs, all on one side of the file.
    obtain ⟨⟨r, hr, hsmallest⟩, ⟨r', hr', hlargest⟩⟩ := hrecords.range.exists_mem
    obtain ⟨i, hi, hcovers⟩ := h.output_covered hlayered.tabled hr
    obtain ⟨i', hi', hcovers'⟩ := h.output_covered hlayered.tabled hr'
    rw [hsmallest] at hcovers
    rw [hlargest] at hcovers'
    have hnot := (h.stays_iff hlayered.tabled hg).1 hstays
    rcases h.selects.beside hlayered.levels hg hnot with hbelow | habove
    · exact .inl (hcovers'.2.trans_lt (hbelow i' hi'))
    · exact .inr ((habove i hi).trans_le hcovers.1)

end Compacted

end Store

end Kronos
