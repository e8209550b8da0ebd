import Kronos.Lsm.Visible

/-!
# What a compaction leaves

A compaction that has a plan leaves no garbage. The tables of level 1 are outputs of merges that
drop tombstones, so that they have none (`Store.Clean`). A plan takes all of level 0, and no two
tables of level 1 share a key. Behind the commit a key that has an answer is live in one record,
which is no tombstone, and a key that has none is in no live table (`Store.Clean.collected`).
-/

namespace Kronos

/-- A merge that drops tombstones has no tombstone in its output. -/
theorem Compactor.Merged.ne_delete {inputs : List (List TableRecord)} {output : List TableRecord}
    (h : Merged true inputs output) {r : TableRecord} (hr : r ∈ output) :
    r.2.operation ≠ .delete := by
  obtain ⟨winner, -, hlookup⟩ := h.newest r.1
  rw [h.sorted.lookup_eq_some_iff.2 hr] at hlookup
  obtain ⟨w, -, hkept⟩ := Option.bind_eq_some_iff.1 hlookup.symm
  rw [kept] at hkept
  split_ifs at hkept with hdrop
  cases hkept
  exact fun hdelete => hdrop ⟨hdelete, rfl⟩

namespace Store

variable {F R : Type} {fmt : TableFormat F R}

/-- Where a key is live: the files that have it, with its records there. -/
def placed (fmt : TableFormat F R) (s : Store F) (key : Bytes) :
    Set (SstableMetadata × InternalEntry) :=
  {place | place.1 ∈ s.manifest.liveFiles ∧ ∃ rs, s.Holds fmt place.1 rs ∧ (key, place.2) ∈ rs}

/-- No live table of level 1 has a tombstone. -/
def Clean (fmt : TableFormat F R) (s : Store F) : Prop :=
  ∀ f ∈ s.manifest.liveFiles, f.level = 1 → ∀ rs, s.Holds fmt f rs → ∀ r ∈ rs,
    r.2.operation ≠ .delete

section Steps

variable {s s' : Store F}

/-- An update adds no tombstone to level 1, if the files that it adds there have none. -/
theorem Clean.update {removed : List SstablePath} {added : List SstableMetadata}
    (h : s.Clean fmt) (htabled : s.Tabled fmt) (hupdates : Updates s s' removed added)
    (hadded : ∀ f ∈ added, f.level = 1 → ∀ rs, s'.Holds fmt f rs → ∀ r ∈ rs,
      r.2.operation ≠ .delete) : s'.Clean fmt := by
  intro f hf hlevel rs hholds r hr
  rcases (hupdates.live f).1 hf with ⟨hlive, -⟩ | hnew
  · obtain ⟨rs', hrecords⟩ := htabled.exact f hlive
    rw [hholds.unique (hrecords.holds.mono hupdates.keeps)] at hr
    exact h f hlive hlevel rs' hrecords.holds r hr
  · exact hadded f hnew hlevel rs hholds r hr

variable {plan : CompactionPlan} {smallest largest : Bytes} {inputs : List (List TableRecord)}
  {output : List TableRecord} {added : List SstableMetadata}

/-- A compaction writes a merge. -/
theorem Clean.compact (h : s.Clean fmt)
    (hcompacted : Compacted fmt s s' plan smallest largest inputs output added)
    (htabled : s.Tabled fmt) : s'.Clean fmt := by
  refine h.update htabled hcompacted.updates fun g hg _ rs hholds r hr => ?_
  rcases hcompacted.output with ⟨-, hnone⟩ | ⟨f, hadded, -, hrecords⟩
  · exact absurd hg (hnone ▸ List.not_mem_nil)
  · rw [hadded] at hg
    rw [List.mem_singleton.1 hg] at hholds
    exact hcompacted.merged.ne_delete (hholds.unique hrecords.holds ▸ hr)

/-- Behind a compaction, all live files are on level 1. -/
theorem Compacted.level (h : Compacted fmt s s' plan smallest largest inputs output added)
    (hlayered : s.Layered fmt) {f : SstableMetadata} (hf : f ∈ s'.manifest.liveFiles) :
    f.level = 1 := by
  rcases (h.updates.live f).1 hf with ⟨hlive, hstays⟩ | hadded
  · exact (h.selects.outside hlayered.levels hlive ((h.stays_iff hlayered.tabled hlive).1 hstays)).1
  · rcases h.output with ⟨-, hnone⟩ | ⟨g, hone, hlevel, -⟩
    · exact absurd hadded (hnone ▸ List.not_mem_nil)
    · rw [hone] at hadded
      exact List.mem_singleton.1 hadded ▸ hlevel

end Steps

/-- On level 1, a key is live in one place. -/
theorem Layered.placed_unique {s : Store F} (h : s.Layered fmt) {key : Bytes}
    {place place' : SstableMetadata × InternalEntry} (hplace : place ∈ s.placed fmt key)
    (hplace' : place' ∈ s.placed fmt key) (hlevel : place.1.level = 1)
    (hlevel' : place'.1.level = 1) : place = place' := by
  obtain ⟨f, entry⟩ := place
  obtain ⟨f', entry'⟩ := place'
  obtain ⟨hf, rs, hholds, hmem⟩ := hplace
  obtain ⟨hf', rs', hholds', hmem'⟩ := hplace'
  obtain ⟨exact, hrecords⟩ := h.tabled.exact f hf
  obtain ⟨exact', hrecords'⟩ := h.tabled.exact f' hf'
  rw [hholds.unique hrecords.holds] at hmem
  rw [hholds'.unique hrecords'.holds] at hmem'
  -- Both ranges cover the key, and files of level 1 are apart.
  have hfile : f = f' := by
    by_contra hne
    exact (h.levels.apart f hf f' hf' hlevel hlevel' hne).not_covers (hrecords.covers hmem)
      (hrecords'.covers hmem')
  subst hfile
  rw [hrecords'.holds.unique hrecords.holds] at hmem'
  have hlookup := hrecords.sorted.lookup_eq_some_iff.2 hmem
  rw [hrecords.sorted.lookup_eq_some_iff.2 hmem'] at hlookup
  cases hlookup
  rfl

/-- Where all live files are on level 1, and have no tombstones, a key that has an answer is live in
one place with it, and another one nowhere. -/
theorem Clean.collected {s : Store F} (h : s.Clean fmt) (hlayered : s.Layered fmt)
    (hlevel : ∀ f ∈ s.manifest.liveFiles, f.level = 1) {key : Bytes} {result : Option Bytes}
    (hanswers : s.Answers fmt key result) :
    (result = none ∧ s.placed fmt key = ∅) ∨
      ∃ f entry, result = some entry.value ∧ entry.operation ≠ .delete ∧
        s.placed fmt key = {(f, entry)} := by
  obtain ⟨winner, hwinner, rfl⟩ := hanswers
  cases winner with
  | none =>
    left
    refine ⟨rfl, Set.eq_empty_of_forall_notMem ?_⟩
    rintro ⟨f, entry⟩ ⟨hf, hholds⟩
    exact hwinner entry ⟨f, hf, hholds⟩
  | some entry =>
    right
    obtain ⟨f, hf, rs, hholds, hmem⟩ := hwinner.1
    have hoperation := h f hf (hlevel f hf) rs hholds _ hmem
    have hplace : (f, entry) ∈ s.placed fmt key := ⟨hf, rs, hholds, hmem⟩
    have hanswer : answerOf (some entry) = some entry.value := by
      rw [answerOf, GetResult.of, if_neg hoperation]
      rfl
    refine ⟨f, entry, hanswer, hoperation, Set.eq_singleton_iff_unique_mem.2 ⟨hplace, ?_⟩⟩
    intro place hplace'
    exact hlayered.placed_unique hplace' hplace (hlevel _ hplace'.1) (hlevel f hf)

end Store

end Kronos
