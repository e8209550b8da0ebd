import Mathlib.Data.List.Perm.Basic
import Mathlib.Data.Set.Card
import Kronos.Lsm.Store
import Kronos.Sstable.Overflow

/-!
# What a compaction writes

`Compactor::compact` over SSTables, for any block size and any number of bits for a key. Its output
holds, for each key of its inputs, the version with the highest sequence number, unless that is a
`DELETE` that may be dropped (`Survives`). In which order the inputs are given makes no difference,
where the sequence numbers tell the versions of a key apart. All of this holds exactly as long as
what survives fits in a table (`compactMerges_iff`).
-/

namespace Kronos

open ByteString SstableBuilder SstableReader Sstable

/-- Lists with increasing keys and the same members are the same. -/
theorem Sorted.ext {K V : Type} [LinearOrder K] {l l' : List (K × V)} (h : Sorted l)
    (h' : Sorted l') (hmem : ∀ r, r ∈ l ↔ r ∈ l') : l = l' := by
  have hmaps : (⟨l, h⟩ : OrderedMap K V) = ⟨l', h'⟩ := by
    apply OrderedMap.ext_lookup
    intro k
    apply Option.ext
    intro v
    exact h.lookup_eq_some_iff.trans ((hmem (k, v)).trans h'.lookup_eq_some_iff.symm)
  exact congrArg OrderedMap.entries hmaps

namespace Compactor

/-! ## What survives -/

/-- The version of a key that survives the merge of some tables: the one with the highest sequence
number, unless it is a `DELETE` and those may be dropped. -/
structure Survives (canDropTombstones : Bool) (tables : List (List TableRecord)) (key : Bytes)
    (entry : InternalEntry) : Prop where
  version : ∃ table ∈ tables, (key, entry) ∈ table
  newest : ∀ table ∈ tables, ∀ entry', (key, entry') ∈ table → entry'.sequence ≤ entry.sequence
  kept : ¬(entry.operation = .delete ∧ canDropTombstones = true)

/-- The keys that survive. -/
def survivingKeys (canDropTombstones : Bool) (tables : List (List TableRecord)) : Set Bytes :=
  {key | ∃ entry, Survives canDropTombstones tables key entry}

/-- The versions of a key in different tables have distinct sequence numbers. -/
def DistinctSequences (tables : List (List TableRecord)) : Prop :=
  tables.Pairwise fun table table' => ∀ key entry entry',
    (key, entry) ∈ table → (key, entry') ∈ table' → entry.sequence ≠ entry'.sequence

/-- Then the sequence numbers tell the versions of a key apart. -/
theorem DistinctSequences.injOn {tables : List (List TableRecord)} (h : DistinctSequences tables)
    (hsorted : ∀ table ∈ tables, Sorted table) (key : Bytes) :
    Set.InjOn InternalEntry.sequence (versions tables key) := by
  let R := fun table table' : List TableRecord => ∀ entry entry', (key, entry) ∈ table →
    (key, entry') ∈ table' → entry.sequence = entry'.sequence → entry = entry'
  have hsymm : Std.Symm R := ⟨fun table table' hR entry entry' hmem hmem' heq =>
    (hR entry' entry hmem' hmem heq.symm).symm⟩
  have hpairwise : tables.Pairwise R := h.imp fun hdistinct entry entry' hmem hmem' heq =>
    absurd heq (hdistinct key entry entry' hmem hmem')
  have hrefl : ∀ table ∈ tables, R table table := by
    intro table htable entry entry' hmem hmem' _
    have hlookup := (hsorted table htable).lookup_eq_some_iff.2 hmem
    rw [(hsorted table htable).lookup_eq_some_iff.2 hmem'] at hlookup
    exact (Option.some.inj hlookup).symm
  rintro entry ⟨table, htable, hmem⟩ entry' ⟨table', htable', hmem'⟩ heq
  exact hpairwise.forall_of_forall hrefl htable htable' entry entry' hmem hmem' heq

/-- What survives is what the merge keeps. -/
theorem Merged.mem_iff {canDropTombstones : Bool} {tables : List (List TableRecord)}
    {output : List TableRecord} (h : Merged canDropTombstones tables output)
    (hinj : ∀ key, Set.InjOn InternalEntry.sequence (versions tables key)) {key : Bytes}
    {entry : InternalEntry} :
    (key, entry) ∈ output ↔ Survives canDropTombstones tables key entry := by
  obtain ⟨winner, hnewest, hlookup⟩ := h.newest key
  rw [← h.sorted.lookup_eq_some_iff, hlookup, Option.bind_eq_some_iff]
  constructor
  · rintro ⟨winner, rfl, hkept⟩
    unfold kept at hkept
    split_ifs at hkept with hdropped
    cases hkept
    exact ⟨hnewest.1, fun table htable entry' hmem => hnewest.2 entry' ⟨table, htable, hmem⟩,
      hdropped⟩
  · rintro ⟨hversion, hmax, hkept⟩
    have hentry : Newest InternalEntry.sequence (versions tables key) (some entry) :=
      ⟨hversion, fun entry' ⟨table, htable, hmem⟩ => hmax table htable entry' hmem⟩
    refine ⟨entry, hnewest.unique (hinj key) hentry, ?_⟩
    rw [Compactor.kept, if_neg hkept]

/-- There are as many keys that survive as records with increasing keys that do. -/
theorem ncard_survivingKeys {canDropTombstones : Bool} {tables : List (List TableRecord)}
    {output : List TableRecord} (hsorted : Sorted output)
    (hmem : ∀ key entry, (key, entry) ∈ output ↔ Survives canDropTombstones tables key entry) :
    (survivingKeys canDropTombstones tables).ncard = output.length := by
  have hnodup : (output.map Prod.fst).Nodup :=
    List.Pairwise.map _ (fun r r' (hlt : r.1 < r'.1) => hlt.ne) hsorted
  have hkeys : survivingKeys canDropTombstones tables = ↑(output.map Prod.fst).toFinset := by
    ext key
    rw [List.coe_toFinset, Set.mem_ofPred_eq, List.mem_map]
    constructor
    · rintro ⟨entry, hsurvives⟩
      exact ⟨(key, entry), (hmem key entry).2 hsurvives, rfl⟩
    · rintro ⟨⟨key, entry⟩, hr, rfl⟩
      exact ⟨entry, (hmem key entry).1 hr⟩
  rw [hkeys, Set.ncard_coe_finset, List.toFinset_card_of_nodup hnodup, List.length_map]

/-- The merge of the tables in another order is the same. -/
theorem Merged.perm {canDropTombstones : Bool} {tables tables' : List (List TableRecord)}
    {output output' : List TableRecord} (h : Merged canDropTombstones tables output)
    (h' : Merged canDropTombstones tables' output') (hperm : tables'.Perm tables)
    (hinj : ∀ key, Set.InjOn InternalEntry.sequence (versions tables key)) : output' = output := by
  have hversions : ∀ key, versions tables' key = versions tables key := by
    intro key
    ext entry
    simp only [versions, Set.mem_ofPred_eq, hperm.mem_iff]
  apply Sorted.ext h'.sorted h.sorted
  rintro ⟨key, entry⟩
  rw [h'.mem_iff fun key => (hversions key).symm ▸ hinj key, h.mem_iff hinj]
  constructor
  · rintro ⟨⟨table, htable, hmem⟩, hmax, hkept⟩
    exact ⟨⟨table, hperm.mem_iff.1 htable, hmem⟩,
      fun table htable => hmax table (hperm.mem_iff.2 htable), hkept⟩
  · rintro ⟨⟨table, htable, hmem⟩, hmax, hkept⟩
    exact ⟨⟨table, hperm.mem_iff.2 htable, hmem⟩,
      fun table htable => hmax table (hperm.mem_iff.1 htable), hkept⟩

end Compactor

open Compactor

namespace Store

variable {crc32 : Bytes → UInt32} {targetBlockSize bitsPerKey : ℕ} {s : Store Bytes}
  {inputs : List (SstablePath × List TableRecord)} {outputPath : SstablePath}
  {canDropTombstones : Bool}

/-! ## What is written -/

/-- A compaction of some tables does what it is for, in whatever order they are given: it returns,
and its output holds, in the order of their keys, exactly the versions that survive. If there are
none, there is no output, and no file is written. -/
def CompactMerges (crc32 : Bytes → UInt32) (targetBlockSize bitsPerKey : ℕ) (s : Store Bytes)
    (inputs : List (SstablePath × List TableRecord)) (outputPath : SstablePath)
    (canDropTombstones : Bool) : Prop :=
  ∃ output s' outputFiles, Sorted output ∧
    (∀ key entry, (key, entry) ∈ output ↔
      Survives canDropTombstones (inputs.map Prod.snd) key entry) ∧
    (output = [] → s' = s ∧ outputFiles = []) ∧
    (output ≠ [] → ∃ file, s' = s.publish outputPath file ∧ outputFiles = [outputPath] ∧
      Walks crc32 file output) ∧
    ∀ paths, paths.Perm (inputs.map Prod.fst) →
      s.compact (tableFormat crc32 targetBlockSize bitsPerKey) paths outputPath canDropTombstones =
        .ok (s', ⟨paths, outputFiles⟩)

/-- What survives fits in a table, with bits for its keys, or nothing survives. -/
def OutputFits (targetBlockSize bitsPerKey : ℕ) (canDropTombstones : Bool)
    (tables : List (List TableRecord)) : Prop :=
  ∀ output, Sorted output →
    (∀ key entry, (key, entry) ∈ output ↔ Survives canDropTombstones tables key entry) →
      output = [] ∨ bitsPerKey ≠ 0 ∧ Storable targetBlockSize bitsPerKey output

/-- The inputs of a compaction: tables of the store, each with increasing keys, whose sequence
numbers tell the versions of a key apart, and a path for the output that is free. -/
structure Mergeable (crc32 : Bytes → UInt32) (s : Store Bytes)
    (inputs : List (SstablePath × List TableRecord)) (outputPath : SstablePath) : Prop where
  nonempty : inputs ≠ []
  tables : ∀ input ∈ inputs, s.readTable (format crc32) input.1 = .ok input.2
  sorted : ∀ input ∈ inputs, Sorted input.2
  distinct : DistinctSequences (inputs.map Prod.snd)
  fresh : s.fileExists outputPath = false

/-- A table that is read is a file of the store. -/
theorem readTable_ok {path : SstablePath} {rs : List TableRecord}
    (h : s.readTable (format crc32) path = .ok rs) :
    ∃ file reader, s.files.lookup path = some file ∧ openTable (.vendored crc32) file = .ok reader ∧
      (format crc32).records reader = .ok rs := by
  obtain ⟨reader, hopen, hrecords⟩ := bind_eq_ok h
  unfold openSstable at hopen
  cases hfile : s.files.lookup path with
  | none =>
    rw [hfile] at hopen
    cases hopen
  | some file =>
    rw [hfile] at hopen
    exact ⟨file, reader, rfl, hopen, hrecords⟩

namespace Mergeable

/-- The inputs have increasing keys. -/
theorem sorted_tables (h : s.Mergeable crc32 inputs outputPath) :
    ∀ table ∈ inputs.map Prod.snd, Sorted table := by
  intro table htable
  obtain ⟨input, hinput, rfl⟩ := List.mem_map.1 htable
  exact h.sorted input hinput

/-- What a compaction does, up to the build of its output. -/
theorem compact_eq (h : s.Mergeable crc32 inputs outputPath)
    (targetBlockSize bitsPerKey : ℕ) (canDropTombstones : Bool) :
    ∃ output, Merged canDropTombstones (inputs.map Prod.snd) output ∧
      ∀ paths, paths.Perm (inputs.map Prod.fst) →
        s.compact (tableFormat crc32 targetBlockSize bitsPerKey) paths outputPath
            canDropTombstones =
          if output = [] then .ok (s, ⟨paths, []⟩)
          else (do
            let file ← (tableFormat crc32 targetBlockSize bitsPerKey).build output
            .ok (s.publish outputPath file, ⟨paths, [outputPath]⟩)) := by
  have hsorted := h.sorted_tables
  have hinj := h.distinct.injOn hsorted
  obtain ⟨output, -, hmerged⟩ := merge_spec canDropTombstones hsorted
  refine ⟨output, hmerged, fun paths hpaths => ?_⟩
  -- The tables are read in the order of their paths.
  have htables : List.Forall₂ (fun path rs => s.readTable (format crc32) path = .ok rs)
      (inputs.map Prod.fst) (inputs.map Prod.snd) := by
    rw [List.forall₂_map_left_iff, List.forall₂_map_right_iff]
    exact List.forall₂_same.2 h.tables
  obtain ⟨tables, hread, htablesPerm⟩ := List.perm_comp_forall₂ hpaths htables
  have hmapM : paths.mapM (s.readTable (tableFormat crc32 targetBlockSize bitsPerKey)) =
      .ok tables := mapM_eq_ok_iff.2 hread
  obtain ⟨output', hmerge, hmerged'⟩ := merge_spec canDropTombstones
    fun table htable => hsorted table (htablesPerm.mem_iff.1 htable)
  obtain rfl := hmerged.perm hmerged' htablesPerm hinj
  have hne : paths ≠ [] := by
    rintro rfl
    exact h.nonempty (List.map_eq_nil_iff.1 (List.nil_perm.1 hpaths))
  have hpath : outputPath ∉ paths := by
    intro hmem
    obtain ⟨input, hinput, rfl⟩ := List.mem_map.1 (hpaths.mem_iff.1 hmem)
    obtain ⟨file, reader, hfile, -⟩ := readTable_ok (h.tables input hinput)
    have hfresh := h.fresh
    rw [fileExists, hfile] at hfresh
    cases hfresh
  rw [compact, if_neg hne, if_neg (ne_true_of_eq_false h.fresh), if_neg hpath, hmapM, ok_bind,
    hmerge, ok_bind]

/-- A version that survives was read from a table, and so it fits in a block of its own. -/
theorem output_fits (h : s.Mergeable crc32 inputs outputPath) {output : List TableRecord}
    (hmerged : Merged canDropTombstones (inputs.map Prod.snd) output) :
    ∀ r ∈ output, blockSize [r] < 2^32 ∧ r.2.sequence < 2^64 := by
  intro r hr
  obtain ⟨table, htable, hmem⟩ := (hmerged.mem_versions hr).1
  obtain ⟨input, hinput, rfl⟩ := List.mem_map.1 htable
  obtain ⟨file, reader, -, hopen, hrecords⟩ := readTable_ok (h.tables input hinput)
  exact blockSize_lt_of_records hopen hrecords r hmem

/-- What survives is the merge. -/
theorem eq_merged (h : s.Mergeable crc32 inputs outputPath) {output output' : List TableRecord}
    (hsorted : Sorted output)
    (hmem : ∀ key entry, (key, entry) ∈ output ↔
      Survives canDropTombstones (inputs.map Prod.snd) key entry)
    (hmerged : Merged canDropTombstones (inputs.map Prod.snd) output') : output = output' :=
  Sorted.ext hsorted hmerged.sorted fun r =>
    (hmem r.1 r.2).trans (hmerged.mem_iff (h.distinct.injOn h.sorted_tables)).symm

/-- A compaction that does what it is for has an output that fits, unless the product of the keys
and their bits has more than 64 bits. -/
theorem outputFits (h : s.Mergeable crc32 inputs outputPath)
    (hproduct :
      bitsPerKey * (survivingKeys canDropTombstones (inputs.map Prod.snd)).ncard + 7 < 2^64)
    (hmerges : s.CompactMerges crc32 targetBlockSize bitsPerKey inputs outputPath
      canDropTombstones) :
    OutputFits targetBlockSize bitsPerKey canDropTombstones (inputs.map Prod.snd) := by
  obtain ⟨output, s', outputFiles, hsorted, hmem, -, hfull, hreturns⟩ := hmerges
  obtain ⟨output', hmerged, hcompact⟩ := h.compact_eq targetBlockSize bitsPerKey canDropTombstones
  obtain rfl := h.eq_merged hsorted hmem hmerged
  intro output'' hsorted'' hmem''
  obtain rfl := h.eq_merged hsorted'' hmem'' hmerged
  rcases eq_or_ne output'' [] with hnil | hne
  · exact .inl hnil
  right
  obtain ⟨file, rfl, rfl, hwalks⟩ := hfull hne
  have hbuild := hreturns _ (List.Perm.refl _)
  rw [hcompact _ (List.Perm.refl _), if_neg hne] at hbuild
  obtain ⟨file', hbuild, hpublish⟩ := bind_eq_ok hbuild
  -- The file that was written is the one that holds the output.
  have hfiles := congrArg Store.files (Prod.mk.inj (Except.ok.inj hpublish)).1
  have hfile := List.append_cancel_left hfiles
  cases hfile
  rw [ncard_survivingKeys hsorted hmem] at hproduct
  exact (tableFormat_walks_iff hne hsorted (h.output_fits hmerged) hproduct).1
    ⟨file, hbuild, hwalks⟩

/-- With an output that fits, it does. -/
theorem compactMerges (h : s.Mergeable crc32 inputs outputPath)
    (hfits : OutputFits targetBlockSize bitsPerKey canDropTombstones (inputs.map Prod.snd)) :
    s.CompactMerges crc32 targetBlockSize bitsPerKey inputs outputPath canDropTombstones := by
  obtain ⟨output, hmerged, hcompact⟩ := h.compact_eq targetBlockSize bitsPerKey canDropTombstones
  have hmem := fun key entry =>
    @hmerged.mem_iff canDropTombstones _ _ (h.distinct.injOn h.sorted_tables) key entry
  rcases eq_or_ne output [] with rfl | hne
  · refine ⟨[], s, [], .nil, hmem, fun _ => ⟨rfl, rfl⟩, fun hne => absurd rfl hne,
      fun paths hpaths => ?_⟩
    rw [hcompact paths hpaths, if_pos rfl]
  · obtain ⟨hbits, hstorable⟩ := (hfits output hmerged.sorted hmem).resolve_left hne
    have hproduct : bitsPerKey * output.length + 7 < 2^64 := by
      have hbloom := hstorable.bloom
      rw [bloomBits] at hbloom
      omega
    obtain ⟨file, hbuild, hwalks⟩ := (tableFormat_walks_iff hne hmerged.sorted
      (h.output_fits hmerged) hproduct).2 ⟨hbits, hstorable⟩
    refine ⟨output, s.publish outputPath file, [outputPath], hmerged.sorted, hmem,
      fun hnil => absurd hnil hne, fun _ => ⟨file, rfl, rfl, hwalks⟩, fun paths hpaths => ?_⟩
    rw [hcompact paths hpaths, if_neg hne, hbuild, ok_bind]

end Mergeable

/-- **What a compaction writes.** With any block size and any number of bits for a key, it does what
it is for if what survives fits in a table, and only then, unless the product of the keys that
survive and their bits has more than 64 bits. -/
theorem compactMerges_iff (h : s.Mergeable crc32 inputs outputPath) :
    (OutputFits targetBlockSize bitsPerKey canDropTombstones (inputs.map Prod.snd) →
      s.CompactMerges crc32 targetBlockSize bitsPerKey inputs outputPath canDropTombstones) ∧
    (bitsPerKey * (survivingKeys canDropTombstones (inputs.map Prod.snd)).ncard + 7 < 2^64 →
      s.CompactMerges crc32 targetBlockSize bitsPerKey inputs outputPath canDropTombstones →
        OutputFits targetBlockSize bitsPerKey canDropTombstones (inputs.map Prod.snd)) :=
  ⟨h.compactMerges, h.outputFits⟩

/-- A table with a `PUT` and a `DELETE`, of which the `PUT` survives. -/
theorem compactMerges_iff_of_one :
    ∃ (s : Store Bytes) (inputs : List (SstablePath × List TableRecord)) (outputPath : SstablePath),
      s.Mergeable byteSum.crc32 inputs outputPath ∧
        s.CompactMerges byteSum.crc32 4096 10 inputs outputPath true := by
  have hsorted :
      Sorted [(([] : Bytes), (⟨[1], 7, .put⟩ : InternalEntry)), ([97], ⟨[], 8, .delete⟩)] := by
    simp [Sorted]
  have hstorable : Storable 4096 10
      [(([] : Bytes), (⟨[1], 7, .put⟩ : InternalEntry)), ([97], ⟨[], 8, .delete⟩)] :=
    ⟨by decide, by decide, by decide⟩
  obtain ⟨file, -, reader, hopen, hrecords, -⟩ := (tableFormat_walks_iff (List.cons_ne_nil _ _)
    hsorted (by decide) (by decide)).2 ⟨by decide, hstorable⟩
  let s : Store Bytes := ⟨Manifest.empty, [(⟨0, 1⟩, file)], 2⟩
  have hread : s.readTable (format byteSum.crc32) ⟨0, 1⟩ =
      .ok [([], ⟨[1], 7, .put⟩), ([97], ⟨[], 8, .delete⟩)] := by
    show (format byteSum.crc32).openTable file >>= (format byteSum.crc32).records = _
    rw [hopen, ok_bind, hrecords]
  have hmergeable : s.Mergeable byteSum.crc32
      [(⟨0, 1⟩, [([], ⟨[1], 7, .put⟩), ([97], ⟨[], 8, .delete⟩)])] ⟨1, 2⟩ :=
    ⟨List.cons_ne_nil _ _, List.forall_mem_singleton.2 hread, List.forall_mem_singleton.2 hsorted,
      List.pairwise_singleton _ _, rfl⟩
  refine ⟨s, _, ⟨1, 2⟩, hmergeable, (compactMerges_iff hmergeable).1 fun output houtput hmem => ?_⟩
  -- The one record that survives is the `PUT`.
  have hone : output = [([], ⟨[1], 7, .put⟩)] := by
    refine Sorted.ext houtput (List.pairwise_singleton _ _) fun r => ?_
    obtain ⟨key, entry⟩ := r
    rw [hmem, List.mem_singleton]
    constructor
    · rintro ⟨⟨table, htable, hr⟩, -, hkept⟩
      obtain rfl := List.mem_singleton.1 htable
      rcases List.mem_pair.1 hr with heq | heq
      · exact heq
      · cases heq
        exact absurd ⟨rfl, rfl⟩ hkept
    · intro heq
      cases heq
      refine ⟨⟨_, .head _, .head _⟩, fun table htable entry' hr => ?_, fun hdropped => by
        cases hdropped.1⟩
      obtain rfl := List.mem_singleton.1 htable
      rcases List.mem_pair.1 hr with heq | heq
      · cases heq
        exact le_rfl
      · cases heq
  rw [hone]
  exact .inr ⟨by decide, by decide, by decide, by decide⟩

/-! ## Tables with many keys -/

/-- The strings of a length over 128 characters, in their order. -/
def keysOfLength : ℕ → List Bytes
  | 0 => [[]]
  | length + 1 =>
    (List.range 128).flatMap fun b => (keysOfLength length).map (UInt8.ofNat b :: ·)

/-- There are `128` keys for each further byte. -/
theorem length_keysOfLength (length : ℕ) : (keysOfLength length).length = 128 ^ length := by
  induction length with
  | zero => rfl
  | succ length ih =>
    rw [keysOfLength, List.length_flatMap]
    simp only [List.length_map, ih, List.map_const', List.length_range, List.sum_replicate_nat]
    rw [pow_succ']

/-- They have the length. -/
theorem length_of_mem_keysOfLength {length : ℕ} :
    ∀ {key : Bytes}, key ∈ keysOfLength length → key.length = length := by
  induction length with
  | zero =>
    intro key hkey
    rw [List.mem_singleton.1 hkey]
    rfl
  | succ length ih =>
    intro key hkey
    rw [keysOfLength] at hkey
    obtain ⟨b, -, hkey⟩ := List.mem_flatMap.1 hkey
    obtain ⟨key', hkey', rfl⟩ := List.mem_map.1 hkey
    rw [List.length_cons, ih hkey']

/-- They are listed in increasing order. -/
theorem pairwise_keysOfLength (length : ℕ) : (keysOfLength length).Pairwise (· < ·) := by
  induction length with
  | zero => exact List.pairwise_singleton _ _
  | succ length ih =>
    rw [keysOfLength, List.pairwise_flatMap]
    constructor
    · intro b _
      exact List.Pairwise.map _ (fun k k' hlt => List.cons_lt_cons_iff.2 (.inr ⟨rfl, hlt⟩)) ih
    · refine List.pairwise_lt_range.imp_of_mem fun {b b'} hb hb' hlt => ?_
      intro key hkey key' hkey'
      obtain ⟨k, -, rfl⟩ := List.mem_map.1 hkey
      obtain ⟨k', -, rfl⟩ := List.mem_map.1 hkey'
      rw [List.mem_range] at hb hb'
      refine List.cons_lt_cons_iff.2 (.inl ?_)
      rw [UInt8.lt_iff_toNat_lt, UInt8.toNat_ofNat', UInt8.toNat_ofNat',
        Nat.mod_eq_of_lt (by omega),
        Nat.mod_eq_of_lt (by omega)]
      exact hlt

/-- A table with a `PUT` of nothing for each of `2^28` keys, all of which begin with a byte. -/
@[irreducible] def manyRecords (first : UInt8) : List TableRecord :=
  (keysOfLength 4).map fun key => (first :: key, ⟨[], 0, .put⟩)

/-- The table has `2^28` records. -/
theorem length_manyRecords (first : UInt8) : (manyRecords first).length = 2^28 := by
  rw [manyRecords, List.length_map, length_keysOfLength]
  norm_num

/-- Each of them has a key of five bytes that begins with the given one. -/
theorem mem_manyRecords {first : UInt8} {r : TableRecord} (h : r ∈ manyRecords first) :
    ∃ key : Bytes, key.length = 4 ∧ r = (first :: key, ⟨[], 0, .put⟩) := by
  rw [manyRecords] at h
  obtain ⟨key, hkey, rfl⟩ := List.mem_map.1 h
  exact ⟨key, length_of_mem_keysOfLength hkey, rfl⟩

/-- It is a sorted table. -/
theorem sorted_manyRecords (first : UInt8) : Sorted (manyRecords first) := by
  rw [manyRecords]
  exact List.Pairwise.map _ (fun k k' hlt => List.cons_lt_cons_iff.2 (.inr ⟨rfl, hlt⟩))
    (pairwise_keysOfLength 4)

/-- Such a table is written and read back. -/
theorem manyRecords_walks (crc32 : Bytes → UInt32) (first : UInt8) :
    ∃ file, (format crc32).build (manyRecords first) = .ok file ∧
      Walks crc32 file (manyRecords first) := by
  have hlen := length_manyRecords first
  have hne : manyRecords first ≠ [] := List.ne_nil_of_length_pos (by omega)
  have hrs : ∀ r ∈ manyRecords first, blockSize [r] < 2^32 ∧ r.2.sequence < 2^64 := by
    intro r hr
    obtain ⟨key, hkey, rfl⟩ := mem_manyRecords hr
    refine ⟨?_, Nat.two_pow_pos 64⟩
    rw [blockSize, recordsBytes_cons, recordsBytes_nil, List.append_nil, length_recordBytes]
    dsimp only
    rw [List.length_cons, List.length_nil, hkey]
    norm_num
  refine (tableFormat_walks_iff hne (sorted_manyRecords first) hrs ?_).2 ⟨by decide, ?_, ?_, ?_⟩
  · rw [hlen, bloomBitsPerKey]
    norm_num
  · exact blockSize_splitBlocks (by decide) fun r hr => (hrs r hr).1
  · rw [bloomBits, hlen, bloomBitsPerKey]
    norm_num
  · intro r hr
    obtain ⟨key, hkey, rfl⟩ := mem_manyRecords hr
    left
    rw [List.length_cons, hkey]
    norm_num

/-- Where the two tables lie. -/
def manyPath (first : UInt8) : SstablePath := ⟨0, first.toNat⟩

/-- The two tables with `2^28` keys each. -/
def manyInputs : List (SstablePath × List TableRecord) :=
  [(manyPath 0, manyRecords 0), (manyPath 1, manyRecords 1)]

/-- All of their records survive. -/
theorem survives_manyInputs (key : Bytes) (entry : InternalEntry) :
    (key, entry) ∈ manyRecords 0 ++ manyRecords 1 ↔
      Survives false (manyInputs.map Prod.snd) key entry := by
  have hmem : ∀ entry', (∃ table ∈ manyInputs.map Prod.snd, (key, entry') ∈ table) →
      entry' = ⟨[], 0, .put⟩ := by
    rintro entry' ⟨table, htable, hr⟩
    rcases List.mem_pair.1 htable with rfl | rfl
    · obtain ⟨_, -, heq⟩ := mem_manyRecords hr
      exact (Prod.mk.inj heq).2
    · obtain ⟨_, -, heq⟩ := mem_manyRecords hr
      exact (Prod.mk.inj heq).2
  rw [List.mem_append]
  constructor
  · intro hr
    have hversion : ∃ table ∈ manyInputs.map Prod.snd, (key, entry) ∈ table := by
      rcases hr with hr | hr
      · exact ⟨_, .head _, hr⟩
      · exact ⟨_, .tail _ (.head _), hr⟩
    refine ⟨hversion, fun table htable entry' hr' => ?_, fun hdropped => by cases hdropped.2⟩
    rw [hmem entry hversion, hmem entry' ⟨table, htable, hr'⟩]
  · rintro ⟨⟨table, htable, hr⟩, -, -⟩
    rcases List.mem_pair.1 htable with rfl | rfl
    · exact .inl hr
    · exact .inr hr

/-- Whatever `crc32` is, and for any block size, the compaction of two tables with `2^28` keys each
does not do what it is for with the engine's bits for a key. -/
theorem many_not_merged :
    ¬∃ (crc32 : Bytes → UInt32) (targetBlockSize : ℕ), ∀ (s : Store Bytes) inputs outputPath,
      s.Mergeable crc32 inputs outputPath →
        s.CompactMerges crc32 targetBlockSize bloomBitsPerKey inputs outputPath false := by
  rintro ⟨crc32, targetBlockSize, h⟩
  obtain ⟨file, -, reader, hopen, hrecords, -⟩ := manyRecords_walks crc32 0
  obtain ⟨file', -, reader', hopen', hrecords', -⟩ := manyRecords_walks crc32 1
  let s : Store Bytes := ⟨Manifest.empty, [(manyPath 0, file), (manyPath 1, file')], 2⟩
  have hread : s.readTable (format crc32) (manyPath 0) = .ok (manyRecords 0) := by
    show (format crc32).openTable file >>= (format crc32).records = _
    rw [hopen, ok_bind, hrecords]
  have hread' : s.readTable (format crc32) (manyPath 1) = .ok (manyRecords 1) := by
    show (format crc32).openTable file' >>= (format crc32).records = _
    rw [hopen', ok_bind, hrecords']
  have hdisjoint : ∀ r ∈ manyRecords 0, ∀ r' ∈ manyRecords 1, r.1 < r'.1 := by
    intro r hr r' hr'
    obtain ⟨key, -, rfl⟩ := mem_manyRecords hr
    obtain ⟨key', -, rfl⟩ := mem_manyRecords hr'
    exact List.cons_lt_cons_iff.2 (.inl (by decide))
  have hmergeable : s.Mergeable crc32 manyInputs ⟨1, 2⟩ := by
    refine ⟨List.cons_ne_nil _ _,
      List.forall_mem_cons.2 ⟨hread, List.forall_mem_singleton.2 hread'⟩,
      List.forall_mem_cons.2 ⟨sorted_manyRecords 0, List.forall_mem_singleton.2 ?_⟩, ?_, rfl⟩
    · exact sorted_manyRecords 1
    refine List.pairwise_pair.2 fun key entry entry' hr hr' => ?_
    exact absurd rfl (hdisjoint _ hr _ hr').ne
  have hsorted : Sorted (manyRecords 0 ++ manyRecords 1) :=
    List.pairwise_append.2 ⟨sorted_manyRecords 0, sorted_manyRecords 1, hdisjoint⟩
  have hlen : (manyRecords 0 ++ manyRecords 1).length = 2^29 := by
    rw [List.length_append, length_manyRecords, length_manyRecords]
    norm_num
  have hfits := hmergeable.outputFits (by
    rw [ncard_survivingKeys hsorted survives_manyInputs, hlen, bloomBitsPerKey]
    norm_num) (h s manyInputs ⟨1, 2⟩ hmergeable)
  rcases hfits _ hsorted survives_manyInputs with hnil | ⟨-, hstorable⟩
  · rw [hnil] at hlen
    norm_num at hlen
  · have hbloom := hstorable.bloom
    rw [bloomBits, hlen, bloomBitsPerKey] at hbloom
    norm_num at hbloom

end Store

end Kronos
