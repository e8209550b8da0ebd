import Kronos.Sstable.Blocks

/-!
# What a lookup finds

Over complete blocks in the order of their keys, `lookupEntry` looks a key up among their records
(`lookupEntry_iff`). It searches the last block whose first key does not exceed the key, and there
it stops at the key or at a larger one. Only behind all records of the block does it look at the
bytes that trail them, and throws if there are some (`StrayBytes`).
-/

namespace Kronos

open ByteString SstableBuilder SstableReader Sstable

namespace Sstable

/-- A record is a `PUT` or a `DELETE`. -/
def KnownOperation (r : TableRecord) : Prop := r.2.operation = .put ∨ r.2.operation = .delete

/-- The text of the error for bytes behind the last record of a block. -/
def trailingFailure : Failure := .exception "Unexpected trailing bytes in SSTable data block"

/-- The key lies behind the records of a block with trailing bytes, and before those of the next
block. -/
def StrayBytes (key : Bytes) (blocks : List (List TableRecord × Bytes)) : Prop :=
  ∃ before block behind, blocks = before ++ block :: behind ∧ block.2 ≠ [] ∧
    (∀ r ∈ block.1, r.1 < key) ∧ ∀ next ∈ behind.head?, key < firstKey next.1

/-- Such a block is the first one, or one of those behind it. -/
theorem strayBytes_cons {key : Bytes} {block : List TableRecord × Bytes}
    {blocks : List (List TableRecord × Bytes)} :
    StrayBytes key (block :: blocks) ↔
      (block.2 ≠ [] ∧ (∀ r ∈ block.1, r.1 < key) ∧ ∀ next ∈ blocks.head?, key < firstKey next.1) ∨
        StrayBytes key blocks := by
  constructor
  · rintro ⟨before, block', behind, hsplit, hstray⟩
    rcases before with _ | ⟨block'', before⟩
    · obtain ⟨rfl, rfl⟩ := List.cons.inj hsplit
      exact .inl hstray
    · obtain ⟨rfl, rfl⟩ := List.cons.inj hsplit
      exact .inr ⟨before, block', behind, rfl, hstray⟩
  · rintro (hstray | ⟨before, block', behind, rfl, hstray⟩)
    · exact ⟨[], block, blocks, rfl, hstray⟩
    · exact ⟨block :: before, block', behind, rfl, hstray⟩

/-- Behind the records of the blocks there are some. -/
theorem StrayBytes.lt {key : Bytes} {blocks : List (List TableRecord × Bytes)}
    (h : StrayBytes key blocks) (hne : ∀ block ∈ blocks, block.1 ≠ []) :
    ∃ r ∈ allRecords blocks, r.1 < key := by
  obtain ⟨before, block, behind, rfl, -, hlt, -⟩ := h
  have hmem : block ∈ before ++ block :: behind := by simp
  obtain ⟨r, hr⟩ := List.exists_mem_of_ne_nil _ (hne block hmem)
  exact ⟨r, List.mem_flatten_of_mem (List.mem_map_of_mem hmem) hr, hlt r hr⟩

/-! ## In a block -/

/-- The loop over the records of a block looks the key up among them, and throws behind them if
there are trailing bytes. -/
theorem lookupRecords_eq {payload key trailing : Bytes} (rs : List TableRecord)
    (hsorted : Sorted rs) (hencodable : ∀ r ∈ rs, Encodable r)
    (hknown : ∀ r ∈ rs, KnownOperation r) :
    ∀ {pre : Bytes}, pre ++ recordsBytes rs ++ trailing = payload →
      lookupRecords payload key rs.length pre.length =
        if trailing ≠ [] ∧ ∀ r ∈ rs, r.1 < key then .error trailingFailure
        else .ok (rs.lookup key) := by
  induction rs with
  | nil =>
    intro pre h
    have hlen : pre.length ≠ payload.length ↔ trailing ≠ [] := by
      rw [← h, recordsBytes_nil, List.append_nil, List.length_append, Ne, Nat.left_eq_add,
        List.length_eq_zero_iff]
    rw [List.length_nil, lookupRecords]
    simp only [hlen, List.not_mem_nil, false_implies, implies_true, and_true, List.lookup_nil]
    rfl
  | cons r rs ih =>
    intro pre h
    rw [recordsBytes_cons, ← List.append_assoc] at h
    rw [List.forall_mem_cons] at hencodable hknown
    have hpre : pre ++ recordBytes r <+: payload :=
      ⟨recordsBytes rs ++ trailing, by rw [← List.append_assoc, h]⟩
    have hrest := @ih hsorted.tail hencodable.2 hknown.2 (pre ++ recordBytes r) h
    rw [List.length_cons, lookupRecords, readRecord_eq hpre hencodable.1, ok_bind]
    obtain ⟨k, e⟩ := r
    dsimp only
    rcases lt_trichotomy k key with hlt | rfl | hgt
    · -- The search goes on behind the record.
      have hbeq : (key == k) = false := by simpa using hlt.ne'
      rw [if_neg hlt.ne, if_neg (not_lt.2 hlt.le), hrest, List.lookup_cons, hbeq]
      simp only [List.forall_mem_cons, hlt, true_and]
    · rw [if_pos rfl, if_pos hknown.1.symm, List.lookup_cons_self, if_neg]
      exact fun hall => lt_irrefl _ (hall.2 _ (.head _))
    · -- The keys behind this one are still larger.
      rw [if_neg hgt.ne', if_pos hgt, if_neg fun hall => lt_asymm hgt (hall.2 _ (.head _)),
        lookup_eq_none_of_forall_ne]
      intro r' hr'
      rcases List.mem_cons.1 hr' with rfl | hr'
      · exact hgt.ne'
      · exact (hgt.trans (hsorted.lt_of_mem hr')).ne'

/-- So does the search of a complete block. -/
theorem lookupBlock_eq {H : Hashing} {file : Bytes} {e : SparseIndexEntry}
    {block : List TableRecord × Bytes} (h : Complete H file e block) (hsorted : Sorted block.1)
    (hknown : ∀ r ∈ block.1, KnownOperation r) (key : Bytes) :
    lookupBlock H file e key =
      if block.2 ≠ [] ∧ ∀ r ∈ block.1, r.1 < key then .error trailingFailure
      else .ok (block.1.lookup key) := by
  obtain ⟨rs, trailing⟩ := block
  obtain ⟨hchecked, hlt, -, -, hencodable⟩ := h
  dsimp only at hchecked hlt hencodable hsorted hknown ⊢
  obtain ⟨hread, hcheck⟩ := hchecked.read preadMessage "Invalid SSTable block CRC"
  have hrecords := length_recordsBytes_ge rs
  have hcount : ofLe (toLe 4 rs.length) = rs.length := ofLe_toLe_of_lt (by omega)
  generalize hpayload : toLe 4 rs.length ++ recordsBytes rs ++ trailing = payload at hread hcheck
  have hlen : payload.length = 4 + (recordsBytes rs).length + trailing.length := by
    rw [← hpayload, List.length_append, List.length_append, length_toLe]
  have hloop := @lookupRecords_eq payload key trailing rs hsorted hencodable hknown _ hpayload
  rw [length_toLe] at hloop
  have hfield : readField blockFailure payload 4 0 = .ok (toLe 4 rs.length, 4) :=
    readField_start (by rw [← hpayload, List.append_assoc]; exact List.prefix_append _ _)
      (length_toLe 4 _)
  have hbytes : ¬(withChecksum H payload).length < 4 := by simp [withChecksum]
  rw [lookupBlock, hread, ok_bind, if_neg hbytes, hcheck, ok_bind, hfield, ok_bind]
  dsimp only
  rw [hcount, if_neg (by omega), hloop]

/-! ## In a table -/

/-- A complete block of which the index knows the first key. -/
structure Indexed (H : Hashing) (file : Bytes) (e : SparseIndexEntry)
    (block : List TableRecord × Bytes) : Prop where
  complete : Complete H file e block
  firstKey : e.firstKey = Sstable.firstKey block.1

/-- A complete block has a first record. -/
theorem Begins.exists_cons {H : Hashing} {file : Bytes} {e : SparseIndexEntry}
    {rs : List TableRecord} {trailing : Bytes} (h : Begins H file e rs.length rs trailing) :
    ∃ r behind, rs = r :: behind :=
  List.exists_cons_of_ne_nil (List.ne_nil_of_length_pos h.count_pos)

/-- So do all complete blocks. -/
theorem records_ne_nil {H : Hashing} {file : Bytes} {es : List SparseIndexEntry}
    {blocks : List (List TableRecord × Bytes)} (h : List.Forall₂ (Indexed H file) es blocks) :
    ∀ block ∈ blocks, block.1 ≠ [] := by
  induction h with
  | nil => simp
  | cons he _ ih =>
    exact List.forall_mem_cons.2 ⟨List.ne_nil_of_length_pos he.complete.count_pos, ih⟩

/-- The block that the index search selects is searched for the key, and is the only one that can
hold it. -/
theorem lookup_targetBlock {H : Hashing} {file : Bytes} {key : Bytes} {es : List SparseIndexEntry}
    {blocks : List (List TableRecord × Bytes)} (h : List.Forall₂ (Indexed H file) es blocks) :
    ∀ {e : SparseIndexEntry} {block : List TableRecord × Bytes}, Indexed H file e block →
      Sorted (block.1 ++ allRecords blocks) →
      (∀ r ∈ block.1 ++ allRecords blocks, KnownOperation r) → e.firstKey ≤ key →
        (StrayBytes key (block :: blocks) →
          lookupBlock H file (targetBlock key e es) key = .error trailingFailure) ∧
        (¬StrayBytes key (block :: blocks) →
          lookupBlock H file (targetBlock key e es) key =
            .ok ((block.1 ++ allRecords blocks).lookup key)) := by
  induction h with
  | nil =>
    intro e block he hsorted hknown _
    have hstray : StrayBytes key [block] ↔ block.2 ≠ [] ∧ ∀ r ∈ block.1, r.1 < key := by
      rw [strayBytes_cons]
      simp [StrayBytes]
    rw [allRecords_nil, List.append_nil] at hsorted hknown ⊢
    rw [targetBlock, lookupBlock_eq he.complete hsorted hknown key, hstray]
    exact ⟨fun hbehind => if_pos hbehind, fun hbehind => if_neg hbehind⟩
  | @cons e' block' es blocks he' hes ih =>
    intro e block he hsorted hknown _
    obtain ⟨records, trailing⟩ := block'
    obtain ⟨r', behind, rfl⟩ := he'.complete.exists_cons
    have hfirst : e'.firstKey = r'.1 := he'.firstKey
    rw [targetBlock, strayBytes_cons]
    rw [allRecords_cons] at hsorted hknown ⊢
    by_cases hle : e'.firstKey ≤ key
    · -- The keys of the first block are below the next first key.
      have hnext : ¬∀ next ∈ (((r' :: behind, trailing) :: blocks).head?), key < firstKey next.1 :=
        fun hall => not_le.2 (hall _ rfl) (he'.firstKey ▸ hle)
      have hlookup : (block.1 ++ ((r' :: behind) ++ allRecords blocks)).lookup key =
          ((r' :: behind) ++ allRecords blocks).lookup key := by
        refine lookup_append_of_forall_ne fun r hr => ?_
        exact ((hsorted.lt_of_append r hr r' (.head _)).trans_le (hfirst ▸ hle)).ne
      obtain ⟨hthrows, hfinds⟩ := ih he' hsorted.append_right
        (fun r hr => hknown r (List.mem_append_right _ hr)) hle
      rw [if_pos hle, hlookup]
      exact ⟨fun hstray => hthrows (hstray.resolve_left fun hblock => hnext hblock.2.2),
        fun hstray => hfinds fun hstray' => hstray (.inr hstray')⟩
    · -- All keys behind the first block are at least the next first key.
      have hlt : key < r'.1 := hfirst ▸ not_le.1 hle
      have hbehind : ∀ r ∈ (r' :: behind) ++ allRecords blocks, key < r.1 := by
        intro r hr
        rcases List.mem_cons.1 hr with rfl | hr
        · exact hlt
        · exact hlt.trans (hsorted.append_right.lt_of_mem hr)
      have hnot : ¬StrayBytes key ((r' :: behind, trailing) :: blocks) := by
        intro hstray
        obtain ⟨r, hr, hlt'⟩ := hstray.lt (records_ne_nil (.cons he' hes))
        exact lt_asymm hlt' (hbehind r hr)
      have hstray : (block.2 ≠ [] ∧ (∀ r ∈ block.1, r.1 < key) ∧
          ∀ next ∈ ((r' :: behind, trailing) :: blocks).head?, key < firstKey next.1) ∨
            StrayBytes key ((r' :: behind, trailing) :: blocks) ↔
          block.2 ≠ [] ∧ ∀ r ∈ block.1, r.1 < key := by
        rw [or_iff_left hnot]
        simpa [firstKey] using fun _ _ => hlt
      rw [if_neg hle, lookupBlock_eq he.complete hsorted.append_left
        (fun r hr => hknown r (List.mem_append_left _ hr)) key, hstray,
        lookup_append_of_forall_ne_right fun r hr => (hbehind r hr).ne']
      exact ⟨fun hbehind => if_pos hbehind, fun hbehind => if_neg hbehind⟩

/-- **What a lookup finds.** Over complete blocks in the order of their keys, with a Bloom filter
that accepts all of them, `lookupEntry` looks a key that is hashed up among their records, unless
the filter accepts the key and it leads to trailing bytes. -/
theorem lookupEntry_iff {H : Hashing} {reader : SstableReader}
    {blocks : List (List TableRecord × Bytes)}
    (h : List.Forall₂ (Indexed H reader.file) reader.sparseIndex blocks)
    (hsorted : Sorted (allRecords blocks)) (hknown : ∀ r ∈ allRecords blocks, KnownOperation r)
    (hbloom : ∀ r ∈ allRecords blocks, reader.bloomFilter.mayContain H r.1 = .ok true)
    {key : Bytes} (hkey : H.Hashes key) :
    reader.lookupEntry H key = .ok ((allRecords blocks).lookup key) ↔
      ¬(reader.bloomFilter.mayContain H key = .ok true ∧ StrayBytes key blocks) := by
  have hnil := records_ne_nil h
  obtain ⟨answer, hmay⟩ := BloomFilter.mayContain_returns reader.bloomFilter hkey
  rw [lookupEntry, hmay, ok_bind]
  cases answer with
  | false =>
    -- The filter rejects no key of the table.
    rw [if_pos Bool.false_ne_true]
    refine iff_of_true (congrArg _ (lookup_eq_none_of_forall_ne fun r hr => ?_).symm)
      fun hstray => by cases hstray.1
    rintro rfl
    cases hmay.symm.trans (hbloom r hr)
  | true =>
  rw [if_neg (not_not.2 rfl)]
  generalize reader.sparseIndex = index at h
  cases h with
  | nil => exact iff_of_true rfl fun hstray => by simpa [StrayBytes] using hstray.2
  | @cons e block es blocks he hes =>
    dsimp only
    rw [allRecords_cons] at hsorted hknown ⊢
    by_cases hlt : key < e.firstKey
    · -- The key is below all others.
      obtain ⟨records, trailing⟩ := block
      obtain ⟨r, behind, rfl⟩ := he.complete.exists_cons
      have hfirst : e.firstKey = r.1 := he.firstKey
      have hbelow : ∀ r' ∈ (r :: behind) ++ allRecords blocks, key < r'.1 := by
        intro r' hr'
        rcases List.mem_cons.1 hr' with rfl | hr'
        · rwa [← hfirst]
        · exact (hfirst ▸ hlt).trans (hsorted.lt_of_mem hr')
      rw [if_pos hlt]
      refine iff_of_true (congrArg _ (lookup_eq_none_of_forall_ne fun r' hr' => ?_).symm) ?_
      · exact (hbelow r' hr').ne'
      · rintro ⟨-, hstray⟩
        obtain ⟨r', hr', hlt'⟩ := hstray.lt hnil
        exact lt_asymm hlt' (hbelow r' hr')
    · obtain ⟨hthrows, hfinds⟩ := lookup_targetBlock hes he hsorted hknown (not_lt.1 hlt)
      rw [if_neg hlt]
      by_cases hstray : StrayBytes key (block :: blocks)
      · rw [hthrows hstray]
        exact iff_of_false (fun heq => by cases heq) (not_not.2 ⟨rfl, hstray⟩)
      · rw [hfinds hstray]
        exact iff_of_true rfl fun hboth => hstray hboth.2

end Sstable

end Kronos
