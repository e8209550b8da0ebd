import Kronos.Sstable.Blocks

/-!
# What an iterator passes

An iterator loads a block exactly if its CRC32 matches and its count is not zero
(`Iterator.loadBlock_iff`), and parses a record exactly where its bytes lie. So what it passes is a
matter of the layout alone: it walks a file to its end exactly if each block has the records that it
counts, whatever lies behind them (`Iterator.yields_iff`), and it hands out the records with which
the blocks begin (`Iterator.handsOut_iff`).
-/

namespace Kronos

open ByteString SstableBuilder SstableReader Sstable

namespace SstableReader.Iterator

variable {H : Hashing} {it it' : Iterator}

/-! ## Loading and parsing -/

/-- The iterator in a block of which it has parsed no record. -/
def inBlock (it : Iterator) (i count : ℕ) (payload : Bytes) : Iterator :=
  { it with
    currentBlockIndex := i
    blockPayload := payload
    cursor := 4
    recordCount := count
    currentRecordIndex := 0 }

/-- The iterator at a record behind its cursor. -/
def atRecord (it : Iterator) (r : TableRecord) : Iterator :=
  { it with
    cursor := it.cursor + (recordBytes r).length
    currentKey := r.1
    currentEntry := r.2
    valid := true }

/-- The bytes of the block behind the cursor. -/
def rest (it : Iterator) : Bytes := it.blockPayload.drop it.cursor

/-- A block is loaded exactly if its CRC32 matches and it counts some records. -/
theorem loadBlock_iff {i : ℕ} :
    it.loadBlock H i = .ok it' ↔ ∃ e count rest, it.reader.sparseIndex[i]? = some e ∧
      Begins H it.reader.file e count [] rest ∧
        it' = it.inBlock i count (toLe 4 count ++ rest) := by
  constructor
  · intro h
    unfold loadBlock at h
    cases he : it.reader.sparseIndex[i]? with
    | none =>
      rw [he] at h
      cases h
    | some e =>
      rw [he] at h
      dsimp only at h
      split_ifs at h with hsize
      obtain ⟨bytes, hread, h⟩ := bind_eq_ok h
      obtain ⟨payload, hcheck, h⟩ := bind_eq_ok h
      split_ifs at h with hcount
      cases h
      have hchecked := Checked.of_read (by omega) hread hcheck
      have hlen := hchecked.size
      -- The payload is its first four bytes and the rest.
      have hfirst : (slice payload 0 4).length = 4 := length_slice (by omega)
      have hlt := ofLe_lt (slice payload 0 4)
      rw [hfirst] at hlt
      have hpayload : toLe 4 (ofLe (slice payload 0 4)) ++ payload.drop 4 = payload := by
        rw [toLe_ofLe_of_length hfirst, slice, List.drop_zero, List.take_append_drop]
      refine ⟨e, ofLe (slice payload 0 4), payload.drop 4, rfl, ⟨?_, hlt, by omega, by simp,
        by simp⟩, by rw [hpayload]; rfl⟩
      rwa [recordsBytes_nil, List.append_nil, hpayload]
  · rintro ⟨e, count, rest, he, ⟨hchecked, hlt, hpos, -, -⟩, rfl⟩
    rw [recordsBytes_nil, List.append_nil] at hchecked
    obtain ⟨hread, hcheck⟩ := hchecked.read readMessage "Invalid SSTable block CRC"
    have hsize := hchecked.size
    rw [List.length_append, length_toLe] at hsize
    have hslice : slice (toLe 4 count ++ rest) 0 4 = toLe 4 count :=
      slice_eq (a := []) (List.prefix_append _ _) rfl (length_toLe 4 _)
    rw [loadBlock, he]
    simp only [if_neg (show ¬e.blockSize < 8 by omega), hread, ok_bind, hcheck, hslice,
      ofLe_toLe_of_lt (show count < 256 ^ 4 by omega), if_neg hpos.ne']
    rfl

/-- A record is parsed exactly where its bytes lie. -/
theorem parseCurrentRecord_iff :
    it.parseCurrentRecord = .ok it' ↔
      ∃ r, Encodable r ∧ recordBytes r <+: it.rest ∧ it' = it.atRecord r := by
  constructor
  · intro h
    unfold parseCurrentRecord at h
    obtain ⟨⟨⟨key, e⟩, cursor⟩, hread, h⟩ := bind_eq_ok h
    cases h
    obtain ⟨hr, hbytes, rfl⟩ := readRecord_iff.1 hread
    exact ⟨(key, e), hr, hbytes, rfl⟩
  · rintro ⟨r, hr, hbytes, rfl⟩
    rw [parseCurrentRecord, readRecord_iff.2 ⟨hr, hbytes, rfl⟩, ok_bind]
    rfl

/-! ## Where an iterator stands -/

/-- The iterator stands on a record. In its block, some more are counted, and these bytes follow;
behind its block, the index has these entries. -/
structure Stands (it : Iterator) (file : Bytes) (r : TableRecord) (left : ℕ) (rest : Bytes)
    (es : List SparseIndexEntry) : Prop where
  valid : it.valid = true
  current : (it.currentKey, it.currentEntry) = r
  file : it.reader.file = file
  left : it.currentRecordIndex + 1 + left = it.recordCount
  rest : it.rest = rest
  entries : it.reader.sparseIndex.drop (it.currentBlockIndex + 1) = es

variable {file rest : Bytes} {r : TableRecord} {left : ℕ} {es : List SparseIndexEntry}

/-- Behind a record that was parsed, what followed it follows. -/
theorem rest_atRecord (h : it.rest = recordBytes r ++ rest) : (it.atRecord r).rest = rest := by
  show it.blockPayload.drop (it.cursor + (recordBytes r).length) = rest
  rw [← List.drop_drop]
  exact (congrArg _ h).trans (List.drop_left' rfl)

/-- Loading a block and parsing its first record puts the iterator on the record. -/
theorem enter_iff {i : ℕ} : (do let it ← it.loadBlock H i; it.parseCurrentRecord) = .ok it' ↔
    ∃ e count r rest, it.reader.sparseIndex[i]? = some e ∧
      Begins H it.reader.file e count [r] rest ∧
        it' = (it.inBlock i count (toLe 4 count ++ recordBytes r ++ rest)).atRecord r := by
  constructor
  · intro h
    obtain ⟨it₁, hload, hparse⟩ := bind_eq_ok h
    obtain ⟨e, count, payload, he, hbegins, rfl⟩ := loadBlock_iff.1 hload
    obtain ⟨r, hr, ⟨rest, hrest⟩, rfl⟩ := parseCurrentRecord_iff.1 hparse
    have hpayload : payload = recordBytes r ++ rest := by
      rw [hrest]
      exact (List.drop_left' (length_toLe 4 count)).symm
    refine ⟨e, count, r, rest, he, ⟨?_, hbegins.count_lt, hbegins.count_pos, hbegins.count_pos,
      List.forall_mem_singleton.2 hr⟩, by rw [hpayload, List.append_assoc]⟩
    have hchecked := hbegins.checked
    rw [recordsBytes_nil, List.append_nil, hpayload, ← List.append_assoc] at hchecked
    simpa using hchecked
  · rintro ⟨e, count, r, rest, he, hbegins, rfl⟩
    have hchecked := hbegins.checked
    have hpayload : toLe 4 count ++ recordsBytes [r] ++ rest =
        toLe 4 count ++ (recordBytes r ++ rest) := by simp
    rw [hpayload] at hchecked
    have hload : it.loadBlock H i =
        .ok (it.inBlock i count (toLe 4 count ++ (recordBytes r ++ rest))) :=
      loadBlock_iff.2 ⟨e, count, recordBytes r ++ rest, he, ⟨by simpa using hchecked,
        hbegins.count_lt, hbegins.count_pos, Nat.zero_le _, by simp⟩, rfl⟩
    rw [hload, ok_bind, List.append_assoc]
    refine parseCurrentRecord_iff.2 ⟨r, hbegins.encodable r (.head _), ⟨rest, ?_⟩, rfl⟩
    exact (List.drop_left' (length_toLe 4 count)).symm

/-- On the first record of a block, the iterator stands. -/
theorem stands_inBlock {i : ℕ} {e : SparseIndexEntry} {count : ℕ}
    (hbegins : Begins H it.reader.file e count [r] rest) :
    ((it.inBlock i count (toLe 4 count ++ recordBytes r ++ rest)).atRecord r).Stands
      it.reader.file r (count - 1) rest (it.reader.sparseIndex.drop (i + 1)) := by
  have hpos := hbegins.count_pos
  refine ⟨rfl, rfl, rfl, ?_, rest_atRecord ?_, rfl⟩
  · show 0 + 1 + (count - 1) = count
    omega
  · show (toLe 4 count ++ recordBytes r ++ rest).drop 4 = recordBytes r ++ rest
    rw [List.append_assoc]
    exact List.drop_left' (length_toLe 4 count)

namespace Stands

/-- `next` in a block of which more is counted parses what follows. -/
theorem next_record_iff (h : it.Stands file r (left + 1) rest es) :
    it.next H = .ok it' ↔ ∃ r' rest', Encodable r' ∧ rest = recordBytes r' ++ rest' ∧
      it' = { it with currentRecordIndex := it.currentRecordIndex + 1 }.atRecord r' := by
  have hleft := h.left
  rw [Iterator.next, if_neg (by simp [h.valid]), if_pos (by omega), parseCurrentRecord_iff]
  constructor
  · rintro ⟨r', hr', ⟨rest', hrest'⟩, rfl⟩
    exact ⟨r', rest', hr', h.rest.symm.trans hrest'.symm, rfl⟩
  · rintro ⟨r', rest', hr', hrest', rfl⟩
    exact ⟨r', hr', ⟨rest', (h.rest.trans hrest').symm⟩, rfl⟩

/-- The iterator stands on the record that it has parsed. -/
theorem record {r' : TableRecord} {rest' : Bytes} (h : it.Stands file r (left + 1) rest es)
    (hrest : rest = recordBytes r' ++ rest') :
    ({ it with currentRecordIndex := it.currentRecordIndex + 1 }.atRecord r').Stands
      file r' left rest' es := by
  refine ⟨rfl, rfl, h.file, ?_, rest_atRecord (h.rest.trans hrest), h.entries⟩
  have hleft := h.left
  show it.currentRecordIndex + 1 + 1 + left = it.recordCount
  omega

/-- `next` at the end of the last block leaves the iterator invalid. -/
theorem next_end (h : it.Stands file r 0 rest []) :
    it.next H = .ok { it with valid := false } := by
  have hleft := h.left
  have hlast : it.currentBlockIndex + 1 ≥ it.reader.sparseIndex.length :=
    List.drop_eq_nil_iff.1 h.entries
  rw [Iterator.next, if_neg (by simp [h.valid]), if_neg (by omega), if_pos hlast]

/-- `next` at the end of a block enters the one that follows. -/
theorem next_block_iff {e : SparseIndexEntry} (h : it.Stands file r 0 rest (e :: es)) :
    it.next H = .ok it' ↔ ∃ count r' rest', Begins H file e count [r'] rest' ∧
      it' = (it.inBlock (it.currentBlockIndex + 1) count
        (toLe 4 count ++ recordBytes r' ++ rest')).atRecord r' := by
  have hleft := h.left
  have hnext : it.reader.sparseIndex[it.currentBlockIndex + 1]? = some e := by
    rw [← List.head?_drop, h.entries, List.head?_cons]
  have hmore : ¬it.currentBlockIndex + 1 ≥ it.reader.sparseIndex.length :=
    Nat.not_le.2 (List.getElem?_eq_some_iff.1 hnext).1
  rw [Iterator.next, if_neg (by simp [h.valid]), if_neg (by omega), if_neg hmore, enter_iff]
  rw [h.file]
  constructor
  · rintro ⟨e', count, r', rest', he', hbegins, rfl⟩
    obtain rfl := Option.some.inj (hnext.symm.trans he')
    exact ⟨count, r', rest', hbegins, rfl⟩
  · rintro ⟨count, r', rest', hbegins, rfl⟩
    exact ⟨e, count, r', rest', hnext, hbegins, rfl⟩

/-- The iterator stands on the first record of the block that it has entered. -/
theorem block {e : SparseIndexEntry} {count : ℕ} {r' : TableRecord} {rest' : Bytes}
    (h : it.Stands file r left rest (e :: es)) (hbegins : Begins H file e count [r'] rest') :
    ((it.inBlock (it.currentBlockIndex + 1) count
      (toLe 4 count ++ recordBytes r' ++ rest')).atRecord r').Stands file r'
      (count - 1) rest' es := by
  obtain rfl := h.file
  have hstands := @stands_inBlock H it rest' r' (it.currentBlockIndex + 1) e count hbegins
  rwa [← List.tail_drop, h.entries] at hstands

end Stands

/-! ## What an iterator yields -/

/-- The records behind that on which the iterator stands: those that its block still counts, and
those of the blocks that follow. -/
structure Behind (H : Hashing) (file : Bytes) (left : ℕ) (rest : Bytes)
    (es : List SparseIndexEntry) (rs : List TableRecord) (trailing : Bytes)
    (blocks : List (List TableRecord × Bytes)) : Prop where
  bytes : rest = recordsBytes rs ++ trailing
  length : rs.length = left
  encodable : ∀ r ∈ rs, Encodable r
  following : List.Forall₂ (Complete H file) es blocks

/-- An iterator that goes on to the end has passed all records of its block and of those behind
it. -/
theorem Yields.behind {rs : List TableRecord} (h : it.Yields H rs) :
    ∀ {r : TableRecord} {left : ℕ} {rest : Bytes} {es : List SparseIndexEntry},
      it.Stands file r left rest es → ∃ behind trailing blocks,
        Behind H file left rest es behind trailing blocks ∧
          rs = r :: (behind ++ allRecords blocks) := by
  induction h with
  | done hinvalid =>
    intro r left rest es hstands
    exact absurd hstands.valid (by simp [hinvalid])
  | @record it it' rs hvalid hnext hyields ih =>
    intro r left rest es hstands
    obtain rfl := hstands.current
    rcases left with _ | left
    · rcases es with _ | ⟨e, es⟩
      · -- The end of the last block.
        obtain rfl := Except.ok.inj (hstands.next_end.symm.trans hnext)
        cases hyields with
        | done _ => exact ⟨[], rest, [], ⟨rfl, rfl, by simp, .nil⟩, rfl⟩
        | record hvalid' _ _ => cases hvalid'
      · -- The end of a block that another one follows.
        obtain ⟨count, r', rest', hbegins, rfl⟩ := hstands.next_block_iff.1 hnext
        obtain ⟨behind, trailing, blocks, ⟨hbytes, hlen, hencodable, hblocks⟩, rfl⟩ :=
          ih (hstands.block hbegins)
        subst hbytes
        exact ⟨[], rest, (r' :: behind, trailing) :: blocks,
          ⟨rfl, rfl, by simp, .cons (hbegins.complete hlen hencodable) hblocks⟩, rfl⟩
    · obtain ⟨r', rest', hr', rfl, rfl⟩ := hstands.next_record_iff.1 hnext
      obtain ⟨behind, trailing, blocks, ⟨rfl, hlen, hencodable, hblocks⟩, rfl⟩ :=
        ih (hstands.record rfl)
      refine ⟨r' :: behind, trailing, blocks, ⟨?_, congrArg (· + 1) hlen,
        List.forall_mem_cons.2 ⟨hr', hencodable⟩, hblocks⟩, rfl⟩
      rw [recordsBytes_cons, List.append_assoc]

/-- Conversely, over such blocks an iterator goes on to the end. -/
theorem Stands.yields (blocks : List (List TableRecord × Bytes)) :
    ∀ {behind : List TableRecord} {it : Iterator} {r : TableRecord} {left : ℕ}
      {rest trailing : Bytes} {es : List SparseIndexEntry}, it.Stands file r left rest es →
        Behind H file left rest es behind trailing blocks →
          it.Yields H (r :: (behind ++ allRecords blocks)) := by
  induction blocks with
  | nil =>
    intro behind
    induction behind with
    | nil =>
      intro it r left rest trailing es h hbehind
      obtain ⟨rfl, rfl, -, hes⟩ := hbehind
      cases hes
      rw [← h.current]
      exact .record h.valid h.next_end (.done rfl)
    | cons r' behind ih =>
      intro it r left rest trailing es h hbehind
      obtain ⟨rfl, rfl, hencodable, hes⟩ := hbehind
      rw [List.forall_mem_cons] at hencodable
      rw [recordsBytes_cons, List.append_assoc] at h
      rw [← h.current]
      exact .record h.valid (h.next_record_iff.2 ⟨r', _, hencodable.1, rfl, rfl⟩)
        (ih (h.record rfl) ⟨rfl, rfl, hencodable.2, hes⟩)
  | cons block blocks ihblocks =>
    intro behind
    induction behind with
    | nil =>
      intro it r left rest trailing es h hbehind
      obtain ⟨rfl, rfl, -, hes⟩ := hbehind
      obtain ⟨e, es, hcomplete, hblocks, rfl⟩ := List.forall₂_cons_right_iff.1 hes
      obtain ⟨records, trailing'⟩ := block
      rcases records with _ | ⟨r', records⟩
      · exact absurd hcomplete.count_pos (lt_irrefl 0)
      obtain ⟨hbegins, -, hencodable⟩ := begins_cons.1 hcomplete
      rw [← h.current]
      exact .record h.valid (h.next_block_iff.2 ⟨_, r', _, hbegins, rfl⟩)
        (ihblocks (h.block hbegins) ⟨rfl, rfl, hencodable, hblocks⟩)
    | cons r' behind ih =>
      intro it r left rest trailing es h hbehind
      obtain ⟨rfl, rfl, hencodable, hes⟩ := hbehind
      rw [List.forall_mem_cons] at hencodable
      rw [recordsBytes_cons, List.append_assoc] at h
      rw [← h.current]
      exact .record h.valid (h.next_record_iff.2 ⟨r', _, hencodable.1, rfl, rfl⟩)
        (ih (h.record rfl) ⟨rfl, rfl, hencodable.2, hes⟩)

/-- Where the constructor leaves an iterator over an index that is not empty. -/
theorem new_iff {reader : SstableReader} {e : SparseIndexEntry}
    (hindex : reader.sparseIndex = e :: es) :
    Iterator.new H reader = .ok it ↔ ∃ count r rest, Begins H reader.file e count [r] rest ∧
      it = (inBlock ⟨reader, 0, [], 0, [], ⟨[], 0, .delete⟩, 0, 0, false⟩ 0 count
        (toLe 4 count ++ recordBytes r ++ rest)).atRecord r := by
  rw [Iterator.new, if_neg (by rw [hindex]; simp), enter_iff]
  dsimp only
  rw [hindex]
  constructor
  · rintro ⟨e', count, r, rest, he, hbegins, rfl⟩
    cases he
    exact ⟨count, r, rest, hbegins, rfl⟩
  · rintro ⟨count, r, rest, hbegins, rfl⟩
    exact ⟨e, count, r, rest, rfl, hbegins, rfl⟩

/-- **What an iterator walks through.** It comes to the end of a file and yields some records
exactly if each block has the records that it counts, and these are all of them. -/
theorem yields_iff {reader : SstableReader} {rs : List TableRecord} :
    (∃ it, Iterator.new H reader = .ok it ∧ it.Yields H rs) ↔
      ∃ blocks, List.Forall₂ (Complete H reader.file) reader.sparseIndex blocks ∧
        rs = allRecords blocks := by
  cases hindex : reader.sparseIndex with
  | nil =>
    have hnew : Iterator.new H reader =
        .ok ⟨reader, 0, [], 0, [], ⟨[], 0, .delete⟩, 0, 0, false⟩ := by
      rw [Iterator.new, if_pos hindex]
    constructor
    · rintro ⟨it, hit, hyields⟩
      obtain rfl := Except.ok.inj (hnew.symm.trans hit)
      cases hyields with
      | done _ => exact ⟨[], .nil, rfl⟩
      | record hvalid _ _ => cases hvalid
    · rintro ⟨blocks, hblocks, rfl⟩
      cases hblocks
      exact ⟨_, hnew, .done rfl⟩
  | cons e es =>
    have hdrop : reader.sparseIndex.drop (0 + 1) = es := by rw [hindex]; rfl
    constructor
    · rintro ⟨it, hit, hyields⟩
      obtain ⟨count, r, rest, hbegins, rfl⟩ := (new_iff hindex).1 hit
      obtain ⟨behind, trailing, blocks, ⟨rfl, hlen, hencodable, hblocks⟩, rfl⟩ :=
        hyields.behind (stands_inBlock hbegins)
      refine ⟨(r :: behind, trailing) :: blocks, .cons (hbegins.complete hlen hencodable) ?_, rfl⟩
      rwa [hdrop] at hblocks
    · rintro ⟨blocks, hblocks, rfl⟩
      obtain ⟨block, blocks, hcomplete, hblocks, rfl⟩ := List.forall₂_cons_left_iff.1 hblocks
      obtain ⟨records, trailing⟩ := block
      rcases records with _ | ⟨r, behind⟩
      · exact absurd hcomplete.count_pos (lt_irrefl 0)
      obtain ⟨hbegins, -, hencodable⟩ := begins_cons.1 hcomplete
      refine ⟨_, (new_iff hindex).2 ⟨_, r, _, hbegins, rfl⟩, ?_⟩
      refine (stands_inBlock hbegins).yields blocks ⟨rfl, rfl, hencodable, ?_⟩
      rwa [hdrop]

/-! ## What an iterator hands out -/

/-- The iterator hands out a record: it stands on it, or does so after some calls of `next`. -/
inductive HandsOut (H : Hashing) : Iterator → TableRecord → Prop where
  | current {it : Iterator} : it.valid = true → HandsOut H it (it.currentKey, it.currentEntry)
  | next {it it' : Iterator} {r : TableRecord} : it.valid = true → it.next H = .ok it' →
    HandsOut H it' r → HandsOut H it r

/-- What an iterator hands out lies behind the record on which it stands: in its block, or in one of
those that follow, if its block has all records that it counts. -/
theorem HandsOut.behind {r' : TableRecord} (h : it.HandsOut H r') :
    ∀ {r : TableRecord} {left : ℕ} {rest : Bytes} {es : List SparseIndexEntry},
      it.Stands file r left rest es → r' = r ∨ ∃ behind trailing,
        rest = recordsBytes behind ++ trailing ∧ (∀ r ∈ behind, Encodable r) ∧
          (behind.length ≤ left ∧ r' ∈ behind ∨
            behind.length = left ∧ ∃ rs, TableBegins H file es rs ∧ r' ∈ rs) := by
  induction h with
  | current hvalid =>
    intro r left rest es hstands
    exact .inl hstands.current
  | @next it it' r' hvalid hnext hhands ih =>
    intro r left rest es hstands
    right
    rcases left with _ | left
    · rcases es with _ | ⟨e, es⟩
      · obtain rfl := Except.ok.inj (hstands.next_end.symm.trans hnext)
        cases hhands with
        | current hvalid' => cases hvalid'
        | next hvalid' _ _ => cases hvalid'
      · -- The record lies in the block that follows, or behind it.
        refine ⟨[], rest, rfl, by simp, .inr ⟨rfl, ?_⟩⟩
        obtain ⟨count, r₁, rest', hbegins, rfl⟩ := hstands.next_block_iff.1 hnext
        rcases ih (hstands.block hbegins) with rfl | ⟨behind, trailing, rfl, hencodable,
          ⟨hlen, hmem⟩ | ⟨hlen, rs, htable, hmem⟩⟩
        · exact ⟨[r'], .block hbegins, .head _⟩
        · exact ⟨r₁ :: behind, .block (begins_cons.2 ⟨hbegins, hlen, hencodable⟩), .tail _ hmem⟩
        · exact ⟨(r₁ :: behind) ++ rs, .blocks (hbegins.complete hlen hencodable) htable,
            List.mem_append_right _ hmem⟩
    · obtain ⟨r₁, rest', hr₁, rfl, rfl⟩ := hstands.next_record_iff.1 hnext
      rcases ih (hstands.record rfl) with rfl | ⟨behind, trailing, rfl, hencodable, hmem⟩
      · exact ⟨[r'], rest', by simp, List.forall_mem_singleton.2 hr₁,
          .inl ⟨Nat.le_add_left 1 left, .head _⟩⟩
      · refine ⟨r₁ :: behind, trailing, by simp, List.forall_mem_cons.2 ⟨hr₁, hencodable⟩, ?_⟩
        rcases hmem with ⟨hlen, hmem⟩ | ⟨hlen, hrs⟩
        · exact .inl ⟨Nat.succ_le_succ hlen, .tail _ hmem⟩
        · exact .inr ⟨congrArg (· + 1) hlen, hrs⟩

/-- Conversely, in its block an iterator hands out the records that follow. -/
theorem Stands.handsOut_block {r' : TableRecord} (behind : List TableRecord) :
    ∀ {it : Iterator} {r : TableRecord} {left : ℕ} {rest trailing : Bytes},
      it.Stands file r left rest es → rest = recordsBytes behind ++ trailing →
        (∀ r ∈ behind, Encodable r) → behind.length ≤ left → r' ∈ r :: behind →
          it.HandsOut H r' := by
  induction behind with
  | nil =>
    intro it r left rest trailing h _ _ _ hmem
    rw [List.mem_singleton.1 hmem, ← h.current]
    exact .current h.valid
  | cons r₁ behind ih =>
    intro it r left rest trailing h hbytes hencodable hlen hmem
    rcases List.mem_cons.1 hmem with rfl | hmem
    · rw [← h.current]
      exact .current h.valid
    obtain ⟨left, rfl⟩ := Nat.exists_eq_add_of_le' (Nat.le_of_lt_succ (Nat.lt_succ_of_le hlen))
    rw [List.forall_mem_cons] at hencodable
    rw [recordsBytes_cons, List.append_assoc] at hbytes
    rw [List.length_cons, ← Nat.add_assoc] at h
    refine .next h.valid (h.next_record_iff.2 ⟨r₁, _, hencodable.1, hbytes, rfl⟩) ?_
    exact ih (h.record hbytes) rfl hencodable.2 (Nat.le_add_left _ _) hmem

/-- Behind the records of its block, it goes on with the block that follows. -/
theorem Stands.handsOut_next {e : SparseIndexEntry} {count : ℕ} {r' r'' : TableRecord}
    {rest' : Bytes} (behind : List TableRecord) :
    ∀ {it : Iterator} {r : TableRecord} {left : ℕ} {rest trailing : Bytes},
      it.Stands file r left rest (e :: es) → rest = recordsBytes behind ++ trailing →
        (∀ r ∈ behind, Encodable r) → behind.length = left →
          Begins H file e count [r''] rest' →
            (∀ it' : Iterator, it'.Stands file r'' (count - 1) rest' es → it'.HandsOut H r') →
              it.HandsOut H r' := by
  induction behind with
  | nil =>
    intro it r left rest trailing h _ _ hlen hbegins hnext
    obtain rfl := hlen
    exact .next h.valid (h.next_block_iff.2 ⟨count, r'', rest', hbegins, rfl⟩)
      (hnext _ (h.block hbegins))
  | cons r₁ behind ih =>
    intro it r left rest trailing h hbytes hencodable hlen hbegins hnext
    obtain rfl := hlen
    rw [List.forall_mem_cons] at hencodable
    rw [recordsBytes_cons, List.append_assoc] at hbytes
    refine .next h.valid (h.next_record_iff.2 ⟨r₁, _, hencodable.1, hbytes, rfl⟩) ?_
    exact ih (h.record hbytes) rfl hencodable.2 rfl hbegins hnext

/-- An iterator on the first record of a block hands out the records with which the blocks from
there on begin. -/
theorem handsOut_of_begins {r' : TableRecord} {entries : List SparseIndexEntry}
    {rs : List TableRecord} (h : TableBegins H file entries rs) (hmem : r' ∈ rs) :
    ∃ e es count r rest, entries = e :: es ∧ Begins H file e count [r] rest ∧
      ∀ it : Iterator, it.Stands file r (count - 1) rest es → it.HandsOut H r' := by
  induction h with
  | @block e es count rs rest hbegins =>
    obtain ⟨r, behind, rfl⟩ := List.exists_cons_of_ne_nil (List.ne_nil_of_mem hmem)
    obtain ⟨hfirst, hlen, hencodable⟩ := begins_cons.1 hbegins
    exact ⟨e, es, count, r, _, rfl, hfirst, fun it hstands =>
      hstands.handsOut_block behind rfl hencodable hlen hmem⟩
  | @blocks e es rs rs' trailing hcomplete _ ih =>
    rcases rs with _ | ⟨r, behind⟩
    · exact absurd hcomplete.count_pos (lt_irrefl 0)
    obtain ⟨hfirst, hlen, hencodable⟩ := begins_cons.1 hcomplete
    refine ⟨e, es, _, r, _, rfl, hfirst, fun it hstands => ?_⟩
    rcases List.mem_append.1 hmem with hmem | hmem
    · exact hstands.handsOut_block behind rfl hencodable hlen hmem
    · obtain ⟨e', es', count, r'', rest', rfl, hbegins, hnext⟩ := ih hmem
      exact hstands.handsOut_next behind rfl hencodable rfl hbegins hnext

/-- **What an iterator hands out.** It hands out the records with which the blocks of a file
begin, and no others. -/
theorem handsOut_iff {reader : SstableReader} {r' : TableRecord} :
    (∃ it, Iterator.new H reader = .ok it ∧ it.HandsOut H r') ↔
      ∃ rs, TableBegins H reader.file reader.sparseIndex rs ∧ r' ∈ rs := by
  cases hindex : reader.sparseIndex with
  | nil =>
    constructor
    · rintro ⟨it, hit, hhands⟩
      rw [Iterator.new, if_pos hindex] at hit
      cases hit
      cases hhands with
      | current hvalid => cases hvalid
      | next hvalid _ _ => cases hvalid
    · rintro ⟨rs, htable, -⟩
      cases htable
  | cons e es =>
    have hdrop : reader.sparseIndex.drop (0 + 1) = es := by rw [hindex]; rfl
    constructor
    · rintro ⟨it, hit, hhands⟩
      obtain ⟨count, r, rest, hbegins, rfl⟩ := (new_iff hindex).1 hit
      have hstands := @stands_inBlock H ⟨reader, 0, [], 0, [], ⟨[], 0, .delete⟩, 0, 0, false⟩ rest r
        0 e count hbegins
      rw [hdrop] at hstands
      rcases hhands.behind hstands with rfl | ⟨behind, trailing, rfl, hencodable,
        ⟨hlen, hmem⟩ | ⟨hlen, rs, htable, hmem⟩⟩
      · exact ⟨[r'], .block hbegins, .head _⟩
      · exact ⟨r :: behind, .block (begins_cons.2 ⟨hbegins, hlen, hencodable⟩), .tail _ hmem⟩
      · exact ⟨(r :: behind) ++ rs, .blocks (hbegins.complete hlen hencodable) htable,
          List.mem_append_right _ hmem⟩
    · rintro ⟨rs, htable, hmem⟩
      obtain ⟨e', es', count, r, rest, hentries, hbegins, hnext⟩ := handsOut_of_begins htable hmem
      cases hentries
      refine ⟨_, (new_iff hindex).2 ⟨count, r, rest, hbegins, rfl⟩, hnext _ ?_⟩
      have hstands := @stands_inBlock H ⟨reader, 0, [], 0, [], ⟨[], 0, .delete⟩, 0, 0, false⟩ rest r
        0 e count hbegins
      rwa [hdrop] at hstands

end SstableReader.Iterator

end Kronos
