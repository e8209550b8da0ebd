import Kronos.Wal.Faults

/-!
# The files of a log

Every file with a header consists of the header, records with increasing sequence numbers, and a
rest that is no further record of them. This module says which rests there are, in terms of what is
written there: nothing, a part of a record, a record with another CRC32, a record whose sequence
number is out of order, or bytes with no valid operation (`Ending`). A file is read in one way only,
and what recovery does with it follows from how it ends (`recover_log`): it fails with the message
for this kind of rest and leaves the file as it is, or it returns the records and cuts off the rest.

Of a part of a record only the lengths are read. If it ends inside the CRC32, the bytes of it that
are there are compared with nothing, so `Interrupted` allows any.
-/

namespace Kronos.Wal

open ByteString

/-! ## Frames -/

/-- The offset of the CRC32 in the record that starts with the bytes `bs`, as its length fields
declare it. -/
def declaredBody (bs : Bytes) : ℕ := 17 + ofLe (slice bs 9 4) + ofLe (slice bs 13 4)

/-- The record that the length fields declare lies in the file. -/
def DeclaredFits (bs : Bytes) : Prop := declaredBody bs + 4 ≤ bs.length

/-- The record that the fields at the start of the bytes `bs` describe. -/
def describedRecord (bs : Bytes) : Record :=
  ⟨ofLe (slice bs 0 8), ⟨(slice bs 8 1).headD 0⟩, slice bs 17 (ofLe (slice bs 9 4)),
    slice bs (17 + ofLe (slice bs 9 4)) (ofLe (slice bs 13 4))⟩

/-- The operation byte is that of a `PUT` or a `DELETE`. -/
def ValidOperation (bs : Bytes) : Prop :=
  (⟨(slice bs 8 1).headD 0⟩ : OperationType) = .put ∨
    (⟨(slice bs 8 1).headD 0⟩ : OperationType) = .delete

/-- A record of the format, and four bytes in the place of its CRC32. -/
structure Framed (r : Record) (crc : Bytes) : Prop where
  writable : r.Writable
  sequence_le : r.sequence ≤ uint64Max
  length_crc : crc.length = 4

section Framed

variable {H : Hashing} {previousSequence : Option ℕ} {r : Record} {crc bs t : Bytes}

/-- Under some hash, the four bytes are the CRC32 of the record. -/
theorem Framed.exists_hashing (h : Framed r crc) :
    ∃ H', encodeRecord H' r = recordBody r ++ crc := by
  refine ⟨.total (fun _ => UInt32.ofNat (ofLe crc)) fun _ => 0,
    congrArg (recordBody r ++ ·) ?_⟩
  have hlt := ofLe_lt crc
  rw [h.length_crc] at hlt
  show toLe 4 (UInt32.ofNat (ofLe crc)).toNat = crc
  have hvalue : (UInt32.ofNat (ofLe crc)).toNat = ofLe crc := UInt32.toNat_ofNat_of_lt' hlt
  rw [hvalue, toLe_ofLe_of_length h.length_crc]

/-- A framed record has the length of a record. -/
theorem Framed.length (h : Framed r crc) :
    (recordBody r ++ crc).length = recordLength r.key.length r.value.length := by
  obtain ⟨H', hH'⟩ := h.exists_hashing
  rw [← hH', length_encodeRecord]

/-- Where the declared record fits, its key and its value have the declared lengths. -/
theorem length_described (hfits : DeclaredFits bs) :
    (describedRecord bs).key.length = ofLe (slice bs 9 4) ∧
      (describedRecord bs).value.length = ofLe (slice bs 13 4) := by
  unfold DeclaredFits declaredBody at hfits
  exact ⟨length_slice (by omega), length_slice (by omega)⟩

/-- The bytes up to the declared CRC32 are the body of the record that they describe. -/
theorem recordBody_described (hfits : DeclaredFits bs) :
    recordBody (describedRecord bs) = bs.take (declaredBody bs) := by
  obtain ⟨hkey, hvalue⟩ := length_described hfits
  unfold DeclaredFits declaredBody at hfits
  have hlen : ∀ m n, m + n ≤ bs.length → (slice bs m n).length = n := fun _ _ => length_slice
  have hbyte : [(slice bs 8 1).headD 0] = slice bs 8 1 := by
    obtain ⟨b, hb⟩ := List.length_eq_one_iff.1 (hlen 8 1 (by omega))
    rw [hb, List.headD_cons]
  rw [recordBody, hkey, hvalue, toLe_ofLe_of_length (hlen 9 4 (by omega)),
    toLe_ofLe_of_length (hlen 13 4 (by omega)), describedRecord, hbyte,
    toLe_ofLe_of_length (hlen 0 8 (by omega)), slice_fields, declaredBody]

/-- Bytes with a valid operation and the payload that they declare begin with a frame. -/
theorem framed_described (hop : ValidOperation bs) (hfits : DeclaredFits bs) :
    Framed (describedRecord bs) (slice bs (declaredBody bs) 4) := by
  obtain ⟨hkey, hvalue⟩ := length_described hfits
  have hcrc : (slice bs (declaredBody bs) 4).length = 4 := length_slice hfits
  unfold DeclaredFits declaredBody at hfits
  have hk32 := ofLe_lt (slice bs 9 4)
  have hv32 := ofLe_lt (slice bs 13 4)
  have hs64 : (describedRecord bs).sequence < 256 ^ (slice bs 0 8).length := ofLe_lt _
  rw [length_slice (by omega)] at hk32 hv32 hs64
  refine ⟨⟨hop, ?_, ?_⟩, ?_, hcrc⟩
  · rw [hkey, uint32Max]
    omega
  · rw [hvalue, uint32Max]
    omega
  · rw [uint64Max]
    omega

/-- Behind the frame comes the rest. -/
theorem frame_append_drop (hfits : DeclaredFits bs) :
    recordBody (describedRecord bs) ++ slice bs (declaredBody bs) 4 ++
      bs.drop (declaredBody bs + 4) = bs := by
  rw [recordBody_described hfits, slice, ← List.take_add, List.take_append_drop]

/-- What a pass finds in a frame: a record, if the CRC32 is its own and its sequence number is
behind the one before it. -/
theorem scan_frame (H : Hashing) (previousSequence : Option ℕ) (h : Framed r crc) (post : Bytes) :
    scan H previousSequence (recordBody r ++ crc ++ post) =
      if crc ≠ toLe 4 (H.checksum (recordBody r)) then
        .corrupt (.exception "WAL corruption detected: CRC32 mismatch")
          (recordLength r.key.length r.value.length)
      else match previousSequence.filter (r.sequence ≤ ·) with
        | some previous => .corrupt (.exception (nonIncreasingMessage previous r.sequence))
            (recordLength r.key.length r.value.length)
        | none => if r.sequence = uint64Max then
            .corrupt (.exception "WAL sequence space exhausted")
              (recordLength r.key.length r.value.length)
          else .record r := by
  by_cases hcrc : crc ≠ toLe 4 (H.checksum (recordBody r))
  · rw [if_pos hcrc]
    obtain ⟨H', hH'⟩ := h.exists_hashing
    have hfields := slice_encodeRecord H' r post h.writable h.sequence_le
    have hlen : (recordBody r ++ crc ++ post).length =
        recordLength r.key.length r.value.length + post.length := by
      rw [List.length_append, h.length]
    rw [hH'] at hfields
    obtain ⟨-, h2, h3, h4, -, -, h7, -⟩ := hfields
    have hstored : slice (recordBody r ++ crc ++ post) (17 + r.key.length + r.value.length) 4 =
        crc := slice_eq (List.prefix_append _ _) (length_recordBody r) h.length_crc
    have hop : ¬(r.operation ≠ .put ∧ r.operation ≠ .delete) := by
      rintro ⟨hput, hdelete⟩
      exact h.writable.1.elim hput hdelete
    have hne : H.checksum (recordBody r) ≠ ofLe crc := by
      intro heq
      rw [heq, toLe_ofLe_of_length h.length_crc] at hcrc
      exact hcrc rfl
    simp only [recordLength] at hlen
    simp only [scan, h2, h3, h4, h7, hstored, recordLength]
    rw [if_neg (by omega), if_neg (by omega), if_neg hop, if_neg (by omega), if_neg (by omega),
      if_pos hne]
  · rw [if_neg hcrc, not_not.1 hcrc]
    exact scan_encodeRecord H previousSequence r post h.writable h.sequence_le

/-! ## Parts of a frame -/

/-- What is there of a record that was not written to its end. -/
def Interrupted (t : Bytes) : Prop :=
  ∃ r crc, Framed r crc ∧ t <+: recordBody r ++ crc ∧ 0 < t.length ∧
    t.length < (recordBody r ++ crc).length

/-- The bytes that a pass takes for an incomplete record. -/
theorem scan_eq_torn_iff : scan H previousSequence t = .torn ↔ 0 < t.length ∧
    (t.length < 9 ∨ ValidOperation t ∧ (t.length < 17 ∨ ¬DeclaredFits t)) := by
  unfold scan ValidOperation DeclaredFits declaredBody recordLength
  dsimp only
  constructor
  · intro h
    cases hfilter : previousSequence.filter (ofLe (slice t 0 8) ≤ ·) <;>
      rw [hfilter] at h <;> split_ifs at h with h0 h9 hop h17 hlength
    all_goals grind
  · rintro ⟨h0, h⟩
    rw [if_neg (by omega)]
    split_ifs with h9 hop h17 hlength
    all_goals grind

/-- Without a valid operation, a pass reads no further. -/
theorem scan_of_invalidOperation (hlen : 9 ≤ t.length) (hop : ¬ValidOperation t) :
    scan H previousSequence t =
      .corrupt (.exception "WAL corruption detected: invalid operation") 9 := by
  unfold ValidOperation at hop
  unfold scan
  dsimp only
  rw [if_neg (by omega), if_neg (by omega), if_pos (not_or.1 hop)]

/-- A part of a frame is taken for an incomplete record. -/
theorem Interrupted.scan (h : Interrupted t) : scan H previousSequence t = .torn := by
  obtain ⟨r, crc, hframed, hprefix, hpos, hlt⟩ := h
  obtain ⟨H', hH'⟩ := hframed.exists_hashing
  rw [← hH'] at hprefix hlt
  have htorn := scan_prefix H' none r t hframed.writable hframed.sequence_le hprefix hlt
  rw [if_neg (by omega)] at htorn
  exact scan_eq_torn_iff.2 (scan_eq_torn_iff.1 htorn)

/-- So it is cut off, wherever the log stands. -/
theorem Interrupted.tornTail (h : Interrupted t) : TornTail H t := by
  intro previousSequence
  have hpos : 0 < t.length := (scan_eq_torn_iff.1 (@Interrupted.scan H none t h)).1
  rw [Interrupted.scan h, if_neg hpos.ne']

/-- Bytes with the lengths of a record, but not all of what these declare, are a part of a frame. -/
theorem interrupted_of_not_fits (hlen : 17 ≤ bs.length) (hop : ValidOperation bs)
    (hfits : ¬DeclaredFits bs) : Interrupted bs := by
  -- With the bytes that are missing, they are a frame.
  let rest := List.replicate (declaredBody bs + 4 - bs.length) (0 : UInt8)
  unfold DeclaredFits at hfits
  have hslice : ∀ {m n}, m + n ≤ 17 → slice (bs ++ rest) m n = slice bs m n := fun hmn =>
    Eq.symm <| slice_of_prefix (List.prefix_append bs rest) (by omega)
  have hbody : declaredBody (bs ++ rest) = declaredBody bs := by
    unfold declaredBody
    rw [hslice (by omega), hslice (by omega)]
  have hwhole : (bs ++ rest).length = declaredBody bs + 4 := by
    rw [List.length_append, List.length_replicate]
    omega
  have hvalid : ValidOperation (bs ++ rest) := by
    unfold ValidOperation
    rwa [hslice (by omega)]
  have hdeclares : DeclaredFits (bs ++ rest) := by rw [DeclaredFits, hbody, hwhole]
  have hframed := framed_described hvalid hdeclares
  have hframe := frame_append_drop hdeclares
  have hall : (bs ++ rest).drop (declaredBody (bs ++ rest) + 4) = [] :=
    List.drop_of_length_le (by omega)
  rw [hall, List.append_nil] at hframe
  refine ⟨_, _, hframed, ?_, by omega, ?_⟩
  · rw [hframe]
    exact List.prefix_append bs rest
  · rw [hframe]
    omega

/-- The first bytes of a part of a frame are one. -/
theorem Interrupted.of_front (h : Interrupted bs) (hfront : t <+: bs) (hpos : 0 < t.length) :
    Interrupted t := by
  obtain ⟨r, crc, hframed, hbs, -, hlt⟩ := h
  exact ⟨r, crc, hframed, hfront.trans hbs, hpos, hfront.length_le.trans_lt hlt⟩

/-- With a valid operation, the bytes before the lengths are a part of a frame too. -/
theorem interrupted_of_operation (hlen : 9 ≤ bs.length) (hop : ValidOperation bs)
    (hshort : bs.length < 17 ∨ ¬DeclaredFits bs) : Interrupted bs := by
  by_cases h17 : 17 ≤ bs.length
  · exact interrupted_of_not_fits h17 hop (hshort.resolve_left (by omega))
  · -- They are followed by any lengths.
    let rest := List.replicate (17 - bs.length) (0 : UInt8)
    have hwhole : (bs ++ rest).length = 17 := by
      rw [List.length_append, List.length_replicate]
      omega
    have hvalid : ValidOperation (bs ++ rest) := by
      unfold ValidOperation
      rwa [← slice_of_prefix (List.prefix_append bs rest) hlen]
    have hfits : ¬DeclaredFits (bs ++ rest) := by
      unfold DeclaredFits declaredBody
      omega
    exact (interrupted_of_not_fits hwhole.ge hvalid hfits).of_front (List.prefix_append bs rest)
      (by omega)

/-- What a pass takes for an incomplete record is a part of a frame. -/
theorem interrupted_of_scan (h : scan H previousSequence t = .torn) : Interrupted t := by
  obtain ⟨hpos, hshort⟩ := scan_eq_torn_iff.1 h
  by_cases h9 : 9 ≤ t.length
  · obtain ⟨hop, hshort⟩ := hshort.resolve_left (by omega)
    exact interrupted_of_operation h9 hop hshort
  · -- Before the operation, they are the first bytes of a sequence number, and a `PUT` follows.
    let sequence := t ++ List.replicate (8 - t.length) (0 : UInt8)
    have hsequence : sequence.length = 8 := by
      rw [List.length_append, List.length_replicate]
      omega
    have hwhole : (sequence ++ [1]).length = 9 := by rw [List.length_append, hsequence]; rfl
    have hop : ValidOperation (sequence ++ [1]) := by
      have hslice : slice (sequence ++ [1]) 8 1 = [1] := slice_eq List.prefix_rfl hsequence rfl
      unfold ValidOperation
      rw [hslice]
      exact .inl rfl
    have hprefix : t <+: sequence ++ [1] := (List.prefix_append t _).trans (List.prefix_append _ _)
    exact (interrupted_of_operation hwhole.ge hop (.inl (by omega))).of_front hprefix hpos

end Framed

/-! ## The end of a log -/

/-- What follows behind the records `rs` of a log, and what recovery says about it: nothing, if it
accepts the log. -/
inductive Ending (H : Hashing) (rs : List Record) : Bytes → Option Failure → Prop where
  | clean : Ending H rs [] none
  | interrupted (t : Bytes) : Interrupted t → Ending H rs t none
  | operation (t : Bytes) : 9 ≤ t.length → ¬ValidOperation t →
    Ending H rs t (some (.exception "WAL corruption detected: invalid operation"))
  | checksum (r : Record) (crc post : Bytes) : Framed r crc →
    crc ≠ toLe 4 (H.checksum (recordBody r)) →
    Ending H rs (recordBody r ++ crc ++ post)
      (some (.exception "WAL corruption detected: CRC32 mismatch"))
  | sequence (r previous : Record) (post : Bytes) : r.Writable → rs.getLast? = some previous →
    r.sequence ≤ previous.sequence →
    Ending H rs (encodeRecord H r ++ post)
      (some (.exception (nonIncreasingMessage previous.sequence r.sequence)))
  | exhausted (r : Record) (post : Bytes) : r.Writable → r.sequence = uint64Max →
    Ending H rs (encodeRecord H r ++ post) (some (.exception "WAL sequence space exhausted"))

/-- A file is a header, the records `rs` of a history, and the rest `t`, about which recovery says
`outcome`. -/
structure Log (H : Hashing) (file : Bytes) (rs : List Record) (t : Bytes)
    (outcome : Option Failure) : Prop where
  history : ValidHistory rs
  file : file = header ++ encodeRecords H rs ++ t
  ending : Ending H rs t outcome

section Log

variable {H : Hashing} {rs : List Record} {t : Bytes} {outcome : Option Failure}

/-- What a pass finds behind the records, for what it says about it. -/
def Scan.Says : Scan → Option Failure → Prop
  | eof, outcome | torn, outcome => outcome = none
  | record _, _ => False
  | corrupt failure _, outcome => outcome = some failure

/-- Behind the records of a history, a pass finds what the log ends with. -/
theorem Ending.scan (hv : ValidHistory rs) (h : Ending H rs t outcome) :
    (scanBehind H rs t).Says outcome := by
  unfold scanBehind
  cases h with
  | clean => rfl
  | interrupted t hpart =>
    rw [hpart.scan]
    rfl
  | operation t hlen hop =>
    rw [scan_of_invalidOperation hlen hop]
    rfl
  | checksum r crc post hframed hcrc =>
    rw [scan_frame H _ hframed, if_pos hcrc]
    rfl
  | sequence r previous post hr hlast hle =>
    have hs : r.sequence ≤ uint64Max :=
      hle.trans (hv.sequence_lt previous (List.mem_of_getLast? hlast)).le
    rw [scan_encodeRecord H _ r post hr hs, hlast]
    simp [Option.filter, hle, Scan.Says]
  | exhausted r post hr hs =>
    have hfilter : (rs.getLast?.map (·.sequence)).filter (r.sequence ≤ ·) = none := by
      rw [Option.filter_eq_none_iff]
      rintro _ hlast
      obtain ⟨previous, hprevious, rfl⟩ := Option.map_eq_some_iff.1 hlast
      have := hv.sequence_lt previous (List.mem_of_getLast? hprevious)
      rw [hs, decide_eq_true_eq]
      omega
    rw [scan_encodeRecord H _ r post hr hs.le, hfilter]
    simp only [if_pos hs]
    rfl

/-- Behind the records of a history, bytes that do not begin with a further one end a log. -/
theorem exists_ending (hends : ∀ r, scanBehind H rs t ≠ .record r) :
    ∃ outcome, Ending H rs t outcome := by
  unfold scanBehind at hends
  rcases Nat.eq_zero_or_pos t.length with h0 | h0
  · rw [List.eq_nil_of_length_eq_zero h0]
    exact ⟨_, .clean⟩
  by_cases htorn : scan H (rs.getLast?.map (·.sequence)) t = .torn
  · exact ⟨_, .interrupted t (interrupted_of_scan htorn)⟩
  rw [scan_eq_torn_iff] at htorn
  have h9 : 9 ≤ t.length := by
    by_contra hlt
    exact htorn ⟨h0, .inl (by omega)⟩
  by_cases hop : ValidOperation t
  · have hfits : DeclaredFits t := by
      by_contra hfits
      exact htorn ⟨h0, .inr ⟨hop, .inr hfits⟩⟩
    obtain ⟨r, crc, post, hframed, rfl⟩ : ∃ r crc post, Framed r crc ∧
        t = recordBody r ++ crc ++ post :=
      ⟨_, _, _, framed_described hop hfits, (frame_append_drop hfits).symm⟩
    by_cases hcrc : crc = toLe 4 (H.checksum (recordBody r))
    · -- A record is out of order, since a further one would be one of the history.
      subst hcrc
      by_cases hmax : r.sequence = uint64Max
      · exact ⟨_, .exhausted r post hframed.writable hmax⟩
      cases hfilter : (rs.getLast?.map (·.sequence)).filter (r.sequence ≤ ·) with
      | none =>
        refine (hends r ?_).elim
        rw [scan_frame H _ hframed, if_neg (not_not.2 rfl), hfilter]
        simp only [if_neg hmax]
      | some sequence =>
        obtain ⟨hlast, hle⟩ := Option.filter_eq_some_iff.1 hfilter
        obtain ⟨previous, hprevious, rfl⟩ := Option.map_eq_some_iff.1 hlast
        exact ⟨_, .sequence r previous post hframed.writable hprevious (by simpa using hle)⟩
    · exact ⟨_, .checksum r crc post hframed hcrc⟩
  · exact ⟨_, .operation t h9 hop⟩

/-- What a pass finds says one thing. -/
theorem Scan.Says.unique {found : Scan} {outcome' : Option Failure} (h : found.Says outcome)
    (h' : found.Says outcome') : outcome = outcome' := by
  cases found with
  | record r => exact h.elim
  | _ => exact Eq.trans h h'.symm

/-- On the encoding of a record that extends the history, a pass finds it. -/
theorem scan_next {previousSequence : Option ℕ} {r : Record} (hr : r.Writable)
    (hs : r.sequence < uint64Max) (hprevious : ∀ previous ∈ previousSequence, previous < r.sequence)
    (post : Bytes) : scan H previousSequence (encodeRecord H r ++ post) = .record r := by
  have hfilter : previousSequence.filter (r.sequence ≤ ·) = none := by
    rw [Option.filter_eq_none_iff]
    intro previous hmem
    simpa using hprevious previous hmem
  rw [scan_encodeRecord H _ r post hr hs.le, hfilter]
  simp only [if_neg hs.ne]

/-- Bytes are the records of a history behind `previousSequence`, and a rest, in one way only. -/
theorem encodeRecords_append_unique (rs : List Record) : ∀ (rs' : List Record) (t t' : Bytes)
    (previousSequence : Option ℕ), ValidHistory rs → ValidHistory rs' →
    (∀ previous ∈ previousSequence, ∀ r ∈ rs, previous < r.sequence) →
    (∀ previous ∈ previousSequence, ∀ r ∈ rs', previous < r.sequence) →
    (∀ r, scan H ((rs.getLast?.map (·.sequence)).or previousSequence) t ≠ .record r) →
    (∀ r, scan H ((rs'.getLast?.map (·.sequence)).or previousSequence) t' ≠ .record r) →
    encodeRecords H rs ++ t = encodeRecords H rs' ++ t' → rs = rs' ∧ t = t' := by
  -- The first record of either list is what a pass finds in the bytes.
  have hfirst : ∀ {r : Record} {rs : List Record} {t : Bytes} {previousSequence : Option ℕ},
      ValidHistory (r :: rs) →
      (∀ previous ∈ previousSequence, ∀ r' ∈ r :: rs, previous < r'.sequence) →
      scan H previousSequence (encodeRecords H (r :: rs) ++ t) = .record r := by
    intro r rs t previousSequence hv hprevious
    rw [encodeRecords_cons, List.append_assoc]
    exact scan_next (hv.writable r (.head _)) (hv.sequence_lt r (.head _))
      (fun previous h => hprevious previous h r (.head _)) _
  have hlast : ∀ (r : Record) (rs : List Record) (previousSequence : Option ℕ),
      ((r :: rs).getLast?.map (·.sequence)).or previousSequence =
        (rs.getLast?.map (·.sequence)).or (some r.sequence) := by
    intro r rs previousSequence
    cases rs <;> simp [List.getLast?_cons]
  induction rs with
  | nil =>
    intro rs' t t' previousSequence _ hv' _ hprevious' hends _ heq
    cases rs' with
    | nil => exact ⟨rfl, heq⟩
    | cons r' rs' =>
      rw [encodeRecords_nil, List.nil_append] at heq
      exact (hends r' (heq ▸ hfirst hv' hprevious')).elim
  | cons r rs ih =>
    intro rs' t t' previousSequence hv hv' hprevious hprevious' hends hends' heq
    have hscan := hfirst (t := t) hv hprevious
    cases rs' with
    | nil =>
      rw [heq, encodeRecords_nil, List.nil_append] at hscan
      exact (hends' r hscan).elim
    | cons r' rs' =>
      rw [heq, hfirst hv' hprevious'] at hscan
      cases hscan
      rw [hlast] at hends hends'
      rw [encodeRecords_cons, encodeRecords_cons, List.append_assoc, List.append_assoc] at heq
      have hbehind : ∀ {rs : List Record}, ValidHistory (r :: rs) →
          ∀ previous ∈ some r.sequence, ∀ r' ∈ rs, previous < r'.sequence := by
        intro rs hv previous h r' h'
        rw [← Option.mem_some.1 h]
        exact List.rel_of_pairwise_cons hv.increasing h'
      obtain ⟨rfl, rfl⟩ := ih rs' t t' (some r.sequence) hv.tail hv'.tail (hbehind hv) (hbehind hv')
        hends hends' (List.append_cancel_left heq)
      exact ⟨rfl, rfl⟩

/-- A file that is read so contains its records. -/
theorem Log.contains {file : Bytes} (h : Log H file rs t outcome) : Contains H file rs t := by
  refine ⟨h.history, fun r hr => ?_, h.file⟩
  have hsays := h.ending.scan h.history
  rw [hr] at hsays
  exact hsays

/-- A file is a log in one way only. -/
theorem Log.unique {file : Bytes} {rs' : List Record} {t' : Bytes} {outcome' : Option Failure}
    (h : Log H file rs t outcome) (h' : Log H file rs' t' outcome') :
    rs = rs' ∧ t = t' ∧ outcome = outcome' := by
  have heq : encodeRecords H rs ++ t = encodeRecords H rs' ++ t' := by
    have hfile := h.file.symm.trans h'.file
    rw [List.append_assoc, List.append_assoc] at hfile
    exact List.append_cancel_left hfile
  obtain ⟨rfl, rfl⟩ := encodeRecords_append_unique rs rs' t t' none h.history h'.history (by simp)
    (by simp) (by simpa [scanBehind] using h.contains.ends)
    (by simpa [scanBehind] using h'.contains.ends) heq
  exact ⟨rfl, rfl, (h.ending.scan h.history).unique (h'.ending.scan h.history)⟩

/-- Every file with a header is a log. -/
theorem exists_log (H : Hashing) {file : Bytes} (h : header <+: file) :
    ∃ rs t outcome, Log H file rs t outcome := by
  obtain ⟨rs, t, hcontains⟩ := exists_contains H h
  obtain ⟨outcome, hending⟩ := exists_ending hcontains.ends
  exact ⟨rs, t, outcome, hcontains.history, hcontains.file, hending⟩

end Log

/-- **What recovery accepts.** A file with a header is a log in one way. If nothing or a part of a
record follows its records, recovery returns them and leaves the file with them alone. Otherwise it
fails with what it says about the rest, and leaves the file as it is. -/
theorem recover_log (H : Hashing) (body : Bytes) (position nextSequence : ℕ) :
    (∃! log : List Record × Bytes × Option Failure,
      Log H (header ++ body) log.1 log.2.1 log.2.2) ∧
    ∀ rs t,
      (Log H (header ++ body) rs t none →
        recover H ⟨header ++ body, position, nextSequence⟩ =
          (.ok rs, recovered H rs nextSequence)) ∧
      ∀ failure, Log H (header ++ body) rs t (some failure) →
        ∃ position', recover H ⟨header ++ body, position, nextSequence⟩ =
          (.error failure, ⟨header ++ body, position', nextAfter rs nextSequence⟩) := by
  refine ⟨?_, fun rs t => ⟨fun hlog => ?_, fun failure hlog => ?_⟩⟩
  · obtain ⟨rs, t, outcome, hlog⟩ := exists_log H (List.prefix_append header body)
    refine ⟨(rs, t, outcome), hlog, fun ⟨rs', t', outcome'⟩ hlog' => ?_⟩
    obtain ⟨rfl, rfl, rfl⟩ := hlog'.unique hlog
    rfl
  · have hsays := hlog.ending.scan hlog.history
    have hspec := @recover_spec H ⟨header ++ body, position, nextSequence⟩ rs t hlog.contains
    rcases hspec with ⟨failure, consumed, hscan, -⟩ | ⟨-, hrecover⟩
    · rw [hscan] at hsays
      cases hsays
    · exact hrecover
  · have hsays := hlog.ending.scan hlog.history
    have hspec := @recover_spec H ⟨header ++ body, position, nextSequence⟩ rs t hlog.contains
    rcases hspec with ⟨failure', consumed, hscan, hrecover⟩ | ⟨hscan | hscan, -⟩
    · rw [hscan] at hsays
      cases hsays
      exact ⟨_, hrecover⟩
    · rw [hscan] at hsays
      cases hsays
    · rw [hscan] at hsays
      cases hsays

end Kronos.Wal
