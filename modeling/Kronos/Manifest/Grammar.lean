import Kronos.Base.TextGrammar
import Kronos.Manifest.Machine

/-!
# The texts that a load accepts

The V2 snapshot grammar, together with the irregular texts that a load accepts as well. A snapshot
is the magic line, the label and the value of the checkpoint, and records between white space. Since
the end of the records is where no level can be extracted at the end of the file, and since
`operator>>` reads signs and needs no white space, a load also accepts a level with a sign, a token
that nothing separates from the one before it, and a lone sign or a number out of range behind the
last record. `Snapshot` notes each of them, so that a text is in the grammar when nothing is noted,
and `loadManifest_ok_iff` says that these are the texts that are accepted.
-/

namespace Kronos

open TextStream

/-! ## The grammar -/

/-- A departure from the grammar. -/
inductive Irregularity where
  /-- A level has a sign. -/
  | sign
  /-- No white space stands before a token. -/
  | joined
  /-- A sign without digits, or a number out of range, ends the text. -/
  | tail
  deriving DecidableEq, Repr

/-- White space only. -/
def IsSpaces (bytes : Bytes) : Prop := ∀ b ∈ bytes, isSpace b = true

/-- What is noted where a token begins. -/
def gapNoted (text : Bytes) : List Irregularity :=
  if text.head?.any isSpace then [] else [.joined]

/-- What is noted where a level begins, besides. -/
def signNoted (text : Bytes) : List Irregularity :=
  if (text.dropWhile isSpace).head? = some 43 ∨
    (text.dropWhile isSpace).head? = some 45 then [.sign]
  else []

/-- The value of the checkpoint: `NONE`, or the digits of a 64-bit number. -/
inductive CheckpointText : Bytes → Option UInt64 → Prop where
  | none : CheckpointText noCheckpoint none
  | some {digits : Bytes} : digits ≠ [] → (∀ b ∈ digits, isDigit b = true) →
    ofDecimal digits ≤ uint64Max →
    CheckpointText digits (some (UInt64.ofNat (ofDecimal digits)))

/-- A level at the beginning of a text, behind white space: digits, perhaps with a sign. -/
structure LevelAt (text : Bytes) (level : ℕ) (rest : Bytes) : Prop where
  split : ∃ space sign digits, NumberText text space sign digits rest ∧ digits ≠ [] ∧
    ofDecimal digits ≤ uint64Max ∧ level = signedValue uint64Max sign digits

/-- A field at the beginning of a text, behind white space. -/
def FieldAt (text value rest : Bytes) : Prop :=
  ∃ space token, text = space ++ (token ++ rest) ∧ IsSpaces space ∧ FieldText rest token value

/-- The records up to the end of a text. -/
inductive RecordsText : Bytes → List FileMetadata → List Irregularity → Prop where
  | done {space : Bytes} : IsSpaces space → RecordsText space [] []
  | loneSign {space : Bytes} (sign : UInt8) : IsSpaces space → sign = 43 ∨ sign = 45 →
    RecordsText (space ++ [sign]) [] [.tail]
  | outOfRange {text space sign digits : Bytes} : NumberText text space sign digits [] →
    uint64Max < ofDecimal digits → RecordsText text [] [.tail]
  | record {text t₁ t₂ t₃ rest path smallestKey largestKey : Bytes} {level : ℕ}
    {files : List FileMetadata} {noted : List Irregularity} : LevelAt text level t₁ →
    FieldAt t₁ path t₂ → FieldAt t₂ smallestKey t₃ → FieldAt t₃ largestKey rest →
    RecordsText rest files noted →
    RecordsText text (⟨path, UInt64.ofNat level, smallestKey, largestKey⟩ :: files)
      (gapNoted text ++ signNoted text ++ gapNoted t₁ ++ gapNoted t₂ ++ gapNoted t₃ ++ noted)

/-- A snapshot of a state. Without anything noted, it is one of the V2 grammar. -/
inductive Snapshot : Bytes → LiveState → List Irregularity → Prop where
  | mk {space space' value rest : Bytes} {checkpoint : Option UInt64} {files : List FileMetadata}
    {noted : List Irregularity} : IsSpaces space → IsSpaces space' → space' ≠ [] →
    CheckpointText value checkpoint → EndsBefore (!isSpace ·) rest →
    RecordsText rest files noted → (∀ metadata ∈ files, metadata.Valid) → DifferentPaths files →
    Snapshot (manifestMagic ++ 10 :: (space ++ (checkpointLabel ++ (space' ++ (value ++ rest)))))
      ⟨sortFiles files, checkpoint⟩ noted

/-! ## Levels and fields -/

section Reads

variable {s : TextStream} {text rest rest' value value' : Bytes} {level level' : ℕ}

/-- A level is read. -/
theorem LevelAt.read (h : LevelAt s.rest level rest) (hs : s.Consistent) :
    s.readUnsigned uint64Max = (some level, after rest) := by
  obtain ⟨space, sign, digits, hsplit, hne, hbound, rfl⟩ := h.split
  rw [readUnsigned_eq_split hs hsplit, if_neg (by simp [hne, hbound])]

/-- What is read is a level. -/
theorem levelAt_of_read {s' : TextStream} (hs : s.Consistent)
    (h : s.readUnsigned uint64Max = (some level, s')) : ∃ rest, LevelAt s.rest level rest ∧
      s' = after rest := by
  obtain ⟨space, sign, digits, rest, hsplit⟩ := exists_numberText s.rest
  rw [readUnsigned_eq_split hs hsplit] at h
  split_ifs at h with hnone
  · cases h
  · obtain ⟨hne, hbound⟩ := not_or.1 hnone
    obtain ⟨hlevel, hs'⟩ := Prod.mk.inj h
    exact ⟨rest, ⟨space, sign, digits, hsplit, hne, not_lt.1 hbound, (Option.some.inj hlevel).symm⟩,
      hs'.symm⟩

/-- A level begins in one way. -/
theorem LevelAt.unique (h : LevelAt text level rest) (h' : LevelAt text level' rest') :
    level = level' ∧ rest = rest' := by
  have hread := @LevelAt.read (ofBytes text) _ _ h (consistent_ofBytes text)
  rw [@LevelAt.read (ofBytes text) _ _ h' (consistent_ofBytes text)] at hread
  obtain ⟨hlevel, hrest⟩ := Prod.mk.inj hread
  exact ⟨(Option.some.inj hlevel).symm, (congrArg TextStream.rest hrest).symm⟩

/-- A field is read. -/
theorem FieldAt.read (h : FieldAt s.rest value rest) (hs : s.Consistent) :
    ∃ s', s.readQuoted = (some value, s') ∧ s'.Consistent ∧ s'.rest = rest :=
  (readQuoted_iff hs).2 h

/-- What is read is a field. -/
theorem fieldAt_of_read {s' : TextStream} (hs : s.Consistent)
    (h : s.readQuoted = (some value, s')) : s'.Consistent ∧ FieldAt s.rest value s'.rest := by
  have hconsistent := readQuoted_consistent h
  exact ⟨hconsistent, (readQuoted_iff hs).1 ⟨s', h, hconsistent, rfl⟩⟩

/-- A field begins in one way. -/
theorem FieldAt.unique (h : FieldAt text value rest) (h' : FieldAt text value' rest') :
    value = value' ∧ rest = rest' := by
  obtain ⟨s, hread, -, rfl⟩ := @FieldAt.read (ofBytes text) _ _ h (consistent_ofBytes text)
  obtain ⟨s', hread', -, rfl⟩ := @FieldAt.read (ofBytes text) _ _ h' (consistent_ofBytes text)
  rw [hread] at hread'
  obtain ⟨hvalue, rfl⟩ := Prod.mk.inj hread'
  exact ⟨Option.some.inj hvalue, rfl⟩

/-- Every reading makes progress. -/
theorem LevelAt.length_lt (h : LevelAt text level rest) : rest.length < text.length := by
  obtain ⟨space, sign, digits, hsplit, hne, -⟩ := h.split
  have hpos := List.length_pos_iff.2 hne
  rw [hsplit.split]
  simp only [List.length_append]
  omega

/-- A field leaves no more than there was. -/
theorem FieldAt.length_le (h : FieldAt text value rest) : rest.length ≤ text.length := by
  obtain ⟨space, token, rfl, -, -⟩ := h
  simp only [List.length_append]
  omega

/-! ## The end of the records -/

/-- Where the records end, no level is read, at the end of the text. -/
theorem readUnsigned_done {space : Bytes} (hs : s.Consistent) (hspace : IsSpaces space)
    (htext : s.rest = space) : s.readUnsigned uint64Max = (none, after []) := by
  have hsplit : NumberText s.rest space [] [] [] :=
    ⟨by rw [htext]; simp, hspace, .inl rfl, nofun, nofun, fun _ _ => nofun⟩
  rw [readUnsigned_eq_split hs hsplit, if_pos (.inl rfl)]

/-- A lone sign at the end of the text fails to be read, and uses it up. -/
theorem readUnsigned_loneSign {space : Bytes} {sign : UInt8} (hs : s.Consistent)
    (hspace : IsSpaces space) (hsign : sign = 43 ∨ sign = 45) (htext : s.rest = space ++ [sign]) :
    s.readUnsigned uint64Max = (none, after []) := by
  have hsplit : NumberText s.rest space [sign] [] [] := by
    refine ⟨by rw [htext]; simp, hspace, ?_, nofun, nofun, nofun⟩
    rcases hsign with rfl | rfl
    · exact .inr (.inl rfl)
    · exact .inr (.inr rfl)
  rw [readUnsigned_eq_split hs hsplit, if_pos (.inl rfl)]

/-- A number that is too large at the end of the text does so too. -/
theorem readUnsigned_outOfRange {space sign digits : Bytes} (hs : s.Consistent)
    (hsplit : NumberText s.rest space sign digits []) (hbound : uint64Max < ofDecimal digits) :
    s.readUnsigned uint64Max = (none, after []) := by
  rw [readUnsigned_eq_split hs hsplit, if_pos (.inr hbound)]

/-- A level that is not read at the end of the text is that end. -/
theorem records_of_read {s' : TextStream} (hs : s.Consistent)
    (h : s.readUnsigned uint64Max = (none, s')) (heof : s'.eof = true) :
    ∃ noted, RecordsText s.rest [] noted := by
  obtain ⟨space, sign, digits, rest, hsplit⟩ := exists_numberText s.rest
  rw [readUnsigned_eq_split hs hsplit] at h
  obtain ⟨hnone, rfl⟩ := Prod.mk.inj h
  have hnil : rest = [] := List.isEmpty_iff.1 heof
  subst hnil
  have hcases : digits = [] ∨ uint64Max < ofDecimal digits := by
    by_contra hnot
    rw [if_neg hnot] at hnone
    cases hnone
  rcases hcases with rfl | hbound
  · have htext := hsplit.split
    rcases hsplit.isSign with rfl | rfl | rfl
    · refine ⟨[], ?_⟩
      rw [htext]
      simpa using RecordsText.done hsplit.allSpace
    · refine ⟨[.tail], ?_⟩
      rw [htext]
      exact .loneSign 43 hsplit.allSpace (.inl rfl)
    · refine ⟨[.tail], ?_⟩
      rw [htext]
      exact .loneSign 45 hsplit.allSpace (.inr rfl)
  · exact ⟨[.tail], .outOfRange hsplit hbound⟩

end Reads

/-! ## The records -/

/-- The fields of a record are read. -/
theorem readFields_eq_some {s : TextStream} (hs : s.Consistent)
    {path smallestKey largestKey t₂ t₃ rest : Bytes} (hpath : FieldAt s.rest path t₂)
    (hsmallest : FieldAt t₂ smallestKey t₃) (hlargest : FieldAt t₃ largestKey rest) :
    ∃ s', readFields s = some (path, smallestKey, largestKey, s') ∧ s'.Consistent ∧
      s'.rest = rest := by
  obtain ⟨s₁, h₁, hs₁, rfl⟩ := hpath.read hs
  obtain ⟨s₂, h₂, hs₂, rfl⟩ := hsmallest.read hs₁
  obtain ⟨s₃, h₃, hs₃, rfl⟩ := hlargest.read hs₂
  refine ⟨s₃, ?_, hs₃, rfl⟩
  unfold readFields
  simp [h₁, h₂, h₃]

/-- What is read are the fields of a record. -/
theorem readFields_some {s s' : TextStream} (hs : s.Consistent)
    {path smallestKey largestKey : Bytes}
    (h : readFields s = some (path, smallestKey, largestKey, s')) : s'.Consistent ∧
      ∃ t₂ t₃, FieldAt s.rest path t₂ ∧ FieldAt t₂ smallestKey t₃ ∧
        FieldAt t₃ largestKey s'.rest := by
  unfold readFields at h
  rcases h₁ : s.readQuoted with ⟨_ | path', s₁⟩
  · simp [h₁] at h
  rcases h₂ : s₁.readQuoted with ⟨_ | smallestKey', s₂⟩
  · simp [h₁, h₂] at h
  rcases h₃ : s₂.readQuoted with ⟨_ | largestKey', s₃⟩
  · simp [h₁, h₂, h₃] at h
  simp only [h₁, h₂, h₃, Option.some.injEq, Prod.mk.injEq] at h
  obtain ⟨rfl, rfl, rfl, rfl⟩ := h
  obtain ⟨hs₁, hfield₁⟩ := fieldAt_of_read hs h₁
  obtain ⟨hs₂, hfield₂⟩ := fieldAt_of_read hs₁ h₂
  obtain ⟨hs₃, hfield₃⟩ := fieldAt_of_read hs₂ h₃
  exact ⟨hs₃, _, _, hfield₁, hfield₂, hfield₃⟩

/-- A pass of the loop takes a valid record whose path is not loaded yet. -/
theorem readFiles_record {fuel : ℕ} {loaded : List FileMetadata} {s s₁ s₂ : TextStream}
    {level : ℕ} {path smallestKey largestKey : Bytes}
    (hlevel : s.readUnsigned uint64Max = (some level, s₁))
    (hfields : readFields s₁ = some (path, smallestKey, largestKey, s₂))
    (hvalid : FileMetadata.Valid ⟨path, UInt64.ofNat level, smallestKey, largestKey⟩)
    (hfresh : (loaded.any fun existing => samePath existing.path path) = false) :
    readFiles (fuel + 1) loaded s =
      readFiles fuel (loaded ++ [⟨path, UInt64.ofNat level, smallestKey, largestKey⟩]) s₂ := by
  rw [readFiles, hlevel]
  dsimp only
  rw [hfields]
  dsimp only
  rw [validateMetadata_ok_iff.2 hvalid, ok_bind, hfresh]
  rfl

/-- The loop reads the records of a text to its end. -/
theorem RecordsText.read {text : Bytes} {files : List FileMetadata} {noted : List Irregularity}
    (h : RecordsText text files noted) : ∀ {fuel : ℕ} {loaded : List FileMetadata}
      {s : TextStream}, s.Consistent → s.rest = text → text.length < fuel →
      (∀ metadata ∈ files, metadata.Valid) → DifferentPaths (loaded ++ files) →
      ∃ s', readFiles fuel loaded s = .ok (loaded ++ files, s') ∧ s'.eof = true := by
  have hend : ∀ {fuel : ℕ} {loaded : List FileMetadata} {s : TextStream} {n : ℕ}, n < fuel →
      s.readUnsigned uint64Max = (none, after []) →
      ∃ s', readFiles fuel loaded s = .ok (loaded ++ [], s') ∧ s'.eof = true := by
    intro fuel loaded s n hfuel hread
    obtain ⟨fuel, rfl⟩ := Nat.exists_eq_add_of_lt hfuel
    rw [readFiles, hread, List.append_nil]
    exact ⟨_, rfl, rfl⟩
  induction h with
  | done hspace =>
    intro fuel loaded s hs htext hfuel _ _
    exact hend hfuel (readUnsigned_done hs hspace htext)
  | loneSign sign hspace hsign =>
    intro fuel loaded s hs htext hfuel _ _
    exact hend hfuel (readUnsigned_loneSign hs hspace hsign htext)
  | outOfRange hsplit hbound =>
    intro fuel loaded s hs htext hfuel _ _
    exact hend hfuel (readUnsigned_outOfRange hs (htext ▸ hsplit) hbound)
  | @record text t₁ t₂ t₃ rest path smallestKey largestKey level files noted hlevel hpath hsmallest
      hlargest _ ih =>
    intro fuel loaded s hs htext hfuel hvalid hpaths
    obtain ⟨fuel, rfl⟩ := Nat.exists_eq_add_of_lt hfuel
    subst htext
    obtain ⟨s', hfields, hs', rfl⟩ := readFields_eq_some (consistent_after t₁) hpath
      hsmallest hlargest
    have hshorter : s'.rest.length < s.rest.length :=
      calc s'.rest.length
          ≤ t₃.length := hlargest.length_le
        _ ≤ t₂.length := hsmallest.length_le
        _ ≤ t₁.length := hpath.length_le
        _ < s.rest.length := hlevel.length_lt
    have hfresh : (loaded.any fun existing => samePath existing.path path) = false := by
      rw [List.any_eq_false]
      intro existing hexisting
      have := (List.pairwise_append.1 hpaths).2.2 existing hexisting _ (.head _)
      simpa using this
    rw [List.append_cons] at hpaths ⊢
    obtain ⟨s'', hread, heof⟩ := @ih (s.rest.length + fuel) _ s' hs' rfl (by omega)
      (fun m hm => hvalid m (.tail _ hm)) hpaths
    refine ⟨s'', ?_, heof⟩
    rw [readFiles_record (hlevel.read hs) hfields (hvalid _ (.head _)) hfresh, hread]

/-- What the loop reads to the end of a text are records. -/
theorem recordsText_of_read {fuel : ℕ} : ∀ {loaded all : List FileMetadata} {s s' : TextStream},
    s.Consistent → ValidFiles loaded → readFiles fuel loaded s = .ok (all, s') →
    s'.eof = true → ValidFiles all ∧
      ∃ files noted, all = loaded ++ files ∧ RecordsText s.rest files noted := by
  induction fuel with
  | zero =>
    intro loaded all s s' _ _ h
    cases h
  | succ fuel ih =>
    intro loaded all s s' hs hloaded h heof
    rw [readFiles] at h
    rcases hlevel : s.readUnsigned uint64Max with ⟨_ | level, s₁⟩
    · rw [hlevel] at h
      cases h
      obtain ⟨noted, hrecords⟩ := records_of_read hs hlevel heof
      exact ⟨hloaded, [], noted, (List.append_nil _).symm, hrecords⟩
    rw [hlevel] at h
    dsimp only at h
    rcases hfields : readFields s₁ with _ | ⟨path, smallestKey, largestKey, s₂⟩
    · rw [hfields] at h
      cases h
    rw [hfields] at h
    dsimp only at h
    obtain ⟨_, hvalid, h⟩ := bind_eq_ok h
    have hvalid := validateMetadata_ok_iff.1 hvalid
    split_ifs at h with hduplicate
    obtain ⟨t₁, hlevelAt, rfl⟩ := levelAt_of_read hs hlevel
    obtain ⟨hs₂, t₂, t₃, hpath, hsmallest, hlargest⟩ :=
      readFields_some (consistent_after t₁) hfields
    obtain ⟨hall, files, noted, rfl, hrecords⟩ :=
      ih hs₂ (validFiles_append hloaded hvalid hduplicate) h heof
    have hrecord := RecordsText.record hlevelAt hpath hsmallest hlargest hrecords
    exact ⟨hall, _, _, (List.append_cons ..).symm, hrecord⟩

/-- Where the records end, no level is read. -/
theorem RecordsText.read_nil {text : Bytes} {noted : List Irregularity}
    (h : RecordsText text [] noted) {level : ℕ} {rest : Bytes} : ¬LevelAt text level rest := by
  intro hlevel
  have hconsistent := consistent_ofBytes text
  have hread := @LevelAt.read (ofBytes text) _ _ hlevel hconsistent
  cases h with
  | done hspace =>
    rw [readUnsigned_done hconsistent hspace rfl] at hread
    cases hread
  | loneSign sign hspace hsign =>
    rw [readUnsigned_loneSign hconsistent hspace hsign rfl] at hread
    cases hread
  | outOfRange hsplit hbound =>
    rw [@readUnsigned_outOfRange (ofBytes text) _ _ _ hconsistent hsplit hbound] at hread
    cases hread

/-- A text of white space is not the end of a text with a sign or a digit. -/
theorem not_isSpaces {text : Bytes} {c : UInt8} (hmem : c ∈ text) (hc : isSpace c = false) :
    ¬IsSpaces text := fun h => by
  rw [h c hmem] at hc
  cases hc

/-- The same is noted in a text whichever way its records are found. -/
theorem RecordsText.noted_unique {text : Bytes} {files files' : List FileMetadata}
    {noted noted' : List Irregularity} (h : RecordsText text files noted)
    (h' : RecordsText text files' noted') : noted = noted' := by
  have hsign : ∀ {space : Bytes} {sign : UInt8}, sign = 43 ∨ sign = 45 →
      ¬IsSpaces (space ++ [sign]) := by
    intro space sign hsign
    refine not_isSpaces (List.mem_append_right _ (.head _)) ?_
    rcases hsign with rfl | rfl <;> decide
  have hdigits : ∀ {text space sign digits : Bytes}, NumberText text space sign digits [] →
      uint64Max < ofDecimal digits → ¬IsSpaces text := by
    intro text space sign digits hsplit hbound
    cases hcases : digits with
    | nil =>
      rw [hcases] at hbound
      cases hbound
    | cons d ds =>
      refine not_isSpaces (c := d) ?_ (isSpace_of_isDigit (hsplit.allDigits d (hcases ▸ .head _)))
      rw [hsplit.split, hcases]
      simp
  induction h generalizing files' noted' with
  | done hspace =>
    cases h' with
    | done hspace' => rfl
    | loneSign sign' hspace' hsign' => exact absurd hspace (hsign hsign')
    | outOfRange hsplit hbound => exact absurd hspace (hdigits hsplit hbound)
    | record hlevel => exact absurd hlevel (RecordsText.done hspace).read_nil
  | @loneSign space sign hspace hsign₀ =>
    generalize htext : space ++ [sign] = text at h'
    cases h' with
    | done hspace' => exact absurd (htext ▸ hspace') (hsign hsign₀)
    | loneSign sign' hspace' hsign' => rfl
    | outOfRange hsplit hbound => rfl
    | record hlevel =>
      exact absurd hlevel (htext ▸ RecordsText.loneSign sign hspace hsign₀).read_nil
  | outOfRange hsplit hbound =>
    cases h' with
    | done hspace' => exact absurd hspace' (hdigits hsplit hbound)
    | loneSign sign' hspace' hsign' => rfl
    | outOfRange hsplit' hbound' => rfl
    | record hlevel => exact absurd hlevel (RecordsText.outOfRange hsplit hbound).read_nil
  | record hlevel hpath hsmallest hlargest hrecords ih =>
    cases hfiles : files' with
    | nil => exact absurd hlevel (hfiles ▸ h').read_nil
    | cons metadata files' =>
      rw [hfiles] at h'
      cases h' with
      | record hlevel' hpath' hsmallest' hlargest' hrecords' =>
        obtain ⟨-, rfl⟩ := hlevel.unique hlevel'
        obtain ⟨-, rfl⟩ := hpath.unique hpath'
        obtain ⟨-, rfl⟩ := hsmallest.unique hsmallest'
        obtain ⟨-, rfl⟩ := hlargest.unique hlargest'
        rw [ih hrecords']

/-! ## The whole text -/

/-- The value of a checkpoint is parsed. -/
theorem parseCheckpoint_ok_iff {value : Bytes} {checkpoint : Option UInt64} :
    parseCheckpoint value = .ok checkpoint ↔ CheckpointText value checkpoint := by
  unfold parseCheckpoint
  constructor
  · intro h
    split_ifs at h with hnone
    · cases h
      rw [hnone]
      exact .none
    · cases hparsed : fromChars uint64Max value with
      | invalid =>
        rw [hparsed] at h
        cases h
      | outOfRange =>
        rw [hparsed] at h
        cases h
      | parsed n =>
        rw [hparsed] at h
        cases h
        obtain ⟨hne, hdigits, hbound, rfl⟩ := fromChars_parsed_iff.1 hparsed
        exact .some hne hdigits hbound
  · intro h
    cases h with
    | none => rw [if_pos rfl]
    | some hne hdigits hbound =>
      have hnot : value ≠ noCheckpoint := by
        rintro rfl
        exact absurd (hdigits 78 (by decide)) (by decide)
      rw [if_neg hnot, fromChars_parsed_iff.2 ⟨hne, hdigits, hbound, rfl⟩]

/-- A value is a token. -/
theorem CheckpointText.token {value : Bytes} {checkpoint : Option UInt64}
    (h : CheckpointText value checkpoint) : value ≠ [] ∧ ∀ b ∈ value, isSpace b = false := by
  cases h with
  | none => exact ⟨by decide, by simp [noCheckpoint, ofChars, isSpace]⟩
  | some hne hdigits hbound => exact ⟨hne, fun b hb => isSpace_of_isDigit (hdigits b hb)⟩

/-- The head of a snapshot is read up to the records. -/
theorem head_reads {space space' value rest : Bytes} (hspace : IsSpaces space)
    (hspace' : IsSpaces space') (hne : space' ≠ []) (hvalue : value ≠ [])
    (htoken : ∀ b ∈ value, isSpace b = false) (hrest : EndsBefore (!isSpace ·) rest) :
    getline (ofBytes (manifestMagic ++
        10 :: (space ++ (checkpointLabel ++ (space' ++ (value ++ rest)))))) =
      (manifestMagic, ofBytes (space ++ (checkpointLabel ++ (space' ++ (value ++ rest))))) ∧
    (ofBytes (space ++ (checkpointLabel ++ (space' ++ (value ++ rest))))).readToken =
      (some checkpointLabel, after (space' ++ (value ++ rest))) ∧
    (after (space' ++ (value ++ rest))).readToken = (some value, after rest) := by
  have hmagic : ∀ c ∈ manifestMagic, c ≠ 10 := by simp [manifestMagic, ofChars]
  have hlabel : ∀ c ∈ checkpointLabel, isSpace c = false := by
    simp [checkpointLabel, ofChars, isSpace]
  refine ⟨getline_eq hmagic, ?_, ?_⟩
  · refine (readToken_iff (consistent_ofBytes _)).2
      ⟨space, _, rfl, hspace, by decide, hlabel, ?_, rfl⟩
    intro c hc
    obtain ⟨b, bs, rfl⟩ := List.exists_cons_of_ne_nil hne
    cases hc
    show (!isSpace c) = false
    rw [hspace' c (.head _)]
    rfl
  · exact (readToken_iff (consistent_after _)).2
      ⟨space', rest, rfl, hspace', hvalue, htoken, hrest, rfl⟩

/-- A snapshot is loaded as its state, whatever is noted in it. -/
theorem Snapshot.load {text : Bytes} {state : LiveState} {noted : List Irregularity}
    (h : Snapshot text state noted) : loadManifest (some text) = .ok state := by
  cases h with
  | @mk space space' value rest checkpoint files noted hspace hspace' hne hcheckpoint hrest hrecords
      hvalid hpaths =>
    obtain ⟨hvalue, htoken⟩ := hcheckpoint.token
    obtain ⟨hline, hlabel, hread⟩ := head_reads hspace hspace' hne hvalue htoken hrest
    obtain ⟨s', hfiles, heof⟩ := hrecords.read (consistent_after rest) rfl
      (Nat.lt_succ_self rest.length) hvalid (show DifferentPaths ([] ++ files) from hpaths)
    unfold loadManifest
    dsimp only
    rw [hline]
    dsimp only
    rw [if_neg (not_not.2 rfl), hlabel]
    dsimp only
    rw [hread]
    dsimp only
    rw [if_neg (not_not.2 rfl), parseCheckpoint_ok_iff.2 hcheckpoint, ok_bind]
    have hrest : (after rest).rest.length = rest.length := rfl
    rw [hrest, hfiles, ok_bind]
    dsimp only
    rw [heof, List.nil_append]
    rfl

/-- What is loaded is a snapshot. -/
theorem snapshot_of_load {text : Bytes} {state : LiveState}
    (h : loadManifest (some text) = .ok state) : ∃ noted, Snapshot text state noted := by
  unfold loadManifest at h
  dsimp only at h
  rcases getline_cases text with ⟨line, t, rfl, -, hline⟩ | ⟨-, hline⟩
  · rw [hline] at h
    dsimp only at h
    split_ifs at h with hmagic
    rw [not_not.1 hmagic]
    rcases hlabel : (ofBytes t).readToken with ⟨_ | label, s₁⟩
    · rw [hlabel] at h
      cases h
    rw [hlabel] at h
    dsimp only at h
    obtain ⟨space, t₁, ht, hspace, -, -, hends, rfl⟩ :=
      (readToken_iff (consistent_ofBytes t)).1 hlabel
    rcases hvalue : (after t₁).readToken with ⟨_ | value, s₂⟩
    · rw [hvalue] at h
      cases h
    rw [hvalue] at h
    dsimp only at h
    obtain ⟨space', rest, ht₁, hspace', hne, htoken, hrest, rfl⟩ :=
      (readToken_iff (consistent_after t₁)).1 hvalue
    split_ifs at h with hlabel
    obtain ⟨checkpoint, hcheckpoint, h⟩ := bind_eq_ok h
    obtain ⟨⟨files, s₃⟩, hfiles, h⟩ := bind_eq_ok h
    dsimp only at h
    split_ifs at h with heof
    cases h
    obtain ⟨⟨hvalid, hpaths⟩, files, noted, rfl, hrecords⟩ := recordsText_of_read
      (consistent_after rest) ⟨fun _ hm => absurd hm List.not_mem_nil, .nil⟩ hfiles
      (by simpa using heof)
    refine ⟨noted, ?_⟩
    have ht₁ : t₁ = space' ++ (value ++ rest) := ht₁
    have ht : t = space ++ (label ++ t₁) := ht
    rw [ht, not_not.1 hlabel, ht₁]
    refine .mk hspace hspace' ?_ (parseCheckpoint_ok_iff.1 hcheckpoint) hrest hrecords hvalid hpaths
    -- The value is a token of its own, and so white space stands before it.
    rintro rfl
    obtain ⟨c, cs, rfl⟩ := List.exists_cons_of_ne_nil hne
    have hends : (!isSpace c) = false := hends c (by rw [ht₁]; rfl)
    rw [htoken c (.head _)] at hends
    cases hends
  · -- Without a newline, nothing is left behind the line.
    have hnone : (⟨[], true⟩ : TextStream).readToken = (none, ⟨[], true⟩) := rfl
    rw [hline] at h
    dsimp only at h
    rw [hnone] at h
    split_ifs at h

/-- The same is noted in a text whichever way it is a snapshot. -/
theorem Snapshot.noted_unique {text : Bytes} {state state' : LiveState}
    {noted noted' : List Irregularity} (h : Snapshot text state noted)
    (h' : Snapshot text state' noted') : noted = noted' := by
  cases h with
  | @mk space space' value rest checkpoint files noted hspace hspace' hne hcheckpoint hrest hrecords
      hvalid hpaths =>
    obtain ⟨hvalue, htoken⟩ := hcheckpoint.token
    obtain ⟨hline₁, hlabel₁, hread₁⟩ := head_reads hspace hspace' hne hvalue htoken hrest
    generalize htext : manifestMagic ++ 10 :: (space ++ (checkpointLabel ++
      (space' ++ (value ++ rest)))) = text at h' hline₁
    cases h' with
    | @mk space₂ space₂' value₂ rest₂ checkpoint₂ files₂ noted' hspace₂ hspace₂' hne₂ hcheckpoint₂
        hrest₂ hrecords₂ =>
      obtain ⟨hvalue₂, htoken₂⟩ := hcheckpoint₂.token
      obtain ⟨hline₂, hlabel₂, hread₂⟩ := head_reads hspace₂ hspace₂' hne₂ hvalue₂ htoken₂ hrest₂
      rw [hline₁] at hline₂
      rw [(Prod.mk.inj hline₂).2, hlabel₂] at hlabel₁
      rw [← (Prod.mk.inj hlabel₁).2, hread₂] at hread₁
      have hsame : rest₂ = rest := congrArg TextStream.rest (Prod.mk.inj hread₁).2
      exact hrecords.noted_unique (hsame ▸ hrecords₂)

/-! ## Loading -/

/-- A load accepts a text of the grammar, as the state that it denotes, and no other: then the state
in memory is as before. -/
def LoadsExactly (text : Bytes) : Prop :=
  ∀ m : ManifestObject, m.disk.file = some text →
    (∃ state, Snapshot text state [] ∧ m.load = (.ok (), { m with memory := state })) ∨
    ((∀ state, ¬Snapshot text state []) ∧ ∃ failure, m.load = (.error failure, m))

/-- A text that is a snapshot but for what is noted in it. -/
def Irregular (text : Bytes) : Prop := ∃ state noted, noted ≠ [] ∧ Snapshot text state noted

/-- An irregular text is loaded, and is not in the grammar. -/
theorem Irregular.not_loadsExactly {text : Bytes} (h : Irregular text) : ¬LoadsExactly text := by
  obtain ⟨state, noted, hnoted, hsnapshot⟩ := h
  have hnone : ∀ state', ¬Snapshot text state' [] := fun state' hregular =>
    hnoted (hsnapshot.noted_unique hregular)
  intro hexact
  rcases hexact ⟨"db/MANIFEST", ⟨[], none⟩, ⟨some text, none⟩⟩ rfl with
    ⟨state', hregular, -⟩ | ⟨-, failure, hload⟩
  · exact hnone state' hregular
  · unfold ManifestObject.load at hload
    dsimp only at hload
    rw [hsnapshot.load] at hload
    cases hload

/-- A load accepts the texts of the grammar and no others, unless the text is irregular. -/
theorem load_exact_iff (text : Bytes) : LoadsExactly text ↔ ¬Irregular text := by
  constructor
  · exact fun hexact hirregular => hirregular.not_loadsExactly hexact
  · intro hregular m hfile
    unfold ManifestObject.load
    rw [hfile]
    cases hload : loadManifest (some text) with
    | error failure =>
      refine .inr ⟨fun state hsnapshot => ?_, failure, rfl⟩
      rw [hsnapshot.load] at hload
      cases hload
    | ok state =>
      obtain ⟨noted, hsnapshot⟩ := snapshot_of_load hload
      have hnone : noted = [] := by
        by_contra hnoted
        exact hregular ⟨state, noted, hnoted, hsnapshot⟩
      exact .inl ⟨state, hnone ▸ hsnapshot, rfl⟩

/-- A minus without digits at the end of the file, and a level of minus one. -/
theorem load_irregular :
    ¬LoadsExactly (headText none ++ [45]) ∧
    ¬LoadsExactly (headText none ++ ofChars ['-', '1', ' ', 'p', ' ', 'a', ' ', 'b', '\n']) := by
  have hspace : IsSpaces [32] := List.forall_mem_singleton.mpr rfl
  have hnewline : IsSpaces [10] := List.forall_mem_singleton.mpr rfl
  have hhead : ∀ rest files noted, RecordsText (10 :: rest) files noted →
      (∀ metadata ∈ files, metadata.Valid) → DifferentPaths files →
      Snapshot (headText none ++ rest) ⟨sortFiles files, none⟩ noted := by
    intro rest files noted hrecords hvalid hpaths
    have htext : headText none ++ rest = manifestMagic ++ 10 :: ([] ++ (checkpointLabel ++
        ([32] ++ (noCheckpoint ++ 10 :: rest)))) := by
      simp [headText, checkpointText]
    rw [htext]
    refine .mk (fun b hb => absurd hb List.not_mem_nil) hspace (List.cons_ne_nil _ _) .none ?_
      hrecords hvalid hpaths
    intro c hc
    cases hc
    rfl
  have hfield : ∀ c rest, isSpace c = false → c ≠ 34 → EndsBefore (!isSpace ·) rest →
      FieldAt (32 :: c :: rest) [c] rest := by
    intro c rest hc hquote hrest
    refine ⟨[32], [c], rfl, hspace, .bare (List.cons_ne_nil _ _) ?_ ?_ hrest⟩
    · exact fun heq => hquote (Option.some.inj heq)
    · exact List.forall_mem_singleton.mpr hc
  constructor
  · apply Irregular.not_loadsExactly
    exact ⟨_, [.tail], List.cons_ne_nil _ _,
      hhead _ _ _ (.loneSign 45 hnewline (.inr rfl)) (fun m hm => absurd hm List.not_mem_nil) .nil⟩
  · apply Irregular.not_loadsExactly
    have hlevel : LevelAt [10, 45, 49, 32, 112, 32, 97, 32, 98, 10] uint64Max
        [32, 112, 32, 97, 32, 98, 10] := by
      refine ⟨[10], [45], [49], ?_, by decide, by decide, by decide⟩
      refine ⟨rfl, hnewline, .inr (.inr rfl), List.forall_mem_singleton.mpr rfl, ?_, ?_⟩
      · intro c hc
        cases hc
        rfl
      · exact fun hnone => absurd hnone (List.cons_ne_nil _ _)
    have hends : ∀ rest, EndsBefore (!isSpace ·) (32 :: rest) := by
      intro rest c hc
      cases hc
      rfl
    have hrecord := RecordsText.record hlevel
      (hfield 112 [32, 97, 32, 98, 10] (by decide) (by decide) (hends _))
      (hfield 97 [32, 98, 10] (by decide) (by decide) (hends _))
      (hfield 98 [10] (by decide) (by decide) (by intro c hc; cases hc; rfl)) (.done hnewline)
    refine ⟨_, _, ?_, hhead _ _ _ hrecord ?_ (List.pairwise_singleton _ _)⟩
    · decide
    · exact List.forall_mem_singleton.mpr ⟨by decide, by decide⟩

end Kronos
