import Mathlib.Data.String.Basic
import Kronos.Lsm.Manifest
import Kronos.Manifest.Model

/-!
# The MANIFEST of a database directory

The engine edits its MANIFEST under the paths of its database directory, `L<level>-<id>.sst`. Here
these are written out, as the byte strings that `src/manifest.cpp` compares, sorts and persists:
`std::filesystem::path` tells two of them apart when they are of different files, and sorts them as
their names. So an edit over the files of the directory is the edit over the paths that are written
out, with the same result and the same exception (`next_encode`).
-/

namespace Kronos

open ByteString TextStream

/-! ## Names -/

/-- The characters that the bytes of a name stand for. -/
def IsAscii (text : List Char) : Prop := ∀ c ∈ text, c.toNat < 128

/-- An ASCII character is the byte with its number. -/
theorem toNat_ofChar {c : Char} (hc : c.toNat < 128) : (UInt8.ofNat c.toNat).toNat = c.toNat := by
  rw [UInt8.toNat_ofNat']
  omega

/-- Names are compared as their bytes are. -/
theorem ofChars_lt_iff : ∀ {a b : List Char}, IsAscii a → IsAscii b →
    (ofChars a < ofChars b ↔ a < b)
  | _, [], _, _ => by simp [ofChars]
  | [], b :: bs, _, _ => by simp [ofChars]
  | a :: as, b :: bs, ha, hb => by
    have hna := toNat_ofChar (ha a List.mem_cons_self)
    have hnb := toNat_ofChar (hb b List.mem_cons_self)
    have htail :=
      @ofChars_lt_iff as bs (fun c hc => ha c (.tail _ hc)) fun c hc => hb c (.tail _ hc)
    have hlt : UInt8.ofNat a.toNat < UInt8.ofNat b.toNat ↔ a < b := by
      rw [UInt8.lt_iff_toNat_lt, hna, hnb]
      exact Iff.rfl
    have heq : UInt8.ofNat a.toNat = UInt8.ofNat b.toNat ↔ a = b := by
      rw [← UInt8.toNat_inj, hna, hnb, Char.toNat_inj]
    show UInt8.ofNat a.toNat :: ofChars as < UInt8.ofNat b.toNat :: ofChars bs ↔ _
    rw [List.cons_lt_cons_iff, List.cons_lt_cons_iff, hlt, heq, htail]

/-- The digits of a number. -/
theorem isDigit_of_mem_toString {n : ℕ} {c : Char} (hc : c ∈ (toString n).toList) :
    c.isDigit = true := by
  rw [Nat.toString_eq_repr, Nat.toList_repr] at hc
  exact Nat.isDigit_of_mem_toDigits (by decide) (by decide) hc

/-- A number is known from its digits. -/
theorem toString_toList_inj {m n : ℕ} (h : (toString m).toList = (toString n).toList) : m = n := by
  rw [Nat.toString_eq_repr, Nat.toString_eq_repr, Nat.toList_repr, Nat.toList_repr] at h
  rw [← @Nat.ofDigitChars_toDigits 10 m (by decide) (by decide), h,
    Nat.ofDigitChars_toDigits (by decide) (by decide)]

namespace SstablePath

/-- The characters of the name of a table. -/
theorem toList_string (path : SstablePath) : path.string.toList =
    'L' :: (toString path.level).toList ++ '-' :: ((toString path.id).toList ++
      ['.', 's', 's', 't']) := by
  simp [SstablePath.string]

/-- A name is that of one file. -/
theorem toList_string_inj {path path' : SstablePath}
    (h : path.string.toList = path'.string.toList) : path = path' := by
  rw [toList_string, toList_string] at h
  -- The first dash ends the level, since digits are no dashes.
  have hdash : ∀ n : ℕ, '-' ∉ (toString n).toList := fun n hmem =>
    absurd (isDigit_of_mem_toString hmem) (by decide)
  obtain ⟨hlevel, -, hid⟩ := (List.append_cons_inj_of_notMem
    (List.mem_cons.not.2 (not_or.2 ⟨by decide, hdash path.level⟩))
    (List.mem_append.not.2 (not_or.2 ⟨hdash path.id, by decide⟩))).1 h
  have hlevel' := toString_toList_inj (List.cons.inj hlevel).2
  have hid' := toString_toList_inj (List.append_cancel_right hid)
  cases path
  cases path'
  cases hlevel'
  cases hid'
  rfl

/-- A name is made of digits and a few other characters. -/
theorem mem_string {path : SstablePath} {c : Char} (hc : c ∈ path.string.toList) :
    c.isDigit = true ∨ c ∈ ['L', '-', '.', 's', 't'] := by
  rw [toList_string] at hc
  simp only [List.cons_append, List.mem_cons, List.mem_append, List.not_mem_nil, or_false] at hc
  rcases hc with rfl | hc | rfl | hc | rfl | rfl | rfl | rfl
  · simp
  · exact .inl (isDigit_of_mem_toString hc)
  · simp
  · exact .inl (isDigit_of_mem_toString hc)
  all_goals simp

/-- None of them is a slash. -/
theorem toNat_of_mem_string {path : SstablePath} {c : Char} (hc : c ∈ path.string.toList) :
    c.toNat < 128 ∧ c.toNat ≠ 47 := by
  rcases mem_string hc with hdigit | hother
  · simp only [Char.isDigit, Bool.and_eq_true, decide_eq_true_eq] at hdigit
    have hge : 48 ≤ c.toNat := UInt32.le_iff_toNat_le.1 hdigit.1
    have hle : c.toNat ≤ 57 := UInt32.le_iff_toNat_le.1 hdigit.2
    omega
  · simp only [List.mem_cons, List.not_mem_nil, or_false] at hother
    rcases hother with rfl | rfl | rfl | rfl | rfl <;> decide

/-- The name, as bytes. -/
def name (path : SstablePath) : Bytes := ofChars path.string.toList

/-- The names are ordered as bytes as they are as strings. -/
theorem name_lt_iff {path path' : SstablePath} :
    path.name < path'.name ↔ path.string < path'.string :=
  (ofChars_lt_iff (fun _ hc => (toNat_of_mem_string hc).1) fun _ hc =>
    (toNat_of_mem_string hc).1).trans String.lt_iff_toList_lt.symm

/-- A table is known from its name. -/
theorem name_inj {path path' : SstablePath} (h : path.name = path'.name) : path = path' := by
  rcases lt_trichotomy path.string path'.string with hlt | heq | hlt
  · exact absurd (name_lt_iff.2 hlt) (h ▸ lt_irrefl _)
  · exact toList_string_inj (congrArg String.toList heq)
  · exact absurd (name_lt_iff.2 hlt) (h ▸ lt_irrefl _)

/-- A name is not empty. -/
theorem name_ne_nil (path : SstablePath) : path.name ≠ [] := by
  unfold name
  rw [toList_string]
  exact List.cons_ne_nil _ _

/-- A name has no slash, so that it is the last part of a path. -/
theorem slash_not_mem_name (path : SstablePath) : 47 ∉ path.name := by
  intro hmem
  obtain ⟨c, hc, heq⟩ := List.mem_map.1 hmem
  obtain ⟨hascii, hslash⟩ := toNat_of_mem_string hc
  refine hslash ?_
  rw [← toNat_ofChar hascii, heq]
  rfl

end SstablePath

/-! ## Paths -/

/-- `operator/` of a directory and a name. -/
def joinPath (directory name : Bytes) : Bytes :=
  if directory = [] ∨ directory.getLast? = some 47 then directory ++ name
  else directory ++ [47] ++ name

/-- `path.string()`, with the directory. -/
def SstablePath.text (directory : Bytes) (path : SstablePath) : Bytes :=
  joinPath directory path.name

/-- The part of a path in front of a name is empty, or it ends with a slash. -/
theorem exists_joinPath (directory : Bytes) :
    ∃ front : Bytes, (front = [] ∨ front.getLast? = some 47) ∧
      ∀ name, joinPath directory name = front ++ name := by
  by_cases h : directory = [] ∨ directory.getLast? = some 47
  · exact ⟨directory, h, fun name => if_pos h⟩
  · exact ⟨directory ++ [47], .inr List.getLast?_concat, fun name => if_neg h⟩

/-- The name is the last element of a path. -/
theorem getLast?_pathElements {front name : Bytes} (hfront : front = [] ∨ front.getLast? = some 47)
    (hname : name ≠ []) (hslash : 47 ∉ name) :
    (pathElements (front ++ name)).2.getLast? = some name := by
  have hdrop : name.dropWhile (· = 47) = name := by
    cases name with
    | nil => exact absurd rfl hname
    | cons c cs =>
      have hc : c ≠ 47 := fun h => hslash (h ▸ List.mem_cons_self)
      simp [hc]
  -- Without the slashes at its front, the path still ends with the name behind a slash.
  obtain ⟨rest, hrest, hrelative⟩ : ∃ rest : Bytes, (rest = [] ∨ rest.getLast? = some 47) ∧
      (front ++ name).dropWhile (· = 47) = rest ++ name := by
    rw [List.dropWhile_append]
    by_cases hempty : front.dropWhile (· = 47) = []
    · exact ⟨[], .inl rfl, by rw [hempty]; exact hdrop⟩
    · refine ⟨front.dropWhile (· = 47), .inr ?_, by rw [if_neg (by simpa using hempty)]⟩
      obtain ⟨slashes, hsplit⟩ := List.dropWhile_suffix (l := front) (· = 47)
      rcases hfront with rfl | hlast
      · exact absurd rfl hempty
      · rw [← hsplit, List.getLast?_append_of_ne_nil _ hempty] at hlast
        exact hlast
  have hsplit : ((rest ++ name).splitOn 47).getLast? = some name := by
    rcases hrest with rfl | hlast
    · rw [List.nil_append, List.splitOn_eq_singleton hslash]
      rfl
    · rw [← List.dropLast_append_getLast? _ hlast, List.append_assoc, List.singleton_append,
        List.splitOn_append_cons_self, List.splitOn_eq_singleton hslash, List.getLast?_concat]
  unfold pathElements
  dsimp only
  rw [hrelative, if_neg (List.append_ne_nil_of_right_ne_nil _ hname), hsplit]
  exact List.getLast?_concat

/-- Paths in a directory are the same when their files are. -/
theorem samePath_text (directory : Bytes) (path path' : SstablePath) :
    samePath (path.text directory) (path'.text directory) = decide (path = path') := by
  obtain ⟨front, hfront, hjoin⟩ := exists_joinPath directory
  rw [Bool.eq_iff_iff, decide_eq_true_iff]
  refine ⟨fun h => ?_, fun h => h ▸ samePath_self _⟩
  have helements : pathElements (front ++ path.name) = pathElements (front ++ path'.name) := by
    unfold samePath SstablePath.text at h
    rw [hjoin, hjoin] at h
    exact of_decide_eq_true h
  have hlast := getLast?_pathElements hfront path.name_ne_nil path.slash_not_mem_name
  rw [helements, getLast?_pathElements hfront path'.name_ne_nil path'.slash_not_mem_name] at hlast
  exact (SstablePath.name_inj (Option.some.inj hlast)).symm

/-- They are sorted as their names. -/
theorem text_le_iff (directory : Bytes) (path path' : SstablePath) :
    path.text directory ≤ path'.text directory ↔ path.string ≤ path'.string := by
  obtain ⟨front, -, hjoin⟩ := exists_joinPath directory
  have hmono : StrictMono fun name : Bytes => front ++ name := fun _ _ h => List.append_left_lt h
  unfold SstablePath.text
  rw [hjoin, hjoin, hmono.le_iff_le, ← not_lt, ← not_lt, SstablePath.name_lt_iff]

/-- A path is not empty. -/
theorem SstablePath.text_ne_nil (directory : Bytes) (path : SstablePath) :
    path.text directory ≠ [] := by
  obtain ⟨front, -, hjoin⟩ := exists_joinPath directory
  unfold SstablePath.text
  rw [hjoin]
  exact List.append_ne_nil_of_right_ne_nil _ path.name_ne_nil

/-! ## Edits -/

/-- The metadata of a file, with its path written out. -/
def SstableMetadata.encode (directory : Bytes) (f : SstableMetadata) : FileMetadata :=
  ⟨f.path.text directory, UInt64.ofNat f.level, f.smallestKey, f.largestKey⟩

/-- An edit, with its paths written out. -/
def ManifestEdit.encode (directory : Bytes) (edit : ManifestEdit) : FileEdit where
  removeFiles := edit.removeFiles.map (SstablePath.text directory)
  addFiles := edit.addFiles.map (SstableMetadata.encode directory)
  persistedThrough := edit.persistedThrough.map UInt64.ofNat

/-- The state of a MANIFEST, with its paths written out. -/
def Manifest.encode (directory : Bytes) (m : Manifest) : LiveState where
  liveFiles := m.liveFiles.map (SstableMetadata.encode directory)
  persistedThrough := m.persistedThrough.map UInt64.ofNat

/-- The levels and the checkpoint are 64-bit numbers. -/
structure Fits64 (files : List SstableMetadata) (persistedThrough : Option ℕ) : Prop where
  level : ∀ f ∈ files, f.level ≤ uint64Max
  through : ∀ through ∈ persistedThrough, through ≤ uint64Max

/-- Numbers of 64 bits are ordered as natural numbers are. -/
theorem ofNat_lt_iff {m n : ℕ} (hm : m ≤ uint64Max) (hn : n ≤ uint64Max) :
    UInt64.ofNat m < UInt64.ofNat n ↔ m < n := by
  unfold uint64Max at hm hn
  rw [UInt64.lt_iff_toNat_lt, UInt64.toNat_ofNat', UInt64.toNat_ofNat']
  omega

/-- They are known from the natural numbers that they stand for. -/
theorem ofNat_inj {m n : ℕ} (hm : m ≤ uint64Max) (hn : n ≤ uint64Max) :
    UInt64.ofNat m = UInt64.ofNat n ↔ m = n := by
  unfold uint64Max at hm hn
  rw [← UInt64.toNat_inj, UInt64.toNat_ofNat', UInt64.toNat_ofNat']
  omega

/-- The files are sorted as they are with their paths written out. -/
theorem encode_sortMetadata (directory : Bytes) {files : List SstableMetadata}
    (hlevel : ∀ f ∈ files, f.level ≤ uint64Max) :
    (sortMetadata files).map (SstableMetadata.encode directory) =
      sortFiles (files.map (SstableMetadata.encode directory)) := by
  refine List.map_insertionSort _ _ _ _ fun a ha b hb => ?_
  have hlt := ofNat_lt_iff (hlevel a ha) (hlevel b hb)
  have heq := ofNat_inj (hlevel a ha) (hlevel b hb)
  unfold SstableMetadata.le FileMetadata.le SstableMetadata.encode
  dsimp only
  by_cases h : a.level = b.level
  · rw [if_neg (not_not.2 h), if_neg (not_not.2 (heq.2 h)), decide_eq_true_iff, decide_eq_true_iff,
      text_le_iff]
  · rw [if_pos h, if_pos (mt heq.1 h), decide_eq_true_iff, decide_eq_true_iff, hlt]

/-- A removal by path bytes is one by paths. -/
theorem encode_removeFile (directory : Bytes) (files : List SstableMetadata) (path : SstablePath) :
    LiveState.removeFile (files.map (SstableMetadata.encode directory)) (path.text directory) =
      (Manifest.removeFile files path).map (List.map (SstableMetadata.encode directory)) := by
  have hfilter : (files.map (SstableMetadata.encode directory)).filter
        (fun metadata => !samePath metadata.path (path.text directory)) =
      (files.filter fun f => f.path ≠ path).map (SstableMetadata.encode directory) := by
    rw [List.filter_map]
    congr 1
    refine List.filter_congr fun f _ => ?_
    show (!samePath (f.path.text directory) (path.text directory)) = _
    rw [samePath_text, decide_not]
  unfold LiveState.removeFile Manifest.removeFile
  dsimp only
  rw [hfilter, List.length_map, List.length_map]
  split_ifs <;> rfl

/-- An addition by path bytes is one by paths. -/
theorem encode_addFile (directory : Bytes) (files : List SstableMetadata) (f : SstableMetadata) :
    LiveState.addFile (files.map (SstableMetadata.encode directory)) (f.encode directory) =
      (Manifest.addFile files f).map (List.map (SstableMetadata.encode directory)) := by
  have hany : (files.map (SstableMetadata.encode directory)).any
        (fun existing => samePath existing.path (f.encode directory).path) =
      files.any fun existing => existing.path = f.path := by
    rw [List.any_map]
    congr 1
    funext existing
    exact samePath_text directory existing.path f.path
  have hrange : (f.encode directory).smallestKey > (f.encode directory).largestKey ↔
      f.smallestKey > f.largestKey := Iff.rfl
  have hpath : (f.encode directory).path ≠ [] := f.path.text_ne_nil directory
  unfold LiveState.addFile Manifest.addFile validateMetadata
  rw [if_neg hpath, hany]
  by_cases hreversed : f.smallestKey > f.largestKey
  · rw [if_pos (hrange.2 hreversed), if_pos hreversed]
    rfl
  · rw [if_neg (mt hrange.1 hreversed), if_neg hreversed, ok_bind]
    split_ifs
    · rfl
    · refine congrArg Except.ok ?_
      rw [List.map_append]
      rfl

/-- A checkpoint of 64 bits advances as a natural number does. -/
theorem encode_advanceCheckpoint {checkpoint edit : Option ℕ}
    (hcheckpoint : ∀ through ∈ checkpoint, through ≤ uint64Max)
    (hedit : ∀ through ∈ edit, through ≤ uint64Max) :
    LiveState.advanceCheckpoint (checkpoint.map UInt64.ofNat) (edit.map UInt64.ofNat) =
      (Manifest.advanceCheckpoint checkpoint edit).map (Option.map UInt64.ofNat) := by
  cases edit with
  | none => rfl
  | some through =>
    have hany : (checkpoint.map UInt64.ofNat).any (UInt64.ofNat through < ·) =
        checkpoint.any (through < ·) := by
      cases checkpoint with
      | none => rfl
      | some old =>
        exact decide_eq_decide.2 (ofNat_lt_iff (hedit through rfl) (hcheckpoint old rfl))
    unfold LiveState.advanceCheckpoint Manifest.advanceCheckpoint
    dsimp only [Option.map_some]
    rw [hany]
    split_ifs <;> rfl

/-- A loop that can fail, over the images of its elements. -/
theorem foldlM_map_eq {ε α β γ δ : Type} {f : α → β → Except ε α} {g : γ → δ → Except ε γ}
    {h : α → γ} {k : β → δ} (hcommutes : ∀ a b, g (h a) (k b) = (f a b).map h) :
    ∀ (l : List β) (a : α), (l.map k).foldlM g (h a) = (l.foldlM f a).map h := by
  intro l
  induction l with
  | nil => exact fun a => rfl
  | cons b l ih =>
    intro a
    rw [List.map_cons, List.foldlM_cons, List.foldlM_cons, hcommutes]
    cases f a b with
    | error failure => rfl
    | ok a' => exact ih a'

/-- **Edits, written out.** An edit over the paths that are written out has the result, or the
exception, of the edit over the files of the directory. -/
theorem next_encode (directory : Bytes) {m : Manifest} {edit : ManifestEdit}
    (hm : Fits64 m.liveFiles m.persistedThrough)
    (hedit : Fits64 edit.addFiles edit.persistedThrough) :
    (m.encode directory).next (edit.encode directory) =
      (m.applyEdit edit).map (Manifest.encode directory) := by
  have hremoves := foldlM_map_eq (encode_removeFile directory) edit.removeFiles m.liveFiles
  have hadvance := encode_advanceCheckpoint hm.through hedit.through
  show (do
    let nextState ← (edit.removeFiles.map (SstablePath.text directory)).foldlM LiveState.removeFile
      (m.liveFiles.map (SstableMetadata.encode directory))
    let nextState ←
      (edit.addFiles.map (SstableMetadata.encode directory)).foldlM LiveState.addFile nextState
    let nextCheckpoint ← LiveState.advanceCheckpoint (m.persistedThrough.map UInt64.ofNat)
      (edit.persistedThrough.map UInt64.ofNat)
    Except.ok (⟨sortFiles nextState, nextCheckpoint⟩ : LiveState)) = _
  rw [hremoves, hadvance]
  unfold Manifest.applyEdit
  cases hremove : edit.removeFiles.foldlM Manifest.removeFile m.liveFiles with
  | error failure => rfl
  | ok removed =>
    have hadds := foldlM_map_eq (encode_addFile directory) edit.addFiles removed
    show (do
      let nextState ← (edit.addFiles.map (SstableMetadata.encode directory)).foldlM
        LiveState.addFile (removed.map (SstableMetadata.encode directory))
      let nextCheckpoint ← (Manifest.advanceCheckpoint m.persistedThrough
        edit.persistedThrough).map (Option.map UInt64.ofNat)
      Except.ok (⟨sortFiles nextState, nextCheckpoint⟩ : LiveState)) = _
    rw [hadds, ok_bind]
    cases hadd : edit.addFiles.foldlM Manifest.addFile removed with
    | error failure => rfl
    | ok added =>
      cases hcheckpoint : Manifest.advanceCheckpoint m.persistedThrough edit.persistedThrough with
      | error failure => rfl
      | ok checkpoint =>
        have happly : m.applyEdit edit = .ok ⟨sortMetadata added, checkpoint⟩ := by
          unfold Manifest.applyEdit
          rw [hremove, ok_bind, hadd, ok_bind, hcheckpoint]
          rfl
        -- What is sorted was live, or is added.
        have hlevel : ∀ f ∈ added, f.level ≤ uint64Max := by
          intro f hf
          rcases Manifest.mem_of_applyEdit happly (Manifest.mem_sortMetadata.2 hf) with h | h
          · exact hm.level f h
          · exact hedit.level f h
        refine congrArg Except.ok ?_
        show LiveState.mk _ _ = LiveState.mk _ _
        rw [encode_sortMetadata directory hlevel]

end Kronos
