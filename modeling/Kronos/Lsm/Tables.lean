import Mathlib.Data.List.Perm.Subperm
import Kronos.Lsm.Store

/-!
# The tables of a store

What the files of a store hold (`Store.Holds`, `Store.Records`), which versions of a key its live
files give (`Store.versions`), and how an edit changes this (`Store.Updates`). The allocator finds a
path that no file has, so that a new table changes no file that is there.
-/

namespace Kronos

namespace Store

variable {F R : Type} (fmt : TableFormat F R)

/-! ## Allocating a path -/

/-- What the allocator's loop returns is no file. -/
theorem allocateFrom_ok {s : Store F} {level fuel id : ℕ} {path : SstablePath} {next : ℕ}
    (h : s.allocateFrom level fuel id = .ok (path, next)) :
    s.fileExists path = false ∧ path.level = level := by
  induction fuel generalizing id with
  | zero => cases h
  | succ fuel ih =>
    rw [allocateFrom] at h
    split_ifs at h with hexists
    · exact ih h
    · cases h
      exact ⟨by simpa using hexists, rfl⟩

/-- If the loop finds no path, then every number that it tried is taken. -/
theorem allocateFrom_error {s : Store F} {level fuel id : ℕ} {failure : Failure}
    (h : s.allocateFrom level fuel id = .error failure) {offset : ℕ} (hoffset : offset < fuel) :
    s.fileExists ⟨level, id + offset⟩ = true := by
  induction fuel generalizing id offset with
  | zero => exact absurd hoffset (Nat.not_lt_zero _)
  | succ fuel ih =>
    rw [allocateFrom] at h
    split_ifs at h with hexists
    cases offset with
    | zero => exact hexists
    | succ offset =>
      have hrest := ih h (Nat.lt_of_succ_lt_succ hoffset)
      rwa [Nat.add_right_comm, Nat.add_assoc] at hrest

/-- A file that exists is among the files. -/
theorem mem_of_fileExists {s : Store F} {path : SstablePath} (h : s.fileExists path = true) :
    path ∈ s.files.map Prod.fst := by
  obtain ⟨file, hfile⟩ := Option.isSome_iff_exists.1 h
  obtain ⟨front, back, hfiles, -⟩ := List.lookup_eq_some_iff.1 hfile
  rw [hfiles]
  simp

/-- The allocator returns, with a path that no file has. It changes only its counter. -/
theorem allocateSstablePath_returns (s : Store F) (level : ℕ) :
    ∃ path nextSstableId, s.allocateSstablePath level =
      .ok (path, { s with nextSstableId := nextSstableId }) ∧ s.fileExists path = false ∧
        path.level = level := by
  cases hfrom : s.allocateFrom level (s.files.length + 1) s.nextSstableId with
  | ok result =>
    obtain ⟨path, next⟩ := result
    obtain ⟨hfresh, hlevel⟩ := allocateFrom_ok hfrom
    exact ⟨path, next, by rw [allocateSstablePath, hfrom, ok_bind], hfresh, hlevel⟩
  | error failure =>
    -- The numbers that the loop tried are all taken, but there are more of them than files.
    let tried := (List.range (s.files.length + 1)).map fun offset =>
      (⟨level, s.nextSstableId + offset⟩ : SstablePath)
    have hnodup : tried.Nodup := List.nodup_range.map fun a b hab => by simpa using hab
    have hsub : tried ⊆ s.files.map Prod.fst := by
      intro path hpath
      obtain ⟨offset, hoffset, rfl⟩ := List.mem_map.1 hpath
      exact mem_of_fileExists (allocateFrom_error hfrom (List.mem_range.1 hoffset))
    have hle := (List.subperm_of_subset hnodup hsub).length_le
    simp [tried] at hle

/-! ## What files hold -/

/-- The file of some metadata holds these records. -/
def Holds (s : Store F) (f : SstableMetadata) (rs : List TableRecord) : Prop :=
  ∃ file, s.files.lookup f.path = some file ∧ fmt.Stores file rs

/-- A reader over the file yields its records. -/
theorem Holds.readTable {fmt : TableFormat F R} {s : Store F} {f : SstableMetadata}
    {rs : List TableRecord} (h : s.Holds fmt f rs) : s.readTable fmt f.path = .ok rs := by
  obtain ⟨file, hfile, reader, hopen, hrecords, -⟩ := h
  simp only [Store.readTable, openSstable, hfile, hopen, ok_bind, hrecords]

/-- Its lookup answers as they do, for a key that it takes. -/
theorem Holds.lookupEntry {fmt : TableFormat F R} {s : Store F} {f : SstableMetadata}
    {rs : List TableRecord} (h : s.Holds fmt f rs) {key : Bytes} (hkey : fmt.Takes key) :
    (s.openSstable fmt f.path >>= (fmt.lookupEntry · key)) = .ok (rs.lookup key) := by
  obtain ⟨file, hfile, reader, hopen, -, hlookup⟩ := h
  simp only [openSstable, hfile, hopen, ok_bind, hlookup key hkey]

/-- A file holds one table. -/
theorem Holds.unique {fmt : TableFormat F R} {s : Store F} {f : SstableMetadata}
    {rs rs' : List TableRecord} (h : s.Holds fmt f rs) (h' : s.Holds fmt f rs') : rs = rs' :=
  Except.ok.inj (h.readTable.symm.trans h'.readTable)

/-- The first and the last key of a table. -/
def HasRange (rs : List TableRecord) (smallestKey largestKey : Bytes) : Prop :=
  rs.head?.map Prod.fst = some smallestKey ∧ rs.getLast?.map Prod.fst = some largestKey

/-- The metadata of a file is exact: it holds a table in the order of its keys, of which the first
and the last are those recorded. -/
structure Records (s : Store F) (f : SstableMetadata) (rs : List TableRecord) : Prop where
  holds : s.Holds fmt f rs
  sorted : Sorted rs
  range : HasRange rs f.smallestKey f.largestKey

/-- A sorted table has its keys in its range. -/
theorem HasRange.covers {rs : List TableRecord} {smallestKey largestKey : Bytes}
    (h : HasRange rs smallestKey largestKey) (hsorted : Sorted rs) {r : TableRecord} (hr : r ∈ rs) :
    smallestKey ≤ r.1 ∧ r.1 ≤ largestKey := by
  obtain ⟨first, hfirst, rfl⟩ := Option.map_eq_some_iff.1 h.1
  obtain ⟨last, hlast, rfl⟩ := Option.map_eq_some_iff.1 h.2
  obtain ⟨rest, rfl⟩ := List.head?_eq_some_iff.1 hfirst
  exact ⟨hsorted.first_le hr, hsorted.le_last hlast hr⟩

/-- The ends of a range are keys of the table. -/
theorem HasRange.exists_mem {rs : List TableRecord} {smallestKey largestKey : Bytes}
    (h : HasRange rs smallestKey largestKey) :
    (∃ r ∈ rs, r.1 = smallestKey) ∧ ∃ r ∈ rs, r.1 = largestKey := by
  obtain ⟨first, hfirst, rfl⟩ := Option.map_eq_some_iff.1 h.1
  obtain ⟨last, hlast, rfl⟩ := Option.map_eq_some_iff.1 h.2
  exact ⟨⟨first, List.mem_of_head? hfirst, rfl⟩, ⟨last, List.mem_of_getLast? hlast, rfl⟩⟩

/-- The range of a sorted table is not reversed. -/
theorem HasRange.le {rs : List TableRecord} {smallestKey largestKey : Bytes}
    (h : HasRange rs smallestKey largestKey) (hsorted : Sorted rs) : smallestKey ≤ largestKey := by
  obtain ⟨⟨r, hr, hkey⟩, -⟩ := h.exists_mem
  have hcovers := h.covers hsorted hr
  exact hcovers.1.trans hcovers.2

/-- The range that a walk over a table records. -/
theorem hasRange_walk (first : TableRecord) (rest : List TableRecord) :
    HasRange (first :: rest) first.1 (lastKey first.1 (first :: rest)) := by
  refine ⟨rfl, ?_⟩
  have hlast : ∀ key,
      lastKey key (first :: rest) = ((first :: rest).getLast (List.cons_ne_nil _ _)).1 := by
    induction rest generalizing first with
    | nil => exact fun _ => rfl
    | cons second rest ih =>
      intro key
      rw [List.getLast_cons (List.cons_ne_nil _ _)]
      exact ih second first.1
  rw [hlast, List.getLast?_eq_some_getLast (List.cons_ne_nil _ _)]
  rfl

variable {fmt} in
/-- The range of exact metadata is not reversed. -/
theorem Records.smallestKey_le {s : Store F} {f : SstableMetadata} {rs : List TableRecord}
    (h : s.Records fmt f rs) : f.smallestKey ≤ f.largestKey := h.range.le h.sorted

variable {fmt} in
/-- The range covers the keys of the table. -/
theorem Records.covers {s : Store F} {f : SstableMetadata} {rs : List TableRecord}
    (h : s.Records fmt f rs) {key : Bytes} {entry : InternalEntry} (hmem : (key, entry) ∈ rs) :
    f.Covers key := h.range.covers h.sorted hmem

/-- The files of one store are those of another, with the same contents. -/
def KeepsFiles (s s' : Store F) : Prop :=
  ∀ path file, s.files.lookup path = some file → s'.files.lookup path = some file

/-- A store keeps its files. -/
theorem KeepsFiles.refl (s : Store F) : KeepsFiles s s := fun _ _ => id

/-- What is kept twice is kept. -/
theorem KeepsFiles.trans {s s' t : Store F} (h : KeepsFiles s s') (h' : KeepsFiles s' t) :
    KeepsFiles s t := fun path file hfile => h' path file (h path file hfile)

variable {fmt} in

/-- A file that is kept still holds its records. -/
theorem Holds.mono {s s' : Store F} {f : SstableMetadata} {rs : List TableRecord}
    (h : s.Holds fmt f rs) (hkeep : KeepsFiles s s') : s'.Holds fmt f rs := by
  obtain ⟨file, hfile, hstores⟩ := h
  exact ⟨file, hkeep _ _ hfile, hstores⟩

variable {fmt} in

/-- It still has them. -/
theorem Records.mono {s s' : Store F} {f : SstableMetadata} {rs : List TableRecord}
    (h : s.Records fmt f rs) (hkeep : KeepsFiles s s') : s'.Records fmt f rs :=
  ⟨h.holds.mono hkeep, h.sorted, h.range⟩

/-- Publishing a table keeps the files. -/
theorem keepsFiles_publish (s : Store F) (path : SstablePath) (file : F) :
    KeepsFiles s (s.publish path file) := by
  intro path' file' h
  rw [publish, List.lookup_append, h, Option.some_or]

/-- A table that is published under a free path is there. -/
theorem lookup_publish {s : Store F} {path : SstablePath} (h : s.fileExists path = false)
    (file : F) : (s.publish path file).files.lookup path = some file := by
  have hnone : s.files.lookup path = none := by simpa [fileExists] using h
  rw [publish, List.lookup_append, hnone, Option.none_or, List.lookup_cons_self]

/-! ## The versions of a key -/

/-- The versions of a key in some files. -/
def versionsIn (s : Store F) (files : List SstableMetadata) (key : Bytes) : Set InternalEntry :=
  {entry | ∃ f ∈ files, ∃ rs, s.Holds fmt f rs ∧ (key, entry) ∈ rs}

/-- The versions of a key in the live files. -/
def versions (s : Store F) (key : Bytes) : Set InternalEntry :=
  s.versionsIn fmt s.manifest.liveFiles key

variable {fmt} in
/-- Files with exact metadata keep their versions when others are added. -/
theorem versionsIn_eq {s s' : Store F} {files : List SstableMetadata} (hkeep : KeepsFiles s s')
    (h : ∀ f ∈ files, ∃ rs, s.Records fmt f rs) (key : Bytes) :
    s'.versionsIn fmt files key = s.versionsIn fmt files key := by
  ext entry
  constructor
  · rintro ⟨f, hf, rs, hholds, hmem⟩
    obtain ⟨rs', hrecords⟩ := h f hf
    rw [hholds.unique (hrecords.holds.mono hkeep)] at hmem
    exact ⟨f, hf, rs', hrecords.holds, hmem⟩
  · exact fun ⟨f, hf, rs, hholds, hmem⟩ => ⟨f, hf, rs, hholds.mono hkeep, hmem⟩

/-! ## Searching files -/

/-- A sorted table has one version of a key at most, which its lookup finds. -/
theorem newest_lookup {rs : List TableRecord} (hsorted : Sorted rs) (key : Bytes) :
    Newest InternalEntry.sequence {entry | (key, entry) ∈ rs} (rs.lookup key) := by
  cases hlookup : rs.lookup key with
  | none =>
    intro entry hmem
    rw [hsorted.lookup_eq_some_iff.2 hmem] at hlookup
    cases hlookup
  | some entry =>
    refine ⟨hsorted.lookup_eq_some_iff.1 hlookup, fun entry' hmem => ?_⟩
    rw [hsorted.lookup_eq_some_iff.2 hmem] at hlookup
    rw [Option.some.inj hlookup]

variable {fmt} in
/-- Whether a file is opened or not, a pass of the search considers its version of the key. -/
theorem Records.lookupFile {s : Store F} {f : SstableMetadata} {rs : List TableRecord}
    (h : s.Records fmt f rs) {key : Bytes} (hkey : fmt.Takes key)
    (winner : Option InternalEntry) :
    s.lookupFile fmt key winner f = .ok (considerNewer winner (rs.lookup key)) := by
  rw [Store.lookupFile]
  split_ifs with hout
  · have hnone : rs.lookup key = none := by
      refine lookup_eq_none_of_forall_ne fun r hr heq => ?_
      have hcovers := h.covers hr
      rw [heq] at hcovers
      exact hout.elim hcovers.1.not_gt hcovers.2.not_gt
    rw [hnone]
    cases winner <;> rfl
  · have hlookup := h.holds.lookupEntry hkey
    cases hopen : s.openSstable fmt f.path with
    | error failure =>
      rw [hopen] at hlookup
      cases hlookup
    | ok reader =>
      rw [hopen, ok_bind] at hlookup
      rw [ok_bind, hlookup, ok_bind]

variable {fmt} in
/-- A search in files with exact metadata does not change when others are added. -/
theorem foldlM_lookupFile_mono {s s' : Store F} (hkeep : KeepsFiles s s')
    {files : List SstableMetadata} (h : ∀ f ∈ files, ∃ rs, s.Records fmt f rs) {key : Bytes}
    (hkey : fmt.Takes key) (winner : Option InternalEntry) :
    files.foldlM (s'.lookupFile fmt key) winner = files.foldlM (s.lookupFile fmt key) winner := by
  induction files generalizing winner with
  | nil => rfl
  | cons f files ih =>
    obtain ⟨rs, hrecords⟩ := h f (.head _)
    rw [List.foldlM_cons, List.foldlM_cons, hrecords.lookupFile hkey,
      (hrecords.mono hkeep).lookupFile hkey, ok_bind, ok_bind]
    exact ih (fun f' hf' => h f' (.tail _ hf')) _

variable {fmt} in
/-- The versions in a first file and in those behind it. -/
theorem Holds.versionsIn_cons {s : Store F} {f : SstableMetadata} {rs : List TableRecord}
    (h : s.Holds fmt f rs) (files : List SstableMetadata) (key : Bytes) :
    s.versionsIn fmt (f :: files) key =
      {entry | (key, entry) ∈ rs} ∪ s.versionsIn fmt files key := by
  ext entry
  constructor
  · rintro ⟨f', hf', rs', hholds, hmem⟩
    rcases List.mem_cons.1 hf' with rfl | hf'
    · exact .inl (hholds.unique h ▸ hmem)
    · exact .inr ⟨f', hf', rs', hholds, hmem⟩
  · rintro (hmem | ⟨f', hf', hmem⟩)
    · exact ⟨f, .head _, rs, h, hmem⟩
    · exact ⟨f', .tail _ hf', hmem⟩

variable {fmt} in
/-- A search in files with exact metadata, from a winner among some versions on, returns the newest
of these and of the versions of the key. -/
theorem foldlM_lookupFile_spec {s : Store F} {files : List SstableMetadata}
    (h : ∀ f ∈ files, ∃ rs, s.Records fmt f rs) {key : Bytes} (hkey : fmt.Takes key)
    {S : Set InternalEntry} {winner : Option InternalEntry}
    (hwinner : Newest InternalEntry.sequence S winner) :
    ∃ winner', files.foldlM (s.lookupFile fmt key) winner = .ok winner' ∧
      Newest InternalEntry.sequence (S ∪ s.versionsIn fmt files key) winner' := by
  induction files generalizing S winner with
  | nil =>
    refine ⟨winner, rfl, hwinner.congr ?_⟩
    ext entry
    simp [versionsIn]
  | cons f files ih =>
    obtain ⟨rs, hrecords⟩ := h f (.head _)
    obtain ⟨winner', hrest, hnewest⟩ := ih (fun f' hf' => h f' (.tail _ hf'))
      (hwinner.union (newest_lookup hrecords.sorted key))
    refine ⟨winner', ?_, hnewest.congr ?_⟩
    · rw [List.foldlM_cons, hrecords.lookupFile hkey, ok_bind]
      exact hrest
    · rw [hrecords.holds.versionsIn_cons, Set.union_assoc]

variable {fmt} in
/-- The search of `get` in files with exact metadata returns, with the newest version of the key, if
a lookup takes it. -/
theorem lookupFiles_spec {s : Store F} {files : List SstableMetadata}
    (h : ∀ f ∈ files, ∃ rs, s.Records fmt f rs) {key : Bytes} (hkey : fmt.Takes key) :
    ∃ winner, s.lookupFiles fmt files key = .ok winner ∧
      Newest InternalEntry.sequence (s.versionsIn fmt files key) winner := by
  obtain ⟨winner, hreturns, hnewest⟩ := foldlM_lookupFile_spec h hkey (Newest.empty _)
  exact ⟨winner, hreturns, hnewest.congr (Set.empty_union _)⟩

variable {fmt} in
/-- Whatever a lookup takes, files with exact metadata have a newest version of a key, or none. -/
theorem exists_newestIn {s : Store F} {files : List SstableMetadata}
    (h : ∀ f ∈ files, ∃ rs, s.Records fmt f rs) (key : Bytes) :
    ∃ winner, Newest InternalEntry.sequence (s.versionsIn fmt files key) winner := by
  induction files with
  | nil =>
    refine ⟨none, fun entry hentry => ?_⟩
    obtain ⟨f, hf, -⟩ := hentry
    cases hf
  | cons f files ih =>
    obtain ⟨rs, hrecords⟩ := h f (.head _)
    obtain ⟨winner, hwinner⟩ := ih fun f' hf' => h f' (.tail _ hf')
    have hunion := (newest_lookup hrecords.sorted key).union hwinner
    exact ⟨_, hunion.congr (hrecords.holds.versionsIn_cons files key).symm⟩

/-! ## Edits -/

/-- An edit of the MANIFEST, in terms of its effect: some files are no longer live, and others
are. -/
structure Updates (s s' : Store F) (removed : List SstablePath) (added : List SstableMetadata) :
    Prop where
  live : ∀ f, f ∈ s'.manifest.liveFiles ↔
    f ∈ s.manifest.liveFiles ∧ f.path ∉ removed ∨ f ∈ added
  distinct : Manifest.DistinctPaths s'.manifest.liveFiles
  keeps : KeepsFiles s s'

end Store

end Kronos
