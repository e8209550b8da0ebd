import Kronos.Engine.Acknowledged
import Kronos.Engine.Layers

/-!
# The instant of a get

A `get` looks in the active Memtable and copies the pointer of the immutable one in a first section.
In a later one it copies the list of the live files, which it then reads. Between the two, the
records of its key can move: to the immutable slot, to level 0, to level 1, and away where a
compaction drops a tombstone.

What the checkpoint covers only grows (`ProcessStep.grows`). So when the Memtables of the first
section do not have the key, the files that the second one copies give it the value that it had at
an instant between the two. This is the first section, where the files cover no more than what was
applied then. Else it is the instant at which the last record that they cover was applied
(`Trail`).
-/

namespace Kronos

open KronosEngine

/-! ## What only grows -/

/-- The checkpoint never moves backwards. -/
theorem Manifest.covers_of_applyEdit {m m' : Manifest} {edit : ManifestEdit}
    (h : m.applyEdit edit = .ok m') {sequence : ℕ}
    (hcovered : m.persistedThrough.any (sequence ≤ ·)) :
    m'.persistedThrough.any (sequence ≤ ·) := by
  unfold applyEdit at h
  obtain ⟨removed, -, h⟩ := bind_eq_ok h
  obtain ⟨added, -, h⟩ := bind_eq_ok h
  obtain ⟨checkpoint, hadvance, h⟩ := bind_eq_ok h
  cases h
  unfold advanceCheckpoint at hadvance
  cases hthrough : edit.persistedThrough with
  | none =>
    rw [hthrough] at hadvance
    cases hadvance
    exact hcovered
  | some through =>
    rw [hthrough] at hadvance
    dsimp only at hadvance
    split_ifs at hadvance with hback
    cases hadvance
    cases hold : m.persistedThrough with
    | none =>
      rw [hold] at hcovered
      cases hcovered
    | some old =>
      rw [hold] at hcovered hback
      simp only [Option.any_some, decide_eq_true_eq, not_lt] at hcovered hback ⊢
      exact hcovered.trans hback

namespace Store

variable {F : Type}

/-- What only grows in a store: its files, and what its checkpoint covers. -/
structure Grows (s s' : Store F) : Prop where
  files : KeepsFiles s s'
  covers : ∀ sequence, s.manifest.persistedThrough.any (sequence ≤ ·) →
    s'.manifest.persistedThrough.any (sequence ≤ ·)

/-- A store is no smaller than itself. -/
theorem Grows.refl (s : Store F) : Grows s s := ⟨.refl s, fun _ => id⟩

/-- New files. -/
theorem Grows.of_manifest_eq {s s' : Store F} (hmanifest : s'.manifest = s.manifest)
    (hkeeps : KeepsFiles s s') : Grows s s' := by
  refine ⟨hkeeps, fun sequence => ?_⟩
  rw [hmanifest]
  exact id

/-- A commit. -/
theorem Grows.of_commit {s s' : Store F} {edit : ManifestEdit} (h : s.commit edit = .ok s') :
    Grows s s' := by
  refine ⟨keepsFiles_of_commit h, ?_⟩
  obtain ⟨manifest, hmanifest, h⟩ := bind_eq_ok h
  cases h
  exact fun _ => Manifest.covers_of_applyEdit hmanifest

end Store

/-- The records that the live files cover. -/
def System.covered {F ι : Type} (s : System F ι) : List Record :=
  coveredBy s.engine.store.manifest.persistedThrough s.history.records

/-- What only grows in a process: its files, what they cover, and what was applied. -/
structure System.Grows {F ι : Type} (s s' : System F ι) : Prop where
  files : Store.KeepsFiles s.engine.store s'.engine.store
  covered : s.covered <+: s'.covered
  applied : s.history.applied <+: s'.history.applied

namespace System.Grows

variable {F ι : Type} {s s' s'' : System F ι}

/-- A state is one that nothing has been added to. -/
theorem refl (s : System F ι) : s.Grows s := ⟨.refl _, List.prefix_refl _, List.prefix_refl _⟩

/-- What grows twice has grown. -/
theorem trans (h : s.Grows s') (h' : s'.Grows s'') : s.Grows s'' :=
  ⟨h.files.trans h'.files, h.covered.trans h'.covered, h.applied.trans h'.applied⟩

end System.Grows

section Steps

variable {F R ι : Type} {H : Hashing} {fmt : TableFormat F R} {s s' : System F ι}

/-- The live files cover a first part of what was applied. -/
theorem System.Invariant.covered_isPrefix (hs : s.Invariant H) :
    s.covered <+: s.history.applied := by
  obtain ⟨g, hd, -⟩ := hs.data
  rw [System.covered, hd.coveredBy_live, hd.applied]
  cases s.worker.clearing with
  | false =>
    unfold Generations.applied
    rw [List.append_assoc]
    exact List.prefix_append _ _
  | true => exact List.prefix_append _ _

/-- The applied records are among those of the log. -/
theorem System.Invariant.applied_isPrefix (hs : s.Invariant H) :
    s.history.applied <+: s.history.records := by
  obtain ⟨g, hd, -⟩ := hs.data
  rw [hd.applied, hd.records]
  exact List.prefix_append _ _

/-- The worker leaves the files, and what they cover. -/
theorem System.Invariant.store_grows (hs : s.Invariant H) {fault : Option (WorkerFault F)}
    {e : KronosEngine F} {pc : WorkerPc} (hstep : WorkerStep H fmt s.engine fault s.worker e pc) :
    s.engine.store.Grows e.store := by
  obtain ⟨g, hd, -⟩ := hs.data
  -- A commit keeps the files, and leaves the checkpoint or moves it forward.
  have hcommit : ∀ (edit : ManifestEdit) (fault : Option CommitFault),
      s.engine.store.Grows (s.engine.commitEdit edit fault).2.store := by
    intro edit fault
    have hcases := s.engine.commitEdit_cases edit fault
    generalize s.engine.commitEdit edit fault = result at hcases
    cases hcases with
    | committed store hok => exact .of_commit hok
    | _ => exact .refl _
  generalize s.worker = worker at hd hstep
  cases hstep with
  | flush task store edit hprepare =>
    obtain ⟨hmanifest, hkeeps, -⟩ := Store.prepareFlush_ok hprepare hd.live
    exact .of_manifest_eq hmanifest hkeeps
  | compact liveFiles store edit hprepare =>
    obtain rfl : liveFiles = s.engine.store.manifest.liveFiles := hd.worker
    obtain ⟨store', hprepared, rfl⟩ := KronosEngine.prepareCompaction_ok hprepare
    obtain ⟨-, hkeeps, -⟩ := Store.prepareCompaction_ok hprepared hd.live
    exact .of_manifest_eq rfl hkeeps
  | flushThrows task store failure _ hmanifest hkeeps => exact .of_manifest_eq hmanifest hkeeps
  | flushFails task store failure hmanifest hkeeps => exact .of_manifest_eq hmanifest hkeeps
  | compactThrows liveFiles store failure _ hmanifest hkeeps =>
    exact .of_manifest_eq hmanifest hkeeps
  | compactFails liveFiles store failure hmanifest hkeeps => exact .of_manifest_eq hmanifest hkeeps
  | commitFlush task edit fault => exact hcommit edit fault
  | commitCompaction edit fault => exact hcommit edit fault
  | clear task flushedThrough =>
    have hstore : (s.engine.clearImmutable task).2.store = s.engine.store := by
      unfold clearImmutable
      split_ifs <;> rfl
    exact hstore ▸ .refl _
  | record task failure =>
    have hstore : (s.engine.recordFailure failure).store = s.engine.store := by
      unfold recordFailure
      split_ifs <;> rfl
    exact hstore ▸ .refl _
  | _ => exact .refl _

/-- When the files cover no less, the records that they cover are only more. -/
theorem System.Invariant.covered_mono (hs : s.Invariant H) (hs' : s'.Invariant H)
    (hstore : s.engine.store.Grows s'.engine.store)
    (hrecords : s.history.records <+: s'.history.records) : s.covered <+: s'.covered := by
  have hfirst : s.covered <+: s'.history.records :=
    (hs.covered_isPrefix.trans hs.applied_isPrefix).trans hrecords
  have hfirst' : s'.covered <+: s'.history.records :=
    hs'.covered_isPrefix.trans hs'.applied_isPrefix
  refine List.prefix_of_prefix_length_le hfirst hfirst' (List.Sublist.length_le ?_)
  exact (hrecords.sublist.filter _).trans
    (List.monotone_filter_right _ fun r => hstore.covers r.sequence)

variable [DecidableEq ι]

/-- A step applies one record at most. -/
theorem ProcessStep.applied {label : ProcessLabel F ι} (hstep : ProcessStep H fmt s label s') :
    s'.history.applied = s.history.applied ∨
      ∃ r, s'.history.applied = s.history.applied ++ [r] := by
  cases hstep with
  | call i e h pc hcall =>
    generalize s.calls i = pc₀ at hcall
    cases hcall with
    | append w =>
      refine .inl ?_
      cases ((w.call none).run H s.engine.log.wal).1 <;> rfl
    | insert w sequence =>
      cases (s.engine.insertLocked w sequence).1 with
      | error failure => exact .inl rfl
      | ok _ => exact .inr ⟨_, rfl⟩
    | _ => exact .inl rfl
  | _ => exact .inl rfl

/-- **What only grows.** -/
theorem ProcessStep.grows {label : ProcessLabel F ι} (hs : s.Invariant H) (hs' : s'.Invariant H)
    (hstep : ProcessStep H fmt s label s') : s.Grows s' := by
  have happlied : s.history.applied <+: s'.history.applied := by
    rcases hstep.applied with heq | ⟨r, heq⟩
    · exact heq ▸ List.prefix_refl _
    · exact heq ▸ List.prefix_append _ _
  have hstore : s.engine.store.Grows s'.engine.store ∧
      s.history.records <+: s'.history.records := by
    cases hstep with
    | call i e h pc hcall =>
      exact ⟨hcall.sameTables.1 ▸ .refl _, hcall.records_grow⟩
    | worker fault e pc hworker => exact ⟨hs.store_grows hworker, List.prefix_refl _⟩
    | _ => exact ⟨.refl _, List.prefix_refl _⟩
  exact ⟨hstore.1.files, hs.covered_mono hs' hstore.1 hstore.2, happlied⟩

end Steps

/-! ## What the sections of a get find -/

section Sections

variable {F R ι : Type} {H : Hashing} {fmt : TableFormat F R} {s : System F ι} {key : Bytes}

/-- A version in the active Memtable gives the value of its key. -/
theorem System.Invariant.value_of_active (hs : s.Invariant H) {entry : InternalEntry}
    (h : s.engine.lookupActive key = some entry) :
    (GetResult.of (some entry)).answer = valueOf key s.history.applied := by
  obtain ⟨g, hd, -⟩ := hs.data
  rw [hd.lookupActive] at h
  rw [← answerOf_lastEntry, hd.lastEntry_applied, h]
  rfl

/-- So does one in the immutable Memtable, when the active one does not have the key. -/
theorem System.Invariant.value_of_immutable (hs : s.Invariant H)
    (hactive : s.engine.lookupActive key = none) {entry : InternalEntry}
    (h : s.engine.lookupImmutable key = some entry) :
    (GetResult.of (some entry)).answer = valueOf key s.history.applied := by
  obtain ⟨g, hd, -⟩ := hs.data
  rw [hd.lookupActive] at hactive
  rw [hd.lookupImmutable] at h
  rw [← answerOf_lastEntry, hd.lastEntry_applied, hactive, h]
  rfl

/-- When no Memtable has the key, no record of it was applied behind those that are covered. -/
theorem System.Invariant.applied_of_misses (hs : s.Invariant H)
    (hactive : s.engine.lookupActive key = none)
    (himmutable : s.engine.lookupImmutable key = none) :
    ∃ back, s.history.applied = s.covered ++ back ∧ lastEntry key back = none := by
  obtain ⟨g, hd, -⟩ := hs.data
  rw [hd.lookupActive] at hactive
  rw [hd.lookupImmutable] at himmutable
  rw [System.covered, hd.coveredBy_live, hd.applied]
  cases s.worker.clearing with
  | true => exact ⟨g.recent, rfl, hactive⟩
  | false =>
    refine ⟨g.sealed ++ g.recent, List.append_assoc .., ?_⟩
    rw [lastEntry_append, hactive, himmutable]
    rfl

/-- The live files answer as the records that they cover. -/
theorem Contents.lookupFiles (hc : Contents fmt s) (hs : s.Invariant H) {key : Bytes}
    (hkey : fmt.Takes key) :
    ∃ winner, s.engine.store.lookupFiles fmt s.engine.store.manifest.liveFiles key = .ok winner ∧
      answerOf winner = valueOf key s.covered := by
  obtain ⟨g, hd, -⟩ := hs.data
  have hv : Wal.ValidHistory s.covered := hd.history_applied.sublist hs.covered_isPrefix.sublist
  obtain ⟨winner, hreturns, hnewest⟩ := hc.live.lookupFiles hkey
  refine ⟨winner, hreturns, ?_⟩
  rw [hc.live.answer hv hnewest, answerOf_lastEntry]
  rfl

end Sections

/-! ## The points of a get -/

section Points

variable {F R ι : Type}

/-- What a step of a process does to one call: nothing, it wakes it, it begins it, it lets it
acquire a mutex, or it runs its next section. A shutdown also notifies and joins. -/
inductive CallMoves (H : Hashing) (fmt : TableFormat F R) (i : ι) (s : System F ι)
    (label : ProcessLabel F ι) (s' : System F ι) : Prop where
  | stays : s'.calls i = s.calls i → CallMoves H fmt i s label s'
  | woken : s'.calls i = (s.calls i).woken → CallMoves H fmt i s label s'
  | begins (request : Request) : s.calls i = .idle → s'.calls i = request.start →
    label = .invoke i request → CallMoves H fmt i s label s'
  | acquires (m : Mutex) (pc : Pc) : (s.calls i).acquires = some (m, pc) → s'.calls i = pc →
    CallMoves H fmt i s label s'
  | runs (pc : Pc) : CallStep H fmt i s.engine s.history (s.calls i) s'.engine s'.history pc →
    s'.calls i = pc → CallMoves H fmt i s label s'
  | notifies : s.calls i = .shutdown .notify → s'.calls i = .shutdown (.barrier false) →
    CallMoves H fmt i s label s'
  | joins (error : Option Failure) : s.calls i = .shutdown (.join error) → s.worker = .exited →
    s'.calls i = .shutdown (.report error false) → CallMoves H fmt i s label s'

variable [DecidableEq ι] {H : Hashing} {fmt : TableFormat F R} {s s' : System F ι}
  {label : ProcessLabel F ι} {i : ι} {key : Bytes}

/-- Every step does one of these to a call. -/
theorem ProcessStep.moves (hstep : ProcessStep H fmt s label s') (i : ι) :
    CallMoves H fmt i s label s' := by
  have hself : ∀ pc, (s.goto i pc).calls i = pc := fun pc => by rw [System.calls_goto, if_pos rfl]
  have hother : ∀ {j} (pc : Pc), j ≠ i → (s.goto j pc).calls i = s.calls i := fun pc hj => by
    rw [System.calls_goto, if_neg (Ne.symm hj)]
  -- The call that a step is about moves, and the others stay or are woken.
  cases hstep with
  | invoke j request hidle =>
    by_cases hj : j = i
    · subst hj
      exact .begins request hidle (hself _) rfl
    · exact .stays (hother _ hj)
  | acquire j m pc hacquires hfree =>
    by_cases hj : j = i
    · subst hj
      exact .acquires m pc hacquires (hself pc)
    · exact .stays (hother pc hj)
  | call j e h pc hcall =>
    by_cases hj : j = i
    · subst hj
      exact .runs pc hcall (hself pc)
    · exact .stays (hother pc hj)
  | notify j hj =>
    by_cases hji : j = i
    · subst hji
      exact .notifies hj (congrArg Pc.woken (hself _))
    · exact .woken (congrArg Pc.woken (hother _ hji))
  | join j error hj hexited =>
    by_cases hji : j = i
    · subst hji
      exact .joins error hj hexited (hself _)
    · exact .stays (hother _ hji)
  | wake j =>
    by_cases hj : j = i
    · subst hj
      exact .woken (hself _)
    · exact .stays (hother _ hj)
  | notifyCleared through hworker => exact .woken rfl
  | notifyFailed hworker => exact .woken rfl
  | _ => exact .stays rfl

/-- A `get` that has returned has returned. -/
theorem ProcessStep.got (hstep : ProcessStep H fmt s label s') {result : Except Failure GetResult}
    (hi : s.calls i = .got key result) : s'.calls i = .got key result := by
  cases hstep.moves i with
  | stays hsame => rw [hsame, hi]
  | woken hwoken =>
    rw [hwoken, hi]
    rfl
  | begins request hidle _ => cases hi.symm.trans hidle
  | acquires m pc hacquires _ =>
    rw [hi] at hacquires
    cases hacquires
  | runs pc hcall _ =>
    rw [hi] at hcall
    cases hcall
  | notifies hpoint _ => cases hi.symm.trans hpoint
  | joins error hpoint _ _ => cases hi.symm.trans hpoint

/-- A `get` under way stays where it is, acquires a mutex, or runs its section. -/
theorem ProcessStep.get_cases (hstep : ProcessStep H fmt s label s') {point : GetPoint}
    (hi : s.calls i = .get key point) :
    s'.calls i = .get key point ∨
      (∃ m pc, (Pc.get key point).acquires = some (m, pc) ∧ s'.calls i = pc) ∨
      ∃ pc, CallStep H fmt i s.engine s.history (.get key point) s'.engine s'.history pc ∧
        s'.calls i = pc := by
  cases hstep.moves i with
  | stays hsame => exact .inl (hsame.trans hi)
  | woken hwoken =>
    rw [hi] at hwoken
    exact .inl hwoken
  | begins request hidle _ => cases hi.symm.trans hidle
  | acquires m pc hacquires hpc => exact .inr (.inl ⟨m, pc, hi ▸ hacquires, hpc⟩)
  | runs pc hcall hpc => exact .inr (.inr ⟨pc, hi ▸ hcall, hpc⟩)
  | notifies hpoint _ => cases hi.symm.trans hpoint
  | joins error hpoint _ _ => cases hi.symm.trans hpoint

/-- It is then under way, or has returned. -/
theorem ProcessStep.get_or_got (hstep : ProcessStep H fmt s label s') {point : GetPoint}
    (hi : s.calls i = .get key point) :
    (∃ point', s'.calls i = .get key point') ∨ ∃ result, s'.calls i = .got key result := by
  rcases hstep.get_cases hi with hsame | ⟨m, pc, hacquires, hpc⟩ | ⟨pc, hcall, hpc⟩
  · exact .inl ⟨point, hsame⟩
  · cases point with
    | active locked =>
      cases locked <;> cases hacquires
      exact .inl ⟨_, hpc⟩
    | copy locked =>
      cases locked <;> cases hacquires
      exact .inl ⟨_, hpc⟩
    | _ => cases hacquires
  · rw [hpc]
    generalize s'.engine = e, s'.history = h at hcall
    cases hcall with
    | active => cases s.engine.lookupActive key <;> simp
    | immutable _ snapshot => cases snapshot.bind (·.memtable.lookupEntry key) <;> simp
    | copy => exact .inl ⟨_, rfl⟩
    | file _ f rest winner => cases s.engine.store.lookupFile fmt key winner f <;> simp
    | answer _ winner => exact .inr ⟨_, rfl⟩

end Points

/-! ## The keys that are looked up -/

namespace Pc

/-- The key that a `get` under way looks up. -/
def lookedUp : Pc → Option Bytes
  | get key _ => some key
  | _ => none

/-- Waking a call does not change the key that it looks up. -/
@[simp] theorem lookedUp_woken (pc : Pc) : pc.woken.lookedUp = pc.lookedUp := by
  unfold woken
  split <;> rfl

/-- Behind a crash no key is looked up. -/
@[simp] theorem lookedUp_lose (n : ℕ) (pc : Pc) : (pc.lose n).lookedUp = none := by
  cases pc <;> rfl

/-- A mutex is acquired for the same key. -/
theorem lookedUp_acquires {pc pc' : Pc} {m : Mutex} (h : pc.acquires = some (m, pc')) :
    pc'.lookedUp = pc.lookedUp := by
  unfold acquires at h
  split at h <;> cases h <;> rfl

end Pc

section LookedUp

variable {F R ι : Type} {H : Hashing} {fmt : TableFormat F R} {Fits : List TableRecord → Prop}

/-- A section of a `get` goes on with the same key, or returns. -/
theorem CallStep.lookedUp {i : ι} {e e' : KronosEngine F} {h h' : History ι} {pc pc' : Pc}
    (hstep : CallStep H fmt i e h pc e' h' pc') {key : Bytes} (hkey : key ∈ pc'.lookedUp) :
    key ∈ pc.lookedUp := by
  cases hstep with
  | active key' =>
    cases hlookup : e.lookupActive key' <;> rw [hlookup] at hkey
    · exact hkey
    · cases hkey
  | immutable key' snapshot =>
    cases hlookup : snapshot.bind (·.memtable.lookupEntry key') <;> rw [hlookup] at hkey
    · exact hkey
    · cases hkey
  | file key' f rest winner =>
    cases hlookup : e.store.lookupFile fmt key' winner f <;> rw [hlookup] at hkey
    · cases hkey
    · exact hkey
  | copy => exact hkey
  | publish =>
    split_ifs at hkey <;> cases hkey
  | _ => cases hkey

/-- The calls that were made on a directory. -/
def Node.calls : Node F ι → ι → Pc
  | running s => s.calls
  | closed _ _ calls _ => calls

/-- Every `get` under way looks up a key that a lookup takes. -/
def Node.LooksUpTaken (fmt : TableFormat F R) (node : Node F ι) : Prop :=
  ∀ i, ∀ key ∈ (node.calls i).lookedUp, fmt.Takes key

/-- No `get` is under way behind a crash. -/
theorem looksUpTaken_of_crashed {s : System F ι} {log : Bytes} {store : Store F}
    {kept : List (ι × Record)} : (s.crashed log store kept).LooksUpTaken fmt := by
  intro i key hkey
  change key ∈ ((s.calls i).lose s.history.crashes).lookedUp at hkey
  rw [Pc.lookedUp_lose] at hkey
  exact absurd hkey (Option.not_mem_none _)

variable [DecidableEq ι] {s s' : System F ι} {label : ProcessLabel F ι}

/-- A step keeps that, where a `get` that it begins is invoked for such a key. -/
theorem ProcessStep.looksUpTaken (hstep : ProcessStep H fmt s label s')
    (hfits : label.Fitting fmt Fits s) (h : (Node.running s).LooksUpTaken fmt) :
    (Node.running s').LooksUpTaken fmt := by
  intro i key (hkey : key ∈ (s'.calls i).lookedUp)
  have hbefore : key ∈ (s.calls i).lookedUp → fmt.Takes key := h i key
  cases hstep.moves i with
  | stays hsame => exact hbefore (hsame ▸ hkey)
  | woken hwoken => exact hbefore (by rwa [hwoken, Pc.lookedUp_woken] at hkey)
  | begins request _ hstart hlabel =>
    rw [hstart] at hkey
    subst hlabel
    cases request with
    | get key' =>
      cases hkey
      exact hfits
    | _ => cases hkey
  | acquires m pc hacquires hpc =>
    exact hbefore (by rwa [hpc, Pc.lookedUp_acquires hacquires] at hkey)
  | runs pc hcall hpc => exact hbefore (hcall.lookedUp (hpc ▸ hkey))
  | notifies _ hpc | joins error _ _ hpc =>
    rw [hpc] at hkey
    cases hkey

/-- So does a step in the life of a directory. -/
theorem Node.LooksUpTaken.step {node node' : Node F ι} {label : LifeLabel F ι}
    (hlooks : node.LooksUpTaken fmt) (hstep : LifeStep H fmt node label node')
    (hfits : LifeLabel.Fitting fmt Fits node label) : node'.LooksUpTaken fmt := by
  cases hstep with
  | process label hstep _ => exact hstep.looksUpTaken hfits hlooks
  | crashInRecovery => exact hlooks
  | reopen => exact hlooks
  | _ => exact looksUpTaken_of_crashed

/-- It holds in the life of a directory whose readers look up such keys. -/
theorem looksUpTaken_of_reachable {node : Node F ι} (h : (fittingLife H fmt Fits).Reachable node) :
    node.LooksUpTaken fmt := by
  refine @Lts.Reachable.invariant _ _ (fittingLife H fmt Fits) (·.LooksUpTaken fmt) ?_ ?_ node h
  · rintro _ ⟨s, ⟨e, memtableTargetBytes, compactionPolicy, -, rfl⟩, rfl⟩ i key hkey
    cases hkey
  · exact fun node label node' hlooks hstep => hlooks.step hstep.1 hstep.2

end LookedUp

/-! ## What a get knows -/

section Trail

variable {F R ι : Type}

/-- What is known of a `get` at a point: at which of the instants that it has passed its Memtables
missed the key, and at which one the rest of its search gives the value. -/
def GetPoint.Trail (fmt : TableFormat F R) (key : Bytes) (Passed : System F ι → Prop)
    (u : System F ι) : GetPoint → Prop
  | active _ => True
  | immutable snapshot => ∃ t, Passed t ∧ t.Grows u ∧ t.engine.lookupActive key = none ∧
    snapshot = t.engine.immutableMemtable
  | copy _ => ∃ t, Passed t ∧ t.Grows u ∧ t.engine.lookupActive key = none ∧
    t.engine.lookupImmutable key = none
  | files rest winner => (∀ f ∈ rest, ∃ rs, u.engine.store.Records fmt f rs) ∧
    ∃ t found, Passed t ∧ rest.foldlM (u.engine.store.lookupFile fmt key) winner = .ok found ∧
      answerOf found = valueOf key t.history.applied

/-- What is known of a `get` that is under way, or has returned. -/
def Pc.Trail (fmt : TableFormat F R) (key : Bytes) (Passed : System F ι → Prop) (u : System F ι) :
    Pc → Prop
  | get key' point => key' = key ∧ point.Trail fmt key Passed u
  | got key' result => key' = key ∧
    ∃ t r, Passed t ∧ result = .ok r ∧ r.answer = valueOf key t.history.applied
  | _ => False

variable {H : Hashing} {fmt : TableFormat F R} {key : Bytes} {Passed Passed' : System F ι → Prop}
  {u u' : System F ι}

/-- More instants, and a later state. -/
theorem GetPoint.Trail.mono (hkey : fmt.Takes key) {point : GetPoint}
    (h : point.Trail fmt key Passed u) (hpassed : ∀ t, Passed t → Passed' t) (hgrows : u.Grows u') :
    point.Trail fmt key Passed' u' := by
  cases point with
  | active locked => trivial
  | immutable snapshot =>
    obtain ⟨t, ht, hsince, hrest⟩ := h
    exact ⟨t, hpassed t ht, hsince.trans hgrows, hrest⟩
  | copy locked =>
    obtain ⟨t, ht, hsince, hrest⟩ := h
    exact ⟨t, hpassed t ht, hsince.trans hgrows, hrest⟩
  | files rest winner =>
    obtain ⟨hrecords, t, found, ht, hfound, hvalue⟩ := h
    refine ⟨fun f hf => ?_, t, found, hpassed t ht, ?_, hvalue⟩
    · obtain ⟨rs, hrs⟩ := hrecords f hf
      exact ⟨rs, hrs.mono hgrows.files⟩
    · rw [Store.foldlM_lookupFile_mono hgrows.files hrecords hkey]
      exact hfound

/-- What is known of a `get` stays known when the process goes on. -/
theorem Pc.Trail.mono (hkey : fmt.Takes key) {pc : Pc} (h : pc.Trail fmt key Passed u)
    (hpassed : ∀ t, Passed t → Passed' t) (hgrows : u.Grows u') : pc.Trail fmt key Passed' u' := by
  cases pc with
  | get key' point => exact ⟨h.1, h.2.mono hkey hpassed hgrows⟩
  | got key' result =>
    obtain ⟨hsame, t, r, ht, hresult⟩ := h
    exact ⟨hsame, t, r, hpassed t ht, hresult⟩
  | _ => exact h

/-- An acquisition adds nothing. -/
theorem Pc.Trail.acquires {point : GetPoint} {m : Mutex} {pc : Pc}
    (h : (Pc.get key point).Trail fmt key Passed u)
    (hacquires : (Pc.get key point).acquires = some (m, pc)) : pc.Trail fmt key Passed u := by
  cases point with
  | active locked =>
    cases locked <;> cases hacquires
    exact h
  | copy locked =>
    cases locked <;> cases hacquires
    exact h
  | _ => cases hacquires

/-- A section of a `get`. The instant of one that searches the files is that at which its Memtables
missed the key, or else the one at which the last record that the files cover was applied. -/
theorem GetPoint.Trail.call (hkey : fmt.Takes key) (hs : u.Invariant H) (hc : Contents fmt u)
    {point : GetPoint} (h : point.Trail fmt key Passed u) (hnow : Passed u)
    (hinv : ∀ t, Passed t → t.Invariant H)
    (hbetween : ∀ t, Passed t → ∀ d, t.history.applied <+: d → d <+: u.history.applied →
      ∃ t', Passed t' ∧ t'.history.applied = d)
    {i : ι} {e : KronosEngine F} {history : History ι} {pc : Pc}
    (hstep : CallStep H fmt i u.engine u.history (.get key point) e history pc) :
    pc.Trail fmt key Passed u := by
  cases hstep with
  | active =>
    cases hlookup : u.engine.lookupActive key with
    | some entry => exact ⟨rfl, u, _, hnow, rfl, hs.value_of_active hlookup⟩
    | none => exact ⟨rfl, u, hnow, .refl u, hlookup, rfl⟩
  -- The immutable Memtable is that of the first section.
  | immutable _ snapshot =>
    obtain ⟨t, ht, hsince, hactive, rfl⟩ := h
    cases hlookup : t.engine.immutableMemtable.bind (·.memtable.lookupEntry key) with
    | some entry => exact ⟨rfl, t, _, ht, rfl, (hinv t ht).value_of_immutable hactive hlookup⟩
    | none => exact ⟨rfl, t, ht, hsince, hactive, hlookup⟩
  -- The snapshot of the live files is taken here, under the mutex.
  | copy =>
    obtain ⟨t, ht, hsince, hactive, himmutable⟩ := h
    obtain ⟨back, happlied, hback⟩ := (hinv t ht).applied_of_misses hactive himmutable
    obtain ⟨found, hfound, hvalue⟩ := hc.lookupFiles hs hkey
    refine ⟨rfl, hc.live.layered.tabled.exact, ?_⟩
    rcases List.prefix_or_prefix_of_prefix hs.covered_isPrefix hsince.applied with
      hearlier | hlater
    · -- The files cover no more than what was applied at the first section.
      refine ⟨t, found, ht, hfound, ?_⟩
      obtain ⟨more, hmore⟩ := hsince.covered
      rw [← hmore, happlied, List.prefix_append_right_inj] at hearlier
      obtain ⟨rest, rfl⟩ := hearlier
      rw [lastEntry_append, Option.or_eq_none_iff] at hback
      rw [hvalue, happlied, ← hmore, valueOf_append_of_none hback.2, valueOf_append_of_none]
      rw [lastEntry_append, hback.1, hback.2]
      rfl
    · -- They cover more, and some state since had just that much applied.
      obtain ⟨t', ht', heq⟩ := hbetween t ht u.covered hlater hs.covered_isPrefix
      exact ⟨t', found, ht', hfound, heq ▸ hvalue⟩
  -- The answer over the snapshot is fixed; one file of it is searched.
  | file _ f rest winner =>
    obtain ⟨hrecords, t, found, ht, hfound, hvalue⟩ := h
    rw [List.foldlM_cons] at hfound
    cases hlookup : u.engine.store.lookupFile fmt key winner f with
    | error failure =>
      rw [hlookup] at hfound
      cases hfound
    | ok winner' =>
      rw [hlookup] at hfound
      exact ⟨rfl, fun f' hf' => hrecords f' (.tail _ hf'), t, found, ht, hfound, hvalue⟩
  | answer _ winner =>
    obtain ⟨-, t, found, ht, hfound, hvalue⟩ := h
    cases hfound
    exact ⟨rfl, t, _, ht, rfl, hvalue⟩

end Trail

/-! ## The instant of a get -/

section Instant

variable {F R ι : Type} [DecidableEq ι] {H : Hashing} {fmt : TableFormat F R}
  {Fits : List TableRecord → Prop} {M : Lts (System F ι) (ProcessLabel F ι)} {s s' : System F ι}
  {ls : List (ProcessLabel F ι)} {i : ι} {key : Bytes}

/-- Along a run, what was applied grows by single records. -/
theorem applied_of_run (hM : ∀ s l t, M.step s l t → ProcessStep H fmt s l t)
    (hrun : M.Run s ls s') : s.history.applied <+: s'.history.applied := by
  refine @Lts.Run.invariant _ _ M (fun t => s.history.applied <+: t.history.applied) ?_ _ _ _ hrun
    (List.prefix_refl _)
  intro t label t' ht hstep
  rcases (hM t label t' hstep).applied with heq | ⟨r, heq⟩
  · exact heq ▸ ht
  · exact heq ▸ ht.trans (List.prefix_append _ _)

/-- A `get` that is under way at the ends of a run is so all the time. -/
theorem get_of_through (hM : ∀ s l t, M.step s l t → ProcessStep H fmt s l t) {t : System F ι}
    (h : M.Through s ls s' t) (hs : ∃ point, s.calls i = .get key point)
    (hs' : ∃ point, s'.calls i = .get key point) : ∃ point, t.calls i = .get key point := by
  obtain ⟨front, back, rfl, hfront, hback⟩ := h
  have hsince : (∃ point, t.calls i = .get key point) ∨ ∃ result, t.calls i = .got key result := by
    refine @Lts.Run.invariant _ _ M (fun t => (∃ point, t.calls i = .get key point) ∨
      ∃ result, t.calls i = .got key result) ?_ _ _ _ hfront (.inl hs)
    rintro t label t' (⟨point, ht⟩ | ⟨result, ht⟩) hstep
    · exact (hM _ _ _ hstep).get_or_got ht
    · exact .inr ⟨result, (hM _ _ _ hstep).got ht⟩
  refine hsince.resolve_right ?_
  rintro ⟨result, ht⟩
  have hgot : s'.calls i = .got key result :=
    @Lts.Run.invariant _ _ M (fun t => t.calls i = .got key result)
      (fun _ _ _ ht hstep => (hM _ _ _ hstep).got ht) _ _ _ hback ht
  obtain ⟨point, hpoint⟩ := hs'
  cases hgot.symm.trans hpoint

/-- The steps of a process whose tables fit and whose log works are steps. -/
theorem step_of_workingProcess (t : System F ι) (label : ProcessLabel F ι) (t' : System F ι)
    (h : (workingProcess H fmt Fits).step t label t') : ProcessStep H fmt t label t' := h.1.1

/-- The instants of a `get` that a run has passed. -/
def Passed (M : Lts (System F ι) (ProcessLabel F ι)) (s : System F ι)
    (ls : List (ProcessLabel F ι)) (i : ι) (key : Bytes) (u t : System F ι) : Prop :=
  M.Through s ls u t ∧ ∃ point, t.calls i = .get key point

/-- **The trail of a get.** It is kept along every run of a process whose tables fit and whose log
works. -/
theorem trail_of_run (hfmt : fmt.Holds Fits) (hs : (workingProcess H fmt Fits).Reachable s)
    (hi : s.calls i = .get key (.active false)) (hrun : (workingProcess H fmt Fits).Run s ls s') :
    (s'.calls i).Trail fmt key (Passed (workingProcess H fmt Fits) s ls i key s') s' := by
  have hM : ∀ (t : System F ι) label t', (workingProcess H fmt Fits).step t label t' →
      ProcessStep H fmt t label t' := step_of_workingProcess
  have hcontents : ∀ t : System F ι, (workingProcess H fmt Fits).Reachable t →
      t.Invariant H ∧ Contents fmt t :=
    fun t ht => contents_of_reachable hfmt (life_of_workingProcess ht)
  have hkey : fmt.Takes key :=
    looksUpTaken_of_reachable (life_of_workingProcess hs) i key (congrArg Pc.lookedUp hi)
  induction hrun with
  | nil =>
    rw [hi]
    exact ⟨rfl, trivial⟩
  | @snoc ls u u' label hrun hstep ih =>
    have hu := hs.run hrun
    obtain ⟨hinv, hc⟩ := hcontents u hu
    have hgrows : u.Grows u' := (hM _ _ _ hstep).grows hinv (hcontents u' (hu.step hstep)).1
    have hpassed : ∀ t, Passed (workingProcess H fmt Fits) s ls i key u t →
        Passed (workingProcess H fmt Fits) s (ls ++ [label]) i key u' t :=
      fun t ht => ⟨ht.1.snoc hstep, ht.2⟩
    -- The call is under way, or has returned and stays so.
    cases hpc : u.calls i with
    | got key' result =>
      rw [hpc] at ih
      rw [(hM _ _ _ hstep).got hpc]
      exact ih.mono hkey hpassed hgrows
    | get key' point =>
      rw [hpc] at ih
      obtain ⟨rfl, hpoint⟩ := ih
      rcases (hM _ _ _ hstep).get_cases hpc with hsame | ⟨m, pc, hacquires, rfl⟩ | ⟨pc, hcall, rfl⟩
      · rw [hsame]
        exact ⟨rfl, hpoint.mono hkey hpassed hgrows⟩
      · exact Pc.Trail.mono hkey (Pc.Trail.acquires ⟨rfl, hpoint⟩ hacquires) hpassed hgrows
      · -- Its own section, over the states that the run has passed.
        refine (hpoint.call hkey hinv hc ⟨hrun.through, point, hpc⟩ (fun t ht => ?_)
          (fun t ht d hfirst hlast => ?_) hcall).mono hkey hpassed hgrows
        · obtain ⟨⟨front, back, -, hfront, -⟩, -⟩ := ht
          exact (hcontents t (hs.run hfront)).1
        · obtain ⟨⟨front, back, rfl, hfront, hback⟩, -⟩ := ht
          obtain ⟨t', ht', heq⟩ := hback.exists_through
            (fun _ _ _ hstep => (hM _ _ _ hstep).applied) hfirst hlast
          have hthrough := Lts.Through.of_back hfront ht'
          exact ⟨t', ⟨hthrough, get_of_through hM hthrough ⟨_, hi⟩ ⟨point, hpc⟩⟩, heq⟩
    | _ =>
      rw [hpc] at ih
      exact ih.elim

/-- **Linearizability of get.** A `get` that returns gives the value that its key had at an instant
while it ran, by the records that had reached a Memtable then. Among these are those of the writes
that had returned before it began. -/
def GetsLinearize (M : Lts (System F ι) (ProcessLabel F ι)) : Prop :=
  ∀ s ls s' i key result, M.Reachable s → s.calls i = .get key (.active false) → M.Run s ls s' →
    s'.calls i = .got key result → ∃ t r, M.Through s ls s' t ∧
      (∃ point, t.calls i = .get key point) ∧ result = .ok r ∧
      r.answer = valueOf key t.history.applied ∧
      ∀ j w, s.calls j = .wrote w (.ok ()) → ∃ sequence, w.record sequence ∈ t.history.applied

end Instant

/-- **A get is linearizable** in every process whose tables fit and whose readers look up keys that
can be hashed, over any interleaving with writers, readers, shutdowns and the worker. -/
theorem getsLinearize {ι : Type} [DecidableEq ι] (crc32 : Bytes → UInt32) :
    GetsLinearize (workingProcess (.vendored crc32) (Sstable.format crc32) Sstable.TableFits :
      Lts (System Bytes ι) (ProcessLabel Bytes ι)) := by
  intro s ls s' i key result hs hi hrun hgot
  have htrail := trail_of_run (fun _ => Sstable.format_represents crc32) hs hi hrun
  rw [hgot] at htrail
  obtain ⟨-, t, r, ⟨hthrough, hpoint⟩, hresult, hvalue⟩ := htrail
  refine ⟨t, r, hthrough, hpoint, hresult, hvalue, fun j w hwrote => ?_⟩
  obtain ⟨front, back, -, hfront, -⟩ := hthrough
  have hlife := (life_of_workingProcess hs).of_restrict
  obtain ⟨sequence, -, happlied⟩ := (acknowledged_of_reachable hlife).applied j w (hwrote ▸ rfl)
  exact ⟨sequence, (applied_of_run step_of_workingProcess hfront).subset happlied⟩

/-- A value of 2^32 - 1 bytes, which `put` accepts, is flushed, and its slot is released. -/
theorem exists_released : ∃ s : System Bytes ℕ,
    (faultless vendoredSum (Sstable.format byteSum.crc32)).Reachable s ∧ s.calls 2 = .idle ∧
    s.Alone 2 ∧
      s.history.records = [(Write.put [] Sstable.largestValue).record 0] ∧
      s.history.applied = s.history.records ∧ s.engine.durable = s.engine.store.manifest ∧
      s.engine.lookupActive [] = none ∧ s.engine.lookupImmutable [] = none := by
  have hbuild := @Sstable.format_builds byteSum.crc32 [([], ⟨Sstable.largestValue, 0, .put⟩)]
    (List.cons_ne_nil _ _) (List.pairwise_singleton _ _) (by decide) (by simpa using by decide)
  obtain ⟨wal, active, store, through, -, -, hcommitted⟩ :=
    @oneCommitted_reachable _ _ vendoredSum (Sstable.format byteSum.crc32) 1048576 ⟨4, by decide⟩
      (.put [] Sstable.largestValue) (Nat.zero_le _) Sstable.length_largestValue.le hbuild
  have hcalls := @oneHandedOver_calls Bytes vendoredSum 1048576 ⟨4, by decide⟩
    (.put [] Sstable.largestValue) wal active
  have hcleared := Reachable.clear hasWorker_faultless (fun _ => invariant_of_faultless)
    (fun j => (hcalls j).1) (fun j => (hcalls j).2) hcommitted
  exact ⟨_, hcleared, rfl, ⟨fun j _ => (hcalls j).1, rfl⟩, rfl, rfl, rfl, rfl, rfl⟩

/-- That value is not found, even when nothing else happens. -/
theorem largestValue_not_linearized :
    ¬GetsLinearize (faultless vendoredSum (Sstable.format byteSum.crc32) :
      Lts (System Bytes ℕ) (ProcessLabel Bytes ℕ)) := by
  intro hlinearize
  obtain ⟨s, hs, hidle, halone, hrecords, happlied, -, hactive, himmutable⟩ := exists_released
  have hstarted := @Reachable.invoke _ _ _ _ _ _ _ _ _ hasCalls_faultless hs hidle (.get [])
    (show MurmurHash3.Fits [] by decide)
  obtain ⟨ls, hrun⟩ := Lts.Reachable.exists_run
    (Reachable.answered (M := (faultless vendoredSum (Sstable.format byteSum.crc32)).startingAt _)
      hasCalls_faultless (Lts.Reachable.initial rfl) halone)
  obtain ⟨t, r, ⟨front, back, -, hfront, hback⟩, -, hresult, hvalue, -⟩ :=
    hlinearize _ ls _ 2 [] _ hstarted (System.calls_put _ _ _ _ _) hrun (System.calls_put _ _ _ _ _)
  have hM : ∀ (t : System Bytes ℕ) label t',
      (faultless vendoredSum (Sstable.format byteSum.crc32)).step t label t' →
        ProcessStep vendoredSum (Sstable.format byteSum.crc32) t label t' := fun _ _ _ h => h.1
  -- Nothing is applied while the get runs.
  have hsame : t.history.applied = s.history.applied :=
    (applied_of_run hM hback).sublist.antisymm (applied_of_run hM hfront).sublist
  have hlast : valueOf [] [(Write.put [] Sstable.largestValue).record 0] =
      some Sstable.largestValue := rfl
  rw [hsame, happlied, hrecords, hlast] at hvalue
  unfold KronosEngine.lookup at hresult
  rw [hactive, himmutable] at hresult
  cases hfound : s.engine.store.lookupFiles (Sstable.format byteSum.crc32)
      s.engine.store.manifest.liveFiles [] with
  | error failure =>
    rw [hfound] at hresult
    cases hresult
  | ok winner =>
    rw [hfound] at hresult
    obtain rfl := Except.ok.inj hresult
    have hshort := Sstable.length_of_answer hfound hvalue
    rw [Sstable.length_largestValue] at hshort
    exact lt_irrefl _ hshort

end Kronos
