import Kronos.Engine.Runs
import Kronos.Engine.Served
import Kronos.Sstable.Format

/-!
# What a path stands for

Every path that stands for a table is that of a finished one: of the live files, of the snapshots
that calls of `get` still search, and of the cached readers (`Served.Invariant`). The allocator
finds a path that no file has, so it finds none of these, and a rename replaces nothing. A finished
table stays what it is, whatever happens to the directory (`ServedStep.finished`).

Two things follow. A path keeps its meaning for ever, and a search that goes through the cache
returns what one that opens every file returns, so that a step over a directory is a step of the
system (`Served.Invariant.refines`). As long as no job fails, it is so the other way round as well
(`Served.Invariant.follows`), so that what a system reaches is reached over a directory.
-/

namespace Kronos

variable {F R ι : Type} {H : Hashing} {fmt : TableFormat F R}

/-! ## Searching with cached readers -/

/-- The readers are those that an opening of their files returns. -/
def Store.Reads (fmt : TableFormat F R) (s : Store F) (readers : List (SstablePath × R)) : Prop :=
  ∀ path reader, (path, reader) ∈ readers → s.openSstable fmt path = .ok reader

/-- What is in a list of pairs under a key. -/
theorem mem_of_lookup_eq_some {α β : Type} [BEq α] [LawfulBEq α] {a : α} {b : β}
    {l : List (α × β)} (h : l.lookup a = some b) : (a, b) ∈ l := by
  obtain ⟨front, back, rfl, -⟩ := List.lookup_eq_some_iff.1 h
  exact List.mem_append_right _ (.head _)

/-- A pass through the cache finds what a pass that opens the file finds, and the readers that it
leaves are those that it had, and one over the file. -/
theorem Store.lookupFileCached_spec {s : Store F} {readers : List (SstablePath × R)}
    (hreads : s.Reads fmt readers) (key : Bytes) (winner : Option InternalEntry)
    (f : SstableMetadata) :
    (s.lookupFileCached fmt readers key winner f).1 = s.lookupFile fmt key winner f ∧
      ∀ path reader, (path, reader) ∈ (s.lookupFileCached fmt readers key winner f).2 →
        (path, reader) ∈ readers ∨ path = f.path ∧ s.openSstable fmt path = .ok reader := by
  unfold lookupFileCached lookupFile
  split_ifs
  · exact ⟨rfl, fun _ _ => .inl⟩
  · cases hcached : readers.lookup f.path with
    | some reader =>
      have hopen := hreads f.path reader (mem_of_lookup_eq_some hcached)
      rw [getSstableReader, hcached, hopen]
      exact ⟨rfl, fun _ _ => .inl⟩
    | none =>
      rw [getSstableReader, hcached]
      cases hopen : s.openSstable fmt f.path with
      | error failure => exact ⟨rfl, fun _ _ => .inl⟩
      | ok reader =>
        refine ⟨rfl, fun path reader' hmem => ?_⟩
        rcases List.mem_append.1 hmem with hold | hnew
        · exact .inl hold
        · obtain ⟨rfl, rfl⟩ := Prod.mk.inj (List.mem_singleton.1 hnew)
          exact .inr ⟨rfl, hopen⟩

/-- Behind a pass over a file whose range has the key, there is a reader of it. -/
theorem Store.mem_lookupFileCached {s : Store F} {readers : List (SstablePath × R)}
    (hreads : s.Reads fmt readers) {key : Bytes} (winner : Option InternalEntry)
    {f : SstableMetadata} (hcovers : f.Covers key) {reader : R}
    (hopen : s.openSstable fmt f.path = .ok reader) :
    (f.path, reader) ∈ (s.lookupFileCached fmt readers key winner f).2 := by
  unfold lookupFileCached getSstableReader
  rw [if_neg (not_or.2 ⟨not_lt.2 hcovers.1, not_lt.2 hcovers.2⟩)]
  cases hcached : readers.lookup f.path with
  | some reader' =>
    have hmem := mem_of_lookup_eq_some hcached
    rw [hreads f.path reader' hmem] at hopen
    obtain rfl := Except.ok.inj hopen
    exact hmem
  | none =>
    rw [hopen]
    exact List.mem_append_right _ (.head _)

/-! ## What a step of the system refers to -/

namespace KronosEngine

/-- Recording a failure leaves the tables. -/
theorem sameTables_record (e : KronosEngine F) (failure : Failure) :
    SameTables e (e.recordFailure failure) := by
  unfold recordFailure
  split_ifs <;> exact ⟨rfl, rfl⟩

end KronosEngine

/-- A section of a call leaves the SSTables, and a snapshot that it takes is of the live files. -/
theorem CallStep.refers {i : ι} {e e' : KronosEngine F} {h h' : History ι} {pc pc' : Pc}
    (hstep : CallStep H fmt i e h pc e' h' pc') :
    e.SameTables e' ∧
      ∀ f ∈ pc'.snapshot, f ∈ pc.snapshot ∨ f ∈ e.store.manifest.liveFiles := by
  have hnone : ∀ {P : SstableMetadata → Prop}, ∀ f ∈ ([] : List SstableMetadata), P f :=
    fun f hf => absurd hf List.not_mem_nil
  refine ⟨hstep.sameTables, ?_⟩
  cases hstep with
  | active key => cases e.lookupActive key <;> exact hnone
  | immutable key snapshot => cases snapshot.bind (·.memtable.lookupEntry key) <;> exact hnone
  | copy key => exact fun f => .inr
  | file key f rest winner =>
    cases e.store.lookupFile fmt key winner f with
    | error failure => exact hnone
    | ok winner' => exact fun g hg => .inl (.tail _ hg)
  | publish => cases e.shuttingDown <;> exact hnone
  | _ => exact hnone

/-- A section of a job that leaves no file in hand leaves none when it fails either. -/
theorem WorkerPc.inHand_behind (task : Option SharedMemtable) {next : WorkerPc}
    (hnext : next.inHand = []) (result : Except Failure Unit) :
    (behind task next result).inHand = [] := by
  cases result with
  | ok _ => exact hnext
  | error failure => rfl

/-- Waking a call leaves its snapshot. -/
theorem Pc.snapshot_woken (pc : Pc) : pc.woken.snapshot = pc.snapshot := by
  rcases pc with _ | ⟨w, _ | _ | _ | _ | _ | _⟩ | _ |
    ⟨_ | _ | _ | _ | _ | _ | _ | _⟩ | _ | _ | _ | _ <;>
    rfl

/-- Behind a crash no call has a snapshot. -/
theorem Pc.snapshot_lose (n : ℕ) (pc : Pc) : (pc.lose n).snapshot = [] := by
  cases pc <;> rfl

/-- Nor has one that has just acquired a mutex. -/
theorem Pc.snapshot_of_acquires {pc pc' : Pc} {m : Mutex} (h : pc.acquires = some (m, pc')) :
    pc'.snapshot = [] := by
  unfold acquires at h
  split at h <;> cases h <;> rfl

/-- The acquisition of a mutex leaves the files in hand. -/
theorem WorkerPc.inHand_of_acquires {pc pc' : WorkerPc} {m : Mutex}
    (h : pc.acquires = some (m, pc')) : pc'.inHand = pc.inHand := by
  unfold acquires at h
  split at h <;> cases h <;> rfl

/-- A commit makes live what was live, or what the edit adds. -/
theorem KronosEngine.commitEdit_refers (e : KronosEngine F) (edit : ManifestEdit)
    (fault : Option KronosEngine.CommitFault) :
    (e.commitEdit edit fault).2.store.files = e.store.files ∧
      ∀ f, f ∈ (e.commitEdit edit fault).2.store.manifest.liveFiles ∨
          f ∈ (e.commitEdit edit fault).2.durable.liveFiles →
        f ∈ e.store.manifest.liveFiles ∨ f ∈ e.durable.liveFiles ∨ f ∈ edit.addFiles := by
  -- The new live files were live before, or are added.
  have hlive : ∀ {store : Store F}, e.store.commit edit = .ok store →
      store.files = e.store.files ∧ ∀ f ∈ store.manifest.liveFiles,
        f ∈ e.store.manifest.liveFiles ∨ f ∈ edit.addFiles := by
    intro store hcommit
    obtain ⟨manifest, hmanifest, hok⟩ := bind_eq_ok hcommit
    cases hok
    exact ⟨rfl, fun f hf => Manifest.mem_of_applyEdit hmanifest hf⟩
  have hcases := e.commitEdit_cases edit fault
  generalize e.commitEdit edit fault = result at hcases
  cases hcases with
  | rejected fault failure _ => exact ⟨rfl, fun f hf => hf.imp_right .inl⟩
  | before failure => exact ⟨rfl, fun f hf => hf.imp_right .inl⟩
  | committed store hcommit =>
    obtain ⟨hfiles, hmem⟩ := hlive hcommit
    refine ⟨hfiles, fun f hf => ?_⟩
    rcases hmem f (or_self_iff.1 hf) with hold | hnew
    · exact .inl hold
    · exact .inr (.inr hnew)
  | behind failure store hcommit =>
    obtain ⟨-, hmem⟩ := hlive hcommit
    refine ⟨rfl, fun f hf => ?_⟩
    rcases hf with hold | hf
    · exact .inl hold
    · rcases hmem f hf with hold | hnew
      · exact .inl hold
      · exact .inr (.inr hnew)

/-- The files that an engine and its worker refer to. -/
def KronosEngine.RefersWith (e : KronosEngine F) (worker : WorkerPc) (f : SstableMetadata) : Prop :=
  f ∈ e.store.manifest.liveFiles ∨ f ∈ e.durable.liveFiles ∨ f ∈ worker.inHand

/-- A step of the worker that writes no table refers to no other file. -/
theorem WorkerStep.refers {e e' : KronosEngine F} {fault : Option (WorkerFault F)}
    {pc pc' : WorkerPc} (hstep : WorkerStep H fmt e fault pc e' pc')
    (hflush : ∀ task, pc ≠ .flush task) (hcompact : ∀ liveFiles, pc ≠ .compact liveFiles) :
    e'.store.files = e.store.files ∧ ∀ f, e'.RefersWith pc' f → e.RefersWith pc f := by
  -- The worker has nothing in hand, and the SSTables are the same.
  have hkeeps : ∀ {e' : KronosEngine F} {pc' : WorkerPc}, e.SameTables e' → pc'.inHand = [] →
      e'.store.files = e.store.files ∧ ∀ f, e'.RefersWith pc' f → e.RefersWith pc f := by
    rintro e' pc' ⟨hstore, hdurable⟩ hnil
    refine ⟨by rw [hstore], fun f hf => ?_⟩
    rw [KronosEngine.RefersWith, hstore, hdurable, hnil] at hf
    rcases hf with hf | hf | hf
    · exact .inl hf
    · exact .inr (.inl hf)
    · exact absurd hf List.not_mem_nil
  have hcommit : ∀ (edit : ManifestEdit) (fault : Option KronosEngine.CommitFault) {pc' : WorkerPc},
      pc.inHand = edit.addFiles → pc'.inHand = [] →
      (e.commitEdit edit fault).2.store.files = e.store.files ∧
        ∀ f, (e.commitEdit edit fault).2.RefersWith pc' f → e.RefersWith pc f := by
    intro edit fault pc' hadd hnil
    obtain ⟨hfiles, hmem⟩ := e.commitEdit_refers edit fault
    refine ⟨hfiles, fun f hf => ?_⟩
    rw [KronosEngine.RefersWith, hadd]
    rcases hf with hf | hf | hf
    · exact hmem f (.inl hf)
    · exact hmem f (.inr hf)
    · exact absurd (hnil ▸ hf) List.not_mem_nil
  cases hstep with
  | flush task => exact absurd rfl (hflush task)
  | flushThrows task => exact absurd rfl (hflush task)
  | flushFails task => exact absurd rfl (hflush task)
  | compactNothing liveFiles => exact absurd rfl (hcompact liveFiles)
  | compact liveFiles => exact absurd rfl (hcompact liveFiles)
  | compactThrows liveFiles => exact absurd rfl (hcompact liveFiles)
  | compactFails liveFiles => exact absurd rfl (hcompact liveFiles)
  | commitFlush task edit fault => exact hcommit edit fault rfl (WorkerPc.inHand_behind _ rfl _)
  | commitCompaction edit fault => exact hcommit edit fault rfl (WorkerPc.inHand_behind _ rfl _)
  -- The copy refers to the live files.
  | copyLive =>
    refine ⟨rfl, fun f hf => ?_⟩
    rcases hf with hf | hf | hf
    · exact .inl hf
    · exact .inr (.inl hf)
    · exact .inl hf
  | clear task flushedThrough =>
    exact hkeeps (e.onlyMemtables_clear task).tables (WorkerPc.inHand_behind _ rfl _)
  | reclaim flushedThrough fault => exact hkeeps ⟨rfl, rfl⟩ (WorkerPc.inHand_behind _ rfl _)
  | record task failure => exact hkeeps (e.sameTables_record failure) rfl
  | checkSlot =>
    refine hkeeps (.refl e) ?_
    cases e.immutableMemtable.isSome <;> rfl
  | pop task rest _ => exact hkeeps ⟨rfl, rfl⟩ rfl
  | drained _ _ => exact hkeeps (.refl e) rfl
  | closeQueue => exact hkeeps ⟨rfl, rfl⟩ rfl

variable [DecidableEq ι]

/-- A step of the system that uses no table refers to no other file, and writes none. -/
theorem ProcessStep.refers {s s' : System F ι} {label : ProcessLabel F ι}
    (hstep : ProcessStep H fmt s label s') (huses : ¬s.UsesTables label) :
    s'.engine.store.files = s.engine.store.files ∧ ∀ f, s'.Refers f → s.Refers f := by
  -- Calls that have no new snapshot refer to no other file.
  have hcalls : ∀ {calls : ι → Pc} {worker : WorkerPc},
      (∀ j, (calls j).snapshot = [] ∨ (calls j).snapshot = (s.calls j).snapshot) →
      worker.inHand = s.worker.inHand ∨ worker.inHand = [] → ∀ f,
        System.Refers { s with calls := calls, worker := worker } f → s.Refers f := by
    rintro calls worker hsnapshot hworker f (hf | hf | ⟨j, hf⟩ | hf)
    · exact .inl hf
    · exact .inr (.inl hf)
    · rcases hsnapshot j with hnil | hsame
      · exact absurd (hnil ▸ hf) List.not_mem_nil
      · exact .inr (.inr (.inl ⟨j, hsame ▸ hf⟩))
    · rcases hworker with hsame | hnil
      · exact .inr (.inr (.inr (hsame ▸ hf)))
      · exact absurd (hnil ▸ hf) List.not_mem_nil
  have hgoto : ∀ (i : ι) {pc : Pc}, pc.snapshot = [] ∨ pc.snapshot = (s.calls i).snapshot →
      ∀ j, ((s.goto i pc).calls j).snapshot = [] ∨
        ((s.goto i pc).calls j).snapshot = (s.calls j).snapshot := by
    intro i pc hpc j
    rw [s.calls_goto i j pc]
    split_ifs with heq
    · exact heq ▸ hpc
    · exact .inr rfl
  have hwoken : ∀ {calls : ι → Pc}, (∀ j, (calls j).snapshot = [] ∨
      (calls j).snapshot = (s.calls j).snapshot) → ∀ j, (calls j).woken.snapshot = [] ∨
        (calls j).woken.snapshot = (s.calls j).snapshot := by
    intro calls hsnapshot j
    rw [Pc.snapshot_woken]
    exact hsnapshot j
  cases hstep with
  | invoke i request _ =>
    have hstart : request.start.snapshot = [] := by cases request <;> rfl
    exact ⟨rfl, hcalls (hgoto i (.inl hstart)) (.inl rfl)⟩
  | acquire i m pc hacquires _ =>
    exact ⟨rfl, hcalls (hgoto i (.inl (Pc.snapshot_of_acquires hacquires))) (.inl rfl)⟩
  | wake i => exact ⟨rfl, hcalls (hgoto i (.inr (Pc.snapshot_woken _))) (.inl rfl)⟩
  | notify i _ => exact ⟨rfl, hcalls (hwoken (hgoto i (.inl rfl))) (.inl rfl)⟩
  | join i error _ _ => exact ⟨rfl, hcalls (hgoto i (.inl rfl)) (.inl rfl)⟩
  | workerAcquire m pc hacquires _ =>
    exact ⟨rfl, hcalls (fun j => .inr rfl) (.inl (WorkerPc.inHand_of_acquires hacquires))⟩
  | notifyCleared flushedThrough _ =>
    exact ⟨rfl, hcalls (hwoken fun j => .inr rfl) (.inr rfl)⟩
  | notifyFailed _ => exact ⟨rfl, hcalls (hwoken fun j => .inr rfl) (.inr rfl)⟩
  -- A new snapshot is one of the live files.
  | call i e h pc hcall =>
    obtain ⟨⟨hstore, hdurable⟩, hsnapshot⟩ := hcall.refers
    refine ⟨congrArg Store.files hstore, fun f hf => ?_⟩
    rcases hf with hf | hf | ⟨j, hf⟩ | hf
    · exact .inl (hstore ▸ hf)
    · exact .inr (.inl (hdurable ▸ hf))
    · have hj : f ∈ ((s.goto i pc).calls j).snapshot := hf
      rw [s.calls_goto i j pc] at hj
      split_ifs at hj with heq
      · rcases hsnapshot f hj with hold | hlive
        · exact .inr (.inr (.inl ⟨i, hold⟩))
        · exact .inl hlive
      · exact .inr (.inr (.inl ⟨j, hj⟩))
    · exact .inr (.inr (.inr hf))
  | worker fault e pc hwork =>
    obtain ⟨hfiles, hrefers⟩ := hwork.refers (fun task heq => huses (.inl ⟨task, heq⟩))
      fun liveFiles heq => huses (.inr ⟨liveFiles, heq⟩)
    refine ⟨hfiles, fun f hf => ?_⟩
    have hwith : e.RefersWith pc f ∨ ∃ i, f ∈ (s.calls i).snapshot := by
      rcases hf with hf | hf | hf | hf
      · exact .inl (.inl hf)
      · exact .inl (.inr (.inl hf))
      · exact .inr hf
      · exact .inl (.inr (.inr hf))
    rcases hwith with hwith | hcall
    · rcases hrefers f hwith with hf | hf | hf
      · exact .inl hf
      · exact .inr (.inl hf)
      · exact .inr (.inr (.inr hf))
    · exact .inr (.inr (.inl hcall))

/-! ## The invariant -/

/-- Finished tables are as they were finished, every file that the directory refers to is one of
them, and every reader is over one of them. -/
structure Served.Invariant (fmt : TableFormat F R) (x : Served F R ι) : Prop where
  intact : x.directory.Intact
  refers : ∀ f, x.node.Refers f → x.directory.Finished f.path
  readers : ∀ path reader, (path, reader) ∈ x.readers →
    ∃ file, (path, file) ∈ x.finished ∧ fmt.openTable file = .ok reader
  lost : ∀ log store calls history, x.node = .closed log store calls history →
    ∀ i, (calls i).snapshot = []

namespace Served.Invariant

variable {x y : Served F R ι} {s : System F ι}

omit [DecidableEq ι] in
/-- The file of a finished table opens as the table does. -/
theorem openSstable (hx : x.Invariant fmt) {path : SstablePath} {file : F}
    (hfile : (path, file) ∈ x.finished) :
    x.node.store.openSstable fmt path = fmt.openTable file := by
  have hlookup : x.node.store.files.lookup path = some file := hx.intact.kept path file hfile
  rw [Store.openSstable, hlookup]

omit [DecidableEq ι] in
/-- A cached reader of a live file is the one that the file would give. -/
theorem reads (hx : x.Invariant fmt) : x.node.store.Reads fmt x.readers := by
  intro path reader hmem
  obtain ⟨file, hfile, hopen⟩ := hx.readers path reader hmem
  rw [hx.openSstable hfile, hopen]

omit [DecidableEq ι] in
/-- A job of the worker that extends the directory, and takes only finished tables in hand. -/
theorem behindJob (hx : x.Invariant fmt) (hnode : x.node = .running s) {d : Directory F}
    (hextends : x.directory.Extends d) {worker : WorkerPc}
    (hinHand : ∀ f ∈ worker.inHand, d.Finished f.path) :
    (x.behindJob s d worker).Invariant fmt := by
  have hmanifest : d.store.manifest = s.engine.store.manifest := by
    rw [hextends.manifest, Served.directory, hnode]
    rfl
  refine ⟨hextends.intact hx.intact, fun f hf => ?_, fun path reader hmem => ?_, nofun⟩
  · have hrefers := hx.refers f
    rw [hnode] at hrefers
    rcases hf with hf | hf | hf | hf
    · have hlive : f ∈ d.store.manifest.liveFiles := hf
      rw [hmanifest] at hlive
      exact hextends.of_finished (hrefers (.inl hlive))
    · exact hextends.of_finished (hrefers (.inr (.inl hf)))
    · exact hextends.of_finished (hrefers (.inr (.inr (.inl hf))))
    · exact hinHand f hf
  · obtain ⟨file, hfile, hopen⟩ := hx.readers path reader hmem
    exact ⟨file, hextends.finished _ hfile, hopen⟩

/-- A search leaves the files, and at most one new reader, over a file that the directory refers
to. -/
theorem search (hx : x.Invariant fmt) (hnode : x.node = .running s) {i : ι} {key : Bytes}
    {f : SstableMetadata} {rest : List SstableMetadata} {winner : Option InternalEntry}
    (hcall : s.calls i = .get key (.files (f :: rest) winner)) :
    Served.Invariant fmt { x with
      node := .running (s.goto i
        (.behindFile key rest (s.engine.store.lookupFileCached fmt x.readers key winner f).1))
      readers := (s.engine.store.lookupFileCached fmt x.readers key winner f).2 } := by
  have hstore : x.node.store = s.engine.store := by
    rw [hnode]
    rfl
  obtain ⟨-, hreaders⟩ := Store.lookupFileCached_spec (hstore ▸ hx.reads) key winner f
  have hrefers := hx.refers
  rw [hnode] at hrefers
  refine ⟨⟨fun path file hmem => ?_, hx.intact.replaced⟩, fun g hg => hrefers g ?_,
    fun path reader hmem => ?_, nofun⟩
  · show s.engine.store.files.lookup path = some file
    rw [← hstore]
    exact hx.intact.kept path file hmem
  · rcases hg with hg | hg | ⟨j, hg⟩ | hg
    · exact .inl hg
    · exact .inr (.inl hg)
    · rw [s.calls_goto i j] at hg
      split_ifs at hg with heq
      · refine .inr (.inr (.inl ⟨i, ?_⟩))
        rw [hcall]
        -- The call has the rest of its snapshot left, or none of it.
        generalize (s.engine.store.lookupFileCached fmt x.readers key winner f).1 = result at hg
        cases result with
        | error failure => exact absurd hg List.not_mem_nil
        | ok winner' => exact .tail _ hg
      · exact .inr (.inr (.inl ⟨j, hg⟩))
    · exact .inr (.inr (.inr hg))
  · rcases hreaders path reader hmem with hold | ⟨rfl, hopen⟩
    · exact hx.readers path reader hold
    · have hsnapshot : f ∈ (s.calls i).snapshot := by
        rw [hcall]
        exact .head _
      obtain ⟨file, hfile⟩ := hrefers f (.inr (.inr (.inl ⟨i, hsnapshot⟩)))
      rw [← hstore, hx.openSstable hfile] at hopen
      exact ⟨file, hfile, hopen⟩

/-- **The invariant of a directory and its readers.** -/
theorem step {label : ServedLabel F ι} (hx : x.Invariant fmt)
    (hstep : ServedStep H fmt x label y) : y.Invariant fmt := by
  cases hstep with
  -- The files are the same, and no other file is referred to.
  | @process s s' label hnode hprocess huses =>
    obtain ⟨hfiles, hrefers⟩ := hprocess.refers huses
    have hkept := hx.intact.kept
    have hold := hx.refers
    rw [Served.directory, hnode] at hkept
    rw [hnode] at hold
    refine ⟨⟨fun path file hmem => ?_, hx.intact.replaced⟩, fun f hf => hold f (hrefers f hf),
      hx.readers, nofun⟩
    show s'.engine.store.files.lookup path = some file
    rw [hfiles]
    exact hkept path file hmem
  | search i key f rest winner hnode hcall => exact hx.search hnode hcall
  -- The job adds a table that is finished, or leaves what it has begun.
  | @flush s task fault hnode hworker =>
    refine hx.behindJob hnode (Directory.flushMemtable_extends fmt _ _ _) ?_
    cases hresult : Directory.flushMemtable fmt x.directory task.memtable fault with
    | mk result d =>
      cases result with
      | error failure => exact fun f hf => absurd hf List.not_mem_nil
      | ok edit => exact (Directory.flushMemtable_ok fmt hresult).2
  | @compact s liveFiles fault hnode hworker =>
    refine hx.behindJob hnode (Directory.maybeCompact_extends fmt _ _ _ _) ?_
    cases hresult : Directory.maybeCompact fmt x.directory s.engine.compactionPolicy liveFiles
        fault with
    | mk result d =>
      rcases result with failure | _ | edit
      · exact fun f hf => absurd hf List.not_mem_nil
      · exact fun f hf => absurd hf List.not_mem_nil
      · obtain ⟨hnone, -⟩ | ⟨edit', hedit, hfinished, -⟩ :=
          Directory.maybeCompact_returns fmt hresult
        · cases hnone
        · cases hedit
          exact hfinished
  | @crash s log store temporary hnode hmanifest hkept =>
    have hrefers := hx.refers
    rw [hnode] at hrefers
    have hlost : ∀ i, (s.lostCalls i).snapshot = [] := fun i => Pc.snapshot_lose _ _
    refine ⟨⟨hkept, hx.intact.replaced⟩, fun f hf => hrefers f ?_,
      fun path reader hmem => absurd hmem List.not_mem_nil, fun _ _ _ _ hclosed => by
        cases hclosed
        exact hlost⟩
    have hlive : f ∈ store.manifest.liveFiles := hf
    rcases hmanifest with heq | heq | ⟨edit, hcommitting, happly⟩
    · exact .inr (.inl (heq ▸ hlive))
    · exact .inl (heq ▸ hlive)
    · rcases Manifest.mem_of_applyEdit happly hlive with hold | hnew
      · exact .inl hold
      · refine .inr (.inr (.inr ?_))
        unfold System.committing at hcommitting
        split at hcommitting
        · next heq =>
            cases hcommitting
            rw [heq]
            exact hnew
        · next heq =>
            cases hcommitting
            rw [heq]
            exact hnew
        · cases hcommitting
  | @openingFails log store calls history repaired hnode =>
    have hkept := hx.intact.kept
    have hrefers := hx.refers
    rw [Served.directory, hnode] at hkept
    rw [hnode] at hrefers
    refine ⟨⟨hkept, hx.intact.replaced⟩, hrefers, hx.readers, ?_⟩
    rintro log' store' calls' history' hclosed
    cases hclosed
    exact hx.lost _ _ _ _ hnode
  -- The process that opens the directory refers to its live files.
  | @reopen log store calls history e memtableTargetBytes compactionPolicy hnode hok =>
    have hkept := hx.intact.kept
    have hrefers := hx.refers
    rw [Served.directory, hnode] at hkept
    rw [hnode] at hrefers
    obtain ⟨⟨active, wal⟩, -, hok⟩ := bind_eq_ok hok
    cases hok
    refine ⟨⟨hkept, hx.intact.replaced⟩, fun f hf => hrefers f ?_, hx.readers, nofun⟩
    rcases hf with hf | hf | ⟨i, hf⟩ | hf
    · exact hf
    · exact hf
    · rw [hx.lost _ _ _ _ hnode i] at hf
      exact absurd hf List.not_mem_nil
    · exact absurd hf List.not_mem_nil

end Served.Invariant

/-! ## Paths and their tables -/

variable {x y : Served F R ι}

/-- The invariant holds whatever has happened to the directory. -/
theorem invariant_of_served (hx : (served H fmt).Reachable x) : x.Invariant fmt := by
  refine @Lts.Reachable.invariant _ _ (served H fmt) (Served.Invariant fmt) ?_ ?_ x hx
  · rintro _ ⟨s, ⟨e, memtableTargetBytes, compactionPolicy, hok, rfl⟩, rfl⟩
    obtain ⟨⟨active, wal⟩, -, hok⟩ := bind_eq_ok hok
    cases hok
    refine ⟨⟨nofun, rfl⟩, fun f hf => ?_, nofun, nofun⟩
    rcases hf with hf | hf | ⟨i, hf⟩ | hf
    · exact absurd hf List.not_mem_nil
    · exact absurd hf List.not_mem_nil
    · exact absurd hf List.not_mem_nil
    · exact absurd hf List.not_mem_nil
  · exact fun x label y hx hstep => hx.step hstep

/-- A table that is finished stays so. -/
theorem ServedStep.finished {label : ServedLabel F ι} (hstep : ServedStep H fmt x label y) :
    ∀ entry ∈ x.finished, entry ∈ y.finished := by
  cases hstep with
  | flush task fault => exact (Directory.flushMemtable_extends fmt x.directory _ _).finished
  | compact liveFiles fault => exact (Directory.maybeCompact_extends fmt x.directory _ _ _).finished
  | _ => exact fun _ => id

/-- A table that is finished once stays finished. -/
theorem finished_of_run {labels : List (ServedLabel F ι)} (hrun : (served H fmt).Run x labels y) :
    ∀ entry ∈ x.finished, entry ∈ y.finished := by
  induction hrun with
  | nil => exact fun _ => id
  | snoc _ hstep ih => exact fun entry hentry => ServedStep.finished hstep entry (ih entry hentry)

omit [DecidableEq ι] in
/-- What stands for a table stands for a finished one. -/
theorem Served.Invariant.names (hx : x.Invariant fmt) {path : SstablePath} (hnames : x.Names path) :
    x.directory.Finished path := by
  rcases hnames with ⟨f, hf, rfl⟩ | ⟨reader, hmem⟩
  · exact hx.refers f hf
  · obtain ⟨file, hfile, -⟩ := hx.readers path reader hmem
    exact ⟨file, hfile⟩

omit [DecidableEq ι] in
/-- A compaction over the names that returns has prepared what the engine prepares over its copy of
the live files. -/
theorem KronosEngine.prepareCompaction_of_returns {e : KronosEngine F} {d d' : Directory F}
    (hstore : d.store = e.store) {liveFiles : List SstableMetadata} {fault : Option JobFault}
    {result : Option ManifestEdit}
    (h : d.maybeCompact fmt e.compactionPolicy liveFiles fault = (.ok result, d')) :
    (result = none ∧ d' = d ∧ e.prepareCompaction fmt liveFiles = .ok none) ∨
      ∃ edit, result = some edit ∧
        e.prepareCompaction fmt liveFiles = .ok (some (d'.store, edit)) := by
  unfold KronosEngine.prepareCompaction
  obtain ⟨rfl, rfl, hplan⟩ | ⟨edit, rfl, -, hprepares⟩ := Directory.maybeCompact_returns fmt h
  · refine .inl ⟨rfl, rfl, ?_⟩
    unfold Store.prepareCompaction
    rw [hplan]
    rfl
  · have hextends := Directory.maybeCompact_extends fmt d e.compactionPolicy liveFiles fault
    rw [h] at hextends
    have hmanifest : d'.store.manifest = e.store.manifest :=
      hextends.manifest.trans (congrArg _ hstore)
    -- The job prepares its edit over the copy of the live files, and leaves the MANIFEST.
    have hprepared := hprepares { e.store.manifest with liveFiles := liveFiles } rfl
    refine .inr ⟨edit, rfl, ?_⟩
    rw [hstore] at hprepared
    rw [hprepared, ok_bind, ← hmanifest]

omit [DecidableEq ι] in
/-- One that throws, while no I/O fails, throws what the engine throws. -/
theorem KronosEngine.prepareCompaction_of_throws {e : KronosEngine F} {d d' : Directory F}
    (hstore : d.store = e.store) {liveFiles : List SstableMetadata} {failure : Failure}
    (h : d.maybeCompact fmt e.compactionPolicy liveFiles none = (.error failure, d')) :
    e.prepareCompaction fmt liveFiles = .error failure := by
  have hthrows := @Directory.maybeCompact_throws _ _ fmt d d' e.compactionPolicy
    { e.store.manifest with liveFiles := liveFiles } failure h
  rw [hstore] at hthrows
  unfold KronosEngine.prepareCompaction
  rw [hthrows]
  rfl

/-- The steps of the system that a step of a process over its directory can be. -/
def ServedLabel.Shows : ServedLabel F ι → ProcessLabel F ι → Prop
  | process label, label' => label' = label
  | search i, label' => label' = .call i
  | job _, label' => ∃ fault, label' = .worker fault
  | crash, _ | openingFails, _ | reopen .., _ => False

/-- A step of a process over its directory is a step of the system. A job that fails leaves its new
files, and a search through the cache is one that opens the file. -/
theorem Served.Invariant.refines {label : ServedLabel F ι} (hx : x.Invariant fmt)
    (hstep : ServedStep H fmt x label y) {s s' : System F ι} (hs : x.node = .running s)
    (hs' : y.node = .running s') :
    ∃ label', ProcessStep H fmt s label' s' ∧ label.Shows label' := by
  have hstore : x.directory.store = s.engine.store := by
    rw [Served.directory, hs]
    rfl
  cases hstep with
  | process label hnode hprocess huses =>
    cases hs.symm.trans hnode
    cases hs'
    exact ⟨label, hprocess, rfl⟩
  -- A cached reader answers as the file would.
  | search i key f rest winner hnode hcall =>
    cases hs.symm.trans hnode
    cases hs'
    have hreads : s.engine.store.Reads fmt x.readers := by
      have hreads := hx.reads
      rw [hnode] at hreads
      exact hreads
    refine ⟨.call i, ?_, rfl⟩
    rw [(Store.lookupFileCached_spec hreads key winner f).1]
    refine .call i s.engine s.history _ ?_
    rw [hcall]
    exact .file key f rest winner
  -- The job of the system has the outcome of the one over the names.
  | flush task fault hnode hworker =>
    cases hs.symm.trans hnode
    cases hs'
    have hextends := Directory.flushMemtable_extends fmt x.directory task.memtable fault
    rcases hresult : Directory.flushMemtable fmt x.directory task.memtable fault with
      ⟨failure | edit, d⟩
    · rw [hresult] at hextends
      refine ⟨_, .worker (some (.job failure d.store)) _ _ ?_, _, rfl⟩
      rw [hworker]
      exact .flushFails task d.store failure (hextends.manifest.trans (congrArg _ hstore))
        (hstore ▸ hextends.files)
    · obtain ⟨hprepare, -⟩ := Directory.flushMemtable_ok fmt hresult
      refine ⟨_, .worker none _ _ ?_, _, rfl⟩
      rw [hworker]
      exact .flush task d.store edit (hstore ▸ hprepare)
  | compact liveFiles fault hnode hworker =>
    cases hs.symm.trans hnode
    cases hs'
    have hextends :=
      Directory.maybeCompact_extends fmt x.directory s.engine.compactionPolicy liveFiles fault
    rcases hresult : Directory.maybeCompact fmt x.directory s.engine.compactionPolicy liveFiles
      fault with ⟨failure | returned, d⟩
    · rw [hresult] at hextends
      refine ⟨_, .worker (some (.job failure d.store)) _ _ ?_, _, rfl⟩
      rw [hworker]
      exact .compactFails liveFiles d.store failure (hextends.manifest.trans (congrArg _ hstore))
        (hstore ▸ hextends.files)
    obtain ⟨rfl, rfl, hnothing⟩ | ⟨edit, rfl, hprepare⟩ :=
      KronosEngine.prepareCompaction_of_returns hstore hresult
    · refine ⟨_, .worker none _ _ ?_, _, rfl⟩
      rw [hworker, hstore]
      exact .compactNothing liveFiles hnothing
    · refine ⟨_, .worker none _ _ ?_, _, rfl⟩
      rw [hworker]
      exact .compact liveFiles d.store edit hprepare
  -- The others do not leave a process running.
  | crash log store temporary hnode => cases hs'
  | openingFails repaired hnode => cases hs'
  | reopen memtableTargetBytes compactionPolicy hnode => cases hs.symm.trans hnode

/-! ## The system as a process over its directory -/

/-- A step behind which the worker has not failed is one of a worker that has not. -/
theorem WorkerStep.healthy {e e' : KronosEngine F} {fault : Option (WorkerFault F)}
    {pc pc' : WorkerPc} (hstep : WorkerStep H fmt e fault pc e' pc')
    (h : pc'.healthy = true) : pc.healthy = true := by
  cases hstep with
  | record task failure => cases h
  | closeQueue => cases h
  | _ => rfl

/-- The acquisition of a mutex leaves whether it has failed. -/
theorem WorkerPc.healthy_of_acquires {pc pc' : WorkerPc} {m : Mutex}
    (h : pc.acquires = some (m, pc')) : pc'.healthy = pc.healthy := by
  unfold acquires at h
  split at h <;> cases h <;> rfl

/-- If the worker has not failed behind a step of the system, it has not before it. -/
theorem ProcessStep.healthy {s s' : System F ι} {label : ProcessLabel F ι}
    (hstep : ProcessStep H fmt s label s') (h : s'.worker.healthy = true) :
    s.worker.healthy = true := by
  cases hstep with
  | workerAcquire m pc hacquires => exact (WorkerPc.healthy_of_acquires hacquires).symm.trans h
  | worker fault e pc hwork => exact hwork.healthy h
  | notifyCleared flushedThrough hworker =>
    rw [hworker]
    rfl
  | notifyFailed hworker => cases h
  | _ => exact h

/-- A job of the worker that does not throw finds its way through the names in the directory. -/
theorem ServedStep.exists_job {s : System F ι} (hs : x.node = .running s)
    {fault : Option (WorkerFault F)} {e : KronosEngine F} {pc : WorkerPc}
    (hwork : WorkerStep H fmt s.engine fault s.worker e pc)
    (hjob : (∃ task, s.worker = .flush task) ∨ ∃ liveFiles, s.worker = .compact liveFiles)
    (hhealthy : pc.healthy = true) :
    ∃ y, ServedStep H fmt x (.job none) y ∧
      y.node = .running { s with engine := e, worker := pc } := by
  have hstore : x.directory.store = s.engine.store := by
    rw [Served.directory, hs]
    rfl
  rcases hjob with ⟨task, hworker⟩ | ⟨liveFiles, hworker⟩
  · refine ⟨_, .flush task none hs hworker, ?_⟩
    rw [hworker] at hwork
    rcases hresult : Directory.flushMemtable fmt x.directory task.memtable none with
      ⟨failure | edit', d⟩
    · have hthrows := Directory.flushMemtable_throws fmt hresult
      rw [hstore] at hthrows
      cases hwork with
      | flush _ store edit hprepare => cases hthrows.symm.trans hprepare
      | flushThrows => cases hhealthy
      | flushFails => cases hhealthy
    · obtain ⟨hreturns, -⟩ := Directory.flushMemtable_ok fmt hresult
      rw [hstore] at hreturns
      cases hwork with
      | flush _ store edit hprepare =>
        cases hreturns.symm.trans hprepare
        rfl
      | flushThrows => cases hhealthy
      | flushFails => cases hhealthy
  · have hserved : ServedStep H fmt x (.job none) _ := .compact liveFiles none hs hworker
    rw [hworker] at hwork
    rcases hresult : Directory.maybeCompact fmt x.directory s.engine.compactionPolicy liveFiles
      none with ⟨failure | returned, d⟩
    · have hthrows := KronosEngine.prepareCompaction_of_throws hstore hresult
      cases hwork with
      | compactNothing _ hnothing => cases hthrows.symm.trans hnothing
      | compact _ store edit hprepare => cases hthrows.symm.trans hprepare
      | compactThrows => cases hhealthy
      | compactFails => cases hhealthy
    · rw [hresult] at hserved
      refine ⟨_, hserved, ?_⟩
      obtain ⟨rfl, rfl, hreturns⟩ | ⟨edit', rfl, hreturns⟩ :=
        KronosEngine.prepareCompaction_of_returns hstore hresult
      · cases hwork with
        | compactNothing =>
          show Node.running { s with
            engine := { s.engine with store := x.directory.store }
            worker := .pop } = _
          rw [hstore]
        | compact _ store edit hprepare => cases hreturns.symm.trans hprepare
        | compactThrows => cases hhealthy
        | compactFails => cases hhealthy
      · cases hwork with
        | compactNothing _ hnothing => cases hreturns.symm.trans hnothing
        | compact _ store edit hprepare =>
          cases hreturns.symm.trans hprepare
          rfl
        | compactThrows => cases hhealthy
        | compactFails => cases hhealthy

/-- A step of the system behind which the worker has not failed is a step of a process over its
directory. -/
theorem Served.Invariant.follows (hx : x.Invariant fmt) {s s' : System F ι}
    (hs : x.node = .running s) {label : ProcessLabel F ι} (hstep : ProcessStep H fmt s label s')
    (hhealthy : s'.worker.healthy = true) :
    ∃ label' y, ServedStep H fmt x label' y ∧ y.node = .running s' := by
  by_cases huses : s.UsesTables label
  · cases hstep with
    -- A search finds through the cache what it finds in the file.
    | call i e h pc hcall =>
      obtain ⟨key, f, rest, winner, hi⟩ := huses
      have hreads := hx.reads
      rw [show x.node.store = s.engine.store from congrArg Node.store hs] at hreads
      rw [hi] at hcall
      cases hcall with
      | file =>
        refine ⟨_, _, .search i key f rest winner hs hi, ?_⟩
        rw [(Store.lookupFileCached_spec hreads key winner f).1]
        rfl
    | worker fault e pc hwork => exact ⟨_, ServedStep.exists_job hs hwork huses hhealthy⟩
    -- The others search and write no table.
    | notify i hpoint =>
      obtain ⟨key, f, rest, winner, hi⟩ := huses
      cases hpoint.symm.trans hi
    | join i error hpoint =>
      obtain ⟨key, f, rest, winner, hi⟩ := huses
      cases hpoint.symm.trans hi
    | notifyCleared flushedThrough hworker =>
      rcases huses with ⟨task, hflush⟩ | ⟨liveFiles, hcompact⟩
      · cases hworker.symm.trans hflush
      · cases hworker.symm.trans hcompact
    | notifyFailed => cases hhealthy
    | _ => cases huses
  · exact ⟨_, _, .process label hs hstep huses, rfl⟩

/-- What a system reaches over an empty directory, while its worker does not fail, a process over
the directory reaches. -/
theorem exists_served {s₀ s : System F ι} (hfirst : FirstOpened H fmt s₀)
    (hs : ((process H fmt).startingAt s₀).Reachable s) (hhealthy : s.worker.healthy = true) :
    ∃ x, (served H fmt).Reachable x ∧ x.node = .running s := by
  refine @Lts.Reachable.invariant _ _ ((process H fmt).startingAt s₀) (fun s =>
    s.worker.healthy = true → ∃ x, (served H fmt).Reachable x ∧ x.node = .running s) ?_ ?_ s hs
    hhealthy
  · rintro s rfl -
    exact ⟨_, .initial ⟨_, hfirst, rfl⟩, rfl⟩
  · intro s label s' hserved hstep hhealthy
    obtain ⟨x, hx, hnode⟩ := hserved (ProcessStep.healthy hstep hhealthy)
    obtain ⟨label', y, hstep', hnode'⟩ :=
      (invariant_of_served hx).follows hnode hstep hhealthy
    exact ⟨y, hx.step hstep', hnode'⟩

/-- An opening over files that no MANIFEST names, with an empty log. -/
theorem construct_orphans (H : Hashing) (fmt : TableFormat F R) (files : List (SstablePath × F))
    (nextSstableId memtableTargetBytes : ℕ) (compactionPolicy : CompactionPolicy) :
    KronosEngine.construct H fmt ⟨Manifest.empty, files, nextSstableId⟩ (some Wal.header)
        memtableTargetBytes compactionPolicy =
      .ok (KronosEngine.opened ⟨Manifest.empty, files, nextSstableId⟩ (.new memtableTargetBytes)
        (Wal.recovered H [] 0) memtableTargetBytes compactionPolicy) := by
  have hstart := @KronosEngine.start_eq _ _ H fmt ⟨Manifest.empty, files, nextSstableId⟩ []
    ⟨fun _ hr => absurd hr List.not_mem_nil, fun _ hr => absurd hr List.not_mem_nil, .nil⟩
    memtableTargetBytes
  have hheader : Wal.header ++ Wal.encodeRecords H [] = Wal.header := List.append_nil _
  rw [hheader] at hstart
  unfold KronosEngine.construct
  rw [hstart]
  rfl

/-- A `get` finds the table of one write live, and leaves a reader of it in the cache. -/
theorem exists_cached : ∃ (x : Served Bytes SstableReader ℕ) (f : SstableMetadata)
    (reader : SstableReader), (served vendoredSum (Sstable.format byteSum.crc32)).Reachable x ∧
      x.node.store.manifest.liveFiles = [f] ∧ (f.path, reader) ∈ x.readers := by
  have hfirst : FirstOpened vendoredSum (Sstable.format byteSum.crc32)
      (System.first ℕ vendoredSum 1048576 ⟨4, by decide⟩) := firstOpened_first _ _ _ _
  let M := (faultless vendoredSum (Sstable.format byteSum.crc32)).startingAt
    (System.first ℕ vendoredSum 1048576 ⟨4, by decide⟩)
  have hcalls : HasCalls vendoredSum (Sstable.format byteSum.crc32) M := hasCalls_faultless
  have hworker : HasWorker vendoredSum (Sstable.format byteSum.crc32) M := hasWorker_faultless
  have hinv : ∀ t, M.Reachable t → t.Invariant vendoredSum := by
    intro t ht
    obtain ⟨ls, hrun⟩ := ht.exists_run
    have hopened : (faultless vendoredSum (Sstable.format byteSum.crc32)).Reachable
        (System.first ℕ vendoredSum 1048576 ⟨4, by decide⟩) := .initial (.inl hfirst)
    exact invariant_of_faultless (hopened.run hrun)
  -- A put, a flush of its Memtable, and a get that has copied the live files.
  obtain ⟨file, hbuild, hstores⟩ := @Sstable.format_represents byteSum.crc32
    [([97], ⟨[1], 0, .put⟩)] (List.cons_ne_nil _ _) (List.pairwise_singleton _ _)
    (by simpa using ⟨⟨by decide, .inl rfl⟩, by decide, by decide⟩)
    ⟨by decide, by decide, by decide⟩
  obtain ⟨wal, active, hreplays, hhanded⟩ := oneHandedOver_reachable hcalls (M := M)
    (.initial rfl) (w := .put [97] [1]) (by decide) (by decide)
  obtain ⟨store, through, ⟨f, file', htable⟩, hcommitted⟩ :=
    oneFlushed_reachable hworker hinv hreplays hhanded ⟨file, hbuild⟩
  have hthreads := @oneHandedOver_calls Bytes vendoredSum 1048576 ⟨4, by decide⟩ (.put [97] [1])
    wal active
  have hcleared := Reachable.clear hworker hinv (fun j => (hthreads j).1)
    (fun j => (hthreads j).2) hcommitted
  have hstarted := @Reachable.invoke _ _ _ _ _ _ M _ 2 hcalls hcleared rfl (.get [97])
    (show MurmurHash3.Fits [97] by decide)
  have hcopied := Reachable.copied hcalls hstarted ⟨fun j _ => (hthreads j).1, rfl⟩ rfl rfl
  obtain ⟨x, hx, hnode⟩ := exists_served hfirst (Lts.Reachable.of_restrict hcopied) rfl
  -- The search opens the file, and keeps its reader.
  obtain rfl := Except.ok.inj (hbuild.symm.trans htable.built)
  obtain ⟨reader, hopen, -⟩ := hstores
  have hreads := (invariant_of_served hx).reads
  rw [show x.node.store = store from congrArg Node.store hnode] at hreads
  have hlookup : store.openSstable (Sstable.format byteSum.crc32) f.path = .ok reader := by
    rw [Store.openSstable, htable.stored]
    exact hopen
  refine ⟨_, f, reader, hx.step (.search 2 [97] f [] none hnode ?_), htable.live,
    Store.mem_lookupFileCached hreads none ⟨htable.smallest.le, htable.largest.ge⟩ hlookup⟩
  rw [System.calls_put]
  exact congrArg (fun files => Pc.get [97] (.files files none)) htable.live

/-! ## The meaning of a path -/

/-- In the life of a directory, through openings, flushes, compactions, failures and crashes, a path
keeps its meaning. The allocator returns, with a path that no file has and that stands for no table,
no rename has replaced a file, a path that stands for a table has one file for ever, and a cached
reader is the one that an opening of this file returns. -/
theorem path_keeps_meaning (hx : (served H fmt).Reachable x) :
    (∀ level, ∃ path store, x.node.store.allocateSstablePath level = .ok (path, store) ∧
        path.level = level ∧ x.node.store.fileExists path = false ∧ ¬x.Names path) ∧
      x.replaced = [] ∧
      (∀ path, x.Names path → ∃ file, ∀ y labels, (served H fmt).Run x labels y →
        y.node.store.files.lookup path = some file) ∧
      ∀ path reader, (path, reader) ∈ x.readers → ∃ file,
        x.node.store.files.lookup path = some file ∧ fmt.openTable file = .ok reader := by
  have hinvariant := invariant_of_served hx
  refine ⟨fun level => ?_, hinvariant.intact.replaced, fun path hnames => ?_,
    fun path reader hmem => ?_⟩
  · obtain ⟨path, next, halloc, hfresh, hlevel⟩ := x.node.store.allocateSstablePath_returns level
    refine ⟨path, _, halloc, hlevel, hfresh, fun hnames => ?_⟩
    obtain ⟨file, hfile⟩ := hinvariant.names hnames
    have hlookup : x.node.store.files.lookup path = some file :=
      hinvariant.intact.kept path file hfile
    rw [Store.fileExists, hlookup] at hfresh
    cases hfresh
  · obtain ⟨file, hfile⟩ := hinvariant.names hnames
    refine ⟨file, fun y labels hrun => ?_⟩
    have hlater := invariant_of_served (hx.run hrun)
    exact hlater.intact.kept path file (finished_of_run hrun _ hfile)
  · obtain ⟨file, hfile, hopen⟩ := hinvariant.readers path reader hmem
    exact ⟨file, hinvariant.intact.kept path file hfile, hopen⟩

/-- A crash leaves a file and a `.tmp` file under the first path of level 0, and the engine that is
opened over them allocates the second one. In another directory, a table is live, and a reader of it
cached. -/
theorem path_keeps_meaning_orphan : (∃ x : Served (List TableRecord) (List TableRecord) ℕ,
    x.temporary = [⟨0, 1⟩] ∧ x.node.store.fileExists ⟨0, 1⟩ = true ∧ x.replaced = [] ∧
      ∃ store, x.node.store.allocateSstablePath 0 = .ok (⟨0, 2⟩, store) ∧ ¬x.Names ⟨0, 2⟩) ∧
    ∃ (x : Served Bytes SstableReader ℕ) (f : SstableMetadata) (reader : SstableReader),
      x.node.store.manifest.liveFiles = [f] ∧ (f.path, reader) ∈ x.readers ∧
        (∃ file, x.node.store.files.lookup f.path = some file ∧
          (Sstable.format byteSum.crc32).openTable file = .ok reader) ∧
        ∃ file, ∀ y labels, (served vendoredSum (Sstable.format byteSum.crc32)).Run x labels y →
          y.node.store.files.lookup f.path = some file := by
  refine ⟨?_, ?_⟩
  · let H : Hashing := default
    let policy : CompactionPolicy := ⟨4, by decide⟩
    have hfirst : (served H TableFormat.logical).Reachable
        ⟨.running (System.first ℕ H 1048576 policy), [], [], [], []⟩ :=
      .initial ⟨_, firstOpened_first H TableFormat.logical 1048576 policy, rfl⟩
    have hcrashed := hfirst.step (.crash Wal.header ⟨Manifest.empty, [(⟨0, 1⟩, [])], 1⟩ [⟨0, 1⟩]
      rfl (.inl rfl) nofun)
    have hopened := hcrashed.step (.reopen 1048576 policy rfl
      (construct_orphans H TableFormat.logical [(⟨0, 1⟩, [])] 1 1048576 policy))
    obtain ⟨hallocates, hreplaced, -⟩ := path_keeps_meaning hopened
    obtain ⟨path, store, halloc, -, -, hnames⟩ := hallocates 0
    refine ⟨_, rfl, rfl, hreplaced, store, ?_⟩
    cases halloc
    exact ⟨rfl, hnames⟩
  · obtain ⟨x, f, reader, hx, hlive, hmem⟩ := exists_cached
    obtain ⟨-, -, hkeeps, hreaders⟩ := path_keeps_meaning hx
    exact ⟨x, f, reader, hlive, hmem, hreaders _ _ hmem, hkeeps _ (.inr ⟨reader, hmem⟩)⟩

end Kronos
