import Kronos.Base.Simulation
import Kronos.Engine.Paths
import Kronos.Engine.Termination

/-!
# A process over its directory

A process over its directory runs builders, cached readers and an allocator of paths where the
system has the effects of a job and of a search on its store. In any life of the directory, with any
log, any `.tmp` file and any `.sst` file that a crash has left, its runs are runs of the system
(`sessionsRefine`), and it can go on where the system can. So it comes to rest as the system does
(`sessionsComeToRest`).
-/

namespace Kronos

open KronosEngine

variable {F R ι : Type} [DecidableEq ι] {H : Hashing} {fmt : TableFormat F R}
  {x y : Served F R ι} {s s' : System F ι}

/-! ## Runs -/

/-- A process that runs over its directory. -/
def Served.Runs (fmt : TableFormat F R) (x : Served F R ι) (s : System F ι) : Prop :=
  x.Invariant fmt ∧ x.node = .running s

/-- Without a crash, a process goes on. -/
theorem ServedStep.exists_running {label : ServedLabel F ι} (hstep : ServedStep H fmt x label y)
    (hs : x.node = .running s) (hlabel : label ≠ .crash) : ∃ s', y.node = .running s' := by
  cases hstep with
  | process label hnode hprocess _ => exact ⟨_, rfl⟩
  | search i key f rest winner hnode hcall => exact ⟨_, rfl⟩
  | flush task fault hnode hworker => exact ⟨_, rfl⟩
  | compact liveFiles fault hnode hworker => exact ⟨_, rfl⟩
  | crash log store temporary => exact (hlabel rfl).elim
  | openingFails repaired hnode => cases hs.symm.trans hnode
  | reopen memtableTargetBytes compactionPolicy hnode => cases hs.symm.trans hnode

/-- Its steps are steps of the system. -/
theorem Served.Runs.step (h : x.Runs fmt s) {label : ServedLabel F ι}
    (hstep : ServedStep H fmt x label y) (hlabel : label ≠ .crash) :
    ∃ label' s', y.Runs fmt s' ∧ ProcessStep H fmt s label' s' ∧ label.Shows label' := by
  obtain ⟨s', hs'⟩ := hstep.exists_running h.2 hlabel
  obtain ⟨label', hprocess, hshows⟩ := h.1.refines hstep h.2 hs'
  exact ⟨label', s', ⟨h.1.step hstep, hs'⟩, hprocess, hshows⟩

/-- The life of a directory without crashes: sessions of one process each. -/
def sessions (H : Hashing) (fmt : TableFormat F R) : Lts (Served F R ι) (ServedLabel F ι) :=
  (served H fmt).restrict fun _ label => label ≠ .crash

/-- A session over a directory is simulated by a process. -/
theorem simulation_of_served (hx : (served H fmt).Reachable x) (hs : x.node = .running s) :
    ((sessions H fmt).startingAt x).Simulation ((process H fmt).startingAt s)
      (Served.Runs fmt) where
  initial := by
    rintro _ rfl
    exact ⟨s, rfl, invariant_of_served hx, hs⟩
  step := by
    rintro y label z t hrel ⟨hstep, hlabel⟩
    obtain ⟨label', t', hrel', hprocess, -⟩ := hrel.step hstep hlabel
    exact ⟨t', hrel', .inr ⟨label', hprocess⟩⟩

/-- **Sessions refine processes.** Every run of a process over its directory, whatever earlier
processes and crashes have left there, is a run of the system from the same state. Each of its
steps is one of the system, from the state before it (`simulation_of_served`). -/
def SessionsRefine (H : Hashing) (fmt : TableFormat F R) (ι : Type) [DecidableEq ι] : Prop :=
  ∀ (x y : Served F R ι) (s : System F ι), (served H fmt).Reachable x → x.node = .running s →
    ((sessions H fmt).startingAt x).Reachable y →
      ∃ labels s', (process H fmt).Run s labels s' ∧ y.node = .running s'

/-- Each state of a session is one of the process that runs over it. -/
theorem sessionsRefine (H : Hashing) (fmt : TableFormat F R) : SessionsRefine H fmt ι := by
  intro x y s hx hs hy
  obtain ⟨s', hs', -, hnode⟩ := (simulation_of_served hx hs).reachable hy
  obtain ⟨labels, hrun⟩ := hs'.exists_run
  exact ⟨labels, s', hrun, hnode⟩

/-! ## Rest -/

/-- A step of a thread that is under way, also of a worker whose builder fails. -/
def ServedLabel.Continues : ServedLabel F ι → Prop
  | process label => label.Continues
  | search _ | job _ => True
  | crash | openingFails | reopen .. => False

/-- A session without its steps that begin a call or wake one for no reason. -/
def continuingSession (H : Hashing) (fmt : TableFormat F R) :
    Lts (Served F R ι) (ServedLabel F ι) :=
  (served H fmt).restrict fun _ label => label.Continues

omit [DecidableEq ι] in

/-- A step that continues a session continues the process. -/
theorem ServedLabel.Continues.shows {label : ServedLabel F ι} (h : label.Continues)
    {label' : ProcessLabel F ι} (hshows : label.Shows label') : label'.Continues := by
  cases label with
  | process label =>
    obtain rfl : label' = label := hshows
    exact h
  | search i =>
    obtain rfl : label' = .call i := hshows
    trivial
  | job fault =>
    obtain ⟨fault', rfl⟩ := hshows
    trivial
  | _ => cases h

/-- A process over its directory can go on where the system can: searches and jobs always return. -/
theorem ServedStep.exists_of_process (hs : x.node = .running s) {label : ProcessLabel F ι}
    (hstep : ProcessStep H fmt s label s') (hcontinues : label.Continues) :
    ∃ label' y, ServedStep H fmt x label' y ∧ label'.Continues := by
  by_cases huses : s.UsesTables label
  · cases label with
    | call i =>
      obtain ⟨key, f, rest, winner, hi⟩ := huses
      exact ⟨_, _, .search i key f rest winner hs hi, trivial⟩
    | worker fault =>
      rcases huses with ⟨task, hworker⟩ | ⟨liveFiles, hworker⟩
      · exact ⟨_, _, .flush task none hs hworker, trivial⟩
      · exact ⟨_, _, .compact liveFiles none hs hworker, trivial⟩
    | _ => cases huses
  · exact ⟨_, _, .process label hs hstep huses, hcontinues⟩

/-- A process is steady, and a closed directory has no call under way. -/
def Node.Steady : Node F ι → Prop
  | running s => s.Steady ∧ ∃ A : Finset ι, s.Within A
  | closed _ _ calls _ => ∀ i, (calls i).resting = true

omit [DecidableEq ι] in

/-- A process that was just opened is steady. -/
theorem Node.steady_of_constructed {store : Store F} {log : Option Bytes}
    {memtableTargetBytes : ℕ} {compactionPolicy : CompactionPolicy} {e : KronosEngine F}
    (hok : construct H fmt store log memtableTargetBytes compactionPolicy = .ok e) {calls : ι → Pc}
    (hresting : ∀ i, (calls i).resting = true) (history : History ι) :
    Node.Steady (.running ⟨e, .pop, calls, history⟩) := by
  obtain ⟨active, wal, hengine⟩ := opened_of_construct hok
  obtain ⟨hsteady, hwithin⟩ :=
    @System.steady_of_resting _ _ ⟨e, .pop, calls, history⟩ _ _ _ _ _ hengine rfl hresting
  exact ⟨hsteady, ∅, hwithin⟩

/-- A step over a directory keeps it so. -/
theorem Node.Steady.step (h : x.node.Steady) (hx : x.Invariant fmt) {label : ServedLabel F ι}
    (hstep : ServedStep H fmt x label y) : y.node.Steady := by
  have hruns : ∀ {s}, x.node = .running s → label ≠ .crash → y.node.Steady := by
    intro s hs hlabel
    rw [hs] at h
    obtain ⟨hsteady, A, hwithin⟩ := h
    obtain ⟨label', s', ⟨-, hs'⟩, hprocess, -⟩ := Served.Runs.step ⟨hx, hs⟩ hstep hlabel
    obtain ⟨B, hB, -⟩ := hprocess.within hwithin
    rw [hs']
    exact ⟨hsteady.step hprocess, B, hB⟩
  cases hstep with
  | process label hnode => exact hruns hnode nofun
  | search i key f rest winner hnode => exact hruns hnode nofun
  | flush task fault hnode => exact hruns hnode nofun
  | compact liveFiles fault hnode => exact hruns hnode nofun
  | crash log store temporary => exact fun i => Pc.resting_lose _ _
  | openingFails repaired hnode =>
    rw [hnode] at h
    exact h
  | reopen memtableTargetBytes compactionPolicy hnode hok =>
    rw [hnode] at h
    exact Node.steady_of_constructed hok h _

/-- A directory is steady in every state of its life. -/
theorem steady_of_served (hx : (served H fmt).Reachable x) : x.node.Steady := by
  refine (@Lts.Reachable.invariant _ _ (served H fmt)
    (fun x => (served H fmt).Reachable x ∧ x.node.Steady) ?_ ?_ x hx).2
  · rintro x ⟨s, hfirst, rfl⟩
    refine ⟨.initial ⟨s, hfirst, rfl⟩, ?_⟩
    obtain ⟨e, memtableTargetBytes, compactionPolicy, hok, rfl⟩ := hfirst
    exact Node.steady_of_constructed hok (fun _ => rfl) _
  · rintro x label y ⟨hx, hsteady⟩ hstep
    exact ⟨hx.step hstep, hsteady.step (invariant_of_served hx) hstep⟩

/-- **A session comes to rest**, unless a writer and the worker wait for each other: a process over
its directory takes finitely many steps, whatever builders and I/O fail. -/
def SessionsComeToRest (H : Hashing) (fmt : TableFormat F R) (ι : Type) [DecidableEq ι] : Prop :=
  ∀ (x : Served F R ι) (s : System F ι), (served H fmt).Reachable x → x.node = .running s →
    (continuingSession H fmt).Inevitable
      (fun y => ∃ s', y.node = .running s' ∧ (s'.AtRest ∨ s'.HungUp)) x

/-- A session comes to rest because the process does that runs over it. -/
theorem sessionsComeToRest (H : Hashing) (fmt : TableFormat F R) : SessionsComeToRest H fmt ι := by
  intro x s hx hs
  have hsteady := steady_of_served hx
  rw [hs] at hsteady
  obtain ⟨hsteady, A, hwithin⟩ := hsteady
  refine @Lts.Inevitable.of_matched _ _ _ _ (continuingSession H fmt) (continuing (process H fmt))
    (Served.Runs fmt) _ _ ?_ ?_ ?_ s (hsteady.inevitable hwithin) x ⟨invariant_of_served hx, hs⟩
  · rintro y label z t hrel ⟨hstep, hcontinues⟩
    obtain ⟨label', t', hrel', hprocess, hshows⟩ :=
      hrel.step hstep (by rintro rfl; cases hcontinues)
    exact ⟨label', t', hrel', hprocess, hcontinues.shows hshows⟩
  · rintro y t hrel ⟨label', t', hprocess, hcontinues⟩
    obtain ⟨label, z, hstep, hlabel⟩ := ServedStep.exists_of_process hrel.2 hprocess hcontinues
    exact ⟨label, z, hstep, hlabel⟩
  · rintro y t ⟨-, ht⟩ hends
    exact ⟨t, ht, hends⟩

/-- A process over an empty directory. -/
theorem served_first : (served vendoredSum (Sstable.format byteSum.crc32)).Reachable
    (⟨.running (System.first ℕ vendoredSum 1048576 ⟨4, by decide⟩), [], [], [], []⟩ :
      Served Bytes SstableReader ℕ) :=
  .initial ⟨_, firstOpened_first _ _ _ _, rfl⟩

/-- A write that begins there begins in the system. -/
theorem sessionsRefine_put : ∃ labels s', (process vendoredSum (Sstable.format byteSum.crc32)).Run
      (System.first ℕ vendoredSum 1048576 ⟨4, by decide⟩) labels s' ∧
    s'.calls 0 = .write (.put [97] [1]) .enter := by
  have hstep : (sessions vendoredSum (Sstable.format byteSum.crc32)).step
      ⟨.running (System.first ℕ vendoredSum 1048576 ⟨4, by decide⟩), [], [], [], []⟩
      (.process (.invoke 0 (.write (.put [97] [1])))) _ :=
    ⟨.process _ rfl (.invoke 0 _ rfl) id, nofun⟩
  obtain ⟨labels, s', hrun, hnode⟩ := sessionsRefine _ _ _ _ _ served_first rfl
    ((Lts.Reachable.initial rfl).step hstep)
  cases hnode
  exact ⟨labels, _, hrun, rfl⟩

/-- The process comes to rest. -/
theorem sessionsComeToRest_first :
    (continuingSession vendoredSum (Sstable.format byteSum.crc32)).Inevitable
      (fun y => ∃ s', y.node = .running s' ∧ (s'.AtRest ∨ s'.HungUp))
      (⟨.running (System.first ℕ vendoredSum 1048576 ⟨4, by decide⟩), [], [], [], []⟩ :
        Served Bytes SstableReader ℕ) :=
  sessionsComeToRest _ _ _ _ served_first rfl

end Kronos
