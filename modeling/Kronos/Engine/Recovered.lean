import Kronos.Engine.Linearized

/-!
# What a directory gives back

A directory is opened, written to, left by a process that dies, and opened again, any number of
times. Opening it succeeds in every state that a life without unfit tables leads to, and a lookup in
the new engine answers with the newest surviving write to its key (`Node.Recovers`). The surviving
writes are the records of the log, in their order, which only get more (`logged_of_run`). Whose
they are is `Node.Acknowledged`: every write that has returned has one, and each crash adds one more
at most, of the write that was under way.
-/

namespace Kronos

open KronosEngine

/-! ## What only grows -/

section Growth

variable {F R ι : Type} [DecidableEq ι] {H : Hashing} {fmt : TableFormat F R}

/-- The history of a directory. -/
def Node.history : Node F ι → History ι
  | running s => s.history
  | closed _ _ _ h => h

/-- A step of a process takes no record out of the log. -/
theorem ProcessStep.logged {s s' : System F ι} {label : ProcessLabel F ι}
    (hstep : ProcessStep H fmt s label s') : s.history.logged <+: s'.history.logged := by
  cases hstep with
  | call i e h pc hcall =>
    generalize s.calls i = pc₀ at hcall
    cases hcall with
    | append w =>
      cases ((w.call none).run H s.engine.log.wal).1 with
      | error failure => exact List.prefix_refl _
      | ok sequence => exact List.prefix_append _ _
    | insert w sequence =>
      cases (s.engine.insertLocked w sequence).1 <;> exact List.prefix_refl _
    | _ => exact List.prefix_refl _
  | _ => exact List.prefix_refl _

/-- Neither does a step in the life of a directory. -/
theorem LifeStep.logged {node node' : Node F ι} {label : LifeLabel F ι}
    (hstep : LifeStep H fmt node label node') :
    node.history.logged <+: node'.history.logged := by
  cases hstep with
  | process label hstep _ => exact hstep.logged
  | crashInRecovery point _ => exact List.prefix_refl _
  | reopen memtableTargetBytes compactionPolicy _ => exact List.prefix_refl _
  | _ => exact List.prefix_append _ _

/-- The records of the log only get more, in the order in which they were appended. -/
theorem logged_of_run {M : Lts (Node F ι) (LifeLabel F ι)}
    (hM : ∀ node label node', M.step node label node' → LifeStep H fmt node label node')
    {node node' : Node F ι} {ls : List (LifeLabel F ι)} (hrun : M.Run node ls node') :
    node.history.logged <+: node'.history.logged :=
  @Lts.Run.invariant _ _ M (fun n => node.history.logged <+: n.history.logged)
    (fun n label n' hn hstep => hn.trans (hM n label n' hstep).logged) _ _ _ hrun
    (List.prefix_refl _)

end Growth

/-! ## What a directory answers -/

section Recovers

variable {F R ι : Type}

/-- A directory gives back its records: a lookup in its engine answers with the value of its key, by
the records that have reached a Memtable, whenever a lookup takes the key. When it is closed,
opening it succeeds, with any settings, and the lookups in the engine that is opened answer so, by
all records of the log. -/
def Node.Recovers (H : Hashing) (fmt : TableFormat F R) : Node F ι → Prop
  | running s => ∀ key, fmt.Takes key → ∃ winner, s.engine.lookup fmt key = .ok winner ∧
    (GetResult.of winner).answer = valueOf key s.history.applied
  | closed log store _ h => ∀ memtableTargetBytes compactionPolicy, ∃ e,
    KronosEngine.construct H fmt store (some log) memtableTargetBytes compactionPolicy = .ok e ∧
    ∀ key, fmt.Takes key → ∃ winner, e.lookup fmt key = .ok winner ∧
      (GetResult.of winner).answer = valueOf key h.records

/-- **Recovery.** Whatever a directory has been through, it gives back its records. These are the
acknowledged writes, with one more at most for each crash, and none is taken out again. -/
def LosesNothing (H : Hashing) (fmt : TableFormat F R) (M : Lts (Node F ι) (LifeLabel F ι)) :
    Prop :=
  ∀ node, M.Reachable node → node.Recovers H fmt ∧ node.Acknowledged ∧
    ∀ ls node', M.Run node ls node' → node.history.logged <+: node'.history.logged

variable {H : Hashing} {fmt : TableFormat F R} {Fits : List TableRecord → Prop}

/-- An engine answers with what was applied. -/
theorem Contents.recovers {s : System F ι} (hc : Contents fmt s) (hs : s.Invariant H) :
    (Node.running s).Recovers H fmt := by
  intro key hkey
  obtain ⟨winner, hreturns, hanswer⟩ := hc.lookup hs hkey
  exact ⟨winner, hreturns, hanswer.trans (answerOf_lastEntry key _)⟩

/-- A closed directory is opened, and the engine answers with all records. -/
theorem recovers_of_closed {log : Bytes} {store : Store F} {calls : ι → Pc} {h : History ι}
    (hinv : (Node.closed log store calls h).Invariant H)
    (hc : (Node.closed log store calls h).Contents fmt) :
    (Node.closed log store calls h).Recovers H fmt := by
  intro memtableTargetBytes compactionPolicy
  obtain ⟨⟨dropped, front, back, hreopens, hrecords⟩, hnamed, hresting⟩ := hinv
  obtain ⟨e, hconstruct, hconstructed⟩ :=
    @construct_spec _ _ _ fmt _ _ _ _ _ hreopens memtableTargetBytes compactionPolicy
  rw [Store.Covers.validates hc, ok_bind] at hconstruct
  refine ⟨e, hconstruct, ?_⟩
  have hopened : Contents fmt (⟨e, .pop, calls, { h with applied := h.records }⟩ : System F ι) :=
    contents_of_constructed hconstructed hc
  exact hopened.recovers (invariant_of_constructed hreopens hconstructed hnamed hresting hrecords)

variable [DecidableEq ι]

/-- A directory whose tables fit gives back its records. -/
theorem recovers_of_reachable (hfmt : fmt.Holds Fits) {node : Node F ι}
    (h : (fittingLife H fmt Fits).Reachable node) : node.Recovers H fmt := by
  obtain ⟨hinv, hc⟩ := contents_of_reachable hfmt h
  cases node with
  | running s => exact Contents.recovers hc hinv
  | closed log store calls h => exact recovers_of_closed hinv hc

end Recovers

/-- **Crash recovery loses nothing and resurrects nothing**, in the life of a directory whose tables
fit and whose readers look up keys that can be hashed: with any number of processes, calls, failures
of the worker and crashes. -/
theorem losesNothing {ι : Type} [DecidableEq ι] (crc32 : Bytes → UInt32) :
    LosesNothing (.vendored crc32) (Sstable.format crc32)
      (fittingLife (.vendored crc32) (Sstable.format crc32) Sstable.TableFits :
        Lts (Node Bytes ι) (LifeLabel Bytes ι)) := by
  intro node hnode
  refine ⟨recovers_of_reachable (fun _ => Sstable.format_represents crc32) hnode,
    acknowledged_of_reachable hnode.of_restrict, fun ls node' hrun => ?_⟩
  have hM : ∀ (node : Node Bytes ι) label node',
      (fittingLife (.vendored crc32) (Sstable.format crc32) Sstable.TableFits).step
        node label node' → LifeStep (.vendored crc32) (Sstable.format crc32) node label node' :=
    fun _ _ _ hstep => hstep.1
  exact logged_of_run hM hrun

/-! ## Sequence numbers -/

section Sequences

variable {F R ι : Type} {H : Hashing} {fmt : TableFormat F R} {node : Node F ι}

/-- The records of a directory are a history of the log. -/
theorem Node.Invariant.validHistory (h : node.Invariant H) :
    Wal.ValidHistory node.history.records := by
  cases node with
  | running s =>
    obtain ⟨g, hd, -⟩ := System.Invariant.data h
    exact hd.records ▸ hd.history
  | closed log store calls history =>
    obtain ⟨dropped, front, back, hreopens, hrecords⟩ := ClosedInvariant.directory h
    exact hrecords ▸ hreopens.history

/-- A write that has returned has its record. -/
theorem Node.Acknowledged.exists_record (ha : node.Acknowledged) {i : ι} {w : Write}
    (hi : node.calls i = .wrote w (.ok ())) : ∃ r, (i, r) ∈ node.history.logged := by
  cases node with
  | running s =>
    obtain ⟨sequence, hlogged, -⟩ := Kronos.Acknowledged.applied ha i w (congrArg Pc.progress hi)
    exact ⟨_, hlogged⟩
  | closed log store calls h =>
    obtain ⟨sequence, hlogged, -⟩ := Kronos.Acknowledged.applied ha i w (congrArg Pc.progress hi)
    exact ⟨_, hlogged⟩

/-- A call that has not begun has none. -/
theorem Node.Acknowledged.not_mem_of_idle (ha : node.Acknowledged) {i : ι}
    (hi : node.calls i = .idle) (r : Record) : (i, r) ∉ node.history.logged := by
  intro hr
  cases node with
  | running s =>
    have howned := Kronos.Acknowledged.owned ha i r hr
    rw [show s.calls i = .idle from hi] at howned
    exact howned
  | closed log store calls h =>
    have howned := Kronos.Acknowledged.owned ha i r hr
    rw [show calls i = .idle from hi] at howned
    exact howned

/-- No sequence number of the history is given twice. -/
theorem Node.Acknowledged.once (ha : node.Acknowledged) :
    (node.history.logged.map Prod.fst).Nodup := by
  cases node with
  | running s => exact Kronos.Acknowledged.once ha
  | closed log store calls h => exact Kronos.Acknowledged.once ha

/-- **Sequence numbers increase** over all that a directory goes through: no number is used a second
time, and a write that begins when another one has returned gets a larger one. -/
structure SequencesIncrease (M : Lts (Node F ι) (LifeLabel F ι)) : Prop where
  increasing : ∀ node, M.Reachable node →
    node.history.records.Pairwise fun r r' => r.sequence < r'.sequence
  realTime : ∀ node ls node' i j w r r', M.Reachable node → M.Run node ls node' →
    node.calls i = .wrote w (.ok ()) → node.calls j = .idle →
    (i, r) ∈ node'.history.logged → (j, r') ∈ node'.history.logged → r.sequence < r'.sequence

end Sequences

/-- Sequence numbers increase in the life of a directory, with any number of processes, crashes,
failures of the worker and reclamations of the log. -/
theorem sequencesIncrease {F R ι : Type} [DecidableEq ι] (H : Hashing) (fmt : TableFormat F R) :
    SequencesIncrease (life H fmt : Lts (Node F ι) (LifeLabel F ι)) := by
  have hincreasing : ∀ node : Node F ι, (life H fmt).Reachable node →
      node.history.records.Pairwise fun r r' => r.sequence < r'.sequence :=
    fun node hnode => (invariant_of_reachable hnode).validHistory.increasing
  refine ⟨hincreasing, fun node ls node' i j w r r' hnode hrun hi hj hr hr' => ?_⟩
  have ha := acknowledged_of_reachable hnode
  have hnode' := hnode.run hrun
  obtain ⟨back, hback⟩ := logged_of_run (M := life H fmt) (fun _ _ _ hstep => hstep) hrun
  -- The record of the first write was there, and that of the second one came behind it.
  obtain ⟨r₀, hr₀⟩ := ha.exists_record hi
  have honly : r = r₀ := by
    have hmem : (i, r₀) ∈ node'.history.logged := hback ▸ List.mem_append_left back hr₀
    have hinj := List.inj_on_of_nodup_map (acknowledged_of_reachable hnode').once hr hmem rfl
    exact (Prod.mk.inj hinj).2
  have hlater : (j, r') ∈ back := by
    rw [← hback] at hr'
    exact (List.mem_append.1 hr').resolve_left (ha.not_mem_of_idle hj r')
  have hpairs := hincreasing node' hnode'
  rw [History.records, ← hback, List.map_append, List.pairwise_append] at hpairs
  exact hpairs.2.2 r (honly ▸ List.mem_map_of_mem hr₀) r' (List.mem_map_of_mem hlater)

/-- A directory does not give back a value of 2^32 - 1 bytes that its checkpoint covers. -/
theorem not_recovers_of_covered {ι : Type} {log : Bytes} {store : Store Bytes} {calls : ι → Pc}
    {h : History ι} (hinv : (Node.closed log store calls h).Invariant vendoredSum)
    (hrecords : h.records = [(Write.put [] Sstable.largestValue).record 0])
    (hcovered : coveredBy store.manifest.persistedThrough h.records = h.records) :
    ¬(Node.closed log store calls h).Recovers vendoredSum (Sstable.format byteSum.crc32) := by
  intro hrecovers
  obtain ⟨e, hok, hanswers⟩ := hrecovers 1048576 ⟨4, by decide⟩
  obtain ⟨winner, hreturns, hanswer⟩ := hanswers [] (show MurmurHash3.Fits [] by decide)
  obtain ⟨⟨dropped, front, back, hreopens, hsplit⟩, -, -⟩ := hinv
  -- The checkpoint covers the record, so the log brings nothing back.
  have hback : back = [] := by
    have hfirst := coveredBy_lastSequence hreopens.history
    rw [← hreopens.checkpoint, ← hsplit, hcovered] at hfirst
    exact List.append_right_eq_self.1 (hsplit.symm.trans hfirst)
  have hconstructed := constructed_of_ok hreopens hok
  have hfound : e.store.lookupFiles (Sstable.format byteSum.crc32) e.store.manifest.liveFiles [] =
      .ok winner := by
    obtain ⟨active, hsome, -, hreplays⟩ := hconstructed.active
    have hmisses : e.lookupActive [] = none := by
      unfold lookupActive
      rw [hsome, Option.bind_some, hreplays [], hback]
      rfl
    have hmisses' : e.lookupImmutable [] = none := by
      unfold lookupImmutable
      rw [hconstructed.immutable]
      rfl
    unfold KronosEngine.lookup at hreturns
    rwa [hmisses, hmisses'] at hreturns
  have hlast : valueOf [] [(Write.put [] Sstable.largestValue).record 0] =
      some Sstable.largestValue := rfl
  have hvalue : valueOf [] h.records = some Sstable.largestValue := by rw [hrecords, hlast]
  have hshort := Sstable.length_of_answer hfound (hanswer.trans hvalue)
  rw [Sstable.length_largestValue] at hshort
  exact lt_irrefl _ hshort

/-- Behind its flush and a crash, a value of 2^32 - 1 bytes is lost. -/
theorem largestValue_lost :
    ¬LosesNothing vendoredSum (Sstable.format byteSum.crc32)
      (life vendoredSum (Sstable.format byteSum.crc32) :
        Lts (Node Bytes ℕ) (LifeLabel Bytes ℕ)) := by
  intro hloses
  obtain ⟨s, hs, -, -, hrecords, happlied, hdurable, hactive, himmutable⟩ := exists_released
  have hlife := life_of_logWorks (logWorks_of_faultless hs)
  have hcrashed := hlife.step (.crash s.engine.store hdurable.symm (.refl _))
  have hsame : (s.lostHistory []).records = s.history.records :=
    congrArg (List.map Prod.snd) (List.append_nil s.history.logged)
  have hcovered : s.covered = s.history.records := by
    obtain ⟨rest, hrest, hmisses⟩ :=
      (invariant_of_faultless hs).applied_of_misses hactive himmutable
    rw [happlied, hrecords] at hrest
    rcases List.append_eq_singleton_iff.1 hrest.symm with ⟨-, rfl⟩ | ⟨hcovers, -⟩
    · cases hmisses
    · rw [hcovers, hrecords]
  refine not_recovers_of_covered (invariant_of_reachable hcrashed) (hsame.trans hrecords) ?_
    (hloses _ hcrashed).1
  rw [hsame]
  exact hcovered

end Kronos
