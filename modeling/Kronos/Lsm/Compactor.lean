import Mathlib.Data.List.Forall2
import Kronos.Base.Newest
import Kronos.Base.OrderedMap
import Kronos.Types

/-!
# The compactor

The merge of `src/compactor.cpp`. An iterator is the list of the records that it still yields. A
heap holds the current key of every iterator that is valid. Each pass takes the least key off the
heap, with all iterators that stand on it, keeps the newest of their entries, and advances them.

`merge_spec` says what comes out: for each key the newest of its versions, unless that is a
tombstone that may be dropped. The heap keeps the current keys (`Exposes`): a pass takes some
iterators off it, and advancing one puts it back (`Exposes.advanceOne`).
-/

namespace Kronos

namespace Compactor

/-- `HeapItem`. -/
structure HeapItem where
  key : Bytes
  iteratorIndex : ℕ
  deriving DecidableEq, Repr

/-- `heap.push`. The heap is kept in the order in which its items are taken: a least key first.
Which of several items with one key is at the top is left to the library by the language. -/
def push (item : HeapItem) : List HeapItem → List HeapItem
  | [] => [item]
  | top :: heap => if item.key ≤ top.key then item :: top :: heap else top :: push item heap

/-- The record that an iterator stands on, if it is valid. -/
def exposed (iterators : List (List TableRecord)) (index : ℕ) : Option TableRecord :=
  iterators[index]?.bind List.head?

/-- `getEntry` of an iterator. -/
def getEntry (iterators : List (List TableRecord)) (index : ℕ) : Except Failure InternalEntry :=
  match exposed iterators index with
  | some (_, entry) => .ok entry
  | none => .error (.exception "SSTable iterator is not valid")

/-- `next` of an iterator. -/
def next (iterators : List (List TableRecord)) (index : ℕ) : List (List TableRecord) :=
  iterators.modify index List.tail

/-- The loop that resolves the versions of a key: the first of those with the highest sequence. -/
def winnerEntry : List InternalEntry → Except Failure InternalEntry
  | [] => .error (.undefined "same_key_iterators[0] of no iterators")
  | first :: rest => .ok (rest.foldl
      (fun winner candidate => if candidate.sequence > winner.sequence then candidate else winner)
      first)

/-- The current key of an iterator is pushed, if it is valid. -/
def pushCurrent (iterators : List (List TableRecord)) (heap : List HeapItem) (index : ℕ) :
    List HeapItem :=
  match exposed iterators index with
  | some (key, _) => push ⟨key, index⟩ heap
  | none => heap

/-- The initial heap: the keys of the iterators that are valid, pushed in their order. -/
def initialHeap (iterators : List (List TableRecord)) : List HeapItem :=
  (List.range iterators.length).foldl (pushCurrent iterators) []

/-- The loop that advances the iterators that contributed the key. -/
def advance (iterators : List (List TableRecord)) (heap : List HeapItem) :
    List ℕ → List (List TableRecord) × List HeapItem
  | [] => (iterators, heap)
  | index :: indices =>
    let iterators := next iterators index
    advance iterators (pushCurrent iterators heap index) indices

/-- The merge loop: the records that reach the builder. Each pass takes a record off an iterator,
so that fuel above the number of records does not run out (`mergeLoop_spec`). -/
def mergeLoop (canDropTombstones : Bool) :
    ℕ → List (List TableRecord) → List HeapItem → Except Failure (List TableRecord)
  | _, _, [] => .ok []
  | 0, _, _ :: _ => .error (.undefined "out of fuel")
  | fuel + 1, iterators, top :: heap => do
    let currentKey := top.key
    let sameKeyIterators :=
      ((top :: heap).takeWhile (·.key = currentKey)).map (·.iteratorIndex)
    let heap := (top :: heap).dropWhile (·.key = currentKey)
    let winner ← (← sameKeyIterators.mapM (getEntry iterators)) |> winnerEntry
    let (iterators, heap) := advance iterators heap sameKeyIterators
    let output ← mergeLoop canDropTombstones fuel iterators heap
    if winner.operation = .delete ∧ canDropTombstones then .ok output
    else .ok ((currentKey, winner) :: output)

/-- The number of records that iterators still yield. -/
def remaining (iterators : List (List TableRecord)) : ℕ := (iterators.map List.length).sum

/-- The records that `compact` adds to the builder for some inputs. -/
def merge (canDropTombstones : Bool) (inputs : List (List TableRecord)) :
    Except Failure (List TableRecord) :=
  mergeLoop canDropTombstones (remaining inputs) inputs (initialHeap inputs)

/-! ## The heap -/

/-- A push adds its item. -/
theorem mem_push {item item' : HeapItem} {heap : List HeapItem} :
    item' ∈ push item heap ↔ item' = item ∨ item' ∈ heap := by
  induction heap with
  | nil => simp [push]
  | cons top heap ih =>
    rw [push]
    split_ifs
    · exact List.mem_cons
    · rw [List.mem_cons, ih, List.mem_cons]
      tauto

/-- The keys on the heap, in order. -/
def Ordered (heap : List HeapItem) : Prop := heap.Pairwise (·.key ≤ ·.key)

/-- A push keeps the order. -/
theorem ordered_push {item : HeapItem} {heap : List HeapItem} (h : Ordered heap) :
    Ordered (push item heap) := by
  induction heap with
  | nil => exact List.pairwise_singleton _ _
  | cons top heap ih =>
    obtain ⟨htop, hheap⟩ := List.pairwise_cons.1 h
    rw [push]
    split_ifs with hle
    · refine List.Pairwise.cons (fun item' hmem => ?_) h
      rcases List.mem_cons.1 hmem with rfl | hmem
      · exact hle
      · exact hle.trans (htop item' hmem)
    · refine List.Pairwise.cons (fun item' hmem => ?_) (ih hheap)
      rcases mem_push.1 hmem with rfl | hmem
      · exact (not_le.1 hle).le
      · exact htop item' hmem

/-- A push adds one item. -/
theorem push_perm (item : HeapItem) (heap : List HeapItem) :
    (push item heap).Perm (item :: heap) := by
  induction heap with
  | nil => exact List.Perm.refl _
  | cons top heap ih =>
    rw [push]
    split_ifs
    · exact List.Perm.refl _
    · exact (ih.cons top).trans (List.Perm.swap item top heap)

/-- The items that a pass takes off an ordered heap are those with the least key, and the others
stay. -/
theorem mem_pass {key : Bytes} {heap : List HeapItem} (h : Ordered heap)
    (hkey : ∀ item ∈ heap, key ≤ item.key) (item : HeapItem) :
    (item ∈ heap.takeWhile (·.key = key) ↔ item ∈ heap ∧ item.key = key) ∧
      (item ∈ heap.dropWhile (·.key = key) ↔ item ∈ heap ∧ item.key ≠ key) := by
  induction heap with
  | nil => simp
  | cons top heap ih =>
    obtain ⟨htop, hheap⟩ := List.pairwise_cons.1 h
    by_cases heq : top.key = key
    · obtain ⟨htake, hdrop⟩ := ih hheap fun item hmem => hkey item (.tail _ hmem)
      have hpos : decide (top.key = key) = true := decide_eq_true heq
      rw [List.takeWhile_cons, List.dropWhile_cons, if_pos hpos, if_pos hpos, List.mem_cons, htake,
        List.mem_cons, hdrop]
      constructor
      · constructor
        · rintro (rfl | ⟨hmem, hitem⟩)
          · exact ⟨.inl rfl, heq⟩
          · exact ⟨.inr hmem, hitem⟩
        · rintro ⟨rfl | hmem, hitem⟩
          · exact .inl rfl
          · exact .inr ⟨hmem, hitem⟩
      · constructor
        · exact fun ⟨hmem, hitem⟩ => ⟨.inr hmem, hitem⟩
        · rintro ⟨rfl | hmem, hitem⟩
          · exact absurd heq hitem
          · exact ⟨hmem, hitem⟩
    · -- The top has a greater key, and so have all items behind it.
      have hneg : ¬decide (top.key = key) = true := by simpa using heq
      have hlt : key < top.key := lt_of_le_of_ne (hkey top (.head _)) (Ne.symm heq)
      have hall : ∀ item ∈ top :: heap, item.key ≠ key := by
        intro item hmem
        rcases List.mem_cons.1 hmem with rfl | hmem
        · exact heq
        · exact (hlt.trans_le (htop item hmem)).ne'
      rw [List.takeWhile_cons, List.dropWhile_cons, if_neg hneg, if_neg hneg]
      exact ⟨⟨fun hmem => absurd hmem List.not_mem_nil, fun h => absurd h.2 (hall item h.1)⟩,
        ⟨fun hmem => ⟨hmem, hall item hmem⟩, And.left⟩⟩

/-- The heap holds the current keys of the valid iterators, except for some that wait to be
pushed. -/
structure Exposes (iterators : List (List TableRecord)) (pending : Set ℕ)
    (heap : List HeapItem) : Prop where
  ordered : Ordered heap
  /-- No iterator is on the heap twice. -/
  nodup : (heap.map (·.iteratorIndex)).Nodup
  mem : ∀ item, item ∈ heap ↔
    item.iteratorIndex ∉ pending ∧
    ∃ entry, exposed iterators item.iteratorIndex = some (item.key, entry)

/-- Advancing an iterator changes what it exposes, and no other. -/
theorem exposed_next_of_ne {iterators : List (List TableRecord)} {index index' : ℕ}
    (h : index' ≠ index) : exposed (next iterators index) index' = exposed iterators index' := by
  rw [exposed, next, List.getElem?_modify_ne _ _ (Ne.symm h), exposed]

namespace Exposes

variable {iterators : List (List TableRecord)} {pending : Set ℕ} {heap : List HeapItem}

/-- Advancing an iterator that is not on the heap keeps the heap. -/
theorem next {index : ℕ} (h : Exposes iterators pending heap) (hindex : index ∈ pending) :
    Exposes (next iterators index) pending heap := by
  refine ⟨h.ordered, h.nodup, fun item => (h.mem item).trans (and_congr_right fun hnot => ?_)⟩
  have hne : item.iteratorIndex ≠ index := fun heq => hnot (heq ▸ hindex)
  rw [exposed_next_of_ne hne]

/-- Pushing the current key of an iterator puts it on the heap. -/
theorem pushCurrent {index : ℕ} (h : Exposes iterators pending heap) (hindex : index ∈ pending) :
    Exposes iterators (pending \ {index}) (pushCurrent iterators heap index) := by
  have hoff : ∀ item ∈ heap, item.iteratorIndex ≠ index :=
    fun item hmem heq => ((h.mem item).1 hmem).1 (heq ▸ hindex)
  unfold Compactor.pushCurrent
  cases hexposed : exposed iterators index with
  | none =>
    refine ⟨h.ordered, h.nodup, fun item => (h.mem item).trans ?_⟩
    -- The iterator is not valid, so that no item could be its.
    constructor
    · exact fun ⟨hnot, hsome⟩ => ⟨fun hmem => hnot hmem.1, hsome⟩
    · rintro ⟨hnot, entry, hsome⟩
      refine ⟨fun hmem => hnot ⟨hmem, fun heq => ?_⟩, entry, hsome⟩
      rw [Set.mem_singleton_iff.1 heq, hexposed] at hsome
      cases hsome
  | some r =>
    obtain ⟨key, entry⟩ := r
    refine ⟨ordered_push h.ordered, ?_, fun item => ?_⟩
    · refine ((push_perm _ _).map (·.iteratorIndex)).nodup_iff.2 ?_
      rw [List.map_cons, List.nodup_cons]
      refine ⟨fun hmem => ?_, h.nodup⟩
      obtain ⟨item, hmem, heq⟩ := List.mem_map.1 hmem
      exact hoff item hmem heq
    · rw [mem_push, h.mem]
      constructor
      · rintro (rfl | ⟨hnot, hsome⟩)
        · exact ⟨fun hmem => hmem.2 rfl, entry, hexposed⟩
        · exact ⟨fun hmem => hnot hmem.1, hsome⟩
      · rintro ⟨hnot, entry', hsome⟩
        by_cases heq : item.iteratorIndex = index
        · rw [heq, hexposed] at hsome
          obtain ⟨rfl, rfl⟩ := Prod.mk.inj (Option.some.inj hsome)
          exact .inl (by rw [← heq])
        · exact .inr ⟨fun hmem => hnot ⟨hmem, heq⟩, entry', hsome⟩

end Exposes

/-! ## A pass -/

/-- What the advance leaves: the iterators without their current records, and all valid ones on the
heap again. -/
theorem advance_spec {indices : List ℕ} (hnodup : indices.Nodup) :
    ∀ {iterators : List (List TableRecord)} {heap : List HeapItem},
      Exposes iterators {index | index ∈ indices} heap →
      Exposes (advance iterators heap indices).1 ∅ (advance iterators heap indices).2 ∧
        ∀ index, (advance iterators heap indices).1[index]? =
          if index ∈ indices then iterators[index]?.map List.tail else iterators[index]? := by
  induction indices with
  | nil =>
    intro iterators heap h
    exact ⟨by simpa [advance] using h, fun index => by simp [advance]⟩
  | cons index indices ih =>
    intro iterators heap h
    obtain ⟨hnot, hnodup⟩ := List.nodup_cons.1 hnodup
    have hpushed := (h.next (.head _)).pushCurrent (.head _)
    have hpending :
      {index' | index' ∈ index :: indices} \ {index} = {index' | index' ∈ indices} := by
      ext index'
      constructor
      · exact fun ⟨hmem, hne⟩ => (List.mem_cons.1 hmem).resolve_left hne
      · exact fun hmem => ⟨.tail _ hmem, fun heq => hnot (heq ▸ hmem)⟩
    rw [hpending] at hpushed
    obtain ⟨hexposes, hget⟩ := ih hnodup hpushed
    refine ⟨hexposes, fun index' => (hget index').trans ?_⟩
    rw [next, List.getElem?_modify]
    by_cases heq : index' = index
    · subst heq
      simp [hnot]
    · simp [heq, Ne.symm heq]

/-- Advancing a valid iterator leaves one record less. -/
theorem remaining_next {iterators : List (List TableRecord)} {index : ℕ} {r : TableRecord}
    (h : exposed iterators index = some r) :
    remaining (next iterators index) < remaining iterators := by
  induction iterators generalizing index with
  | nil => cases h
  | cons l iterators ih =>
    cases index with
    | zero =>
      have hl : l ≠ [] := by
        rintro rfl
        cases h
      have hpos := List.length_pos_of_ne_nil hl
      simp only [next, remaining, List.modify_zero_cons, List.map_cons, List.sum_cons,
        List.length_tail]
      omega
    | succ index =>
      have hlt := @ih index h
      simp only [next, remaining, List.modify_succ_cons, List.map_cons, List.sum_cons] at hlt ⊢
      omega

/-- Advancing leaves no more records. -/
theorem remaining_next_le (iterators : List (List TableRecord)) (index : ℕ) :
    remaining (next iterators index) ≤ remaining iterators := by
  induction iterators generalizing index with
  | nil => simp [next]
  | cons l iterators ih =>
    cases index with
    | zero =>
      simp only [next, remaining, List.modify_zero_cons, List.map_cons, List.sum_cons,
        List.length_tail]
      omega
    | succ index =>
      have hle := ih index
      simp only [next, remaining, List.modify_succ_cons, List.map_cons, List.sum_cons] at hle ⊢
      omega

/-- The iterators yield no more than before. -/
theorem remaining_advance_le (indices : List ℕ) :
    ∀ (iterators : List (List TableRecord)) (heap : List HeapItem),
      remaining (advance iterators heap indices).1 ≤ remaining iterators := by
  induction indices with
  | nil => exact fun _ _ => le_rfl
  | cons index indices ih => exact fun _ _ => (ih _ _).trans (remaining_next_le _ _)

/-- The versions of a key that iterators still yield. -/
def versions (iterators : List (List TableRecord)) (key : Bytes) : Set InternalEntry :=
  {entry | ∃ l ∈ iterators, (key, entry) ∈ l}

/-- What the iterators yield is sorted, and the least key that they expose bounds all keys. -/
theorem versions_of_least {iterators : List (List TableRecord)} {key : Bytes}
    (hsorted : ∀ l ∈ iterators, Sorted l)
    (hleast : ∀ index r, exposed iterators index = some r → key ≤ r.1) :
    versions iterators key = {entry | ∃ index, exposed iterators index = some (key, entry)} := by
  ext entry
  constructor
  · rintro ⟨l, hl, hmem⟩
    obtain ⟨index, hindex⟩ := List.mem_iff_getElem?.1 hl
    cases l with
    | nil => cases hmem
    | cons r l =>
      have hexposed : exposed iterators index = some r := by rw [exposed, hindex]; rfl
      rcases List.mem_cons.1 hmem with rfl | htail
      · exact ⟨index, hexposed⟩
      · -- A record behind the current one has a greater key.
        have hlt := (hsorted _ hl).lt_of_mem htail
        exact absurd (hleast index r hexposed) (not_le.2 hlt)
  · rintro ⟨index, hexposed⟩
    obtain ⟨l, hindex, hhead⟩ := Option.bind_eq_some_iff.1 hexposed
    exact ⟨l, List.mem_iff_getElem?.2 ⟨index, hindex⟩, List.mem_of_head? hhead⟩

/-- The entries of iterators that stand on a key. -/
theorem mapM_getEntry {iterators : List (List TableRecord)} {key : Bytes} {indices : List ℕ}
    (h : ∀ index ∈ indices, ∃ entry, exposed iterators index = some (key, entry)) :
    ∃ entries, indices.mapM (getEntry iterators) = .ok entries ∧
      (indices ≠ [] → entries ≠ []) ∧
      ∀ entry, entry ∈ entries ↔
        ∃ index ∈ indices, exposed iterators index = some (key, entry) := by
  induction indices with
  | nil => exact ⟨[], rfl, fun hne => absurd rfl hne, fun entry => by simp⟩
  | cons index indices ih =>
    obtain ⟨entry, hentry⟩ := h index (.head _)
    obtain ⟨entries, hentries, -, hmem⟩ := ih fun index' h' => h index' (.tail _ h')
    have hget : getEntry iterators index = .ok entry := by rw [getEntry, hentry]
    refine ⟨entry :: entries, ?_, fun _ => List.cons_ne_nil _ _, fun entry' => ?_⟩
    · rw [List.mapM_cons, hget, ok_bind, hentries, ok_bind]
      rfl
    · rw [List.mem_cons, hmem]
      constructor
      · rintro (rfl | ⟨index', hindex', hentry'⟩)
        · exact ⟨index, .head _, hentry⟩
        · exact ⟨index', .tail _ hindex', hentry'⟩
      · rintro ⟨index', hindex', hentry'⟩
        rcases List.mem_cons.1 hindex' with rfl | hindex'
        · rw [hentry] at hentry'
          exact .inl (Prod.mk.inj (Option.some.inj hentry')).2.symm
        · exact .inr ⟨index', hindex', hentry'⟩

/-- The loop that resolves the versions of a key keeps the newest one. -/
theorem winnerEntry_newest {entries : List InternalEntry} (h : entries ≠ []) :
    ∃ winner, winnerEntry entries = .ok winner ∧
      Newest InternalEntry.sequence {entry | entry ∈ entries} (some winner) := by
  cases entries with
  | nil => exact absurd rfl h
  | cons first rest =>
    have hfold : ∀ winner, (rest.map some).foldl (newer InternalEntry.sequence) (some winner) =
        some (rest.foldl (fun winner candidate =>
          if candidate.sequence > winner.sequence then candidate else winner) winner) := by
      induction rest with
      | nil => exact fun _ => rfl
      | cons candidate rest ih =>
        intro winner
        rw [List.map_cons, List.foldl_cons, List.foldl_cons, newer, ← apply_ite some]
        exact ih (List.cons_ne_nil _ _) _
    refine ⟨_, rfl, ?_⟩
    rw [← hfold]
    refine (newest_fold _ (Newest.singleton _ first)).congr ?_
    ext entry
    simp [versionsOf]

/-- The iterators that stand on the key of a pass. -/
def sameKey (key : Bytes) (heap : List HeapItem) : List ℕ :=
  (heap.takeWhile (·.key = key)).map (·.iteratorIndex)

/-- What a pass takes off the heap: the iterators that stand on the least key, each once. The others
stay there. -/
theorem Exposes.pass {iterators : List (List TableRecord)} {key : Bytes} {heap : List HeapItem}
    (h : Exposes iterators ∅ heap) (hleast : ∀ item ∈ heap, key ≤ item.key) :
    (sameKey key heap).Nodup ∧
      (∀ index, index ∈ sameKey key heap ↔ ∃ entry, exposed iterators index = some (key, entry)) ∧
      Exposes iterators {index | index ∈ sameKey key heap} (heap.dropWhile (·.key = key)) := by
  have hsame : ∀ index, index ∈ sameKey key heap ↔
      ∃ entry, exposed iterators index = some (key, entry) := by
    intro index
    rw [sameKey, List.mem_map]
    constructor
    · rintro ⟨item, hitem, rfl⟩
      obtain ⟨hmem, rfl⟩ := (mem_pass h.ordered hleast item).1.1 hitem
      exact ((h.mem item).1 hmem).2
    · rintro ⟨entry, hexposed⟩
      have hmem : (⟨key, index⟩ : HeapItem) ∈ heap :=
        (h.mem _).2 ⟨Set.notMem_empty _, entry, hexposed⟩
      exact ⟨⟨key, index⟩, (mem_pass h.ordered hleast _).1.2 ⟨hmem, rfl⟩, rfl⟩
  refine ⟨h.nodup.sublist ((List.takeWhile_sublist _).map _), hsame, ⟨?_, ?_, fun item => ?_⟩⟩
  · exact h.ordered.sublist (List.dropWhile_sublist _)
  · exact h.nodup.sublist ((List.dropWhile_sublist _).map _)
  · rw [(mem_pass h.ordered hleast item).2, h.mem, Set.mem_ofPred_eq, hsame]
    constructor
    · rintro ⟨⟨-, entry, hexposed⟩, hne⟩
      refine ⟨fun ⟨entry', hexposed'⟩ => hne ?_, entry, hexposed⟩
      rw [hexposed] at hexposed'
      exact congrArg Prod.fst (Option.some.inj hexposed')
    · rintro ⟨hnot, entry, hexposed⟩
      exact ⟨⟨Set.notMem_empty _, entry, hexposed⟩, fun heq => hnot ⟨entry, heq ▸ hexposed⟩⟩

/-- What a pass for a key leaves of an iterator: all of it, if the key is not in it, or what is
behind the key's record. -/
def Passed (key : Bytes) (l l' : List TableRecord) : Prop :=
  l' = l ∧ (∀ r ∈ l, key < r.1) ∨ ∃ entry, l = (key, entry) :: l'

/-- A pass over the iterators that stand on the least key leaves this of each of them. -/
theorem passed_of_advanced {iterators iterators' : List (List TableRecord)} {key : Bytes}
    {same : List ℕ} (hsorted : ∀ l ∈ iterators, Sorted l)
    (hleast : ∀ index r, exposed iterators index = some r → key ≤ r.1)
    (hsame : ∀ index, index ∈ same ↔ ∃ entry, exposed iterators index = some (key, entry))
    (hget : ∀ index, iterators'[index]? =
      if index ∈ same then iterators[index]?.map List.tail else iterators[index]?) :
    List.Forall₂ (Passed key) iterators iterators' := by
  have hlength : iterators.length = iterators'.length := by
    have hend : ∀ index, iterators.length ≤ index ↔ iterators'.length ≤ index := by
      intro index
      rw [← List.getElem?_eq_none_iff, ← List.getElem?_eq_none_iff, hget index]
      split_ifs
      · rw [Option.map_eq_none_iff]
      · rfl
    exact le_antisymm ((hend _).2 le_rfl) ((hend _).1 le_rfl)
  refine List.forall₂_iff_get.2 ⟨hlength, fun index h h' => ?_⟩
  have hl := hsorted _ (List.get_mem iterators ⟨index, h⟩)
  have hindex : iterators[index]? = some (iterators.get ⟨index, h⟩) := List.getElem?_eq_getElem h
  have hindex' : iterators'[index]? = some (iterators'.get ⟨index, h'⟩) :=
    List.getElem?_eq_getElem h'
  generalize iterators.get ⟨index, h⟩ = l at hl hindex
  generalize iterators'.get ⟨index, h'⟩ = l' at hindex'
  rw [hget index, hindex] at hindex'
  by_cases hmem : index ∈ same
  · obtain ⟨entry, hexposed⟩ := (hsame index).1 hmem
    rw [exposed, hindex] at hexposed
    obtain ⟨rest, rfl⟩ := List.head?_eq_some_iff.1 hexposed
    rw [if_pos hmem] at hindex'
    obtain rfl := Option.some.inj hindex'
    exact .inr ⟨entry, rfl⟩
  · rw [if_neg hmem] at hindex'
    obtain rfl := Option.some.inj hindex'
    refine .inl ⟨rfl, fun r hr => ?_⟩
    cases l with
    | nil => cases hr
    | cons first rest =>
      have hexposed : exposed iterators index = some first := by rw [exposed, hindex]; rfl
      have hne : key ≠ first.1 := by
        rintro rfl
        exact hmem ((hsame index).2 ⟨first.2, hexposed⟩)
      exact (lt_of_le_of_ne (hleast index first hexposed) hne).trans_le (hl.first_le hr)

/-- Behind a pass for a key, the keys that are left are greater, in their order. -/
theorem Passed.left {key : Bytes} {l l' : List TableRecord} (h : Passed key l l')
    (hl : Sorted l) : Sorted l' ∧ ∀ r ∈ l', key < r.1 := by
  rcases h with ⟨rfl, hkeys⟩ | ⟨entry, rfl⟩
  · exact ⟨hl, hkeys⟩
  · exact ⟨hl.tail, fun r hr => hl.lt_of_mem hr⟩

/-- The other keys are left as they were. -/
theorem Passed.mem_iff {key key' : Bytes} {l l' : List TableRecord} (h : Passed key l l')
    (hne : key' ≠ key) (entry : InternalEntry) : (key', entry) ∈ l' ↔ (key', entry) ∈ l := by
  rcases h with ⟨rfl, -⟩ | ⟨entry', rfl⟩
  · exact Iff.rfl
  · have hne' : (key', entry) ≠ (key, entry') := fun heq => hne (congrArg Prod.fst heq)
    rw [List.mem_cons, or_iff_right hne']

/-- The same, for all iterators. -/
theorem versions_passed {iterators iterators' : List (List TableRecord)} {key key' : Bytes}
    (h : List.Forall₂ (Passed key) iterators iterators') (hne : key' ≠ key) :
    versions iterators' key' = versions iterators key' := by
  induction h with
  | nil => rfl
  | @cons l l' iterators iterators' hl _ ih =>
    ext entry
    have hrest : (∃ l ∈ iterators', (key', entry) ∈ l) ↔ ∃ l ∈ iterators, (key', entry) ∈ l :=
      Set.ext_iff.1 ih entry
    simp only [versions, Set.mem_ofPred_eq, List.exists_mem_cons_iff, hl.mem_iff hne, hrest]

/-- What a pass for a key leaves of sorted iterators is sorted, and behind the key. -/
theorem forall_passed {iterators iterators' : List (List TableRecord)} {key : Bytes}
    (h : List.Forall₂ (Passed key) iterators iterators') (hsorted : ∀ l ∈ iterators, Sorted l) :
    ∀ l' ∈ iterators', Sorted l' ∧ ∀ r ∈ l', key < r.1 := by
  induction h with
  | nil => exact fun l' hl' => absurd hl' List.not_mem_nil
  | cons hl _ ih =>
    intro l' hl'
    rcases List.mem_cons.1 hl' with rfl | hl'
    · exact hl.left (hsorted _ (.head _))
    · exact ih (fun l hmem => hsorted l (.tail _ hmem)) l' hl'

/-! ## The merge -/

/-- The version of a key that reaches the output: the newest one, unless it is a tombstone that may
be dropped. -/
def kept (canDropTombstones : Bool) (winner : InternalEntry) : Option InternalEntry :=
  if winner.operation = .delete ∧ canDropTombstones then none else some winner

/-- The output of a merge: in the order of the keys, for each the version that is kept. -/
structure Merged (canDropTombstones : Bool) (inputs : List (List TableRecord))
    (output : List TableRecord) : Prop where
  sorted : Sorted output
  newest : ∀ key, ∃ winner, Newest InternalEntry.sequence (versions inputs key) winner ∧
    output.lookup key = winner.bind (kept canDropTombstones)

/-- The records of the output are versions of the inputs. -/
theorem Merged.mem_versions {canDropTombstones : Bool} {inputs : List (List TableRecord)}
    {output : List TableRecord} (h : Merged canDropTombstones inputs output) {key : Bytes}
    {entry : InternalEntry} (hmem : (key, entry) ∈ output) :
    Newest InternalEntry.sequence (versions inputs key) (some entry) := by
  obtain ⟨winner, hnewest, hlookup⟩ := h.newest key
  rw [h.sorted.lookup_eq_some_iff.2 hmem] at hlookup
  cases winner with
  | none => cases hlookup
  | some w =>
    rw [Option.bind_some, kept] at hlookup
    split_ifs at hlookup
    rw [Option.some.inj hlookup]
    exact hnewest

/-- Nothing is left to merge when no iterator is on the heap. -/
theorem merged_nil (canDropTombstones : Bool) {iterators : List (List TableRecord)}
    (h : Exposes iterators ∅ []) : Merged canDropTombstones iterators [] := by
  refine ⟨.nil, fun key => ⟨none, ?_, rfl⟩⟩
  rintro entry ⟨l, hl, hmem⟩
  obtain ⟨index, hindex⟩ := List.mem_iff_getElem?.1 hl
  cases l with
  | nil => cases hmem
  | cons r l =>
    have hexposed : exposed iterators index = some (r.1, r.2) := by rw [exposed, hindex]; rfl
    exact absurd ((h.mem ⟨r.1, index⟩).2 ⟨Set.notMem_empty _, r.2, hexposed⟩) List.not_mem_nil

/-- Putting the winner of a pass before the output of the passes that follow. -/
theorem merged_pass {canDropTombstones : Bool} {iterators iterators' : List (List TableRecord)}
    {key : Bytes} {winner : InternalEntry} {output : List TableRecord}
    (hwinner : Newest InternalEntry.sequence (versions iterators key) (some winner))
    (hpassed : List.Forall₂ (Passed key) iterators iterators')
    (hgreater : ∀ l ∈ iterators', ∀ r ∈ l, key < r.1)
    (h : Merged canDropTombstones iterators' output) :
    Merged canDropTombstones iterators
      (if winner.operation = .delete ∧ canDropTombstones then output
        else (key, winner) :: output) := by
  have houtput : ∀ r ∈ output, key < r.1 := by
    intro r hr
    obtain ⟨l, hl, hmem⟩ := (h.mem_versions hr).1
    exact hgreater l hl _ hmem
  have hnone : output.lookup key = none :=
    lookup_eq_none_of_forall_ne fun r hr => (houtput r hr).ne'
  constructor
  · split_ifs
    · exact h.sorted
    · exact List.Pairwise.cons houtput h.sorted
  · intro key'
    by_cases heq : key' = key
    · subst heq
      refine ⟨some winner, hwinner, ?_⟩
      rw [Option.bind_some, kept]
      split_ifs
      · exact hnone
      · rw [lookup_cons_eq, if_pos rfl]
    · obtain ⟨winner', hnewest, hlookup⟩ := h.newest key'
      refine ⟨winner', hnewest.congr (versions_passed hpassed heq), ?_⟩
      rw [← hlookup]
      split_ifs
      · rfl
      · rw [lookup_cons_eq, if_neg heq]

/-- The merge loop, from iterators whose current keys are on the heap. -/
theorem mergeLoop_spec (canDropTombstones : Bool) (fuel : ℕ) :
    ∀ {iterators : List (List TableRecord)} {heap : List HeapItem},
      remaining iterators ≤ fuel → (∀ l ∈ iterators, Sorted l) → Exposes iterators ∅ heap →
      ∃ output, mergeLoop canDropTombstones fuel iterators heap = .ok output ∧
        Merged canDropTombstones iterators output := by
  induction fuel with
  | zero =>
    intro iterators heap hfuel hsorted h
    cases heap with
    | nil => exact ⟨[], rfl, merged_nil canDropTombstones h⟩
    | cons top heap =>
      obtain ⟨-, entry, hexposed⟩ := (h.mem top).1 (.head _)
      have hlt := remaining_next hexposed
      omega
  | succ fuel ih =>
    intro iterators heap hfuel hsorted h
    cases heap with
    | nil => exact ⟨[], rfl, merged_nil canDropTombstones h⟩
    | cons top heap =>
      -- The top of the heap is the least key of all iterators.
      have htop : ∀ item ∈ top :: heap, top.key ≤ item.key := by
        intro item hmem
        rcases List.mem_cons.1 hmem with rfl | hmem
        · exact le_rfl
        · exact List.rel_of_pairwise_cons h.ordered hmem
      have hleast : ∀ index r, exposed iterators index = some r → top.key ≤ r.1 :=
        fun index r hexposed =>
          htop ⟨r.1, index⟩ ((h.mem _).2 ⟨Set.notMem_empty _, r.2, hexposed⟩)
      obtain ⟨hnodup, hsame, hrest⟩ := h.pass htop
      have htopSame : top.iteratorIndex ∈ sameKey top.key (top :: heap) :=
        (hsame _).2 ((h.mem top).1 (.head _)).2
      -- The winner is the newest version of the key.
      obtain ⟨entries, hentries, hne, hmem⟩ :=
        mapM_getEntry fun index hindex => (hsame index).1 hindex
      obtain ⟨winner, hwinner, hnewest⟩ := winnerEntry_newest (hne (List.ne_nil_of_mem htopSame))
      have hversions : {entry | entry ∈ entries} = versions iterators top.key := by
        rw [versions_of_least hsorted hleast]
        ext entry
        rw [Set.mem_ofPred_eq, hmem, Set.mem_ofPred_eq]
        exact ⟨fun ⟨index, _, hexposed⟩ => ⟨index, hexposed⟩,
          fun ⟨index, hexposed⟩ => ⟨index, (hsame index).2 ⟨entry, hexposed⟩, hexposed⟩⟩
      -- Behind the pass, one record less is left at least.
      obtain ⟨hexposes, hget⟩ := advance_spec hnodup hrest
      have hpassed := passed_of_advanced hsorted hleast hsame hget
      have hleft := forall_passed hpassed hsorted
      have hless : remaining (advance iterators ((top :: heap).dropWhile (·.key = top.key))
          (sameKey top.key (top :: heap))).1 < remaining iterators := by
        cases hindices : sameKey top.key (top :: heap) with
        | nil => exact absurd htopSame (hindices ▸ List.not_mem_nil)
        | cons index indices =>
          obtain ⟨entry, hexposed⟩ := (hsame index).1 (hindices ▸ .head _)
          exact (remaining_advance_le indices _ _).trans_lt (remaining_next hexposed)
      obtain ⟨output, houtput, hmerged⟩ := ih (by omega) (fun l hl => (hleft l hl).1) hexposes
      refine ⟨_, ?_, merged_pass (hnewest.congr hversions) hpassed (fun l hl => (hleft l hl).2)
        hmerged⟩
      rw [sameKey] at hentries houtput
      rw [mergeLoop]
      simp only [hentries, hwinner, ok_bind, houtput]
      split_ifs <;> rfl

/-- The initial heap holds the first keys of the inputs. -/
theorem exposes_initialHeap (inputs : List (List TableRecord)) :
    Exposes inputs ∅ (initialHeap inputs) := by
  have hfold : ∀ count, Exposes inputs {index | count ≤ index}
      ((List.range count).foldl (pushCurrent inputs) []) := by
    intro count
    induction count with
    | zero => exact ⟨.nil, .nil, fun item => by simp⟩
    | succ count ih =>
      rw [List.range_succ, List.foldl_append]
      have hpending : {index | count + 1 ≤ index} = {index | count ≤ index} \ {count} := by
        ext index
        simp only [Set.mem_ofPred_eq, Set.mem_sdiff, Set.mem_singleton_iff]
        omega
      rw [hpending]
      exact ih.pushCurrent (le_refl count)
  have h := hfold inputs.length
  refine ⟨h.ordered, h.nodup, fun item => (h.mem item).trans ?_⟩
  -- An iterator that is there is below the number of inputs.
  refine ⟨fun ⟨_, hsome⟩ => ⟨Set.notMem_empty _, hsome⟩,
    fun ⟨_, entry, hexposed⟩ => ⟨?_, entry, hexposed⟩⟩
  intro hle
  rw [exposed, List.getElem?_eq_none hle] at hexposed
  cases hexposed

/-- **The merge.** Sorted inputs are merged without an error, and what comes out is, in the order of
the keys, the newest version of each, without the tombstones that may be dropped. -/
theorem merge_spec (canDropTombstones : Bool) {inputs : List (List TableRecord)}
    (hsorted : ∀ l ∈ inputs, Sorted l) :
    ∃ output, merge canDropTombstones inputs = .ok output ∧
      Merged canDropTombstones inputs output :=
  mergeLoop_spec canDropTombstones _ le_rfl hsorted (exposes_initialHeap inputs)

/-- The newer `PUT` wins, and the tombstone of the second key is dropped with the version below. -/
example : merge true
    [[([1], ⟨[10], 0, .put⟩), ([2], ⟨[20], 1, .put⟩)],
      [([1], ⟨[11], 2, .put⟩), ([2], ⟨[], 3, .delete⟩)]] = .ok [([1], ⟨[11], 2, .put⟩)] := by
  decide

end Compactor

end Kronos
