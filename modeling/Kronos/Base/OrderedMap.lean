import Mathlib.Algebra.GroupWithZero.Nat
import Mathlib.Algebra.Order.BigOperators.Group.List
import Mathlib.Data.List.Sort

/-!
# Ordered maps

Finite maps over a linear order, as association lists with strictly increasing keys: what a
`std::map` holds, and what a sorted run of key-value pairs is. `Sorted` is the invariant of such a
list, under which `List.lookup` answers by membership; an `OrderedMap` is a list with its
invariant. Looking up behind an insertion is `lookup_insert`, what an insertion adds to a sum over
the entries is `weight_insert`, and a map is what it answers (`ext_lookup`).
-/

section Lookup

variable {K V : Type} [BEq K] [LawfulBEq K]

/-- Looking a key up in a list with a first entry. -/
theorem lookup_cons_eq [DecidableEq K] (k k' : K) (v : V) (l : List (K × V)) :
    ((k, v) :: l).lookup k' = if k' = k then some v else l.lookup k' := by
  rw [List.lookup_cons]
  by_cases h : k' = k
  · simp [h]
  · have hfalse : (k' == k) = false := by simpa using h
    simp only [hfalse, if_neg h]

/-- A key that no entry has is not found. -/
theorem lookup_eq_none_of_forall_ne {l : List (K × V)} {k : K} (h : ∀ r ∈ l, r.1 ≠ k) :
    l.lookup k = none :=
  List.lookup_eq_none_iff.2 fun r hr => by simpa using (h r hr).symm

/-- Entries with other keys before a list do not change what it answers. -/
theorem lookup_append_of_forall_ne {l l' : List (K × V)} {k : K} (h : ∀ r ∈ l, r.1 ≠ k) :
    (l ++ l').lookup k = l'.lookup k := by
  rw [List.lookup_append, lookup_eq_none_of_forall_ne h, Option.none_or]

/-- Entries with other keys behind a list do not change what it answers. -/
theorem lookup_append_of_forall_ne_right {l l' : List (K × V)} {k : K} (h : ∀ r ∈ l', r.1 ≠ k) :
    (l ++ l').lookup k = l.lookup k := by
  rw [List.lookup_append, lookup_eq_none_of_forall_ne h, Option.or_none]

end Lookup

/-- The keys increase strictly. -/
def Sorted {K V : Type} [LT K] (l : List (K × V)) : Prop := l.Pairwise (·.1 < ·.1)

namespace Sorted

variable {K V : Type} [LinearOrder K]

/-- The entries behind the first are sorted. -/
theorem tail {r : K × V} {l : List (K × V)} (h : Sorted (r :: l)) : Sorted l :=
  List.Pairwise.of_cons h

/-- The first key is below the others. -/
theorem lt_of_mem {r r' : K × V} {l : List (K × V)} (h : Sorted (r :: l)) (hmem : r' ∈ l) :
    r.1 < r'.1 := List.rel_of_pairwise_cons h hmem

/-- The beginning of a sorted list is sorted. -/
theorem append_left {l l' : List (K × V)} (h : Sorted (l ++ l')) : Sorted l :=
  (List.pairwise_append.1 h).1

/-- So is its end. -/
theorem append_right {l l' : List (K × V)} (h : Sorted (l ++ l')) : Sorted l' :=
  (List.pairwise_append.1 h).2.1

/-- The keys of the beginning are below those of the end. -/
theorem lt_of_append {l l' : List (K × V)} (h : Sorted (l ++ l')) :
    ∀ r ∈ l, ∀ r' ∈ l', r.1 < r'.1 := (List.pairwise_append.1 h).2.2

/-- In a sorted list, a key is looked up by membership. -/
theorem lookup_eq_some_iff [BEq K] [LawfulBEq K] {l : List (K × V)} (h : Sorted l) {k : K}
    {v : V} : l.lookup k = some v ↔ (k, v) ∈ l := by
  induction l with
  | nil => simp
  | cons r l ih =>
    obtain ⟨k', v'⟩ := r
    rw [List.mem_cons]
    by_cases hk : k = k'
    · subst hk
      have hnot : (k, v) ∉ l := fun hmem => lt_irrefl k (h.lt_of_mem hmem)
      rw [List.lookup_cons_self]
      simp [hnot, eq_comm]
    · have hne : (k, v) ≠ (k', v') := fun heq => hk (congrArg Prod.fst heq)
      have hfalse : (k == k') = false := by simpa using hk
      simp only [List.lookup_cons, hfalse, ih h.tail, hne, false_or]

end Sorted

namespace Sorted

variable {K V : Type} [LinearOrder K]

/-- The first key is the least one. -/
theorem first_le {r r' : K × V} {l : List (K × V)} (h : Sorted (r :: l)) (hmem : r' ∈ r :: l) :
    r.1 ≤ r'.1 := by
  rcases List.mem_cons.1 hmem with rfl | hmem
  · exact le_rfl
  · exact (h.lt_of_mem hmem).le

/-- The last key is the greatest one. -/
theorem le_last {r r' : K × V} {l : List (K × V)} (h : Sorted l) (hlast : r ∈ l.getLast?)
    (hmem : r' ∈ l) : r'.1 ≤ r.1 := by
  obtain ⟨front, rfl⟩ : ∃ front, l = front ++ [r] := List.getLast?_eq_some_iff.1 hlast
  rcases List.mem_append.1 hmem with hmem | hmem
  · exact (h.lt_of_append r' hmem r (.head _)).le
  · rw [List.mem_singleton.1 hmem]

end Sorted

/-- A finite map over a linear order. -/
@[ext]
structure OrderedMap (K V : Type) [LT K] where
  entries : List (K × V)
  sorted : Sorted entries

namespace OrderedMap

variable {K V : Type} [LinearOrder K]

/-- The empty map. -/
def empty : OrderedMap K V := ⟨[], .nil⟩

/-- The value of a key. -/
def lookup [BEq K] (m : OrderedMap K V) (k : K) : Option V := m.entries.lookup k

/-- Inserting an entry in its place in a sorted list, or in the place of the entry with its key. -/
def insertEntry (k : K) (v : V) : List (K × V) → List (K × V)
  | [] => [(k, v)]
  | (k', v') :: l =>
    if k < k' then (k, v) :: (k', v') :: l
    else if k = k' then (k, v) :: l
    else (k', v') :: insertEntry k v l

/-- What an insertion puts into a list. -/
theorem mem_insertEntry {k : K} {v : V} {r : K × V} {l : List (K × V)}
    (h : r ∈ insertEntry k v l) : r = (k, v) ∨ r ∈ l := by
  induction l with
  | nil => exact .inl (List.mem_singleton.1 h)
  | cons r' l ih =>
    obtain ⟨k', v'⟩ := r'
    rw [insertEntry] at h
    split_ifs at h with hlt heq
    · exact List.mem_cons.1 h
    · exact (List.mem_cons.1 h).imp_right (List.mem_cons_of_mem _)
    · rcases List.mem_cons.1 h with rfl | h
      · exact .inr (.head _)
      · exact (ih h).imp_right (List.mem_cons_of_mem _)

/-- An insertion keeps a list sorted. -/
theorem sorted_insertEntry (k : K) (v : V) {l : List (K × V)} (h : Sorted l) :
    Sorted (insertEntry k v l) := by
  induction l with
  | nil => exact List.pairwise_singleton _ _
  | cons r l ih =>
    obtain ⟨k', v'⟩ := r
    rw [insertEntry]
    split_ifs with hlt heq
    · exact List.Pairwise.cons (fun r hr => hlt.trans_le (h.first_le hr)) h
    · subst heq
      exact List.Pairwise.cons (fun r hr => h.lt_of_mem hr) h.tail
    · refine List.Pairwise.cons (fun r hr => ?_) (ih h.tail)
      rcases mem_insertEntry hr with rfl | hr
      · exact lt_of_le_of_ne (not_lt.1 hlt) (Ne.symm heq)
      · exact h.lt_of_mem hr

/-- Inserting an entry. -/
def insert (m : OrderedMap K V) (k : K) (v : V) : OrderedMap K V :=
  ⟨insertEntry k v m.entries, sorted_insertEntry k v m.sorted⟩

variable [BEq K] [LawfulBEq K]

/-- A key is looked up by membership. -/
theorem lookup_eq_some_iff {m : OrderedMap K V} {k : K} {v : V} :
    m.lookup k = some v ↔ (k, v) ∈ m.entries := m.sorted.lookup_eq_some_iff

/-- Looking up behind an insertion. -/
theorem lookup_insertEntry (k : K) (v : V) (k' : K) (l : List (K × V)) :
    (insertEntry k v l).lookup k' = if k' = k then some v else l.lookup k' := by
  induction l with
  | nil => rw [insertEntry, lookup_cons_eq]
  | cons r l ih =>
    obtain ⟨k'', v''⟩ := r
    rw [insertEntry]
    by_cases hlt : k < k''
    · rw [if_pos hlt, lookup_cons_eq]
    rw [if_neg hlt]
    by_cases heq : k = k''
    · rw [if_pos heq, lookup_cons_eq]
      by_cases hk : k' = k
      · rw [if_pos hk, if_pos hk]
      · rw [if_neg hk, if_neg hk, lookup_cons_eq, if_neg (heq ▸ hk)]
    rw [if_neg heq, lookup_cons_eq, lookup_cons_eq, ih]
    by_cases hk : k' = k
    · rw [if_pos hk, if_pos hk, if_neg (hk ▸ heq)]
    · rw [if_neg hk, if_neg hk]

/-- The same, for maps. -/
theorem lookup_insert (m : OrderedMap K V) (k : K) (v : V) (k' : K) :
    (m.insert k v).lookup k' = if k' = k then some v else m.lookup k' :=
  lookup_insertEntry k v k' m.entries

/-- A map is what it answers. -/
theorem ext_lookup {m m' : OrderedMap K V} (h : ∀ k, m.lookup k = m'.lookup k) : m = m' := by
  have hirrefl : Std.Irrefl fun r r' : K × V => r.1 < r'.1 := ⟨fun r => lt_irrefl r.1⟩
  apply OrderedMap.ext
  refine List.Pairwise.eq_of_mem_iff m.sorted m'.sorted fun r => ?_
  rw [← lookup_eq_some_iff, ← lookup_eq_some_iff, h]

/-! ## Sums over the entries -/

/-- The sum of a size over the entries. -/
def weight (size : K → V → ℕ) (m : OrderedMap K V) : ℕ :=
  (m.entries.map fun r => size r.1 r.2).sum

/-- An insertion changes the sum of the sizes by the size of the new entry, less that of the entry
which it replaces. -/
theorem sum_insertEntry (size : K → V → ℕ) (k : K) (v : V) {l : List (K × V)} (h : Sorted l) :
    ((insertEntry k v l).map fun r => size r.1 r.2).sum + (l.lookup k).elim 0 (size k) =
      (l.map fun r => size r.1 r.2).sum + size k v := by
  induction l with
  | nil => simp [insertEntry]
  | cons r l ih =>
    obtain ⟨k', v'⟩ := r
    rw [insertEntry, lookup_cons_eq]
    by_cases hlt : k < k'
    · -- All keys of the list are greater.
      have hnone : l.lookup k = none :=
        lookup_eq_none_of_forall_ne fun r hr => (hlt.trans (h.lt_of_mem hr)).ne'
      rw [if_pos hlt, if_neg hlt.ne, hnone]
      simp only [List.map_cons, List.sum_cons, Option.elim_none]
      omega
    rw [if_neg hlt]
    by_cases heq : k = k'
    · rw [if_pos heq, if_pos heq]
      subst heq
      simp only [List.map_cons, List.sum_cons, Option.elim_some]
      omega
    · have hrest := ih h.tail
      rw [if_neg heq, if_neg heq]
      simp only [List.map_cons, List.sum_cons]
      omega

/-- An insertion adds the size of its entry, and takes away that of the entry that it replaces. -/
theorem weight_insert (size : K → V → ℕ) (m : OrderedMap K V) (k : K) (v : V) :
    (m.insert k v).weight size + (m.lookup k).elim 0 (size k) = m.weight size + size k v :=
  sum_insertEntry size k v m.sorted

/-- No entry is larger than the sum. -/
theorem size_le_weight (size : K → V → ℕ) {m : OrderedMap K V} {k : K} {v : V}
    (h : m.lookup k = some v) : size k v ≤ m.weight size := by
  obtain ⟨front, back, hsplit⟩ := List.append_of_mem (lookup_eq_some_iff.1 h)
  rw [weight, hsplit, List.map_append, List.map_cons, List.sum_append, List.sum_cons]
  dsimp only
  omega

end OrderedMap
