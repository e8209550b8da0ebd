import Kronos.MurmurHash3

/-!
# The Bloom filter

`bloom_filter` of `src/bloom_filter.cpp`: the sizing of a new filter, the state restored from a
file, and the probes of `add` and `mayContain`. A filter whose bits fit its bit count has no false
negatives for the keys that are hashed: `add` sets the bits that `mayContain` tests, and no `add`
clears one (`mayContain_addAll`). Adding a key that is not hashed is undefined (`add_undefined`).
-/

namespace Kronos

/-! ## The hash of a key -/

/-- `bloom_filter_seed`. -/
def bloomFilterSeed : UInt32 := 0xbc9f1d34

/-- The hash of the code: the vendored `MurmurHash3_x86_32` with the seed of the Bloom filter. -/
def Hashing.vendored (crc32 : Bytes → UInt32) : Hashing where
  crc32 := crc32
  murmurHash3 key := (MurmurHash3.hash bloomFilterSeed key).toOption

/-- It is defined for the keys whose length fits. -/
theorem Hashing.hashes_vendored {crc32 : Bytes → UInt32} {key : Bytes} :
    (Hashing.vendored crc32).Hashes key ↔ MurmurHash3.Fits key := by
  unfold Hashing.Hashes Hashing.vendored
  dsimp only
  by_cases hfits : MurmurHash3.Fits key
  · obtain ⟨hash, hhash⟩ := @MurmurHash3.hash_ok bloomFilterSeed key hfits
    rw [hhash]
    exact iff_of_true rfl hfits
  · obtain ⟨what, hhash⟩ := MurmurHash3.hash_undefined bloomFilterSeed hfits
    rw [hhash]
    exact iff_of_false Bool.false_ne_true hfits

/-- The hash of the code, with the sum of the bytes in the place of zlib's `crc32`. -/
abbrev vendoredSum : Hashing := .vendored byteSum.crc32

/-- The state of a `bloom_filter`. -/
structure BloomFilter where
  bitCount : ℕ
  bits : Bytes
  probeCount : ℕ
  deriving DecidableEq, Repr

namespace BloomFilter

/-! ## Construction -/

/-- A natural number as a `double`: rounded to 53 significant bits, to the nearest of them, and
halfway to the even one. -/
def roundToDouble (n : ℕ) : ℕ :=
  let unit := 2 ^ (n.log2 + 1 - 53)
  let quotient := n / unit
  let remainder := n % unit
  if 2 * remainder < unit ∨ 2 * remainder = unit ∧ quotient % 2 = 0 then quotient * unit
  else (quotient + 1) * unit

/-- `std::round(bits_per_key * 0.693)`. The `double` nearest to `0.693` is
`6241989083535507 / 2^53`. -/
def roundedProbes (bitsPerKey : ℕ) : ℕ :=
  (roundToDouble (roundToDouble bitsPerKey * 6241989083535507) + 2^52) / 2^53

/-- The constructor of a new filter. Products and sums have 64 bits. -/
def new (bitsPerKey keyCount : ℕ) : Except Failure BloomFilter :=
  if keyCount = 0 ∨ bitsPerKey = 0 then
    .error (.exception "Bloom filter key count & bits per key must be greater than zero")
  else
    let bitCount := bitsPerKey * keyCount % 2^64
    let byteCount := (bitCount + 7) % 2^64 / 8
    let probeCount := roundedProbes bitsPerKey
    .ok ⟨bitCount, List.replicate byteCount 0, if probeCount = 0 then 1 else probeCount⟩

/-- The constructor over a persisted state. -/
def restore (bitCount probeCount : ℕ) (bits : Bytes) : Except Failure BloomFilter :=
  if bitCount = 0 ∨ probeCount = 0 ∨ bits = [] then
    .error (.exception "Invalid persisted Bloom filter state")
  else .ok ⟨bitCount, bits, probeCount⟩

/-! ## Probes -/

/-- The hashes of the probes of a key: `h`, `h + delta`, and so on. -/
def probes (delta : UInt32) : ℕ → UInt32 → List UInt32
  | 0, _ => []
  | count + 1, h => h :: probes delta count (h + delta)

/-- The hashes of the probes of a key. -/
def keyProbes (H : Hashing) (filter : BloomFilter) (key : Bytes) : Except Failure (List UInt32) :=
  match H.murmurHash3 key with
  | none => .error MurmurHash3.outside
  | some h =>
    let delta := (h >>> 17) ||| (h <<< 15)
    .ok (probes delta filter.probeCount h)

/-- `1 << bit_offset`. -/
def bitMask (position : ℕ) : UInt8 := 1 <<< UInt8.ofNat (position % 8)

/-- One probe of `add`: the bit of a hash is set. -/
def setBit (filter : BloomFilter) (h : UInt32) : Except Failure BloomFilter :=
  if filter.bitCount = 0 then .error (.undefined "remainder of a division by zero")
  else
    let position := h.toNat % filter.bitCount
    if position / 8 < filter.bits.length then
      .ok { filter with bits := filter.bits.modify (position / 8) (· ||| bitMask position) }
    else .error (.undefined "Bloom filter byte out of range")

/-- `add`. -/
def add (H : Hashing) (filter : BloomFilter) (key : Bytes) : Except Failure BloomFilter := do
  let hs ← keyProbes H filter key
  hs.foldlM setBit filter

/-- Whether the bit of a hash is set. -/
def testBit (filter : BloomFilter) (h : UInt32) : Bool :=
  let position := h.toNat % filter.bitCount
  filter.bits.getD (position / 8) 0 &&& bitMask position ≠ 0

/-- `mayContain`, over a filter whose bits fit its bit count. -/
def mayContain (H : Hashing) (filter : BloomFilter) (key : Bytes) : Except Failure Bool := do
  let hs ← keyProbes H filter key
  .ok (hs.all filter.testBit)

/-- The probes of a key that is hashed. -/
theorem keyProbes_ok {H : Hashing} (filter : BloomFilter) {key : Bytes} (h : H.Hashes key) :
    ∃ hs, keyProbes H filter key = .ok hs := by
  obtain ⟨hash, hhash⟩ := h.exists_hash
  rw [keyProbes, hhash]
  exact ⟨_, rfl⟩

/-- Only such a key has probes. -/
theorem hashes_of_keyProbes {H : Hashing} {filter : BloomFilter} {key : Bytes} {hs : List UInt32}
    (h : keyProbes H filter key = .ok hs) : H.Hashes key := by
  unfold keyProbes at h
  unfold Hashing.Hashes
  cases hhash : H.murmurHash3 key with
  | none =>
    rw [hhash] at h
    cases h
  | some hash => rfl

/-- The filter has an answer for a key that is hashed. -/
theorem mayContain_returns {H : Hashing} (filter : BloomFilter) {key : Bytes} (h : H.Hashes key) :
    ∃ answer, filter.mayContain H key = .ok answer := by
  obtain ⟨hs, hprobes⟩ := keyProbes_ok filter h
  exact ⟨_, by rw [mayContain, hprobes, ok_bind]⟩

/-- It has one only for such a key. -/
theorem hashes_of_mayContain {H : Hashing} {filter : BloomFilter} {key : Bytes} {answer : Bool}
    (h : filter.mayContain H key = .ok answer) : H.Hashes key := by
  obtain ⟨hs, hprobes, -⟩ := bind_eq_ok h
  exact hashes_of_keyProbes hprobes

/-- Adding a key that is not hashed is undefined. -/
theorem add_undefined {H : Hashing} (filter : BloomFilter) {key : Bytes} (h : ¬H.Hashes key) :
    add H filter key = .error MurmurHash3.outside := by
  unfold Hashing.Hashes at h
  rw [Option.not_isSome_iff_eq_none] at h
  rw [add, keyProbes, h]
  rfl

/-- Keys that were added are hashed. -/
theorem hashes_of_addAll {H : Hashing} {keys : List Bytes} :
    ∀ {filter filter' : BloomFilter}, keys.foldlM (add H) filter = .ok filter' →
      ∀ key ∈ keys, H.Hashes key := by
  induction keys with
  | nil => exact fun _ key hkey => absurd hkey List.not_mem_nil
  | cons key keys ih =>
    intro filter filter' h
    rw [List.foldlM_cons] at h
    obtain ⟨first, hadd, hrest⟩ := bind_eq_ok h
    obtain ⟨hs, hprobes, -⟩ := bind_eq_ok hadd
    exact List.forall_mem_cons.2 ⟨hashes_of_keyProbes hprobes, ih hrest⟩

/-! ## No false negatives -/

/-- The bits fit the bit count, which is not zero. -/
def Sized (filter : BloomFilter) : Prop :=
  0 < filter.bitCount ∧ filter.bits.length = (filter.bitCount + 7) / 8

/-- A mask has its bit. -/
theorem bitMask_ne_zero (position : ℕ) : bitMask position ≠ 0 := by
  have hall : ∀ i < 8, (1 : UInt8) <<< UInt8.ofNat i ≠ 0 := by decide
  exact hall _ (Nat.mod_lt _ (by norm_num))

/-- Setting a bit of a byte clears none. -/
theorem or_and_ne_zero {b m : UInt8} (m' : UInt8) (h : b &&& m ≠ 0) : (b ||| m') &&& m ≠ 0 := by
  have hdistrib : (b ||| m') &&& m = b &&& m ||| m' &&& m := by
    rw [← UInt8.toBitVec_inj]
    simp only [UInt8.toBitVec_and, UInt8.toBitVec_or]
    ext i hi
    simp [Bool.and_or_distrib_right]
  rw [hdistrib]
  exact fun h' => h (UInt8.or_eq_zero_iff.1 h').1

/-- A byte of the bits, after one of them was changed. -/
theorem getD_modify (bits : Bytes) (i j : ℕ) (f : UInt8 → UInt8) (hi : i < bits.length) :
    (bits.modify i f).getD j 0 = if i = j then f (bits.getD j 0) else bits.getD j 0 := by
  rw [List.getD_eq_getElem?_getD, List.getD_eq_getElem?_getD, List.getElem?_modify]
  by_cases hij : i = j
  · subst hij
    simp [List.getElem?_eq_getElem hi]
  · simp [hij]

/-- In a filter whose bits fit, a probe of `add` sets the bit of its hash and clears none. -/
theorem setBit_spec {filter : BloomFilter} (h : UInt32) (hsized : filter.Sized) :
    ∃ filter', filter.setBit h = .ok filter' ∧ filter'.Sized ∧
      filter'.bitCount = filter.bitCount ∧ filter'.probeCount = filter.probeCount ∧
      filter'.testBit h ∧ ∀ h', filter.testBit h' → filter'.testBit h' := by
  obtain ⟨hpos, hlen⟩ := hsized
  have hbyte : h.toNat % filter.bitCount / 8 < filter.bits.length := by
    have := Nat.mod_lt h.toNat hpos
    omega
  rw [setBit, if_neg (by omega), if_pos hbyte]
  refine ⟨_, rfl, ⟨hpos, by simpa using hlen⟩, rfl, rfl, ?_, fun h' hset => ?_⟩
  · have hmask :
      bitMask (h.toNat % filter.bitCount) &&& bitMask (h.toNat % filter.bitCount) ≠ 0 := by
      rw [UInt8.and_self]
      exact bitMask_ne_zero _
    simp only [testBit, getD_modify _ _ _ _ hbyte, if_true, decide_eq_true_eq]
    rw [UInt8.or_comm]
    exact or_and_ne_zero _ hmask
  · simp only [testBit, getD_modify _ _ _ _ hbyte, decide_eq_true_eq] at hset ⊢
    split_ifs
    · exact or_and_ne_zero _ hset
    · exact hset

/-- So does a run of probes. -/
theorem foldlM_setBit_spec (hs : List UInt32) : ∀ {filter : BloomFilter}, filter.Sized →
    ∃ filter', hs.foldlM setBit filter = .ok filter' ∧ filter'.Sized ∧
      filter'.bitCount = filter.bitCount ∧ filter'.probeCount = filter.probeCount ∧
      (∀ h ∈ hs, filter'.testBit h) ∧ ∀ h, filter.testBit h → filter'.testBit h := by
  induction hs with
  | nil =>
    intro filter hsized
    exact ⟨filter, rfl, hsized, rfl, rfl, by simp, fun _ h => h⟩
  | cons h hs ih =>
    intro filter hsized
    obtain ⟨first, hfirst, hsized₁, hbits₁, hprobes₁, hset₁, hkeep₁⟩ := setBit_spec h hsized
    obtain ⟨last, hlast, hsized₂, hbits₂, hprobes₂, hset₂, hkeep₂⟩ := ih hsized₁
    refine ⟨last, ?_, hsized₂, hbits₂.trans hbits₁, hprobes₂.trans hprobes₁, ?_,
      fun h' hset => hkeep₂ h' (hkeep₁ h' hset)⟩
    · rw [List.foldlM_cons, hfirst]
      exact hlast
    · rintro h' (_ | ⟨_, hmem⟩)
      · exact hkeep₂ h hset₁
      · exact hset₂ h' hmem

/-- The probes of a key depend on the probe count of a filter only. -/
theorem keyProbes_congr (H : Hashing) {filter filter' : BloomFilter}
    (h : filter'.probeCount = filter.probeCount) (key : Bytes) :
    keyProbes H filter' key = keyProbes H filter key := by
  rw [keyProbes, keyProbes, h]

/-- Adding keys that are hashed to a filter whose bits fit makes it answer that it may contain each
of them. -/
theorem mayContain_addAll {H : Hashing} {keys : List Bytes} (hkeys : ∀ key ∈ keys, H.Hashes key) :
    ∀ {filter : BloomFilter}, filter.Sized →
      ∃ filter', keys.foldlM (add H) filter = .ok filter' ∧ filter'.Sized ∧
        filter'.bitCount = filter.bitCount ∧ filter'.probeCount = filter.probeCount ∧
        (∀ key ∈ keys, filter'.mayContain H key = .ok true) ∧
        ∀ h, filter.testBit h → filter'.testBit h := by
  induction keys with
  | nil =>
    intro filter hsized
    exact ⟨filter, rfl, hsized, rfl, rfl, by simp, fun _ h => h⟩
  | cons key keys ih =>
    intro filter hsized
    obtain ⟨hkey, hrest⟩ := List.forall_mem_cons.1 hkeys
    obtain ⟨hs, hhashes⟩ := keyProbes_ok filter hkey
    obtain ⟨first, hfirst, hsized₁, hbits₁, hprobes₁, hset₁, hkeep₁⟩ := foldlM_setBit_spec hs hsized
    obtain ⟨last, hlast, hsized₂, hbits₂, hprobes₂, hset₂, hkeep₂⟩ := ih hrest hsized₁
    have hprobes := hprobes₂.trans hprobes₁
    refine ⟨last, ?_, hsized₂, hbits₂.trans hbits₁, hprobes, ?_,
      fun h hset => hkeep₂ h (hkeep₁ h hset)⟩
    · rw [List.foldlM_cons, add, hhashes, ok_bind, hfirst]
      exact hlast
    · rintro key' (_ | ⟨_, hmem⟩)
      · rw [mayContain, keyProbes_congr H hprobes, hhashes, ok_bind, List.all_eq_true.2]
        exact fun h hmem => hkeep₂ h (hset₁ h hmem)
      · exact hset₂ key' hmem

/-- Adding keys throws no exception: where it goes wrong, the behaviour is undefined. -/
theorem foldlM_add_ne_exception (H : Hashing) (keys : List Bytes) (filter : BloomFilter)
    (message : String) : keys.foldlM (add H) filter ≠ .error (.exception message) := by
  have hsetBit : ∀ (filter : BloomFilter) h, filter.setBit h ≠ .error (.exception message) := by
    intro filter h
    unfold setBit
    dsimp only
    split_ifs <;> simp
  have hprobes : ∀ (hs : List UInt32) (filter : BloomFilter),
      hs.foldlM setBit filter ≠ .error (.exception message) := by
    intro hs
    induction hs with
    | nil => exact fun filter h => by cases h
    | cons h hs ih =>
      intro filter heq
      rw [List.foldlM_cons] at heq
      cases hstep : filter.setBit h with
      | ok filter' =>
        rw [hstep] at heq
        exact ih filter' heq
      | error failure =>
        rw [hstep] at heq
        cases heq
        exact hsetBit filter h hstep
  induction keys generalizing filter with
  | nil => exact fun h => by cases h
  | cons key keys ih =>
    intro heq
    rw [List.foldlM_cons] at heq
    cases hstep : add H filter key with
    | ok filter' =>
      rw [hstep] at heq
      exact ih filter' heq
    | error failure =>
      rw [hstep] at heq
      cases heq
      by_cases hhashes : H.Hashes key
      · obtain ⟨hs, hhs⟩ := keyProbes_ok filter hhashes
        rw [add, hhs, ok_bind] at hstep
        exact hprobes hs filter hstep
      · cases (add_undefined filter hhashes).symm.trans hstep

/-! ## The size of a new filter -/

/-- A number below `2^53` is a `double`. -/
theorem roundToDouble_of_lt {n : ℕ} (h : n < 2^53) : roundToDouble n = n := by
  have hlog : n.log2 + 1 - 53 = 0 := by
    rcases Nat.eq_zero_or_pos n with rfl | hn
    · rfl
    · have := (Nat.log2_lt hn.ne').2 h
      omega
  rw [roundToDouble, hlog, pow_zero, Nat.mod_one, Nat.div_one, if_pos (by simp), Nat.mul_one]

/-- Rounding to a `double` adds a quarter at most. -/
theorem roundToDouble_le (n : ℕ) : 4 * roundToDouble n ≤ 5 * n := by
  rcases Nat.lt_or_ge n (2^53) with hsmall | hlarge
  · rw [roundToDouble_of_lt hsmall]
    omega
  unfold roundToDouble
  extract_lets unit quotient remainder
  have hdiv : unit * quotient + remainder = n := Nat.div_add_mod n unit
  rw [Nat.mul_comm] at hdiv
  split_ifs with hdown
  · omega
  -- Rounding up happens among more than four units only.
  have hquotient : 4 ≤ quotient := by
    have hn : n ≠ 0 := by omega
    have hlog : 53 ≤ n.log2 := (Nat.le_log2 hn).2 hlarge
    have hpow : 2^52 * unit ≤ n := by
      rw [show unit = 2 ^ (n.log2 + 1 - 53) from rfl, ← pow_add,
        show 52 + (n.log2 + 1 - 53) = n.log2 by omega]
      exact Nat.log2_self_le hn
    have hle : 2^52 ≤ quotient := (Nat.le_div_iff_mul_le (Nat.two_pow_pos _)).2 hpow
    omega
  calc 4 * ((quotient + 1) * unit) = (4 * quotient + 4) * unit := by ring
    _ ≤ (5 * quotient) * unit := Nat.mul_le_mul_right _ (by omega)
    _ ≤ 5 * n := by rw [Nat.mul_assoc]; omega

/-- There are no more probes than bits for a key, up to rounding. -/
theorem roundedProbes_lt {bitsPerKey : ℕ} (h : bitsPerKey < 2^32) :
    roundedProbes bitsPerKey < 2^32 := by
  have hproduct := roundToDouble_le (bitsPerKey * 6241989083535507)
  have hexact : roundToDouble bitsPerKey = bitsPerKey := roundToDouble_of_lt (by omega)
  rw [roundedProbes, hexact]
  omega

/-- A new filter whose bits are counted with 64 bits is sized. -/
theorem new_sized {bitsPerKey keyCount : ℕ} (hbits : 1 ≤ bitsPerKey) (hkeys : 1 ≤ keyCount)
    (hfits : bitsPerKey * keyCount + 7 < 2^64) :
    ∃ filter, new bitsPerKey keyCount = .ok filter ∧ filter.Sized ∧
      filter.bitCount = bitsPerKey * keyCount ∧
      filter.probeCount = if roundedProbes bitsPerKey = 0 then 1 else roundedProbes bitsPerKey := by
  have hmod : bitsPerKey * keyCount % 2^64 = bitsPerKey * keyCount := Nat.mod_eq_of_lt (by omega)
  have hpos : 0 < bitsPerKey * keyCount := Nat.mul_pos hbits hkeys
  rw [new, if_neg (by omega)]
  refine ⟨_, rfl, ⟨by rw [hmod]; exact hpos, ?_⟩, hmod, rfl⟩
  simp only [hmod, List.length_replicate]
  rw [Nat.mod_eq_of_lt (by omega)]

/-- A new filter that needs no more than 32 bits to count its own is sized, and its probe count
needs no more either. -/
theorem new_spec {bitsPerKey keyCount : ℕ} (hbits : 1 ≤ bitsPerKey) (hkeys : 1 ≤ keyCount)
    (hfits : bitsPerKey * keyCount < 2^32) :
    ∃ filter, new bitsPerKey keyCount = .ok filter ∧ filter.Sized ∧
      filter.bitCount = bitsPerKey * keyCount ∧ 0 < filter.probeCount ∧
      filter.probeCount < 2^32 := by
  have hbound : bitsPerKey < 2^32 := lt_of_le_of_lt (Nat.le_mul_of_pos_right _ hkeys) hfits
  have hprobes := roundedProbes_lt hbound
  obtain ⟨filter, hnew, hsized, hbitCount, hprobeCount⟩ := new_sized hbits hkeys (by omega)
  refine ⟨filter, hnew, hsized, hbitCount, ?_, ?_⟩
  · rw [hprobeCount]
    split_ifs <;> omega
  · rw [hprobeCount]
    split_ifs <;> omega

end BloomFilter

end Kronos
