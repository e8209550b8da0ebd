import Mathlib.Data.Int.Init
import Kronos.Types

/-!
# MurmurHash3

`MurmurHash3_x86_32` of `src/third_party/murmurhash3`, with every read of the key checked. The
Bloom filter passes it `static_cast<int>(key.size())`, so a key whose length modulo `2^32` has its
highest bit set arrives with a negative length. The loop over the blocks then starts above zero,
counts up, and leaves the key before it can get to zero. Only from `-3` to `-1` there is no block to
read, and the bytes of the tail are those at the key's beginning (`hash_ok`,
`hash_undefined`).
-/

namespace Kronos.MurmurHash3

open ByteString

/-! ## The hash -/

/-- `INT_MAX`. -/
def intMax : ℤ := 2^31 - 1

/-- `static_cast<int>` of a size. -/
def toInt (size : ℕ) : ℤ :=
  if size % 2^32 < 2^31 then (size % 2^32 : ℕ) else (size % 2^32 : ℕ) - 2^32

/-- `rotl32`. -/
def rotl32 (x r : UInt32) : UInt32 := (x <<< r) ||| (x >>> (32 - r))

/-- `fmix32`. -/
def fmix32 (h : UInt32) : UInt32 :=
  let h := h ^^^ (h >>> 16)
  let h := h * 0x85ebca6b
  let h := h ^^^ (h >>> 13)
  let h := h * 0xc2b2ae35
  h ^^^ (h >>> 16)

/-- The mixing of a block, or of the tail. -/
def mixed (k1 : UInt32) : UInt32 := rotl32 (k1 * 0xcc9e2d51) 15 * 0x1b873593

/-- What a read in front of the key or behind it is. -/
def outside : Failure := .undefined "read outside of the key"

/-- The bytes of the key behind a pointer, which is given by its distance from the first one. -/
def readKey (key : Bytes) (offset : ℤ) (size : ℕ) : Except Failure UInt32 :=
  if 0 ≤ offset ∧ offset + size ≤ key.length then
    .ok (UInt32.ofNat (ofLe (slice key offset.toNat size)))
  else .error outside

/-- The loop over the blocks, from an index on. -/
def body (key : Bytes) (nblocks i : ℤ) (h1 : UInt32) : Except Failure UInt32 :=
  if i = 0 then .ok h1
  else
    match readKey key (nblocks * 4 + i * 4) 4 with
    | .error failure => .error failure
    | .ok k1 =>
      if i ≥ intMax then .error (.undefined "signed integer overflow")
      else body key nblocks (i + 1) (rotl32 (h1 ^^^ mixed k1) 13 * 5 + 0xe6546b64)
termination_by (intMax - i).toNat

/-- The bytes of the tail, of which there are `rest`. -/
def tail (key : Bytes) (start : ℤ) (rest : ℕ) : Except Failure UInt32 := do
  match rest with
  | 0 => .ok 0
  | rest + 1 =>
    let k1 ← tail key start rest
    let byte ← readKey key (start + rest) 1
    .ok (k1 ^^^ (byte <<< UInt32.ofNat (8 * rest)))

/-- `MurmurHash3_x86_32`, as the Bloom filter calls it. -/
def hash (seed : UInt32) (key : Bytes) : Except Failure UInt32 := do
  let len := toInt key.length
  let nblocks := len.tdiv 4
  let h1 ← body key nblocks (-nblocks) seed
  let k1 ← tail key (nblocks * 4) (len % 4).toNat
  -- Without a tail, nothing is mixed in.
  let h1 := if len % 4 = 0 then h1 else h1 ^^^ mixed k1
  .ok (fmix32 (h1 ^^^ UInt32.ofNat key.length))

/-! ## Where it reads -/

/-- The length of a key keeps its sign as an `int`, or leaves no block to read. -/
def Fits (key : Bytes) : Prop := key.length % 2^32 < 2^31 ∨ 2^32 - 4 < key.length % 2^32

instance (key : Bytes) : Decidable (Fits key) := inferInstanceAs (Decidable (_ ∨ _))

/-- A read within the key succeeds. -/
theorem readKey_ok {key : Bytes} {offset : ℤ} {size : ℕ} (hlow : 0 ≤ offset)
    (hhigh : offset + size ≤ key.length) : ∃ k, readKey key offset size = .ok k :=
  ⟨_, if_pos ⟨hlow, hhigh⟩⟩

/-- From a block of the key on, the loop returns. -/
theorem body_ok {key : Bytes} {nblocks i : ℤ} {h1 : UInt32} (hlow : -nblocks ≤ i) (hhigh : i ≤ 0)
    (hfits : nblocks * 4 ≤ key.length) : ∃ h, body key nblocks i h1 = .ok h := by
  fun_induction body key nblocks i h1 with
  | case1 h1 => exact ⟨h1, rfl⟩
  | case2 i h1 hi failure hread =>
    obtain ⟨k, hk⟩ := @readKey_ok key (nblocks * 4 + i * 4) 4 (by omega) (by push_cast; omega)
    rw [hk] at hread
    cases hread
  | case3 i h1 hi k1 hread hmax =>
    unfold intMax at hmax
    omega
  | case4 i h1 hi k1 hread hmax ih => exact ih (by omega) (by omega)

/-- From above zero on, it does not. -/
theorem body_undefined {key : Bytes} {nblocks i : ℤ} {h1 : UInt32} (hi : 0 < i) :
    ∃ what, body key nblocks i h1 = .error (.undefined what) := by
  fun_induction body key nblocks i h1 with
  | case1 h1 => exact absurd hi (lt_irrefl 0)
  | case2 i h1 hne failure hread =>
    unfold readKey at hread
    split_ifs at hread
    cases hread
    exact ⟨_, rfl⟩
  | case3 i h1 hne k1 hread hmax => exact ⟨_, rfl⟩
  | case4 i h1 hne k1 hread hmax ih => exact ih (by omega)

/-- So does the read of the last bytes, if they lie in the key. -/
theorem tail_ok {key : Bytes} {start : ℤ} {rest : ℕ} (hlow : 0 ≤ start)
    (hhigh : start + rest ≤ key.length) : ∃ k, tail key start rest = .ok k := by
  induction rest with
  | zero => exact ⟨0, rfl⟩
  | succ rest ih =>
    obtain ⟨k1, hk1⟩ := ih (by omega)
    obtain ⟨byte, hbyte⟩ := @readKey_ok key (start + rest) 1 (by omega) (by push_cast; omega)
    exact ⟨_, by rw [tail, hk1, ok_bind, hbyte, ok_bind]⟩

/-- A key whose length fits is hashed. -/
theorem hash_ok {seed : UInt32} {key : Bytes} (h : Fits key) : ∃ k, hash seed key = .ok k := by
  have hmod : key.length % 2^32 ≤ key.length := Nat.mod_le _ _
  -- The loop reads the blocks of a beginning of the key, and the tail is behind them.
  have hblocks : 0 ≤ (toInt key.length).tdiv 4 ∧
      (toInt key.length).tdiv 4 * 4 + ((toInt key.length % 4).toNat : ℤ) ≤ key.length := by
    unfold toInt
    rcases h with hsmall | hlarge
    · rw [if_pos hsmall, Int.tdiv_eq_ediv_of_nonneg (by omega)]
      omega
    · rw [if_neg (by omega)]
      have hneg :
        ((key.length % 2^32 : ℕ) : ℤ) - 2^32 = -(2^32 - (key.length % 2^32 : ℕ)) := by ring
      rw [hneg, Int.neg_tdiv, Int.tdiv_eq_ediv_of_nonneg (by omega)]
      omega
  obtain ⟨hpos, hfits⟩ := hblocks
  obtain ⟨h1, hbody⟩ := @body_ok key ((toInt key.length).tdiv 4) (-(toInt key.length).tdiv 4) seed
    (le_refl _) (by omega) (by omega)
  obtain ⟨k1, htail⟩ := @tail_ok key ((toInt key.length).tdiv 4 * 4) (toInt key.length % 4).toNat
    (by omega) hfits
  exact ⟨_, by rw [hash, hbody, ok_bind, htail, ok_bind]⟩

/-- The hash of `test`. -/
example : hash 0 [0x74, 0x65, 0x73, 0x74] = .ok 0xba6bd213 := by decide +kernel

/-- Hashing another one is undefined. -/
theorem hash_undefined (seed : UInt32) {key : Bytes} (h : ¬Fits key) :
    ∃ what, hash seed key = .error (.undefined what) := by
  have hlt : key.length % 2^32 < 2^32 := Nat.mod_lt _ (by norm_num)
  unfold Fits at h
  -- There are less than no blocks, so that the loop starts above zero.
  have hneg : 0 < -(toInt key.length).tdiv 4 := by
    unfold toInt
    rw [if_neg (by omega)]
    have hneg : ((key.length % 2^32 : ℕ) : ℤ) - 2^32 = -(2^32 - (key.length % 2^32 : ℕ)) := by ring
    rw [hneg, Int.neg_tdiv, Int.tdiv_eq_ediv_of_nonneg (by omega)]
    omega
  obtain ⟨what, hbody⟩ := @body_undefined key ((toInt key.length).tdiv 4) _ seed hneg
  exact ⟨what, by rw [hash, hbody]; rfl⟩

end Kronos.MurmurHash3
