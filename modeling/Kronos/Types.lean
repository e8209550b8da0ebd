import Kronos.Base.ByteString

/-!
# The shared types

The types of `include/kronos/types.hpp`, and what the model takes as given. Keys and values are
byte strings, and sequence numbers and sizes are natural numbers. Where the code's width matters,
its bound or its reduction is written out.

zlib's `crc32` and the Bloom filter's hash are parameters, collected in `Hashing`. What relies on
their being functions of the bytes that they are given, and on nothing else, is proved for all of
them. The hash of the code itself is `Hashing.vendored`, which is not defined for every key.
-/

namespace Kronos

/-- How a call ends when it does not return: with a C++ exception, or with behaviour that the
language leaves undefined. -/
inductive Failure where
  | exception (message : String)
  | undefined (what : String)
  deriving DecidableEq, Repr

/-- A call that returns goes on with what it returned. -/
theorem ok_bind {ε α β : Type} (a : α) (f : α → Except ε β) : (Except.ok a >>= f) = f a := rfl

/-- A sequence of two calls returns when both do. -/
theorem bind_eq_ok {ε α β : Type} {x : Except ε α} {f : α → Except ε β} {b : β}
    (h : (x >>= f) = .ok b) : ∃ a, x = .ok a ∧ f a = .ok b := by
  cases x with
  | error failure => cases h
  | ok a => exact ⟨a, rfl, h⟩

/-- A call for each element of a list returns what the single calls return. -/
theorem mapM_eq_ok_iff {ε α β : Type} {f : α → Except ε β} {l : List α} {bs : List β} :
    l.mapM f = .ok bs ↔ List.Forall₂ (fun a b => f a = .ok b) l bs := by
  constructor
  · intro h
    induction l generalizing bs with
    | nil =>
      cases h
      exact .nil
    | cons a l ih =>
      rw [List.mapM_cons] at h
      obtain ⟨b, hb, h⟩ := bind_eq_ok h
      obtain ⟨bs, hbs, h⟩ := bind_eq_ok h
      cases h
      exact .cons hb (ih hbs)
  · intro h
    induction h with
    | nil => rfl
    | cons hhead _ ih =>
      rw [List.mapM_cons, hhead, ok_bind, ih, ok_bind]
      rfl

/-- It returns when all of them do. -/
theorem mapM_returns {ε α β : Type} {f : α → Except ε β} {l : List α}
    (h : ∀ a ∈ l, ∃ b, f a = .ok b) : ∃ bs, l.mapM f = .ok bs := by
  induction l with
  | nil => exact ⟨[], rfl⟩
  | cons a l ih =>
    obtain ⟨b, hb⟩ := h a (.head _)
    obtain ⟨bs, hbs⟩ := ih fun a' ha' => h a' (.tail _ ha')
    exact ⟨b :: bs, mapM_eq_ok_iff.2 (.cons hb (mapM_eq_ok_iff.1 hbs))⟩

/-- A fold of calls, each of which returns under a condition, returns when the condition holds of
each element at its turn. -/
theorem foldlM_eq_ok_iff {ε α β : Type} {f : β → α → Except ε β} {Accepts : β → α → Prop}
    {g : β → α → β} (hf : ∀ b a b', f b a = .ok b' ↔ Accepts b a ∧ b' = g b a) {l : List α} :
    ∀ {b b' : β}, l.foldlM f b = .ok b' ↔
      (∀ before a behind, l = before ++ a :: behind → Accepts (before.foldl g b) a) ∧
        b' = l.foldl g b := by
  induction l with
  | nil =>
    intro b b'
    constructor
    · intro h
      cases h
      exact ⟨fun before a behind hsplit => by simp at hsplit, rfl⟩
    · rintro ⟨-, rfl⟩
      rfl
  | cons a l ih =>
    intro b b'
    rw [List.foldlM_cons]
    constructor
    · intro h
      obtain ⟨b'', hstep, hrest⟩ := bind_eq_ok h
      obtain ⟨haccepts, rfl⟩ := (hf b a b'').1 hstep
      obtain ⟨hall, rfl⟩ := ih.1 hrest
      refine ⟨fun before a' behind hsplit => ?_, rfl⟩
      rcases before with _ | ⟨a'', before⟩
      · obtain ⟨rfl, -⟩ := List.cons.inj hsplit
        exact haccepts
      · obtain ⟨rfl, hbehind⟩ := List.cons.inj hsplit
        exact hall before a' behind hbehind
    · rintro ⟨hall, rfl⟩
      rw [(hf b a (g b a)).2 ⟨hall [] a l rfl, rfl⟩, ok_bind]
      refine ih.2 ⟨fun before a' behind hsplit => ?_, rfl⟩
      exact hall (a :: before) a' behind (by rw [hsplit, List.cons_append])

/-- The bytes of an ASCII text. -/
def ofChars (text : List Char) : Bytes := text.map fun c => UInt8.ofNat c.toNat

/-- `UINT64_MAX`. -/
def uint64Max : ℕ := 2^64 - 1

/-- `std::numeric_limits<uint32_t>::max()`. -/
def uint32Max : ℕ := 2^32 - 1

/-- The external functions over bytes: zlib's `crc32`, started from zero, and the hash that the
Bloom filter takes of a key with its seed, `none` where the call is undefined. A CRC continued over
a second buffer is that of the two buffers in one. -/
structure Hashing where
  crc32 : Bytes → UInt32
  murmurHash3 : Bytes → Option UInt32

/-- Two functions that are defined everywhere. -/
def Hashing.total (crc32 murmurHash3 : Bytes → UInt32) : Hashing where
  crc32 := crc32
  murmurHash3 key := some (murmurHash3 key)

instance : Inhabited Hashing := ⟨.total (fun _ => 0) fun _ => 0⟩

/-- The hash of a key is defined. -/
def Hashing.Hashes (H : Hashing) (key : Bytes) : Prop := (H.murmurHash3 key).isSome

instance (H : Hashing) (key : Bytes) : Decidable (H.Hashes key) :=
  inferInstanceAs (Decidable (_ = true))

/-- The hash of a key, where it is defined. -/
theorem Hashing.Hashes.exists_hash {H : Hashing} {key : Bytes} (h : H.Hashes key) :
    ∃ hash, H.murmurHash3 key = some hash := Option.isSome_iff_exists.1 h

/-- A hash that is defined everywhere hashes every key. -/
@[simp] theorem Hashing.hashes_total (crc32 murmurHash3 : Bytes → UInt32) (key : Bytes) :
    (Hashing.total crc32 murmurHash3).Hashes key := rfl

/-- So does the default one. -/
theorem Hashing.hashes_default (key : Bytes) : (default : Hashing).Hashes key := rfl

/-- `crc32` over a buffer, as the code calls it: zlib takes the length as a 32-bit `uInt`, so a
longer buffer is checked over its length modulo `2^32` only. -/
def Hashing.checksum (H : Hashing) (data : Bytes) : ℕ :=
  (H.crc32 (data.take (data.length % 2^32))).toNat

/-- A checksum has 32 bits. -/
theorem Hashing.checksum_lt (H : Hashing) (data : Bytes) : H.checksum data < 2^32 :=
  UInt32.toNat_lt _

/-- `crc32` tells two buffers of one length apart that differ in one byte. -/
def Hashing.DetectsByte (H : Hashing) : Prop :=
  ∀ (bs : Bytes) (j : ℕ) (b : UInt8), ByteString.Differs bs j b →
    H.crc32 (bs.set j b) ≠ H.crc32 bs

/-- So does the checksum of a buffer, over the part that it covers. -/
theorem Hashing.DetectsByte.checksum {H : Hashing} (h : H.DetectsByte) {bs : Bytes} {j : ℕ}
    {b : UInt8} (hdiffers : ByteString.Differs bs j b) (hj : j < bs.length % 2^32) :
    H.checksum (bs.set j b) ≠ H.checksum bs := by
  intro heq
  refine h (bs.take (bs.length % 2^32)) j b (hdiffers.take hj) (UInt32.toNat_inj.1 ?_)
  rw [← List.take_set]
  simpa only [Hashing.checksum, List.length_set] using heq

/-- A hash that detects a changed byte: the sum of the bytes. -/
def byteSum : Hashing := .total (List.foldr (fun b sum => b.toUInt32 + sum) 0) fun _ => 0

/-- The sum of the bytes changes with any single byte. -/
theorem byteSum_detectsByte : byteSum.DetectsByte := by
  intro bs
  induction bs with
  | nil =>
    intro j b h
    exact absurd h.1 (Nat.not_lt_zero j)
  | cons a bs ih =>
    intro j b h
    cases j with
    | zero =>
      have hne : a ≠ b := fun hab => h.2 (by simp [hab])
      simpa [byteSum, Hashing.total] using fun hba => hne (UInt8.toUInt32_inj.1 hba).symm
    | succ j =>
      have hrest := ih j b ⟨by simpa using h.1, by simpa using h.2⟩
      simpa [byteSum, Hashing.total] using hrest

/-- `OperationType`. The enumeration's underlying type is `uint8_t`, and a byte is cast to it
without a check, so that a value can be any byte. -/
structure OperationType where
  byte : UInt8
  deriving DecidableEq, Repr

/-- `OperationType::DELETE`. -/
def OperationType.delete : OperationType := ⟨0⟩

/-- `OperationType::PUT`. -/
def OperationType.put : OperationType := ⟨1⟩

/-- `InternalEntry`: one version of a key. -/
structure InternalEntry where
  value : Bytes
  sequence : ℕ
  operation : OperationType
  deriving DecidableEq, Repr

/-- A record of an SSTable: a key and its version there. -/
abbrev TableRecord := Bytes × InternalEntry

/-- `GetStatus`. -/
inductive GetStatus where
  | found
  | deleted
  | notFound
  deriving DecidableEq, Repr

/-- `GetResult`. -/
structure GetResult where
  value : Bytes
  status : GetStatus
  deriving DecidableEq, Repr

/-- The result for the newest version of a key, if there is one. -/
def GetResult.of : Option InternalEntry → GetResult
  | none => ⟨[], .notFound⟩
  | some entry => if entry.operation = .delete then ⟨[], .deleted⟩ else ⟨entry.value, .found⟩

/-- The logical answer of a lookup: the value found, or nothing for a key that is deleted or was
never written. -/
def GetResult.answer (result : GetResult) : Option Bytes :=
  if result.status = .found then some result.value else none

end Kronos
