import Mathlib.Data.List.Lex
import Mathlib.Order.Basic
import Mathlib.Tactic.Ring
import Mathlib.Tactic.NormNum

/-!
# Byte strings

Byte strings as lists of bytes, compared as C++ compares `std::string`: lexicographically, by the
unsigned value of each byte. The module gives the fixed-width little-endian integers of a binary
format (`toLe` and `ofLe`, inverse to each other below `256 ^ width`), the slices through which a
format is read back by offset (`slice`), and the checked reads that move a cursor over its fields
(`readField`).
-/

/-- Bytes are ordered by their unsigned value. -/
instance UInt8.linearOrder : LinearOrder UInt8 where
  le_refl a := UInt8.le_refl a
  le_trans _ _ _ := UInt8.le_trans
  le_antisymm _ _ := UInt8.le_antisymm
  le_total a b := UInt8.le_total a b
  lt_iff_le_not_ge a b := by
    simp only [UInt8.lt_iff_toNat_lt, UInt8.le_iff_toNat_le]
    omega
  toDecidableLE := inferInstance
  toDecidableLT := inferInstance

/-- A byte string. -/
abbrev Bytes := List UInt8

namespace ByteString

/-! ## Little-endian integers -/

/-- The `width` little-endian bytes of `n`; bits at and above `8 * width` are dropped. -/
def toLe : ℕ → ℕ → Bytes
  | 0, _ => []
  | width + 1, n => UInt8.ofNat (n % 256) :: toLe width (n / 256)

/-- The number that little-endian bytes represent. -/
def ofLe : Bytes → ℕ
  | [] => 0
  | b :: bs => b.toNat + 256 * ofLe bs

/-- An encoding has its width. -/
@[simp] theorem length_toLe (width n : ℕ) : (toLe width n).length = width := by
  induction width generalizing n with
  | zero => rfl
  | succ width ih => simp only [toLe, List.length_cons, ih]

/-- Encoding in `width` bytes reduces modulo `256 ^ width`. -/
theorem ofLe_toLe (width n : ℕ) : ofLe (toLe width n) = n % 256 ^ width := by
  induction width generalizing n with
  | zero => simp only [toLe, ofLe, pow_zero, Nat.mod_one]
  | succ width ih =>
    have hbyte : (UInt8.ofNat (n % 256)).toNat = n % 256 := by
      rw [UInt8.toNat_ofNat']
      exact Nat.mod_eq_of_lt (Nat.mod_lt n (by norm_num))
    rw [toLe, ofLe, ih, hbyte, pow_succ', Nat.mod_mul]

/-- A number that fits in `width` bytes is read back from them. -/
theorem ofLe_toLe_of_lt {width n : ℕ} (h : n < 256 ^ width) : ofLe (toLe width n) = n := by
  rw [ofLe_toLe, Nat.mod_eq_of_lt h]

/-- Little-endian bytes represent a number that fits in them. -/
theorem ofLe_lt (bs : Bytes) : ofLe bs < 256 ^ bs.length := by
  induction bs with
  | nil => simp [ofLe]
  | cons b bs ih =>
    have hb : b.toNat < 256 := b.toNat_lt
    rw [ofLe, List.length_cons, pow_succ]
    omega

/-- Bytes are the encoding of the number that they represent. -/
theorem toLe_ofLe (bs : Bytes) : toLe bs.length (ofLe bs) = bs := by
  induction bs with
  | nil => rfl
  | cons b bs ih =>
    have hb : b.toNat < 256 := b.toNat_lt
    have hmod : (b.toNat + 256 * ofLe bs) % 256 = b.toNat := by omega
    have hdiv : (b.toNat + 256 * ofLe bs) / 256 = ofLe bs := by omega
    rw [List.length_cons, toLe, ofLe, hmod, hdiv, ih, UInt8.ofNat_toNat]

/-- The same, for bytes of a known number. -/
theorem toLe_ofLe_of_length {bs : Bytes} {width : ℕ} (h : bs.length = width) :
    toLe width (ofLe bs) = bs := by
  rw [← h, toLe_ofLe]

/-- Equally many bytes that represent the same number are the same. -/
theorem eq_of_ofLe_eq {a b : Bytes} (hlen : a.length = b.length) (h : ofLe a = ofLe b) : a = b := by
  rw [← toLe_ofLe a, ← toLe_ofLe b, hlen, h]

/-! ## Slices -/

/-- The `size` bytes of `bs` from `offset` on, or as many of them as there are. -/
def slice (bs : Bytes) (offset size : ℕ) : Bytes := (bs.drop offset).take size

/-- A slice is as long as asked for when it lies within the bytes. -/
theorem length_slice {bs : Bytes} {offset size : ℕ} (h : offset + size ≤ bs.length) :
    (slice bs offset size).length = size := by
  simp only [slice, List.length_take, List.length_drop]
  omega

/-- A slice that starts where a part of the bytes starts, and is as long, is that part. -/
theorem slice_eq {bs a b : Bytes} {offset size : ℕ} (h : a ++ b <+: bs)
    (ha : a.length = offset) (hb : b.length = size) : slice bs offset size = b := by
  obtain ⟨c, rfl⟩ := h
  rw [slice, List.append_assoc, List.drop_left' ha, List.take_left' hb]

/-- Two adjacent slices make one. -/
theorem slice_append_slice (bs : Bytes) (a m n : ℕ) :
    slice bs a m ++ slice bs (a + m) n = slice bs a (m + n) := by
  rw [slice, slice, slice, List.take_add, List.drop_drop]

/-- A slice of a prefix is a slice of the bytes, when it lies within the prefix. -/
theorem slice_of_prefix {p bs : Bytes} {offset size : ℕ} (h : p <+: bs)
    (hl : offset + size ≤ p.length) : slice p offset size = slice bs offset size := by
  obtain ⟨t, rfl⟩ := h
  rw [slice, slice, List.drop_append_of_le_length (by omega),
    List.take_append_of_le_length (by simp only [List.length_drop]; omega)]

/-! ## Changing one byte -/

/-- The byte at offset `j` of `bs` is there, and is not `b`. -/
def Differs (bs : Bytes) (j : ℕ) (b : UInt8) : Prop := j < bs.length ∧ bs[j]? ≠ some b

instance (bs : Bytes) (j : ℕ) (b : UInt8) : Decidable (Differs bs j b) :=
  inferInstanceAs (Decidable (_ ∧ _))

/-- Setting a byte to another value changes the bytes. -/
theorem Differs.set_ne {bs : Bytes} {j : ℕ} {b : UInt8} (h : Differs bs j b) :
    bs.set j b ≠ bs := by
  intro heq
  refine h.2 ?_
  rw [← heq, List.getElem?_set_self h.1]

/-- A change within the first `n` bytes is one of them. -/
theorem Differs.take {bs : Bytes} {j n : ℕ} {b : UInt8} (h : Differs bs j b) (hj : j < n) :
    Differs (bs.take n) j b := by
  refine ⟨by simp only [List.length_take]; exact lt_min hj h.1, ?_⟩
  rw [List.getElem?_take_of_lt hj]
  exact h.2

/-- A change behind the first `n` bytes is one of the others. -/
theorem Differs.drop {bs : Bytes} {j n : ℕ} {b : UInt8} (h : Differs bs j b) (hj : n ≤ j) :
    Differs (bs.drop n) (j - n) b := by
  have hlt := h.1
  refine ⟨by simp only [List.length_drop]; omega, ?_⟩
  rw [List.getElem?_drop, Nat.add_sub_cancel' hj]
  exact h.2

/-- A slice that does not cover the changed byte is as it was. -/
theorem slice_set_of_outside (bs : Bytes) {j offset size : ℕ} (b : UInt8)
    (h : j < offset ∨ offset + size ≤ j) :
    slice (bs.set j b) offset size = slice bs offset size := by
  unfold slice
  rcases h with h | h
  · rw [List.drop_set, if_pos h]
  · rw [List.drop_set, if_neg (by omega), List.take_set_of_le (by omega)]

/-- A slice that covers the changed byte is changed there. -/
theorem slice_set (bs : Bytes) {j offset size : ℕ} (b : UInt8) (hle : offset ≤ j) :
    slice (bs.set j b) offset size = (slice bs offset size).set (j - offset) b := by
  unfold slice
  rw [List.drop_set, if_neg (Nat.not_lt.2 hle), List.take_set]

/-- So a slice that covers the changed byte differs there. -/
theorem Differs.slice {bs : Bytes} {j offset size : ℕ} {b : UInt8} (h : Differs bs j b)
    (hle : offset ≤ j) (hlt : j < offset + size) :
    Differs (slice bs offset size) (j - offset) b :=
  (h.drop hle).take (by omega)

/-! ## Reading through a cursor -/

/-- The next `size` bytes from the cursor on, and the cursor behind them; an error if the payload
does not have them. -/
def readField {ε : Type} (error : ε) (payload : Bytes) (size cursor : ℕ) : Except ε (Bytes × ℕ) :=
  if cursor > payload.length ∨ size > payload.length - cursor then .error error
  else .ok (slice payload cursor size, cursor + size)

/-- Behind a beginning of the payload, the field that follows it there is read. -/
theorem readField_eq {ε : Type} {error : ε} {payload pre field : Bytes} {size : ℕ}
    (h : pre ++ field <+: payload) (hsize : field.length = size) :
    readField error payload size pre.length = .ok (field, (pre ++ field).length) := by
  have hlen := h.length_le
  rw [List.length_append] at hlen
  rw [readField, if_neg (by omega), slice_eq h rfl hsize, List.length_append, hsize]

/-- At the start of the payload, its first field is read. -/
theorem readField_start {ε : Type} {error : ε} {payload field : Bytes} {size : ℕ}
    (h : field <+: payload) (hsize : field.length = size) :
    readField error payload size 0 = .ok (field, size) := by
  have hread : readField error payload size ([] : Bytes).length = _ := readField_eq h hsize
  rwa [List.nil_append, hsize] at hread

end ByteString
