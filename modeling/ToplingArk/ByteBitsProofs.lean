import ToplingArk.MemoryProofs

/-! # Bits of a byte buffer — words at any byte, fields of any width

    A buffer of bytes is a row of bits, the lowest bit of the first byte first.  A 64-bit
    word is loaded from and stored to any byte, so a word is 64 bits in a row.  `Holds` says
    that the buffer starts with fields of `w` bits that have the given values; nothing is
    said about the bits after them. -/

namespace ByteBits

open LittleEndian List Nat

/-- Bit `i` of a buffer; there are no ones behind its end. -/
def bit (m : List Byte) (i : Nat) : Bool := ((m[i / 8]?).getD 0).val.testBit (i % 8)

/-- The bits of a little-endian number are those of its bytes. -/
theorem value_testBit (bs : List Byte) (i : Nat) : (value bs).testBit i = bit bs i := by
  induction bs generalizing i with
  | nil =>
    show testBit 0 i = testBit 0 (i % 8)
    rw [zero_testBit, zero_testBit]
  | cons b bs ih =>
    have hvalue : value (b :: bs) = 2 ^ 8 * value bs + b.val := add_comm _ _
    rw [hvalue, testBit_two_pow_mul_add _ b.isLt]
    by_cases hi : i < 8
    · rw [if_pos hi, bit, div_eq_of_lt hi, mod_eq_of_lt hi]
      rfl
    · obtain ⟨k, rfl⟩ : ∃ k, i = k + 8 := ⟨i - 8, by omega⟩
      rw [if_neg hi, ih, bit, bit, Nat.add_sub_cancel, add_div_right k (by decide),
        add_mod_right, getElem?_cons_succ]

/-- The bytes of a number have its bits, as far as they go. -/
theorem bit_bytes (c x i : Nat) : bit (bytes c x) i = (decide (i < 8 * c) && x.testBit i) := by
  rw [← value_testBit, value_bytes, show (256 : Nat) ^ c = 2 ^ (8 * c) from
    (pow_mul 2 8 c).symm, testBit_mod_two_pow]

variable {m m' : List Byte} {j : Nat}

/-- Bits with the same place in equal bytes. -/
theorem bit_of_byte {k k' : Nat} (h : m'[k']? = m[k]?) (hj : j < 8) :
    bit m' (8 * k' + j) = bit m (8 * k + j) := by
  unfold bit
  rw [mul_add_div (by decide), mul_add_div (by decide), div_eq_of_lt hj,
    mul_add_mod, mul_add_mod, add_zero, add_zero, h]

variable {pos n i : Nat}

/-- Equal bytes have equal bits. -/
theorem bit_of_bytes {pos' : Nat} (h : ∀ k, k < n → m'[pos' + k]? = m[pos + k]?) (hi : i < 8 * n) :
    bit m' (8 * pos' + i) = bit m (8 * pos + i) := by
  have hbyte := bit_of_byte (h (i / 8) (by omega)) (mod_lt i (by decide : 0 < 8))
  rwa [mul_add, mul_add, add_assoc, add_assoc, div_add_mod] at hbyte

theorem bit_append (m m' : List Byte) (i : Nat) :
    bit (m ++ m') i = if i < 8 * m.length then bit m i else bit m' (i - 8 * m.length) := by
  unfold bit
  split
  · rw [getElem?_append_left (by omega)]
  · rw [getElem?_append_right (by omega),
      show (i - 8 * m.length) / 8 = i / 8 - m.length by omega,
      show (i - 8 * m.length) % 8 = i % 8 by omega]

/-! ## Words -/

/-- The 64-bit word at a byte. -/
def loadWord (m : List Byte) (pos : Nat) : Option (BitVec 64) :=
  (Memory.read m pos 8).map (fun bs => BitVec.ofNat 64 (value bs))

/-- An unaligned store of 8 bytes. -/
def storeWord (m : List Byte) (pos : Nat) (x : BitVec 64) : Option (List Byte) :=
  Memory.write m pos (bytes 8 x.toNat)

/-- A loaded word has the bits of its 8 bytes. -/
theorem loadWord_eq (h : pos + 8 ≤ m.length) :
    ∃ x, loadWord m pos = some x ∧ ∀ j, j < 64 → x.getLsbD j = bit m (8 * pos + j) := by
  obtain ⟨bs, hread, _, hbs⟩ := Memory.read_eq h
  refine ⟨BitVec.ofNat 64 (value bs), by rw [loadWord, hread, Option.map_some], fun j hj => ?_⟩
  have hbits : bit bs (8 * 0 + j) = bit m (8 * pos + j) :=
    bit_of_bytes (fun k hk => by rw [zero_add]; exact hbs k hk) (show j < 8 * 8 from hj)
  rw [mul_zero, zero_add] at hbits
  rw [BitVec.getLsbD_ofNat, decide_eq_true hj, Bool.true_and, value_testBit, hbits]

/-- A store sets the 64 bits it names and no others. -/
theorem storeWord_eq (h : pos + 8 ≤ m.length) (x : BitVec 64) :
    ∃ m', storeWord m pos x = some m' ∧ m'.length = m.length ∧
      (∀ j, j < 64 → bit m' (8 * pos + j) = x.getLsbD j) ∧
      ∀ i, (i < 8 * pos ∨ 8 * pos + 64 ≤ i) → bit m' i = bit m i := by
  have hfit : pos + (bytes 8 x.toNat).length ≤ m.length := by
    exact h
  obtain ⟨m', hwrite, hlen, hin, hout⟩ := Memory.write_eq hfit
  rw [bytes_length] at hin hout
  refine ⟨m', hwrite, hlen, fun j hj => ?_, fun i hi => ?_⟩
  · have hbits : bit m' (8 * pos + j) = bit (bytes 8 x.toNat) (8 * 0 + j) :=
      bit_of_bytes (fun k hk => by rw [zero_add]; exact hin k hk) (show j < 8 * 8 from hj)
    rw [hbits, mul_zero, zero_add, bit_bytes, decide_eq_true (show j < 8 * 8 from hj),
      Bool.true_and]
    rfl
  · have hbyte := bit_of_byte (hout (i / 8) (by omega)) (mod_lt i (by decide : 0 < 8))
    rwa [div_add_mod] at hbyte

/-! ## Fields -/

/-- The buffer starts with fields of `w` bits that have the values `vs`. -/
def Holds (w : Nat) (m : List Byte) (vs : List (BitVec 64)) : Prop :=
  ∀ i (h : i < vs.length), ∀ j, j < w → bit m (w * i + j) = vs[i].getLsbD j

variable {w : Nat} {m m' : List Byte} {vs us : List (BitVec 64)}

theorem Holds.nil : Holds w m [] := fun _ h => absurd h (not_lt_zero _)

theorem field_lt (hi : i < n) (hj : j < w) : w * i + j < w * n :=
  lt_of_lt_of_le (Nat.add_lt_add_left hj _) (mul_le_mul_left w hi)

/-- Only the bits of the fields matter. -/
theorem Holds.congr (h : Holds w m vs) (hbits : ∀ i, i < w * vs.length → bit m' i = bit m i) :
    Holds w m' vs :=
  fun i hi j hj => by rw [hbits _ (field_lt hi hj), h i hi j hj]

/-- **ONE MORE FIELD**: the fields before it are kept and the next one is written. -/
theorem Holds.snoc (h : Holds w m vs) (hbits : ∀ i, i < w * vs.length → bit m' i = bit m i)
    {v : BitVec 64} (hv : ∀ j, j < w → bit m' (w * vs.length + j) = v.getLsbD j) :
    Holds w m' (vs ++ [v]) := by
  intro i hi j hj
  rw [length_append, length_singleton] at hi
  by_cases hlt : i < vs.length
  · rw [getElem_append_left hlt]
    exact h.congr hbits i hlt j hj
  · obtain rfl : i = vs.length := by omega
    rw [getElem_concat_length rfl]
    exact hv j hj

/-- A buffer that is full of fields can be followed by another one. -/
theorem Holds.append (h : Holds w m vs) (hfull : 8 * m.length = w * vs.length)
    (h' : Holds w m' us) : Holds w (m ++ m') (vs ++ us) := by
  intro i hi j hj
  by_cases hlt : i < vs.length
  · have hin := field_lt hlt hj
    rw [getElem_append_left hlt, ← h i hlt j hj, bit_append, if_pos (by omega)]
  obtain ⟨k, rfl⟩ : ∃ k, i = vs.length + k := ⟨i - vs.length, by omega⟩
  have hk : k < us.length := by
    rw [length_append] at hi
    omega
  have hpos : w * (vs.length + k) + j = 8 * m.length + (w * k + j) := by
    rw [hfull, mul_add, add_assoc]
  rw [getElem_append_right (by omega), hpos, bit_append, if_neg (by omega)]
  simp only [Nat.add_sub_cancel_left]
  exact h' k hk j hj

/-- The fields lie in the bytes that they need. -/
theorem Holds.take (h : Holds w m vs) (hn : w * vs.length ≤ 8 * n) : Holds w (m.take n) vs :=
  h.congr (fun i hi => by rw [bit, bit, getElem?_take_of_lt (by omega)])

end ByteBits
