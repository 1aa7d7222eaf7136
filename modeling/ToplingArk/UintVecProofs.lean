import Mathlib.Data.Nat.Bits
import ToplingArk.ByteBitsProofs
import ToplingArk.RunProofs

/-! # `UintVecMin0` and `BigUintVecMin0` — packed unsigned integers

    `m_size` numbers of `m_bits` bits each, packed into bytes whose count is a multiple of
    16.  `set_wire` writes through 64-bit words (`febitvec::s_set_uint`); `UintVecMin0::get`
    reads one unaligned word and works up to 58 bits, `BigUintVecMin0::get` reads one or two
    aligned words.  An access outside `m_data` is `none`, and so is a failed `TERARK_VERIFY`.
    Counts and sizes are natural numbers: a vector in memory has less than 2^64 bits. -/

namespace UintVec

open ByteBits LittleEndian List Option BitVec Nat

/-! ## Fields of words -/

/-- `febitvec::s_set_uint_tpl`, for 64-bit words -/
def sSetUint (base : List Byte) (bitpos width : Nat) (val : BitVec 64) : Option (List Byte) := do
  let p := 8 * (bitpos / 64)
  let offset := bitpos % 64
  let p0 ← loadWord base p
  if offset + width < 64 then
    storeWord base p ((p0 &&& (~~~(allOnes 64 <<< offset) |||
      (allOnes 64 <<< (offset + width)))) ||| val <<< offset)
  else
    let base ← storeWord base p ((p0 &&& ~~~(allOnes 64 <<< offset)) ||| val <<< offset)
    if offset + width > 64 then
      let off2 := (offset + width) % 64
      let p1 ← loadWord base (p + 8)
      storeWord base (p + 8) ((p1 &&& (allOnes 64 <<< off2)) ||| val >>> (64 - offset))
    else
      some base

/-- `febitvec::s_get_uint` -/
def sGetUint (base : List Byte) (bitpos width : Nat) : Option (BitVec 64) := do
  let p := 8 * (bitpos / 64)
  let offset := bitpos % 64
  let mask := if width < 64 then ~~~(allOnes 64 <<< width) else allOnes 64
  let p0 ← loadWord base p
  let low := p0 >>> offset
  if offset + width ≤ 64 then
    some (mask &&& low)
  else
    let p1 ← loadWord base (p + 8)
    some (mask &&& (low ||| p1 <<< (64 - offset)))

/-- The value has no bits from `width` on. -/
def Fits (width : Nat) (val : BitVec 64) : Prop := ∀ j, width ≤ j → val.getLsbD j = false

variable {width : Nat} {val : BitVec 64}

theorem fits_of_lt (h : val.toNat < 2 ^ width) : Fits width val :=
  fun _ hj => testBit_lt_two_pow (h.trans_le (Nat.pow_le_pow_right (by decide) hj))

/-- A wider field holds what a narrower one does. -/
theorem Fits.mono {width' : Nat} (h : Fits width val) (hle : width ≤ width') : Fits width' val :=
  fun j hj => h j (hle.trans hj)

section Words

variable {p0 val : BitVec 64} {offset width j : Nat}

private theorem splice_inside (hj : j < 64) (hv : Fits width val) :
    ((p0 &&& (~~~(allOnes 64 <<< offset) ||| (allOnes 64 <<< (offset + width)))) |||
        val <<< offset).getLsbD j =
      if offset ≤ j ∧ j < offset + width then val.getLsbD (j - offset) else p0.getLsbD j := by
  have hv' := hv (j - offset)
  simp only [getLsbD_or, getLsbD_and, getLsbD_not, getLsbD_shiftLeft, getLsbD_allOnes]
  grind

/-- A field that fills the word from `offset` on. -/
private theorem splice_high (hj : j < 64) :
    ((p0 &&& ~~~(allOnes 64 <<< offset)) ||| val <<< offset).getLsbD j =
      if offset ≤ j ∧ j < 64 then val.getLsbD (j - offset) else p0.getLsbD j := by
  simp only [getLsbD_or, getLsbD_and, getLsbD_not, getLsbD_shiftLeft, getLsbD_allOnes]
  grind

/-- The rest of a field, in the next word. -/
private theorem splice_low {n off2 : Nat} (hj : j < 64) (hv : Fits (n + off2) val) :
    ((p0 &&& (allOnes 64 <<< off2)) ||| val >>> n).getLsbD j =
      if 0 ≤ j ∧ j < off2 then val.getLsbD (n + j) else p0.getLsbD j := by
  have hv' := hv (n + j)
  simp only [getLsbD_or, getLsbD_and, getLsbD_shiftLeft, getLsbD_allOnes]
  grind

end Words

variable {x : BitVec 64}

/-- A word that agrees with the memory outside `[lo, hi)` is stored. -/
private theorem store_field {base : List Byte} {q : Nat} (lo hi : Nat) {f : Nat → Bool}
    (hfit : 8 * q + 8 ≤ base.length) (hhi : hi ≤ 64) (hx : ∀ j, j < 64 → x.getLsbD j =
      if lo ≤ j ∧ j < hi then f j else bit base (8 * (8 * q) + j)) :
    ∃ base', storeWord base (8 * q) x = some base' ∧ base'.length = base.length ∧
      (∀ j, lo ≤ j → j < hi → bit base' (8 * (8 * q) + j) = f j) ∧
      ∀ i, (i < 8 * (8 * q) + lo ∨ 8 * (8 * q) + hi ≤ i) → bit base' i = bit base i := by
  obtain ⟨base', hstore, hlen, hnew, hold⟩ := storeWord_eq hfit x
  refine ⟨base', hstore, hlen, fun j hlo hj => ?_, fun i hi' => ?_⟩
  · rw [hnew j (by omega), hx j (by omega), if_pos ⟨hlo, hj⟩]
  · by_cases hword : i < 8 * (8 * q) ∨ 8 * (8 * q) + 64 ≤ i
    · exact hold i hword
    · obtain ⟨k, rfl⟩ : ∃ k, i = 8 * (8 * q) + k := ⟨i - 8 * (8 * q), by omega⟩
      rw [hnew k (by omega), hx k (by omega), if_neg (by omega)]

theorem widthMask_getLsbD (width j : Nat) (hj : j < 64) : (if width < 64 then
    ~~~(allOnes 64 <<< width) else allOnes 64).getLsbD j = decide (j < width) := by
  split
  · simp only [getLsbD_not, getLsbD_shiftLeft, getLsbD_allOnes]
    grind
  · rw [getLsbD_allOnes]
    grind

/-- The field of a word that has the bits of the value. -/
theorem Fits.and_mask {mask : BitVec 64} (hv : Fits width val)
    (hmask : ∀ j, j < 64 → mask.getLsbD j = decide (j < width))
    (hx : ∀ j, j < width → x.getLsbD j = val.getLsbD j) : x &&& mask = val := by
  refine eq_of_getLsbD_eq (fun j hj => ?_)
  rw [getLsbD_and, hmask j hj]
  by_cases hjw : j < width
  · rw [decide_eq_true hjw, Bool.and_true, hx j hjw]
  · rw [decide_eq_false hjw, Bool.and_false, hv j (by omega)]

section Field

variable {base : List Byte} {bitpos width : Nat} {val : BitVec 64} (halign : 8 ∣ base.length)
  (hin : bitpos < 8 * base.length) (hroom : bitpos + width ≤ 8 * base.length) (hw : width ≤ 64)
  (hv : Fits width val)

include halign hin hroom hw hv

/-- **SET**: the field has the value, the other bits of the memory are kept. -/
theorem sSetUint_eq :
    ∃ base', sSetUint base bitpos width val = some base' ∧ base'.length = base.length ∧
      (∀ j, j < width → bit base' (bitpos + j) = val.getLsbD j) ∧
      ∀ i, (i < bitpos ∨ bitpos + width ≤ i) → bit base' i = bit base i := by
  obtain ⟨words, hwords⟩ := halign
  have hpos := div_add_mod bitpos 64
  have hoff := mod_lt bitpos (by decide : 0 < 64)
  -- from here on the position is a word and an offset in it
  unfold sSetUint
  generalize bitpos / 64 = q at *
  generalize bitpos % 64 = offset at *
  have hfit : 8 * q + 8 ≤ base.length := by omega
  obtain ⟨p0, hload, hp0⟩ := loadWord_eq hfit
  simp only [hload, bind_eq_bind, bind_some]
  split
  next hone =>
    obtain ⟨base', hstore, hlen, hnew, hold⟩ := store_field offset _ hfit hone.le
      (fun j hj => (splice_inside hj hv).trans (by rw [hp0 j hj]))
    refine ⟨base', hstore, hlen, fun j hj => ?_, fun i hi => hold i (by omega)⟩
    rw [show bitpos + j = 8 * (8 * q) + (offset + j) by omega, hnew _ (by omega) (by omega),
      Nat.add_sub_cancel_left]
  obtain ⟨base1, hstore, hlen, hnew, hold⟩ := store_field offset 64 hfit le_rfl
    (fun j hj => (splice_high hj).trans (by rw [hp0 j hj]))
  have hfirst : ∀ j, offset + j < 64 → bit base1 (bitpos + j) = val.getLsbD j := by
    intro j hj
    rw [show bitpos + j = 8 * (8 * q) + (offset + j) by omega, hnew _ (by omega) hj,
      Nat.add_sub_cancel_left]
  simp only [hstore, bind_some]
  by_cases htwo : offset + width > 64
  · -- the field goes on in the next word
    have hfit1 : 8 * (q + 1) + 8 ≤ base1.length := by omega
    obtain ⟨p1, hload1, hp1⟩ := loadWord_eq hfit1
    have hoff2 : (offset + width) % 64 = offset + width - 64 := by omega
    rw [if_pos htwo, show 8 * q + 8 = 8 * (q + 1) from rfl, hoff2]
    simp only [hload1, bind_some]
    have hrest : ∀ j, j < 64 →
        ((p1 &&& (allOnes 64 <<< (offset + width - 64))) ||| val >>> (64 - offset)).getLsbD j =
          if 0 ≤ j ∧ j < offset + width - 64 then val.getLsbD (64 - offset + j)
          else bit base1 (8 * (8 * (q + 1)) + j) := by
      intro j hj
      rw [splice_low hj (hv.mono (by omega)), hp1 j hj]
    obtain ⟨base', hstore', hlen', hnew', hold'⟩ :=
      store_field 0 (offset + width - 64) hfit1 (by omega) hrest
    refine ⟨base', hstore', hlen'.trans hlen, fun j hj => ?_, fun i hi => ?_⟩
    · by_cases h64 : offset + j < 64
      · rw [hold' _ (by omega), hfirst j h64]
      · rw [show bitpos + j = 8 * (8 * (q + 1)) + (offset + j - 64) by omega,
          hnew' _ (zero_le _) (by omega)]
        congr 1
        omega
    · rw [hold' i (by omega), hold i (by omega)]
  · rw [if_neg htwo]
    exact ⟨base1, rfl, hlen, fun j hj => hfirst j (by omega), fun i hi => hold i (by omega)⟩

/-- **GET**: a field of the memory is read. -/
theorem sGetUint_eq (hbits : ∀ j, j < width → bit base (bitpos + j) = val.getLsbD j) :
    sGetUint base bitpos width = some val := by
  have hpos := div_add_mod bitpos 64
  have hoff := mod_lt bitpos (by decide : 0 < 64)
  unfold sGetUint
  generalize bitpos / 64 = q at *
  generalize bitpos % 64 = offset at *
  have hfit : 8 * q + 8 ≤ base.length := by omega
  obtain ⟨p0, hload, hp0⟩ := loadWord_eq hfit
  simp only [hload, bind_eq_bind, bind_some]
  -- the bits of the value that are in the first word
  have hfirst : ∀ j, j < width → offset + j < 64 → p0.getLsbD (offset + j) = val.getLsbD j := by
    intro j hj h64
    rw [hp0 _ h64, ← hbits j hj]
    congr 1
    omega
  by_cases hone : offset + width ≤ 64
  · rw [if_pos hone, BitVec.and_comm, hv.and_mask (widthMask_getLsbD width) (fun j hj => ?_)]
    rw [getLsbD_ushiftRight, hfirst j hj (by omega)]
  have hfit1 : 8 * q + 8 + 8 ≤ base.length := by omega
  obtain ⟨p1, hload1, hp1⟩ := loadWord_eq hfit1
  rw [if_neg hone]
  simp only [hload1]
  refine congrArg some ((and_comm _ _).trans
    (hv.and_mask (widthMask_getLsbD width) (fun j hj => ?_)))
  rw [getLsbD_or, getLsbD_ushiftRight, getLsbD_shiftLeft, decide_eq_true (by omega), Bool.true_and]
  by_cases h64 : offset + j < 64
  · rw [decide_eq_true (show j < 64 - offset by omega), hfirst j hj h64, Bool.not_true,
      Bool.false_and, Bool.or_false]
  · rw [getLsbD_of_ge p0 _ (by omega), decide_eq_false (by omega), Bool.not_false,
      Bool.true_and, Bool.false_or, hp1 _ (by omega), ← hbits j hj]
    congr 1
    omega

end Field

/-! ## Widths and masks -/

/-- `while (value) { bits++; value >>= 1; }` -/
def uintbitsLoop : Nat → Nat → BitVec 64 → Nat
  | 0, bits, _ => bits
  | fuel + 1, bits, value => if value = 0 then bits else uintbitsLoop fuel (bits + 1) (value >>> 1)

/-- `compute_uintbits`: a 64-bit value is 0 after 64 turns -/
def computeUintbits (value : BitVec 64) : Nat := uintbitsLoop 64 0 value

/-- The `m_mask` of a width. -/
def maskOf (bits : Nat) : BitVec 64 := if 64 = bits then allOnes 64 else (1#64 <<< bits) - 1#64

private theorem le_uintbitsLoop (fuel : Nat) :
    ∀ bits value, bits ≤ uintbitsLoop fuel bits value := by
  induction fuel with
  | zero => exact fun bits _ => le_refl bits
  | succ fuel ih =>
    intro bits value
    rw [uintbitsLoop]
    split
    · exact le_refl bits
    · exact le_of_succ_le (ih (bits + 1) (value >>> 1))

private theorem uintbitsLoop_le_iff (fuel : Nat) :
    ∀ (bits : Nat) {value : BitVec 64}, value.toNat < 2 ^ fuel → ∀ k,
      (uintbitsLoop fuel bits value ≤ bits + k ↔ value.toNat < 2 ^ k) := by
  induction fuel with
  | zero =>
    intro bits value h k
    have hpos := Nat.two_pow_pos k
    rw [pow_zero] at h
    exact ⟨fun _ => by omega, fun _ => le_add_right bits k⟩
  | succ fuel ih =>
    intro bits value h k
    rw [uintbitsLoop]
    by_cases h0 : value = 0
    · subst h0
      rw [if_pos rfl]
      exact ⟨fun _ => Nat.two_pow_pos k, fun _ => Nat.le_add_right bits k⟩
    have hhalf : (value >>> 1).toNat = value.toNat / 2 := by
      rw [toNat_ushiftRight, shiftRight_eq_div_pow, pow_one]
    have hpos : 0 < value.toNat := by
      rw [Nat.pos_iff_ne_zero]
      exact fun h => h0 (eq_of_toNat_eq h)
    have hlt : (value >>> 1).toNat < 2 ^ fuel := by
      rw [hhalf]
      omega
    have hstep := ih (bits + 1) hlt
    rw [if_neg h0]
    cases k with
    | zero =>
      have hge := le_uintbitsLoop fuel (bits + 1) (value >>> 1)
      rw [pow_zero]
      omega
    | succ k =>
      have := hstep k
      rw [hhalf] at this
      rw [show bits + (k + 1) = bits + 1 + k by omega, this, pow_succ]
      omega

variable {value : BitVec 64} {k : Nat}

/-- **WIDTH**: the value fits a width exactly when the width is not below its own. -/
theorem computeUintbits_le_iff : computeUintbits value ≤ k ↔ value.toNat < 2 ^ k := by
  have h := uintbitsLoop_le_iff 64 0 value.isLt k
  rwa [zero_add] at h

/-- No value has more than 64 bits. -/
theorem computeUintbits_le (value : BitVec 64) : computeUintbits value ≤ 64 :=
  computeUintbits_le_iff.mpr value.isLt

theorem fits_of_uintbits_le (h : computeUintbits value ≤ k) : Fits k value :=
  fits_of_lt (computeUintbits_le_iff.mp h)

variable {bits : Nat}

theorem maskOf_toNat (h : bits ≤ 64) : (maskOf bits).toNat = 2 ^ bits - 1 := by
  unfold maskOf
  by_cases h64 : 64 = bits
  · rw [← h64]
    rfl
  · have hlt : 2 ^ bits < 2 ^ 64 := Nat.pow_lt_pow_right (by decide) (by omega)
    have hpos := Nat.two_pow_pos bits
    have hshift : (1#64 <<< bits).toNat = 2 ^ bits := by
      rw [toNat_shiftLeft, Nat.shiftLeft_eq]
      exact (congrArg (· % 2 ^ 64) (one_mul _)).trans (mod_eq_of_lt hlt)
    rw [if_neg h64, toNat_sub_of_le (by rw [le_def, hshift]; exact hpos), hshift]
    rfl

/-- The mask has the lowest `bits` bits. -/
theorem maskOf_getLsbD {j : Nat} (h : bits ≤ 64) : (maskOf bits).getLsbD j = decide (j < bits) := by
  rw [getLsbD, maskOf_toNat h, testBit_two_pow_sub_one]

/-- `val > m_mask` asks for more bits. -/
theorem maskOf_lt_iff (h : bits ≤ 64) : maskOf bits < val ↔ bits < computeUintbits val := by
  have hpos := Nat.two_pow_pos bits
  rw [lt_def, maskOf_toNat h, ← not_le, ← not_le, computeUintbits_le_iff]
  omega

/-! ## The vector -/

/-- `UintVecMin0Base` -/
structure Vec where
  data : List Byte
  bits : Nat
  mask : BitVec 64
  size : Nat
deriving DecidableEq

/-- A vector made by the default constructor. -/
def Vec.empty : Vec := { data := [], bits := 0, mask := 0, size := 0 }

/-- `compute_mem_size` -/
def computeMemSize (bits num : Nat) : Nat :=
  let usingsize := (bits * num + 7) / 8
  let touchsize := usingsize + 7
  (touchsize + 15) / 16 * 16

/-- `valvec<byte>::resize`: new bytes are 0 -/
def resizeBytes (data : List Byte) (newsize : Nat) : List Byte :=
  data.take newsize ++ List.replicate (newsize - data.length) 0

/-- `resize_with_uintbits`: what was there before is cleared -/
def resizeWithUintbits (num bits : Nat) : Vec where
  data := if num = 0 then [] else replicate (computeMemSize bits num) 0
  bits := bits
  mask := maskOf bits
  size := num

variable (v : Vec) {num : Nat}

/-- `set_wire` -/
def Vec.setWire (idx : Nat) (val : BitVec 64) : Option Vec :=
  (sSetUint v.data (v.bits * idx) v.bits val).map (fun data => { v with data := data })

/-- `UintVecMin0::fast_get`; with BMI2 the shift and the mask are one instruction -/
def fastGet (data : List Byte) (bits : Nat) (mask : BitVec 64) (idx : Nat) : Option (BitVec 64) :=
  let bitIdx := bits * idx
  (loadWord data (bitIdx / 8)).map (fun val : BitVec 64 => (val >>> (bitIdx % 8)) &&& mask)

/-- `BigUintVecMin0::fast_get` -/
def bigFastGet (data : List Byte) (bits idx : Nat) : Option (BitVec 64) :=
  sGetUint data (bits * idx) bits

/-- `UintVecMin0::get` -/
def Vec.get (idx : Nat) : Option (BitVec 64) := fastGet v.data v.bits v.mask idx

/-- `BigUintVecMin0::get` -/
def Vec.bigGet (idx : Nat) : Option (BitVec 64) := bigFastGet v.data v.bits idx

/-- The number as `push_back_slow_path` reads it. -/
def Vec.reread (idx : Nat) : Option (BitVec 64) :=
  if v.bits ≤ 58 then fastGet v.data v.bits v.mask idx else bigFastGet v.data v.bits idx

/-- `for (i = 0; i < n; ++i) set_wire(i, f(i))` -/
def setAll (f : Nat → Option (BitVec 64)) : Nat → Vec → Option Vec
  | 0, v => some v
  | n + 1, v => (setAll f n v).bind (fun v => (f n).bind (v.setWire n))

/-- `push_back_slow_path` for `val > m_mask`: the numbers in the width of `val` -/
def widen (val : BitVec 64) : Option Vec :=
  let num := v.size
  let tmp := resizeWithUintbits (max (num + 1) (num * 103 / 64)) (computeUintbits val)
  (setAll v.reread num tmp).map (fun tmp => { tmp with size := num })

/-- `align_up` -/
def alignUp (size align : Nat) : Nat := (size + align - 1) - (size + align - 1) % align

/-- `push_back_slow_path` for a value that fits: more memory -/
def grow : Vec :=
  { v with data := resizeBytes v.data (max 32 (alignUp (v.data.length * 103 / 64) 16)) }

/-- `set_wire(m_size++, val)` -/
def Vec.setBack (val : BitVec 64) : Option Vec :=
  (v.setWire v.size val).map (fun v' => { v' with size := v.size + 1 })

/-- `push_back_slow_path` -/
def pushBackSlowPath (val : BitVec 64) : Option Vec :=
  (if v.mask < val then widen v val else some (grow v)).bind (fun v =>
    -- `TERARK_VERIFY_AL` and `TERARK_VERIFY_LT`
    if v.data.length % 16 = 0 ∧ computeMemSize v.bits (v.size + 1) < v.data.length then
      v.setBack val
    else
      none)

/-- `push_back` -/
def pushBack (val : BitVec 64) : Option Vec :=
  if computeMemSize v.bits (v.size + 1) < v.data.length ∧ val ≤ v.mask then v.setBack val
  else pushBackSlowPath v val

/-! ## What a vector holds -/

/-- The vector holds the numbers: `m_data` starts with them, `m_bits` wide. -/
structure Packs (v : Vec) (vs : List (BitVec 64)) : Prop where
  bits_le : v.bits ≤ 64
  mask : v.mask = maskOf v.bits
  fits : ∀ x ∈ vs, Fits v.bits x
  holds : Holds v.bits v.data vs
  align : 16 ∣ v.data.length

/-- More values take no less memory. -/
theorem computeMemSize_mono (bits : Nat) {num' : Nat} (h : num ≤ num') :
    computeMemSize bits num ≤ computeMemSize bits num' := by
  have := mul_le_mul_left bits h
  unfold computeMemSize
  simp only
  omega

theorem computeMemSize_dvd (bits num : Nat) : 16 ∣ computeMemSize bits num := dvd_mul_left _ _

/-- The bits of the numbers and the word of the last one are inside. -/
theorem bits_lt_computeMemSize (bits num : Nat) :
    bits * num + 56 ≤ 8 * computeMemSize bits num := by
  unfold computeMemSize
  simp only
  omega

section Packs

variable {v : Vec} {vs : List (BitVec 64)} {i : Nat}

/-- **SET WIRE**: the number after the last one is set. -/
theorem Packs.setWire (h : Packs v vs) (hval : Fits v.bits val)
    (hroom : computeMemSize v.bits (vs.length + 1) ≤ v.data.length) :
    ∃ data, v.setWire vs.length val = some { v with data := data } ∧
      data.length = v.data.length ∧ Packs { v with data := data } (vs ++ [val]) := by
  have hbits := bits_lt_computeMemSize v.bits (vs.length + 1)
  rw [Nat.mul_add] at hbits
  have hinside : v.bits * vs.length + v.bits < 8 * v.data.length := by omega
  obtain ⟨data, hset, hlen, hnew, hold⟩ :=
    sSetUint_eq (dvd_trans (by decide) h.align) (by omega) hinside.le h.bits_le hval
  refine ⟨data, by rw [Vec.setWire, hset, map_some], hlen, h.bits_le, h.mask, ?_, ?_, ?_⟩
  · intro x hx
    rcases mem_append.mp hx with hx | hx
    · exact h.fits x hx
    · rw [mem_singleton.mp hx]
      exact hval
  · exact h.holds.snoc (fun i hi => hold i (.inl hi)) hnew
  · rw [hlen]
    exact h.align

/-- `set_wire(m_size++, val)` -/
theorem Packs.setBack (h : Packs v vs) (hsize : v.size = vs.length) (hval : Fits v.bits val)
    (hroom : computeMemSize v.bits (v.size + 1) ≤ v.data.length) :
    ∃ v', v.setBack val = some v' ∧ v'.size = v.size + 1 ∧ v'.bits = v.bits ∧
      v'.data.length = v.data.length ∧ Packs v' (vs ++ [val]) := by
  rw [hsize] at hroom
  obtain ⟨data, hset, hlen, hpacks⟩ := h.setWire hval hroom
  refine ⟨{ v with data := data, size := v.size + 1 }, ?_, rfl, rfl, hlen, ?_⟩
  · rw [Vec.setBack, hsize, hset, map_some]
  · exact ⟨hpacks.bits_le, hpacks.mask, hpacks.fits, hpacks.holds, hpacks.align⟩

/-- **GET**, through one unaligned word: an even width of 58 bits starts at an even bit. -/
theorem Packs.get (h : Packs v vs) (h58 : v.bits ≤ 58)
    (hroom : computeMemSize v.bits vs.length ≤ v.data.length) (hi : i < vs.length) :
    v.get i = some vs[i] := by
  have hbits := bits_lt_computeMemSize v.bits vs.length
  have hlast : v.bits * i + v.bits ≤ v.bits * vs.length := mul_le_mul_left v.bits hi
  have hshift : v.bits * i % 8 + v.bits ≤ 64 := by
    by_cases heven : v.bits = 58
    · rw [heven]
      omega
    · omega
  have hfit : v.bits * i / 8 + 8 ≤ v.data.length := by
    obtain ⟨k, hk⟩ := h.align
    by_cases hzero : v.bits = 0
    · rw [hzero]
      omega
    · omega
  obtain ⟨x, hload, hx⟩ := loadWord_eq hfit
  rw [Vec.get, fastGet, hload, h.mask]
  refine congrArg some ((h.fits _ (getElem_mem hi)).and_mask (fun _ _ => maskOf_getLsbD h.bits_le)
    (fun j hj => ?_))
  rw [getLsbD_ushiftRight, hx _ (by omega), ← h.holds i hi j hj]
  congr 1
  omega

/-- **GET**, through aligned words. -/
theorem Packs.bigGet (h : Packs v vs) (hroom : computeMemSize v.bits vs.length ≤ v.data.length)
    (hi : i < vs.length) : v.bigGet i = some vs[i] := by
  have hbits := bits_lt_computeMemSize v.bits vs.length
  have hlast : v.bits * i + v.bits ≤ v.bits * vs.length := mul_le_mul_left v.bits hi
  exact sGetUint_eq (dvd_trans (by decide) h.align) (by omega) (by omega) h.bits_le
    (h.fits _ (getElem_mem hi)) (h.holds i hi)

/-- **SET ALL**: new memory is filled number by number. -/
theorem Packs.setAll (h : Packs v []) {f : Nat → Option (BitVec 64)}
    (hf : ∀ i (hi : i < vs.length), f i = some vs[i]) (hfits : ∀ x ∈ vs, Fits v.bits x)
    (hroom : computeMemSize v.bits vs.length ≤ v.data.length) :
    ∃ data, setAll f vs.length v = some { v with data := data } ∧
      data.length = v.data.length ∧ Packs { v with data := data } vs := by
  -- one number after the other
  have hall : ∀ n, n ≤ vs.length → ∃ data, UintVec.setAll f n v = some { v with data := data } ∧
      data.length = v.data.length ∧ Packs { v with data := data } (vs.take n) := by
    intro n
    induction n with
    | zero => exact fun _ => ⟨v.data, rfl, rfl, h⟩
    | succ n ih =>
      intro hn
      obtain ⟨data, hrun, hlen, hpacks⟩ := ih (le_of_succ_le hn)
      have hcount : (vs.take n).length = n := length_take_of_le (le_of_succ_le hn)
      have hroom' : computeMemSize v.bits ((vs.take n).length + 1) ≤ data.length := by
        rw [hcount, hlen]
        exact le_trans (computeMemSize_mono _ hn) hroom
      obtain ⟨data', hset, hlen', hpacks'⟩ :=
        hpacks.setWire (hfits _ (getElem_mem hn)) hroom'
      rw [hcount] at hset
      rw [take_append_getElem hn] at hpacks'
      refine ⟨data', ?_, hlen'.trans hlen, hpacks'⟩
      rw [UintVec.setAll, hrun, bind_some, hf n hn, bind_some]
      exact hset
  obtain ⟨data, hrun, hlen, hpacks⟩ := hall vs.length le_rfl
  rw [take_length] at hpacks
  exact ⟨data, hrun, hlen, hpacks⟩

end Packs

/-- New memory for `num` numbers of `bits` bits. -/
theorem packs_resizeWithUintbits (hbits : bits ≤ 64) (hnum : 0 < num) :
    Packs (resizeWithUintbits num bits) [] ∧
      (resizeWithUintbits num bits).data.length = computeMemSize bits num := by
  have hlen : (resizeWithUintbits num bits).data.length = computeMemSize bits num := by
    show (if num = 0 then [] else replicate _ _).length = _
    rw [if_neg (by omega), length_replicate]
  refine ⟨⟨hbits, rfl, forall_mem_nil _, Holds.nil, ?_⟩, hlen⟩
  rw [hlen]
  exact computeMemSize_dvd bits num

end UintVec
