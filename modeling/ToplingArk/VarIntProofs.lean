import Mathlib.Data.List.Induction
import ToplingArk.LittleEndianProofs

/-! # `var_int` — integers of variable length, read forwards and backwards

    Seven bits a byte, lowest first; the high bit is set on every byte but the last.
    Reading forwards ends at the first byte without the high bit.  Reading backwards
    starts at such a byte and goes on while the bytes before it have the high bit:
    for 64-bit numbers at most eight times, one less than the longest code needs. -/

namespace VarInt

open LittleEndian List Option Nat

/-- The two widths. -/
inductive Width where
  | w32
  | w64

/-- The width in bits. -/
def Width.bits : Width → Nat
  | .w32 => 32
  | .w64 => 64

/-- `maxshift`: the last shift of the forward loop. -/
def Width.maxshift : Width → Nat
  | .w32 => 28
  | .w64 => 63

/-- The bound on the shift in the backward loop; there is none for 32 bits. -/
def Width.goesOn : Width → Nat → Bool
  | .w32, _ => true
  | .w64, shift => decide (shift < 56)

/-! ## The routines -/

/-- `gg_save_var_uint`, in at most `fuel` rounds. -/
def saveLoop : Nat → Nat → List Byte
  | 0, _ => []
  | fuel + 1, x =>
    if x >>> 7 ≠ 0 then byteOf ((x &&& 0x7F) ||| 0x80) :: saveLoop fuel (x >>> 7)
    else [byteOf (x &&& 0x7F)]

/-- `save_var_uint32` and `save_var_uint64`; ten rounds are enough for 64 bits. -/
def saveVarUint (x : Nat) : List Byte := saveLoop 10 x

/-- `gg_load_var_uint`: the value and the end; `rounds` shifts are left.  Running out of
    them throws. -/
def loadLoop (w : Width) (data : List Byte) : Nat → Nat → Nat → Nat → Option (Nat × Nat)
  | 0, _, _, _ => none
  | rounds + 1, shift, x, p =>
    data[p]?.bind (fun b =>
      let x := x ||| (((b.val &&& 0x7F) <<< shift) % 2 ^ w.bits)
      if b.val &&& 0x80 = 0 then some (x, p + 1) else loadLoop w data rounds (shift + 7) x (p + 1))

/-- `load_var_uint32` and `load_var_uint64` at byte `p`. -/
def loadVarUint (w : Width) (data : List Byte) (p : Nat) : Option (Nat × Nat) :=
  loadLoop w data (w.maxshift / 7 + 1) 0 0 p

/-- The loop of `reverse_get_var_uint32` and `reverse_get_var_uint64`; `k` is the number
    of bytes up to the cursor, so that the place before the first byte is `0`. -/
def reverseLoop (w : Width) (data : List Byte) : Nat → Nat → Nat → Option (Nat × Nat × Nat)
  | 0, x, shift => some (x, shift, 0)
  | k + 1, x, shift =>
    if w.goesOn shift then
      data[k]?.bind (fun b =>
        if b.val &&& 0x80 ≠ 0 then
          reverseLoop w data k (((x <<< 7) ||| (b.val &&& 0x7F)) % 2 ^ w.bits) (shift + 7)
        else some (x, shift, k + 1))
    else some (x, shift, k + 1)

/-- `reverse_get_var_uint32` and `reverse_get_var_uint64`: the value and the cursor. -/
def reverseGet (w : Width) (data : List Byte) : Nat → Option (Nat × Nat)
  | 0 => none
  | k + 1 =>
    data[k]?.bind (fun last => (reverseLoop w data k 0 0).map (fun r =>
      (r.1 ||| ((last.val <<< r.2.1) % 2 ^ w.bits), r.2.2)))

/-- `n` numbers read forwards from byte `p`. -/
def loadAll (w : Width) (data : List Byte) : Nat → Nat → Option (List Nat × Nat)
  | 0, p => some ([], p)
  | n + 1, p => (loadVarUint w data p).bind (fun r =>
    (loadAll w data n r.2).map (fun rest => (r.1 :: rest.1, rest.2)))

/-- `n` numbers read backwards. -/
def reverseAll (w : Width) (data : List Byte) : Nat → Nat → Option (List Nat × Nat)
  | 0, k => some ([], k)
  | n + 1, k => (reverseGet w data k).bind (fun r =>
    (reverseAll w data n r.2).map (fun rest => (r.1 :: rest.1, rest.2)))

/-- Numbers written back to back. -/
def saveAll (vs : List Nat) : List Byte := vs.flatMap saveVarUint

/-! ## The code of a number -/

theorem low_seven (x : Nat) : x &&& 0x7F = x % 128 := and_two_pow_sub_one_eq_mod x 7

theorem high_bit : ∀ b : Byte, (b.val &&& 0x80 = 0 ↔ b.val < 128) := by
  decide +kernel

theorem more_byte (x : Nat) : (byteOf ((x &&& 0x7F) ||| 0x80)).val = x % 128 + 128 := by
  have hor : x % 128 ||| 128 = 2 ^ 7 * 1 + x % 128 := by
    rw [two_pow_add_eq_or_of_lt (mod_lt x (by decide)), Nat.or_comm]
  rw [low_seven, byteOf_val]
  omega

theorem last_byte (x : Nat) : (byteOf (x &&& 0x7F)).val = x % 128 := by
  rw [low_seven, byteOf_val]
  omega

variable {v x fuel : Nat} {w : Width} {last : Byte} {pre : List Byte}

/-- Seven bits are written, and more follow. -/
theorem saveLoop_more (h : 128 ≤ x) :
    saveLoop (fuel + 1) x = byteOf ((x &&& 0x7F) ||| 0x80) :: saveLoop fuel (x / 128) := by
  have hne : x >>> 7 ≠ 0 := by rw [shiftRight_eq_div_pow]; omega
  rw [saveLoop, if_pos hne, shiftRight_eq_div_pow]

theorem saveLoop_last (h : x < 128) : saveLoop (fuel + 1) x = [byteOf (x &&& 0x7F)] := by
  have heq : ¬ x >>> 7 ≠ 0 := by rw [shiftRight_eq_div_pow]; omega
  rw [saveLoop, if_neg heq]

/-- The number in the low seven bits of some bytes. -/
def low : List Byte → Nat
  | [] => 0
  | b :: bs => b.val % 128 + 128 * low bs

/-- The value of so many groups of seven bits. -/
theorem low_lt (bs : List Byte) : low bs < 128 ^ bs.length := by
  induction bs with
  | nil => simp [low]
  | cons b bs ih =>
    rw [low, length_cons]
    omega

/-- One more group on top. -/
theorem low_append (bs : List Byte) (b : Byte) :
    low (bs ++ [b]) = low bs + 128 ^ bs.length * (b.val % 128) := by
  induction bs with
  | nil => simp [low]
  | cons c bs ih =>
    rw [cons_append, low, ih, low, length_cons]
    ring

/-- **THE CODE**: bytes with the high bit, then one without it, which is not zero unless
    it stands alone. -/
theorem saveLoop_split : ∀ fuel v, 0 < fuel → v < 128 ^ fuel →
    ∃ more last, saveLoop fuel v = more ++ [last] ∧ (∀ b ∈ more, 128 ≤ b.val) ∧
      last.val < 128 ∧ low more + 128 ^ more.length * last.val = v ∧
      (more ≠ [] → 0 < last.val) := by
  intro fuel
  induction fuel with
  | zero => intro v h; exact absurd h (lt_irrefl 0)
  | succ fuel ih =>
    intro v _ hv
    by_cases hlt : v < 128
    · refine ⟨[], byteOf (v &&& 0x7F), ?_, ?_, ?_, ?_, fun h => absurd rfl h⟩
      · rw [saveLoop_last hlt, nil_append]
      · simp
      · rw [last_byte]
        omega
      · rw [last_byte, mod_eq_of_lt hlt]
        simp [low]
    have hpow : v / 128 < 128 ^ fuel := by
      omega
    have hfuel : 0 < fuel := by
      rcases Nat.eq_zero_or_pos fuel with rfl | h
      · omega
      · exact h
    obtain ⟨more, last, hsave, hmore, hlast, hval, hpos⟩ := ih (v / 128) hfuel hpow
    refine ⟨byteOf ((v &&& 0x7F) ||| 0x80) :: more, last, ?_, ?_, hlast, ?_, ?_⟩
    · rw [saveLoop_more (by omega), hsave, cons_append]
    · intro b hb
      rcases mem_cons.mp hb with rfl | hb
      · rw [more_byte]
        omega
      · exact hmore b hb
    · have hmod : (v % 128 + 128) % 128 = v % 128 := by omega
      rw [low, more_byte, hmod]
      calc v % 128 + 128 * low more + 128 ^ more.length * 128 * last.val
          = v % 128 + 128 * (low more + 128 ^ more.length * last.val) := by ring
        _ = v := by rw [hval]; omega
    intro _
    -- the rest of the number is not zero
    rcases Nat.eq_zero_or_pos last.val with h0 | h0
    · have hnil : more = [] := by
        by_contra hne
        have := hpos hne
        omega
      subst hnil
      rw [h0, low] at hval
      omega
    · exact h0

/-- A number of 64 bits has a code of at most ten bytes. -/
theorem save_split (hv : v < 2 ^ 64) :
    ∃ more last, saveVarUint v = more ++ [last] ∧ (∀ b ∈ more, 128 ≤ b.val) ∧
      last.val < 128 ∧ low more + 128 ^ more.length * last.val = v ∧
      (more ≠ [] → 0 < last.val) :=
  saveLoop_split 10 v (by decide) (hv.trans_le (by decide))

/-- The number of bytes with the high bit grows with the number. -/
theorem more_length_iff {more : List Byte} (hval : low more + 128 ^ more.length * last.val = v)
    (hlast : last.val < 128) (hpos : more ≠ [] → 0 < last.val) (n : Nat) :
    n < more.length ↔ 128 ^ (n + 1) ≤ v := by
  have hlow := low_lt more
  constructor
  · intro hn
    have hne : more ≠ [] := by
      rintro rfl
      simp at hn
    calc 128 ^ (n + 1) ≤ 128 ^ more.length * 1 := by
          rw [mul_one]
          exact Nat.pow_le_pow_right (by decide) hn
      _ ≤ 128 ^ more.length * last.val := mul_le_mul_left _ (hpos hne)
      _ ≤ v := by omega
  · by_contra hn
    have h1 : v < 128 ^ more.length * 128 := by
      calc v < 128 ^ more.length + 128 ^ more.length * last.val := by omega
        _ = 128 ^ more.length * (last.val + 1) := by ring
        _ ≤ 128 ^ more.length * 128 := mul_le_mul_left _ hlast
    have h2 : 128 ^ (more.length + 1) ≤ 128 ^ (n + 1) := Nat.pow_le_pow_right (by decide) (by omega)
    omega

/-! ## Forwards -/

/-- A group of bits above those already there is added by the or. -/
theorem or_group {shift g : Nat} (hx : x < 2 ^ shift) (hfit : x + 2 ^ shift * g < 2 ^ w.bits) :
    x ||| ((g <<< shift) % 2 ^ w.bits) = x + 2 ^ shift * g := by
  rw [shiftLeft_eq, mul_comm, mod_eq_of_lt (by omega), Nat.or_comm,
    ← two_pow_add_eq_or_of_lt hx, add_comm]

/-- The loop reads groups until the last. -/
theorem loadLoop_eq (hlast : last.val < 128) (post : List Byte) :
    ∀ (more pre : List Byte) rounds shift x, (∀ b ∈ more, 128 ≤ b.val) →
      more.length < rounds → x < 2 ^ shift →
      x + 2 ^ shift * (low more + 128 ^ more.length * last.val) < 2 ^ w.bits →
      loadLoop w (pre ++ (more ++ [last]) ++ post) rounds shift x pre.length =
        some (x + 2 ^ shift * (low more + 128 ^ more.length * last.val),
          pre.length + (more.length + 1)) := by
  intro more
  induction more with
  | nil =>
    intro pre rounds shift x _ hrounds hx hfit
    obtain ⟨r, rfl⟩ : ∃ r, rounds = r + 1 := ⟨rounds - 1, by omega⟩
    have hget : (pre ++ ([] ++ [last]) ++ post)[pre.length]? = some last := by simp
    simp only [low, length_nil, pow_zero, one_mul, zero_add] at hfit ⊢
    rw [loadLoop, hget, bind_some, if_pos ((high_bit last).mpr hlast), low_seven,
      mod_eq_of_lt hlast, or_group hx hfit]
  | cons b more ih =>
    intro pre rounds shift x hmore hrounds hx hfit
    obtain ⟨r, rfl⟩ : ∃ r, rounds = r + 1 := ⟨rounds - 1, by omega⟩
    have hb : 128 ≤ b.val := hmore b mem_cons_self
    have hget : (pre ++ (b :: more ++ [last]) ++ post)[pre.length]? = some b := by simp
    have hmod := mod_lt b.val (show 0 < 128 by decide)
    have hpow : 2 ^ (shift + 7) = 2 ^ shift * 128 := pow_add 2 shift 7
    -- the number splits into this group and the rest
    have hsplit : x + 2 ^ shift * (low (b :: more) + 128 ^ (b :: more).length * last.val) =
        x + 2 ^ shift * (b.val % 128) +
          2 ^ (shift + 7) * (low more + 128 ^ more.length * last.val) := by
      rw [low, length_cons]
      ring
    rw [hsplit] at hfit ⊢
    have hgroup : x + 2 ^ shift * (b.val % 128) < 2 ^ (shift + 7) := by
      rw [hpow]
      calc x + 2 ^ shift * (b.val % 128) < 2 ^ shift + 2 ^ shift * (b.val % 128) := by omega
        _ = 2 ^ shift * (b.val % 128 + 1) := by ring
        _ ≤ 2 ^ shift * 128 := mul_le_mul_left _ hmod
    have hrest := ih (pre ++ [b]) r (shift + 7) (x + 2 ^ shift * (b.val % 128))
      (fun c hc => hmore c (mem_cons_of_mem b hc)) (by simpa using hrounds) hgroup hfit
    rw [loadLoop, hget, bind_some, low_seven, or_group hx (by omega),
      if_neg (by rw [high_bit]; omega)]
    simp only [append_assoc, cons_append, nil_append, length_append, length_cons,
      length_nil] at hrest ⊢
    rw [hrest]
    congr 2
    omega

theorem Width.rounds_eq (w : Width) : w.bits ≤ 7 * (w.maxshift / 7 + 1) := by
  cases w <;> decide

/-- **READING ONE NUMBER FORWARDS**, at any place of the data. -/
theorem loadVarUint_eq (hv : v < 2 ^ w.bits) (pre post : List Byte) :
    loadVarUint w (pre ++ saveVarUint v ++ post) pre.length =
      some (v, pre.length + (saveVarUint v).length) := by
  have h64 : v < 2 ^ 64 := hv.trans_le (by cases w <;> decide)
  obtain ⟨more, last, hsave, hmore, hlast, hval, hpos⟩ := save_split h64
  have hrounds : more.length < w.maxshift / 7 + 1 := by
    by_contra hge
    have hbig : 128 ^ (w.maxshift / 7 + 1) ≤ v :=
      (more_length_iff hval hlast hpos (w.maxshift / 7)).mp (by omega)
    have hpow : 128 ^ (w.maxshift / 7 + 1) = 2 ^ (7 * (w.maxshift / 7 + 1)) := by
      rw [Nat.pow_mul]
    have := Nat.pow_le_pow_right (show 0 < 2 by decide) w.rounds_eq
    omega
  have h := loadLoop_eq (w := w) hlast post more pre _ 0 0 hmore hrounds (by decide)
    (by simpa [hval] using hv)
  rw [loadVarUint, hsave, h]
  simp [hval]

theorem saveAll_cons (v : Nat) (vs : List Nat) : saveAll (v :: vs) = saveVarUint v ++ saveAll vs :=
  flatMap_cons

theorem saveAll_snoc (vs : List Nat) (v : Nat) :
    saveAll (vs ++ [v]) = saveAll vs ++ saveVarUint v := by
  simp [saveAll]

/-- **ALL NUMBERS FORWARDS.** -/
theorem loadAll_eq : ∀ (vs : List Nat) (pre post : List Byte),
    (∀ v ∈ vs, v < 2 ^ w.bits) →
    loadAll w (pre ++ saveAll vs ++ post) vs.length pre.length =
      some (vs, pre.length + (saveAll vs).length) := by
  intro vs
  induction vs with
  | nil => intro pre post _; simp [loadAll, saveAll]
  | cons v vs ih =>
    intro pre post hvs
    have hv : v < 2 ^ w.bits := hvs v mem_cons_self
    have hone := loadVarUint_eq hv pre (saveAll vs ++ post)
    have hrest := ih (pre ++ saveVarUint v) post (fun x hx => hvs x (mem_cons_of_mem v hx))
    simp only [append_assoc, length_append] at hone hrest
    rw [saveAll_cons, length_cons, loadAll]
    simp only [append_assoc, length_append]
    rw [hone, bind_some, hrest, map_some, add_assoc]

/-! ## Backwards -/

/-- The bytes before a number: none, or the last of them without the high bit. -/
def Ends (pre : List Byte) : Prop := ∀ c ∈ pre.getLast?, c.val < 128

/-- What is written ends with the last byte of a number. -/
theorem ends_saveAll {vs : List Nat} (hvs : ∀ v ∈ vs, v < 2 ^ 64) : Ends (saveAll vs) := by
  induction vs using reverseRecOn with
  | nil => intro c hc; simp [saveAll] at hc
  | append_singleton vs v ih =>
    obtain ⟨more, last, hsave, -, hlast, -, -⟩ := save_split (hvs v (by simp))
    intro c hc
    rw [saveAll_snoc, hsave, ← append_assoc, getLast?_concat] at hc
    rw [← some.inj hc]
    exact hlast

/-- The backward loop takes up the bytes with the high bit, the highest first. -/
theorem reverseLoop_more (pre : List Byte) : ∀ (more rest : List Byte) x shift,
    (∀ b ∈ more, 128 ≤ b.val) → (∀ i, i < more.length → w.goesOn (shift + 7 * i) = true) →
    x * 128 ^ more.length + low more < 2 ^ w.bits →
    reverseLoop w (pre ++ more ++ rest) (pre.length + more.length) x shift =
      reverseLoop w (pre ++ more ++ rest) pre.length (x * 128 ^ more.length + low more)
        (shift + 7 * more.length) := by
  intro more
  induction more using reverseRecOn with
  | nil => intro rest x shift _ _ _; simp [low]
  | append_singleton more b ih =>
    intro rest x shift hmore hgo hfit
    have hb : 128 ≤ b.val := hmore b (by simp)
    have hmod := mod_lt b.val (show 0 < 128 by decide)
    have hget : (pre ++ (more ++ [b]) ++ rest)[pre.length + more.length]? = some b := by simp
    have hlen : pre.length + (more ++ [b]).length = pre.length + more.length + 1 := by
      simp
      omega
    have hgo0 : w.goesOn shift = true := by simpa using hgo 0 (by simp)
    -- the last byte of the group is read first
    have hsum : x * 128 ^ (more ++ [b]).length + low (more ++ [b]) =
        (x * 128 + b.val % 128) * 128 ^ more.length + low more := by
      rw [low_append, length_append, length_singleton]
      ring
    rw [hsum] at hfit ⊢
    have hstep : x * 128 + b.val % 128 < 2 ^ w.bits := by
      have : (x * 128 + b.val % 128) * 1 ≤ (x * 128 + b.val % 128) * 128 ^ more.length :=
        mul_le_mul_left _ (Nat.pow_pos (by decide))
      omega
    have hor : (x <<< 7 ||| b.val % 128) % 2 ^ w.bits = x * 128 + b.val % 128 := by
      rw [← shiftLeft_add_eq_or_of_lt hmod, shiftLeft_eq]
      exact mod_eq_of_lt hstep
    have hrest := ih (b :: rest) (x * 128 + b.val % 128) (shift + 7)
      (fun c hc => hmore c (mem_append_left _ hc))
      (fun i hi => by
        have := hgo (i + 1) (by simpa using hi)
        rwa [show shift + 7 * (i + 1) = shift + 7 + 7 * i by omega] at this)
      hfit
    rw [hlen, reverseLoop, if_pos hgo0, hget, bind_some, low_seven, hor,
      if_pos (by rw [ne_eq, high_bit]; omega)]
    simp only [append_assoc, cons_append, nil_append] at hrest ⊢
    rw [hrest, length_append, length_singleton,
      show shift + 7 + 7 * more.length = shift + 7 * (more.length + 1) by omega]

/-- It stops at the number before. -/
theorem reverseLoop_stop (hpre : Ends pre) (rest : List Byte) (x shift : Nat) :
    reverseLoop w (pre ++ rest) pre.length x shift =
      some (x, shift, pre.length) := by
  rcases eq_nil_or_concat pre with rfl | ⟨init, c, rfl⟩
  · rfl
  · rw [concat_eq_append] at hpre ⊢
    have hc : c.val < 128 := hpre c (by simp)
    have hget : (init ++ [c] ++ rest)[init.length]? = some c := by simp
    have hlow : ¬ c.val &&& 0x80 ≠ 0 := not_not_intro ((high_bit c).mpr hc)
    rw [length_append, length_singleton, reverseLoop, hget, bind_some, if_neg hlow, ite_self]

/-- **READING ONE NUMBER BACKWARDS**: the number comes back, with the cursor before its
    code, exactly if its code has at most eight bytes with the high bit where the loop is
    bounded.  In the other case another number comes back. -/
theorem reverseGet_iff (hv : v < 2 ^ w.bits) (hpre : Ends pre) (post : List Byte) :
    ∃ r k, reverseGet w (pre ++ saveVarUint v ++ post) (pre.length + (saveVarUint v).length) =
        some (r, k) ∧ (r = v ↔ (w = .w64 → v < 2 ^ 63)) ∧ (r = v → k = pre.length) := by
  have h64 : v < 2 ^ 64 := hv.trans_le (by cases w <;> decide)
  obtain ⟨more, last, hsave, hmore, hlast, hval, hpos⟩ := save_split h64
  have hlow := low_lt more
  have hget : (pre ++ (more ++ [last]) ++ post)[pre.length + more.length]? = some last := by simp
  rw [hsave, length_append, length_singleton, ← add_assoc, reverseGet, hget, bind_some,
    show pre ++ (more ++ [last]) ++ post = pre ++ more ++ (last :: post) by simp]
  by_cases hok : w = .w64 → v < 2 ^ 63
  · have hgo : ∀ i, i < more.length → w.goesOn (0 + 7 * i) = true := by
      intro i hi
      cases w with
      | w32 => rfl
      | w64 =>
        have hbig := (more_length_iff hval hlast hpos i).mp hi
        have hsmall := hok rfl
        refine decide_eq_true ?_
        by_contra hge
        have : 128 ^ 9 ≤ 128 ^ (i + 1) := Nat.pow_le_pow_right (by decide) (by omega)
        have h63 : 128 ^ 9 = 2 ^ 63 := by decide
        omega
    have hfit : 0 * 128 ^ more.length + low more < 2 ^ w.bits := by omega
    have hshift : 128 ^ more.length = 2 ^ (7 * more.length) := by rw [Nat.pow_mul]
    rw [reverseLoop_more pre more (last :: post) 0 0 hmore hgo hfit, zero_mul, zero_add,
      zero_add, append_assoc, reverseLoop_stop hpre, map_some]
    refine ⟨v, pre.length, ?_, iff_of_true rfl hok, fun _ => rfl⟩
    rw [or_group (by rw [← hshift]; exact hlow) (by rw [← hshift, hval]; exact hv), ← hshift, hval]
  -- nine bytes with the high bit: the loop leaves the lowest of them
  obtain ⟨rfl, hbig⟩ : w = .w64 ∧ 2 ^ 63 ≤ v := by
    rw [Classical.not_imp] at hok
    exact ⟨hok.1, by omega⟩
  have hnine : 8 < more.length := by
    refine (more_length_iff hval hlast hpos 8).mpr ?_
    have h63 : 128 ^ (8 + 1) = 2 ^ 63 := by decide
    omega
  obtain ⟨first, rest, hsplit, hrest⟩ : ∃ first rest, more = first ++ rest ∧ rest.length = 8 :=
    ⟨more.take (more.length - 8), more.drop (more.length - 8), (take_append_drop _ _).symm,
      by rw [length_drop]; omega⟩
  have hrlow : low rest < 2 ^ 56 := by
    have := low_lt rest
    rwa [hrest] at this
  obtain ⟨k, hk⟩ : ∃ k, (pre ++ first).length = k + 1 := by
    refine ⟨(pre ++ first).length - 1, ?_⟩
    rw [hsplit, length_append] at hnine
    rw [length_append]
    omega
  have hloop : reverseLoop .w64 (pre ++ more ++ (last :: post)) (pre.length + more.length) 0 0 =
      some (low rest, 56, k + 1) := by
    have h := reverseLoop_more (w := .w64) (pre ++ first) rest (last :: post) 0 0
      (fun b hb => hmore b (by rw [hsplit]; exact mem_append_right _ hb))
      (fun i hi => decide_eq_true (by omega))
      (by rw [zero_mul, zero_add]; exact hrlow.trans_le (by decide))
    rw [zero_mul, zero_add, hrest, hk] at h
    rw [hsplit, length_append, ← add_assoc, ← append_assoc, ← length_append, hrest, hk, h]
    rfl
  have hor := or_group (w := .w64) (g := last.val) hrlow (by
    show low rest + 2 ^ 56 * last.val < 2 ^ 64
    omega)
  rw [hloop]
  refine ⟨_, _, rfl, iff_of_false ?_ hok, fun heq => ?_⟩
  · rw [hor]
    omega
  · rw [hor] at heq
    omega

/-- **ALL NUMBERS BACKWARDS.** -/
theorem reverseAll_iff : ∀ (vs : List Nat) (post : List Byte),
    (∀ v ∈ vs, v < 2 ^ w.bits) →
    (reverseAll w (saveAll vs ++ post) vs.length (saveAll vs).length = some (vs.reverse, 0) ↔
      ∀ v ∈ vs, w = .w64 → v < 2 ^ 63) := by
  intro vs
  induction vs using reverseRecOn with
  | nil => intro post _; simp [reverseAll, saveAll]
  | append_singleton vs v ih =>
    intro post hvs
    have hlt : ∀ x ∈ vs, x < 2 ^ w.bits := fun x hx => hvs x (mem_append_left _ hx)
    have hends : Ends (saveAll vs) := ends_saveAll (fun x hx =>
      lt_of_lt_of_le (hlt x hx) (by cases w <;> decide))
    obtain ⟨r, k, hget, hiff, hk⟩ := reverseGet_iff (hvs v (by simp)) hends post
    have hrest := ih (saveVarUint v ++ post) hlt
    rw [saveAll_snoc, length_append, length_append, length_singleton, reverseAll, hget, bind_some,
      reverse_append, reverse_singleton, singleton_append]
    simp only [forall_mem_append, mem_singleton, forall_eq]
    rw [← append_assoc] at hrest
    by_cases hr : r = v
    · rw [hk hr, ← hrest, hr, and_iff_left (hiff.mp hr)]
      constructor
      · intro h
        obtain ⟨⟨rest, e⟩, hall, heq⟩ := map_eq_some_iff.mp h
        simp only [Prod.mk.injEq, cons.injEq, true_and] at heq
        rw [hall, heq.1, heq.2]
      · intro h
        rw [h, map_some]
    · refine iff_of_false (fun h => ?_) (fun h => hr (hiff.mpr h.2))
      obtain ⟨⟨rest, e⟩, -, heq⟩ := map_eq_some_iff.mp h
      simp only [Prod.mk.injEq, cons.injEq] at heq
      exact hr heq.1.1

/-- **BOTH DIRECTIONS**: numbers written back to back are read forwards in order up to the
    end of the bytes, and backwards in reverse order down to the place before them,
    exactly if no 64-bit number has its highest bit set. -/
theorem var_uint_both_ways_iff (w : Width) {vs : List Nat}
    (hvs : ∀ v ∈ vs, v < 2 ^ w.bits) :
    (loadAll w (saveAll vs) vs.length 0 = some (vs, (saveAll vs).length) ∧
      reverseAll w (saveAll vs) vs.length (saveAll vs).length = some (vs.reverse, 0)) ↔
    ∀ v ∈ vs, w = .w64 → v < 2 ^ 63 := by
  have hload := loadAll_eq (w := w) vs [] [] hvs
  have hrev := reverseAll_iff (w := w) vs [] hvs
  simp only [append_nil, length_nil, zero_add] at hload hrev
  rw [hrev]
  exact and_iff_right hload

/-- Two numbers, forwards and backwards. -/
theorem var_uint_both_ways_two :
    ((loadAll .w64 (saveAll [5, 300]) 2 0 = some ([5, 300], (saveAll [5, 300]).length) ∧
      reverseAll .w64 (saveAll [5, 300]) 2 (saveAll [5, 300]).length = some ([300, 5], 0)) ↔
    ∀ v ∈ [5, 300], Width.w64 = .w64 → v < 2 ^ 63) :=
  var_uint_both_ways_iff .w64 (by decide)

/-- The largest code has ten bytes, of which nine are read back. -/
theorem reverse_get_2_63_fails :
    saveAll [2 ^ 63] = [128, 128, 128, 128, 128, 128, 128, 128, 128, 1] ∧
    loadAll .w64 (saveAll [2 ^ 63]) 1 0 = some ([2 ^ 63], 10) ∧
    reverseAll .w64 (saveAll [2 ^ 63]) 1 10 = some ([2 ^ 56], 1) := by decide +kernel

/-- **THE BYTES TELL THE NUMBERS**, and how many there are. -/
theorem saveAll_eq_iff (w : Width) (vs us : List (Fin (2 ^ w.bits))) :
    saveAll (vs.map Fin.val) = saveAll (us.map Fin.val) ↔ vs = us := by
  refine ⟨fun h => ?_, fun h => h ▸ rfl⟩
  have hnil : loadVarUint w (saveAll []) 0 = none := by cases w <;> rfl
  have hload : ∀ (v : Fin (2 ^ w.bits)) vs,
      loadVarUint w (saveAll ((v :: vs).map Fin.val)) 0 =
        some (v.val, 0 + (saveVarUint v).length) :=
    fun v _ => loadVarUint_eq v.isLt [] _
  induction vs generalizing us with
  | nil =>
    cases us with
    | nil => rfl
    | cons u us => cases hnil.symm.trans (h ▸ hload u us)
  | cons v vs ih =>
    have hv := hload v vs
    rw [h] at hv
    cases us with
    | nil => cases hnil.symm.trans hv
    | cons u us =>
      rw [hload, some_inj] at hv
      obtain rfl := Fin.ext (Prod.mk.inj hv).1.symm
      rw [ih us (append_cancel_left h)]

end VarInt
