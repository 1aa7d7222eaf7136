import Mathlib.Data.Nat.ModEq
import Mathlib.Data.Nat.Bitwise
import Mathlib.Order.Interval.Finset.Nat
import ToplingArk.FiniteMapProofs
import ToplingArk.MemoryProofs
import ToplingArk.RunProofs

/-! # CircularPermanentID — a ring of objects under permanent ids

    The objects with the ids from `min_id` on lie in a ring, each at its id modulo the
    capacity, which is a power of two.  An id is dropped by setting its bit; only the
    smallest id, or a full ring, advances `min_id`.  A full ring whose smallest id is alive is
    doubled, and then one of its two parts has to move.  Cells that were never written are
    `none`; so is the outcome of an access out of range. -/

namespace PermanentId

open Memory List Option Function Nat

variable {T : Type} {i n tail : Nat} {x : T}

/-- Subtraction in `size_t`. -/
def sub (a b : Nat) : Nat := (a + 2 ^ 64 - b) % 2 ^ 64

/-- The ring: objects, bits of dropped ids and the ends. -/
structure Ring (T : Type) where
  objects : List (Option T)
  dropped : List (Option Bool)
  cap : Nat
  tail : Nat
  minId : Nat
  numFree : Nat
  deriving DecidableEq, Repr

/-- The capacity of a new ring; `terark_bsr_u32` of zero is undefined. -/
def roundCap (initialCap : Nat) : Option Nat :=
  let cap := max initialCap 64
  if cap &&& (cap - 1) ≠ 0 then
    if cap % 2 ^ 32 = 0 then none else some (2 ^ (log2 (cap % 2 ^ 32) + 1))
  else some cap

/-- The constructor; `t0` is `T()`.  The bits come in words of 64. -/
def new (t0 : T) (initialCap : BitVec 64) : Option (Ring T) :=
  (roundCap initialCap.toNat).map (fun cap =>
    { objects := replicate cap (some t0)
      dropped := replicate (cap / 64 * 64) (some false)
      cap := cap, tail := 0, minId := 0, numFree := 0 })

/-- `AutoFree::resize`. -/
def resizeCells {α : Type} (l : List (Option α)) (n : Nat) : List (Option α) :=
  l.take n ++ replicate (n - l.length) none

variable (s : Ring T)

/-- `head` -/
def Ring.head : Nat := s.minId &&& (s.cap - 1)

/-- `virt_tail`: the tail as seen from the head. -/
def Ring.virtTail : Nat := sub s.tail s.head &&& (s.cap - 1)

/-- Both arrays are doubled, then objects and words of bits move. -/
def moveCells (tail dst src n wdst wsrc wn : Nat) : Option (Ring T) :=
  let cap2 := 2 * s.cap % 2 ^ 64
  (memmove (resizeCells s.objects cap2) dst src n).bind (fun objects =>
    (memmove (resizeCells s.dropped (cap2 / 64 * 64)) (wdst * 64) (wsrc * 64) (wn * 64)).map
      (fun dropped =>
        { s with objects := objects, dropped := dropped, cap := cap2, tail := tail }))

/-- The part of `push` that doubles the ring, with the new `virt_tail`. -/
def double : Option (Ring T × Nat) :=
  let cap2 := 2 * s.cap % 2 ^ 64
  let cn := s.cap / 64
  if s.tail < s.head then
    if s.minId &&& s.cap ≠ 0 then
      (moveCells s s.tail (s.head + s.cap) s.head (s.cap - s.head)
        (s.head / 64 + cn) (s.head / 64) (cn - s.head / 64)).map
          (fun s' => (s', sub s.tail (s.head + s.cap) &&& sub cap2 1))
    else
      (moveCells s (s.tail + s.cap) s.cap 0 s.tail cn 0 ((s.tail + 63) / 64)).map
        (fun s' => (s', s.tail + s.cap - s.head))
  else if s.minId &&& s.cap ≠ 0 then
    (moveCells s (s.tail + s.cap) s.cap 0 (s.cap - 1) cn 0 cn).map
      (fun s' => (s', s.tail + s.cap))
  else
    some ({ s with objects := resizeCells s.objects cap2
                   dropped := resizeCells s.dropped (cap2 / 64 * 64)
                   cap := cap2 }, s.virtTail)

/-- The end of `push`: the object is stored at the tail. -/
def doPush (virtTail : Nat) (x : T) : Option (Ring T × Nat) :=
  if s.tail < s.objects.length ∧ s.tail < s.dropped.length then
    some ({ s with objects := s.objects.set s.tail (some x)
                   dropped := s.dropped.set s.tail (some false)
                   tail := (s.tail + 1) &&& (s.cap - 1) }, (s.minId + virtTail) % 2 ^ 64)
  else none

/-- `push` -/
def push (x : T) : Option (Ring T × Nat) :=
  if s.virtTail = s.cap - 1 then
    s.dropped[s.head]?.join.bind (fun isDropped =>
      if isDropped then
        let s := { s with minId := (s.minId + 1) % 2 ^ 64, numFree := sub s.numFree 1 }
        doPush s s.virtTail x
      else (double s).bind (fun r => doPush r.1 r.2 x))
  else doPush s s.virtTail x

/-- `operator[]`. -/
def get (id : Nat) : Option T := s.objects[id &&& (s.cap - 1)]?.join

/-- `drop` -/
def drop (id : Nat) : Option (Ring T) :=
  if id ≠ s.minId then
    if id &&& (s.cap - 1) < s.dropped.length then
      some { s with numFree := (s.numFree + 1) % 2 ^ 64
                    dropped := s.dropped.set (id &&& (s.cap - 1)) (some true) }
    else none
  else some { s with minId := (s.minId + 1) % 2 ^ 64 }

/-- `max_id` -/
def maxId : Nat := (s.minId + (sub s.tail s.minId &&& (s.cap - 1))) % 2 ^ 64

/-- `num_used` -/
def numUsed : Nat := sub (sub s.tail s.minId &&& (s.cap - 1)) s.numFree

/-! ## Arithmetic of the ring -/

variable {b c dst e len src : Nat} {α : Type} {r : Ring T × Nat} {l : List (Option α)}

/-- The distance of two positions of a ring. -/
theorem sub_and_mask {k a d : Nat} (hk : k ≤ 64) (hb : b ≤ 2 ^ 64) (hmod : a ≡ b + d [MOD 2 ^ k])
    (hd : d < 2 ^ k) : sub a b &&& (2 ^ k - 1) = d := by
  have hdvd : 2 ^ k ∣ 2 ^ 64 := pow_dvd_pow 2 hk
  have hcancel : a + 2 ^ 64 - b ≡ d [MOD 2 ^ k] := by
    refine Nat.ModEq.add_right_cancel' b ?_
    rw [Nat.sub_add_cancel (hb.trans (le_add_left _ _))]
    calc a + 2 ^ 64 ≡ a + 0 [MOD 2 ^ k] := Nat.ModEq.add_left a (modEq_zero_iff_dvd.mpr hdvd)
      _ ≡ b + d [MOD 2 ^ k] := hmod
      _ = d + b := add_comm b d
  unfold sub
  rw [and_two_pow_sub_one_eq_mod, mod_mod_of_dvd _ hdvd, hcancel, mod_eq_of_lt hd]

theorem sub_eq {a : Nat} (hle : b ≤ a) (ha : a < 2 ^ 64) : sub a b = a - b := by
  unfold sub
  omega

/-- The bit of the capacity tells the half of the doubled ring. -/
theorem mod_double (m k : Nat) :
    m % (2 * 2 ^ k) = m % 2 ^ k + if m &&& 2 ^ k ≠ 0 then 2 ^ k else 0 := by
  have hbit : m &&& 2 ^ k ≠ 0 ↔ m / 2 ^ k % 2 = 1 := by
    rw [and_two_pow, testBit_eq_decide_div_mod_eq]
    by_cases hone : m / 2 ^ k % 2 = 1
    · simp [hone]
    · simp [hone]
  rw [mul_comm, mod_mul]
  by_cases hone : m / 2 ^ k % 2 = 1
  · rw [if_pos (hbit.mpr hone), hone, mul_one]
  · have hzero : m / 2 ^ k % 2 = 0 := by omega
    rw [if_neg (mt hbit.mp hone), hzero, mul_zero]

/-! ## The invariant -/

/-- The ids from `m` to `n` lie in the ring; those without an object are dropped. -/
structure Holds (s : Ring T) (m n : Nat) (live : Nat → Option T) : Prop where
  cap : ∃ k, 6 ≤ k ∧ k ≤ 63 ∧ s.cap = 2 ^ k
  objects : s.objects.length = s.cap
  dropped : s.dropped.length = s.cap
  le : m ≤ n
  few : n - m < s.cap
  bound : n ≤ 2 ^ 64
  minId : s.minId = m % 2 ^ 64
  tail : s.tail = n % s.cap
  bit : ∀ i, m ≤ i → i < n → s.dropped[i % s.cap]? = some (some (live i).isNone)
  object : ∀ i x, live i = some x → s.objects[i % s.cap]? = some (some x)
  range : ∀ i, live i ≠ none → m ≤ i ∧ i < n
  count : s.numFree + FiniteMap.size live = n - m

variable {s} {m n : Nat} {live : Nat → Option T}

section

variable (h : Holds s m n live)

include h

/-- Masking is the remainder by the capacity. -/
theorem Holds.and_mask (i : Nat) : i &&& (s.cap - 1) = i % s.cap := by
  obtain ⟨k, -, -, hcap⟩ := h.cap
  rw [hcap, and_two_pow_sub_one_eq_mod]

theorem Holds.dvd : s.cap ∣ 2 ^ 64 := by
  obtain ⟨k, -, hk, hcap⟩ := h.cap
  rw [hcap]
  exact pow_dvd_pow 2 (le_succ_of_le hk)

theorem Holds.cap_bounds : 64 ≤ s.cap ∧ s.cap ≤ 2 ^ 63 := by
  obtain ⟨k, hlo, hhi, hcap⟩ := h.cap
  rw [hcap]
  exact ⟨Nat.pow_le_pow_right (n := 2) (by decide) hlo,
    Nat.pow_le_pow_right (n := 2) (by decide) hhi⟩

theorem Holds.cap_pos : 0 < s.cap := lt_of_lt_of_le (by decide) h.cap_bounds.1

/-- The head is the place of the smallest id. -/
theorem Holds.head_eq : s.head = m % s.cap := by
  unfold Ring.head
  rw [h.and_mask, h.minId, mod_mod_of_dvd _ h.dvd]

/-- The distance from any number that stands for `m` to the end. -/
theorem Holds.sub_tail (hb : b ≤ 2 ^ 64) (hmod : b ≡ m [MOD s.cap]) :
    sub s.tail b &&& (s.cap - 1) = n - m := by
  obtain ⟨k, -, hk, hcap⟩ := h.cap
  have hfew := h.few
  have htail := h.tail
  rw [hcap] at hmod hfew htail ⊢
  refine sub_and_mask (le_succ_of_le hk) hb ?_ hfew
  rw [htail]
  calc n % 2 ^ k ≡ n [MOD 2 ^ k] := mod_modEq n _
    _ = m + (n - m) := (Nat.add_sub_cancel' h.le).symm
    _ ≡ b + (n - m) [MOD 2 ^ k] := hmod.symm.add_right _

/-- The virtual tail counts the ids in the ring. -/
theorem Holds.virtTail_eq : s.virtTail = n - m := by
  unfold Ring.virtTail
  rw [h.head_eq]
  refine h.sub_tail ?_ (mod_modEq m _)
  exact le_trans (le_of_lt (mod_lt m h.cap_pos)) (h.cap_bounds.2.trans (by decide))

theorem Holds.sub_minId : sub s.tail s.minId &&& (s.cap - 1) = n - m := by
  refine h.sub_tail ?_ ?_
  · rw [h.minId]
    exact le_of_lt (mod_lt m (by decide))
  · rw [h.minId]
    exact mod_mod_of_dvd m h.dvd

/-- `max_id` is the next id. -/
theorem Holds.maxId_eq : maxId s = n % 2 ^ 64 := by
  unfold maxId
  rw [h.sub_minId, h.minId, mod_add_mod, Nat.add_sub_cancel' h.le]

theorem Holds.finite : { i | live i ≠ none }.Finite :=
  (Set.finite_lt_nat n).subset (fun i hi => (h.range i hi).2)

/-- `num_used` counts the live ids. -/
theorem Holds.numUsed_eq : numUsed s = FiniteMap.size live := by
  have hcount := h.count
  have hfew := h.few
  have hcap := h.cap_bounds.2
  unfold numUsed
  rw [h.sub_minId, sub_eq (by omega) (by omega)]
  omega

end

/-- Ids in the ring have different places. -/
theorem place_ne {j : Nat} (hi : m ≤ i) (hij : i < j) (hj : j < m + c) : i % c ≠ j % c := by
  intro heq
  have hdvd : c ∣ j - i := (modEq_iff_dvd' hij.le).mp heq
  have := le_of_dvd (by omega) hdvd
  omega

/-! ## Pushing -/

/-- **DO_PUSH** into a ring with room. -/
theorem doPush_holds (h : Holds s m n live) (hroom : n - m + 1 < s.cap) (hn : n < 2 ^ 64) (x : T) :
    ∃ s', doPush s (n - m) x = some (s', n) ∧
      Holds s' m (n + 1) (update live n (some x)) := by
  have hlt : s.tail < s.cap := by
    rw [h.tail]
    exact mod_lt n h.cap_pos
  have hle := h.le
  have hnone : live n = none := by
    by_contra hsome
    exact absurd (h.range n hsome).2 (lt_irrefl n)
  -- the tail's cell belongs to no id of the ring
  have hplace : ∀ i, m ≤ i → i < n → s.tail ≠ i % s.cap := by
    intro i hi hin
    rw [h.tail]
    exact (place_ne hi hin (by omega)).symm
  have hid : (s.minId + (n - m)) % 2 ^ 64 = n := by
    rw [h.minId, mod_add_mod, Nat.add_sub_cancel' hle, mod_eq_of_lt hn]
  unfold doPush
  rw [h.objects, h.dropped, if_pos ⟨hlt, hlt⟩, hid]
  refine ⟨_, rfl, { cap := h.cap, objects := ?_, dropped := ?_, le := le_succ_of_le h.le,
                    few := ?_, bound := hn, minId := h.minId, tail := ?_, bit := ?_, object := ?_,
                    range := ?_, count := ?_ }⟩
  · rw [length_set]
    exact h.objects
  · rw [length_set]
    exact h.dropped
  · show n + 1 - m < s.cap
    omega
  · rw [h.and_mask, h.tail, mod_add_mod]
  · intro i hi hin
    rcases Nat.lt_succ_iff_lt_or_eq.mp hin with hlti | rfl
    · rw [getElem?_set_ne (hplace i hi hlti), update_of_ne hlti.ne]
      exact h.bit i hi hlti
    · rw [← h.tail, getElem?_set_self (by rw [h.dropped]; exact hlt), update_self]
      rfl
  · intro i y hy
    by_cases hin : i = n
    · subst hin
      rw [update_self] at hy
      rw [← h.tail, getElem?_set_self (by rw [h.objects]; exact hlt), hy]
    · rw [update_of_ne hin] at hy
      obtain ⟨hmi, hlti⟩ := h.range i (by rw [hy]; exact some_ne_none y)
      rw [getElem?_set_ne (hplace i hmi hlti)]
      exact h.object i y hy
  · intro i hi
    by_cases hin : i = n
    · subst hin
      exact ⟨hle, lt_succ_self i⟩
    · rw [update_of_ne hin] at hi
      exact ⟨(h.range i hi).1, lt_succ_of_lt (h.range i hi).2⟩
  · show s.numFree + _ = _
    have hcount := h.count
    rw [FiniteMap.size_update_some h.finite hnone]
    omega

/-- The smallest id is dropped: the ring can begin behind it. -/
theorem Holds.advance (h : Holds s m n live) (hlt : m < n) {live' : Nat → Option T} {free : Nat}
    (hnone : live' m = none) (hsame : ∀ i, i ≠ m → live' i = live i)
    (hfree : free + FiniteMap.size live' = n - (m + 1)) :
    Holds { s with minId := (s.minId + 1) % 2 ^ 64, numFree := free } (m + 1) n live' := by
  have hlive : ∀ i, live' i ≠ none → i ≠ m := by
    rintro i hi rfl
    exact hi hnone
  refine { cap := h.cap, objects := h.objects, dropped := h.dropped, le := hlt, few := ?_,
           bound := h.bound, minId := ?_, tail := h.tail, bit := ?_, object := ?_,
           range := ?_, count := hfree }
  · show n - (m + 1) < s.cap
    have := h.few
    omega
  · rw [h.minId, mod_add_mod]
  · intro i hi hin
    rw [hsame i (ne_of_gt hi)]
    exact h.bit i (le_of_lt hi) hin
  · intro i x hx
    rw [hsame i (hlive i (by rw [hx]; exact some_ne_none x))] at hx
    exact h.object i x hx
  · intro i hi
    have hne := hlive i hi
    rw [hsame i hne] at hi
    exact ⟨lt_of_le_of_ne (h.range i hi).1 hne.symm, (h.range i hi).2⟩

/-! ## Doubling -/

theorem resizeCells_eq (hle : l.length ≤ n) :
    (resizeCells l n).length = n ∧ ∀ i, i < l.length → (resizeCells l n)[i]? = l[i]? := by
  unfold resizeCells
  rw [take_of_length_le hle]
  refine ⟨?_, ?_⟩
  · rw [length_append, length_replicate]
    omega
  · intro i hi
    exact getElem?_append_left hi

/-- The cells of the ids from `m` to `n` have their places in the doubled ring. -/
def Relocated {α : Type} (c m n : Nat) (l l' : List α) : Prop :=
  l'.length = 2 * c ∧ ∀ i, m ≤ i → i < n → l'[i % (2 * c)]? = l[i % c]?

/-- Moved to a ring of twice the capacity, all ids are found. -/
theorem Holds.relocate (h : Holds s m n live) (hcap : s.cap < 2 ^ 63) {objects : List (Option T)}
    {dropped : List (Option Bool)} (hobjects : Relocated s.cap m n s.objects objects)
    (hdropped : Relocated s.cap m n s.dropped dropped) (htail : tail = n % (2 * s.cap)) :
    Holds { s with objects := objects, dropped := dropped, cap := 2 * s.cap, tail := tail }
      m n live := by
  refine { cap := ?_, objects := hobjects.1, dropped := hdropped.1, le := h.le, few := ?_,
           bound := h.bound, minId := h.minId, tail := htail, bit := ?_, object := ?_,
           range := h.range, count := h.count }
  · obtain ⟨k, hlo, hhi, hk⟩ := h.cap
    rw [hk] at hcap
    have hlt : k < 63 := (Nat.pow_lt_pow_iff_right (by decide)).mp hcap
    exact ⟨k + 1, le_succ_of_le hlo, hlt, by rw [hk, pow_succ, mul_comm]⟩
  · show n - m < 2 * s.cap
    have := h.few
    omega
  · intro i hi hin
    exact (hdropped.2 i hi hin).trans (h.bit i hi hin)
  · intro i x hx
    obtain ⟨hi, hin⟩ := h.range i (by rw [hx]; exact some_ne_none x)
    exact (hobjects.2 i hi hin).trans (h.object i x hx)

/-- The places of an id in a ring that begins at `m` and in the doubled one, when `m` is in
    the half from `e` on. -/
theorem place_double (hc : 0 < c) (he : e = 0 ∨ e = c) (hm : m % (2 * c) = m % c + e) (hi : m ≤ i)
    (hin : i < m + c) :
    i % c < c ∧ (m % c ≤ i % c → i % (2 * c) = i % c + e ∧ i % c = m % c + (i - m)) ∧
      (i % c < m % c → i % (2 * c) = i % c + (c - e) ∧ i % c + c = m % c + (i - m)) := by
  have hlt : m % c < c := mod_lt m hc
  have hsmall := add_mod_eq_ite (m := m) (n := i - m) (k := c)
  have hlarge := add_mod_eq_ite (m := m) (n := i - m) (k := 2 * c)
  rw [Nat.add_sub_cancel' hi, mod_eq_of_lt (show i - m < c by omega)] at hsmall
  rw [Nat.add_sub_cancel' hi, mod_eq_of_lt (show i - m < 2 * c by omega)] at hlarge
  refine ⟨mod_lt i hc, fun hge => ?_, fun hless => ?_⟩
  · split at hsmall <;> split at hlarge <;> omega
  · split at hsmall <;> split at hlarge <;> omega

/-- A block of cells moves into the upper half, and with it all that belongs there. -/
theorem relocated_move {lo hi : Nat} (dst src len : Nat) (hlen : l.length = c) (hc : 0 < c)
    (hdst : dst = src + c) (hsum : src + len ≤ c) (hlo : src ≤ lo) (hhi : hi ≤ src + len)
    (hplace : ∀ i, m ≤ i → i < n →
      (lo ≤ i % c ∧ i % c < hi ∧ i % (2 * c) = i % c + c) ∨ i % (2 * c) = i % c) :
    ∃ l', memmove (resizeCells l (2 * c)) dst src len = some l' ∧ Relocated c m n l l' := by
  obtain ⟨hlen2, hold⟩ := resizeCells_eq (l := l) (n := 2 * c) (by omega)
  obtain ⟨l', hmove, hlen', hin, hout⟩ := memmove_eq
    (show src + len ≤ (resizeCells l (2 * c)).length by omega)
    (show dst + len ≤ (resizeCells l (2 * c)).length by omega)
  refine ⟨l', hmove, hlen'.trans hlen2, fun i hi hin' => ?_⟩
  have hr := mod_lt i hc
  rcases hplace i hi hin' with ⟨h1, h2, h3⟩ | h3
  · have hmoved := hin (i % c - src) (by omega)
    rw [show dst + (i % c - src) = i % c + c by omega,
      show src + (i % c - src) = i % c by omega] at hmoved
    rw [h3, hmoved, hold _ (by omega)]
  · rw [h3, hout _ (.inl (by omega)), hold _ (by omega)]

theorem Holds.cap_words (h : Holds s m n live) : s.cap / 64 * 64 = s.cap := by
  obtain ⟨k, hlo, -, hk⟩ := h.cap
  rw [hk]
  exact Nat.div_mul_cancel (pow_dvd_pow 2 hlo)

/-- Objects move up by the capacity, and with them at least the words of their bits. -/
theorem moveCells_holds (h : Holds s m n live) (hcap : s.cap < 2 ^ 63)
    (dst src len wdst wsrc wn : Nat) (hdst : dst = src + s.cap) (hsum : src + len ≤ s.cap)
    (hwdst : wdst = wsrc + s.cap / 64) (hwsum : wsrc + wn ≤ s.cap / 64) (hlo : wsrc * 64 ≤ src)
    (hhi : src + len ≤ (wsrc + wn) * 64)
    (hplace : ∀ i, m ≤ i → i < n → (src ≤ i % s.cap ∧ i % s.cap < src + len ∧
      i % (2 * s.cap) = i % s.cap + s.cap) ∨ i % (2 * s.cap) = i % s.cap)
    (htail : tail = n % (2 * s.cap)) :
    ∃ s', moveCells s tail dst src len wdst wsrc wn = some s' ∧ Holds s' m n live ∧
      s'.cap = 2 * s.cap := by
  have hwords := h.cap_words
  obtain ⟨objects, hmove, hrel⟩ := relocated_move _ _ _ h.objects h.cap_pos hdst hsum le_rfl le_rfl
    hplace
  obtain ⟨dropped, hmove', hrel'⟩ := relocated_move (wdst * 64) _ (wn * 64)
    h.dropped h.cap_pos (by omega) (by omega) hlo (by omega) hplace
  unfold moveCells
  dsimp only
  rw [mod_eq_of_lt (show 2 * s.cap < 2 ^ 64 by omega),
    show 2 * s.cap / 64 * 64 = 2 * s.cap by omega, hmove, hmove']
  exact ⟨_, rfl, h.relocate hcap hrel hrel' htail, rfl⟩

/-- **DOUBLING** a full ring keeps every object; only in one case `virt_tail` is wrong. -/
theorem double_holds (h : Holds s m n live) (hfull : n - m = s.cap - 1) (hm : m < 2 ^ 64)
    (hcap : s.cap < 2 ^ 63) :
    ∃ s', double s = some (s', if m % (2 * s.cap) = s.cap then 2 * s.cap - 1 else n - m) ∧
      Holds s' m n live ∧ s'.cap = 2 * s.cap := by
  have hwords := h.cap_words
  have hc := h.cap_pos
  have hle := h.le
  have hlt : m % s.cap < s.cap := mod_lt m hc
  have hcap2 : 2 * s.cap % 2 ^ 64 = 2 * s.cap := mod_eq_of_lt (by omega)
  have hdouble : m % (2 * s.cap) = m % s.cap + if s.minId &&& s.cap ≠ 0 then s.cap else 0 := by
    obtain ⟨k, -, -, hk⟩ := h.cap
    rw [h.minId, mod_eq_of_lt hm, hk]
    exact mod_double m k
  unfold double
  rw [h.head_eq, h.tail, hcap2, h.virtTail_eq]
  by_cases hbit : s.minId &&& s.cap ≠ 0
  · rw [if_pos hbit] at hdouble
    have hplace := fun i (hi : m ≤ i) => place_double (i := i) hc (.inr rfl) hdouble hi
    obtain ⟨hn, hge, hless⟩ := hplace n hle (by omega)
    by_cases hwrap : n % s.cap < m % s.cap
    · -- the part from the head on moves up
      obtain ⟨htail, hdist⟩ := hless hwrap
      rw [Nat.sub_self, add_zero] at htail
      obtain ⟨s', hmove, hholds, hcap'⟩ := moveCells_holds h hcap _ (m % s.cap)
        (s.cap - m % s.cap) _ _ (s.cap / 64 - m % s.cap / 64) rfl
        (by omega) rfl (by omega) (div_mul_le_self _ 64) (by omega)
        (fun i hi hin => by have := hplace i hi (by omega); omega) htail.symm
      have hvirt := hholds.virtTail_eq
      unfold Ring.virtTail at hvirt
      rw [hholds.head_eq, hholds.tail, hcap', hdouble, htail] at hvirt
      rw [if_pos hwrap, if_pos hbit, hmove,
        sub_eq (show 1 ≤ 2 * s.cap by omega) (by omega), hvirt, if_neg (by omega)]
      exact ⟨s', rfl, hholds, hcap'⟩
    -- the whole ring moves up
    obtain ⟨htail, hdist⟩ := hge (not_lt.mp hwrap)
    obtain ⟨s', hmove, hholds, hcap'⟩ := moveCells_holds h hcap s.cap 0 (s.cap - 1) _ 0 _
      (zero_add _).symm (by omega) (zero_add _).symm (zero_add _).le
      le_rfl (by omega) (fun i hi hin => by have := hplace i hi (by omega); omega) htail.symm
    rw [if_neg hwrap, if_pos hbit, hmove, if_pos (by omega),
      show n % s.cap + s.cap = 2 * s.cap - 1 by omega]
    exact ⟨s', rfl, hholds, hcap'⟩
  rw [if_neg hbit] at hdouble
  have hplace := fun i (hi : m ≤ i) => place_double (i := i) hc (.inl rfl) hdouble hi
  obtain ⟨hn, hge, hless⟩ := hplace n hle (by omega)
  rw [if_neg (show m % (2 * s.cap) ≠ s.cap by rw [hdouble]; exact hlt.ne)]
  by_cases hwrap : n % s.cap < m % s.cap
  · -- the part in front of the tail moves up
    obtain ⟨htail, hdist⟩ := hless hwrap
    rw [Nat.sub_zero] at htail
    obtain ⟨s', hmove, hholds, hcap'⟩ := moveCells_holds h hcap s.cap 0 (n % s.cap) _ 0
      ((n % s.cap + 63) / 64) (zero_add _).symm (by omega) (zero_add _).symm (by omega) le_rfl
      (by omega) (fun i hi hin => by have := hplace i hi (by omega); omega) htail.symm
    rw [if_pos hwrap, if_neg hbit, hmove, show n % s.cap + s.cap - m % s.cap = n - m by omega]
    exact ⟨s', rfl, hholds, hcap'⟩
  · -- nothing moves
    obtain ⟨htail, hdist⟩ := hge (not_lt.mp hwrap)
    have hstill : ∀ {β : Type} {l : List (Option β)}, l.length = s.cap →
        Relocated s.cap m n l (resizeCells l (2 * s.cap)) := by
      intro β l hlen
      obtain ⟨hlen2, hold⟩ := resizeCells_eq (l := l) (n := 2 * s.cap) (by omega)
      refine ⟨hlen2, fun i hi hin => ?_⟩
      have := hplace i hi (by omega)
      rw [show i % (2 * s.cap) = i % s.cap by omega, hold _ (by omega)]
    rw [if_neg hwrap, if_neg hbit, show 2 * s.cap / 64 * 64 = 2 * s.cap by omega]
    exact ⟨_, rfl, h.relocate hcap (hstill h.objects) (hstill h.dropped) htail.symm, rfl⟩

/-! ## Steps -/

/-- Dropped ids are counted. -/
theorem Holds.size_lt (h : Holds s m n live) (hnone : live m = none) :
    FiniteMap.size live ≤ n - (m + 1) := by
  have hsub : { i | live i ≠ none } ⊆ (Finset.Ico (m + 1) n : Set Nat) := by
    intro i hi
    obtain ⟨hmi, hin⟩ := h.range i hi
    rw [Finset.coe_Ico]
    refine ⟨lt_of_le_of_ne hmi ?_, hin⟩
    rintro rfl
    exact hi hnone
  calc FiniteMap.size live ≤ Set.ncard (Finset.Ico (m + 1) n : Set Nat) :=
        Set.ncard_le_ncard hsub (Finset.finite_toSet _)
    _ = n - (m + 1) := by rw [Set.ncard_coe_finset, card_Ico]

/-- The bit at the head tells whether the smallest id is dropped. -/
theorem Holds.head_bit (h : Holds s m n live) (hlt : m < n) :
    s.dropped[s.head]?.join = some (live m).isNone := by
  rw [h.head_eq, h.bit m le_rfl hlt]
  rfl

/-- **PUSH** under the next id. -/
theorem push_holds (h : Holds s m n live) (hn : n < 2 ^ 64) (x : T)
    (hok : n - m = s.cap - 1 → live m = none ∨ (s.cap < 2 ^ 63 ∧ m % (2 * s.cap) ≠ s.cap)) :
    ∃ s' m', push s x = some (s', n) ∧ Holds s' m' (n + 1) (update live n (some x)) := by
  have hbounds := h.cap_bounds
  have hfew := h.few
  unfold push
  rw [h.virtTail_eq]
  by_cases hfull : n - m = s.cap - 1
  · have hlt : m < n := by omega
    rw [if_pos hfull, h.head_bit hlt]
    cases hlive : live m with
    | none =>
      have hsize := h.size_lt hlive
      have hcount := h.count
      have hfree : sub s.numFree 1 + FiniteMap.size live = n - (m + 1) := by
        rw [sub_eq (by omega) (by omega)]
        omega
      have hadv := h.advance hlt hlive (fun _ _ => rfl) hfree
      obtain ⟨s', hpush, hholds⟩ := doPush_holds hadv
        (show n - (m + 1) + 1 < s.cap by omega) hn x
      refine ⟨s', m + 1, ?_, hholds⟩
      rw [← hadv.virtTail_eq] at hpush
      exact hpush
    | some y =>
      obtain ⟨hcap, hhalf⟩ := (hok hfull).resolve_left (by rw [hlive]; exact some_ne_none y)
      obtain ⟨s1, hdouble, hholds1, hcap1⟩ := double_holds h hfull (by omega) hcap
      rw [if_neg hhalf] at hdouble
      obtain ⟨s', hpush, hholds⟩ := doPush_holds hholds1 (by omega) hn x
      refine ⟨s', m, ?_, hholds⟩
      rw [hdouble]
      exact hpush
  · rw [if_neg hfull]
    obtain ⟨s', hpush, hholds⟩ := doPush_holds h (by omega) hn x
    exact ⟨s', m, hpush, hholds⟩

theorem memmove_length {l l' : List α} (h : memmove l dst src len = some l') :
    l'.length = l.length := by
  obtain ⟨xs, -, hwrite⟩ := bind_eq_some_iff.mp h
  by_cases hle : dst + xs.length ≤ l.length
  · obtain ⟨l'', hwrite', hlen, -, -⟩ := write_eq hle
    rw [← mem_unique hwrite' hwrite, hlen]
  · unfold write at hwrite
    rw [if_neg hle] at hwrite
    cases hwrite

theorem moveCells_length {wdst wsrc wn : Nat} {s' : Ring T}
    (h : moveCells s tail dst src len wdst wsrc wn = some s') :
    s'.objects.length = (resizeCells s.objects (2 * s.cap % 2 ^ 64)).length := by
  obtain ⟨objects, hmove, hrest⟩ := bind_eq_some_iff.mp h
  obtain ⟨dropped, -, rfl⟩ := map_eq_some_iff.mp hrest
  exact memmove_length hmove

/-- Twice the largest capacity is zero. -/
theorem double_overflow (hcap : s.cap = 2 ^ 63) (h : double s = some r) : r.1.objects = [] := by
  have hnil : resizeCells s.objects (2 * s.cap % 2 ^ 64) = [] := by
    rw [hcap, show 2 * 2 ^ 63 % 2 ^ 64 = 0 from rfl]
    unfold resizeCells
    rw [take_zero, Nat.zero_sub, replicate_zero, nil_append]
  have hmoved : ∀ {tail dst src len wdst wsrc wn : Nat} {f : Ring T → Ring T × Nat},
      (∀ t, (f t).1 = t) → (moveCells s tail dst src len wdst wsrc wn).map f = some r →
      r.1.objects = [] := by
    intro tail dst src len wdst wsrc wn f hf hr
    obtain ⟨t, ht, rfl⟩ := map_eq_some_iff.mp hr
    rw [hf]
    refine eq_nil_of_length_eq_zero ?_
    rw [moveCells_length ht, hnil]
    rfl
  unfold double at h
  split at h
  · split at h
    · exact hmoved (fun _ => rfl) h
    · exact hmoved (fun _ => rfl) h
  · split at h
    · exact hmoved (fun _ => rfl) h
    · rw [← some.inj h]
      exact hnil

theorem doPush_id_lt {v : Nat} (h : doPush s v x = some r) :
    r.2 = (s.minId + v) % 2 ^ 64 ∧ s.tail < s.objects.length ∧ s.tail < s.dropped.length := by
  unfold doPush at h
  split at h
  · rename_i hlt
    rw [← some.inj h]
    exact ⟨rfl, hlt⟩
  · cases h

/-- Outside the condition `push` returns a wrong id. -/
theorem push_wrong (h : Holds s m n live) (hpush : push s x = some r) (hbad : ¬ (n < 2 ^ 64 ∧
      (n - m = s.cap - 1 → live m = none ∨ (s.cap < 2 ^ 63 ∧ m % (2 * s.cap) ≠ s.cap)))) :
    r.2 ≠ n := by
  have hbounds := h.cap_bounds
  have hbound := h.bound
  have hid : ∀ {s1 : Ring T} {v : Nat}, doPush s1 v x = some r → r.2 < 2 ^ 64 := by
    intro s1 v hrun
    rw [(doPush_id_lt hrun).1]
    exact mod_lt _ (by decide)
  unfold push at hpush
  rw [h.virtTail_eq] at hpush
  by_cases hfull : n - m = s.cap - 1
  · have hlt : m < n := by omega
    rw [if_pos hfull, h.head_bit hlt] at hpush
    -- a dropped smallest id makes room without doubling
    cases hlive : live m with
    | none =>
      rw [hlive] at hpush
      have hless := hid hpush
      have : n = 2 ^ 64 := by
        by_contra hne
        exact hbad ⟨by omega, fun _ => .inl hlive⟩
      omega
    | some y =>
      rw [hlive] at hpush
      obtain ⟨r1, hdouble, hrun⟩ := bind_eq_some_iff.mp
        (show (double s).bind (fun r => doPush r.1 r.2 x) = some r from hpush)
      by_cases hcap : s.cap < 2 ^ 63
      · obtain ⟨s1, hdouble1, hholds1, -⟩ := double_holds h hfull (by omega) hcap
        obtain rfl := mem_unique hdouble1 hdouble
        have hval := (doPush_id_lt hrun).1
        rw [hholds1.minId] at hval
        -- here the code takes the new tail itself for its distance from the head
        by_cases hhalf : m % (2 * s.cap) = s.cap
        · rw [if_pos hhalf] at hval
          omega
        · omega
      · have hnil := double_overflow (by omega) hdouble
        have hlen := (doPush_id_lt hrun).2.1
        rw [hnil] at hlen
        cases hlen
  · rw [if_neg hfull] at hpush
    have hless := hid hpush
    omega

/-- **DROP** of a live id. -/
theorem drop_holds (h : Holds s m n live) {id : Nat} (hid : live id ≠ none) :
    ∃ s' m', drop s id = some s' ∧ Holds s' m' n (FiniteMap.erase live id) := by
  obtain ⟨hmi, hin⟩ := h.range id hid
  have hsize := FiniteMap.size_erase h.finite hid
  have hcount := h.count
  have hbound := h.bound
  have hminId : s.minId = m := h.minId.trans (mod_eq_of_lt (by omega))
  unfold drop
  -- the smallest id moves the head, any other only sets its bit
  by_cases hfirst : id = s.minId
  · have hidm : id = m := hfirst.trans hminId
    subst hidm
    rw [if_neg (not_not.mpr hfirst)]
    refine ⟨_, id + 1, rfl, h.advance hin ?_ (fun i hi => ?_) (show s.numFree + _ = _ by omega)⟩
    · exact update_self ..
    · exact update_of_ne hi ..
  have hlt : id % s.cap < s.cap := mod_lt id h.cap_pos
  rw [if_pos hfirst, h.and_mask, h.dropped, if_pos hlt]
  refine ⟨_, m, rfl, { h with dropped := ?_, bit := ?_, object := ?_, range := ?_, count := ?_ }⟩
  · rw [length_set]
    exact h.dropped
  · intro i hi hin'
    unfold FiniteMap.erase
    by_cases hii : i = id
    · subst hii
      rw [getElem?_set_self (by rw [h.dropped]; exact hlt), update_self]
      rfl
    · have hne : id % s.cap ≠ i % s.cap := by
        have hfew := h.few
        rcases lt_or_gt_of_ne hii with hlti | hgt
        · exact (place_ne hi hlti (by omega)).symm
        · exact place_ne hmi hgt (by omega)
      rw [getElem?_set_ne hne, update_of_ne hii]
      exact h.bit i hi hin'
  · intro i x hx
    exact h.object i x ((FiniteMap.erase_eq_some live id i x).mp hx).1
  · intro i hi
    obtain ⟨x, hx⟩ := ne_none_iff_exists'.mp hi
    refine h.range i ?_
    rw [((FiniteMap.erase_eq_some live id i x).mp hx).1]
    exact some_ne_none x
  · show (s.numFree + 1) % 2 ^ 64 + _ = _
    have hfew := h.few
    have hcap := h.cap_bounds.2
    omega

/-! ## The new ring -/

/-- Capacities are powers of two. -/
theorem roundCap_eq {initialCap cap : Nat} (hlt : initialCap < 2 ^ 64)
    (h : roundCap initialCap = some cap) : ∃ k, k ≤ 63 ∧ cap = 2 ^ k := by
  unfold roundCap at h
  dsimp only at h
  split at h
  · split at h
    · cases h
    · rename_i hne
      have hlog : log2 (max initialCap 64 % 2 ^ 32) < 32 :=
        (log2_lt hne).mpr (mod_lt _ (by decide))
      exact ⟨_, by omega, (some.inj h).symm⟩
  · rename_i hzero
    obtain ⟨k, hk⟩ := (and_sub_one_eq_zero_iff_isPowerOfTwo (by omega)).mp (not_not.mp hzero)
    have hpow : 2 ^ k < 2 ^ 64 := by
      rw [← hk]
      omega
    have := (Nat.pow_lt_pow_iff_right (by decide)).mp hpow
    exact ⟨k, by omega, (some.inj h).symm.trans hk⟩

/-- The constructor is defined when the capacity is a power of two or has low bits. -/
theorem roundCap_defined (initialCap : Nat) :
    (∃ cap, roundCap initialCap = some cap) ↔
      initialCap ≤ 64 ∨ initialCap.isPowerOfTwo ∨ initialCap % 2 ^ 32 ≠ 0 := by
  unfold roundCap
  by_cases hsmall : initialCap ≤ 64
  · rw [max_eq_right hsmall]
    exact ⟨fun _ => .inl hsmall, fun _ => ⟨64, rfl⟩⟩
  rw [Nat.max_eq_left (by omega)]
  have hpow := and_sub_one_eq_zero_iff_isPowerOfTwo (n := initialCap) (by omega)
  by_cases hzero : initialCap &&& (initialCap - 1) = 0
  · rw [if_neg (not_not.mpr hzero)]
    exact ⟨fun _ => .inr (.inl (hpow.mp hzero)), fun _ => ⟨initialCap, rfl⟩⟩
  rw [if_pos hzero]
  split
  next hlow =>
    constructor
    · rintro ⟨cap, hcap⟩
      cases hcap
    · rintro (h1 | h2 | h3)
      · exact absurd h1 hsmall
      · exact absurd (hpow.mpr h2) hzero
      · exact absurd hlow h3
  next hlow =>
    exact ⟨fun _ => .inr (.inr hlow), fun _ => ⟨_, rfl⟩⟩

/-- **A NEW RING** has no ids; with a capacity below 64 it has no bits either. -/
theorem new_holds {t0 : T} {initialCap : BitVec 64} (h : new t0 initialCap = some s) :
    (64 ≤ s.cap ∧ Holds s 0 0 (fun _ => none)) ∨
      (s.cap < 64 ∧ s.dropped = [] ∧ numUsed s = 0) := by
  obtain ⟨cap, hcap, rfl⟩ := map_eq_some_iff.mp h
  obtain ⟨k, hk, rfl⟩ := roundCap_eq initialCap.isLt hcap
  have hsize : FiniteMap.size (fun _ : Nat => (none : Option T)) = 0 :=
    FiniteMap.size_eq (l := []) nodup_nil (fun i => by simp)
  by_cases hlarge : 64 ≤ 2 ^ k
  · have hlo : 6 ≤ k := (Nat.pow_le_pow_iff_right (by decide)).mp (show 2 ^ 6 ≤ 2 ^ k from hlarge)
    have hwords : 2 ^ k / 64 * 64 = 2 ^ k := Nat.div_mul_cancel (pow_dvd_pow 2 hlo)
    refine .inl ⟨hlarge, { cap := ⟨k, hlo, hk, rfl⟩, objects := length_replicate,
                           dropped := ?_, le := le_refl 0, few := Nat.two_pow_pos k,
                           bound := zero_le _, minId := rfl, tail := (zero_mod _).symm,
                           bit := ?_, object := ?_, range := ?_, count := ?_ }⟩
    · rw [hwords, length_replicate]
    · intro i _ hi
      cases hi
    · intro i x hx
      cases hx
    · intro i hi
      exact absurd rfl hi
    · rw [hsize]
  · refine .inr ⟨not_le.mp hlarge, ?_, ?_⟩
    · rw [div_eq_of_lt (not_le.mp hlarge)]
      rfl
    · show sub (sub 0 0 &&& (2 ^ k - 1)) 0 = 0
      rw [show sub 0 0 = 0 from rfl, zero_and]
      rfl

/-- Without words of bits nothing can be pushed. -/
theorem push_no_bits (h : s.dropped = []) (x : T) : push s x = none := by
  have hno : ∀ {s1 : Ring T} {v : Nat}, s1.dropped = [] → doPush s1 v x = none := by
    intro s1 v h1
    unfold doPush
    rw [if_neg]
    rintro ⟨-, hlt⟩
    rw [h1] at hlt
    exact not_lt_zero _ hlt
  unfold push
  split
  · rw [h]
    rfl
  · exact hno h

/-! ## Runs -/

/-- The calls of a client. -/
inductive Op (T : Type) where
  | push (x : T)
  | drop (id : Nat)
  deriving DecidableEq, Repr

/-- The ring, and for every push the id it returned with the `max_id` before it. -/
structure Client (T : Type) where
  ring : Ring T
  returned : List (Nat × Nat)
  deriving DecidableEq, Repr

/-- A call, with what it returns. -/
def step (c : Client T) : Op T → Option (Client T)
  | .push x => (push c.ring x).map (fun r =>
    { ring := r.1, returned := c.returned ++ [(r.2, maxId c.ring)] })
  | .drop id => (drop c.ring id).map (fun s => { c with ring := s })

/-- Ids are given in order, each to one object. -/
structure Ids (T : Type) where
  next : Nat
  live : Nat → Option T

/-- No ids yet. -/
def Ids.start : Ids T := ⟨0, fun _ => none⟩

/-- What a call should do. -/
def spec (a : Ids T) : Op T → Ids T
  | .push x => ⟨a.next + 1, Function.update a.live a.next (some x)⟩
  | .drop id => ⟨a.next, FiniteMap.erase a.live id⟩

/-- Only live ids are dropped. -/
def Admissible (a : Ids T) : Op T → Prop
  | .push _ => True
  | .drop id => a.live id ≠ none

instance (a : Ids T) : DecidablePred (Admissible a)
  | .push _ => inferInstanceAs (Decidable True)
  | .drop id => inferInstanceAs (Decidable (a.live id ≠ none))

/-- What a client sees. -/
structure Agrees (c : Client T) (a : Ids T) : Prop where
  ids : c.returned.map Prod.fst = range a.next
  maxId : ∀ p ∈ c.returned, p.1 = p.2
  value : ∀ id x, a.live id = some x → get c.ring id = some x
  used : numUsed c.ring = FiniteMap.size a.live

/-- A push is in order: the ring has bits and ids are left; if it is full and its smallest id
    is alive, it can be doubled and does not lie in front of the upper half of the doubled
    ring. -/
def Fits (c : Client T) : Op T → Prop
  | .push _ => 64 ≤ c.ring.cap ∧ c.returned.length < 2 ^ 64 ∧
      (c.ring.virtTail = c.ring.cap - 1 →
        c.ring.dropped[c.ring.head]?.join = some true ∨
          (c.ring.cap < 2 ^ 63 ∧ c.ring.minId % (2 * c.ring.cap) ≠ c.ring.cap))
  | .drop _ => True

instance (c : Client T) (op : Op T) : Decidable (Fits c op) := by
  cases op <;> unfold Fits <;> infer_instance

/-- The ring holds the live objects, or it is new and without bits. -/
structure Simulates (c : Client T) (a : Ids T) : Prop where
  ids : c.returned.map Prod.fst = range a.next
  maxId : ∀ p ∈ c.returned, p.1 = p.2
  ring : (∃ m, Holds c.ring m a.next a.live) ∨
    (c.ring.cap < 64 ∧ c.ring.dropped = [] ∧ numUsed c.ring = 0 ∧ a = Ids.start)

variable {a : Ids T}

/-- Simulation is agreement. -/
theorem Simulates.agrees {c : Client T} (h : Simulates c a) : Agrees c a := by
  rcases h.ring with ⟨m, hring⟩ | ⟨-, -, hused, rfl⟩
  · refine { h with value := fun id x hx => ?_, used := hring.numUsed_eq }
    unfold get
    rw [hring.and_mask, hring.object id x hx]
    rfl
  · refine { h with value := fun id x hx => ?_, used := ?_ }
    · cases hx
    · rw [hused]
      exact (FiniteMap.size_eq (l := []) nodup_nil (fun i => by simp [Ids.start])).symm

theorem Simulates.returned_length {c : Client T} (h : Simulates c a) :
    c.returned.length = a.next := by
  rw [← length_map (f := Prod.fst), h.ids, length_range]

/-- The condition of a push, in terms of the ids. -/
theorem Holds.fits_iff {c : Client T} {live : Nat → Option T} (h : Holds c.ring m n live)
    (hlen : c.returned.length = n) (x : T) :
    Fits c (.push x) ↔ n < 2 ^ 64 ∧ (n - m = c.ring.cap - 1 →
      live m = none ∨ (c.ring.cap < 2 ^ 63 ∧ m % (2 * c.ring.cap) ≠ c.ring.cap)) := by
  have hbounds := h.cap_bounds
  unfold Fits
  rw [h.virtTail_eq, hlen]
  constructor
  · rintro ⟨-, hn, himp⟩
    refine ⟨hn, fun hfull => ?_⟩
    have hlt : m < n := by omega
    have := himp hfull
    rw [h.head_bit hlt, h.minId, mod_eq_of_lt (show m < 2 ^ 64 by omega)] at this
    exact this.imp_left (fun hb => isNone_iff_eq_none.mp (some.inj hb))
  · rintro ⟨hn, himp⟩
    refine ⟨hbounds.1, hn, fun hfull => ?_⟩
    have hlt : m < n := by omega
    rw [h.head_bit hlt, h.minId, mod_eq_of_lt (show m < 2 ^ 64 by omega)]
    exact (himp hfull).imp_left (fun hb => by rw [hb]; rfl)

/-- **A STEP** that is in order. -/
theorem step_simulates {c : Client T} (op : Op T) (h : Simulates c a) (hadm : Admissible a op)
    (hfits : Fits c op) : ∃ c', step c op = some c' ∧ Simulates c' (spec a op) := by
  cases op with
  | push x =>
    rcases h.ring with ⟨m, hring⟩ | ⟨hcap, -, -, -⟩
    · have hcond := (hring.fits_iff h.returned_length x).mp hfits
      obtain ⟨s', m', hpush, hring'⟩ := push_holds hring hcond.1 x hcond.2
      have hstep : step c (.push x) = some ⟨s', c.returned ++ [(a.next, maxId c.ring)]⟩ :=
        congrArg (Option.map _) hpush
      refine ⟨_, hstep, { ids := ?_, maxId := ?_, ring := .inl ⟨m', hring'⟩ }⟩
      · show _ = range (a.next + 1)
        rw [map_append, h.ids, range_succ]
        rfl
      · intro p hp
        rcases mem_append.mp hp with hold | hnew
        · exact h.maxId p hold
        · rw [mem_singleton.mp hnew]
          exact (hring.maxId_eq.trans (mod_eq_of_lt hcond.1)).symm
    · exact absurd hfits.1 (Nat.not_le_of_lt hcap)
  | drop id =>
    rcases h.ring with ⟨m, hring⟩ | ⟨-, -, -, rfl⟩
    · obtain ⟨s', m', hdrop, hring'⟩ := drop_holds hring hadm
      have hstep : step c (.drop id) = some ⟨s', c.returned⟩ := congrArg (Option.map _) hdrop
      exact ⟨_, hstep, { h with ring := .inl ⟨m', hring'⟩ }⟩
    · exact absurd rfl hadm

/-- A push that is not in order shows at once. -/
theorem step_wrong {c c' : Client T} (op : Op T) (h : Simulates c a) (hfits : ¬ Fits c op)
    (hstep : step c op = some c') : ¬ Agrees c' (spec a op) := by
  cases op with
  | push x =>
    obtain ⟨r, hpush, rfl⟩ := map_eq_some_iff.mp hstep
    rcases h.ring with ⟨m, hring⟩ | ⟨-, hbits, -, -⟩
    · have hne := push_wrong hring hpush (mt (hring.fits_iff h.returned_length x).mpr hfits)
      intro hagree
      have hids := hagree.ids
      change (c.returned ++ [(r.2, maxId c.ring)]).map Prod.fst = range (a.next + 1) at hids
      rw [map_append, h.ids, range_succ] at hids
      exact hne (singleton_inj.mp (append_cancel_left hids))
    · rw [push_no_bits hbits] at hpush
      cases hpush
  | drop id => exact absurd trivial hfits

/-- **PERMANENT IDS**: for every initial capacity and every sequence of pushes and drops of
    live ids, the ring gives the ids in order, each equal to `max_id` before the push, finds
    every live object under its id and counts the live ids, exactly when the constructor is
    defined and every push is in order. -/
theorem circular_permanent_id_iff (t0 : T) (initialCap : BitVec 64) (ops : List (Op T))
    (hadm : ∀ k (h : k < ops.length),
      Admissible (Runs.absRun spec Ids.start (ops.take k)) ops[k]) :
    (∃ s, new t0 initialCap = some s ∧ ∀ k, k ≤ ops.length →
      ∃ c, Runs.run step ⟨s, []⟩ (ops.take k) = some c ∧
        Agrees c (Runs.absRun spec Ids.start (ops.take k))) ↔
    (initialCap.toNat ≤ 64 ∨ initialCap.toNat.isPowerOfTwo ∨ initialCap.toNat % 2 ^ 32 ≠ 0) ∧
      ∀ s, new t0 initialCap = some s → ∀ k (h : k < ops.length) c,
        Runs.run step ⟨s, []⟩ (ops.take k) = some c → Fits c ops[k] := by
  have hdef : (∃ s, new t0 initialCap = some s) ↔ ∃ cap, roundCap initialCap.toNat = some cap := by
    unfold new
    constructor
    · rintro ⟨s, hs⟩
      obtain ⟨cap, hcap, -⟩ := map_eq_some_iff.mp hs
      exact ⟨cap, hcap⟩
    · rintro ⟨cap, hcap⟩
      rw [hcap]
      exact ⟨_, rfl⟩
  have hrun : ∀ s, new t0 initialCap = some s → ((∀ k, k ≤ ops.length →
      ∃ c, Runs.run step ⟨s, []⟩ (ops.take k) = some c ∧
        Agrees c (Runs.absRun spec Ids.start (ops.take k))) ↔
      ∀ k (h : k < ops.length) c,
        Runs.run step ⟨s, []⟩ (ops.take k) = some c → Fits c ops[k]) := by
    intro s hs
    have hstart : Simulates ⟨s, []⟩ (Ids.start : Ids T) := by
      refine { ids := rfl, maxId := forall_mem_nil _, ring := ?_ }
      rcases new_holds hs with ⟨-, hring⟩ | ⟨hcap, hbits, hused⟩
      · exact .inl ⟨0, hring⟩
      · exact .inr ⟨hcap, hbits, hused, rfl⟩
    exact Runs.run_observed_iff hstart (fun _ _ => Simulates.agrees)
      (fun _ _ op => step_simulates op) (fun _ _ op _ h _ => step_wrong op h) ops hadm
  rw [← roundCap_defined, ← hdef]
  constructor
  · rintro ⟨s, hs, hall⟩
    refine ⟨⟨s, hs⟩, fun s' hs' => ?_⟩
    obtain rfl := mem_unique hs hs'
    exact (hrun s hs).mp hall
  · rintro ⟨⟨s, hs⟩, hall⟩
    exact ⟨s, hs, (hrun s hs).mpr (hall s hs)⟩

/-- Ten ids come, one in the middle and the first five go, and then 60 come: the objects wrap
    around the end of the ring, and the push of id 68 doubles it. -/
def wrapAround : List (Op Nat) :=
  (range 10).map .push ++ [.drop 7] ++ (range 5).map .drop ++ (range 60).map .push

theorem wrapAround_fits : ∀ k (h : k < wrapAround.length), (new 0 0).all (fun s =>
    (Runs.run step ⟨s, []⟩ (wrapAround.take k)).all (fun c => decide (Fits c wrapAround[k]))) =
      true := by
  decide +kernel

/-- A run that wraps around and doubles the ring. -/
theorem circular_permanent_id_wrap_around :
    ∃ s, new 0 0 = some s ∧ ∀ k, k ≤ wrapAround.length →
      ∃ c, Runs.run step ⟨s, []⟩ (wrapAround.take k) = some c ∧
        Agrees c (Runs.absRun spec Ids.start (wrapAround.take k)) := by
  refine (circular_permanent_id_iff 0 0 wrapAround (by decide +kernel)).mpr ⟨by decide, ?_⟩
  intro s hs k hk c hc
  have hfits := wrapAround_fits k hk
  rw [hs, all_some, hc] at hfits
  exact of_decide_eq_true hfits

/-- As many ids as given come and go, then as many come. -/
def fillAgain (n : Nat) : List (Op Nat) :=
  (range n).flatMap (fun i => [.push i, .drop i]) ++ (range n).map .push

/-- The ids from 64 to 126 fill a ring of 64; the push of id 127 doubles it and returns 191. -/
theorem circular_permanent_id_wrong_id :
    (∀ k (h : k < (fillAgain 64).length),
      Admissible (Runs.absRun spec Ids.start ((fillAgain 64).take k)) (fillAgain 64)[k]) ∧
    ((new 0 64).bind (fun s => Runs.run step ⟨s, []⟩ (fillAgain 64))).bind
      (fun c => c.returned.getLast?) = some (191, 127) := by
  constructor
  · decide +kernel
  · decide +kernel

end PermanentId
