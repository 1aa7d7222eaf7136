import Mathlib.Order.Fin.Basic
import ToplingArk.LittleEndianProofs

/-! # `memcmp_coding` — an escape coding that keeps the order of byte strings

    `encode_0_01_00` writes a zero byte as `0 1`, every other byte as itself, and ends
    the string with `0 0`.  Four routines walk this format: the encoder, the decoder
    and the two overloads of `end_of_01_00`.

    Decoding, the end within bounds, freedom from prefixes and the order hold for all
    strings.  The end without a bound tests for an escape right behind a byte it has
    skipped: it finds the end only of the strings in which it happens to step from
    token to token. -/

namespace MemcmpCoding

open LittleEndian List Option

/-! ## The four routines -/

/-- `encode_0_01_00` into a buffer of `room` bytes; a failed verification is `none`. -/
def encode : Nat → List Byte → Option (List Byte)
  | room, [] => if 1 < room then some [0, 0] else none
  | room, b :: s =>
    if 0 < room then
      if b ≠ 0 then (encode (room - 1) s).map (fun e => b :: e)
      else if 1 < room then (encode (room - 2) s).map (fun e => 0 :: 1 :: e)
      else none
    else none

/-- `decode_01_00` from the byte at `icur` on: the string and `*ires`.  A full output
    buffer fails a verification; a read behind the data is `none` as well. -/
def decode : Nat → Nat → List Byte → Option (List Byte × Nat)
  | 0, _, _ => none
  | _ + 1, _, [] => none
  | room + 1, icur, b :: data =>
    if b ≠ 0 then (decode room (icur + 1) data).map (fun r => (b :: r.1, r.2))
    else match data with
      | [] => none
      | c :: data =>
        if c = 1 then (decode room (icur + 2) data).map (fun r => (0 :: r.1, r.2))
        else some ([], icur + 2)

/-- `end_of_01_00(encoded)`: the byte that was skipped and the next one are not told
    apart before the test for an escape. -/
def endOf : Nat → Nat → List Byte → Option Nat
  | 0, _, _ => none
  | fuel + 1, p, data =>
    data.head?.bind (fun b =>
      let skip := if b ≠ 0 then 1 else 0
      data[skip + 1]?.bind (fun c =>
        if c = 1 then endOf fuel (p + skip + 2) (data.drop (skip + 2))
        else some (p + skip + 2)))

/-- `end_of_01_00(encoded, end)` over the bytes before `end`. -/
def endOfBounded : Nat → List Byte → Nat
  | p, [] => p
  | p, b :: data =>
    if b ≠ 0 then endOfBounded (p + 1) data
    else match data with
      | [] => p + 2
      | c :: data => if c = 1 then endOfBounded (p + 2) data else p + 2

/-- The unsigned bytewise comparison; a proper prefix comes first. -/
def memcmp : List Byte → List Byte → Ordering
  | [], [] => .eq
  | [], _ :: _ => .lt
  | _ :: _, [] => .gt
  | a :: s, b :: t => if a < b then .lt else if b < a then .gt else memcmp s t

/-! ## The code of a string -/

/-- The code of one byte. -/
def token (b : Byte) : List Byte := if b ≠ 0 then [b] else [0, 1]

/-- What is written for a string: zeros escaped, and the end. -/
def code : List Byte → List Byte
  | [] => [0, 0]
  | b :: s => token b ++ code s

@[simp] theorem code_nil : code [] = [0, 0] := rfl

variable (s : List Byte) {b a : Byte}

@[simp] theorem code_zero : code (0 :: s) = 0 :: 1 :: code s := rfl

@[simp] theorem code_cons (hb : b ≠ 0) (s : List Byte) : code (b :: s) = b :: code s := by
  simp [code, token, hb]

/-- **THE ENCODER** writes the code, if it fits. -/
theorem encode_fits : ∀ room, (code s).length ≤ room →
    encode room s = some (code s) := by
  induction s with
  | nil =>
    intro room hroom
    exact if_pos hroom
  | cons b s ih =>
    intro room hroom
    by_cases hb : b = 0
    · subst hb
      rw [code_zero, length_cons, length_cons] at hroom
      have hrest := ih (room - 2) (by omega)
      simp [encode, hrest, show 0 < room by omega, show 1 < room by omega]
    · rw [code_cons hb, length_cons] at hroom
      have hrest := ih (room - 1) (by omega)
      simp [encode, hb, hrest, show 0 < room by omega]

/-- Nothing but the code is ever written. -/
theorem encode_some : ∀ room e, encode room s = some e → e = code s := by
  induction s with
  | nil =>
    intro room e h
    simp only [encode, ite_none_right_eq_some, some.injEq] at h
    rw [← h.2, code_nil]
  | cons b s ih =>
    intro room e h
    by_cases hb : b = 0
    · subst hb
      simp only [encode, ne_eq, not_true_eq_false, if_false, ite_none_right_eq_some,
        map_eq_some_iff] at h
      obtain ⟨-, -, e', he, rfl⟩ := h
      rw [ih _ _ he, code_zero]
    · simp only [encode, ne_eq, hb, not_false_eq_true, if_true, ite_none_right_eq_some,
        map_eq_some_iff] at h
      obtain ⟨-, e', he, rfl⟩ := h
      rw [ih _ _ he, code_cons hb]

/-- **THE DECODER** gives the string back and stops right behind its code. -/
theorem decode_code (s tail : List Byte) : ∀ room icur, s.length < room →
    decode room icur (code s ++ tail) = some (s, icur + (code s).length) := by
  induction s with
  | nil =>
    intro room icur hroom
    obtain ⟨r, rfl⟩ : ∃ r, room = r + 1 := ⟨room - 1, by omega⟩
    simp [decode]
  | cons b s ih =>
    intro room icur hroom
    obtain ⟨r, rfl⟩ : ∃ r, room = r + 1 := ⟨room - 1, by omega⟩
    have hrest := fun i => ih r i (by simpa using hroom)
    by_cases hb : b = 0
    · subst hb
      simp only [code_zero, cons_append, decode, ne_eq, not_true_eq_false, if_false, if_true,
        hrest, map_some, length_cons]
      congr 2
      omega
    · simp only [code_cons hb, cons_append, decode, ne_eq, hb, not_false_eq_true, if_true,
        hrest, map_some, length_cons]
      congr 2
      omega

@[simp] theorem endOfBounded_cons (hb : b ≠ 0) (p : Nat) (data : List Byte) :
    endOfBounded p (b :: data) = endOfBounded (p + 1) data := by
  cases data <;> simp [endOfBounded, hb]

@[simp] theorem endOfBounded_escape (p : Nat) (data : List Byte) :
    endOfBounded p (0 :: 1 :: data) = endOfBounded (p + 2) data := by
  simp [endOfBounded]

@[simp] theorem endOfBounded_done (p : Nat) (data : List Byte) :
    endOfBounded p (0 :: 0 :: data) = p + 2 := by
  simp [endOfBounded]

/-- **THE BOUNDED END** is right behind the code. -/
theorem endOfBounded_code (s tail : List Byte) : ∀ p,
    endOfBounded p (code s ++ tail) = p + (code s).length := by
  induction s with
  | nil => intro p; simp
  | cons b s ih =>
    intro p
    by_cases hb : b = 0
    · subst hb
      simp [ih]
      omega
    · simp [hb, ih]
      omega

/-! ## The end without a bound -/

/-- The strings through whose codes `end_of_01_00` steps from token to token: where it
    has skipped a nonzero byte and stands on another one, the next byte is `1`. -/
def steps : List Byte → Bool
  | [] => true
  | b :: s =>
    if b = 0 then steps s
    else match s with
      | [] => true
      | c :: s =>
        if c = 0 then steps s
        else match s with
          | [] => false
          | d :: s => d = 1 && steps s

@[simp] theorem steps_zero : steps (0 :: s) = steps s := by
  rw [steps.eq_def]
  simp

@[simp] theorem steps_cons_zero (hb : b ≠ 0) (s : List Byte) : steps (b :: 0 :: s) = steps s := by
  rw [steps.eq_def]
  simp [hb]

@[simp] theorem steps_three {c : Byte} (hb : b ≠ 0) (hc : c ≠ 0) (d : Byte) (s : List Byte) :
    steps (b :: c :: d :: s) = (decide (d = 1) && steps s) := by
  simp [steps, hb, hc]

/-- Every byte takes at least one, and the end two. -/
theorem code_length : s.length + 2 ≤ (code s).length := by
  induction s with
  | nil => simp
  | cons b s ih =>
    by_cases hb : b = 0
    · subst hb
      simp
      omega
    · simp [hb]
      omega

/-- One round on an escaped zero, wherever the skipped byte was. -/
theorem endOf_escape (fuel p : Nat) (data : List Byte) :
    endOf (fuel + 1) p (0 :: 1 :: data) = endOf fuel (p + 2) data := by
  simp [endOf]

theorem endOf_done (fuel p : Nat) (data : List Byte) :
    endOf (fuel + 1) p (0 :: 0 :: data) = some (p + 2) := by
  simp [endOf]

/-- Three bytes at once, where the middle one is not looked at. -/
theorem endOf_skip (hb : b ≠ 0) (fuel p : Nat) (c d : Byte) (data : List Byte) :
    endOf (fuel + 1) p (b :: c :: d :: data) =
      if d = 1 then endOf fuel (p + 3) data else some (p + 3) := by
  simp [endOf, hb]

/-- **THE UNBOUNDED END** is right behind the code exactly for the strings it steps
    through. -/
theorem endOf_code_iff (tail s : List Byte) {fuel : Nat} (p : Nat) (hfuel : s.length < fuel) :
    endOf fuel p (code s ++ tail) = some (p + (code s).length) ↔ steps s = true := by
  induction s using steps.induct generalizing fuel p <;>
    obtain ⟨f, rfl⟩ : ∃ f, fuel = f + 1 := ⟨fuel - 1, by omega⟩ <;>
    simp only [length_cons, length_nil] at hfuel
  case case1 => simp [endOf_done, steps]
  case case2 s ih =>
    have h := ih (p + 2) (show s.length < f by omega)
    rw [steps_zero, ← h, code_zero, cons_append, cons_append, endOf_escape, length_cons,
      length_cons, show p + ((code s).length + 1 + 1) = p + 2 + (code s).length by omega]
  case case3 b hb => simp [hb, endOf_skip, steps]
  case case4 b hb s ih =>
    have h := ih (p + 3) (show s.length < f by omega)
    rw [steps_cons_zero hb, ← h, code_cons hb, code_zero, cons_append, cons_append,
      cons_append, endOf_skip hb, if_pos rfl, length_cons, length_cons, length_cons,
      show p + ((code s).length + 1 + 1 + 1) = p + 3 + (code s).length by omega]
  -- two nonzero bytes in a row: only a `1` behind them keeps the walk going
  case case5 b hb c hc => simp [hb, hc, endOf_skip, steps]
  case case6 b hb c hc d s ih =>
    have h := ih (p + 3) (show s.length < f by omega)
    have hend := code_length (d :: s)
    rw [steps_three hb hc, code_cons hb, code_cons hc]
    by_cases hd : d = 1
    · subst hd
      rw [decide_eq_true rfl, Bool.true_and, ← h, code_cons (by decide), cons_append, cons_append,
        cons_append, endOf_skip hb, if_pos rfl, length_cons, length_cons, length_cons,
        show p + ((code s).length + 1 + 1 + 1) = p + 3 + (code s).length by omega]
    have hgo : endOf (f + 1) p (b :: c :: code (d :: s) ++ tail) = some (p + 3) := by
      by_cases hd0 : d = 0
      · subst hd0
        simp [hb, endOf_skip]
      · simp [hb, hd, hd0, endOf_skip]
    rw [decide_eq_false hd, Bool.false_and, hgo]
    refine iff_of_false (fun heq => ?_) Bool.false_ne_true
    simp only [some.injEq, length_cons] at heq hend
    omega

/-! ## Order and prefixes -/

@[simp] theorem memcmp_cons_self (a : Byte) (s t : List Byte) :
    memcmp (a :: s) (a :: t) = memcmp s t := by
  simp [memcmp]

/-- The first bytes decide. -/
theorem memcmp_cons_lt (h : a < b) (s t : List Byte) : memcmp (a :: s) (b :: t) = .lt := by
  simp [memcmp, h]

theorem memcmp_cons_gt (h : b < a) (s t : List Byte) : memcmp (a :: s) (b :: t) = .gt := by
  simp [memcmp, h, Fin.lt_asymm h]

theorem pos_of_ne_zero (hb : b ≠ 0) : 0 < b := Fin.pos_iff_ne_zero.mpr hb

/-- **THE ORDER IS KEPT**, whatever follows the codes. -/
theorem memcmp_code : ∀ (s t u v : List Byte), s ≠ t →
    memcmp (code s ++ u) (code t ++ v) = memcmp s t := by
  intro s
  induction s with
  | nil =>
    intro t u v hne
    cases t with
    | nil => exact absurd rfl hne
    | cons b t =>
      by_cases hb : b = 0
      · subst hb
        simp [memcmp]
      · rw [code_nil, code_cons hb]
        exact memcmp_cons_lt (pos_of_ne_zero hb) _ _
  | cons a s ih =>
    intro t u v hne
    cases t with
    | nil =>
      by_cases ha : a = 0
      · subst ha
        simp [memcmp]
      · rw [code_nil, code_cons ha]
        exact memcmp_cons_gt (pos_of_ne_zero ha) _ _
    | cons b t =>
      by_cases hab : a = b
      · subst hab
        have hrest := ih t u v (fun h => hne (by rw [h]))
        by_cases ha : a = 0
        · subst ha
          simpa using hrest
        · simpa [ha] using hrest
      -- the first tokens differ in their first byte
      rcases Fin.lt_or_lt_of_ne hab with h | h
      · have hb : b ≠ 0 := by
          rintro rfl
          exact Fin.not_lt_zero a h
        rw [memcmp_cons_lt h, code_cons hb]
        by_cases ha : a = 0
        · subst ha
          exact memcmp_cons_lt h _ _
        · rw [code_cons ha]
          exact memcmp_cons_lt h _ _
      have ha : a ≠ 0 := by
        rintro rfl
        exact Fin.not_lt_zero b h
      rw [memcmp_cons_gt h, code_cons ha]
      by_cases hb : b = 0
      · subst hb
        exact memcmp_cons_gt h _ _
      · rw [code_cons hb]
        exact memcmp_cons_gt h _ _

@[simp] theorem memcmp_self : memcmp s s = .eq := by
  induction s with
  | nil => rfl
  | cons a s ih => rw [memcmp_cons_self, ih]

/-- Different strings compare different. -/
theorem memcmp_ne {s t : List Byte} (h : s ≠ t) : memcmp s t ≠ .eq := by
  intro heq
  induction s generalizing t with
  | nil =>
    cases t with
    | nil => exact h rfl
    | cons b t => simp [memcmp] at heq
  | cons a s ih =>
    cases t with
    | nil => simp [memcmp] at heq
    | cons b t =>
      rcases lt_trichotomy a b with hab | rfl | hab
      · rw [memcmp_cons_lt hab] at heq
        nomatch heq
      · rw [memcmp_cons_self] at heq
        exact ih (fun hst => h (by rw [hst])) heq
      · rw [memcmp_cons_gt hab] at heq
        nomatch heq

/-- **NO CODE IS A PROPER PREFIX OF ANOTHER.** -/
theorem code_prefix_free {s t : List Byte} (h : code s <+: code t) : code s = code t := by
  obtain ⟨tail, htail⟩ := h
  by_contra hne
  have hst : s ≠ t := fun heq => hne (by rw [heq])
  have horder := memcmp_code s t tail [] hst
  rw [htail, append_nil, memcmp_self] at horder
  exact memcmp_ne hst horder.symm

/-! ## All of it -/

/-- What is asked of the code `e` of `s`: it decodes, both ends are right behind it, it
    is no proper prefix of another code and compares as its string does. -/
structure Coded (s e : List Byte) : Prop where
  decodes : ∀ room tail, s.length < room → decode room 0 (e ++ tail) = some (s, e.length)
  ends : ∀ tail, endOf ((e ++ tail).length + 1) 0 (e ++ tail) = some e.length
  ends_bounded : ∀ tail, endOfBounded 0 (e ++ tail) = e.length
  prefix_free : ∀ t room e', encode room t = some e' → e <+: e' → e = e'
  ordered : ∀ t room e' u v, encode room t = some e' → s ≠ t →
    memcmp (e ++ u) (e' ++ v) = memcmp s t

/-- **ESCAPE CODING**: every string has one code, written into every buffer it fits, and
    the code has all that is asked of it exactly if the unbounded end steps through it. -/
theorem escape_coding_iff (s : List Byte) :
    ∃ e, (∀ room, e.length ≤ room → encode room s = some e) ∧
      (∀ room e', encode room s = some e' → e' = e) ∧ (Coded s e ↔ steps s = true) := by
  have hend : ∀ tail, (endOf ((code s ++ tail).length + 1) 0 (code s ++ tail) =
      some (code s).length ↔ steps s = true) := by
    intro tail
    have hlen := code_length s
    have h := @endOf_code_iff tail s ((code s ++ tail).length + 1) 0
      (by rw [length_append]; omega)
    rwa [Nat.zero_add] at h
  refine ⟨code s, encode_fits s, encode_some s, ?_, ?_⟩
  · intro h
    exact (hend []).mp (h.ends [])
  intro hsteps
  refine ⟨?_, fun tail => (hend tail).mpr hsteps, ?_, ?_, ?_⟩
  · intro room tail hroom
    simpa using decode_code s tail room 0 hroom
  · intro tail
    simpa using endOfBounded_code s tail 0
  · intro t room e' he' hpre
    rw [encode_some t room e' he'] at hpre ⊢
    exact code_prefix_free hpre
  · intro t room e' u v he' hne
    rw [encode_some t room e' he']
    exact memcmp_code s t u v hne

/-- The end of the code of two letters is found one byte early. -/
theorem end_of_two_letters_fails : encode 4 [97, 98] = some [97, 98, 0, 0] ∧
    endOf 5 0 [97, 98, 0, 0] = some 3 := by decide

/-- **KEYS OF SEVERAL STRINGS** are ordered string by string. -/
theorem fields_ordered {enc : List Byte → List Byte}
    (henc : ∀ s, ∃ room, encode room s = some (enc s)) (ss ts : List (List Byte)) :
    memcmp (ss.flatMap enc) (ts.flatMap enc) = List.compareLex memcmp ss ts := by
  obtain rfl : enc = code := funext fun s => (henc s).elim fun room => encode_some s room _
  have hsame : ∀ e u v, memcmp (e ++ u) (e ++ v) = memcmp u v := by
    intro e u v
    induction e with
    | nil => rfl
    | cons b e ih => simp [ih]
  have hcode : ∀ t, ∃ b e, code t = b :: e := fun t =>
    exists_cons_of_length_pos (Nat.zero_lt_of_lt (code_length t))
  induction ss generalizing ts with
  | nil =>
    cases ts with
    | nil => rfl
    | cons t ts =>
      obtain ⟨b, e, he⟩ := hcode t
      rw [flatMap_cons, he]
      rfl
  | cons s ss ih =>
    cases ts with
    | nil =>
      obtain ⟨b, e, he⟩ := hcode s
      rw [flatMap_cons, he]
      rfl
    | cons t ts =>
      rw [flatMap_cons, flatMap_cons, List.compareLex]
      -- equal fields leave the rest, others are told apart by their codes
      by_cases hst : s = t
      · rw [hst, hsame, memcmp_self, ih]
      · have hne := memcmp_ne hst
        rw [memcmp_code s t _ _ hst]
        cases h : memcmp s t with
        | eq => exact absurd h hne
        | lt | gt => rfl

/-- Two fields against one longer field. -/
theorem fields_ordered_two : memcmp ([[97], [99]].flatMap code) ([[97, 98]].flatMap code) = .lt :=
  fields_ordered (fun s => ⟨_, encode_fits s _ le_rfl⟩) _ _

end MemcmpCoding
