import Mathlib.Algebra.BigOperators.Fin
import Mathlib.Data.BitVec
import ToplingArk.LittleEndianProofs
import ToplingArk.RunProofs

/-! # `freq_hist_o1` — how often one byte follows another

    A record is counted in eight lanes that walk through an eighth of it each.  The
    counters of the pairs have 8 bits and pass 256 on to a 64-bit counter when they
    wrap.  `none` is a read outside the record. -/

namespace FreqHist

open LittleEndian (Byte)
open Runs Finset Nat

/-- A `fstring`: its size is a `size_t`. -/
abbrev Record := { r : List Byte // r.length < 2 ^ 64 }

/-- `freq_hist_o1`; `o1Low` is `o1_`. -/
structure FreqHistO1 where
  o0Size : BitVec 64
  o0 : Byte → BitVec 64
  o1Size : Byte → BitVec 64
  o1 : Byte → Byte → BitVec 64
  o1Low : Byte → Byte → BitVec 8
  min : Nat
  max : Nat

/-- The object without length limits after `clear()`. -/
def clear : FreqHistO1 := ⟨0, fun _ => 0, fun _ => 0, fun _ _ => 0, fun _ _ => 0, 0, 2 ^ 64 - 1⟩

/-- `if (o1_[l][c]++ == 255) hist_.o1[l][c] += 256;` -/
def bump (h : FreqHistO1) (l c : Byte) : FreqHistO1 :=
  { h with
    o1Low := fun a b => if a = l ∧ b = c then h.o1Low a b + 1 else h.o1Low a b
    o1 := fun a b => if (a = l ∧ b = c) ∧ h.o1Low l c = 255 then h.o1 a b + 256 else h.o1 a b }

/-- One statement of the loops: lane `j`, whose last byte is `lasts[j]`, reads the byte at `p`. -/
def countAt (record : List Byte) (s : FreqHistO1 × List Byte) (j p : Nat) :
    Option (FreqHistO1 × List Byte) :=
  s.2[j]?.bind (fun l => record[p]?.map (fun c => (bump s.1 l c, s.2.set j c)))

/-- The loop before the lanes. -/
def countHead (record : List Byte) (s : FreqHistO1 × List Byte) (e : Nat) :
    Option (FreqHistO1 × List Byte) :=
  run (fun s i => countAt record s 0 (i + 1)) s (List.range e)

/-- One round of the lanes: lane `j` reads the byte `k` behind its begin. -/
def countRound (record : List Byte) (in0 idiv8 : Nat) (s : FreqHistO1 × List Byte) (k : Nat) :
    Option (FreqHistO1 × List Byte) :=
  run (fun s j => countAt record s j (in0 + idiv8 * j + k)) s (List.range 8)

/-- The lanes behind the first `e` pairs: `l1` to `l7` are the bytes before their begins. -/
def countLanes (record : List Byte) (e idiv8 : Nat) (s : FreqHistO1 × List Byte) :
    Option (FreqHistO1 × List Byte) :=
  (run (fun ls j => record[e + idiv8 * (j + 1)]?.map (fun l => ls ++ [l])) s.2 (List.range 7)).bind
    (fun ls => run (countRound record (e + 1) idiv8) (s.1, ls) (List.range idiv8))

/-- `add_record`: too short and too long records are left out. -/
def addRecord (h : FreqHistO1) (record : Record) : Option FreqHistO1 :=
  let size := record.1.length
  if size < h.min ∨ size > h.max then some h
  else
    let h := { h with o0Size := h.o0Size + BitVec.ofNat 64 size }
    match record.1 with
    | [] => some h
    | l0 :: _ =>
      (countHead record.1 ({ h with o0 := Function.update h.o0 l0 (h.o0 l0 + 1) }, [l0])
        ((size - 1) % 8)).bind (fun s =>
          if (size - 1) / 8 = 0 then some s.1
          else (countLanes record.1 ((size - 1) % 8) ((size - 1) / 8) s).map Prod.fst)

/-- `add_hist` -/
def addHist (h other : FreqHistO1) : FreqHistO1 :=
  { h with
    o0Size := h.o0Size + other.o0Size
    o0 := fun i => h.o0 i + other.o0 i
    o1Size := fun i => h.o1Size i + other.o1Size i
    o1 := fun i j => h.o1 i j + (other.o1 i j + (other.o1Low i j).setWidth 64) }

/-- One row of `finish()`. -/
def finishRow (h : FreqHistO1) (i : Byte) : FreqHistO1 :=
  let row := fun j => h.o1 i j + (h.o1Low i j).setWidth 64
  { h with
    o1 := Function.update h.o1 i row
    o1Low := Function.update h.o1Low i (fun _ => 0)
    o0 := fun j => h.o0 j + row j
    o1Size := Function.update h.o1Size i (h.o1Size i + ((List.finRange 256).map row).sum) }

/-- `finish` -/
def finish (h : FreqHistO1) : FreqHistO1 := (List.finRange 256).foldl finishRow h

/-! ## Counting pairs -/

/-- What the two counters of a pair hold together. -/
def tally (h : FreqHistO1) (a b : Byte) : BitVec 64 := h.o1 a b + (h.o1Low a b).setWidth 64

/-- One more pair is counted in its own cell. -/
theorem tally_bump (h : FreqHistO1) (l c a b : Byte) :
    tally (bump h l c) a b = tally h a b + if a = l ∧ b = c then 1 else 0 := by
  unfold tally bump
  dsimp only
  by_cases hab : a = l ∧ b = c
  · obtain ⟨rfl, rfl⟩ := hab
    by_cases hwrap : h.o1Low a b = 255
    · rw [if_pos ⟨⟨rfl, rfl⟩, hwrap⟩, if_pos ⟨rfl, rfl⟩, if_pos ⟨rfl, rfl⟩]
      bv_omega
    · rw [if_neg (fun hn => hwrap hn.2), if_pos ⟨rfl, rfl⟩, if_pos ⟨rfl, rfl⟩]
      bv_omega
  · rw [if_neg (fun hn => hab hn.1), if_neg hab, if_neg hab, add_zero]

/-- Is pair `i` of the record the pair of `a` and `b`? -/
def pairAt (record : List Byte) (a b : Byte) (i : Nat) : Nat :=
  if record[i]? = some a ∧ record[i + 1]? = some b then 1 else 0

/-- Besides what `h` holds, `h'` has counted the pairs in `seen`. -/
structure Counts (h h' : FreqHistO1) (seen : Byte → Byte → Nat) : Prop where
  tally : ∀ a b, tally h' a b = tally h a b + (seen a b : BitVec 64)
  rest : h' = { h with o1 := h'.o1, o1Low := h'.o1Low }

/-- So have the lanes, and lane `j` stands behind `pos j`. -/
structure Lanes (record : List Byte) (h : FreqHistO1) (m : Nat) (pos : Nat → Nat)
    (seen : Byte → Byte → Nat) (s : FreqHistO1 × List Byte) : Prop extends Counts h s.1 seen where
  length : s.2.length = m
  last : ∀ j < m, s.2[j]? = record[pos j]?

section Count

variable {record : List Byte} {h : FreqHistO1} {m e d : Nat} {pos : Nat → Nat}
  {seen : Byte → Byte → Nat} {s : FreqHistO1 × List Byte} {l0 : Byte}

/-- **ONE STATEMENT** counts the pair at which its lane stands and moves the lane on. -/
theorem Lanes.countAt (hs : Lanes record h m pos seen s) {j : Nat} (hj : j < m)
    (hlt : pos j + 1 < record.length) (pos' : Nat → Nat)
    (hpos : ∀ i < m, pos' i = if i = j then pos j + 1 else pos i) :
    ∃ s', countAt record s j (pos j + 1) = some s' ∧
      Lanes record h m pos' (fun a b => seen a b + pairAt record a b (pos j)) s' := by
  have hl : s.2[j]? = some record[pos j] := by
    rw [hs.last j hj, List.getElem?_eq_getElem]
  refine ⟨_, by rw [FreqHist.countAt, hl, List.getElem?_eq_getElem hlt]; rfl,
    ⟨fun a b => ?_, ?_⟩, by rw [List.length_set, hs.length], fun i hi => ?_⟩
  · rw [tally_bump, hs.tally, cast_add, pairAt, List.getElem?_eq_getElem hlt,
      List.getElem?_eq_getElem (lt_of_succ_lt hlt), add_assoc]
    simp [eq_comm]
  · rw [hs.rest]
    rfl
  · rw [hpos i hi]
    by_cases hij : i = j
    · subst hij
      rw [if_pos rfl, List.getElem?_set_self (by rw [hs.length]; exact hi),
        List.getElem?_eq_getElem hlt]
    · rw [if_neg hij, List.getElem?_set_ne (Ne.symm hij)]
      exact hs.last i hi

/-- The part before the lanes counts the first pairs. -/
theorem countHead_spec (hl0 : record[0]? = some l0) (he : e < record.length) :
    ∃ s, countHead record (h, [l0]) e = some s ∧
      Lanes record h 1 (fun _ => e) (fun a b => ∑ i ∈ range e, pairAt record a b i) s := by
  refine run_range (fun i s => Lanes record h 1 (fun _ => i)
    (fun a b => ∑ k ∈ range i, pairAt record a b k) s)
    ⟨⟨fun a b => ?_, rfl⟩, rfl, fun j hj => ?_⟩ (fun i hi s hs => ?_)
  · rw [sum_range_zero, cast_zero, add_zero]
  · rw [lt_one_iff.mp hj]
    exact hl0.symm
  · simp only [sum_range_succ]
    exact hs.countAt one_pos (by omega) _ (fun j hj => (if_pos (lt_one_iff.mp hj)).symm)

/-- One round counts one pair in each lane. -/
theorem countRound_spec {k : Nat} (hlt : e + d * 7 + k + 1 < record.length)
    (hs : Lanes record h 8 (fun j => e + d * j + k) seen s) :
    ∃ s', countRound record (e + 1) d s k = some s' ∧
      Lanes record h 8 (fun j => e + d * j + (k + 1))
        (fun a b => seen a b + ∑ j ∈ range 8, pairAt record a b (e + d * j + k)) s' := by
  refine (run_range (fun i s => Lanes record h 8
      (fun j => e + d * j + if j < i then k + 1 else k)
      (fun a b => seen a b + ∑ j ∈ range i, pairAt record a b (e + d * j + k)) s) hs
      (fun i hi s hs => ?_)).imp (fun s' ⟨hrun, hs'⟩ => ⟨hrun,
        { hs' with last := fun j hj => by rw [hs'.last j hj, if_pos hj] }⟩)
  have hle : d * i ≤ d * 7 := mul_le_mul_left d (le_of_lt_succ hi)
  have hstep := hs.countAt hi (by rw [if_neg (lt_irrefl i)]; omega)
    (fun j => e + d * j + if j < i + 1 then k + 1 else k) (fun j _ => ?_)
  · simp only [lt_irrefl, if_false] at hstep
    simp only [sum_range_succ, ← add_assoc]
    rwa [add_right_comm e 1, add_right_comm _ 1]
  · by_cases hij : j = i
    · rw [if_pos hij, hij, if_pos (lt_succ_self i), if_neg (lt_irrefl i)]
      rfl
    · rw [if_neg hij]
      congr 2
      exact propext ⟨fun hlt => by omega, fun hlt => by omega⟩

/-- Walking through `m` parts of length `d` side by side meets every place once. -/
theorem sum_lanes (f : Nat → Nat) (e m d : Nat) :
    ∑ k ∈ range d, ∑ j ∈ range m, f (e + d * j + k) = ∑ i ∈ range (d * m), f (e + i) := by
  rw [sum_comm]
  induction m with
  | zero => rw [mul_zero, sum_range_zero, sum_range_zero]
  | succ m ih =>
    rw [sum_range_succ, ih, mul_succ, sum_range_add]
    simp only [add_assoc]

/-- Summed over all places, the pairs of a record. -/
theorem sum_pairAt (a b : Byte) :
    ∑ i ∈ range (record.length - 1), pairAt record a b i =
      (record.zip record.tail).count (a, b) := by
  induction record with
  | nil => rfl
  | cons x rest ih =>
    cases rest with
    | nil => rfl
    | cons y rest =>
      rw [List.length_cons, List.length_cons, Nat.add_sub_cancel, sum_range_succ']
      rw [List.tail_cons, List.zip_cons_cons, List.count_cons]
      refine congrArg₂ (· + ·) ih ?_
      simp [pairAt]

/-- The lanes count the pairs behind the first `e`. -/
theorem countLanes_spec (hlt : e + d * 8 < record.length)
    (hs : Lanes record h 1 (fun _ => e) seen s) :
    ∃ s', countLanes record e d s = some s' ∧ Lanes record h 8 (fun j => e + d * j + d)
      (fun a b => seen a b + ∑ i ∈ range (d * 8), pairAt record a b (e + i)) s' := by
  obtain ⟨ls, hls, hlen, hlast⟩ : ∃ ls : List Byte,
      run (fun ls j => record[e + d * (j + 1)]?.map (fun l => ls ++ [l])) s.2 (List.range 7) =
        some ls ∧ ls.length = 7 + 1 ∧ ∀ j < 7 + 1, ls[j]? = record[e + d * j]? := by
    refine run_range (fun i (ls : List Byte) => ls.length = i + 1 ∧
        ∀ j < i + 1, ls[j]? = record[e + d * j]?)
      ⟨hs.length, fun j hj => ?_⟩ (fun i hi ls ⟨hlen, hlast⟩ => ?_)
    · rw [hs.last j hj, lt_one_iff.mp hj, mul_zero, add_zero]
    · have hle : d * (i + 1) ≤ d * 7 := mul_le_mul_left d hi
      have hget : record[e + d * (i + 1)]? = some record[e + d * (i + 1)] :=
        List.getElem?_eq_getElem (by omega)
      refine ⟨_, by rw [hget]; rfl, by rw [List.length_append, hlen]; rfl, fun j hj => ?_⟩
      obtain hj | rfl := Nat.lt_succ_iff_lt_or_eq.mp hj
      · rw [List.getElem?_append_left (hlen ▸ hj), hlast j hj]
      · rw [List.getElem?_append_right hlen.le, hlen, Nat.sub_self, hget]
        rfl
  have hlanes : Lanes record h 8 (fun j => e + d * j + 0) seen (s.1, ls) :=
    ⟨hs.toCounts, hlen, hlast⟩
  obtain ⟨s', hrun, hs'⟩ : ∃ s', run (countRound record (e + 1) d) (s.1, ls) (List.range d) =
      some s' ∧ Lanes record h 8 (fun j => e + d * j + d) (fun a b => seen a b +
        ∑ k ∈ range d, ∑ j ∈ range 8, pairAt record a b (e + d * j + k)) s' := by
    refine run_range (fun k s => Lanes record h 8 (fun j => e + d * j + k) (fun a b => seen a b +
      ∑ k' ∈ range k, ∑ j ∈ range 8, pairAt record a b (e + d * j + k')) s) hlanes
      (fun k hk s hs => ?_)
    simp only [sum_range_succ _ k, ← add_assoc]
    exact countRound_spec (by omega) hs
  simp only [fun a b => sum_lanes (pairAt record a b) e 8 d] at hs'
  exact ⟨s', by rw [countLanes, hls]; exact hrun, hs'⟩

/-- **ALL PAIRS OF A RECORD** are counted, each once. -/
theorem countPairs_spec (hl0 : record[0]? = some l0) (hlen : record.length = e + d * 8 + 1) :
    ∃ h', (countHead record (h, [l0]) e).bind (fun s =>
        if d = 0 then some s.1 else (countLanes record e d s).map Prod.fst) = some h' ∧
      Counts h h' (fun a b => (record.zip record.tail).count (a, b)) := by
  obtain ⟨s, hrun, hs⟩ := countHead_spec hl0 (by omega : e < record.length)
  simp only [← sum_pairAt, hlen]
  rw [hrun, Option.bind_some]
  by_cases hd : d = 0
  · subst hd
    exact ⟨s.1, rfl, hs.toCounts⟩
  · obtain ⟨s', hrun', hs'⟩ := countLanes_spec (by omega : e + d * 8 < _) hs
    simp only [← sum_range_add] at hs'
    rw [if_neg hd, hrun']
    exact ⟨s'.1, rfl, hs'.toCounts⟩

/-- A record adds its length, its first byte and its pairs. -/
theorem addRecord_spec {r : Record} (hmin : h.min ≤ r.1.length) (hmax : r.1.length ≤ h.max) :
    ∃ h', addRecord h r = some h' ∧
      Counts { h with
          o0Size := h.o0Size + (r.1.length : BitVec 64)
          o0 := fun b => h.o0 b + ((r.1.take 1).count b : BitVec 64) }
        h' (fun a b => (r.1.zip r.1.tail).count (a, b)) := by
  obtain ⟨record, hr⟩ := r
  unfold addRecord
  dsimp only at *
  rw [if_neg (by omega)]
  cases record with
  | nil => exact ⟨_, rfl, fun a b => (add_zero _).symm, by simp⟩
  | cons l0 rest =>
    have hfirst : Function.update h.o0 l0 (h.o0 l0 + 1) =
        fun b => h.o0 b + (((l0 :: rest).take 1).count b : BitVec 64) := by
      funext b
      by_cases hb : l0 = b
      · subst hb
        simp
      · simp [hb, Ne.symm hb]
    rw [← hfirst]
    exact countPairs_spec (rfl : (l0 :: rest)[0]? = some l0) (by rw [List.length_cons]; omega)

end Count

/-! ## Whole runs -/

/-- How often `b` follows `a` in the records. -/
def pairs (records : List Record) (a b : Byte) : Nat :=
  (records.map (fun r => (r.1.zip r.1.tail).count (a, b))).sum

/-- The histogram of the records: the bytes, how often each occurs, and how often each pair. -/
def histogram (records : List Record) : FreqHistO1 :=
  { clear with
    o0Size := ((records.map (fun r => r.1.length)).sum : Nat)
    o0 := fun b => ((records.map (fun r => r.1.count b)).sum : Nat)
    o1Size := fun a => ((∑ b, pairs records a b : Nat) : BitVec 64)
    o1 := fun a b => (pairs records a b : BitVec 64) }

/-- What is counted outside of the pairs: the sizes and the first bytes. -/
def outside (records : List Record) : FreqHistO1 :=
  { clear with
    o0Size := ((records.map (fun r => r.1.length)).sum : Nat)
    o0 := fun b => ((records.map (fun r => (r.1.take 1).count b)).sum : Nat) }

/-- The object has counted the records. -/
def Holds (records : List Record) (h : FreqHistO1) : Prop :=
  Counts (outside records) h (pairs records)

variable {records : List Record} {h : FreqHistO1}

theorem Holds.tally_eq (hh : Holds records h) (a b : Byte) :
    tally h a b = (pairs records a b : BitVec 64) :=
  (hh.tally a b).trans (zero_add _)

/-- One more record is counted. -/
theorem Holds.addRecord (hh : Holds records h) (r : Record) :
    ∃ h', addRecord h r = some h' ∧ Holds (records ++ [r]) h' := by
  have hrest := hh.rest
  have hmin : h.min = 0 := by rw [hrest]; rfl
  have hmax : h.max = 2 ^ 64 - 1 := by rw [hrest]; rfl
  obtain ⟨h', hrun, hcounts⟩ := addRecord_spec (h := h) (r := r) (by omega)
    (by have := r.2; omega)
  refine ⟨h', hrun, fun a b => ?_, hcounts.rest.trans ?_⟩
  · rw [hcounts.tally]
    refine (congrArg (· + _) (hh.tally_eq a b)).trans ?_
    simp [pairs, tally, outside, clear]
  · rw [hrest]
    simp [outside]

/-- **COUNTING A LIST OF RECORDS** never reads outside of them. -/
theorem count_holds (records : List Record) :
    ∃ h, run addRecord clear records = some h ∧ Holds records h := by
  induction records using List.reverseRecOn with
  | nil => exact ⟨clear, rfl, fun a b => rfl, rfl⟩
  | append_singleton records r ih =>
    obtain ⟨h, hrun, hh⟩ := ih
    rw [run_snoc, hrun]
    exact hh.addRecord r

/-- Two histograms together count the records of both. -/
theorem Holds.addHist {xs ys : List Record} {other : FreqHistO1} (hx : Holds xs h)
    (hy : Holds ys other) : Holds (xs ++ ys) (addHist h other) := by
  refine ⟨fun a b => ?_, ?_⟩
  · have hsum : tally (FreqHist.addHist h other) a b = tally h a b + tally other a b :=
      add_right_comm _ _ _
    rw [hsum, hx.tally_eq, hy.tally_eq]
    simp [pairs, tally, outside, clear]
  · unfold FreqHist.addHist
    rw [hx.rest, hy.rest]
    simp [outside, clear]

theorem update_row {α : Type} (rows : List Byte) (i : Byte) (f g : Byte → α) :
    Function.update (fun a => if a ∈ rows then f a else g a) i (f i) =
      fun a => if a ∈ rows ++ [i] then f a else g a := by
  funext a
  by_cases ha : a = i
  · subst ha
    simp
  · simp [ha]

/-- `finish` adds up the rows it went through. -/
theorem foldl_finishRow (h : FreqHistO1) {rows : List Byte} (hnodup : rows.Nodup) :
    rows.foldl finishRow h = { h with
      o0 := fun b => h.o0 b + (rows.map (tally h · b)).sum
      o1Size := fun a => if a ∈ rows then h.o1Size a + ∑ b, tally h a b else h.o1Size a
      o1 := fun a => if a ∈ rows then tally h a else h.o1 a
      o1Low := fun a => if a ∈ rows then fun _ => 0 else h.o1Low a } := by
  induction rows using List.reverseRecOn with
  | nil => simp
  | append_singleton rows i ih =>
    obtain ⟨hrows, -, hdisj⟩ := List.nodup_append.mp hnodup
    have hi : i ∉ rows := fun hmem => hdisj i hmem i (List.mem_singleton_self i) rfl
    rw [List.foldl_append, ih hrows, List.foldl_cons, List.foldl_nil, finishRow]
    simp only [if_neg hi, ← update_row]
    congr 1
    simp [tally, add_assoc]

theorem sum_count_fst (ps : List (Byte × Byte)) (b : Byte) :
    ∑ a, ps.count (a, b) = (ps.map Prod.snd).count b := by
  induction ps with
  | nil => simp
  | cons p ps ih =>
    obtain ⟨x, y⟩ := p
    simp only [List.count_cons, sum_add_distrib, ih]
    by_cases hy : y = b
    · simp [hy]
    · simp [hy]

/-- A byte is the first one or the second of a pair. -/
theorem count_eq (r : List Byte) (b : Byte) :
    r.count b = (r.take 1).count b + ∑ a, (r.zip r.tail).count (a, b) := by
  rw [sum_count_fst, List.map_snd_zip (by simp)]
  cases r with
  | nil => rfl
  | cons x r => simp [List.count_cons, add_comm]

/-- A byte is the first of a record, or the second of a pair. -/
theorem sum_count_eq (records : List Record) (b : Byte) :
    (records.map (fun r => r.1.count b)).sum =
      (records.map (fun r => (r.1.take 1).count b)).sum + ∑ a, pairs records a b := by
  induction records with
  | nil => simp [pairs]
  | cons r records ih =>
    simp only [pairs, List.map_cons, List.sum_cons, sum_add_distrib] at ih ⊢
    rw [count_eq]
    omega

/-- In the end the histogram is that of the records. -/
theorem Holds.finish (hh : Holds records h) : finish h = histogram records := by
  have htally : tally h = fun a b => (pairs records a b : BitVec 64) := funext₂ hh.tally_eq
  rw [FreqHist.finish, foldl_finishRow h (List.nodup_finRange 256), histogram]
  simp only [List.mem_finRange, if_true, htally, ← Fin.sum_univ_def]
  rw [hh.rest]
  simp only [sum_count_eq, cast_add, cast_sum, outside, clear, zero_add]

/-- **THE HISTOGRAM IS EXACT**, as 64-bit words, and it does not matter which of two objects
    counted a record. -/
theorem histogram_exact (records : List Record) :
    (run addRecord clear records).map finish = some (histogram records) ∧
    ∀ xs ys, (xs ++ ys).Perm records →
      ((run addRecord clear xs).bind (fun h => (run addRecord clear ys).map (addHist h))).map
        finish = some (histogram records) := by
  refine ⟨?_, fun xs ys hperm => ?_⟩
  · obtain ⟨h, hrun, hh⟩ := count_holds records
    rw [hrun, Option.map_some, hh.finish]
  · obtain ⟨h, hrun, hh⟩ := count_holds xs
    obtain ⟨other, hrun', ho⟩ := count_holds ys
    rw [hrun, Option.bind_some, hrun', Option.map_some, Option.map_some, (hh.addHist ho).finish]
    have hsum : ∀ f : Record → Nat, ((xs ++ ys).map f).sum = (records.map f).sum :=
      fun f => (hperm.map f).sum_eq
    simp only [histogram, pairs, hsum]

/-- Two records, counted together and by two objects. -/
theorem histogram_exact_two :
    ∃ h, ((run addRecord clear [⟨[1, 2, 1, 2], by decide⟩]).bind (fun h =>
      (run addRecord clear [⟨[1], by decide⟩]).map (addHist h))).map finish = some h ∧
      h.o1 1 2 = 2 ∧ h.o0 1 = 3 := by
  refine ⟨_, (histogram_exact [⟨[1], by decide⟩, ⟨[1, 2, 1, 2], by decide⟩]).2 _ _
    (List.Perm.swap _ _ []), ?_, ?_⟩
  · decide
  · decide

end FreqHist
