import Mathlib.Data.List.Pairwise
import Mathlib.Data.List.Perm.Subperm
import ToplingArk.LittleEndianProofs

/-! # Memory — blocks of cells, and bytes under addresses

    A block of memory is the list of its cells.  Ranges of cells are read and written as
    lists; an access outside the block is `none`.  Where addresses are too large for lists, a
    memory is a function from addresses to bytes, in which numbers are loaded and stored. -/

namespace Memory

open List

variable {α : Type} {m : List α} {pos n i w q l : Nat}

/-- The `n` cells from `pos` on. -/
def read (m : List α) (pos n : Nat) : Option (List α) :=
  if pos + n ≤ m.length then some ((m.drop pos).take n) else none

/-- The cells from `pos` on are replaced. -/
def write (m : List α) (pos : Nat) (xs : List α) : Option (List α) :=
  if pos + xs.length ≤ m.length then some (m.take pos ++ xs ++ m.drop (pos + xs.length)) else none

/-- `memmove`: the ranges may overlap. -/
def memmove (m : List α) (dst src n : Nat) : Option (List α) := (read m src n).bind (write m dst)

/-- **READ**: the cells one by one. -/
theorem read_eq (h : pos + n ≤ m.length) :
    ∃ xs, read m pos n = some xs ∧ xs.length = n ∧ ∀ i, i < n → xs[i]? = m[pos + i]? := by
  unfold read
  rw [if_pos h]
  refine ⟨_, rfl, ?_, ?_⟩
  · rw [length_take, length_drop]
    omega
  · intro i hi
    rw [getElem?_take_of_lt hi, getElem?_drop]

/-- What stands between two other ranges. -/
theorem read_append (pre xs post : List α) :
    read (pre ++ xs ++ post) pre.length xs.length = some xs := by
  unfold read
  rw [if_pos (by simp), append_assoc, drop_left, take_left]

/-- **WRITE**: the cells of the range are new, the others stay. -/
theorem write_eq {xs : List α} (h : pos + xs.length ≤ m.length) :
    ∃ m', write m pos xs = some m' ∧ m'.length = m.length ∧
      (∀ i, i < xs.length → m'[pos + i]? = xs[i]?) ∧
      ∀ i, (i < pos ∨ pos + xs.length ≤ i) → m'[i]? = m[i]? := by
  have hpre : (m.take pos).length = pos := by
    rw [length_take]
    omega
  unfold write
  rw [if_pos h]
  refine ⟨_, rfl, ?_, ?_, ?_⟩
  · rw [length_append, length_append, hpre, length_drop]
    omega
  · intro i hi
    rw [append_assoc, getElem?_append_right (by omega), hpre, Nat.add_sub_cancel_left,
      getElem?_append_left hi]
  · rintro i (hlt | hge)
    · rw [append_assoc, getElem?_append_left (by omega), getElem?_take_of_lt hlt]
    · rw [getElem?_append_right (by rw [length_append, hpre]; exact hge),
        length_append, hpre, getElem?_drop]
      congr 1
      omega

/-- **MEMMOVE**: the range is copied, the cells outside the destination stay. -/
theorem memmove_eq {dst src : Nat} (hsrc : src + n ≤ m.length) (hdst : dst + n ≤ m.length) :
    ∃ m', memmove m dst src n = some m' ∧ m'.length = m.length ∧
      (∀ i, i < n → m'[dst + i]? = m[src + i]?) ∧
      ∀ i, (i < dst ∨ dst + n ≤ i) → m'[i]? = m[i]? := by
  obtain ⟨xs, hread, hlen, hxs⟩ := read_eq hsrc
  obtain ⟨m', hwrite, hlen', hin, hout⟩ := write_eq (show dst + xs.length ≤ m.length by omega)
  refine ⟨m', ?_, hlen', ?_, ?_⟩
  · unfold memmove
    rw [hread, Option.bind_some, hwrite]
  · intro i hi
    rw [hin i (by omega), hxs i hi]
  · intro i hi
    exact hout i (by omega)

/-! ## Bytes under addresses -/

open LittleEndian

variable (mem : Nat → Byte)

/-- The number in the `w` bytes from `pos` on. -/
def load (pos w : Nat) : Nat :=
  value ((List.range w).map (fun i => mem (pos + i)))

/-- The bytes from `pos` on are replaced. -/
def store (pos : Nat) (bs : List Byte) : Nat → Byte :=
  fun i => if pos ≤ i then (bs[i - pos]?).getD (mem i) else mem i

/-- `memcpy` between ranges that do not overlap. -/
def memcpy (dst src n : Nat) : Nat → Byte :=
  fun i => if dst ≤ i ∧ i < dst + n then mem (src + (i - dst)) else mem i

/-- A store changes its own bytes only. -/
theorem store_outside {mem : Nat → Byte} {bs : List Byte} (h : i < pos ∨ pos + bs.length ≤ i) :
    store mem pos bs i = mem i := by
  unfold store
  split
  · rw [getElem?_eq_none (by omega)]
    rfl
  · rfl

/-- A load depends on its own bytes only. -/
theorem load_congr {mem mem' : Nat → Byte} (h : ∀ i, pos ≤ i → i < pos + w → mem' i = mem i) :
    load mem' pos w = load mem pos w := by
  unfold load
  congr 1
  refine map_congr_left (fun i hi => ?_)
  have := mem_range.mp hi
  exact h (pos + i) (Nat.le_add_right _ _) (by omega)

/-- **LOAD** of what was stored. -/
theorem load_store (pos w v : Nat) : load (store mem pos (bytes w v)) pos w = v % 256 ^ w := by
  have hbytes : (range w).map (fun i => store mem pos (bytes w v) (pos + i)) = bytes w v := by
    refine ext_getElem? (fun i => ?_)
    rw [getElem?_map]
    by_cases hi : i < w
    · have hlt : i < (bytes w v).length := by
        rw [bytes_length]
        exact hi
      rw [getElem?_range hi, Option.map_some]
      unfold store
      rw [if_pos (Nat.le_add_right _ _), Nat.add_sub_cancel_left, getElem?_eq_getElem hlt]
      rfl
    · rw [getElem?_eq_none (by simpa using hi), getElem?_eq_none (by simpa using hi)]
      rfl
  unfold load
  rw [hbytes, value_bytes]

/-- A store does not change another word. -/
theorem load_store_ne {mem : Nat → Byte} {pos' v : Nat} (h : pos + w ≤ pos' ∨ pos' + w ≤ pos) :
    load (store mem pos (bytes w v)) pos' w = load mem pos' w := by
  refine load_congr (fun i hle hlt => store_outside ?_)
  rw [bytes_length]
  omega

theorem load_lt (pos w : Nat) : load mem pos w < 256 ^ w := by
  have h := value_lt ((range w).map (fun i => mem (pos + i)))
  rw [length_map, length_range] at h
  exact h

/-! ## Blocks that lie apart -/

/-- A range of addresses: where it begins and how long it is. -/
abbrev Block := Nat × Nat

/-- Blocks that share no byte. -/
def Apart (b c : Block) : Prop := b.1 + b.2 ≤ c.1 ∨ c.1 + c.2 ≤ b.1

variable {b c : Block}

theorem Apart.symm (h : Apart b c) : Apart c b := Or.symm h

instance : Std.Symm Apart := ⟨fun _ _ => Apart.symm⟩

/-- A byte of one block is in no other. -/
theorem Apart.not_mem (h : Apart b c) (h1 : b.1 ≤ i) (h2 : i < b.1 + b.2) :
    i < c.1 ∨ c.1 + c.2 ≤ i := by
  rcases h with h | h
  · exact .inl (h2.trans_le h)
  · exact .inr (h.trans h1)

/-- Aligned blocks that are not empty lie apart below `n`. -/
structure Tiling (align n : Nat) (bs : List Block) : Prop where
  apart : bs.Pairwise Apart
  inside : ∀ b ∈ bs, align ∣ b.1 ∧ align ∣ b.2 ∧ 0 < b.2 ∧ b.1 + b.2 ≤ n

variable {align n : Nat} {bs cs : List Block} {b : Block}

/-- The order of the blocks does not matter. -/
theorem Tiling.perm (h : Tiling align n bs) (hp : bs.Perm cs) : Tiling align n cs where
  apart := (hp.pairwise_iff Apart.symm).mp h.apart
  inside := fun b hb => h.inside b (hp.mem_iff.mpr hb)

/-- Fewer blocks lie apart too. -/
theorem Tiling.sublist (h : Tiling align n bs) (hs : cs.Sublist bs) : Tiling align n cs where
  apart := h.apart.sublist hs
  inside := fun b hb => h.inside b (hs.subset hb)

theorem Tiling.tail (h : Tiling align n (b :: bs)) : Tiling align n bs :=
  h.sublist (sublist_cons_self b bs)

theorem Tiling.head_apart (h : Tiling align n (b :: bs)) : ∀ c ∈ bs, Apart b c :=
  fun _ hc => rel_of_pairwise_cons h.apart hc

theorem Tiling.apart_of_ne (h : Tiling align n bs) (hb : b ∈ bs) (hc : c ∈ bs) (hne : b ≠ c) :
    Apart b c :=
  h.apart.forall hb hc hne

theorem Tiling.mono (h : Tiling align n bs) {n' : Nat} (hn : n ≤ n') : Tiling align n' bs where
  apart := h.apart
  inside := fun b hb => by
    obtain ⟨h1, h2, h3, h4⟩ := h.inside b hb
    exact ⟨h1, h2, h3, h4.trans hn⟩

/-- One more block, apart from the others. -/
theorem Tiling.cons (h : Tiling align n bs)
    (hb : align ∣ b.1 ∧ align ∣ b.2 ∧ 0 < b.2 ∧ b.1 + b.2 ≤ n)
    (hapart : ∀ c ∈ bs, Apart b c) : Tiling align n (b :: bs) where
  apart := pairwise_cons.mpr ⟨hapart, h.apart⟩
  inside := fun c hc => by
    rcases mem_cons.mp hc with rfl | hc
    · exact hb
    · exact h.inside c hc

/-- Without its last block the memory ends before it. -/
theorem Tiling.cut (h : Tiling align n (b :: bs)) (hend : b.1 + b.2 = n) : Tiling align b.1 bs where
  apart := h.tail.apart
  inside := fun c hc => by
    obtain ⟨h1, h2, h3, h4⟩ := h.inside c (mem_cons_of_mem _ hc)
    refine ⟨h1, h2, h3, ?_⟩
    rcases h.head_apart c hc with hbc | hcb
    · omega
    · exact hcb

/-- A block behind all others. -/
theorem Tiling.push (h : Tiling align n bs) {len : Nat} (hn : align ∣ n) (hlen : align ∣ len)
    (hpos : 0 < len) : Tiling align (n + len) ((n, len) :: bs) :=
  (h.mono (Nat.le_add_right n len)).cons ⟨hn, hlen, hpos, le_rfl⟩
    (fun c hc => .inr (h.inside c hc).2.2.2)

/-- A block becomes shorter. -/
theorem Tiling.shrink {l' : Nat} (h : Tiling align n ((q, l) :: bs)) (hle : l' ≤ l)
    (hdvd : align ∣ l') (hpos : 0 < l') : Tiling align n ((q, l') :: bs) := by
  obtain ⟨h1, -, -, h4⟩ := h.inside (q, l) mem_cons_self
  refine h.tail.cons ⟨h1, hdvd, hpos, Nat.le_trans (Nat.add_le_add_left hle q) h4⟩ (fun c hc => ?_)
  exact (h.head_apart c hc).imp_left (Nat.le_trans (Nat.add_le_add_left hle q))

/-- A block becomes two. -/
theorem Tiling.split {l1 l2 : Nat} (h : Tiling align n ((q, l) :: bs)) (hle : l1 + l2 ≤ l)
    (hdvd1 : align ∣ l1) (hdvd2 : align ∣ l2) (hpos1 : 0 < l1) (hpos2 : 0 < l2) :
    Tiling align n ((q + l1, l2) :: (q, l1) :: bs) := by
  obtain ⟨h1, -, -, h4⟩ := h.inside (q, l) mem_cons_self
  refine (h.shrink (by omega) hdvd1 hpos1).cons
    ⟨Nat.dvd_add h1 hdvd1, hdvd2, hpos2, show q + l1 + l2 ≤ n by omega⟩ (fun c hc => ?_)
  rcases mem_cons.mp hc with rfl | hc
  · exact .inr le_rfl
  · rcases h.head_apart c hc with hbc | hcb
    · exact .inl (show q + l1 + l2 ≤ c.1 by dsimp only at hbc; omega)
    · exact .inr (show c.1 + c.2 ≤ q + l1 by dsimp only at hcb; omega)

/-- There are at most as many blocks as addresses. -/
theorem Tiling.length_le (h : Tiling align n bs) : bs.length ≤ n := by
  have hnodup : (bs.map Prod.fst).Nodup := by
    rw [nodup_iff_pairwise_ne, pairwise_map]
    refine h.apart.imp_of_mem (fun {b _} hb hc hbc heq => ?_)
    have h1 := (h.inside b hb).2.2.1
    have h2 := (h.inside _ hc).2.2.1
    rcases hbc with hbc | hcb <;> omega
  have hsub : bs.map Prod.fst ⊆ range n := by
    intro q hq
    obtain ⟨b, hb, rfl⟩ := mem_map.mp hq
    obtain ⟨-, -, h3, h4⟩ := h.inside b hb
    exact mem_range.mpr (by omega)
  have hlen := (hnodup.subperm hsub).length_le
  rw [length_map, length_range] at hlen
  exact hlen

end Memory
