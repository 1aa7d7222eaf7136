import ToplingArk.UintVecProofs

/-! # `push_back` of a packed integer vector

    A value that fits `m_bits` goes behind the others, into more memory where there is no
    room; a wider value first brings all numbers to its own width, in new memory for
    `max(num+1, num*103/64)` numbers.  `push_back_slow_path` then VERIFIES that
    `compute_mem_size(m_bits, m_size+1)` is less than the memory there is, and not just not
    more.  The memory that was grown for a value that fits passes.  The memory for a wider
    value has often exactly that size, and then the process dies: `push_back(1)` on an empty
    vector does.  A run of calls goes through exactly when every wider value finds its
    memory large enough. -/

namespace UintVec

open ByteBits LittleEndian List Option BitVec

/-- The width of the widest number. -/
def widest (vs : List (BitVec 64)) : Nat := vs.foldl (fun w x => max w (computeUintbits x)) 0

/-- If `x` is wider than all of `vs`, the memory for the new width is larger than the
    memory that `vs` and `x` need. -/
def RoomFor (vs : List (BitVec 64)) (x : BitVec 64) : Prop :=
  widest vs < computeUintbits x →
    computeMemSize (computeUintbits x) (vs.length + 1) <
      computeMemSize (computeUintbits x) (max (vs.length + 1) (vs.length * 103 / 64))

instance (vs : List (BitVec 64)) (x : BitVec 64) : Decidable (RoomFor vs x) :=
  inferInstanceAs (Decidable (_ → _))

/-- Every value that is wider than all values before it has room. -/
def Roomy (vals : List (BitVec 64)) : Prop :=
  ∀ i (h : i < vals.length), RoomFor (vals.take i) vals[i]

instance (vals : List (BitVec 64)) : Decidable (Roomy vals) := Nat.decidableBallLT _ _

/-- The calls all return, and `size()` and `get` show the values. -/
def Models (get : Vec → Nat → Option (BitVec 64)) (vals : List (BitVec 64)) : Prop :=
  ∃ v, Runs.run pushBack Vec.empty vals = some v ∧ v.size = vals.length ∧
    ∀ i (h : i < vals.length), get v i = some vals[i]

theorem widest_snoc (vs : List (BitVec 64)) (x : BitVec 64) :
    widest (vs ++ [x]) = max (widest vs) (computeUintbits x) := by
  unfold widest
  rw [foldl_append]
  rfl

variable {vs : List (BitVec 64)}

theorem widest_le_iff {k : Nat} : widest vs ≤ k ↔ ∀ x ∈ vs, computeUintbits x ≤ k := by
  induction vs using reverseRecOn with
  | nil => exact ⟨fun _ x hx => absurd hx not_mem_nil, fun _ => Nat.zero_le k⟩
  | append_singleton vs x ih =>
    rw [widest_snoc, Nat.max_le, ih, forall_mem_append, forall_mem_singleton]

variable {vals : List (BitVec 64)}

/-- One more value needs room. -/
theorem roomy_snoc {x : BitVec 64} : Roomy (vals ++ [x]) ↔ Roomy vals ∧ RoomFor vals x := by
  constructor
  · intro h
    refine ⟨fun i hi => ?_, ?_⟩
    · have := h i (by rw [length_append]; omega)
      rwa [take_append_of_le_length hi.le, getElem_append_left hi] at this
    · have := h vals.length (by rw [length_append]; exact Nat.lt_succ_self _)
      rwa [take_left, getElem_concat_length rfl] at this
  rintro ⟨h, hx⟩ i hi
  rw [length_append, length_singleton] at hi
  by_cases hlt : i < vals.length
  · rw [take_append_of_le_length hlt.le, getElem_append_left hlt]
    exact h i hlt
  · obtain rfl : i = vals.length := by omega
    rw [take_left, getElem_concat_length rfl]
    exact hx

/-! ## One call -/

/-- The vector after the values have been pushed: memory to spare, unless it is new. -/
structure Pushed (v : Vec) (vs : List (BitVec 64)) : Prop extends Packs v vs where
  size : v.size = vs.length
  bits : v.bits = widest vs
  room : computeMemSize v.bits vs.length < v.data.length ∨ vs = [] ∧ v.data = []

theorem pushed_empty : Pushed Vec.empty [] where
  bits_le := by decide
  mask := by decide
  fits := forall_mem_nil _
  holds := Holds.nil
  align := Nat.dvd_zero 16
  size := rfl
  bits := rfl
  room := .inr ⟨rfl, rfl⟩

/-- The memory holds all values. -/
theorem Pushed.room_le {v : Vec} (h : Pushed v vs) {i : Nat} (hi : i < vs.length) :
    computeMemSize v.bits vs.length ≤ v.data.length := by
  rcases h.room with hroom | ⟨hnil, _⟩
  · exact Nat.le_of_lt hroom
  · rw [hnil] at hi
    cases hi

section Step

variable {v : Vec} {vs : List (BitVec 64)} {val : BitVec 64}

/-- A value that fits goes behind the others when there is more memory than they need. -/
theorem Pushed.setBack (h : Packs v vs) (hsize : v.size = vs.length)
    (hbits : v.bits = max (widest vs) (computeUintbits val))
    (hroom : computeMemSize v.bits (v.size + 1) < v.data.length) :
    ∃ v', v.setBack val = some v' ∧ Pushed v' (vs ++ [val]) := by
  have hfits : Fits v.bits val := fits_of_uintbits_le (by rw [hbits]; exact Nat.le_max_right _ _)
  obtain ⟨v', hset, hsize', hbits', hlen, hpacks⟩ := h.setBack hsize hfits hroom.le
  have hcount : (vs ++ [val]).length = v.size + 1 := by
    rw [length_append, length_singleton, hsize]
  exact ⟨v', hset, { hpacks with
    size := hsize'.trans hcount.symm
    bits := by rw [hbits', hbits, widest_snoc]
    room := .inl (by rw [hbits', hcount, hlen]; exact hroom) }⟩

/-- The memory that is grown for a value of the same width passes the check. -/
theorem grown_room (h : Pushed v vs)
    (hfull : ¬ computeMemSize v.bits (v.size + 1) < v.data.length) :
    let len := max 32 (alignUp (v.data.length * 103 / 64) 16)
    len % 16 = 0 ∧ v.data.length ≤ len ∧ computeMemSize v.bits (v.size + 1) < len := by
  have hbits := h.bits_le
  obtain ⟨k, hk⟩ := h.align
  have hsize := h.size
  intro len
  have hlen : len = max 32 (alignUp (v.data.length * 103 / 64) 16) := rfl
  unfold alignUp at hlen
  rcases h.room with hroom | ⟨rfl, hnil⟩
  · -- one number is at most 8 bytes, so the memory is exactly as large as needed
    have hnext : computeMemSize v.bits (v.size + 1) ≤ computeMemSize v.bits vs.length + 16 := by
      unfold computeMemSize
      rw [hsize, Nat.mul_add, Nat.mul_one]
      simp only
      omega
    omega
  · have hzero : computeMemSize v.bits (v.size + 1) = 16 := by
      rw [h.bits, hsize]
      rfl
    rw [hnil, length_nil] at hlen
    rw [hzero, hnil, length_nil, hlen]
    decide

/-- A wider value makes all fields wider. -/
theorem widen_eq (h : Pushed v vs) (hw : widest vs < computeUintbits val) :
    ∃ v', widen v val = some v' ∧ Packs v' vs ∧ v'.size = vs.length ∧
      v'.bits = computeUintbits val ∧ v'.data.length =
        computeMemSize (computeUintbits val) (max (vs.length + 1) (vs.length * 103 / 64)) := by
  have hle : v.bits ≤ computeUintbits val := by
    rw [h.bits]
    exact Nat.le_of_lt hw
  have hnum : vs.length < max (vs.length + 1) (vs.length * 103 / 64) := by omega
  obtain ⟨hnew, hnewlen⟩ := packs_resizeWithUintbits (computeUintbits_le val)
    (Nat.zero_lt_of_lt hnum)
  have hreread : ∀ i (hi : i < vs.length), v.reread i = some vs[i] := by
    intro i hi
    unfold Vec.reread
    split
    · exact h.get ‹_› (h.room_le hi) hi
    · exact h.bigGet (h.room_le hi) hi
  obtain ⟨data, hrun, hlen, hpacks⟩ := hnew.setAll hreread
    (fun x hx => (h.fits x hx).mono hle)
    (hnewlen ▸ computeMemSize_mono _ hnum.le)
  rw [hnewlen] at hlen
  refine ⟨{ data := data, bits := computeUintbits val, mask := maskOf (computeUintbits val),
            size := vs.length }, ?_, ?_, rfl, rfl, hlen⟩
  · rw [widen, h.size, hrun]
    rfl
  · exact ⟨hpacks.bits_le, hpacks.mask, hpacks.fits, hpacks.holds, hpacks.align⟩

/-- More memory, and the values stay. -/
theorem packs_grow (h : Pushed v vs)
    (hfull : ¬ computeMemSize v.bits (v.size + 1) < v.data.length) :
    Packs (grow v) vs ∧ computeMemSize v.bits (v.size + 1) < (grow v).data.length := by
  obtain ⟨hmod, hle, hroom⟩ := grown_room h hfull
  have hlen : (grow v).data.length = max 32 (alignUp (v.data.length * 103 / 64) 16) := by
    show (resizeBytes v.data _).length = _
    rw [resizeBytes, length_append, length_take, length_replicate]
    omega
  rw [← hlen] at hmod hroom
  refine ⟨⟨h.bits_le, h.mask, h.fits, ?_, Nat.dvd_of_mod_eq_zero hmod⟩, hroom⟩
  -- the old bytes stay where they are
  refine h.holds.congr (fun i hi => ?_)
  have hvs : 0 < vs.length := Nat.pos_of_ne_zero (fun h0 => by rw [h0] at hi; omega)
  have hold := h.room_le hvs
  have hbits := bits_lt_computeMemSize v.bits vs.length
  show bit (resizeBytes v.data _) i = _
  rw [bit, bit, resizeBytes, take_of_length_le hle, getElem?_append_left (by omega)]

/-- **STEP**: a call with room for the value appends it. -/
theorem pushBack_eq (h : Pushed v vs) (hroom : RoomFor vs val) :
    ∃ v', pushBack v val = some v' ∧ Pushed v' (vs ++ [val]) := by
  have hwide : v.mask < val ↔ widest vs < computeUintbits val := by
    rw [h.mask, maskOf_lt_iff h.bits_le, h.bits]
  by_cases hw : widest vs < computeUintbits val
  · have hmask := hwide.mpr hw
    obtain ⟨v1, hwiden, hpacks, hsize, hbits, hlen⟩ := widen_eq h hw
    have hroom1 : computeMemSize v1.bits (v1.size + 1) < v1.data.length := by
      rw [hbits, hsize, hlen]
      exact hroom hw
    obtain ⟨v', hset, hpushed⟩ := Pushed.setBack hpacks hsize
      (hbits.trans (Nat.max_eq_right hw.le).symm) hroom1
    refine ⟨v', ?_, hpushed⟩
    rw [pushBack, if_neg (fun hfast => absurd hmask (BitVec.not_lt.mpr hfast.2)), pushBackSlowPath,
      if_pos hmask, hwiden, bind_some, if_pos ⟨Nat.mod_eq_zero_of_dvd hpacks.align, hroom1⟩, hset]
  have hmask := mt hwide.mp hw
  have hbits : v.bits = max (widest vs) (computeUintbits val) := by
    rw [h.bits, Nat.max_eq_left (Nat.not_lt.mp hw)]
  by_cases hfast : computeMemSize v.bits (v.size + 1) < v.data.length
  · obtain ⟨v', hset, hpushed⟩ := Pushed.setBack h.toPacks h.size hbits hfast
    exact ⟨v', by rw [pushBack, if_pos ⟨hfast, BitVec.not_lt.mp hmask⟩, hset], hpushed⟩
  · obtain ⟨hpacks, hroom1⟩ := packs_grow h hfast
    obtain ⟨v', hset, hpushed⟩ := Pushed.setBack hpacks h.size hbits hroom1
    refine ⟨v', ?_, hpushed⟩
    rw [pushBack, if_neg (fun h => hfast h.1), pushBackSlowPath, if_neg hmask, bind_some,
      if_pos ⟨Nat.mod_eq_zero_of_dvd hpacks.align, hroom1⟩, hset]

/-- **THE VERIFICATION FAILS**: a call without room for the value does not return. -/
theorem pushBack_none (h : Pushed v vs) (hroom : ¬ RoomFor vs val) : pushBack v val = none := by
  unfold RoomFor at hroom
  push Not at hroom
  obtain ⟨hw, hfull⟩ := hroom
  have hmask : v.mask < val := by
    rw [h.mask, maskOf_lt_iff h.bits_le, h.bits]
    exact hw
  obtain ⟨v1, hwiden, -, hsize, hbits, hlen⟩ := widen_eq h hw
  rw [pushBack, if_neg (fun hfast => absurd hmask (BitVec.not_lt.mpr hfast.2)), pushBackSlowPath,
    if_pos hmask, hwiden, bind_some, if_neg]
  rintro ⟨-, hlt⟩
  rw [hbits, hsize, hlen] at hlt
  exact absurd hlt hfull.not_gt

end Step

/-! ## Runs -/

/-- **RUN**: the calls go through exactly when every value has room. -/
theorem run_pushBack (vals : List (BitVec 64)) :
    (Roomy vals → ∃ v, Runs.run pushBack Vec.empty vals = some v ∧ Pushed v vals) ∧
      (¬ Roomy vals → Runs.run pushBack Vec.empty vals = none) := by
  induction vals using reverseRecOn with
  | nil => exact ⟨fun _ => ⟨_, rfl, pushed_empty⟩, fun h => absurd (fun _ hi => nomatch hi) h⟩
  | append_singleton vals x ih =>
    rw [roomy_snoc, Runs.run_snoc]
    by_cases hroomy : Roomy vals
    · obtain ⟨v, hrun, hpushed⟩ := ih.1 hroomy
      rw [hrun, bind_some]
      exact ⟨fun h => pushBack_eq hpushed h.2,
        fun h => pushBack_none hpushed (fun hx => h ⟨hroomy, hx⟩)⟩
    · rw [ih.2 hroomy]
      exact ⟨fun h => absurd h.1 hroomy, fun _ => rfl⟩

/-- The vector models the list exactly when there is room. -/
theorem models_iff {get : Vec → Nat → Option (BitVec 64)}
    (hget : ∀ v, Pushed v vals → ∀ i (h : i < vals.length), get v i = some vals[i]) :
    Models get vals ↔ Roomy vals := by
  constructor
  · rintro ⟨v, hrun, -⟩
    by_contra hno
    rw [(run_pushBack vals).2 hno] at hrun
    exact nomatch hrun
  · intro hroomy
    obtain ⟨v, hrun, hpushed⟩ := (run_pushBack vals).1 hroomy
    exact ⟨v, hrun, hpushed.size, hget v hpushed⟩

/-- **PUSH BACK**: a run of calls models the list of the values exactly when every value that
    is wider than all before it finds more memory than it needs. -/
theorem push_back_models_list (vals : List (BitVec 64)) :
    ((∀ x ∈ vals, x.toNat < 2 ^ 58) → (Models Vec.get vals ↔ Roomy vals)) ∧
      (Models Vec.bigGet vals ↔ Roomy vals) := by
  refine ⟨fun h58 => models_iff (fun v h i hi => ?_), models_iff (fun v h i hi => ?_)⟩
  · have hbits : v.bits ≤ 58 := by
      rw [h.bits]
      exact widest_le_iff.mpr (fun x hx => computeUintbits_le_iff.mpr (h58 x hx))
    exact h.get hbits (h.room_le hi) hi
  · exact h.bigGet (h.room_le hi) hi

/-- Five zeros and a value of 32 bits, for which 48 bytes are taken and 32 needed. -/
theorem push_back_models_six :
    Models Vec.get [0#64, 0#64, 0#64, 0#64, 0#64, 0xffffffff#64] ∧
      Models Vec.bigGet [0#64, 0#64, 0#64, 0#64, 0#64, 0xffffffff#64] := by
  have hroomy : Roomy [0#64, 0#64, 0#64, 0#64, 0#64, 0xffffffff#64] := by decide +kernel
  obtain ⟨hsmall, hbig⟩ := push_back_models_list [0#64, 0#64, 0#64, 0#64, 0#64, 0xffffffff#64]
  exact ⟨(hsmall (by simp)).mpr hroomy, hbig.mpr hroomy⟩

/-- `push_back(1)` on an empty vector: 16 bytes are asked for and verified to be less than
    16. -/
theorem push_back_one_dies :
    Runs.run pushBack Vec.empty [1] = none ∧ ¬ Models Vec.get [1] ∧ ¬ Models Vec.bigGet [1] := by
  have hrun : Runs.run pushBack Vec.empty [1] = none := by decide
  refine ⟨hrun, ?_, ?_⟩
  · rintro ⟨v, h, -⟩
    exact nomatch hrun.symm.trans h
  · rintro ⟨v, h, -⟩
    exact nomatch hrun.symm.trans h

end UintVec
