import ToplingArk.UintVecProofs

/-! # `UintVecMin0Builder` — packed integers written to a stream

    The builder packs into a buffer for 128 numbers and writes the `bits * 128 / 8` bytes they
    fill whenever it is full; the buffer is then used again, with its old contents.  `finish`
    writes the rest as a vector of its own with its padding, or 16 zero bytes when there is no
    rest.  128 numbers of any width are a multiple of 16 bytes, so what was written is the
    memory of ONE vector: `compute_mem_size` adds up. -/

namespace UintVec

open ByteBits LittleEndian List Option Nat

/-- `UintVecMin0Builder`, with the bytes that `m_writer` has received -/
structure Builder where
  written : List Byte
  buffer : Vec
  count : Nat
  flushCount : Nat
  outputSize : Nat

/-- What `finish` reports. -/
structure BuildResult where
  uintbits : Nat
  size : Nat
  memSize : Nat

/-- `offset_flush_size` -/
def offsetFlushSize : Nat := 128

/-- `create_builder_by_uintbits` -/
def createBuilderByUintbits (uintbits : Nat) : Builder where
  written := []
  buffer := resizeWithUintbits offsetFlushSize uintbits
  count := 0
  flushCount := 0
  outputSize := 0

/-- `push_back` -/
def Builder.pushBack (b : Builder) (value : BitVec 64) : Option Builder :=
  (b.buffer.setWire b.count value).bind (fun buffer =>
    if b.count + 1 = offsetFlushSize then
      let byteCount := buffer.bits * offsetFlushSize / 8
      (Memory.read buffer.data 0 byteCount).map (fun bytes =>
        { written := b.written ++ bytes
          buffer := buffer
          count := 0
          flushCount := b.flushCount + offsetFlushSize
          outputSize := b.outputSize + byteCount })
    else
      some { b with buffer := buffer, count := b.count + 1 })

/-- `UintVecMin0Base::resize` -/
def Vec.resize (v : Vec) (newsize : Nat) : Vec :=
  let bytes := if 0 = newsize then 0 else (v.bits * newsize + 7) / 8 + 7 + 15
  { v with data := resizeBytes v.data (bytes / 16 * 16), size := newsize }

/-- `shrink_to_fit` -/
def Vec.shrinkToFit (v : Vec) : Vec := v.resize v.size

/-- `finish`, with all the bytes written -/
def Builder.finish (b : Builder) : BuildResult × List Byte :=
  if 0 < b.count then
    let buffer := (b.buffer.resize b.count).shrinkToFit
    ({ uintbits := buffer.bits
       size := b.flushCount + b.count
       memSize := b.outputSize + buffer.data.length }, b.written ++ buffer.data)
  else
    let remainSize := computeMemSize b.buffer.bits 0
    ({ uintbits := b.buffer.bits
       size := b.flushCount + b.count
       memSize := b.outputSize + remainSize }, b.written ++ List.replicate remainSize 0)

/-- `UintVecMin0::risk_set_data`: `none` is the null pointer, and the memory behind any other
    one has to have the bytes of the vector -/
def riskSetData (data : Option (List Byte)) (num bits : Nat) : Option Vec :=
  if 58 < bits then none
  else match data with
    | none =>
      if num = 0 then some { data := [], bits := bits, mask := maskOf bits, size := 0 } else none
    | some bytes =>
      if num = 0 then none
      else (Memory.read bytes 0 (computeMemSize bits num)).map (fun data =>
        { data := data, bits := bits, mask := maskOf bits, size := num })

/-! ## Sizes -/

/-- **SIZES ADD UP**: full groups of 128 numbers before a vector. -/
theorem computeMemSize_groups (bits k num : Nat) :
    computeMemSize bits (128 * k + num) = 16 * (bits * k) + computeMemSize bits num := by
  have hsplit : bits * (128 * k + num) = 128 * (bits * k) + bits * num := by
    rw [mul_add, mul_left_comm]
  unfold computeMemSize
  simp only
  omega

/-- Shrinking keeps the bytes that are needed. -/
theorem shrinkToFit_data {v : Vec} {num : Nat} (hnum : 0 < num)
    (hle : computeMemSize v.bits num ≤ v.data.length) :
    ((v.resize num).shrinkToFit).data = v.data.take (computeMemSize v.bits num) := by
  have hbytes : (if 0 = num then 0 else (v.bits * num + 7) / 8 + 7 + 15) / 16 * 16 =
      computeMemSize v.bits num := by
    rw [if_neg (by omega)]
    rfl
  have hcut : ∀ data : List Byte, computeMemSize v.bits num ≤ data.length →
      resizeBytes data (computeMemSize v.bits num) = data.take (computeMemSize v.bits num) := by
    intro data h
    rw [resizeBytes, Nat.sub_eq_zero_of_le h, replicate_zero, append_nil]
  have hresize : (v.resize num).data = v.data.take (computeMemSize v.bits num) := by
    show resizeBytes v.data _ = _
    rw [hbytes, hcut _ hle]
  show resizeBytes (v.resize num).data
    ((if 0 = num then 0 else (v.bits * num + 7) / 8 + 7 + 15) / 16 * 16) = _
  rw [hbytes, hresize, hcut _ (by rw [length_take]; omega), take_take, min_self]

/-! ## Pushing -/

/-- The values `old` are written and the values `cur` are in the buffer. -/
structure Building (b : Builder) (bits : Nat) (old cur : List (BitVec 64)) : Prop where
  packs : Packs b.buffer cur
  bits_eq : b.buffer.bits = bits
  buffer_length : b.buffer.data.length = computeMemSize bits 128
  count : b.count = cur.length
  count_lt : cur.length < 128
  flushCount : b.flushCount = old.length
  outputSize : b.outputSize = b.written.length
  holds : Holds bits b.written old
  groups : ∃ k, old.length = 128 * k ∧ b.written.length = 16 * (bits * k)

variable {b : Builder} {bits : Nat} {old cur : List (BitVec 64)}

theorem Building.full (h : Building b bits old cur) : 8 * b.written.length = bits * old.length := by
  obtain ⟨k, hk, hlen⟩ := h.groups
  rw [hk, hlen, mul_left_comm bits 128 k, ← Nat.mul_assoc]

/-- A new builder has no values. -/
theorem building_create (h : bits ≤ 64) : Building (createBuilderByUintbits bits) bits [] [] := by
  have hnum : 0 < offsetFlushSize := by decide
  obtain ⟨hpacks, hlen⟩ := packs_resizeWithUintbits h hnum
  exact ⟨hpacks, rfl, hlen, rfl, by decide, rfl, rfl, Holds.nil, 0, rfl, rfl⟩

/-- **STEP**: a value goes into the buffer, and a full buffer is written. -/
theorem Building.pushBack (h : Building b bits old cur) {value : BitVec 64}
    (hvalue : value.toNat < 2 ^ bits) :
    ∃ b', b.pushBack value = some b' ∧ ∃ old' cur',
      old' ++ cur' = old ++ cur ++ [value] ∧ Building b' bits old' cur' := by
  have hbits := h.bits_eq
  have hroom : computeMemSize b.buffer.bits (cur.length + 1) ≤ b.buffer.data.length := by
    rw [hbits, h.buffer_length]
    exact computeMemSize_mono bits h.count_lt
  obtain ⟨data, hset, hlen, hpacks⟩ := h.packs.setWire (hbits ▸ fits_of_lt hvalue) hroom
  rw [Builder.pushBack, h.count, hset, bind_some]
  -- 128 values of any width are a whole number of bytes
  by_cases hflush : cur.length + 1 = offsetFlushSize
  · have hbytes : b.buffer.bits * 128 / 8 = 16 * bits := by
      omega
    have hfit : 0 + 16 * bits ≤ data.length := by
      have := bits_lt_computeMemSize bits 128
      rw [hlen, h.buffer_length]
      omega
    rw [if_pos hflush]
    simp only [offsetFlushSize, hbytes]
    rw [Memory.read, if_pos hfit, drop_zero, map_some]
    refine ⟨_, rfl, old ++ (cur ++ [value]), [], by rw [append_nil, append_assoc], ?_⟩
    have hcount : (cur ++ [value]).length = 128 := by
      rw [length_append]
      exact hflush
    have hwritten : (data.take (16 * bits)).length = 16 * bits :=
      length_take_of_le (by omega)
    obtain ⟨k, hk, hk'⟩ := h.groups
    exact {
      packs := ⟨hpacks.bits_le, hpacks.mask, forall_mem_nil _, Holds.nil,
        hpacks.align⟩
      bits_eq := hbits
      buffer_length := hlen.trans h.buffer_length
      count := rfl
      count_lt := by decide
      flushCount := by rw [length_append, hcount, h.flushCount]
      outputSize := by rw [length_append, hwritten, h.outputSize]
      holds := h.holds.append h.full
        (Holds.take (hbits ▸ hpacks.holds) (by rw [hcount]; omega))
      groups := ⟨k + 1, by rw [length_append, hcount, hk, mul_succ],
        by rw [length_append, hwritten, hk', mul_succ, mul_add]⟩ }
  -- otherwise the value waits in the buffer
  rw [if_neg hflush]
  refine ⟨_, rfl, old, cur ++ [value], by rw [append_assoc], ?_⟩
  have hcount : (cur ++ [value]).length = cur.length + 1 := length_append
  exact {
    packs := hpacks
    bits_eq := hbits
    buffer_length := hlen.trans h.buffer_length
    count := hcount.symm
    count_lt := by
      rw [hcount]
      exact lt_of_le_of_ne h.count_lt hflush
    flushCount := h.flushCount
    outputSize := h.outputSize
    holds := h.holds
    groups := h.groups }

/-- **RUN**: all values are written or in the buffer. -/
theorem run_builder (h : bits ≤ 64) {vals : List (BitVec 64)}
    (hvals : ∀ x ∈ vals, x.toNat < 2 ^ bits) :
    ∃ b, Runs.run Builder.pushBack (createBuilderByUintbits bits) vals = some b ∧
      ∃ old cur, old ++ cur = vals ∧ Building b bits old cur := by
  induction vals using reverseRecOn with
  | nil => exact ⟨_, rfl, [], [], rfl, building_create h⟩
  | append_singleton vals x ih =>
    obtain ⟨b, hrun, old, cur, hvs, hb⟩ := ih (fun y hy => hvals y (mem_append_left _ hy))
    obtain ⟨b', hpush, old', cur', hvs', hb'⟩ :=
      hb.pushBack (hvals x (mem_append_right _ (mem_singleton_self x)))
    refine ⟨b', ?_, old', cur', hvs'.trans (by rw [hvs]), hb'⟩
    rw [Runs.run_snoc, hrun, bind_some, hpush]

/-- **FINISH**: the bytes are those of one vector with all the values. -/
theorem Building.finish (h : Building b bits old cur) :
    b.finish.1.uintbits = bits ∧ b.finish.1.size = (old ++ cur).length ∧
      b.finish.1.memSize = b.finish.2.length ∧
      b.finish.2.length = computeMemSize bits (old ++ cur).length ∧
      Holds bits b.finish.2 (old ++ cur) := by
  have hbits := h.bits_eq
  obtain ⟨k, hk, hwritten⟩ := h.groups
  have htotal : computeMemSize bits (old ++ cur).length =
      b.written.length + computeMemSize bits cur.length := by
    rw [length_append, hk, computeMemSize_groups, hwritten]
  have hsize : b.flushCount + b.count = (old ++ cur).length := by
    rw [h.flushCount, h.count, length_append]
  unfold Builder.finish
  by_cases hcount : 0 < b.count
  · rw [if_pos hcount]
    have hle : computeMemSize b.buffer.bits b.count ≤ b.buffer.data.length := by
      rw [hbits, h.buffer_length, h.count]
      exact computeMemSize_mono bits h.count_lt.le
    have hdata := shrinkToFit_data hcount hle
    have hlen : (((b.buffer.resize b.count).shrinkToFit).data).length =
        computeMemSize bits cur.length := by
      rw [hdata, length_take_of_le hle, hbits, h.count]
    refine ⟨hbits, hsize, ?_, ?_, ?_⟩
    · rw [length_append, h.outputSize]
    · rw [length_append, hlen, htotal]
    · refine h.holds.append h.full ?_
      rw [hdata, hbits, h.count]
      have := bits_lt_computeMemSize bits cur.length
      exact Holds.take (hbits ▸ h.packs.holds) (by omega)
  · obtain rfl : cur = [] := length_eq_zero_iff.mp (by rw [← h.count]; omega)
    rw [if_neg hcount]
    refine ⟨hbits, hsize, ?_, ?_, ?_⟩
    · rw [length_append, length_replicate, h.outputSize]
    · rw [length_append, length_replicate, htotal, hbits]
      rfl
    · exact h.holds.append h.full Holds.nil

/-- **BUILDER**: the bytes written, attached as a vector, give the values pushed; the result
    names their count and the number of bytes. -/
theorem builder_writes_vector {bits : Nat} (hbits : bits ≤ 58) {vals : List (BitVec 64)}
    (hne : vals ≠ []) (hvals : ∀ x ∈ vals, x.toNat < 2 ^ bits) :
    ∃ b result bytes v,
      Runs.run Builder.pushBack (createBuilderByUintbits bits) vals = some b ∧
      b.finish = (result, bytes) ∧
      result.size = vals.length ∧
      result.memSize = bytes.length ∧
      result.memSize = computeMemSize bits vals.length ∧
      riskSetData (some bytes) vals.length bits = some v ∧
      v.size = vals.length ∧
      ∀ i (h : i < vals.length), v.get i = some vals[i] := by
  obtain ⟨b, hrun, old, cur, rfl, hb⟩ := run_builder (hbits.trans (by decide)) hvals
  obtain ⟨-, hsize, hmem, hlen, hholds⟩ := hb.finish
  have hattach : riskSetData (some b.finish.2) (old ++ cur).length bits =
      some { data := b.finish.2, bits := bits, mask := maskOf bits,
             size := (old ++ cur).length } := by
    have hpos : (old ++ cur).length ≠ 0 := fun h0 => hne (length_eq_zero_iff.mp h0)
    have hread : Memory.read b.finish.2 0 (computeMemSize bits (old ++ cur).length) =
        some b.finish.2 := by
      rw [Memory.read, ← hlen, if_pos (le_of_eq (zero_add _)), drop_zero, take_length]
    unfold riskSetData
    rw [if_neg hbits.not_gt]
    show (if (old ++ cur).length = 0 then none else _) = _
    rw [if_neg hpos, hread, map_some]
  have hpacks : Packs ⟨b.finish.2, bits, maskOf bits, (old ++ cur).length⟩ (old ++ cur) := {
    bits_le := hbits.trans (by decide)
    mask := rfl
    fits := fun x hx => fits_of_lt (hvals x hx)
    holds := hholds
    align := by
      show 16 ∣ b.finish.2.length
      rw [hlen]
      exact computeMemSize_dvd bits _ }
  exact ⟨b, b.finish.1, b.finish.2, _, hrun, rfl, hsize, hmem, hmem.trans hlen, hattach, rfl,
    fun i hi => hpacks.get hbits hlen.ge hi⟩

/-- Two values of three bits. -/
theorem builder_writes_two :
    ∃ b result bytes v,
      Runs.run Builder.pushBack (createBuilderByUintbits 3) [5, 2] = some b ∧
      b.finish = (result, bytes) ∧ result.size = 2 ∧ result.memSize = bytes.length ∧
      result.memSize = computeMemSize 3 2 ∧ riskSetData (some bytes) 2 3 = some v ∧ v.size = 2 ∧
      ∀ i (h : i < 2), v.get i = some ([5, 2].get ⟨i, h⟩) :=
  builder_writes_vector (by decide) (cons_ne_nil _ _) (by simp)

end UintVec
