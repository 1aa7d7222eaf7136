import ToplingArk.MemoryProofs
import ToplingArk.RunProofs
import ToplingArk.VarIntProofs

/-! # ZReorderMap — a list of values as runs in a file

    A run of values that go up (or down) by one is stored as its first value and its length;
    a single value has the low bit set and no length.  The file starts with the number of
    values and the direction. -/

namespace ZReorderMap

open LittleEndian VarInt List Option

/-- `sign`: the direction of the runs. -/
inductive Sign where
  | up
  | down

/-- The sign as a word. -/
def Sign.word : Sign → Nat
  | .up => 1
  | .down => 2 ^ 64 - 1

/-! ## The builder -/

/-- `Builder`; `out` is what was written. -/
structure Builder where
  out : List Byte
  baseValue : Nat
  seqLength : Nat
  sign : Sign
  size : Nat

/-- The constructor. -/
def Builder.new (size : Nat) (sign : Sign) : Builder where
  out := bytes 8 size ++ bytes 8 sign.word
  baseValue := 2 ^ 64 - 1
  seqLength := 0
  sign := sign
  size := size

/-- What is written for the run: its value, with the length or with the low bit. -/
def encode (baseValue seqLength : Nat) : List Byte :=
  if 1 < seqLength then bytes 5 (baseValue <<< 1) ++ saveVarUint seqLength
  else if seqLength = 1 then bytes 5 ((baseValue <<< 1) ||| 1)
  else []

/-- `push_back`; its assertions are `none`. -/
def Builder.pushBack (b : Builder) (value : Nat) : Option Builder :=
  if 0 < b.size ∧ value ≤ 0x7FFFFFFFFF then
    let nextValue := (b.baseValue + b.seqLength * b.sign.word) % 2 ^ 64
    if value ≠ nextValue then
      some { b with out := b.out ++ encode b.baseValue b.seqLength, baseValue := value
                    seqLength := 1, size := b.size - 1 }
    else some { b with seqLength := b.seqLength + 1, size := b.size - 1 }
  else none

/-- `finish`: the file. -/
def Builder.finish (b : Builder) : Option (List Byte) :=
  if b.size = 0 then some (b.out ++ encode b.baseValue b.seqLength) else none

/-- The file of a list of values. -/
def build (sign : Sign) (values : List Nat) : Option (List Byte) :=
  (Runs.run Builder.pushBack (.new values.length sign) values).bind Builder.finish

/-! ## The reader -/

/-- The map as it is read back. -/
structure Reader where
  file : List Byte
  pos : Nat
  currentValue : Nat
  seqLength : Nat
  size : Nat
  i : Nat
  sign : Nat

/-- `read_` throws behind the end of the file. -/
def Reader.read (r : Reader) : Option Reader := do
  let bs ← Memory.read r.file r.pos 5
  let (seqLength, pos) ← if value bs &&& 1 ≠ 0 then some (1, r.pos + 5)
    else loadVarUint .w64 r.file (r.pos + 5)
  if r.file.length < pos then none
  else some { r with pos, currentValue := value bs >>> 1, seqLength }

/-- `eof` -/
def Reader.eof (r : Reader) : Bool := r.i == r.size

/-- `operator++` -/
def Reader.next (r : Reader) : Option Reader :=
  if r.i < r.size ∧ 0 < r.seqLength then
    let r := { r with i := r.i + 1, currentValue := (r.currentValue + r.sign) % 2 ^ 64
                      seqLength := r.seqLength - 1 }
    if r.seqLength = 0 ∧ r.i < r.size then r.read else some r
  else none

/-- `rewind` -/
def Reader.rewind (r : Reader) : Option Reader := do
  let size ← Memory.read r.file 0 8
  let sign ← Memory.read r.file 8 8
  let r := { r with pos := 16, size := value size, sign := value sign, i := 0 }
  if 0 < r.size then r.read else some r

/-- The constructor. -/
def Reader.new (file : List Byte) : Option Reader :=
  Reader.rewind { file, pos := 0, currentValue := 2 ^ 64 - 1, seqLength := 0, size := 0, i := 0
                  sign := 0 }

/-! ## Runs -/

variable {s : Sign} {pre : List Byte} {b : Builder}

/-- The values of a run. -/
def span (s : Sign) : Nat → Nat → List Nat
  | _, 0 => []
  | c, n + 1 => c :: span s ((c + s.word) % 2 ^ 64) n

/-- One more value of a run. -/
theorem span_snoc (s : Sign) {c : Nat} (hc : c < 2 ^ 64) (n : Nat) :
    span s c (n + 1) = span s c n ++ [(c + n * s.word) % 2 ^ 64] := by
  induction n generalizing c with
  | zero => rw [Nat.zero_mul, Nat.add_zero c, Nat.mod_eq_of_lt hc, span, span, span, nil_append]
  | succ n ih =>
    rw [span, ih (Nat.mod_lt _ (by decide)), span, cons_append]
    rw [Nat.mod_add_mod, Nat.succ_mul, Nat.add_comm (n * s.word), Nat.add_assoc]

/-- A run inside the values that can be stored. -/
structure Run (s : Sign) where
  base : Nat
  count : Nat
  pos : 0 < count
  base_lt : base < 2 ^ 39
  count_le : count ≤ 2 ^ 39

/-- The bytes of a run. -/
def Run.bytes (r : Run s) : List Byte := encode r.base r.count

/-- The values of all runs. -/
def expand (runs : List (Run s)) : List Nat := runs.flatMap (fun r => span s r.base r.count)

theorem shift_or_one (x : Nat) : (x <<< 1) ||| 1 = 2 * x + 1 := by
  rw [Nat.shiftLeft_eq, Nat.mul_comm, ← Nat.two_pow_add_eq_or_of_lt (by decide)]

/-- **READ_** reads a run. -/
theorem read_run {r : Reader} {post : List Byte} (run : Run s)
    (hfile : r.file = pre ++ run.bytes ++ post) (hpos : r.pos = pre.length) :
    r.read = some { r with pos := (pre ++ run.bytes).length, currentValue := run.base
                           seqLength := run.count } := by
  have hbase := run.base_lt
  have hcount := run.pos
  have hvalue : ∀ x, x < 2 ^ 40 → value (bytes 5 x) = x := by
    intro x hx
    rw [value_bytes]
    exact Nat.mod_eq_of_lt hx
  have hread : ∀ x rest, run.bytes = bytes 5 x ++ rest →
      r.file = pre ++ bytes 5 x ++ rest ++ post ∧
        Memory.read r.file r.pos 5 = some (bytes 5 x) := by
    intro x rest hbytes
    have hsplit : r.file = pre ++ bytes 5 x ++ (rest ++ post) := by
      rw [hfile, hbytes, append_assoc, append_assoc, append_assoc]
    have := Memory.read_append pre (bytes 5 x) (rest ++ post)
    rw [bytes_length] at this
    refine ⟨by rw [hsplit, append_assoc _ rest], ?_⟩
    rw [hsplit, hpos, this]
  have hpos' : ∀ x, r.pos + 5 = (pre ++ bytes 5 x).length := by
    intro x
    rw [length_append, bytes_length, hpos]
  unfold Reader.read
  -- the lowest bit says whether a length follows
  by_cases hone : 1 < run.count
  · have hbytes : run.bytes = bytes 5 (run.base <<< 1) ++ saveVarUint run.count := if_pos hone
    obtain ⟨hsplit, hfive⟩ := hread _ _ hbytes
    have hload := loadVarUint_eq (w := .w64) (v := run.count)
      (run.count_le.trans_lt (by decide)) (pre ++ bytes 5 (run.base <<< 1)) post
    rw [← hsplit, ← hpos'] at hload
    rw [hfive]
    simp only [bind_eq_bind, bind_some]
    rw [hvalue _ (by rw [Nat.shiftLeft_eq]; omega), Nat.and_one_is_mod,
      if_neg (by rw [Nat.shiftLeft_eq]; omega), hload]
    simp only [bind_some]
    rw [if_neg (by rw [hsplit, length_append, length_append, ← hpos']; omega),
      Nat.shiftLeft_shiftRight, hbytes, ← append_assoc, length_append, ← hpos']
  · have hbytes : run.bytes = bytes 5 ((run.base <<< 1) ||| 1) ++ [] := by
      unfold Run.bytes encode
      rw [if_neg hone, if_pos (by omega), append_nil]
    obtain ⟨hsplit, hfive⟩ := hread _ _ hbytes
    rw [hfive]
    simp only [bind_eq_bind, bind_some]
    rw [shift_or_one] at *
    rw [hvalue _ (by omega), Nat.and_one_is_mod, if_pos (by omega)]
    rw [if_neg (by rw [hsplit, length_append, length_append, ← hpos']; omega), hbytes, append_nil,
      ← hpos', show (2 * run.base + 1) >>> 1 = run.base by rw [Nat.shiftRight_eq_div_pow]; omega,
      show run.count = 1 by omega]

/-! ## Writing -/

variable {n : Nat} {values : List Nat} {runs : List (Run s)}

/-- The size and the sign. -/
def header (n : Nat) (s : Sign) : List Byte := bytes 8 n ++ bytes 8 s.word

/-- The builder has written whole runs and is in the middle of one. -/
structure Builder.Wrote (b : Builder) (s : Sign) (n : Nat) (values : List Nat)
    (runs : List (Run s)) : Prop where
  sign : b.sign = s
  out : b.out = header n s ++ runs.flatMap Run.bytes
  all : values = expand runs ++ span s b.baseValue b.seqLength
  size : b.size + values.length = n
  start : b.seqLength = 0 → b.baseValue = 2 ^ 64 - 1
  base : b.seqLength ≠ 0 → b.baseValue < 2 ^ 39
  up : s = .up → b.seqLength ≠ 0 → b.baseValue + b.seqLength ≤ 2 ^ 39
  down : s = .down → b.seqLength ≠ 0 → b.seqLength ≤ b.baseValue + 1

/-- The run ends. -/
theorem Builder.Wrote.close (h : b.Wrote s n values runs) :
    ∃ runs' : List (Run s), b.out ++ encode b.baseValue b.seqLength =
      header n s ++ runs'.flatMap Run.bytes ∧ expand runs' = values := by
  by_cases hzero : b.seqLength = 0
  · refine ⟨runs, ?_, ?_⟩
    · rw [hzero, h.out]
      exact append_nil _
    · rw [h.all, hzero]
      exact (append_nil _).symm
  · have hbase := h.base hzero
    have hle : b.seqLength ≤ 2 ^ 39 := by
      cases hs : s with
      | up =>
        have := h.up hs hzero
        omega
      | down =>
        have := h.down hs hzero
        omega
    refine ⟨runs ++ [⟨b.baseValue, b.seqLength, Nat.pos_of_ne_zero hzero, hbase, hle⟩], ?_, ?_⟩
    · rw [h.out, flatMap_append, flatMap_singleton]
      rfl
    · rw [h.all]
      unfold expand
      rw [flatMap_append, flatMap_singleton]

/-- **PUSH_BACK** -/
theorem Builder.Wrote.pushBack (h : b.Wrote s n values runs) {v : Nat} (hv : v ≤ 2 ^ 39 - 1)
    (hn : values.length < n) :
    ∃ b' runs', b.pushBack v = some b' ∧ b'.Wrote s n (values ++ [v]) runs' := by
  have hsize := h.size
  have hlen : (values ++ [v]).length = values.length + 1 := length_append
  unfold Builder.pushBack
  rw [if_pos ⟨by omega, hv⟩, h.sign]
  by_cases hnext : v ≠ (b.baseValue + b.seqLength * s.word) % 2 ^ 64
  -- the run ends here, and the value starts the next one
  · obtain ⟨runs', hout, hall⟩ := h.close
    rw [if_pos hnext]
    exact ⟨_, runs', rfl, { sign := rfl, out := hout, all := by rw [hall]; rfl
                            size := by dsimp only; omega, start := nofun
                            base := fun _ => by dsimp only; omega
                            up := fun _ _ => by dsimp only; omega
                            down := fun _ _ => by dsimp only; omega }⟩
  · rw [if_neg hnext]
    rw [Decidable.not_not] at hnext
    -- an empty run is not continued: its base, 2 ^ 64 - 1, is no value
    have hpos : b.seqLength ≠ 0 := by
      intro hzero
      rw [hzero, h.start hzero] at hnext
      omega
    have hbase := h.base hpos
    refine ⟨_, runs, rfl, { sign := rfl, out := h.out, all := ?_, size := by dsimp only; omega
                            start := nofun, base := fun _ => hbase, up := fun hs _ => ?_
                            down := fun hs _ => ?_ }⟩
    · dsimp only
      rw [span_snoc s (by omega), ← hnext, ← append_assoc, ← h.all]
    · have := h.up hs hpos
      subst hs
      rw [Sign.word] at hnext
      dsimp only
      omega
    · have := h.down hs hpos
      subst hs
      rw [Sign.word] at hnext
      dsimp only
      omega

/-- **THE FILE** of a list of values. -/
theorem build_eq (s : Sign) (hvalues : ∀ v ∈ values, v ≤ 2 ^ 39 - 1) :
    ∃ runs : List (Run s), build s values =
      some (header values.length s ++ runs.flatMap Run.bytes) ∧ expand runs = values := by
  have hrun : ∀ xs, xs.length ≤ values.length → (∀ v ∈ xs, v ≤ 2 ^ 39 - 1) →
      ∃ b runs, Runs.run Builder.pushBack (.new values.length s) xs = some b ∧
        b.Wrote s values.length xs runs := by
    intro xs
    induction xs using reverseRecOn with
    | nil =>
      intro _ _
      exact ⟨_, [], rfl, { sign := rfl, out := (append_nil _).symm, all := rfl, size := rfl
                           start := fun _ => rfl, base := fun hne => absurd rfl hne
                           up := fun _ hne => absurd rfl hne, down := fun _ hne => absurd rfl hne }⟩
    | append_singleton xs v ih =>
      intro hlen hxs
      rw [length_append] at hlen
      obtain ⟨b, runs, hb, h⟩ := ih (by omega) (fun x hx => hxs x (mem_append_left _ hx))
      obtain ⟨b', runs', hpush, h'⟩ := h.pushBack (hxs v (by simp)) (Nat.lt_of_succ_le hlen)
      exact ⟨b', runs', by rw [Runs.run_snoc, hb, bind_some, hpush], h'⟩
  obtain ⟨b, runs, hb, h⟩ := hrun values le_rfl hvalues
  have hsize := h.size
  obtain ⟨runs', hout, hall⟩ := h.close
  refine ⟨runs', ?_, hall⟩
  rw [build, hb, bind_some, Builder.finish, if_pos (by omega), hout]

/-! ## Reading -/

/-- The reader stands before the value with index `k`. -/
structure Reader.At (r : Reader) (s : Sign) (runs : List (Run s)) (k : Nat) : Prop where
  file : r.file = header (expand runs).length s ++ runs.flatMap Run.bytes
  sign : r.sign = s.word
  size : r.size = (expand runs).length
  i : r.i = k
  le : k ≤ (expand runs).length
  rest : k < (expand runs).length → 0 < r.seqLength ∧ ∃ pre, ∃ rest : List (Run s),
    r.file = pre ++ rest.flatMap Run.bytes ∧ r.pos = pre.length ∧
    (expand runs).drop k = span s r.currentValue r.seqLength ++ expand rest

variable {runs : List (Run s)} {k : Nat}

/-- The next run is read. -/
theorem Reader.read_at {r : Reader} {rest : List (Run s)}
    (hfile : r.file = header (expand runs).length s ++ runs.flatMap Run.bytes)
    (hsign : r.sign = s.word) (hsize : r.size = (expand runs).length) (hi : r.i = k)
    (hk : k < (expand runs).length) (hsplit : r.file = pre ++ rest.flatMap Run.bytes)
    (hpos : r.pos = pre.length) (hrest : (expand runs).drop k = expand rest) :
    ∃ r', r.read = some r' ∧ r'.At s runs k := by
  cases rest with
  | nil =>
    have := congrArg length hrest
    rw [length_drop] at this
    exact absurd this (by show ¬ _ = 0; omega)
  | cons run rest =>
    rw [flatMap_cons, ← append_assoc] at hsplit
    exact ⟨_, read_run run hsplit hpos,
      { file := hfile, sign := hsign, size := hsize, i := hi, le := hk.le
        rest := fun _ => ⟨run.pos, pre ++ run.bytes, rest, hsplit, rfl, hrest⟩ }⟩

/-- **OPERATOR++** -/
theorem Reader.At.next {r : Reader} (h : r.At s runs k) (hk : k < (expand runs).length) :
    ∃ r', r.next = some r' ∧ r'.At s runs (k + 1) := by
  obtain ⟨hpos, pre, rest, hsplit, hat, hrest⟩ := h.rest hk
  obtain ⟨m, hm⟩ : ∃ m, r.seqLength = m + 1 := ⟨r.seqLength - 1, by omega⟩
  have hdrop : (expand runs).drop (k + 1) =
      span s ((r.currentValue + s.word) % 2 ^ 64) m ++ expand rest := by
    rw [← drop_drop, hrest, hm]
    rfl
  unfold Reader.next
  rw [if_pos ⟨by rw [h.i, h.size]; exact hk, hpos⟩, h.sign, h.i, h.size, hm]
  by_cases hread : m + 1 - 1 = 0 ∧ k + 1 < (expand runs).length
  · rw [if_pos hread]
    obtain rfl : m = 0 := hread.1
    exact Reader.read_at h.file rfl rfl rfl hread.2 hsplit hat hdrop
  · rw [if_neg hread]
    exact ⟨_, rfl, { file := h.file, sign := rfl, size := rfl, i := rfl, le := hk
                     rest := fun hlt => ⟨by dsimp only; omega, pre, rest, hsplit, hat, hdrop⟩ }⟩

/-- **REWIND** -/
theorem Reader.rewind_at {r : Reader} (hlen : (expand runs).length < 2 ^ 64)
    (hfile : r.file = header (expand runs).length s ++ runs.flatMap Run.bytes) :
    ∃ r', r.rewind = some r' ∧ r'.At s runs 0 := by
  have hsize : Memory.read r.file 0 8 = some (bytes 8 (expand runs).length) := by
    have := Memory.read_append [] (bytes 8 (expand runs).length)
      (bytes 8 s.word ++ runs.flatMap Run.bytes)
    rw [bytes_length] at this
    rw [hfile]
    exact this
  have hsign : Memory.read r.file 8 8 = some (bytes 8 s.word) := by
    have := Memory.read_append (bytes 8 (expand runs).length) (bytes 8 s.word)
      (runs.flatMap Run.bytes)
    rw [bytes_length, bytes_length] at this
    rw [hfile, header, this]
  have hvalue : value (bytes 8 (expand runs).length) = (expand runs).length := by
    rw [value_bytes]
    exact Nat.mod_eq_of_lt hlen
  have hword : value (bytes 8 s.word) = s.word := by
    rw [value_bytes]
    cases s with
    | up => rfl
    | down => rfl
  unfold Reader.rewind
  rw [hsize, hsign]
  simp only [bind_eq_bind, bind_some]
  rw [hvalue, hword]
  split
  next hpos =>
    exact Reader.read_at hfile rfl rfl rfl hpos hfile
      (by show 16 = _; rw [header, length_append, bytes_length, bytes_length]) rfl
  next hpos =>
    exact ⟨_, rfl, { file := hfile, sign := rfl, size := rfl, i := rfl, le := Nat.zero_le _
                     rest := fun hlt => absurd hlt hpos }⟩

/-! ## Any way of reading -/

/-- What a user of the map does. -/
inductive Op where
  | next
  | rewind
  deriving DecidableEq

/-- A call. -/
def Reader.step (r : Reader) : Op → Option Reader
  | .next => r.next
  | .rewind => r.rewind

/-- The index after an operation. -/
def Op.index (k : Nat) : Op → Nat
  | .next => k + 1
  | .rewind => 0

/-- What the map shows: the index, the end and the value. -/
structure Reader.Shows (r : Reader) (values : List Nat) (k : Nat) : Prop where
  size : r.size = values.length
  index : r.i = k
  eof : r.eof = true ↔ k = values.length
  value : ∀ v, values[k]? = some v → r.currentValue = v

/-- A reader at place `k` shows value `k`. -/
theorem Reader.At.shows {r : Reader} (h : r.At s runs k) : r.Shows (expand runs) k where
  size := h.size
  index := h.i
  eof := by
    rw [Reader.eof, beq_iff_eq, h.i, h.size]
  value := by
    intro v hv
    obtain ⟨hpos, pre, rest, -, -, hrest⟩ := h.rest (List.getElem_of_getElem? hv).1
    obtain ⟨m, hm⟩ : ∃ m, r.seqLength = m + 1 := ⟨r.seqLength - 1, by omega⟩
    rw [← Nat.add_zero k, ← getElem?_drop, hrest, hm] at hv
    exact some.inj hv

/-- **THE MAP READS BACK** what was written, in any sequence of steps and rewinds. -/
theorem reorder_map_reads (s : Sign) (hlen : values.length < 2 ^ 64)
    (hvalues : ∀ v ∈ values, v ≤ 2 ^ 39 - 1) :
    ∃ file r, build s values = some file ∧ Reader.new file = some r ∧ ∀ ops : List Op,
      (∀ k (h : k < ops.length), ops[k] = .next →
        Runs.absRun Op.index 0 (ops.take k) < values.length) →
      ∃ r', Runs.run Reader.step r ops = some r' ∧
        r'.Shows values (Runs.absRun Op.index 0 ops) := by
  obtain ⟨runs, hbuild, rfl⟩ := build_eq s hvalues
  obtain ⟨r, hnew, hr⟩ := @Reader.rewind_at s runs
    { file := header (expand runs).length s ++ runs.flatMap Run.bytes, pos := 0,
      currentValue := 2 ^ 64 - 1, seqLength := 0, size := 0, i := 0, sign := 0 } hlen rfl
  refine ⟨_, r, hbuild, hnew, fun ops hops => ?_⟩
  obtain ⟨r', hrun, h⟩ := @Runs.run_related _ _ _ _ (fun _ _ => True) Op.index
    (fun r k => r.At s runs k) r ops (fun k op => op = .next → k < (expand runs).length) 0
    Reader.step hr (fun r k op h hadm _ => by
      cases op with
      | next => exact h.next (hadm rfl)
      | rewind => exact Reader.rewind_at hlen h.file) hops le_rfl (fun _ _ _ _ => trivial)
  rw [take_length] at hrun h
  exact ⟨r', hrun, h.shows⟩

/-- A run of three values downwards and a single one, read to the end and from the start again. -/
theorem reorder_map_reads_four : ∃ file r r', build .down [7, 6, 5, 2] = some file ∧
    Reader.new file = some r ∧
    Runs.run Reader.step r [.next, .next, .next, .next, .rewind, .next, .next, .next] = some r' ∧
    r'.Shows [7, 6, 5, 2] 3 := by
  obtain ⟨file, r, hbuild, hnew, h⟩ := @reorder_map_reads [7, 6, 5, 2] .down (by decide) (by decide)
  obtain ⟨r', hrun, hshows⟩ := h
    [.next, .next, .next, .next, .rewind, .next, .next, .next] (by decide)
  exact ⟨file, r, r', hbuild, hnew, hrun, hshows⟩

end ZReorderMap
