import ToplingArk.MemPoolRunProofs

/-! # MemPool_LockNone — what a client of the pool can rely on

    A client allocates, resizes and frees blocks, and writes into the blocks it has.  In every
    such run its blocks stay apart from each other and from the free blocks, and nothing but
    the client changes their bytes, as long as the pool is not larger than its links can
    address. -/

namespace MemPool

open LittleEndian Memory SkipList List Option Nat

variable {C : Config} {p : Pool} {used : List Block} {b : Block}

/-! ## Resizing -/

/-- The client writes into its own block. -/
theorem Ok.write (h : Ok C p (b :: used)) (mem : Nat → Byte)
    (hmem : ∀ i, i < b.1 ∨ b.1 + b.2 ≤ i → mem i = p.mem i) :
    Ok C { p with mem := mem } (b :: used) ∧ ∀ c ∈ used, Same p { p with mem := mem } c := by
  obtain ⟨F, L, ht, len, h⟩ := h
  have htile := h.tiling
  have hsame : ∀ c ∈ used ++ freeBlocks C F L len, Same p { p with mem := mem } c := by
    intro c hc i h1 h2
    exact hmem i ((htile.head_apart c hc).symm.not_mem h1 h2)
  refine ⟨⟨F, L, ht, len, h.reframe h.le h.whole h.tiling ?_⟩, ?_⟩
  · intro c hc
    exact hsame c (mem_append_right _ hc)
  · intro c hc
    exact hsame c (mem_append_left _ hc)

/-- The last block is resized in place. -/
theorem Ok.resize_last (h : Ok C p (b :: used)) (hend : b.1 + b.2 = p.n) {l : Nat}
    (hdvd : C.alignSize ∣ l) (hpos : 0 < l) (hroom : b.1 + l ≤ C.limit) :
    Ok C { p with n := b.1 + l } ((b.1, l) :: used) := by
  obtain ⟨F, L, ht, len, h⟩ := h
  have hcut := h.cut hend
  refine ⟨F, L, ht, len, hcut.reframe hroom (Nat.dvd_add hcut.whole hdvd) ?_
    (fun _ _ _ _ _ => rfl)⟩
  exact hcut.tiling.push hcut.whole hdvd hpos

/-- The client's steps. -/
inductive Op where
  | alloc (len : Nat)
  | alloc3 (pos oldlen newlen : Nat)
  | sfree (pos len : Nat)
  | write (i : Nat) (v : Byte)

/-- The size of the pool that a step needs. -/
def reach (C : Config) (p : Pool) : Op → Nat
  | .alloc len => if recycles C p (alignUp C len) then p.n else p.n + alignUp C len
  | .alloc3 pos oldlen newlen =>
    if pos + alignUp C oldlen = p.n then pos + alignUp C newlen
    else if alignUp C newlen ≤ alignUp C oldlen then p.n
    else if recycles C p (alignUp C newlen) then p.n
    else p.n + alignUp C newlen
  | .sfree _ _ => p.n
  | .write _ _ => p.n

/-- **ALLOC3** returns a block of its own with the bytes of the old one. -/
theorem alloc3_spec {pos oldlen0 newlen0 : Nat} (h : Ok C p ((pos, alignUp C oldlen0) :: used))
    (hpos0 : 0 < newlen0) (hround : newlen0 + C.alignSize ≤ 2 ^ 64)
    (hroom : reach C p (.alloc3 pos oldlen0 newlen0) ≤ C.limit) :
    ∃ p' pos', alloc3 C p pos oldlen0 newlen0 = some (p', pos') ∧
      Ok C p' ((pos', alignUp C newlen0) :: used) ∧ (∀ c ∈ used, Same p p' c) ∧
      ∀ i, i < min (alignUp C oldlen0) (alignUp C newlen0) →
        p'.mem (pos' + i) = p.mem (pos + i) := by
  obtain ⟨hdvd, hle, hlt⟩ := alignUp_eq hround
  have hpos : 0 < alignUp C newlen0 := hpos0.trans_le hle
  obtain ⟨hdvd1, hdvd2, hpos2, hin⟩ := h.tiling.inside _ mem_cons_self
  have hlimit := h.le
  have hlim := limit_lt (C := C)
  have hup : alignUp C (alignUp C oldlen0) = alignUp C oldlen0 := h.alignUp_eq mem_cons_self
  have hroundnew : alignUp C newlen0 + C.alignSize ≤ 2 ^ 64 := round_of_dvd hdvd (by omega)
  have hupnew : alignUp C (alignUp C newlen0) = alignUp C newlen0 := alignUp_of_dvd hdvd hroundnew
  unfold alloc3
  unfold reach at hroom
  dsimp only at hroom ⊢
  generalize alignUp C newlen0 = newlen at *
  generalize alignUp C oldlen0 = oldlen at *
  rw [mod_eq_of_lt (show pos + oldlen < 2 ^ 64 by omega)]
  by_cases hend : pos + oldlen = p.n
  · rw [if_pos hend] at hroom ⊢
    rw [mod_eq_of_lt (show pos + newlen < 2 ^ 64 by omega)]
    exact ⟨_, _, rfl, h.resize_last hend hdvd hpos hroom, fun _ _ _ _ _ => rfl, fun _ _ => rfl⟩
  rw [if_neg hend] at hroom ⊢
  rcases lt_trichotomy newlen oldlen with hless | rfl | hmore
  · rw [if_pos hless]
    obtain ⟨p', hfree, hok, hsame⟩ := sfree_rest h le_rfl hdvd hdvd2 hpos hless
    rw [hfree]
    refine ⟨p', pos, rfl, hok, fun c hc => hsame c (mem_cons_of_mem _ hc), fun i hi => ?_⟩
    exact hsame _ mem_cons_self (pos + i) (le_add_right _ _)
      (show pos + i < pos + newlen by omega)
  · rw [if_neg (lt_irrefl _), if_pos rfl]
    exact ⟨_, _, rfl, h, fun _ _ _ _ _ => rfl, fun _ _ => rfl⟩
  rw [if_neg hmore.not_ge] at hroom
  rw [if_neg (lt_asymm hmore), if_neg hmore.ne']
  have hgrow : recycles C p (alignUp C newlen) = false → p.n + alignUp C newlen ≤ C.limit := by
    rw [hupnew]
    intro hno
    rw [if_neg (by rw [hno]; exact Bool.false_ne_true)] at hroom
    exact hroom
  obtain ⟨p1, pos1, halloc, hok1, hsame1⟩ := alloc_spec h hpos hroundnew hgrow
  rw [hupnew] at hok1
  have hin1 := (hok1.tiling.inside _ mem_cons_self).2.2.2
  have hin0 := (hok1.tiling.inside _ (mem_cons_of_mem _ mem_cons_self)).2.2.2
  rw [halloc, bind_some]
  dsimp only
  rw [if_pos ⟨by omega, hin0⟩, min_eq_left hmore.le]
  -- the copy only changes the new block
  obtain ⟨hok2, hsame2⟩ := hok1.write (memcpy p1.mem pos1 pos oldlen) (fun i hi => by
    refine if_neg ?_
    omega)
  obtain ⟨p3, hfree, hok3, hsame3⟩ := sfree_spec (hok2.perm (List.Perm.swap _ _ _)) hup
  rw [hfree]
  refine ⟨p3, pos1, rfl, hok3, fun c hc i h1 h2 => ?_, fun i hi => ?_⟩
  · rw [hsame3 c (mem_cons_of_mem _ hc) i h1 h2, hsame2 c (mem_cons_of_mem _ hc) i h1 h2,
      hsame1 c (mem_cons_of_mem _ hc) i h1 h2]
  · rw [hsame3 _ mem_cons_self (pos1 + i) (le_add_right _ _)
      (show pos1 + i < pos1 + newlen by omega)]
    show memcpy p1.mem pos1 pos oldlen (pos1 + i) = _
    unfold memcpy
    rw [if_pos ⟨le_add_right _ _, by omega⟩, Nat.add_sub_cancel_left]
    exact hsame1 _ mem_cons_self _ (le_add_right _ _)
      (show pos + i < pos + oldlen by omega)

/-! ## Runs -/

/-- The pool and the blocks the client has, with the lengths it asked for. -/
structure Client where
  pool : Pool
  live : List Block

/-- A call, with the list of live blocks. -/
def step (C : Config) (c : Client) : Op → Option Client
  | .alloc len => (alloc C c.pool len).map (fun r => ⟨r.1, (r.2, len) :: c.live⟩)
  | .alloc3 pos oldlen newlen => (alloc3 C c.pool pos oldlen newlen).map (fun r =>
    ⟨r.1, (r.2, newlen) :: c.live.erase (pos, oldlen)⟩)
  | .sfree pos len => (sfree C c.pool pos len).map (fun p => ⟨p, c.live.erase (pos, len)⟩)
  | .write i v => some ⟨{ c.pool with mem := Function.update c.pool.mem i v }, c.live⟩

/-- The client resizes and frees its own blocks, and writes into them. -/
def Admissible (c : Client) : Op → Prop
  | .alloc len => 0 < len
  | .alloc3 pos oldlen newlen => (pos, oldlen) ∈ c.live ∧ 0 < newlen
  | .sfree pos len => (pos, len) ∈ c.live
  | .write i _ => ∃ b ∈ c.live, b.1 ≤ i ∧ i < b.1 + b.2

instance (c : Client) (op : Op) : Decidable (Admissible c op) := by
  cases op <;> unfold Admissible <;> infer_instance

/-- The length can be rounded up. -/
def Rounds (C : Config) : Op → Prop
  | .alloc len => len + C.alignSize ≤ 2 ^ 64
  | .alloc3 _ _ newlen => newlen + C.alignSize ≤ 2 ^ 64
  | .sfree _ _ => True
  | .write _ _ => True

instance (C : Config) (op : Op) : Decidable (Rounds C op) := by
  cases op <;> unfold Rounds <;> infer_instance

/-- A block with its rounded length. -/
def extent (C : Config) (b : Block) : Block := (b.1, alignUp C b.2)

/-- The blocks of the client are apart from each other and from the free blocks. -/
structure Isolated (C : Config) (c : Client) : Prop where
  covers : ∀ b ∈ c.live, b.2 ≤ (extent C b).2
  apart : (c.live.map (extent C)).Pairwise Apart
  inside : ∀ b ∈ c.live, (extent C b).1 + (extent C b).2 ≤ c.pool.n
  freeLists : ∀ i, i < C.freeListLen → ∃ l, Linked (fastNext C c.pool i) 0 none l ∧
    ∀ q ∈ l, ∀ b ∈ c.live, Apart (extent C b) (q, (i + 1) * C.alignSize)
  skipList : ∀ k, k < 8 → ∃ l, Linked (next C c.pool) k none l ∧
    ∀ q ∈ l, ∃ size, nodeSize C c.pool q = some size ∧
      ∀ b ∈ c.live, Apart (extent C b) (q, size)

/-- The step changes no bytes of the other blocks, and resizing keeps those of the block. -/
def Keeps (c c' : Client) : Op → Prop
  | .alloc _ => ∀ b ∈ c.live, Same c.pool c'.pool b
  | .alloc3 pos oldlen newlen => (∀ b ∈ c.live.erase (pos, oldlen), Same c.pool c'.pool b) ∧
      ∃ pos', c'.live.head? = some (pos', newlen) ∧
        ∀ i, i < min oldlen newlen → c'.pool.mem (pos' + i) = c.pool.mem (pos + i)
  | .sfree pos len => ∀ b ∈ c.live.erase (pos, len), Same c.pool c'.pool b
  | .write i _ => ∀ b ∈ c.live, i < b.1 ∨ b.1 + b.2 ≤ i → Same c.pool c'.pool b

/-- The pool has the blocks of the client. -/
structure Good (C : Config) (c : Client) : Prop where
  ok : Ok C c.pool (c.live.map (extent C))
  rounds : ∀ b ∈ c.live, b.2 + C.alignSize ≤ 2 ^ 64

variable {c : Client}

theorem Good.covers (h : Good C c) : ∀ b ∈ c.live, b.2 ≤ (extent C b).2 :=
  fun b hb => (alignUp_eq (h.rounds b hb)).2.1

/-- A good pool keeps its blocks apart. -/
theorem Good.isolated (h : Good C c) : Isolated C c := by
  obtain ⟨F, L, ht, len, hI⟩ := h.ok
  have hfree : ∀ b ∈ c.live, ∀ d ∈ freeBlocks C F L len, Apart (extent C b) d := by
    intro b hb d hd
    exact (pairwise_append.mp hI.tiling.apart).2.2 _ (mem_map_of_mem hb) d hd
  refine { covers := h.covers, apart := h.ok.tiling.apart, inside := ?_, freeLists := ?_,
           skipList := ?_ }
  · intro b hb
    exact (h.ok.tiling.inside _ (mem_map_of_mem hb)).2.2.2
  · intro i hi
    exact ⟨F i, hI.fast i hi, fun q hq b hb => hfree b hb _ (mem_freeBlocks_fast L len hi hq)⟩
  intro k hk
  refine ⟨_, hI.huge k hk, fun q hq => ?_⟩
  have hqL := (mem_level.mp hq).1
  refine ⟨_, (hI.sizes q hqL).2, fun b hb => ?_⟩
  -- the stored size may be cut off, but never larger than the block
  have hapart := hfree b hb _ (mem_freeBlocks_huge C F len hqL)
  have hmod : len q % 256 ^ C.linkBytes ≤ len q := mod_le _ _
  exact hapart.imp_right (le_trans (Nat.add_le_add_left hmod q))

/-- Bytes of a rounded block are bytes of the block. -/
theorem Good.same (h : Good C c) (hb : b ∈ c.live) {p' : Pool}
    (hsame : Same c.pool p' (extent C b)) : Same c.pool p' b := by
  have hle : b.2 ≤ (extent C b).2 := h.covers b hb
  intro i h1 h2
  exact hsame i h1 (show i < b.1 + (extent C b).2 by omega)

/-- The pool with one of the client's blocks in front. -/
theorem Good.front (h : Good C c) (hb : b ∈ c.live) :
    Ok C c.pool (extent C b :: (c.live.erase b).map (extent C)) :=
  h.ok.perm ((perm_cons_erase hb).map (extent C))

/-- A new pool is good. -/
theorem good_start (C : Config) (mem : Nat → Byte) : Good C ⟨new C mem, []⟩ := by
  refine { ok := ⟨fun _ => [], [], fun _ => 0, fun _ => 0, ?_⟩, rounds := fun _ hb => nomatch hb }
  have hfree : freeBlocks C (fun _ => []) [] (fun _ => 0) = [] := by
    unfold freeBlocks fastBlocks
    simp
  have htail : C.listTail < 256 ^ C.linkBytes :=
    sub_lt (Nat.pow_pos (by decide)) one_pos
  have hend : follow C C.listTail = none := if_pos rfl
  refine { le := zero_le _, whole := dvd_zero _, tiling := ?_,
           lists := length_replicate, heads := ?_, fast := ?_,
           levels := length_replicate, links := ?_, size_le := zero_le _,
           heights := fun _ hq => (nomatch hq), huge := ?_,
           sizes := fun _ hq => (nomatch hq) }
  · rw [hfree]
    exact { apart := List.Pairwise.nil, inside := fun _ hb => nomatch hb }
  · intro v hv
    rw [eq_of_mem_replicate hv]
    exact htail
  · intro i hi
    show ((replicate C.freeListLen C.listTail)[i]?).map _ = _
    rw [getElem?_replicate_of_lt hi, map_some, hend]
  · intro v hv
    rw [eq_of_mem_replicate hv]
    exact htail
  · intro k hk
    show ((replicate 8 C.listTail)[k]?).map _ = _
    rw [getElem?_replicate_of_lt hk, map_some, hend]

/-- **EVERY STEP** of the client keeps the pool and the other blocks. -/
theorem step_good (h : Good C c) {op : Op} (hadm : Admissible c op) (hround : Rounds C op)
    (hroom : reach C c.pool op ≤ C.limit) :
    ∃ c', step C c op = some c' ∧ Good C c' ∧ Keeps c c' op := by
  have hrest : ∀ b, ∀ d ∈ c.live.erase b, d ∈ c.live := fun b d hd => mem_of_mem_erase hd
  cases op with
  | alloc len =>
    have hgrow : recycles C c.pool (alignUp C len) = false →
        c.pool.n + alignUp C len ≤ C.limit := by
      intro hno
      unfold reach at hroom
      dsimp only at hroom
      rw [if_neg (by rw [hno]; exact Bool.false_ne_true)] at hroom
      exact hroom
    obtain ⟨p', pos, halloc, hok, hsame⟩ := alloc_spec h.ok hadm hround hgrow
    refine ⟨⟨p', (pos, len) :: c.live⟩, ?_, { ok := hok, rounds := ?_ }, ?_⟩
    · exact congrArg (Option.map (fun r => Client.mk r.1 ((r.2, len) :: c.live))) halloc
    · rintro b (_ | ⟨_, hb⟩)
      · exact hround
      · exact h.rounds b hb
    · intro b hb
      exact h.same hb (hsame _ (mem_map_of_mem hb))
  | alloc3 pos oldlen newlen =>
    obtain ⟨p', pos', halloc, hok, hsame, hbytes⟩ :=
      alloc3_spec (h.front hadm.1) hadm.2 hround hroom
    refine ⟨⟨p', (pos', newlen) :: c.live.erase (pos, oldlen)⟩, ?_, { ok := hok, rounds := ?_ },
      ?_, pos', rfl, ?_⟩
    · exact congrArg (Option.map (fun r =>
        Client.mk r.1 ((r.2, newlen) :: c.live.erase (pos, oldlen)))) halloc
    · rintro b (_ | ⟨_, hb⟩)
      · exact hround
      · exact h.rounds b (hrest _ b hb)
    · intro b hb
      exact h.same (hrest _ b hb) (hsame _ (mem_map_of_mem hb))
    -- the bytes asked for lie in the rounded lengths
    · intro i hi
      have hold : oldlen ≤ alignUp C oldlen := h.covers _ hadm.1
      have hnew : newlen ≤ alignUp C newlen := (alignUp_eq hround).2.1
      exact hbytes i (show i < min (alignUp C oldlen) (alignUp C newlen) by omega)
  | sfree pos len =>
    obtain ⟨p', hfree, hok, hsame⟩ := sfree_spec (h.front hadm) rfl
    refine ⟨⟨p', c.live.erase (pos, len)⟩, ?_, { ok := hok, rounds := ?_ }, ?_⟩
    · exact congrArg (Option.map (fun p => Client.mk p (c.live.erase (pos, len)))) hfree
    · intro b hb
      exact h.rounds b (hrest _ b hb)
    · intro b hb
      exact h.same (hrest _ b hb) (hsame _ (mem_map_of_mem hb))
  | write i v =>
    -- the written byte is in one block, and no other block has it
    obtain ⟨b, hb, h1, h2⟩ := hadm
    have hle := h.covers b hb
    have hother : ∀ j, j ≠ i → Function.update c.pool.mem i v j = c.pool.mem j :=
      fun j hj => Function.update_of_ne hj _ _
    obtain ⟨hok, -⟩ := (h.front hb).write (Function.update c.pool.mem i v) (fun j hj => by
      refine hother j ?_
      rintro rfl
      unfold extent at hj hle
      dsimp only at hj hle
      omega)
    refine ⟨_, rfl, { ok := ?_, rounds := h.rounds }, ?_⟩
    · exact hok.perm ((perm_cons_erase hb).map (extent C)).symm
    · intro d _ hd j h3 h4
      refine hother j ?_
      omega

/-- **ISOLATION**: in every run that the links of the pool can address, the client's blocks are
    apart from each other and from the free blocks, and only the client changes their bytes. -/
theorem mempool_isolation (C : Config) (mem : Nat → Byte) (ops : List Op)
    (hadm : ∀ k (h : k < ops.length) c,
      Runs.run (step C) ⟨new C mem, []⟩ (ops.take k) = some c → Admissible c ops[k])
    (hfits : ∀ k (h : k < ops.length) c,
      Runs.run (step C) ⟨new C mem, []⟩ (ops.take k) = some c →
        Rounds C ops[k] ∧ reach C c.pool ops[k] ≤ C.limit) :
    ∀ k, k ≤ ops.length →
      ∃ c, Runs.run (step C) ⟨new C mem, []⟩ (ops.take k) = some c ∧ Isolated C c ∧
        ∀ h : k < ops.length, ∃ c', step C c ops[k] = some c' ∧ Keeps c c' ops[k] := by
  have hok : ∀ k (h : k < ops.length) c,
      Runs.run (step C) ⟨new C mem, []⟩ (ops.take k) = some c →
        Admissible c ops[k] ∧ Rounds C ops[k] ∧ reach C c.pool ops[k] ≤ C.limit :=
    fun k h c hc => ⟨hadm k h c hc, hfits k h c hc⟩
  intro k hk
  obtain ⟨c, hrun, hgood⟩ := Runs.run_defined (Good C)
    (fun c op => Admissible c op ∧ Rounds C op ∧ reach C c.pool op ≤ C.limit) (good_start C mem)
    (fun c op hc ⟨h1, h2, h3⟩ => by
      obtain ⟨c', hstep, hc', -⟩ := step_good hc h1 h2 h3
      exact ⟨c', hstep, hc'⟩)
    (ops.take k)
    (fun j hj c hc => by
      have hjk : j < k := by
        rw [length_take] at hj
        omega
      rw [take_take, min_eq_left hjk.le] at hc
      rw [getElem_take]
      exact hok j (hjk.trans_le hk) c hc)
  refine ⟨c, hrun, hgood.isolated, fun hlt => ?_⟩
  obtain ⟨h1, h2, h3⟩ := hok k hlt c hrun
  obtain ⟨c', hstep, -, hkeeps⟩ := step_good hgood h1 h2 h3
  exact ⟨c', hstep, hkeeps⟩

/-- A pool with blocks of at most 72 bytes on lists, of the given alignment. -/
def smallPool (logAlign : Nat) (hge : 2 ≤ logAlign) (hle : logAlign ≤ 3) : Config where
  logAlign := logAlign
  maxBlockSize := 72
  level := fun _ => 0
  align_ge := hge
  align_le := by omega
  max_ge := by split <;> omega
  max_le := by
    have : 2 ^ logAlign ≤ 2 ^ 3 := Nat.pow_le_pow_right (by decide) hle
    omega

/-- Blocks of 4 bytes, with 32-bit links. -/
def pool4 : Config := smallPool 2 (by decide) (by decide)

/-- Blocks of 8 bytes, with 64-bit links. -/
def pool8 : Config := smallPool 3 (by decide) (by decide)

/-- Five blocks.  A large one and a small one are freed, the one at 192 moves to the place of the
    large one, whose rest goes to a free list, and the last block comes from a free list. -/
def moveRun : List Op := [.alloc 80, .alloc 100, .alloc 5, .alloc 16, .alloc 24, .write 193 7,
  .sfree 80 100, .sfree 184 5, .alloc3 192 16 88, .alloc 4]

theorem moveRun_fits : ∀ k (h : k < moveRun.length),
    (Runs.run (step pool8) ⟨new pool8 (fun _ => 0), []⟩ (moveRun.take k)).all (fun c =>
      decide (Admissible c moveRun[k] ∧ Rounds pool8 moveRun[k] ∧
        reach pool8 c.pool moveRun[k] ≤ pool8.limit)) = true := by
  decide +kernel

/-- Eight calls, and two that move or reuse a block. -/
theorem mempool_isolation_moves :
    (∃ c, Runs.run (step pool8) ⟨new pool8 (fun _ => 0), []⟩ (moveRun.take 8) = some c ∧
      Isolated pool8 c ∧ ∃ c', step pool8 c (.alloc3 192 16 88) = some c' ∧
        Keeps c c' (.alloc3 192 16 88)) ∧
    ∃ c, Runs.run (step pool8) ⟨new pool8 (fun _ => 0), []⟩ moveRun = some c ∧ Isolated pool8 c ∧
      c.live = [(184, 4), (80, 88), (208, 24), (0, 80)] ∧ c.pool.mem 81 = 7 := by
  have hfits : ∀ k (h : k < moveRun.length) c,
      Runs.run (step pool8) ⟨new pool8 (fun _ => 0), []⟩ (moveRun.take k) = some c →
        Admissible c moveRun[k] ∧ Rounds pool8 moveRun[k] ∧
          reach pool8 c.pool moveRun[k] ≤ pool8.limit := by
    intro k h c hc
    have hk := moveRun_fits k h
    rw [hc] at hk
    exact of_decide_eq_true hk
  have hrun := mempool_isolation pool8 (fun _ => 0) moveRun (fun k h c hc => (hfits k h c hc).1)
    (fun k h c hc => (hfits k h c hc).2)
  obtain ⟨c, hc, hiso, hstep⟩ := hrun 8 (by decide)
  obtain ⟨d, hd, hiso', -⟩ := hrun 10 (by decide)
  have hlast : (Runs.run (step pool8) ⟨new pool8 (fun _ => 0), []⟩ moveRun).map
      (fun d => (d.live, d.pool.mem 81)) = some ([(184, 4), (80, 88), (208, 24), (0, 80)], 7) := by
    decide +kernel
  have hd' : Runs.run (step pool8) ⟨new pool8 (fun _ => 0), []⟩ moveRun = some d := hd
  rw [hd'] at hlast
  obtain ⟨hlive, hbyte⟩ := Prod.mk.inj (some.inj hlast)
  exact ⟨⟨c, hc, hiso, hstep (by decide)⟩, d, hd', hiso', hlive, hbyte⟩

/-- With 32-bit links the offset 2^34 has the link 0. -/
def wrapRun : List Op := [.alloc (2 ^ 34), .alloc 4, .alloc 4, .sfree (2 ^ 34) 4, .alloc 4]

/-- The last block returned lies in the first one. -/
theorem mempool_link_wraps :
    (∀ k (h : k < wrapRun.length),
      (Runs.run (step pool4) ⟨new pool4 (fun _ => 0), []⟩ (wrapRun.take k)).any
        (fun c => decide (Admissible c wrapRun[k])) = true) ∧
    (Runs.run (step pool4) ⟨new pool4 (fun _ => 0), []⟩ wrapRun).map Client.live =
      some [(0, 4), (2 ^ 34 + 4, 4), (0, 2 ^ 34)] ∧
    ¬ Apart (0, 4) (0, 2 ^ 34) := by
  refine ⟨?_, ?_, ?_⟩
  · decide +kernel
  · decide +kernel
  · unfold Apart
    decide

end MemPool
