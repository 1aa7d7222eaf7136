import ToplingArk.MemPoolProofs
import ToplingArk.RunProofs

/-! # MemPool_LockNone — live and free blocks stay apart

    The live blocks and the blocks on the free lists and in the skip list tile a part of the
    pool.  Every operation moves blocks between the two kinds, splits one, or changes the end
    of the pool, and it writes only to blocks that are free, just freed or just allocated. -/

namespace MemPool

open LittleEndian Memory SkipList List Option Function Nat

variable {C : Config} {k link request : Nat} {used' : List Block} {N : List Nat} {c : Block}
  {α : Type}

/-- The links of the list of free blocks with index `i`. -/
def fastNext (C : Config) (p : Pool) (i : Nat) (r : Option Nat) (_ : Nat) : Option (Option Nat) :=
  (match r with
    | none => p.freeList[i]?
    | some q => readLink C p q).map (follow C)

/-- The blocks on the free lists. -/
def fastBlocks (C : Config) (F : Nat → List Nat) : List Block :=
  (List.range C.freeListLen).flatMap (fun i => (F i).map (fun q => (q, (i + 1) * C.alignSize)))

/-- All free blocks, small and huge. -/
def freeBlocks (C : Config) (F : Nat → List Nat) (L : List Nat) (len : Nat → Nat) : List Block :=
  fastBlocks C F ++ L.map (fun q => (q, len q))

/-- The pool with the given live blocks: `F` are the free lists, `L` is the skip list with
    the heights and the lengths of its nodes.  A length is stored cut to the width of a
    link. -/
structure Inv (C : Config) (p : Pool) (used : List Block) (F : Nat → List Nat) (L : List Nat)
    (ht len : Nat → Nat) : Prop where
  le : p.n ≤ C.limit
  whole : C.alignSize ∣ p.n
  tiling : Tiling C.alignSize p.n (used ++ freeBlocks C F L len)
  lists : p.freeList.length = C.freeListLen
  heads : ∀ v ∈ p.freeList, v < 256 ^ C.linkBytes
  fast : ∀ i, i < C.freeListLen → Linked (fastNext C p i) 0 none (F i)
  levels : p.hugeNext.length = 8
  links : ∀ v ∈ p.hugeNext, v < 256 ^ C.linkBytes
  size_le : p.hugeSize ≤ 8
  heights : ∀ q ∈ L, 0 < ht q ∧ ht q ≤ p.hugeSize
  huge : ∀ k, k < 8 → Linked (next C p) k none (level ht k L)
  sizes : ∀ q ∈ L, C.freeListLen * C.alignSize < len q ∧
    nodeSize C p q = some (len q % 256 ^ C.linkBytes)

variable {p : Pool} {used : List Block} {F : Nat → List Nat} {L : List Nat} {ht len : Nat → Nat}

/-! ## Sizes -/

theorem nodeBytes_le : C.nodeBytes ≤ C.freeListLen * C.alignSize := by
  have hmax := C.max_ge
  obtain ⟨hdvd, hle, -⟩ := alignUp_eq (C := C) C.max_le
  unfold Config.freeListLen
  rw [Nat.div_mul_cancel hdvd]
  exact hmax.trans hle

variable {b : Block} {i l q : Nat} {p' : Pool} {x y : List Nat}

theorem mem_fastBlocks : b ∈ fastBlocks C F ↔
    ∃ i, i < C.freeListLen ∧ b.1 ∈ F i ∧ b.2 = (i + 1) * C.alignSize := by
  unfold fastBlocks
  rw [mem_flatMap]
  constructor
  · rintro ⟨i, hi, hb⟩
    obtain ⟨q, hq, rfl⟩ := mem_map.mp hb
    exact ⟨i, mem_range.mp hi, hq, rfl⟩
  · rintro ⟨i, hi, hq, hlen⟩
    exact ⟨i, mem_range.mpr hi, mem_map.mpr ⟨b.1, hq, by rw [← hlen]⟩⟩

theorem mem_freeBlocks_fast (L : List Nat) (len : Nat → Nat) (hi : i < C.freeListLen)
    (hq : q ∈ F i) : (q, (i + 1) * C.alignSize) ∈ freeBlocks C F L len :=
  mem_append_left _ (mem_fastBlocks.mpr ⟨i, hi, hq, rfl⟩)

theorem mem_freeBlocks_huge (C : Config) (F : Nat → List Nat) (len : Nat → Nat) (hq : q ∈ L) :
    (q, len q) ∈ freeBlocks C F L len :=
  mem_append_right _ (mem_map.mpr ⟨q, hq, rfl⟩)

theorem linkBytes_le_block (i : Nat) : C.linkBytes ≤ (i + 1) * C.alignSize :=
  linkBytes_le.trans (Nat.le_mul_of_pos_left _ (succ_pos i))

theorem linkBytes_le_nodeBytes : C.linkBytes ≤ C.nodeBytes := Nat.le_mul_of_pos_left _ (by decide)

/-! ## Frames -/

/-- The bytes of a block are the same. -/
def Same (p p' : Pool) (b : Block) : Prop := ∀ i, b.1 ≤ i → i < b.1 + b.2 → p'.mem i = p.mem i

/-- Equal bytes have equal links. -/
theorem readLink_congr (hb : C.linkBytes ≤ b.2) (hsame : Same p p' b) (hn : b.1 + b.2 ≤ p.n)
    (hn' : b.1 + b.2 ≤ p'.n) : readLink C p' b.1 = readLink C p b.1 := by
  unfold readLink
  rw [if_pos (by omega), if_pos (by omega)]
  congr 1
  exact load_congr (fun i h1 h2 => hsame i h1 (by omega))

/-- Equal nodes have equal links. -/
theorem rawNext_congr (hb : C.nodeBytes ≤ b.2) (hsame : Same p p' b) (hn : b.1 + b.2 ≤ p.n)
    (hn' : b.1 + b.2 ≤ p'.n) (hk : k < 8) :
    rawNext C p' (some b.1) k = rawNext C p (some b.1) k := by
  have hfield := field_le (C := C) hk
  unfold rawNext
  dsimp only
  rw [if_pos (by omega), if_pos (by omega)]
  congr 1
  exact load_congr (fun i h1 h2 => hsame i (by omega) (by omega))

/-- Equal nodes have equal sizes. -/
theorem nodeSize_congr (hb : C.nodeBytes ≤ b.2) (hsame : Same p p' b) (hn : b.1 + b.2 ≤ p.n)
    (hn' : b.1 + b.2 ≤ p'.n) : nodeSize C p' b.1 = nodeSize C p b.1 := by
  have := linkBytes_le_nodeBytes (C := C)
  unfold nodeSize
  rw [if_pos (by omega), if_pos (by omega)]
  congr 1
  exact load_congr (fun i h1 h2 => hsame i h1 (by omega))

/-- The links of a free list are where they were. -/
theorem fastNext_congr (hsame : Same p p' (q, (i + 1) * C.alignSize))
    (hn : q + (i + 1) * C.alignSize ≤ p.n) (hn' : q + (i + 1) * C.alignSize ≤ p'.n) (k : Nat) :
    fastNext C p' i (some q) k = fastNext C p i (some q) k :=
  congrArg (Option.map (follow C)) (readLink_congr (b := (q, (i + 1) * C.alignSize))
    (linkBytes_le_block i) hsame hn hn')

/-- Free blocks lie in the pool. -/
theorem Inv.inside (h : Inv C p used F L ht len) (hb : b ∈ freeBlocks C F L len) :
    b.1 + b.2 ≤ p.n :=
  (h.tiling.inside b (mem_append_right _ hb)).2.2.2

/-- A huge block has room for its node. -/
theorem Inv.nodeBytes_le (h : Inv C p used F L ht len) (hq : q ∈ L) : C.nodeBytes ≤ len q :=
  MemPool.nodeBytes_le.trans (le_of_lt (h.sizes q hq).1)

/-- A free list whose head and blocks are as before. -/
theorem Inv.fast_frame (h : Inv C p used F L ht len) (hi : i < C.freeListLen)
    (hhead : p'.freeList[i]? = p.freeList[i]?) (hin : ∀ c ∈ fastBlocks C F, c.1 + c.2 ≤ p'.n)
    (hsame : ∀ c ∈ fastBlocks C F, Same p p' c) : Linked (fastNext C p' i) 0 none (F i) := by
  refine (h.fast i hi).congr ?_ (fun q hq => ?_)
  · unfold fastNext
    rw [hhead]
  · have hmem : (q, (i + 1) * C.alignSize) ∈ fastBlocks C F :=
      mem_fastBlocks.mpr ⟨i, hi, hq, rfl⟩
    exact fastNext_congr (hsame _ hmem) (h.inside (mem_append_left _ hmem)) (hin _ hmem) 0

/-- Nothing happens to the free blocks. -/
theorem Inv.reframe (h : Inv C p used F L ht len) {mem : Nat → Byte} {n : Nat} (hle : n ≤ C.limit)
    (hwhole : C.alignSize ∣ n) (htiling : Tiling C.alignSize n (used' ++ freeBlocks C F L len))
    (hmem : ∀ b ∈ freeBlocks C F L len, Same p { p with mem := mem, n := n } b) :
    Inv C { p with mem := mem, n := n } used' F L ht len := by
  have hin' : ∀ b ∈ freeBlocks C F L len, b.1 + b.2 ≤ n :=
    fun b hb => (htiling.inside b (mem_append_right _ hb)).2.2.2
  refine { h with le := hle, whole := hwhole, tiling := htiling,
                  fast := ?_, huge := ?_, sizes := ?_ }
  · intro i hi
    exact h.fast_frame hi rfl (fun c hc => hin' c (mem_append_left _ hc))
      (fun c hc => hmem c (mem_append_left _ hc))
  · intro k hk
    refine (h.huge k hk).congr rfl (fun q hq => ?_)
    have hq' := (mem_level.mp hq).1
    have hmem' := mem_freeBlocks_huge C F len hq'
    exact congrArg (Option.map (follow C)) (rawNext_congr (b := (q, len q)) (h.nodeBytes_le hq')
      (hmem _ hmem') (h.inside hmem') (hin' _ hmem') hk)
  · intro q hq
    obtain ⟨h1, h2⟩ := h.sizes q hq
    have hmem' := mem_freeBlocks_huge C F len hq
    refine ⟨h1, ?_⟩
    rw [← h2]
    exact nodeSize_congr (b := (q, len q)) (h.nodeBytes_le hq) (hmem _ hmem') (h.inside hmem')
      (hin' _ hmem')

/-! ## Freeing -/

theorem flatMap_update_perm {β : Type} {m : Nat} (hi : i < m) (f : Nat → List β) (x : β) :
    ((range m).flatMap (update f i (x :: f i))).Perm (x :: (range m).flatMap f) := by
  induction m with
  | zero => cases hi
  | succ m ih =>
    rw [range_succ, flatMap_append, flatMap_append, flatMap_singleton, flatMap_singleton]
    by_cases him : i = m
    · subst him
      have hsame : (range i).flatMap (update f i (x :: f i)) =
          (range i).flatMap f := by
        refine flatMap_congr (fun j hj => ?_)
        exact update_of_ne (Nat.ne_of_lt (mem_range.mp hj)) _ _
      rw [hsame, update_self]
      exact perm_middle
    · rw [update_of_ne (Ne.symm him)]
      exact (ih (by omega)).append_right (f m)

/-- A small block joins the free blocks. -/
theorem freeBlocks_push (F : Nat → List Nat) (L : List Nat) (len : Nat → Nat)
    (hi : i < C.freeListLen) (q : Nat) :
    (freeBlocks C (update F i (q :: F i)) L len).Perm
      ((q, (i + 1) * C.alignSize) :: freeBlocks C F L len) := by
  have hfun := apply_update (fun j (l : List Nat) => l.map (fun q => (q, (j + 1) * C.alignSize)))
    F i (q :: F i)
  unfold freeBlocks fastBlocks
  simp only [hfun]
  exact (flatMap_update_perm hi _ _).append_right _

/-- A small size has its own list. -/
theorem listIndex_eq (hdvd : C.alignSize ∣ l) (hpos : 0 < l) (hlt : l < 2 ^ 64)
    (hle : l ≤ C.freeListLen * C.alignSize) :
    listIndex C l < C.freeListLen ∧ (listIndex C l + 1) * C.alignSize = l := by
  obtain ⟨c, rfl⟩ := hdvd
  have hapos := alignSize_pos (C := C)
  have hc : 0 < c := Nat.pos_of_mul_pos_left hpos
  have hcle : c ≤ C.alignSize * c := Nat.le_mul_of_pos_left c hapos
  unfold listIndex
  rw [Nat.mul_div_cancel_left c hapos, show (c + 2 ^ 64 - 1) % 2 ^ 64 = c - 1 by omega,
    Nat.sub_add_cancel hc]
  refine ⟨?_, mul_comm _ _⟩
  have : c ≤ C.freeListLen := by
    refine le_of_mul_le_mul_left ?_ hapos
    rw [mul_comm C.alignSize C.freeListLen]
    exact hle
  omega

/-- The last block of the pool is cut off. -/
theorem Inv.cut (h : Inv C p (b :: used) F L ht len) (hend : b.1 + b.2 = p.n) :
    Inv C { p with n := b.1 } used F L ht len := by
  have htile := h.tiling
  obtain ⟨hdvd, -, -, -⟩ := htile.inside b mem_cons_self
  have hle := h.le
  exact h.reframe (show b.1 ≤ C.limit by omega) hdvd (htile.cut hend)
    (fun _ _ _ _ _ => rfl)

/-- A write into the first block changes no other. -/
theorem same_of_store {bs : List Block} (htile : Tiling C.alignSize p.n (b :: bs)) {xs : List Byte}
    (hlen : xs.length ≤ b.2) (hp' : p'.mem = store p.mem b.1 xs) : ∀ c ∈ bs, Same p p' c := by
  intro c hc i h1 h2
  rw [hp']
  refine store_outside ?_
  rcases (htile.head_apart c hc).symm.not_mem h1 h2 with h3 | h3
  · exact .inl h3
  · exact .inr (by omega)

/-- A free list is set to `l`. -/
theorem Inv.set_list (h : Inv C p used F L ht len) (hi : i < C.freeListLen) {l : List Nat} {v : Nat}
    (hv : v < 256 ^ C.linkBytes) (hperm : (used ++ freeBlocks C F L len).Perm
      (used' ++ freeBlocks C (update F i l) L len)) (hl : i < p.freeList.length →
      Linked (fastNext C { p with freeList := p.freeList.set i v } i) 0 none l) :
    Inv C { p with freeList := p.freeList.set i v } used' (update F i l) L ht len := by
  refine { h with tiling := h.tiling.perm hperm, lists := ?_, heads := ?_, fast := ?_, huge := ?_ }
  · rw [length_set]
    exact h.lists
  · intro w hw
    rcases mem_or_eq_of_mem_set hw with hold | rfl
    · exact h.heads w hold
    · exact hv
  · intro j hj
    by_cases hji : j = i
    · subst hji
      rw [update_self]
      exact hl (h.lists ▸ hi)
    · rw [update_of_ne hji]
      refine (h.fast j hj).congr ?_ (fun _ _ => rfl)
      unfold fastNext
      rw [getElem?_set_ne (Ne.symm hji)]
  · intro k hk
    exact (h.huge k hk).congr rfl (fun _ _ => rfl)

/-- **FREEING** a small block puts it in front of the list of its size. -/
theorem Inv.free_fast (h : Inv C p (b :: used) F L ht len) (hle : b.2 ≤ C.freeListLen * C.alignSize)
    {head : Nat} (hhead : p.freeList[listIndex C b.2]? = some head) :
    Inv C { p with mem := store p.mem b.1 (bytes C.linkBytes head)
                   freeList := p.freeList.set (listIndex C b.2) (linkTo C b.1) } used
      (update F (listIndex C b.2) (b.1 :: F (listIndex C b.2))) L ht len := by
  have htile := h.tiling
  obtain ⟨hdvd1, hdvd2, hpos, hin⟩ := htile.inside b mem_cons_self
  have hlimit := h.le
  have hlim := limit_lt (C := C)
  obtain ⟨hidx, hlen⟩ := listIndex_eq hdvd2 hpos (by omega) hle
  obtain ⟨hfollow, -, hlink⟩ := follow_linkTo hdvd1 (show b.1 < C.limit by omega)
  have hW : C.linkBytes ≤ b.2 := by
    rw [← hlen]
    exact linkBytes_le_block _
  -- the link is written into the block while it is still live
  have hwritten : Inv C { p with mem := store p.mem b.1 (bytes C.linkBytes head) } (b :: used) F L
      ht len := by
    refine h.reframe h.le h.whole htile (fun c hc => ?_)
    exact same_of_store htile (by rwa [bytes_length]) rfl c (mem_append_right _ hc)
  have hpush := freeBlocks_push F L len hidx b.1
  rw [hlen] at hpush
  refine hwritten.set_list hidx hlink (perm_middle.symm.trans (hpush.symm.append_left used))
    (fun hlt => ⟨?_, (hwritten.fast _ hidx).congr ?_ (fun _ _ => rfl)⟩)
  · unfold fastNext
    rw [getElem?_set_self hlt, map_some, hfollow]
  · unfold fastNext readLink
    dsimp only
    rw [if_pos (by omega), load_store, mod_eq_of_lt (h.heads head (mem_of_getElem? hhead)), hhead]

/-- Large blocks can be nodes. -/
theorem Inv.nodes_of (h : Inv C p used F L ht len)
    (hmem : ∀ q ∈ N, ∃ l, C.nodeBytes ≤ l ∧ (q, l) ∈ used ++ freeBlocks C F L len) :
    Nodes C p N := by
  refine { h with inside := ?_, apart := ?_ }
  · intro q hq
    obtain ⟨l, hl, hq'⟩ := hmem q hq
    have := (h.tiling.inside _ hq').2.2.2
    omega
  intro q hq q' hq'
  obtain ⟨l, hl, hb⟩ := hmem q hq
  obtain ⟨l', hl', hb'⟩ := hmem q' hq'
  by_cases heq : q = q'
  · exact .inl heq
  · have := h.tiling.apart_of_ne hb hb' (fun hbb => heq (Prod.mk.inj hbb).1)
    unfold Apart at this
    exact .inr (by omega)

/-- The blocks of the skip list are nodes, and so is a large block that is to be freed. -/
theorem Inv.nodes (h : Inv C p (b :: used) F L ht len) (hlarge : C.nodeBytes ≤ b.2) :
    Nodes C p (b.1 :: L) ∧ b.1 ∉ L := by
  have htile := h.tiling
  have hmem : ∀ q ∈ b.1 :: L, ∃ l, C.nodeBytes ≤ l ∧
      (q, l) ∈ b :: used ++ freeBlocks C F L len := by
    intro q hq
    rcases mem_cons.mp hq with rfl | hq
    · exact ⟨b.2, hlarge, mem_cons_self⟩
    · exact ⟨len q, h.nodeBytes_le hq, mem_append_right _ (mem_freeBlocks_huge C F len hq)⟩
  refine ⟨h.nodes_of hmem, ?_⟩
  intro hq
  have hpos := (htile.inside b mem_cons_self).2.2.1
  have hpos' := (htile.inside _ (mem_append_right _ (mem_freeBlocks_huge C F len hq))).2.2.1
  have := htile.head_apart _ (mem_append_right used (mem_freeBlocks_huge C F len hq))
  unfold Apart at this
  omega

theorem Inv.nodup (h : Inv C p used F L ht len) : L.Nodup := by
  have hsub : (L.map (fun q => (q, len q))).Sublist (used ++ freeBlocks C F L len) :=
    (sublist_append_right _ _).trans (sublist_append_right _ _)
  have htile := h.tiling.sublist hsub
  have hapart := htile.apart
  rw [pairwise_map] at hapart
  refine hapart.imp_of_mem (fun {q q'} hq _ hqq heq => ?_)
  subst heq
  have hpos := (htile.inside (q, len q) (mem_map_of_mem hq)).2.2.1
  unfold Apart at hqq
  omega

/-- **FIND_HUGE**: the skip list is cut where the blocks become large enough. -/
theorem Inv.findHuge_eq (h : Inv C p used F L ht len) (l : Nat) :
    ∃ update n2 a b, findHuge C p l = some (update, n2) ∧ L = a ++ b ∧
      update.length = p.hugeSize ∧
      (∀ k, k < p.hugeSize → update[k]? = some (level ht k a).getLast?) ∧
      ((∃ q rest, b = q :: rest ∧ n2 = some q ∧ ¬ len q % 256 ^ C.linkBytes < l) ∨
        (b = [] ∧ ∀ q, n2 = some q → q ∈ L ∧ len q % 256 ^ C.linkBytes < l)) := by
  have hlen : L.length < p.n + 1 := by
    have hle := h.tiling.length_le
    unfold freeBlocks at hle
    rw [length_append, length_append, length_map] at hle
    omega
  have hsmall : ∀ q ∈ L, (nodeSize C p q).map (fun size => decide (size < l)) =
      some (decide (len q % 256 ^ C.linkBytes < l)) := by
    intro q hq
    rw [(h.sizes q hq).2]
    rfl
  obtain ⟨update, n2, a, b, hsearch, hsplit, hlen', hrec, hor⟩ := search_spec
    (fun k hk => h.huge k (hk.trans_le h.size_le)) h.heights hsmall hlen
  refine ⟨update, n2, a, b, hsearch, hsplit, hlen', hrec, ?_⟩
  rcases hor with ⟨q, rest, hb, hn2, hno⟩ | ⟨hb, hall⟩
  · exact .inl ⟨q, rest, hb, hn2, of_decide_eq_false hno⟩
  · exact .inr ⟨hb, fun q hq => (hall q hq).imp_right of_decide_eq_true⟩

/-- Bytes outside the nodes have not changed. -/
theorem Edited.same (hed : Edited C N p p') (hc : ∀ q ∈ N, Apart c (q, C.nodeBytes)) :
    Same p p' c := by
  intro i h1 h2
  exact hed.mem i (fun q hq => (hc q hq).not_mem h1 h2)

theorem mem_of_mem_middle {x y : List α} {q z : α} (hz : z ∈ x ++ q :: y) (hne : z ≠ q) :
    z ∈ x ++ y := by
  rcases mem_append.mp hz with hz | hz
  · exact mem_append_left _ hz
  · exact mem_append_right _ ((mem_cons.mp hz).resolve_left hne)

theorem mem_middle_of_mem {x y : List α} {q z : α} (hz : z ∈ x ++ y) : z ∈ x ++ q :: y :=
  (Sublist.append_left (sublist_cons_self q y) x).subset hz

theorem mem_of_mem_levels {z : Nat} (hz : z ∈ level ht k x ++ level ht k y) : z ∈ x ++ y := by
  rw [← level_append] at hz
  exact (mem_level.mp hz).1

theorem level_update {x : Nat} {l : List Nat} (hq : q ∉ l) (k : Nat) :
    level (update ht q x) k l = level ht k l := by
  refine filter_congr (fun y hy => ?_)
  rw [update_of_ne (ne_of_mem_of_not_mem hy hq)]

/-- The level of a new node and where its links go. -/
theorem Inv.newLevel (h : Inv C p used F L ht len) {a b : List Nat} (hsplit : L = a ++ b)
    {update : List (Option Nat)} (hlen : update.length = p.hugeSize)
    (hrec : ∀ k, k < p.hugeSize → update[k]? = some (level ht k a).getLast?) (pos : Nat) :
    ∃ m size update', (if p.hugeSize ≤ C.level p.rands % 8 then
        linkLevels C pos (update ++ [none]) p.hugeSize
          { p with hugeSize := p.hugeSize + 1, rands := p.rands + 1 }
      else linkLevels C pos update (C.level p.rands % 8) { p with rands := p.rands + 1 }) =
        linkLevels C pos update' m { p with hugeSize := size, rands := p.rands + 1 } ∧
      m < size ∧ size ≤ 8 ∧ p.hugeSize ≤ size ∧
      ∀ k, k ≤ m → update'[k]? = some (level ht k a).getLast? := by
  by_cases hle : p.hugeSize ≤ C.level p.rands % 8
  · refine ⟨p.hugeSize, p.hugeSize + 1, update ++ [none], if_pos hle, lt_succ_self _, by omega,
      le_succ _, fun k hk => ?_⟩
    rcases lt_or_eq_of_le hk with hlt | rfl
    · rw [getElem?_append_left (by omega), hrec k hlt]
    · have hnil : level ht p.hugeSize a = [] := by
        refine level_eq_nil (fun q hq => ?_)
        exact not_lt.mpr (h.heights q (hsplit ▸ mem_append_left _ hq)).2
      rw [getElem?_append_right (by omega), hlen, Nat.sub_self, hnil]
      rfl
  · exact ⟨C.level p.rands % 8, p.hugeSize, update, if_neg hle, by omega, h.size_le, le_rfl,
      fun k hk => hrec k (by omega)⟩

/-- A huge block joins the free blocks. -/
theorem freeBlocks_insert (hq : q ∉ x ++ y) (l : Nat) :
    (freeBlocks C F (x ++ q :: y) (update len q l)).Perm
      ((q, l) :: freeBlocks C F (x ++ y) len) := by
  have hsame : (x ++ y).map (fun z => (z, update len q l z)) =
      (x ++ y).map (fun z => (z, len z)) := by
    refine map_congr_left (fun z hz => ?_)
    rw [update_of_ne (ne_of_mem_of_not_mem hz hq)]
  have hmid : ((x ++ q :: y).map (fun z => (z, update len q l z))).Perm
      ((q, l) :: (x ++ y).map (fun z => (z, len z))) := by
    rw [← hsame]
    have hperm : (x ++ q :: y).Perm (q :: (x ++ y)) := perm_middle
    have := hperm.map (fun z => (z, update len q l z))
    rw [map_cons, update_self] at this
    exact this
  exact (hmid.append_left _).trans perm_middle

/-- Live blocks and blocks of the free lists are apart from the nodes. -/
theorem Inv.apart_node (h : Inv C p used F L ht len) (hc : c ∈ used ++ fastBlocks C F)
    (hq : q ∈ L) : Apart c (q, C.nodeBytes) := by
  have hapart := h.tiling.apart
  unfold freeBlocks at hapart
  rw [← append_assoc, pairwise_append] at hapart
  have hcq : Apart c (q, len q) :=
    hapart.2.2 c hc (q, len q) (mem_map_of_mem (f := fun q => (q, len q)) hq)
  have hlen := h.nodeBytes_le hq
  unfold Apart at hcq ⊢
  omega

theorem rawNext_with (p : Pool) (size rands : Nat) (r : Option Nat) (k : Nat) :
    rawNext C { p with hugeSize := size, rands := rands } r k = rawNext C p r k := by
  cases r with
  | none => rfl
  | some q => rfl

/-- What freeing a huge block does: it becomes a node between `x` and `y`, on the levels up
    to `m`. -/
structure Inserted (C : Config) (p p' : Pool) (b : Block) (x y : List Nat) (ht : Nat → Nat)
    (m : Nat) : Prop where
  n : p'.n = p.n
  freeList : p'.freeList = p.freeList
  level_lt : m < p'.hugeSize
  size_le : p'.hugeSize ≤ 8
  grown : p.hugeSize ≤ p'.hugeSize
  levels : p'.hugeNext.length = 8
  links : ∀ v ∈ p'.hugeNext, v < 256 ^ C.linkBytes
  linked : ∀ k, k ≤ m → rawNext C p' (level ht k x).getLast? k = some (linkTo C b.1) ∧
    rawNext C p' (some b.1) k = rawNext C p (level ht k x).getLast? k
  kept : ∀ r k, Ref (b.1 :: (x ++ y)) r → k < 8 →
    (m < k ∨ (r ≠ (level ht k x).getLast? ∧ r ≠ some b.1)) → rawNext C p' r k = rawNext C p r k
  size : nodeSize C p' b.1 = some (b.2 % 256 ^ C.linkBytes)
  sizes : ∀ q ∈ x ++ y, nodeSize C p' q = nodeSize C p q
  mem : ∀ i, (∀ q ∈ b.1 :: (x ++ y), i < q ∨ q + C.nodeBytes ≤ i) → p'.mem i = p.mem i

/-- **FREE_HUGE** inserts a node. -/
theorem Inv.freeHuge_eq (h : Inv C p (b :: used) F L ht len) (hnode : C.nodeBytes ≤ b.2) :
    ∃ p' x y m, freeHuge C p b.1 b.2 = some p' ∧ L = x ++ y ∧ Inserted C p p' b x y ht m := by
  obtain ⟨hN, hnot⟩ := h.nodes hnode
  have hin := (h.tiling.inside b (mem_append_left _ mem_cons_self)).2.2.2
  obtain ⟨update, n2, x, y, hfind, rfl, hlen, hrec, -⟩ := h.findHuge_eq b.2
  obtain ⟨m, size, update', hrun, hm, hsize, hgrow, hrec'⟩ := h.newLevel rfl hlen hrec b.1
  have hN0 : Nodes C { p with hugeSize := size, rands := p.rands + 1 } (b.1 :: (x ++ y)) :=
    { inside := hN.inside, apart := hN.apart, levels := hN.levels, links := hN.links }
  -- the recorded nodes are in the list, where the freed block is not
  have hu : ∀ k, k ≤ m → update'[k]? = some (level ht k x).getLast? ∧
      Ref (b.1 :: (x ++ y)) (level ht k x).getLast? ∧ (level ht k x).getLast? ≠ some b.1 := by
    intro k hk
    have hlast : ∀ q, (level ht k x).getLast? = some q → q ∈ x ++ y :=
      fun q hq => mem_append_left _ (mem_level.mp (mem_of_getLast? hq)).1
    exact ⟨hrec' k hk, fun q hq => mem_cons_of_mem _ (hlast q hq), fun hq => hnot (hlast _ hq)⟩
  obtain ⟨p1, hlink, hed, hlinked, hsame⟩ :=
    linkLevels_spec hN0 mem_cons_self (show m < 8 by omega) hu
  have hn1 : p1.n = p.n := hed.n
  have hN1 := hN0.edited hed
  -- the size is written last, when every level is linked
  obtain ⟨hraw2, hsize2, hsizes2, hmem2⟩ :=
    storeSize_spec hN1 (mem_cons_self (a := b.1) (l := x ++ y)) b.2 rfl
  refine ⟨{ p1 with mem := store p1.mem b.1 (bytes C.linkBytes b.2) }, x, y, m, ?_, rfl,
    { n := hn1, freeList := hed.freeList, level_lt := ?_, size_le := ?_, grown := ?_,
      levels := hN1.levels, links := hN1.links, linked := ?_, kept := ?_, size := hsize2,
      sizes := ?_, mem := ?_ }⟩
  · unfold freeHuge
    rw [hfind, bind_some, hrun, hlink, bind_some, if_pos (by omega)]
  · exact hed.hugeSize ▸ hm
  · exact hed.hugeSize ▸ hsize
  · exact hed.hugeSize ▸ hgrow
  · intro k hk
    obtain ⟨h1, h2⟩ := hlinked k hk
    rw [hraw2 _ k (hu k hk).2.1 (by omega), h1,
      hraw2 (some b.1) k (fun q hq => some.inj hq ▸ mem_cons_self) (by omega), h2]
    exact ⟨rfl, rfl⟩
  · intro r k hr hk hor
    rw [hraw2 r k hr hk, hsame r k hr hk hor, rawNext_with]
  · intro q hq
    rw [hsizes2 q (mem_cons_of_mem _ hq) (ne_of_mem_of_not_mem hq hnot),
      hed.sizes q (mem_cons_of_mem _ hq)]
    rfl
  · intro i hi
    rw [hmem2 i (hi b.1 mem_cons_self)]
    exact hed.mem i hi

/-- **FREEING** a huge block makes it a node of the skip list. -/
theorem Inv.free_huge (h : Inv C p (b :: used) F L ht len)
    (hlarge : C.freeListLen * C.alignSize < b.2) :
    ∃ p' L' ht' len', freeHuge C p b.1 b.2 = some p' ∧ Inv C p' used F L' ht' len' ∧
      ∀ c ∈ used, Same p p' c := by
  have htile := h.tiling
  have hnode : C.nodeBytes ≤ b.2 := MemPool.nodeBytes_le.trans hlarge.le
  obtain ⟨hdvd, -, -, hin⟩ := htile.inside b mem_cons_self
  have hlimit := h.le
  obtain ⟨hfollow, -, -⟩ := follow_linkTo hdvd (show b.1 < C.limit by omega)
  have hnot := (h.nodes hnode).2
  have hnodup := h.nodup
  obtain ⟨p', x, y, m, hfree, rfl, hins⟩ := h.freeHuge_eq hnode
  -- the blocks that are no nodes keep their bytes
  have hother : ∀ c ∈ used ++ fastBlocks C F, Same p p' c := by
    intro c hc i h1 h2
    refine hins.mem i (fun q hq => ?_)
    rcases mem_cons.mp hq with rfl | hq
    · have hc' : c ∈ used ++ freeBlocks C F (x ++ y) len := by
        rcases mem_append.mp hc with hc | hc
        · exact mem_append_left _ hc
        · exact mem_append_right _ (mem_append_left _ hc)
      have := (htile.head_apart c hc').symm.not_mem h1 h2
      omega
    · exact (h.apart_node (mem_cons_of_mem _ hc) hq).not_mem h1 h2
  have hnodup' : (x ++ b.1 :: y).Nodup :=
    nodup_middle.mpr (nodup_cons.mpr ⟨hnot, hnodup⟩)
  have hx : b.1 ∉ x := fun hq => hnot (mem_append_left _ hq)
  have hy : b.1 ∉ y := fun hq => hnot (mem_append_right _ hq)
  refine ⟨p', x ++ b.1 :: y, update ht b.1 (m + 1), update len b.1 b.2, hfree, ?_,
    fun c hc => hother c (mem_append_left _ hc)⟩
  refine { le := ?_, whole := ?_, tiling := ?_, lists := ?_, heads := ?_, fast := ?_,
           levels := hins.levels, links := hins.links, size_le := hins.size_le, heights := ?_,
           huge := ?_, sizes := ?_ }
  · rw [hins.n]
    exact h.le
  · rw [hins.n]
    exact h.whole
  · rw [hins.n]
    refine htile.perm ?_
    exact (perm_middle.symm).trans ((freeBlocks_insert hnot b.2).symm.append_left used)
  · rw [hins.freeList]
    exact h.lists
  · rw [hins.freeList]
    exact h.heads
  · intro i hi
    refine h.fast_frame hi (by rw [hins.freeList]) (fun c hc => ?_)
      (fun c hc => hother c (mem_append_right _ hc))
    rw [hins.n]
    exact h.inside (mem_append_left _ hc)
  · intro q hq
    by_cases hqb : q = b.1
    · subst hqb
      rw [update_self]
      exact ⟨succ_pos m, hins.level_lt⟩
    · rw [update_of_ne hqb]
      have hq' : q ∈ x ++ y := mem_of_mem_middle hq hqb
      exact ⟨(h.heights q hq').1, le_trans (h.heights q hq').2 hins.grown⟩
  · intro k hk
    have hold := h.huge k hk
    rw [level_append] at hold
    have hmemk : ∀ q ∈ level ht k x ++ level ht k y, q ∈ b.1 :: (x ++ y) :=
      fun q hq => mem_cons_of_mem _ (mem_of_mem_levels hq)
    by_cases hkm : k ≤ m
    · have hlevel : level (update ht b.1 (m + 1)) k (x ++ b.1 :: y) =
          level ht k x ++ b.1 :: level ht k y := by
        rw [level_append, level_cons_of_lt (by rw [update_self]; omega),
          level_update hx, level_update hy]
      have hnd : (level ht k x ++ b.1 :: level ht k y).Nodup := by
        rw [← hlevel]
        exact hnodup'.sublist filter_sublist
      obtain ⟨h1, h2⟩ := hins.linked k hkm
      rw [hlevel]
      refine hold.insert hnd (fun q _ => nofun) ?_ ?_ ?_
      · intro r hr hne1 hne2
        rw [or_none] at hne1
        refine congrArg (Option.map (follow C)) (hins.kept r k ?_ hk (.inr ⟨hne1, hne2⟩))
        rintro q rfl
        rcases hr with hr | ⟨z, hz, hr⟩
        · cases hr
        · rw [some.inj hr]
          exact hmemk z hz
      · rw [or_none]
        unfold next
        rw [h1, map_some, hfollow]
      · rw [or_none]
        unfold next
        rw [h2]
    have hlevel : level (update ht b.1 (m + 1)) k (x ++ b.1 :: y) =
        level ht k x ++ level ht k y := by
      rw [level_append, level_cons_of_ge (by rw [update_self]; omega),
        level_update hx, level_update hy]
    rw [hlevel]
    refine hold.congr ?_ (fun q hq => ?_)
    · exact congrArg (Option.map (follow C))
        (hins.kept none k nofun hk (.inl (not_le.mp hkm)))
    · refine congrArg (Option.map (follow C))
        (hins.kept (some q) k ?_ hk (.inl (not_le.mp hkm)))
      rintro z hz
      rw [← some.inj hz]
      exact hmemk q hq
  intro q hq
  by_cases hqb : q = b.1
  · subst hqb
    rw [update_self]
    exact ⟨hlarge, hins.size⟩
  · rw [update_of_ne hqb]
    have hq' : q ∈ x ++ y := mem_of_mem_middle hq hqb
    exact ⟨(h.sizes q hq').1, (hins.sizes q hq').trans (h.sizes q hq').2⟩

/-- The pool has the given live blocks. -/
def Ok (C : Config) (p : Pool) (used : List Block) : Prop :=
  ∃ F L ht len, Inv C p used F L ht len

/-- The order of the blocks does not matter. -/
theorem Ok.perm (h : Ok C p used) (hp : used.Perm used') : Ok C p used' := by
  obtain ⟨F, L, ht, len, h⟩ := h
  exact ⟨F, L, ht, len, { h with tiling := h.tiling.perm (hp.append_right _) }⟩

theorem Ok.tiling (h : Ok C p used) : Tiling C.alignSize p.n used := by
  obtain ⟨F, L, ht, len, h⟩ := h
  exact h.tiling.sublist (sublist_append_left _ _)

theorem Ok.le (h : Ok C p used) : p.n ≤ C.limit := by
  obtain ⟨F, L, ht, len, h⟩ := h
  exact h.le

/-- A block length that fits the pool is its own rounding. -/
theorem Ok.alignUp_eq (h : Ok C p used) (hb : b ∈ used) : alignUp C b.2 = b.2 := by
  obtain ⟨-, hdvd, -, hin⟩ := h.tiling.inside b hb
  have hle := h.le
  have hlim := limit_lt (C := C)
  exact alignUp_of_dvd hdvd (round_of_dvd hdvd (by omega))

/-- **SFREE** of a live block. -/
theorem sfree_spec (h : Ok C p (b :: used)) {len0 : Nat} (hlen : alignUp C len0 = b.2) :
    ∃ p', sfree C p b.1 len0 = some p' ∧ Ok C p' used ∧ ∀ c ∈ used, Same p p' c := by
  obtain ⟨hdvd1, hdvd2, hpos, hin⟩ := h.tiling.inside b mem_cons_self
  have hle := h.le
  have hlim := limit_lt (C := C)
  obtain ⟨F, L, ht, len, h⟩ := h
  unfold sfree
  dsimp only
  rw [hlen, mod_eq_of_lt (show b.1 + b.2 < 2 ^ 64 by omega)]
  split
  next hend =>
    exact ⟨_, rfl, ⟨F, L, ht, len, h.cut hend⟩, fun _ _ _ _ _ => rfl⟩
  by_cases hsmall : b.2 ≤ C.freeListLen * C.alignSize
  · obtain ⟨hidx, hback⟩ := listIndex_eq hdvd2 hpos (by omega) hsmall
    have hlt : listIndex C b.2 < p.freeList.length := by
      rw [h.lists]
      exact hidx
    have hW : C.linkBytes ≤ b.2 := by
      rw [← hback]
      exact linkBytes_le_block _
    rw [if_pos hsmall, getElem?_eq_getElem hlt, bind_some, if_pos (by omega)]
    refine ⟨_, rfl, ⟨_, L, ht, len, h.free_fast hsmall (getElem?_eq_getElem hlt)⟩, ?_⟩
    intro c hc
    have htile := h.tiling
    exact same_of_store htile (by rw [bytes_length]; exact hW) rfl c (mem_append_left _ hc)
  · rw [if_neg hsmall]
    obtain ⟨p', L', ht', len', hfree, hinv, hsame⟩ := h.free_huge (not_le.mp hsmall)
    exact ⟨p', hfree, ⟨F, L', ht', len', hinv⟩, hsame⟩

/-! ## Allocating -/

/-- A small block is taken from its list. -/
theorem Inv.take_fast (h : Inv C p used F L ht len) {l : List Nat} (hi : i < C.freeListLen)
    (hF : F i = q :: l) (hlink : readLink C p q = some link) :
    Inv C { p with freeList := p.freeList.set i link } ((q, (i + 1) * C.alignSize) :: used)
      (update F i l) L ht len := by
  have hback : F = update (update F i l) i (q :: (update F i l) i) := by
    rw [update_idem, update_self, ← hF, update_eq_self]
  have hpush := freeBlocks_push (C := C) (update F i l) L len hi q
  rw [← hback] at hpush
  have hlinked := h.fast i hi
  rw [hF] at hlinked
  refine h.set_list hi ?_ ((hpush.append_left used).trans perm_middle)
    (fun hlt => hlinked.2.congr ?_ (fun _ _ => rfl))
  · unfold readLink at hlink
    split at hlink
    · rw [← some.inj hlink]
      exact load_lt _ _ _
    · cases hlink
  · unfold fastNext
    dsimp only
    rw [getElem?_set_self hlt, hlink]

/-- The levels that are cut off were empty. -/
theorem trimSize_spec (hugeNext : List Nat) (size : Nat) :
    trimSize C hugeNext size ≤ size ∧ ∀ k, trimSize C hugeNext size ≤ k → k < size →
      hugeNext[k]? = some C.listTail := by
  induction size with
  | zero => exact ⟨le_refl 0, fun k _ hk => absurd hk (not_lt_zero k)⟩
  | succ m ih =>
    unfold trimSize
    split
    next htail =>
      refine ⟨le_succ_of_le ih.1, fun k hle hk => ?_⟩
      rcases Nat.lt_succ_iff_lt_or_eq.mp hk with hlt | rfl
      · exact ih.2 k hle hlt
      · exact htail
    · exact ⟨le_rfl, fun k hle hk => absurd hk hle.not_gt⟩

theorem follow_eq_some (h : follow C link = some q) : link = q / 2 ^ C.offsetShift := by
  unfold follow at h
  split at h
  · cases h
  · rw [← some.inj h, Nat.mul_div_cancel _ (Nat.two_pow_pos _)]

/-- What unlinking a node of the skip list does to the levels. -/
theorem Inv.unlinked (h : Inv C p used F (x ++ q :: y) ht len)
    (hval : ∀ r k, Ref (x ++ q :: y) r → k < 8 → rawNext C p' r k =
      if k < p.hugeSize ∧ r = (level ht k x).getLast? ∧
          rawNext C p (level ht k x).getLast? k = some (q / 2 ^ C.offsetShift)
      then rawNext C p (some q) k else rawNext C p r k) (hk : k < 8) :
    Linked (next C p') k none (level ht k (x ++ y)) := by
  have hlinked := h.huge k hk
  have hafter := hlinked
  rw [level_append] at hlinked hafter ⊢
  replace hafter := hafter.after
  rw [or_none] at hafter
  have hu : Ref (x ++ q :: y) (level ht k x).getLast? := by
    intro z hz
    exact mem_append_left _ (mem_level.mp (mem_of_getLast? hz)).1
  by_cases hq : k < ht q
  · -- the node is on this level: the link to it becomes its own link
    rw [level_cons_of_lt hq] at hlinked hafter
    have hhead : rawNext C p (level ht k x).getLast? k = some (q / 2 ^ C.offsetShift) := by
      obtain ⟨link, hlink, hfollow⟩ := map_eq_some_iff.mp hafter.1
      rw [hlink, follow_eq_some hfollow]
    have hsize : k < p.hugeSize :=
      hq.trans_le (h.heights q (mem_append_right _ mem_cons_self)).2
    have hnodup : (level ht k x ++ q :: level ht k y).Nodup := by
      have := h.nodup.sublist (filter_sublist (p := fun z => decide (k < ht z)))
      rw [← level_cons_of_lt hq, ← level_append]
      exact this
    refine hlinked.remove hnodup (fun _ _ hn => nomatch hn) ?_ ?_
    · intro r hr hne _
      rw [or_none] at hne
      have hr' : Ref (x ++ q :: y) r := by
        intro z hz
        rcases hr with rfl | ⟨w, hw, rfl⟩
        · cases hz
        · rw [← some.inj hz]
          exact mem_middle_of_mem (mem_of_mem_levels hw)
      unfold next
      rw [hval r k hr' hk, if_neg (fun hh => hne hh.2.1)]
    · rw [or_none]
      unfold next
      rw [hval _ k hu hk, if_pos ⟨hsize, rfl, hhead⟩]
  -- it is not: no link of this level leads to it
  rw [level_cons_of_ge hq] at hlinked hafter
  have hno : rawNext C p (level ht k x).getLast? k ≠ some (q / 2 ^ C.offsetShift) := by
    intro hcon
    obtain ⟨hdvd, -, hpos, hin⟩ := h.tiling.inside (q, len q) (mem_append_right _
      (mem_freeBlocks_huge C F len (mem_append_right _ mem_cons_self)))
    have hle := h.le
    dsimp only at hin hpos hdvd
    obtain ⟨hfollow, hlink, -⟩ := follow_linkTo (C := C) hdvd (show q < C.limit by omega)
    have hnext : next C p (level ht k x).getLast? k = some (some q) := by
      unfold next
      rw [hcon, map_some, ← hlink, hfollow]
    cases hy : level ht k y with
    | nil =>
      rw [hy] at hafter
      cases mem_unique hafter hnext
    | cons z l =>
      rw [hy] at hafter
      have hz : z = q := some.inj (mem_unique hafter.1 hnext)
      have hmem : z ∈ level ht k y := by
        rw [hy]
        exact mem_cons_self
      rw [hz] at hmem
      exact hq (mem_level.mp hmem).2
  refine hlinked.congr ?_ (fun z hz => ?_)
  · unfold next
    rw [hval none k (fun _ hn => nomatch hn) hk, if_neg (fun hh => hno hh.2.2)]
  · have hz' : z ∈ x ++ q :: y := mem_middle_of_mem (mem_of_mem_levels hz)
    unfold next
    rw [hval (some z) k (fun w hw => some.inj hw ▸ hz') hk, if_neg (fun hh => hno hh.2.2)]

/-- A huge block is taken from the skip list. -/
theorem Inv.take_huge (h : Inv C p used F (x ++ q :: y) ht len) {update : List (Option Nat)}
    (hrec : ∀ k, k < p.hugeSize → update[k]? = some (level ht k x).getLast?) :
    ∃ p', unlinkLevels C q update p p.hugeSize = some p' ∧
      Inv C { p' with hugeSize := trimSize C p'.hugeNext p'.hugeSize } ((q, len q) :: used) F
        (x ++ y) ht len ∧ ∀ c ∈ used, Same p p' c := by
  have hqL : q ∈ x ++ q :: y := mem_append_right _ mem_cons_self
  have hnodup := h.nodup
  have hN : Nodes C p (x ++ q :: y) := h.nodes_of (fun z hz =>
    ⟨len z, h.nodeBytes_le hz, mem_append_right _ (mem_freeBlocks_huge C F len hz)⟩)
  have hu : ∀ k, k < p.hugeSize → update[k]? = some (level ht k x).getLast? ∧
      Ref (x ++ q :: y) (level ht k x).getLast? ∧ (level ht k x).getLast? ≠ some q := by
    intro k hk
    refine ⟨hrec k hk, fun z hz => ?_, fun hlast => ?_⟩
    · exact mem_append_left _ (mem_level.mp (mem_of_getLast? hz)).1
    · have hqx : q ∈ x := (mem_level.mp (mem_of_getLast? hlast)).1
      exact (nodup_append.mp hnodup).2.2 q hqx q mem_cons_self rfl
  obtain ⟨p', hrun, hed, hval⟩ := unlinkLevels_spec hN hqL h.size_le hu
  obtain ⟨htrim, hempty⟩ := trimSize_spec (C := C) p'.hugeNext p'.hugeSize
  have hlevels : ∀ k, k < 8 → Linked (next C p') k none (level ht k (x ++ y)) :=
    fun k hk => h.unlinked hval hk
  refine ⟨p', hrun, { le := ?_, whole := ?_, tiling := ?_, lists := ?_, heads := ?_, fast := ?_,
                      levels := ?_, links := ?_, size_le := ?_, heights := ?_, huge := ?_,
                      sizes := ?_ }, ?_⟩
  · rw [hed.n]
    exact h.le
  · rw [hed.n]
    exact h.whole
  · rw [hed.n]
    refine h.tiling.perm ?_
    have hmid : (freeBlocks C F (x ++ q :: y) len).Perm
      ((q, len q) :: freeBlocks C F (x ++ y) len) := by
      have hperm : (x ++ q :: y).Perm (q :: (x ++ y)) := perm_middle
      exact ((hperm.map (fun z => (z, len z))).append_left _).trans perm_middle
    exact (hmid.append_left used).trans perm_middle
  · rw [hed.freeList]
    exact h.lists
  · rw [hed.freeList]
    exact h.heads
  · intro i hi
    refine h.fast_frame hi (by rw [hed.freeList]) (fun c hc => ?_)
      (fun c hc => hed.same (fun w hw => h.apart_node (mem_append_right _ hc) hw))
    rw [hed.n]
    exact h.inside (mem_append_left _ hc)
  · exact hed.levels.trans h.levels
  · exact hed.links h.links
  · refine htrim.trans ?_
    rw [hed.hugeSize]
    exact h.size_le
  · intro z hz
    obtain ⟨hpos, hle⟩ := h.heights z (mem_middle_of_mem hz)
    refine ⟨hpos, not_lt.mp (fun hlt => ?_)⟩
    -- a level with a node on it is not cut off
    have hsize : trimSize C p'.hugeNext p'.hugeSize < p'.hugeSize := by
      rw [hed.hugeSize] at hlt ⊢
      exact hlt.trans_le hle
    have htail := hempty _ le_rfl hsize
    have hmem := mem_level.mpr ⟨hz, hlt⟩
    have hle8 : p'.hugeSize ≤ 8 := by
      rw [hed.hugeSize]
      exact h.size_le
    have hlink := hlevels _ (hsize.trans_le hle8)
    have hend : next C p' none (trimSize C p'.hugeNext p'.hugeSize) = some none := by
      unfold next rawNext
      rw [htail]
      exact congrArg some (if_pos rfl)
    cases hl : level ht (trimSize C p'.hugeNext p'.hugeSize) (x ++ y) with
    | nil =>
      rw [hl] at hmem
      exact not_mem_nil hmem
    | cons w l =>
      rw [hl] at hlink
      cases mem_unique hend hlink.1
  · intro k hk
    exact hlevels k hk
  · intro z hz
    obtain ⟨h1, h2⟩ := h.sizes z (mem_middle_of_mem hz)
    exact ⟨h1, (hed.sizes z (mem_middle_of_mem hz)).trans h2⟩
  · intro c hc
    exact hed.same (fun w hw => h.apart_node (mem_append_left _ hc) hw)

/-- **HUGE_FIT** is nothing, or a node of the skip list whose stored size is large enough. -/
theorem Inv.hugeFit_eq (h : Inv C p used F L ht len) (request : Nat) :
    ∃ update, hugeFit C p request = some (update, none) ∨
      ∃ q x y, hugeFit C p request = some (update, some (q, len q % 256 ^ C.linkBytes)) ∧
        L = x ++ q :: y ∧ request ≤ len q % 256 ^ C.linkBytes ∧
        ∀ k, k < p.hugeSize → update[k]? = some (level ht k x).getLast? := by
  obtain ⟨update, n2, x, b, hfind, hsplit, -, hrec, hor⟩ := h.findHuge_eq request
  refine ⟨update, ?_⟩
  unfold hugeFit
  rw [hfind, bind_some]
  rcases hor with ⟨q, y, rfl, rfl, hge⟩ | ⟨-, hsmall⟩
  · have hq : q ∈ L := by
      rw [hsplit]
      exact mem_append_right _ mem_cons_self
    refine .inr ⟨q, x, y, ?_, hsplit, not_lt.mp hge, hrec⟩
    dsimp only
    rw [(h.sizes q hq).2, map_some, if_pos (not_lt.mp hge)]
  · left
    cases n2 with
    | none => rfl
    | some q =>
      obtain ⟨hq, hlt⟩ := hsmall q rfl
      dsimp only
      rw [(h.sizes q hq).2, map_some, if_neg hlt.not_ge]

/-- A block is split into two. -/
theorem Ok.split (h : Ok C p ((q, l) :: used)) {l1 l2 : Nat} (hle : l1 + l2 ≤ l)
    (hdvd1 : C.alignSize ∣ l1) (hdvd2 : C.alignSize ∣ l2) (hpos1 : 0 < l1) (hpos2 : 0 < l2) :
    Ok C p ((q + l1, l2) :: (q, l1) :: used) := by
  obtain ⟨F, L, ht, len, h⟩ := h
  have htile := h.tiling
  exact ⟨F, L, ht, len, { h with tiling := htile.split hle hdvd1 hdvd2 hpos1 hpos2 }⟩

/-- A live block becomes smaller; nobody uses the rest. -/
theorem Ok.shrink {l' : Nat} (h : Ok C p ((q, l) :: used)) (hle : l' ≤ l) (hdvd : C.alignSize ∣ l')
    (hpos : 0 < l') : Ok C p ((q, l') :: used) := by
  obtain ⟨F, L, ht, len, h⟩ := h
  have htile := h.tiling
  exact ⟨F, L, ht, len, { h with tiling := htile.shrink hle hdvd hpos }⟩

/-- **TRIMMING**: the end of a live block is given back. -/
theorem sfree_rest (h : Ok C p ((q, l) :: used)) {size : Nat} (hsize : size ≤ l)
    (hdvd : C.alignSize ∣ request) (hdvd' : C.alignSize ∣ size) (hpos : 0 < request)
    (hlt : request < size) :
    ∃ p', sfree C p (q + request) (size - request) = some p' ∧ Ok C p' ((q, request) :: used) ∧
      ∀ c ∈ (q, request) :: used, Same p p' c := by
  have hsplit := h.split (show request + (size - request) ≤ l by omega) hdvd
    (dvd_sub hdvd' hdvd) hpos (by omega)
  exact sfree_spec hsplit (hsplit.alignUp_eq mem_cons_self)

theorem alignSize_dvd_pow : C.alignSize ∣ 256 ^ C.linkBytes := by
  rw [show (256 : Nat) = 2 ^ 8 from rfl, ← pow_mul]
  refine pow_dvd_pow 2 ?_
  have := C.align_le
  rcases linkBytes_cases (C := C) with ⟨h1, -, h3⟩ | ⟨h1, -, -⟩ <;> omega

/-- A block at the end of the pool. -/
theorem extend_spec (h : Ok C p used) (hdvd : C.alignSize ∣ request) (hpos : 0 < request)
    (hroom : p.n + request ≤ C.limit) : Ok C (extend p request).1 ((p.n, request) :: used) := by
  obtain ⟨F, L, ht, len, h⟩ := h
  have hlim := limit_lt (C := C)
  unfold extend
  rw [mod_eq_of_lt (show p.n + request < 2 ^ 64 by omega)]
  exact ⟨F, L, ht, len, h.reframe hroom (Nat.dvd_add h.whole hdvd)
    (h.tiling.push h.whole hdvd hpos) (fun _ _ _ _ _ => rfl)⟩

/-- Whether a free block serves the request. -/
def recycles (C : Config) (p : Pool) (request : Nat) : Bool :=
  if request ≤ C.freeListLen * C.alignSize then
    (p.freeList[listIndex C request]?.bind (follow C)).isSome
  else ((hugeFit C p request).bind Prod.snd).isSome

/-- **ALLOC** returns a block of its own. -/
theorem alloc_spec (h : Ok C p used) {request0 : Nat} (hpos0 : 0 < request0)
    (hround : request0 + C.alignSize ≤ 2 ^ 64)
    (hroom : recycles C p (alignUp C request0) = false → p.n + alignUp C request0 ≤ C.limit) :
    ∃ p' pos, alloc C p request0 = some (p', pos) ∧ Ok C p' ((pos, alignUp C request0) :: used) ∧
      ∀ c ∈ used, Same p p' c := by
  obtain ⟨hdvd, hle, hlt⟩ := alignUp_eq hround
  have hpos : 0 < alignUp C request0 := hpos0.trans_le hle
  have hlt64 : alignUp C request0 < 2 ^ 64 :=
    lt_of_le_of_lt (sub_le _ _) (mod_lt _ (by decide))
  unfold alloc
  unfold recycles at hroom
  generalize alignUp C request0 = request at *
  -- small sizes have a list of their own, larger ones the skip list
  by_cases hsmall : request ≤ C.freeListLen * C.alignSize
  · rw [if_pos hsmall] at hroom ⊢
    obtain ⟨F, L, ht, len, hI⟩ := id h
    obtain ⟨hidx, hback⟩ := listIndex_eq hdvd hpos hlt64 hsmall
    have hltlist : listIndex C request < p.freeList.length := by
      rw [hI.lists]
      exact hidx
    rw [getElem?_eq_getElem hltlist] at hroom ⊢
    rw [bind_some] at hroom ⊢
    have hfast := hI.fast _ hidx
    cases hfollow : follow C p.freeList[listIndex C request] with
    | none =>
      rw [hfollow] at hroom
      exact ⟨_, _, rfl, extend_spec h hdvd hpos (hroom rfl), fun _ _ _ _ _ => rfl⟩
    | some q =>
      have hhead : fastNext C p (listIndex C request) none 0 = some (some q) := by
        unfold fastNext
        dsimp only
        rw [getElem?_eq_getElem hltlist, map_some, hfollow]
      cases hF : F (listIndex C request) with
      | nil =>
        rw [hF] at hfast
        cases mem_unique hhead hfast
      | cons q' l =>
        rw [hF] at hfast
        obtain rfl : q = q' := some.inj (mem_unique hhead hfast.1)
        have hmem := hI.inside (mem_freeBlocks_fast L len hidx
          (hF ▸ mem_cons_self : q ∈ F (listIndex C request)))
        have hread : readLink C p q = some (load p.mem q C.linkBytes) := by
          refine if_pos ?_
          have := linkBytes_le_block (C := C) (listIndex C request)
          omega
        have htake := hI.take_fast hidx hF hread
        rw [hback] at htake
        dsimp only
        rw [hread]
        exact ⟨_, _, rfl, ⟨_, _, _, _, htake⟩, fun _ _ _ _ _ => rfl⟩
  rw [if_neg hsmall] at hroom ⊢
  obtain ⟨F, L, ht, len, hI⟩ := id h
  obtain ⟨update, hfit | ⟨q, x, y, hfit, rfl, hge, hrec⟩⟩ := hI.hugeFit_eq request
  · rw [hfit] at hroom ⊢
    exact ⟨_, _, rfl, extend_spec h hdvd hpos (hroom rfl), fun _ _ _ _ _ => rfl⟩
  rw [hfit, bind_some]
  dsimp only
  unfold takeHuge
  obtain ⟨p1, hrun, hinv, hsame⟩ := hI.take_huge hrec
  have hok1 : Ok C _ ((q, len q) :: used) := ⟨_, _, _, _, hinv⟩
  -- a size cut to the width of a link gives a shorter block
  have hle : len q % 256 ^ C.linkBytes ≤ len q := mod_le _ _
  rw [hrun, bind_some]
  -- what the request leaves goes back to the pool
  by_cases hrest : len q % 256 ^ C.linkBytes - request ≠ 0
  · have hdvdq : C.alignSize ∣ len q := (hok1.tiling.inside _ mem_cons_self).2.1
    have hdvds : C.alignSize ∣ len q % 256 ^ C.linkBytes :=
      (dvd_mod_iff alignSize_dvd_pow).mpr hdvdq
    obtain ⟨p2, hfree, hok2, hsame2⟩ := sfree_rest hok1 hle hdvd hdvds hpos (by omega)
    rw [if_pos hrest, hfree]
    refine ⟨p2, q, rfl, hok2, fun c hc i h1 h2 => ?_⟩
    rw [hsame2 c (mem_cons_of_mem _ hc) i h1 h2]
    exact hsame c hc i h1 h2
  · rw [if_neg hrest]
    exact ⟨_, q, rfl, hok1.shrink (hge.trans hle) hdvd hpos, hsame⟩

end MemPool
