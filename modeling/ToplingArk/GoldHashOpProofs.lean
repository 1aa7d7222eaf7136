import ToplingArk.GoldHashProofs

/-! # gold_hash_tab — compaction, erasing and inserting

    Compaction keeps the live elements; freeing a slot, taking a slot from the free list
    and storing a new element keep the invariant.  From these come the specifications of
    erasing and of inserting, whatever compaction and rehashing happen on the way. -/

namespace GoldHash

open HashChain List Option Nat

variable {Key Elem : Type} {T : Traits Key Elem} {t : Tab Elem} {j n q : Nat} {prev : Option Nat}

/-! ## Compaction -/

section Compaction

variable {α : Type} {copy : CopyStrategy} {i : Nat} {data : List α} {drop : Nat → α → Option Bool}

theorem moveDown_length (i j : Nat) (c : α) (data : List α) :
    (moveDown copy i j c data).length = data.length := by
  unfold moveDown
  split <;> simp

/-- What lies behind the moved cell stays. -/
theorem moveDown_drop (hij : i < j) (c : α) (data : List α) :
    (moveDown copy i j c data).drop (j + 1) = data.drop (j + 1) := by
  unfold moveDown
  split
  · rw [drop_set_of_lt (lt_succ_self j), drop_set_of_lt (lt_succ_of_lt hij)]
  · exact drop_set_of_lt (lt_succ_of_lt hij)

/-- The moved cell follows those that were kept. -/
theorem moveDown_take (hij : i < j) (c : α) (hlen : i < data.length) :
    (moveDown copy i j c data).take (i + 1) = data.take i ++ [c] := by
  have hset : (data.set i c).take (i + 1) = data.take i ++ [c] := by
    rw [take_add_one, getElem?_set_self hlen, take_set_of_le le_rfl]
    rfl
  unfold moveDown
  split
  · rw [take_set_of_le hij, hset]
  · exact hset

/-- The cells behind are still as they were. -/
theorem getElem?_of_drop {l l' : List α} {k : Nat} (h : l'.drop n = l.drop n) (hk : n ≤ k) :
    l'[k]? = l[k]? := by
  have h1 : (l'.drop n)[k - n]? = (l.drop n)[k - n]? := by rw [h]
  rwa [getElem?_drop, getElem?_drop, Nat.add_sub_cancel' hk] at h1

variable {f : α → Bool}

/-- The inner loop keeps what is not dropped. -/
theorem compact_spec :
    ∀ (m i j : Nat) (data : List α), i < j → j + m = data.length →
      (∀ k c, j ≤ k → data[k]? = some c → drop k c = some (f c)) →
      compact copy drop m i j data =
        some (data.take i ++ (data.drop j).filter (fun c => !f c)) := by
  intro m
  induction m with
  | zero =>
    intro i j data _ hlen _
    rw [compact, drop_eq_nil_of_le (by omega), filter_nil, append_nil]
  | succ m ih =>
    intro i j data hij hlen hdrop
    have hj : j < data.length := by omega
    have hc : data[j]? = some data[j] := getElem?_eq_getElem hj
    rw [compact, hc, bind_some, hdrop j _ le_rfl hc, bind_some,
      drop_eq_getElem_cons hj, filter_cons]
    cases hf : f data[j] with
    | true =>
      exact ih i (j + 1) data (by omega) (by omega)
        (fun k c hk => hdrop k c (by omega))
    | false =>
      rw [ih (i + 1) (j + 1) _ (by omega) (by rw [moveDown_length]; omega)]
      · rw [moveDown_take hij _ (by omega), moveDown_drop hij, append_assoc]
        rfl
      · intro k c hk hc'
        rw [getElem?_of_drop (moveDown_drop hij _ data) hk] at hc'
        exact hdrop k c (by omega) hc'

/-- The outer loop keeps what is not dropped, if anything is. -/
theorem sweep_spec :
    ∀ (m i : Nat) (data : List α), i + m = data.length →
      (∀ k c, i ≤ k → data[k]? = some c → drop k c = some (f c)) →
      sweep copy drop m i data = some (if (data.drop i).any f then
        some (data.take i ++ (data.drop i).filter (fun c => !f c)) else none) := by
  intro m
  induction m with
  | zero =>
    intro i data hlen _
    rw [sweep, drop_eq_nil_of_le (by omega), any_nil, if_neg Bool.false_ne_true]
  | succ m ih =>
    intro i data hlen hdrop
    have hi : i < data.length := by omega
    have hc : data[i]? = some data[i] := getElem?_eq_getElem hi
    rw [sweep, hc, bind_some, hdrop i _ le_rfl hc, bind_some,
      drop_eq_getElem_cons hi, any_cons, filter_cons]
    cases hf : f data[i] with
    | true =>
      rw [compact_spec m i (i + 1) data (by omega) (by omega)
        (fun k c hk => hdrop k c (by omega)), Bool.true_or]
      rfl
    | false =>
      rw [if_neg Bool.false_ne_true, ih (i + 1) data (by omega)
        (fun k c hk => hdrop k c (by omega)), Bool.false_or]
      by_cases hany : (data.drop (i + 1)).any f
      · rw [if_pos hany, if_pos hany, take_add_one, hc, append_assoc]
        rfl
      · rw [if_neg hany, if_neg hany]

/-- **COMPACTION** keeps the cells that are not dropped, in order. -/
theorem sweep_eq (hdrop : ∀ k c, data[k]? = some c → drop k c = some (f c)) :
    sweep copy drop data.length 0 data =
      some (if data.any f then some (data.filter (fun c => !f c)) else none) :=
  sweep_spec data.length 0 data (zero_add _) (fun k c _ => hdrop k c)

end Compaction

/-- The live elements are the same. -/
def SameElems (t t' : Tab Elem) : Prop := ∀ e, Cell.elem e ∈ t'.data ↔ Cell.elem e ∈ t.data

/-- Only live cells are left: the storage is in order, with an empty free list. -/
theorem filter_base (h : Base T t) {f : Cell Elem → Bool}
    (hkept : ∀ c ∈ t.data, f c = true → ∃ e, c = .elem e) :
    Base T { t with data := t.data.filter f, link := t.link.take (t.data.filter f).length,
                    freelistHead := T.link.tail, freelistSize := 0 } := by
  have helem : ∀ (i : Nat) (c : Cell Elem), (t.data.filter f)[i]? = some c → ∃ e, c = .elem e := by
    intro i c hc
    obtain ⟨hmem, hf⟩ := mem_filter.mp (mem_of_getElem? hc)
    exact hkept c hmem hf
  refine { lengths := ?_, fits := ?_, bound := h.bound, start := fun hone => ?_,
           bucket_pos := h.bucket_pos, filled := fun i hraw => ?_, marked := ?_,
           keys := h.keys.filter _, hashes := fun e he => h.hashes e (mem_filter.mp he).1,
           free := ?_ }
  · rw [length_take, ← h.lengths]
    exact (min_eq_left (length_filter_le _ _)).symm
  · rw [length_take]
    exact le_trans (min_le_right _ _) h.fits
  · obtain ⟨hb, hnil, hload⟩ := h.start hone
    refine ⟨hb, ?_, hload⟩
    rw [hnil, take_nil]
  · obtain ⟨e, he⟩ := helem i _ hraw
    cases he
  · rintro i ⟨p, hp⟩
    obtain ⟨e, he⟩ := helem i _ hp
    cases he
  · refine ⟨[], rfl, nodup_nil, rfl, fun i => ?_⟩
    refine ⟨fun hi => absurd hi not_mem_nil, ?_⟩
    rintro ⟨p, hp⟩
    obtain ⟨e, he⟩ := helem i _ hp
    cases he

/-- The table after the dead slots have been dropped, not yet linked. -/
theorem revokeDeletedNoRelink_base (h : WellFormed T t) (hsize : t.freelistSize ≠ 0) :
    ∃ t' n, revokeDeletedNoRelink T t = some (t', n) ∧ Base T t' ∧ t'.freelistSize = 0 ∧
      t'.nElem < t.nElem ∧ SameElems t t' := by
  -- freed slots are told by the mark in their link
  have hdrop : ∀ (k : Nat) (c : Cell Elem), t.data[k]? = some c →
      t.link[k]?.map (fun p => T.link.delmark == p) = some c.elem?.isNone := by
    intro k c hc
    have hk : k < t.link.length :=
      lt_of_lt_of_eq (List.getElem_of_getElem? hc).1 h.lengths
    have hp : t.link[k]? = some t.link[k] := getElem?_eq_getElem hk
    cases c with
    | elem e =>
      rw [hp, map_some, beq_false_of_ne (h.live_link ⟨e, hc⟩ hp).symm]
      rfl
    | next p =>
      rw [h.marked k ⟨p, hc⟩, map_some, beq_self_eq_true]
      rfl
    | raw => exact absurd hc (h.filled k)
  obtain ⟨l, hl, -, hlen, hmem⟩ := h.free
  obtain ⟨i, hil⟩ : ∃ i, i ∈ l := by
    refine exists_mem_of_length_pos ?_
    omega
  obtain ⟨p, hp⟩ := (hmem i).mp hil
  have hany : t.data.any (fun c => c.elem?.isNone) = true :=
    any_eq_true.mpr ⟨.next p, mem_of_getElem? hp, rfl⟩
  have hlt : (t.data.filter (fun c => !c.elem?.isNone)).length < t.data.length := by
    refine length_filter_lt_length_iff_exists.mpr ⟨.next p, mem_of_getElem? hp, ?_⟩
    exact Bool.false_ne_true
  unfold revokeDeletedNoRelink
  rw [if_neg hsize, show t.nElem = t.data.length from h.lengths.symm, sweep_eq hdrop, if_pos hany]
  refine ⟨_, _, rfl, filter_base h.toBase ?_, rfl, ?_, fun e => ?_⟩
  · intro c _ hc
    cases c with
    | elem e => exact ⟨e, rfl⟩
    | next p => cases hc
    | raw => cases hc
  · show (t.link.take _).length < t.data.length
    rw [length_take]
    exact lt_of_le_of_lt (min_le_left _ _) hlt
  · rw [mem_filter]
    exact and_iff_left rfl

/-- **REVOKE_DELETED** drops the dead slots. -/
theorem revokeDeleted_wf (h : WellFormed T t) :
    ∃ t' n, revokeDeleted T t = some (t', n) ∧ WellFormed T t' ∧ SameElems t t' := by
  unfold revokeDeleted
  by_cases hsize : t.freelistSize = 0
  · rw [if_neg (not_not_intro hsize)]
    exact ⟨t, 0, rfl, h, fun _ => Iff.rfl⟩
  · rw [if_pos hsize]
    obtain ⟨t1, n, hrev, hbase, hzero, -, hsame⟩ := revokeDeletedNoRelink_base h hsize
    obtain ⟨link, bucket, hrelink, -, -, hwf⟩ := relink_wf hbase (fun hne => absurd hzero hne)
    rw [hrev, bind_some, hrelink]
    exact ⟨_, n, rfl, hwf, hsame⟩

/-! ## Erasing one element -/

/-- The automatic compaction at the end of `fast_slot_free`. -/
def gc (T : Traits Key Elem) (t : Tab Elem) : Option (Tab Elem) :=
  if t.enableFreelistReuse = false then some t
  else if t.enableAutoGc ∧ t.freelistSize > t.nElem / 2 then (revokeDeleted T t).map Prod.fst
  else some t

/-- Garbage collection keeps the elements. -/
theorem gc_wf (h : WellFormed T t) : ∃ t', gc T t = some t' ∧ WellFormed T t' ∧ SameElems t t' := by
  have hsame : SameElems t t := fun _ => Iff.rfl
  unfold gc
  split
  · exact ⟨t, rfl, h, hsame⟩
  · by_cases hgc : t.enableAutoGc ∧ t.freelistSize > t.nElem / 2
    · obtain ⟨t', n, hrev, hwf, hse⟩ := revokeDeleted_wf h
      rw [if_pos hgc, hrev]
      exact ⟨t', rfl, hwf, hse⟩
    · rw [if_neg hgc]
      exact ⟨t, rfl, h, hsame⟩

variable {e : Elem} {i : Nat}

/-- Freeing a slot takes its own element out. -/
theorem mem_freed (h : Base T t) (he : t.data[i]? = some (.elem e)) (e' : Elem) :
    Cell.elem e' ∈ (freed T t i prev q).data ↔
      Cell.elem e' ∈ t.data ∧ T.extract e' ≠ T.extract e := by
  constructor
  · intro hmem
    obtain ⟨j, hj⟩ := mem_iff_getElem?.mp hmem
    obtain ⟨⟨e2, he2⟩, hne⟩ := (live_freed ⟨e, he⟩).mp (⟨e', hj⟩ : Live (freed T t i prev q) j)
    have hj' : t.data[j]? = some (.elem e') :=
      (getElem?_set_ne (Ne.symm hne)).symm.trans hj
    exact ⟨mem_of_getElem? hj', fun hkey => hne (h.key_unique hj' he hkey)⟩
  rintro ⟨hmem, hkey⟩
  obtain ⟨j, hj⟩ := mem_iff_getElem?.mp hmem
  have hne : i ≠ j := by
    rintro rfl
    rw [he] at hj
    cases hj
    exact hkey rfl
  exact mem_of_getElem? ((getElem?_set_ne hne).trans hj)

/-- The slot joins the free list, then compaction may run. -/
theorem fastSlotFree_eq (he : t.data[i]? = some (.elem e)) :
    fastSlotFree T t i = gc T { t with
      link := t.link.set i T.link.delmark, data := t.data.set i (.next t.freelistHead),
      freelistSize := t.freelistSize + 1, freelistHead := i } := by
  unfold fastSlotFree
  rw [elemAt_eq_some_iff.mpr he]
  rfl

/-- Taking a found slot out of its chain and freeing it. -/
theorem unlink_free (he : t.data[i]? = some (.elem e)) (hq : t.link[i]? = some q) :
    (unlinkSlot t (place T t i) prev i).bind (fun t => fastSlotFree T t i) =
      gc T (freed T t i prev q) := by
  unfold unlinkSlot
  rw [hq]
  exact fastSlotFree_eq he

/-- **ERASE_I** of a live slot. -/
theorem eraseI_eq (h : WellFormed T t) (he : t.data[i]? = some (.elem e)) :
    ∃ prev q, eraseI T t i = gc T (freed T t i prev q) ∧ WellFormed T (freed T t i prev q) := by
  obtain ⟨prev, q, hseek, hq, hchains, hsame⟩ := seekIn_found h he
    (fun p => some (p == i)) (by rw [beq_self_eq_true]) (fun j _ hne => by rw [beq_false_of_ne hne])
  refine ⟨prev, q, ?_, freed_wf h he hchains hsame⟩
  unfold eraseI riskUnlink
  dsimp only
  rw [elemAt_eq_some_iff.mpr he, bind_some, hseek, bind_some,
    if_neg (h.live_ne_tail ⟨e, he⟩), (h.hashes e (mem_of_getElem? he)).hashTp_eq, ← place_eq he]
  exact unlink_free he hq

/-- **ERASE** of a key. -/
theorem erase_wf (hT : Lawful T) (h : WellFormed T t) (k : Key) :
    ∃ t' n, erase T t k = some (t', n) ∧ WellFormed T t' ∧
      ∀ e, Cell.elem e ∈ t'.data ↔ Cell.elem e ∈ t.data ∧ T.extract e ≠ k := by
  unfold erase
  dsimp only
  by_cases hex : ∃ e, Cell.elem e ∈ t.data ∧ T.extract e = k
  · obtain ⟨e, hmem, rfl⟩ := hex
    obtain ⟨i, he⟩ := mem_iff_getElem?.mp hmem
    obtain ⟨hhit, hmiss⟩ := hasKey_hits hT h.toBase he
    obtain ⟨prev, q, hseek, hq, hchains, hsame⟩ := seekIn_found h he _ hhit hmiss
    obtain ⟨t', hgc, hwf, hse⟩ := gc_wf (freed_wf h he hchains hsame)
    refine ⟨t', 1, ?_, hwf, fun e' => (hse e').trans (mem_freed h.toBase he e')⟩
    rw [← unlink_free he hq, bind_eq_some_iff] at hgc
    obtain ⟨t1, hun, hfree⟩ := hgc
    rw [hseek, bind_some, if_neg (h.live_ne_tail ⟨e, he⟩), (h.hashes e hmem).hashTp_eq,
      ← place_eq he, hun, bind_some, hfree]
    rfl
  · have hk : ∀ e, Cell.elem e ∈ t.data → T.extract e ≠ k :=
      fun e hmem hkey => hex ⟨e, hmem, hkey⟩
    obtain ⟨prev, hseek⟩ := seekIn_absent hT h hk
    refine ⟨t, 0, ?_, h, fun e => (and_iff_left_of_imp (hk e)).symm⟩
    rw [hseek, bind_some, if_pos rfl]

/-! ## Inserting -/

/-- The table with one slot allocated whose element is not constructed yet. -/
structure Allocated (T : Traits Key Elem) (t : Tab Elem) (slot : Nat) : Prop where
  lengths : t.data.length = t.link.length
  fits : t.link.length ≤ t.maxElem
  bound : t.maxElem ≤ T.link.delmark
  raw : t.data[slot]? = some Cell.raw
  filled : ∀ i : Nat, i ≠ slot → t.data[i]? ≠ some Cell.raw
  marked : ∀ i, Deleted t i → t.link[i]? = some T.link.delmark
  keys : t.data.Pairwise (Apart T)
  hashes : ∀ e, Cell.elem e ∈ t.data → T.Fits (T.extract e)
  free : ∃ l, Chain T.link.tail (nexts t.data) t.freelistHead l ∧ l.Nodup ∧
    l.length = t.freelistSize ∧ ∀ i, i ∈ l ↔ Deleted t i
  chains : Buckets T.link.tail t.link t.bucket (Live t) (place T t)

/-- The next insertion of a new key finds a slot: one of the free list, one of the reserved
    memory, or one of memory that may still be reserved. -/
def HasRoom (T : Traits Key Elem) (t : Tab Elem) : Prop :=
  (t.freelistSize ≠ 0 ∧ t.enableFreelistReuse = true) ∨ t.nElem < t.maxElem ∨
    2 * t.nElem ≤ T.link.delmark

/-- Doubling does not wrap below the mark. -/
theorem LinkTp.twice_eq {w : LinkTp} (h : 2 * n ≤ w.delmark) : w.twice n = 2 * n := by
  unfold LinkTp.twice
  split
  · rfl
  · refine mod_eq_of_lt ?_
    unfold LinkTp.delmark LinkTp.tail at h
    have : 0 < 2 ^ w.bits := Nat.two_pow_pos _
    omega

/-- A slot behind the others: the reserved memory grows if it has to. -/
theorem alloc_fresh (h : WellFormed T t)
    (hroom : t.nElem < t.maxElem ∨ 2 * t.nElem ≤ T.link.delmark) :
    ∃ t1, (if t.nElem = t.maxElem then
        reserveNodes T t (if t.nElem = 0 then 1 else T.link.twice t.nElem)
      else some t) = some t1 ∧ WellFormed T t1 ∧ t1.data = t.data ∧ t1.bucket = t.bucket ∧
      t1.nElem < t1.maxElem := by
  by_cases hfull : t.nElem = t.maxElem
  · have hdouble : 2 * t.nElem ≤ T.link.delmark := hroom.resolve_left (by omega)
    have hge := T.link.delmark_ge
    obtain ⟨cap, hcap, hlt, hle⟩ : ∃ cap, (if t.nElem = 0 then 1 else T.link.twice t.nElem) = cap ∧
        t.nElem < cap ∧ cap ≤ T.link.delmark := by
      by_cases hzero : t.nElem = 0
      · exact ⟨1, if_pos hzero, by omega, by omega⟩
      · exact ⟨2 * t.nElem, by rw [if_neg hzero, LinkTp.twice_eq hdouble], by omega, hdouble⟩
    rw [if_pos hfull, hcap]
    unfold reserveNodes
    rw [if_neg (by omega), if_neg (by omega), if_pos (by omega)]
    refine ⟨_, rfl, { h with fits := hlt.le, bound := hle }, rfl, rfl, hlt⟩
  · rw [if_neg hfull]
    refine ⟨t, rfl, h, rfl, rfl, ?_⟩
    exact lt_of_le_of_ne h.fits hfull

/-- A slot at the end of the nodes. -/
theorem push_allocated (h : WellFormed T t) (hlt : t.nElem < t.maxElem) :
    Allocated T { t with data := t.data ++ [.raw], link := t.link ++ [T.link.tail] } t.nElem := by
  have hlen := h.lengths
  -- the new cell holds neither an element nor a link
  have hget : ∀ (i : Nat) (c : Cell Elem), c ≠ .raw →
      ((t.data ++ [Cell.raw])[i]? = some c ↔ t.data[i]? = some c) := by
    intro i c hc
    rw [getElem?_append]
    split
    · exact Iff.rfl
    rename_i hge
    rw [getElem?_eq_none (not_lt.mp hge)]
    constructor
    · intro h1
      have := mem_of_getElem? h1
      exact absurd (mem_singleton.mp this) hc
    · intro h1
      cases h1
  have hlive : ∀ i, Live { t with data := t.data ++ [.raw], link := t.link ++ [T.link.tail] } i ↔
      Live t i := fun i => exists_congr (fun e => hget i _ (by simp))
  have hdel : ∀ i, Deleted { t with data := t.data ++ [.raw], link := t.link ++ [T.link.tail] } i ↔
      Deleted t i := fun i => exists_congr (fun e => hget i _ (by simp))
  refine { lengths := ?_, fits := ?_, bound := h.bound, raw := ?_, filled := fun i hi => ?_,
           marked := fun i hi => ?_, keys := ?_, hashes := fun e hmem => h.hashes e ?_,
           free := ?_, chains := ?_ }
  · simp [hlen]
  · rw [length_append]
    exact hlt
  · show (t.data ++ [Cell.raw])[t.link.length]? = _
    rw [← hlen, getElem?_concat_length]
  · rw [getElem?_append]
    split
    · exact h.filled i
    · rw [getElem?_eq_none]
      · simp
      · change i ≠ t.link.length at hi
        simp
        omega
  · have hi' := (hdel i).mp hi
    rw [getElem?_append_left (lt_of_lt_of_eq hi'.lt hlen)]
    exact h.marked i hi'
  · refine pairwise_append.mpr ⟨h.keys, pairwise_singleton _ _, ?_⟩
    intro c _ c' hc' e e' _ he'
    rw [mem_singleton.mp hc'] at he'
    cases he'
  · exact (mem_append.mp hmem).resolve_right (by simp)
  · obtain ⟨l, hl, hnodup, hsize, hmem⟩ := h.free
    refine ⟨l, ?_, hnodup, hsize, fun i => (hmem i).trans (hdel i).symm⟩
    unfold nexts
    rw [map_append]
    exact hl.append _
  · refine h.chains.congr (fun i hi => ?_) hlive (fun i hi => ?_)
    · exact getElem?_append_left (lt_of_lt_of_eq hi.lt hlen)
    · obtain ⟨e, he⟩ := hi
      rw [place_eq he, place_eq ((hget i _ (by simp)).mpr he)]
      rfl

theorem set_getElem?_iff {c d : Cell Elem} (hi : i < t.data.length) (hcd : c ≠ d) :
    (t.data.set i c)[j]? = some d ↔ t.data[j]? = some d ∧ j ≠ i := by
  by_cases hij : i = j
  · subst hij
    rw [getElem?_set_self hi]
    constructor
    · intro heq
      exact absurd (some.inj heq) hcd
    · rintro ⟨-, hne⟩
      exact absurd rfl hne
  · rw [getElem?_set_ne hij]
    exact ⟨fun hd => ⟨hd, fun heq => hij heq.symm⟩, And.left⟩

/-- The first slot of the free list taken for a new element. -/
theorem pop_allocated (h : WellFormed T t) (hsize : t.freelistSize ≠ 0) :
    ∃ p, t.data[t.freelistHead]? = some (.next p) ∧
      Allocated T { t with freelistSize := t.freelistSize - 1, freelistHead := p,
                           data := t.data.set t.freelistHead .raw,
                           link := t.link.set t.freelistHead T.link.tail } t.freelistHead := by
  obtain ⟨l, hl, hnodup, hlen, hmem⟩ := h.free
  cases l with
  | nil => exact absurd hlen.symm hsize
  | cons x l =>
    obtain ⟨hx, -, p, hp, hrest⟩ := hl
    obtain ⟨p', hp'⟩ : Deleted t x := (hmem x).mp mem_cons_self
    obtain rfl : p' = p := by
      unfold nexts at hp
      rw [getElem?_map, hp'] at hp
      exact some.inj hp
    obtain ⟨hxl, hnodup⟩ := nodup_cons.mp hnodup
    rw [hx]
    have hlt : x < t.data.length := (List.getElem_of_getElem? hp').1
    -- the popped slot held no element
    have hlive : ∀ (i : Nat) (e : Elem), (t.data.set x Cell.raw)[i]? = some (.elem e) ↔
        t.data[i]? = some (.elem e) := by
      intro i e
      rw [set_getElem?_iff hlt (by simp)]
      refine and_iff_left_of_imp ?_
      rintro he rfl
      rw [hp'] at he
      cases he
    refine ⟨p', hp', { lengths := ?_, fits := ?_, bound := h.bound, raw := ?_,
                       filled := fun i hi => ?_, marked := ?_, keys := ?_,
                       hashes := fun e hmem => h.hashes e ?_, free := ?_, chains := ?_ }⟩
    · rw [length_set, length_set, h.lengths]
    · rw [length_set]
      exact h.fits
    · exact getElem?_set_self hlt
    · rw [getElem?_set_ne (Ne.symm hi)]
      exact h.filled i
    · rintro i ⟨q, hq⟩
      obtain ⟨hq', hne⟩ := (set_getElem?_iff hlt (by simp)).mp hq
      rw [getElem?_set_ne (Ne.symm hne)]
      exact h.marked i ⟨q, hq'⟩
    · refine pairwise_set (fun _ _ => Apart.symm) h.keys (fun j c _ _ e1 e2 h1 _ => ?_)
      cases h1
    · exact (mem_or_eq_of_mem_set hmem).resolve_right (by simp)
    -- the rest of the list stays as it is
    · refine ⟨l, ?_, hnodup, ?_, fun i => ?_⟩
      · rw [nexts_set]
        exact hrest.set_of_not_mem hxl
      · rw [← hlen]
        rfl
      constructor
      · intro hi
        obtain ⟨q, hq⟩ := (hmem i).mp (mem_cons_of_mem _ hi)
        refine ⟨q, (set_getElem?_iff hlt (by simp)).mpr ⟨hq, ?_⟩⟩
        rintro rfl
        exact hxl hi
      · rintro ⟨q, hq⟩
        obtain ⟨hq', hne⟩ := (set_getElem?_iff hlt (by simp)).mp hq
        exact (mem_cons.mp ((hmem i).mpr ⟨q, hq'⟩)).resolve_left hne
    · refine h.chains.congr (fun i hi => ?_) (fun i => exists_congr (hlive i)) (fun i hi => ?_)
      · refine getElem?_set_ne ?_
        rintro rfl
        exact not_live_and_deleted hi ⟨p', hp'⟩
      · obtain ⟨e, he⟩ := hi
        rw [place_eq he, place_eq ((hlive i e).mpr he)]
        rfl

/-- **RISK_SLOT_ALLOC** finds a slot if there is room. -/
theorem riskSlotAlloc_spec (h : WellFormed T t) (hroom : HasRoom T t) :
    ∃ t1 slot, riskSlotAlloc T t = some (t1, slot) ∧ Allocated T t1 slot ∧
      t1.bucket = t.bucket ∧ SameElems t t1 := by
  unfold riskSlotAlloc
  by_cases hfresh : t.freelistSize = 0 ∨ t.enableFreelistReuse = false
  · have hroom' : t.nElem < t.maxElem ∨ 2 * t.nElem ≤ T.link.delmark := by
      refine hroom.resolve_left ?_
      rintro ⟨hne, htrue⟩
      rcases hfresh with hzero | hfalse
      · exact hne hzero
      · rw [htrue] at hfalse
        cases hfalse
    obtain ⟨t1, hres, hwf, hsame, hbucket, hlt⟩ := alloc_fresh h hroom'
    rw [if_pos hfresh, hres]
    refine ⟨_, _, rfl, push_allocated hwf hlt, hbucket, fun e => ?_⟩
    rw [hsame]
    simp
  rw [if_neg hfresh]
  rw [not_or] at hfresh
  obtain ⟨p, hp, halloc⟩ := pop_allocated h hfresh.1
  rw [hp]
  refine ⟨_, _, rfl, halloc, rfl, fun e => ?_⟩
  have hlt := (List.getElem_of_getElem? hp).1
  constructor
  · intro hmem
    obtain ⟨i, hi⟩ := mem_iff_getElem?.mp hmem
    exact mem_of_getElem? ((set_getElem?_iff hlt (by simp)).mp hi).1
  · intro hmem
    obtain ⟨i, hi⟩ := mem_iff_getElem?.mp hmem
    refine mem_of_getElem? ((set_getElem?_iff hlt (by simp)).mpr ⟨hi, ?_⟩)
    rintro rfl
    rw [hp] at hi
    cases hi

/-- The slot that has been handed out is not in the table yet. -/
theorem Allocated.not_live {slot : Nat} (h : Allocated T t slot) : ¬ Live t slot := by
  rintro ⟨e', he'⟩
  rw [h.raw] at he'
  cases he'

/-- It is not in the free list any more. -/
theorem Allocated.not_deleted {slot : Nat} (h : Allocated T t slot) : ¬ Deleted t slot := by
  rintro ⟨q, hq⟩
  rw [h.raw] at hq
  cases hq

/-- The new element becomes the first of its bucket. -/
theorem Allocated.linked {slot p : Nat} {t' : Tab Elem} (h : Allocated T t slot)
    (hp : t.bucket[T.hash (T.extract e) % t.nBucket]? = some p)
    (hdata : t'.data = t.data.set slot (.elem e)) (hlink : t'.link = t.link.set slot p)
    (hbucket : t'.bucket = t.bucket.set (T.hash (T.extract e) % t.nBucket) slot) :
    Buckets T.link.tail t'.link t'.bucket (Live t') (place T t') := by
  have hlt : slot < t.data.length := (List.getElem_of_getElem? h.raw).1
  have hself : t'.data[slot]? = some (.elem e) := hdata ▸ getElem?_set_self hlt
  have hother : ∀ i : Nat, i ≠ slot → t'.data[i]? = t.data[i]? :=
    fun i hi => hdata ▸ getElem?_set_ne (Ne.symm hi)
  have hcount : t'.nBucket = t.nBucket := by
    unfold Tab.nBucket
    rw [hbucket, length_set]
  have hslot : place T t' slot = T.hash (T.extract e) % t.nBucket := by
    rw [place_eq hself, hcount]
  -- the other elements keep their places
  have hold : Buckets T.link.tail t.link t.bucket (Live t) (place T t') := by
    refine h.chains.congr (fun _ _ => rfl) (fun _ => Iff.rfl) ?_
    rintro i ⟨e', he'⟩
    have hi : i ≠ slot := by
      rintro rfl
      exact h.not_live ⟨e', he'⟩
    rw [place_eq he', place_eq ((hother i hi).trans he'), hcount]
  have hstop : slot ≠ T.link.tail := by
    have hle := h.fits.trans h.bound
    have hlen := h.lengths
    have hlt := T.link.delmark_lt_tail
    omega
  have hpush := hold.push h.not_live hstop (h.lengths ▸ hlt) (hslot.symm ▸ hp)
  rw [hslot, ← hlink, ← hbucket] at hpush
  refine hpush.congr (fun _ _ => rfl) (fun i => ?_) (fun _ _ => rfl)
  by_cases hi : i = slot
  · rw [hi]
    exact ⟨fun _ => .inr rfl, fun _ => ⟨e, hself⟩⟩
  · unfold Live
    rw [hother i hi]
    exact (or_iff_left hi).symm

/-- Storing a new key links it into its bucket. -/
theorem store_wf {slot : Nat} (h : Allocated T t slot) (hnb : 1 < t.nBucket)
    (hfit : T.Fits (T.extract e))
    (hk : ∀ e', Cell.elem e' ∈ t.data → T.extract e' ≠ T.extract e) :
    ∃ t', store t slot (T.hash (T.extract e) % t.nBucket) e = some t' ∧ WellFormed T t' ∧
      t'.data[slot]? = some (.elem e) ∧
      ∀ e', Cell.elem e' ∈ t'.data ↔ Cell.elem e' ∈ t.data ∨ e' = e := by
  obtain ⟨p, hp⟩ : ∃ p, t.bucket[T.hash (T.extract e) % t.nBucket]? = some p :=
    ⟨_, getElem?_eq_getElem (mod_lt _ (zero_lt_of_lt hnb))⟩
  have hlt : slot < t.data.length := (List.getElem_of_getElem? h.raw).1
  have hself : (t.data.set slot (.elem e))[slot]? = some (.elem e) :=
    getElem?_set_self hlt
  have hother : ∀ i : Nat, i ≠ slot → (t.data.set slot (.elem e))[i]? = t.data[i]? :=
    fun i hi => getElem?_set_ne (Ne.symm hi)
  have hdel : ∀ i : Nat, (∃ q, (t.data.set slot (.elem e))[i]? = some (.next q)) ↔ Deleted t i := by
    intro i
    refine exists_congr (fun q => ?_)
    rw [set_getElem?_iff hlt (by simp)]
    refine and_iff_left_of_imp ?_
    rintro hq rfl
    exact h.not_deleted ⟨q, hq⟩
  unfold store
  rw [if_neg hnb.ne', hp]
  refine ⟨_, rfl, ?_, hself, fun e' => ?_⟩
  · refine { lengths := ?_, fits := ?_, bound := h.bound, start := fun hone => ?_,
             bucket_pos := ?_, filled := fun i => ?_, marked := fun i hi => ?_, keys := ?_,
             hashes := fun e' hmem => ?_, free := ?_, chains := h.linked hp rfl rfl rfl }
    · rw [length_set, length_set, h.lengths]
    · rw [length_set]
      exact h.fits
    · change (t.bucket.set _ slot).length = 1 at hone
      rw [length_set] at hone
      exact absurd hone hnb.ne'
    · show 0 < (t.bucket.set _ slot).length
      rw [length_set]
      exact zero_lt_of_lt hnb
    · by_cases hi : i = slot
      · rw [hi, hself]
        intro heq
        cases heq
      · rw [hother i hi]
        exact h.filled i hi
    · have hi' := (hdel i).mp hi
      rw [getElem?_set_ne (by rintro rfl; exact h.not_deleted hi')]
      exact h.marked i hi'
    · refine pairwise_set (fun _ _ => Apart.symm) h.keys (fun j c _ hc e1 e2 h1 h2 => ?_)
      cases h1
      rw [h2] at hc
      exact (hk e2 (mem_of_getElem? hc)).symm
    · rcases mem_or_eq_of_mem_set hmem with hmem | heq
      · exact h.hashes e' hmem
      · cases heq
        exact hfit
    · obtain ⟨l, hl, hnodup, hlen, hmem⟩ := h.free
      refine ⟨l, ?_, hnodup, hlen, fun i => (hmem i).trans (hdel i).symm⟩
      rw [nexts_set]
      exact hl.set_of_not_mem (fun hs => h.not_deleted ((hmem slot).mp hs))
  constructor
  · intro hmem
    exact (mem_or_eq_of_mem_set hmem).imp_right (fun heq => by cases heq; rfl)
  · rintro (hmem | rfl)
    · obtain ⟨i, hi⟩ := mem_iff_getElem?.mp hmem
      refine mem_of_getElem? ((hother i ?_).trans hi)
      rintro rfl
      exact h.not_live ⟨e', hi⟩
    · exact mem_of_getElem? hself

section

variable (hT : Lawful T) (h : WellFormed T t) (hfit : T.Fits (T.extract e))
  (hk : ∀ e', Cell.elem e' ∈ t.data → T.extract e' ≠ T.extract e)

include hT h hfit hk

/-- Inserting a key that is not in the table: the buckets grow if they have to, and the
    element is stored in the slot that is allocated then. -/
theorem insertI_alloc :
    ∃ t1, WellFormed T t1 ∧ SameSlots t t1 ∧ 1 < t1.nBucket ∧
      insertI T t e = (riskSlotAlloc T t1).bind (fun ts =>
        (store ts.1 ts.2 (T.hash (T.extract e) % t1.nBucket) e).map
          (fun t => (t, ts.2, true))) := by
  obtain ⟨prev, hseek⟩ := seekIn_absent hT h hk
  obtain ⟨t1, hgrow, hwf1, hsame1, hnb⟩ : ∃ t1,
      (if t.nElem - t.freelistSize ≥ t.maxload then
        (rehash T t (t.nBucket + 1)).map (fun r => (r.1, T.hashTp (T.extract e) % r.2))
      else some (t, T.hashTp (T.extract e) % t.nBucket)) =
        some (t1, T.hash (T.extract e) % t1.nBucket) ∧ WellFormed T t1 ∧ SameSlots t t1 ∧
      1 < t1.nBucket := by
    rw [hfit.hashTp_eq]
    by_cases hload : t.nElem - t.freelistSize ≥ t.maxload
    · obtain ⟨t1, hre, hwf, hsame, hnb⟩ := rehash_wf h (t.nBucket + 1)
      have hge := nextPrime_ge (t.nBucket + 1)
      rw [if_pos hload, hre, ← hnb]
      exact ⟨t1, rfl, hwf, hsame, by omega⟩
    · rw [if_neg hload]
      refine ⟨t, rfl, h, ⟨rfl, rfl, rfl, rfl, rfl⟩, ?_⟩
      by_contra hle
      have hpos := h.bucket_pos
      obtain ⟨-, -, hzero⟩ := h.start (by omega)
      exact hload (hzero ▸ zero_le _)
  refine ⟨t1, hwf1, hsame1, hnb, ?_⟩
  unfold insertI
  dsimp only
  rw [hseek, bind_some, if_neg (not_not_intro rfl), hgrow, bind_some]

/-- **INSERT_I** of a key that is not in the table. -/
theorem insertI_new (hroom : HasRoom T t) :
    ∃ t' slot, insertI T t e = some (t', slot, true) ∧ WellFormed T t' ∧
      t'.data[slot]? = some (.elem e) ∧
      ∀ e', Cell.elem e' ∈ t'.data ↔ Cell.elem e' ∈ t.data ∨ e' = e := by
  obtain ⟨t1, hwf1, hsame1, hnb, hins⟩ := insertI_alloc hT h hfit hk
  have hroom1 : HasRoom T t1 := by
    unfold HasRoom Tab.nElem
    rw [hsame1.freelistSize, hsame1.reuse, hsame1.length, hsame1.maxElem]
    exact hroom
  obtain ⟨t2, slot, halloc, hall, hbucket, hsame2⟩ := riskSlotAlloc_spec hwf1 hroom1
  have hk2 : ∀ e', Cell.elem e' ∈ t2.data → T.extract e' ≠ T.extract e := by
    intro e' hmem
    rw [hsame2 e', hsame1.data] at hmem
    exact hk e' hmem
  have hnb2 : t2.nBucket = t1.nBucket := congrArg length hbucket
  obtain ⟨t', hstore, hwf, hslot, hmem⟩ := store_wf hall (hnb2 ▸ hnb) hfit hk2
  refine ⟨t', slot, ?_, hwf, hslot, fun e' => ?_⟩
  · rw [hins, halloc, bind_some, ← hnb2, hstore]
    rfl
  · rw [hmem e', hsame2 e', hsame1.data]

end

/-- **INSERT_I** of a key that is in the table. -/
theorem insertI_old (hT : Lawful T) (h : WellFormed T t) {e' : Elem}
    (he : t.data[i]? = some (.elem e)) (hkey : T.extract e = T.extract e') :
    insertI T t e' = some (t, i, false) := by
  obtain ⟨hhit, hmiss⟩ := hasKey_hits hT h.toBase he
  obtain ⟨prev, q, hseek, -⟩ := seekIn_found h he _ hhit hmiss
  unfold insertI
  dsimp only
  rw [← hkey, hseek, bind_some, if_pos (h.live_ne_tail ⟨e, he⟩)]

end GoldHash
