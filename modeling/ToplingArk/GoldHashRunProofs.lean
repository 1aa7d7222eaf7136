import ToplingArk.FiniteMapProofs
import ToplingArk.GoldHashOpProofs

/-! # gold_hash_tab — every run against a finite map

    Erasing by a predicate, clearing and copying keep the invariant as well.  A run of any
    operations, with the flags switched at any time, then does to the live elements what
    the same operations do to a finite map keyed by the extracted key. -/

namespace GoldHash

open HashChain List Option Nat

variable {Key Elem : Type} {T : Traits Key Elem} {t t' : Tab Elem} {b p k : Nat}
  {pred : Elem → Bool} {e : Elem}

/-! ## Erasing by a predicate -/

/-- An empty free list has no head. -/
theorem Base.head_of_free_zero (h : Base T t) (hzero : t.freelistSize = 0) :
    t.freelistHead = T.link.tail := by
  obtain ⟨l, hl, -, hlen, -⟩ := h.free
  rw [hzero] at hlen
  rw [eq_nil_of_length_eq_zero hlen] at hl
  exact hl

/-- A table without slots, whose buckets are all empty. -/
theorem empty_wf (hdata : t.data = []) (hlink : t.link = []) (hbound : t.maxElem ≤ T.link.delmark)
    (hpos : 0 < t.nBucket) (hload : t.nBucket = 1 → t.maxload = 0)
    (hheads : ∀ b p : Nat, t.bucket[b]? = some p → p = T.link.tail)
    (hhead : t.freelistHead = T.link.tail) (hsize : t.freelistSize = 0) : WellFormed T t := by
  have hcell : ∀ (i : Nat) (c : Cell Elem), t.data[i]? ≠ some c := by
    intro i c hc
    rw [hdata] at hc
    cases hc
  refine { lengths := ?_, fits := ?_, bound := hbound, start := fun hone => ?_,
           bucket_pos := hpos, filled := fun i => hcell i _, marked := ?_, keys := ?_,
           hashes := hdata ▸ fun _ he => absurd he not_mem_nil,
           free := ⟨[], hhead, nodup_nil, hsize.symm, fun i => ?_⟩, chains := ?_ }
  · rw [hdata, hlink]
    rfl
  · rw [hlink]
    exact zero_le _
  · refine ⟨?_, hlink, hload hone⟩
    obtain ⟨p, hp⟩ := length_eq_one_iff.mp (show t.bucket.length = 1 from hone)
    rw [hp, hheads 0 p (by rw [hp]; rfl)]
  · rintro i ⟨p, hp⟩
    exact absurd hp (hcell i _)
  · rw [hdata]
    exact List.Pairwise.nil
  · refine ⟨fun hi => absurd hi not_mem_nil, ?_⟩
    rintro ⟨p, hp⟩
    exact absurd hp (hcell i _)
  · intro b p hp
    refine ⟨[], hheads b p hp, nodup_nil, fun i => ?_⟩
    refine ⟨fun hi => absurd hi not_mem_nil, ?_⟩
    rintro ⟨⟨e, he⟩, -⟩
    exact absurd he (hcell i _)

theorem eq_tail_of_singleton (h : [T.link.tail][b]? = some p) : p = T.link.tail :=
  mem_singleton.mp (mem_of_getElem? h)

/-- The empty table is well formed. -/
theorem init_wf (T : Traits Key Elem) : WellFormed T (init T : Tab Elem) :=
  empty_wf rfl rfl (zero_le _) one_pos (fun _ => rfl)
    (fun _ _ hp => eq_tail_of_singleton hp) rfl rfl

/-- The elements that a predicate drops, when every slot is live. -/
theorem sweep_elems (h : Base T t) (hzero : t.freelistSize = 0) (pred : Elem → Bool) :
    sweep T.copy (fun _ c => c.elem?.map pred) t.nElem 0 t.data =
      some (if t.data.any (fun c => c.elem?.any pred) then
        some (t.data.filter (fun c => !c.elem?.any pred)) else none) := by
  rw [show t.nElem = t.data.length from h.lengths.symm]
  refine sweep_eq (fun k c hc => ?_)
  have hk : k < t.link.length :=
    lt_of_lt_of_eq (List.getElem_of_getElem? hc).1 h.lengths
  obtain ⟨e, he⟩ := h.live_of_free_zero hzero hk
  rw [hc] at he
  cases he
  rfl

/-- What `erase_if_impl` leaves behind: the chains are stale, unless nothing changed. -/
structure Erased (T : Traits Key Elem) (t t' : Tab Elem) (pred : Elem → Bool) : Prop where
  base : Base T t'
  free : t'.freelistSize = 0
  le : t'.nElem ≤ t.nElem
  same : t'.nElem = t.nElem → t' = t
  elems : ∀ e, Cell.elem e ∈ t'.data ↔ Cell.elem e ∈ t.data ∧ pred e = false

/-- Without freed slots the sweep erases what `pred` asks. -/
theorem erased_sweep (h : Base T t) (hzero : t.freelistSize = 0) (pred : Elem → Bool) :
    ∃ t' n, (sweep T.copy (fun _ c => c.elem?.map pred) t.nElem 0 t.data).map (fun kept =>
      match kept with
      | none => (t, 0)
      | some [] => (init T, t.nElem)
      | some (c :: data) =>
        ({ t with data := c :: data, link := t.link.take (data.length + 1) },
          t.nElem - (data.length + 1))) = some (t', n) ∧ Erased T t t' pred := by
  have hlive : ∀ c ∈ t.data, ∃ e, c = .elem e := by
    intro c hc
    obtain ⟨i, hi⟩ := mem_iff_getElem?.mp hc
    obtain ⟨e, he⟩ := h.live_of_free_zero hzero
      (lt_of_lt_of_eq (List.getElem_of_getElem? hi).1 h.lengths)
    rw [hi] at he
    exact ⟨e, some.inj he⟩
  have helems : ∀ e, Cell.elem e ∈ t.data.filter (fun c => !c.elem?.any pred) ↔
      Cell.elem e ∈ t.data ∧ pred e = false := by
    intro e
    rw [mem_filter]
    refine and_congr_right (fun _ => ?_)
    show (!pred e) = true ↔ _
    rw [Bool.not_eq_true']
  rw [sweep_elems h hzero pred]
  by_cases hany : t.data.any (fun c => c.elem?.any pred)
  · have hlt : (t.data.filter (fun c => !c.elem?.any pred)).length < t.nElem := by
      rw [show t.nElem = t.data.length from h.lengths.symm]
      obtain ⟨c, hc, hp⟩ := any_eq_true.mp hany
      refine length_filter_lt_length_iff_exists.mpr ⟨c, hc, ?_⟩
      rw [hp]
      exact Bool.false_ne_true
    have hbase := filter_base h (f := fun c => !c.elem?.any pred) (fun c hc _ => hlive c hc)
    rw [if_pos hany]
    cases hdata : t.data.filter (fun c => !c.elem?.any pred) with
    | nil =>
      -- nothing is left: the table is made anew
      rw [hdata] at hlt helems
      refine ⟨_, _, rfl, (init_wf T).toBase, rfl, zero_le _, fun heq => ?_, helems⟩
      rw [← heq] at hlt
      exact absurd hlt (lt_irrefl 0)
    | cons c data =>
      rw [hdata] at hlt helems hbase
      have hless : (t.link.take (data.length + 1)).length < t.nElem := by
        rw [length_take]
        exact lt_of_le_of_lt (min_le_left _ _) hlt
      refine ⟨_, _, rfl, ?_, hzero, hless.le, fun heq => ?_, helems⟩
      · have hhead := h.head_of_free_zero hzero
        rw [← hhead, ← hzero] at hbase
        exact hbase
      · exact absurd heq hless.ne
  · refine ⟨t, 0, by rw [if_neg hany]; rfl, h, hzero, le_rfl, fun _ => rfl, fun e => ?_⟩
    refine (and_iff_left_of_imp (fun he => ?_)).symm
    by_contra hp
    exact hany (any_eq_true.mpr ⟨.elem e, he, Bool.not_eq_false _ ▸ hp⟩)

/-- `erase_if` erases what `pred` asks. -/
theorem eraseIfImpl_erased (h : WellFormed T t) (pred : Elem → Bool) :
    ∃ t' n, eraseIfImpl T t pred = some (t', n) ∧ Erased T t t' pred := by
  unfold eraseIfImpl
  by_cases hsize : t.freelistSize = 0
  · rw [if_neg (not_not_intro hsize)]
    exact erased_sweep h.toBase hsize pred
  obtain ⟨t1, n, hrev, hbase, hzero, hlt, hsame⟩ := revokeDeletedNoRelink_base h hsize
  obtain ⟨t', n', hsweep, herased⟩ := erased_sweep hbase hzero pred
  rw [if_pos hsize, hrev]
  have hless : t'.nElem < t.nElem := herased.le.trans_lt hlt
  refine ⟨t', n', hsweep, herased.base, herased.free, hless.le, fun heq => ?_,
    fun e => ?_⟩
  · -- the dead slots are gone, so the number of slots has changed
    exact absurd heq hless.ne
  · rw [herased.elems e, hsame e]

/-- What erasing by a predicate does. -/
def ErasesIf (T : Traits Key Elem) (t : Tab Elem) (pred : Elem → Bool)
    (r : Option (Tab Elem × Nat)) : Prop :=
  ∃ t' n, r = some (t', n) ∧ WellFormed T t' ∧
    ∀ e, Cell.elem e ∈ t'.data ↔ Cell.elem e ∈ t.data ∧ pred e = false

/-- **NO_SHRINK_AFTER_ERASE_IF**. -/
theorem noShrinkAfterEraseIf_wf (h : WellFormed T t) (pred : Elem → Bool) :
    ErasesIf T t pred (noShrinkAfterEraseIf T t pred) := by
  obtain ⟨t1, n, himpl, herased⟩ := eraseIfImpl_erased h pred
  obtain ⟨link, bucket, hrelink, -, -, hwf⟩ :=
    relink_wf herased.base (fun hne => absurd herased.free hne)
  unfold noShrinkAfterEraseIf
  rw [himpl, bind_some, hrelink]
  exact ⟨_, n, rfl, hwf, herased.elems⟩

/-- The slots after those below `k` that the predicate drops have been erased in place. -/
structure KeptBelow (T : Traits Key Elem) (t : Tab Elem) (pred : Elem → Bool) (k : Nat)
    (t' : Tab Elem) : Prop where
  wf : WellFormed T t'
  length : t'.nElem = t.nElem
  reuse : t'.enableFreelistReuse = false
  elems : ∀ (i : Nat) (e : Elem), t'.data[i]? = some (.elem e) ↔
    t.data[i]? = some (.elem e) ∧ (i < k → pred e = false)

/-- An element that stays needs no work. -/
theorem KeptBelow.skip (h : KeptBelow T t pred k t')
    (hk : ∀ e, t.data[k]? = some (.elem e) → pred e = false) : KeptBelow T t pred (k + 1) t' := by
  refine ⟨h.wf, h.length, h.reuse, fun i e => ?_⟩
  rw [h.elems i e]
  refine and_congr_right (fun hi => ⟨fun hlow hlt => ?_, fun hlow hlt => hlow (by omega)⟩)
  rcases Nat.lt_succ_iff_lt_or_eq.mp hlt with hlt | rfl
  · exact hlow hlt
  · exact hk e hi

/-- One round of `keepid_erase_if`. -/
theorem keepidEraseIf_step (h : WellFormed T t) {n : Nat} (hk : k < t.nElem)
    (hkept : KeptBelow T t pred k t') :
    ∃ t2 n2, (t'.link[k]?.bind (fun p =>
      if t.freelistSize = 0 ∨ T.link.delmark ≠ p then
        (t'.elemAt k).bind (fun e =>
          if pred e then (eraseI T t' k).map (fun t => (t, n + 1)) else some (t', n))
      else some (t', n))) = some (t2, n2) ∧ KeptBelow T t pred (k + 1) t2 := by
  have hk' : k < t'.link.length := lt_of_lt_of_eq hk hkept.length.symm
  have hp : t'.link[k]? = some t'.link[k] := getElem?_eq_getElem hk'
  rw [hp, bind_some]
  rcases h.live_or_deleted hk with ⟨e, he⟩ | hdel
  · -- the slot was live, and the loop has not come to it yet
    have he' : t'.data[k]? = some (.elem e) :=
      (hkept.elems k e).mpr ⟨he, fun hlt => absurd hlt (lt_irrefl k)⟩
    rw [if_pos (.inr (hkept.wf.live_link ⟨e, he'⟩ hp).symm), elemAt_eq_some_iff.mpr he', bind_some]
    by_cases hpred : pred e
    · obtain ⟨prev, q, heq, hwf⟩ := eraseI_eq hkept.wf he'
      have hgc : gc T (freed T t' k prev q) = some (freed T t' k prev q) :=
        if_pos hkept.reuse
      rw [if_pos hpred, heq, hgc]
      refine ⟨_, n + 1, rfl, hwf, ?_, hkept.reuse, fun i e' => ?_⟩
      · show (set _ k _).length = _
        rw [length_set, (unlink_length _ _ _ _ _).1]
        exact hkept.length
      show (t'.data.set k _)[i]? = _ ↔ _
      rw [set_getElem?_iff (List.getElem_of_getElem? he').1 (by simp), hkept.elems i e']
      constructor
      · rintro ⟨⟨hi, hlow⟩, hne⟩
        refine ⟨hi, fun hlt => hlow ?_⟩
        omega
      · rintro ⟨hi, hlow⟩
        refine ⟨⟨hi, fun hlt => hlow (by omega)⟩, ?_⟩
        rintro rfl
        rw [he] at hi
        cases hi
        rw [hlow (lt_succ_self i)] at hpred
        cases hpred
    rw [if_neg hpred]
    refine ⟨t', n, rfl, hkept.skip (fun e' hk => ?_)⟩
    rw [he] at hk
    cases hk
    exact Bool.eq_false_iff.mpr hpred
  -- a dead slot is skipped
  have hsize : t.freelistSize ≠ 0 := fun hzero =>
    not_live_and_deleted (h.live_of_free_zero hzero hk) hdel
  have hdead : ∀ e, t.data[k]? ≠ some (.elem e) :=
    fun e he => not_live_and_deleted ⟨e, he⟩ hdel
  have hdel' : Deleted t' k := by
    rcases hkept.wf.live_or_deleted hk' with ⟨e, he⟩ | hdel'
    · exact absurd ((hkept.elems k e).mp he).1 (hdead e)
    · exact hdel'
  have hmark : t'.link[k] = T.link.delmark :=
    mem_unique hp (hkept.wf.marked k hdel')
  rw [if_neg (by rw [hmark]; simp [hsize])]
  exact ⟨t', n, rfl, hkept.skip (fun e he => absurd he (hdead e))⟩

/-- **KEEPID_ERASE_IF**, which `erase_if` calls while slots are not reused. -/
theorem keepidEraseIf_wf (h : WellFormed T t)
    (hreuse : t.enableFreelistReuse = false) (pred : Elem → Bool) :
    ErasesIf T t pred (keepidEraseIf T t pred) := by
  have hguard : ¬ ((t.freelistSize = 0 ∧ t.freelistHead ≠ T.link.tail) ∨
      (t.freelistSize ≠ 0 ∧ t.nElem ≤ t.freelistHead)) := by
    rintro (⟨hzero, hne⟩ | ⟨hsize, hle⟩)
    · exact hne (h.head_of_free_zero hzero)
    · obtain ⟨p, hp, -⟩ := pop_allocated h hsize
      have hlt := (List.getElem_of_getElem? hp).1
      rw [h.lengths] at hlt
      exact absurd hlt hle.not_gt
  unfold keepidEraseIf
  rw [if_neg hguard]
  have hstart : KeptBelow T t pred 0 t :=
    ⟨h, rfl, hreuse, fun i e => (and_iff_left (fun hlt => absurd hlt (not_lt_zero i))).symm⟩
  obtain ⟨s, hrun, hkept⟩ := Runs.run_range (s := (t, 0)) (n := t.nElem)
    (fun k s => KeptBelow T t pred k s.1) hstart (fun k hk s hs => by
      obtain ⟨t2, n2, hstep, hkept2⟩ := keepidEraseIf_step (n := s.2) h hk hs
      exact ⟨(t2, n2), hstep, hkept2⟩)
  refine ⟨s.1, s.2, hrun, hkept.wf, fun e => ?_⟩
  constructor
  · intro hmem
    obtain ⟨i, hi⟩ := mem_iff_getElem?.mp hmem
    have hlt : i < t.nElem := by
      rw [← hkept.length]
      exact lt_of_lt_of_eq (List.getElem_of_getElem? hi).1 hkept.wf.lengths
    obtain ⟨hold, hlow⟩ := (hkept.elems i e).mp hi
    exact ⟨mem_of_getElem? hold, hlow hlt⟩
  · rintro ⟨hmem, hpred⟩
    obtain ⟨i, hi⟩ := mem_iff_getElem?.mp hmem
    exact mem_of_getElem? ((hkept.elems i e).mpr ⟨hi, fun _ => hpred⟩)

/-- **ERASE_IF**. -/
theorem eraseIf_wf (h : WellFormed T t) (pred : Elem → Bool) :
    ErasesIf T t pred (eraseIf T t pred) := by
  unfold eraseIf
  by_cases hreuse : t.enableFreelistReuse = false
  · rw [if_pos hreuse]
    exact keepidEraseIf_wf h hreuse pred
  obtain ⟨t1, n, himpl, herased⟩ := eraseIfImpl_erased h pred
  rw [if_neg hreuse, himpl, bind_some]
  by_cases hsame : t1.nElem = t.nElem
  · obtain rfl := herased.same hsame
    rw [if_neg (not_not_intro hsame)]
    exact ⟨t1, n, rfl, h, herased.elems⟩
  · obtain ⟨link, bucket, hrelink, -, -, hwf⟩ :=
      relink_wf herased.base (fun hne => absurd herased.free hne)
    rw [if_pos hsame, hrelink]
    exact ⟨_, n, rfl, hwf, herased.elems⟩

/-! ## The number of elements -/

theorem countP_range {α : Type} (p : α → Bool) (l : List α) :
    (range l.length).countP (fun i => l[i]?.any p) = l.countP p := by
  induction l using reverseRecOn with
  | nil => rfl
  | append_singleton l a ih =>
    rw [length_append, length_singleton, range_succ, countP_append, countP_append, countP_singleton,
      countP_singleton, getElem?_concat_length, ← ih]
    refine congrArg (· + _) (countP_congr (fun i hi => ?_))
    rw [getElem?_append_left (mem_range.mp hi)]

/-- The live elements, in the order of their slots. -/
def Tab.elems (t : Tab Elem) : List Elem := t.data.filterMap Cell.elem?

/-- The elements are those of the cells. -/
theorem mem_elems : e ∈ t.elems ↔ Cell.elem e ∈ t.data := by
  unfold Tab.elems
  rw [mem_filterMap]
  constructor
  · rintro ⟨c, hc, he⟩
    rwa [Cell.elem?_eq_some_iff.mp he] at hc
  · intro hc
    exact ⟨_, hc, rfl⟩

/-- **SIZE** is the number of live elements. -/
theorem Base.nElem_eq (h : Base T t) : t.nElem = t.freelistSize + t.elems.length := by
  obtain ⟨l, hl, hnodup, hlen, hmem⟩ := h.free
  have hperm : l.Perm ((range t.data.length).filter
      (fun i => t.data[i]?.any (fun c => c.elem?.isNone))) := by
    refine (perm_ext_iff_of_nodup hnodup (nodup_range.filter _)).mpr (fun i => ?_)
    rw [hmem i, mem_filter, mem_range]
    constructor
    · intro hd
      refine ⟨hd.lt, ?_⟩
      obtain ⟨p, hp⟩ := hd
      rw [hp]
      rfl
    · rintro ⟨hi, hdead⟩
      rcases h.live_or_deleted (lt_of_lt_of_eq hi h.lengths) with ⟨e, he⟩ | hd
      · rw [he] at hdead
        cases hdead
      · exact hd
  have hfree : t.freelistSize = t.data.countP (fun c => c.elem?.isNone) := by
    rw [← hlen, hperm.length_eq, ← countP_eq_length_filter, countP_range]
  have helems : t.elems.length = t.data.countP (fun c => ¬ c.elem?.isNone) := by
    unfold Tab.elems
    rw [length_filterMap_eq_countP]
    refine countP_congr (fun c _ => ?_)
    cases c.elem? <;> simp
  rw [hfree, helems, ← length_eq_countP_add_countP]
  exact h.lengths.symm

/-! ## Clearing, copying and reserving -/

/-- A table without live elements has empty chains. -/
theorem WellFormed.heads_of_no_elems (h : WellFormed T t) (hnone : ∀ i, ¬ Live t i)
    (hp : t.bucket[b]? = some p) : p = T.link.tail := by
  obtain ⟨l, hl, -, hmem⟩ := h.chains b p hp
  cases l with
  | nil => exact hl
  | cons x l => exact absurd ((hmem x).mp mem_cons_self).1 (hnone x)

/-- **ERASE_ALL**. -/
theorem eraseAll_wf (h : WellFormed T t) :
    ∃ t', eraseAll T t = some t' ∧ WellFormed T t' ∧ t'.data = [] := by
  have hhead : t.freelistHead < T.link.delmark ∧ t.freelistHead < t.nElem ∨
      ¬ t.freelistHead < T.link.delmark ∧ t.freelistHead = T.link.tail ∧ t.freelistSize = 0 := by
    have hmark := T.link.delmark_lt_tail
    have hle := h.nElem_le
    by_cases hsize : t.freelistSize = 0
    · have := h.head_of_free_zero hsize
      exact .inr ⟨by omega, this, hsize⟩
    · obtain ⟨p, hp, -⟩ := pop_allocated h hsize
      have hlt := (List.getElem_of_getElem? hp).1
      rw [h.lengths] at hlt
      exact .inl ⟨hlt.trans_le hle, hlt⟩
  obtain ⟨bucket, hbucket, hlen, hheads⟩ : ∃ bucket,
      (if t.nElem > t.freelistSize then replicate t.nBucket T.link.tail else t.bucket) =
        bucket ∧ bucket.length = t.nBucket ∧
      ∀ (b p : Nat), bucket[b]? = some p → p = T.link.tail := by
    by_cases hgt : t.nElem > t.freelistSize
    · refine ⟨_, if_pos hgt, length_replicate, fun b p hp => ?_⟩
      exact eq_of_mem_replicate (mem_of_getElem? hp)
    · refine ⟨_, if_neg hgt, rfl, fun b p hp => h.heads_of_no_elems (fun i hi => ?_) hp⟩
      obtain ⟨e, he⟩ := hi
      have hpos := length_pos_of_mem (mem_elems.mpr (mem_of_getElem? he))
      have := h.nElem_eq
      omega
  have hload : bucket.length = 1 → t.maxload = 0 :=
    fun hone => (h.start (hlen.symm.trans hone)).2.2
  have hpos : 0 < bucket.length := lt_of_lt_of_eq h.bucket_pos hlen.symm
  unfold eraseAll
  rw [hbucket]
  rcases hhead with ⟨hlt, hin⟩ | ⟨hnlt, htail, hzero⟩
  · rw [if_pos hlt, if_neg hin.not_ge]
    exact ⟨_, rfl, empty_wf rfl rfl h.bound hpos hload hheads rfl rfl, rfl⟩
  · rw [if_neg hnlt]
    exact ⟨_, rfl, empty_wf rfl rfl h.bound hpos hload hheads htail hzero, rfl⟩

/-- **COPYING** keeps everything but the reserved memory. -/
theorem copy_wf (h : WellFormed T t) : WellFormed T (copy T t) ∧ (copy T t).data = t.data := by
  unfold copy
  split
  next hzero =>
    have hnil : t.link = [] := eq_nil_of_length_eq_zero hzero
    have hdata : t.data = [] := eq_nil_of_length_eq_zero (h.lengths.trans hzero)
    have hsize : t.freelistSize = 0 := by
      have := h.nElem_eq
      omega
    exact ⟨empty_wf hdata hnil h.nElem_le one_pos (fun _ => rfl)
      (fun _ _ hp => eq_tail_of_singleton hp) (h.head_of_free_zero hsize) hsize, rfl⟩
  · exact ⟨{ h with fits := le_rfl, bound := h.nElem_le }, rfl⟩

/-- **RESERVE** of at least the slots in use and at most the delete mark. -/
theorem reserve_wf (h : WellFormed T t) {cap : Nat} (hge : t.nElem ≤ cap)
    (hle : cap ≤ T.link.delmark) :
    ∃ t', reserve T t cap = some t' ∧ WellFormed T t' ∧ t'.data = t.data := by
  obtain ⟨t1, hnodes, hwf, hdata⟩ :
      ∃ t1, reserveNodes T t cap = some t1 ∧ WellFormed T t1 ∧ t1.data = t.data := by
    unfold reserveNodes
    rw [if_neg hge.not_gt, if_neg hle.not_gt]
    split
    · exact ⟨_, rfl, { h with fits := hge, bound := hle }, rfl⟩
    · exact ⟨t, rfl, h, rfl⟩
  obtain ⟨t', hre, hwf', hsame, -⟩ := rehash_wf hwf (cap * 256 % 2 ^ 64 / t1.loadFactor + 1)
  refine ⟨t', ?_, hwf', hsame.data.trans hdata⟩
  unfold reserve
  rw [hnodes, bind_some, hre]
  rfl

/-! ## Runs -/

/-- The operations. -/
inductive Op (Key Elem : Type)
  | insertI (e : Elem)
  | erase (k : Key)
  | eraseI (idx : Nat)
  | eraseIf (pred : Elem → Bool)
  | noShrinkAfterEraseIf (pred : Elem → Bool)
  | revokeDeleted
  | rehash (newBucketSize : Nat)
  | reserve (cap : Nat)
  | eraseAll
  | copy
  | enableAutoGc (enable : Bool)
  | enableFreelist (enable : Bool)

/-- One operation on the table. -/
def step (T : Traits Key Elem) (t : Tab Elem) : Op Key Elem → Option (Tab Elem)
  | .insertI e => (insertI T t e).map Prod.fst
  | .erase k => (erase T t k).map Prod.fst
  | .eraseI idx => eraseI T t idx
  | .eraseIf pred => (eraseIf T t pred).map Prod.fst
  | .noShrinkAfterEraseIf pred => (noShrinkAfterEraseIf T t pred).map Prod.fst
  | .revokeDeleted => (revokeDeleted T t).map Prod.fst
  | .rehash n => (rehash T t n).map Prod.fst
  | .reserve cap => reserve T t cap
  | .eraseAll => eraseAll T t
  | .copy => some (copy T t)
  | .enableAutoGc enable => some { t with enableAutoGc := enable }
  | .enableFreelist enable => some { t with enableFreelistReuse := enable }

/-- The same operation on a finite map; an index stands for the key of its element. -/
def mapStep [DecidableEq Key] (T : Traits Key Elem) (t : Tab Elem) (m : Key → Option Elem) :
    Op Key Elem → Key → Option Elem
  | .insertI e => FiniteMap.insertNew m (T.extract e) e
  | .erase k => FiniteMap.erase m k
  | .eraseI idx =>
    match t.elemAt idx with
    | some e => FiniteMap.erase m (T.extract e)
    | none => m
  | .eraseIf pred => FiniteMap.retain m (fun e => !pred e)
  | .noShrinkAfterEraseIf pred => FiniteMap.retain m (fun e => !pred e)
  | .eraseAll => fun _ => none
  | .revokeDeleted => m
  | .rehash _ => m
  | .reserve _ => m
  | .copy => m
  | .enableAutoGc _ => m
  | .enableFreelist _ => m

/-- The table and the map side by side. -/
def stepBoth [DecidableEq Key] (T : Traits Key Elem) (s : Tab Elem × (Key → Option Elem))
    (op : Op Key Elem) : Option (Tab Elem × (Key → Option Elem)) :=
  (step T s.1 op).map (fun t => (t, mapStep T s.1 s.2 op))

/-- The calls that are allowed: a new key needs room and a hash value that fits, an index must be
    live, and the memory reserved must hold the slots in use and be addressable. -/
def Allowed (T : Traits Key Elem) (t : Tab Elem) : Op Key Elem → Prop
  | .insertI e => (∀ e', Cell.elem e' ∈ t.data → T.extract e' ≠ T.extract e) →
    T.Fits (T.extract e) ∧ HasRoom T t
  | .eraseI idx => Live t idx
  | .reserve cap => t.nElem ≤ cap ∧ cap ≤ T.link.delmark
  | _ => True

/-- The live elements are the values of the map. -/
def Represents (T : Traits Key Elem) (t : Tab Elem) (m : Key → Option Elem) : Prop :=
  ∀ k e, m k = some e ↔ Cell.elem e ∈ t.data ∧ T.extract e = k

variable {m : Key → Option Elem}

theorem Represents.congr (h : Represents T t m) (hsame : SameElems t t') : Represents T t' m := by
  intro k e
  rw [h k e, hsame e]

/-- A key the map does not have is in no cell. -/
theorem Represents.none_iff (h : Represents T t m) (k : Key) :
    m k = none ↔ ∀ e, Cell.elem e ∈ t.data → T.extract e ≠ k := by
  rw [eq_none_iff_forall_ne_some]
  constructor
  · intro hnone e he hkey
    exact hnone e ((h k e).mpr ⟨he, hkey⟩)
  · intro habsent e he
    obtain ⟨hmem, hkey⟩ := (h k e).mp he
    exact habsent e hmem hkey

/-- Inserting, seen from the map. -/
theorem represents_insert [DecidableEq Key] (h : Represents T t m)
    (hk : ∀ e', Cell.elem e' ∈ t.data → T.extract e' ≠ T.extract e)
    (hmem : ∀ e', Cell.elem e' ∈ t'.data ↔ Cell.elem e' ∈ t.data ∨ e' = e) :
    Represents T t' (FiniteMap.insertNew m (T.extract e) e) := by
  intro k e'
  have hnone := (h.none_iff (T.extract e)).mpr hk
  rw [FiniteMap.insertNew_eq_some, h k e', hmem e']
  constructor
  · rintro (⟨he', hkey⟩ | ⟨-, rfl, rfl⟩)
    · exact ⟨.inl he', hkey⟩
    · exact ⟨.inr rfl, rfl⟩
  · rintro ⟨he' | rfl, rfl⟩
    · exact .inl ⟨he', rfl⟩
    · exact .inr ⟨hnone, rfl, rfl⟩

/-- Erasing, seen from the map. -/
theorem represents_erase [DecidableEq Key] (h : Represents T t m) {k : Key}
    (hmem : ∀ e, Cell.elem e ∈ t'.data ↔ Cell.elem e ∈ t.data ∧ T.extract e ≠ k) :
    Represents T t' (FiniteMap.erase m k) := by
  intro k' e
  rw [FiniteMap.erase_eq_some, h k' e, hmem e]
  constructor
  · rintro ⟨⟨he, rfl⟩, hne⟩
    exact ⟨⟨he, hne⟩, rfl⟩
  · rintro ⟨⟨he, hne⟩, rfl⟩
    exact ⟨⟨he, rfl⟩, hne⟩

/-- Erasing by a predicate, seen from the map. -/
theorem represents_retain (h : Represents T t m)
    (hmem : ∀ e, Cell.elem e ∈ t'.data ↔ Cell.elem e ∈ t.data ∧ pred e = false) :
    Represents T t' (FiniteMap.retain m (fun e => !pred e)) := by
  intro k e
  rw [FiniteMap.retain_eq_some, h k e, hmem e, Bool.not_eq_true']
  exact and_right_comm

/-- **ONE STEP** is defined and does the same to the table and to the map. -/
theorem step_represents [DecidableEq Key] (hT : Lawful T) (h : WellFormed T t)
    (hm : Represents T t m) {op : Op Key Elem} (hop : Allowed T t op) :
    ∃ t', step T t op = some t' ∧ WellFormed T t' ∧ Represents T t' (mapStep T t m op) := by
  cases op with
  | insertI e =>
    by_cases hk : ∀ e', Cell.elem e' ∈ t.data → T.extract e' ≠ T.extract e
    · obtain ⟨t', slot, heq, hwf, -, hmem⟩ := insertI_new hT h (hop hk).1 hk (hop hk).2
      exact ⟨t', by rw [step, heq]; rfl, hwf, represents_insert hm hk hmem⟩
    obtain ⟨e', he', hkey⟩ : ∃ e', Cell.elem e' ∈ t.data ∧ T.extract e' = T.extract e := by
      push Not at hk
      exact hk
    -- a key that is there leaves table and map as they are
    obtain ⟨i, hi⟩ := mem_iff_getElem?.mp he'
    refine ⟨t, by rw [step, insertI_old hT h hi hkey]; rfl, h, ?_⟩
    have hne : m (T.extract e) ≠ none := fun hnone =>
      (hm.none_iff _).mp hnone e' he' hkey
    show Represents T t (FiniteMap.insertNew m (T.extract e) e)
    rw [FiniteMap.insertNew, if_neg hne]
    exact hm
  | erase k =>
    obtain ⟨t', n, heq, hwf, hmem⟩ := erase_wf hT h k
    exact ⟨t', by rw [step, heq]; rfl, hwf, represents_erase hm hmem⟩
  | eraseI idx =>
    obtain ⟨e, he⟩ := hop
    obtain ⟨prev, q, heq, hwf⟩ := eraseI_eq h he
    obtain ⟨t', hgc, hwf', hsame⟩ := gc_wf hwf
    refine ⟨t', heq.trans hgc, hwf', ?_⟩
    rw [mapStep, elemAt_eq_some_iff.mpr he]
    exact represents_erase hm (fun e' => (hsame e').trans (mem_freed h.toBase he e'))
  | eraseIf pred =>
    obtain ⟨t', n, heq, hwf, hmem⟩ := eraseIf_wf h pred
    exact ⟨t', by rw [step, heq]; rfl, hwf, represents_retain hm hmem⟩
  | noShrinkAfterEraseIf pred =>
    obtain ⟨t', n, heq, hwf, hmem⟩ := noShrinkAfterEraseIf_wf h pred
    exact ⟨t', by rw [step, heq]; rfl, hwf, represents_retain hm hmem⟩
  | revokeDeleted =>
    obtain ⟨t', n, heq, hwf, hsame⟩ := revokeDeleted_wf h
    exact ⟨t', by rw [step, heq]; rfl, hwf, hm.congr hsame⟩
  | rehash n =>
    obtain ⟨t', heq, hwf, hsame, -⟩ := rehash_wf h n
    exact ⟨t', by rw [step, heq]; rfl, hwf, hm.congr (fun e => by rw [hsame.data])⟩
  | reserve cap =>
    obtain ⟨t', heq, hwf, hdata⟩ := reserve_wf h hop.1 hop.2
    exact ⟨t', heq, hwf, hm.congr (fun e => by rw [hdata])⟩
  | eraseAll =>
    obtain ⟨t', heq, hwf, hdata⟩ := eraseAll_wf h
    refine ⟨t', heq, hwf, fun k e => ?_⟩
    rw [hdata]
    simp [mapStep]
  | copy =>
    obtain ⟨hwf, hdata⟩ := copy_wf h
    exact ⟨_, rfl, hwf, hm.congr (fun e => by rw [hdata])⟩
  | enableAutoGc enable => exact ⟨_, rfl, { h with }, hm⟩
  | enableFreelist enable => exact ⟨_, rfl, { h with }, hm⟩

/-- The table stands for the map: its size, its live elements, the answers of `find_i`, the
    chains of its buckets and its free list. -/
structure Agrees (T : Traits Key Elem) (t : Tab Elem) (m : Key → Option Elem) : Prop where
  size : t.size = FiniteMap.size m
  elems : ∀ k e, m k = some e ↔ (∃ i : Nat, t.data[i]? = some (.elem e)) ∧ T.extract e = k
  found : ∀ k e, m k = some e → ∃ i, findI T t k = some i ∧ t.data[i]? = some (.elem e) ∧
    ∀ (j : Nat) (e' : Elem), t.data[j]? = some (.elem e') → T.extract e' = k → j = i
  absent : ∀ k, m k = none → findI T t k = some t.nElem
  chains : ∀ b p : Nat, t.bucket[b]? = some p → ∃ l, Chain T.link.tail t.link p l ∧ l.Nodup ∧
    ∀ i, i ∈ l ↔ ∃ e, t.data[i]? = some (.elem e) ∧ T.hash (T.extract e) % t.nBucket = b
  slots : ∀ i : Nat, i < t.nElem →
    ((∃ e, t.data[i]? = some (.elem e)) ↔ t.link[i]? ≠ some T.link.delmark)
  free : ∃ l, Chain T.link.tail (nexts t.data) t.freelistHead l ∧ l.Nodup ∧
    l.length = t.freelistSize ∧ ∀ i, i ∈ l ↔ t.link[i]? = some T.link.delmark

/-- Deleted slots are those with the mark. -/
theorem deleted_iff (h : WellFormed T t) (i : Nat) :
    Deleted t i ↔ t.link[i]? = some T.link.delmark := by
  constructor
  · exact h.marked i
  · intro hmark
    rcases h.live_or_deleted (List.getElem_of_getElem? hmark).1 with hl | hd
    · exact absurd rfl (h.live_link hl hmark)
    · exact hd

/-- Well-formed tables answer as their map. -/
theorem agrees_of_wf [DecidableEq Key] (hT : Lawful T) (h : WellFormed T t)
    (hm : Represents T t m) : Agrees T t m := by
  refine { size := ?_, elems := fun k e => ?_, found := fun k e he => ?_,
           absent := fun k hk => ?_, chains := fun b p hp => ?_, slots := fun i hi => ?_,
           free := ?_ }
  · have hnodup : (t.elems.map T.extract).Nodup := by
      unfold List.Nodup Tab.elems
      rw [pairwise_map, pairwise_filterMap]
      exact h.keys.imp (fun hap e he e' he' => hap e e' (Cell.elem?_eq_some_iff.mp he)
        (Cell.elem?_eq_some_iff.mp he'))
    have hkeys : ∀ k, k ∈ t.elems.map T.extract ↔ m k ≠ none := by
      intro k
      rw [List.mem_map, ne_none_iff_exists']
      refine exists_congr (fun e => ?_)
      rw [mem_elems, hm k e]
    rw [FiniteMap.size_eq hnodup hkeys, length_map]
    unfold Tab.size
    rw [h.nElem_eq, Nat.add_sub_cancel_left]
  · rw [hm k e, mem_iff_getElem?]
  · obtain ⟨hmem, rfl⟩ := (hm k e).mp he
    obtain ⟨i, hi⟩ := mem_iff_getElem?.mp hmem
    refine ⟨i, findI_found hT h hi, hi, fun j e' hj hkey => ?_⟩
    exact h.key_unique hj hi hkey
  · exact findI_absent hT h ((hm.none_iff k).mp hk)
  · obtain ⟨l, hl, hnodup, hmem⟩ := h.chains b p hp
    refine ⟨l, hl, hnodup, fun i => ?_⟩
    rw [hmem i]
    constructor
    · rintro ⟨⟨e, he⟩, hplace⟩
      rw [place_eq he] at hplace
      exact ⟨e, he, hplace⟩
    · rintro ⟨e, he, hplace⟩
      exact ⟨⟨e, he⟩, (place_eq he).trans hplace⟩
  · rw [Ne, ← deleted_iff h i]
    constructor
    · exact fun hl hd => not_live_and_deleted hl hd
    · exact (h.live_or_deleted hi).resolve_right
  · obtain ⟨l, hl, hnodup, hlen, hmem⟩ := h.free
    exact ⟨l, hl, hnodup, hlen, fun i => (hmem i).trans (deleted_iff h i)⟩

/-- **GOLD_HASH_TAB IS A FINITE MAP**: every run of allowed operations is defined, and the table
    agrees with the map at its end. -/
theorem gold_hash_tab_refines_map [DecidableEq Key] (hT : Lawful T) (ops : List (Op Key Elem))
    (hok : ∀ k (hk : k < ops.length) s,
      Runs.run (stepBoth T) (init T, fun _ => none) (ops.take k) = some s →
        Allowed T s.1 ops[k]) :
    ∃ t m, Runs.run (stepBoth T) (init T, fun _ => none) ops = some (t, m) ∧ Agrees T t m := by
  have hinit : Represents T (init T : Tab Elem) (fun _ => none) := by
    intro k e
    simp [init]
  obtain ⟨⟨t, m⟩, hrun, hwf, hm⟩ := Runs.run_defined
    (fun s : Tab Elem × (Key → Option Elem) => WellFormed T s.1 ∧ Represents T s.1 s.2)
    (fun s op => Allowed T s.1 op) ⟨init_wf T, hinit⟩
    (fun s op hs hop => by
      obtain ⟨t', heq, hwf, hm⟩ := step_represents hT hs.1 hs.2 hop
      exact ⟨(t', mapStep T s.1 s.2 op), by rw [stepBoth, heq]; rfl, hwf, hm⟩) ops hok
  exact ⟨t, m, hrun, agrees_of_wf hT hwf hm⟩

/-- Numbers as keys and elements, with byte links. -/
def smallTraits : Traits Nat Nat where
  link := .u8
  hashBits := 64
  copy := .fast
  hash := fun k => k
  equal := fun a b => a == b
  extract := fun e => e

theorem smallTraits_lawful : Lawful smallTraits := ⟨fun _ _ => beq_iff_eq⟩

/-- Five calls on a table with byte links. -/
theorem gold_hash_tab_refines_map_small :
    ∃ t m, Runs.run (stepBoth smallTraits) (init smallTraits, fun _ => none)
      [.insertI 3, .insertI 8, .eraseI 0, .enableAutoGc true, .erase 8] = some (t, m) ∧
      Agrees smallTraits t m := by
  refine gold_hash_tab_refines_map smallTraits_lawful _ ?_
  rintro (_ | _ | _ | _ | _ | k) hk s hs
  · cases hs
    exact fun _ => ⟨show 3 < 2 ^ 64 by decide, .inr (.inr (by decide))⟩
  · cases hs
    exact fun _ => ⟨show 8 < 2 ^ 64 by decide, .inr (.inr (by decide))⟩
  · cases hs
    exact ⟨3, by decide⟩
  · trivial
  · trivial
  · exact absurd hk (by simp)

/-- A hash value of 33 bits with a `HashTp` of 32. -/
def wideTraits : Traits Nat Nat where
  link := .u32
  hashBits := 32
  copy := .fast
  hash := fun _ => 2 ^ 32
  equal := fun a b => a == b
  extract := fun e => e

/-- `rehash` moves the element to the bucket of its full hash value, where `find_i` does not
    look: the element is live but not found.  With byte links the 129th element is refused,
    since memory is reserved for twice as many, though 254 slots could be told. -/
theorem gold_hash_tab_no_map :
    (∃ t, Runs.run (step wideTraits) (init wideTraits) [.insertI 7, .rehash 11] = some t ∧
      t.elemAt 0 = some 7 ∧ findI wideTraits t 7 = some t.nElem) ∧
    (∃ t, Runs.run (step smallTraits) (init smallTraits) ((range 128).map .insertI) = some t ∧
      t.nElem = 128 ∧ smallTraits.link.delmark = 254 ∧
        step smallTraits t (.insertI 128) = none) := by
  have hfull : (Runs.run (step smallTraits) (init smallTraits) ((range 128).map .insertI)).any
      (fun t => decide (t.nElem = 128 ∧ step smallTraits t (.insertI 128) = none)) = true := by
    decide +kernel
  obtain ⟨t, ht, hlast⟩ := (any_eq_true _ _).mp hfull
  obtain ⟨hn, hnone⟩ := of_decide_eq_true hlast
  refine ⟨⟨_, rfl, ?_, ?_⟩, t, ht, hn, rfl, hnone⟩
  · decide +kernel
  · decide +kernel

end GoldHash
