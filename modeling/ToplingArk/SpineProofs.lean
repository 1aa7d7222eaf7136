import ToplingArk.DfaProofs

/-! # An automaton with one open word

    An acyclic automaton is built from sorted words with all states in layers, except for
    the states that the last word leads through.  These are not shared, and the letters of
    the last word are the largest ones at each of them.  Here is what the four moves of such
    a construction do: the last open state joins the layers or is replaced by a state of the
    same data, the open word gets one more letter, and its end becomes final. -/

namespace Dfa

open List Option Function Finset Nat

variable {S A : Type} [LinearOrder A] {M : Pdfa S A} {regs : List S} {word : List A} {n m : Nat}
  {p : Nat → S} {c : A}

/-- The layers, and the states `p 0, …, p n` along the first `n` letters of the word. -/
structure Spine (M : Pdfa S A) (regs : List S) (word : List A) (n : Nat) (p : Nat → S) :
    Prop where
  nodup : regs.Nodup
  layered : Layered M regs
  live : ∀ r ∈ regs, M.final r = true ∨ ∃ c t, M.next r c = some t
  data : ∀ s t, s ∈ regs → t ∈ regs → M.final s = M.final t → M.next s = M.next t → s = t
  inj : ∀ i j, i ≤ n → j ≤ n → p i = p j → i = j
  fresh : ∀ i, i ≤ n → p i ∉ regs
  le : n ≤ word.length
  edge : ∀ i c, i < n → word[i]? = some c → M.next (p i) c = some (p (i + 1)) ∧
    ∀ d t, M.next (p i) d = some t → d ≤ c ∧ (d ≠ c → t ∈ regs)
  tip : ∀ d t, M.next (p n) d = some t → t ∈ regs ∧ ∃ c, word[n]? = some c ∧ d ≤ c
  reach : ∀ r ∈ regs, ∃ u, M.walk (p 0) u = some r

/-! ## Walks -/

variable {i : Nat} {t : S} {str u : List A} {W : List (List A)}

section

variable (h : Spine M regs word n p) {d : A}

include h

theorem Spine.letter (hi : i < n) : ∃ c, word[i]? = some c :=
  ⟨_, getElem?_eq_getElem (hi.trans_le h.le)⟩

theorem Spine.ne_of_mem {r : S} (hr : r ∈ regs) (hi : i ≤ n) : r ≠ p i :=
  fun heq => h.fresh i hi (heq ▸ hr)

theorem Spine.open_ne {j : Nat} (hij : i < j) (hj : j ≤ n) : p i ≠ p j :=
  fun heq => Nat.ne_of_lt hij (h.inj i j (hij.le.trans hj) hj heq)

/-- The spine is the walk along the word. -/
theorem Spine.walk_take (hi : i ≤ n) : M.walk (p 0) (word.take i) = some (p i) := by
  induction i with
  | zero => rfl
  | succ i ih =>
    obtain ⟨c, hc⟩ := h.letter hi
    rw [take_add_one, hc, toList_some, walk_snoc, ih (le_of_lt hi)]
    exact (h.edge i c hi hc).1

/-- The letters at an open state are not behind the letter of the word. -/
theorem Spine.le_letter (hi : i ≤ n) (hd : M.next (p i) d = some t) :
    ∃ c, word[i]? = some c ∧ d ≤ c := by
  rcases lt_or_eq_of_le hi with hlt | rfl
  · obtain ⟨c, hc⟩ := h.letter hlt
    exact ⟨c, hc, ((h.edge i c hlt hc).2 d t hd).1⟩
  · exact (h.tip d t hd).2

/-- The next state of an open state. -/
theorem Spine.next_cases (hi : i ≤ n) (hd : M.next (p i) d = some t) :
    t ∈ regs ∨ (i < n ∧ word[i]? = some d ∧ t = p (i + 1)) := by
  rcases lt_or_eq_of_le hi with hlt | rfl
  · obtain ⟨c, hc⟩ := h.letter hlt
    obtain ⟨hedge, hother⟩ := h.edge i c hlt hc
    by_cases hdc : d = c
    · subst hdc
      exact .inr ⟨hlt, hc, mem_unique hd hedge⟩
    · exact .inl ((hother d t hd).2 hdc)
  · exact .inl (h.tip d t hd).1

/-- Every word leads into the layers or along the open word. -/
theorem Spine.walk_cases (hw : M.walk (p 0) u = some t) :
    t ∈ regs ∨ ∃ i ≤ n, u = word.take i ∧ t = p i := by
  induction u using reverseRecOn generalizing t with
  | nil => exact .inr ⟨0, zero_le n, rfl, (some.inj hw).symm⟩
  | append_singleton u d ih =>
    rw [walk_snoc] at hw
    obtain ⟨r, hr, hd⟩ := bind_eq_some_iff.mp hw
    rcases ih hr with hreg | ⟨i, hi, rfl, rfl⟩
    · exact .inl (h.layered.closed r d t hreg hd)
    rcases h.next_cases hi hd with hreg | ⟨hlt, hc, rfl⟩
    · exact .inl hreg
    · refine .inr ⟨i + 1, hlt, ?_, rfl⟩
      rw [take_add_one, hc, toList_some]

/-- The layers and the open states. -/
def Inside (regs : List S) (n : Nat) (p : Nat → S) (s : S) : Prop := s ∈ regs ∨ ∃ i ≤ n, s = p i

/-- Registered states and the spine lead nowhere else. -/
theorem Spine.closed : Closed M (Inside regs n p) := by
  rintro s c t (hs | ⟨i, hi, rfl⟩) ht
  · exact .inl (h.layered.closed s c t hs ht)
  · rcases h.next_cases hi ht with hreg | ⟨hlt, -, rfl⟩
    · exact .inl hreg
    · exact .inr ⟨i + 1, hlt, rfl⟩

end

/-! ## The moves -/

/-- The last open state joins the layers. -/
theorem Spine.register (h : Spine M regs word (n + 1) p)
    (hlive : M.final (p (n + 1)) = true ∨ ∃ c t, M.next (p (n + 1)) c = some t)
    (hnew : ∀ y ∈ regs, M.final (p (n + 1)) = M.final y → M.next (p (n + 1)) ≠ M.next y) :
    Spine M (p (n + 1) :: regs) word n p := by
  have hn : ∀ {i}, i ≤ n → i ≤ n + 1 := fun hi => le_succ_of_le hi
  obtain ⟨c, hc⟩ := h.letter (lt_succ_self n)
  obtain ⟨hedge, hother⟩ := h.edge n c (lt_succ_self n) hc
  refine { nodup := nodup_cons.mpr ⟨h.fresh _ le_rfl, h.nodup⟩,
           layered := ⟨fun d t ht => (h.tip d t ht).1, h.layered⟩, live := ?_, data := ?_,
           inj := fun i j hi hj => h.inj i j (hn hi) (hn hj), fresh := fun i hi => ?_,
           le := le_of_succ_le h.le, edge := fun i d hi hd => ?_, tip := fun d t hd => ?_,
           reach := ?_ }
  · intro r hr
    rcases mem_cons.mp hr with rfl | hr
    · exact hlive
    · exact h.live r hr
  -- two registered states with the same data: the new one has the data of none
  · intro s t hs ht hfinal hnext
    rcases mem_cons.mp hs with rfl | hs <;> rcases mem_cons.mp ht with rfl | ht
    · rfl
    · exact absurd hnext (hnew t ht hfinal)
    · exact absurd hnext.symm (hnew s hs hfinal.symm)
    · exact h.data s t hs ht hfinal hnext
  · rw [List.mem_cons, not_or]
    exact ⟨h.open_ne (lt_succ_of_le hi) le_rfl, h.fresh i (hn hi)⟩
  · obtain ⟨hnext, hrest⟩ := h.edge i d (lt_succ_of_lt hi) hd
    exact ⟨hnext, fun e t he => ⟨(hrest e t he).1,
      fun hne => mem_cons_of_mem _ ((hrest e t he).2 hne)⟩⟩
  -- the new tip leads to the state just registered
  · refine ⟨?_, c, hc, (hother d t hd).1⟩
    by_cases hdc : d = c
    · subst hdc
      exact mem_cons.mpr (.inl (mem_unique hd hedge))
    · exact mem_cons_of_mem _ ((hother d t hd).2 hdc)
  · intro r hr
    rcases mem_cons.mp hr with rfl | hr
    · exact ⟨_, h.walk_take le_rfl⟩
    · exact h.reach r hr

/-- The last open state is replaced by a state of the layers with the same data. -/
theorem Spine.merge (h : Spine M regs word (n + 1) p) (M' : Pdfa S A) (hc : word[n]? = some c)
    {y : S} (hy : y ∈ regs) (hfinal : M.final (p (n + 1)) = M.final y)
    (hnext : M.next (p (n + 1)) = M.next y) (hfinal' : ∀ x, x ≠ p (n + 1) → M'.final x = M.final x)
    (hnext' : ∀ x, x ≠ p n → x ≠ p (n + 1) → M'.next x = M.next x)
    (hedge' : M'.next (p n) = update (M.next (p n)) c (some y)) :
    Spine M' regs word n p ∧ M'.accepts (p 0) = M.accepts (p 0) := by
  have hn : ∀ {i}, i ≤ n → i ≤ n + 1 := fun hi => le_succ_of_le hi
  have hreg : ∀ r ∈ regs, r ≠ p (n + 1) := fun r hr => h.ne_of_mem hr le_rfl
  have hopen : ∀ i, i ≤ n → p i ≠ p (n + 1) :=
    fun i hi => h.open_ne (lt_succ_of_le hi) le_rfl
  have hregs : ∀ r ∈ regs, M'.next r = M.next r :=
    fun r hr => hnext' r (h.ne_of_mem hr (le_succ n)) (hreg r hr)
  have hopens : ∀ i, i < n → M'.next (p i) = M.next (p i) :=
    fun i hi => hnext' _ (h.open_ne hi (le_succ n)) (hopen i hi.le)
  obtain ⟨hedge, hother⟩ := h.edge n c (lt_succ_self n) hc
  -- every state corresponds to itself, and the replaced state to its replacement
  let R : S → S → Prop := fun x x' =>
    (x = x' ∧ Inside regs n p x) ∨ (x = p (n + 1) ∧ x' = y)
  have hRreg : ∀ r ∈ regs, R r r := fun r hr => .inl ⟨rfl, .inl hr⟩
  have hRfinal : ∀ x x', R x x' → M.final x = M'.final x' := by
    rintro x x' (⟨rfl, hr | ⟨i, hi, rfl⟩⟩ | ⟨rfl, rfl⟩)
    · exact (hfinal' x (hreg x hr)).symm
    · exact (hfinal' _ (hopen i hi)).symm
    · rw [hfinal' x' (hreg x' hy), hfinal]
  have hRnext : ∀ x x' d, R x x' → Option.Rel R (M.next x d) (M'.next x' d) := by
    rintro x x' d (⟨rfl, hr | ⟨i, hi, rfl⟩⟩ | ⟨rfl, rfl⟩)
    · rw [hregs x hr]
      cases ht : M.next x d with
      | none => exact .none
      | some t => exact .some (hRreg t (h.layered.closed x d t hr ht))
    · rcases lt_or_eq_of_le hi with hlt | rfl
      · rw [hopens i hlt]
        cases ht : M.next (p i) d with
        | none => exact .none
        | some t =>
          rcases h.next_cases (hn hi) ht with hr | ⟨-, -, rfl⟩
          · exact .some (hRreg t hr)
          · exact .some (.inl ⟨rfl, .inr ⟨i + 1, hlt, rfl⟩⟩)
      rw [hedge']
      by_cases hdc : d = c
      · rw [hdc, hedge, update_self]
        exact .some (.inr ⟨rfl, rfl⟩)
      · rw [update_of_ne hdc]
        cases ht : M.next (p i) d with
        | none => exact .none
        | some t => exact .some (hRreg t ((hother d t ht).2 hdc))
    · rw [hregs x' hy, ← hnext]
      cases ht : M.next (p (n + 1)) d with
      | none => exact .none
      | some t => exact .some (hRreg t (h.tip d t ht).1)
  have hroot : R (p 0) (p 0) := .inl ⟨rfl, .inr ⟨0, zero_le n, rfl⟩⟩
  refine ⟨?_, (accepts_eq_of_related hRfinal hRnext hroot).symm⟩
  refine { nodup := h.nodup, layered := h.layered.congr hregs, live := ?_, data := ?_,
           inj := fun i j hi hj => h.inj i j (hn hi) (hn hj),
           fresh := fun i hi => h.fresh i (hn hi), le := le_of_succ_le h.le,
           edge := fun i d hi hd => ?_, tip := fun d t hd => ?_, reach := ?_ }
  · intro r hr
    rw [hfinal' r (hreg r hr), hregs r hr]
    exact h.live r hr
  · intro s t hs ht
    rw [hfinal' s (hreg s hs), hfinal' t (hreg t ht), hregs s hs, hregs t ht]
    exact h.data s t hs ht
  · rw [hopens i hi]
    exact h.edge i d (lt_succ_of_lt hi) hd
  · rw [hedge'] at hd
    by_cases hdc : d = c
    · subst hdc
      rw [update_self] at hd
      exact ⟨some.inj hd ▸ hy, d, hc, le_refl d⟩
    · rw [update_of_ne hdc] at hd
      exact ⟨(hother d t hd).2 hdc, c, hc, (hother d t hd).1⟩
  · intro r hr
    obtain ⟨u, hu⟩ := h.reach r hr
    obtain ⟨r', hr', hrel⟩ := walk_related hRnext hroot hu
    rcases hrel with ⟨rfl, -⟩ | ⟨heq, -⟩
    · exact ⟨u, hr'⟩
    · exact absurd heq (hreg r hr)

/-- The open word gets one more letter. -/
theorem Spine.extend (h : Spine M regs word n p) (M' : Pdfa S A) (hc : word[n]? = some c)
    (hlt : ∀ d t, M.next (p n) d = some t → d < c) {x : S} (hx : ¬ Inside regs n p x)
    (hfinal' : ∀ s, s ≠ x → M'.final s = M.final s) (hdead : M'.final x = false)
    (hend : ∀ d, M'.next x d = none) (hnext' : ∀ s, s ≠ p n → s ≠ x → M'.next s = M.next s)
    (hedge' : M'.next (p n) = update (M.next (p n)) c (some x)) :
    Spine M' regs word (n + 1) (update p (n + 1) x) ∧
      M'.accepts (p 0) = M.accepts (p 0) := by
  unfold Inside at hx
  rw [not_or] at hx
  obtain ⟨hxreg, hxopen⟩ := hx
  have hpx : ∀ i, i < n + 1 → p i ≠ x := fun i hi heq => hxopen ⟨i, le_of_lt_succ hi, heq.symm⟩
  have hreg : ∀ r ∈ regs, r ≠ x := fun r hr heq => hxreg (heq ▸ hr)
  have hold : ∀ i, i < n + 1 → update p (n + 1) x i = p i :=
    fun i hi => update_of_ne hi.ne _ _
  have hregs : ∀ r ∈ regs, M'.next r = M.next r :=
    fun r hr => hnext' r (h.ne_of_mem hr le_rfl) (hreg r hr)
  have hopens : ∀ i, i < n → M'.next (p i) = M.next (p i) :=
    fun i hi => hnext' _ (h.open_ne hi le_rfl) (hpx i (lt_succ_of_lt hi))
  -- no letter of the tip is lost, and the new one leads to a state that accepts nothing
  have hkeep : ∀ s d t, Inside regs n p s → M.next s d = some t → M'.next s d = some t := by
    rintro s d t (hs | ⟨i, hi, rfl⟩) ht
    · rw [hregs s hs, ht]
    · rcases lt_or_eq_of_le hi with hlt' | rfl
      · rw [hopens i hlt', ht]
      · rw [hedge', update_of_ne (ne_of_lt (hlt d t ht)), ht]
  have hsame : ∀ s, Inside regs n p s → M'.final s = M.final s := by
    rintro s (hs | ⟨i, hi, rfl⟩)
    · exact hfinal' s (hreg s hs)
    · exact hfinal' _ (hpx i (lt_succ_of_le hi))
  have haccepts : ∀ s, Inside regs n p s → ∀ w, M'.accepts s w = M.accepts s w := by
    intro s hs w
    induction w generalizing s with
    | nil => exact hsame s hs
    | cons d w ih =>
      cases ht : M.next s d with
      | some t =>
        rw [accepts_cons_some ht, accepts_cons_some (hkeep s d t hs ht)]
        exact ih t (h.closed s d t hs ht)
      | none =>
        rw [accepts_cons_none ht]
        rcases hs with hs | ⟨i, hi, rfl⟩
        · rw [accepts_cons_none]
          rw [hregs s hs, ht]
        rcases lt_or_eq_of_le hi with hlt' | rfl
        · rw [accepts_cons_none]
          rw [hopens i hlt', ht]
        by_cases hdc : d = c
        · rw [accepts_cons_some (t := x)]
          · cases w with
            | nil => exact hdead
            | cons e w => exact accepts_cons_none (hend e) w
          · rw [hedge', hdc, update_self]
        · rw [accepts_cons_none]
          rw [hedge', update_of_ne hdc, ht]
  have hwalk : ∀ u s t, Inside regs n p s → M.walk s u = some t → M'.walk s u = some t := by
    intro u
    induction u with
    | nil => exact fun s t _ hw => hw
    | cons d u ih =>
      intro s t hs hw
      obtain ⟨r, hr, hw⟩ := bind_eq_some_iff.mp hw
      show (M'.next s d).bind _ = some t
      rw [hkeep s d r hs hr]
      exact ih r t (h.closed s d r hs hr) hw
  have hroot : Inside regs n p (p 0) := .inr ⟨0, zero_le n, rfl⟩
  refine ⟨?_, funext (haccepts _ hroot)⟩
  have hle : n + 1 ≤ word.length := (List.getElem_of_getElem? hc).1
  refine { nodup := h.nodup, layered := h.layered.congr hregs, live := ?_, data := ?_, inj := ?_,
           fresh := fun i hi => ?_, le := hle, edge := fun i d hi hd => ?_,
           tip := fun d t hd => ?_, reach := ?_ }
  · intro r hr
    rw [hfinal' r (hreg r hr), hregs r hr]
    exact h.live r hr
  · intro s t hs ht
    rw [hfinal' s (hreg s hs), hfinal' t (hreg t ht), hregs s hs, hregs t ht]
    exact h.data s t hs ht
  · intro i j hi hj heq
    rcases lt_or_eq_of_le hi with hi | rfl <;> rcases lt_or_eq_of_le hj with hj | rfl
    · rw [hold i hi, hold j hj] at heq
      exact h.inj i j (le_of_lt_succ hi) (le_of_lt_succ hj) heq
    · rw [hold i hi, update_self] at heq
      exact absurd heq (hpx i hi)
    · rw [hold j hj, update_self] at heq
      exact absurd heq.symm (hpx j hj)
    · rfl
  · rcases lt_or_eq_of_le hi with hi | rfl
    · rw [hold i hi]
      exact h.fresh i (le_of_lt_succ hi)
    · rw [update_self]
      exact hxreg
  · rw [hold i hi]
    rcases lt_or_eq_of_le (le_of_lt_succ hi) with hlt' | rfl
    · rw [hold (i + 1) (succ_lt_succ hlt'), hopens i hlt']
      exact h.edge i d hlt' hd
    · obtain rfl := mem_unique hc hd
      rw [update_self, hedge']
      refine ⟨update_self _ _ _, fun e t he => ?_⟩
      by_cases hec : e = c
      · exact ⟨hec.le, fun hne => absurd hec hne⟩
      · rw [update_of_ne hec] at he
        exact ⟨le_of_lt (hlt e t he), fun _ => (h.tip e t he).1⟩
  · rw [update_self, hend] at hd
    cases hd
  · intro r hr
    obtain ⟨u, hu⟩ := h.reach r hr
    exact ⟨u, hwalk u _ r hroot hu⟩

/-- The end of the open word becomes final. -/
theorem Spine.finish (h : Spine M regs word n p) (M' : Pdfa S A) (hn : n = word.length)
    (hfinal' : ∀ s, s ≠ p n → M'.final s = M.final s) (hend : M'.final (p n) = true)
    (hnext' : ∀ s, M'.next s = M.next s) :
    Spine M' regs word n p ∧
      ∀ w, M'.accepts (p 0) w = (M.accepts (p 0) w || decide (w = word)) := by
  have hreg : ∀ r ∈ regs, M'.final r = M.final r :=
    fun r hr => hfinal' r (h.ne_of_mem hr le_rfl)
  have hopen : ∀ i, i < n → M'.final (p i) = M.final (p i) :=
    fun i hi => hfinal' _ (h.open_ne hi le_rfl)
  have hlayers : ∀ r ∈ regs, M'.accepts r = M.accepts r :=
    fun r hr => accepts_congr h.layered.closed hreg (fun s _ => hnext' s) hr
  have hwalk : ∀ u s, M'.walk s u = M.walk s u := by
    intro u
    induction u with
    | nil => exact fun _ => rfl
    | cons d u ih =>
      intro s
      show (M'.next s d).bind _ = (M.next s d).bind _
      rw [hnext' s]
      exact congrArg _ (funext ih)
  refine ⟨?_, fun w => ?_⟩
  · refine { nodup := h.nodup, layered := h.layered.congr (fun r _ => hnext' r), live := ?_,
             data := ?_, inj := h.inj, fresh := h.fresh, le := h.le, edge := fun i c hi hc => ?_,
             tip := fun d t hd => ?_, reach := fun r hr => ?_ }
    · intro r hr
      rw [hreg r hr, hnext' r]
      exact h.live r hr
    · intro s t hs ht
      rw [hreg s hs, hreg t ht, hnext' s, hnext' t]
      exact h.data s t hs ht
    · rw [hnext' (p i)]
      exact h.edge i c hi hc
    · rw [hnext' (p n)] at hd
      exact h.tip d t hd
    · obtain ⟨u, hu⟩ := h.reach r hr
      exact ⟨u, (hwalk u _).trans hu⟩
  have hhead : ∀ i d w, d :: w = word.drop i →
      M.next (p i) d = some (p (i + 1)) ∧ i < n := by
    intro i d w heq
    have hd : word[i]? = some d := by
      rw [← head?_drop, ← heq]
      rfl
    have hlt : i < n := hn ▸ (List.getElem_of_getElem? hd).1
    exact ⟨(h.edge i d hlt hd).1, hlt⟩
  -- at every open state the rest of the word is accepted in addition
  have hrest : ∀ (w : List A) (i : Nat), i ≤ n →
      M'.accepts (p i) w = (M.accepts (p i) w || decide (w = word.drop i)) := by
    intro w
    induction w with
    | nil =>
      intro i hi
      show M'.final (p i) = (M.final (p i) || _)
      rcases lt_or_eq_of_le hi with hlt | rfl
      · have hne : ¬ [] = word.drop i := by
          intro heq
          have := congrArg length heq
          rw [length_drop, length_nil] at this
          omega
        rw [hopen i hlt, decide_eq_false hne, Bool.or_false]
      · rw [hend, hn, drop_length, decide_eq_true rfl, Bool.or_true]
    | cons d w ih =>
      intro i hi
      cases ht : M.next (p i) d with
      | none =>
        rw [accepts_cons_none ht, accepts_cons_none ((congrFun (hnext' _) d).trans ht)]
        refine (decide_eq_false (fun heq => ?_)).symm
        rw [(hhead i d w heq).1] at ht
        cases ht
      | some t =>
        rw [accepts_cons_some ht, accepts_cons_some ((congrFun (hnext' _) d).trans ht)]
        rcases h.next_cases hi ht with hr | ⟨hlt, hc, rfl⟩
        · have hne : ¬ d :: w = word.drop i := by
            intro heq
            obtain ⟨hnext, hlt⟩ := hhead i d w heq
            rw [ht] at hnext
            exact h.fresh (i + 1) hlt (some.inj hnext ▸ hr)
          rw [hlayers t hr, decide_eq_false hne, Bool.or_false]
        · obtain ⟨hlen, hget⟩ := List.getElem_of_getElem? hc
          rw [ih (i + 1) hlt, drop_eq_getElem_cons hlen, hget]
          congr 1
          exact decide_eq_decide.mpr ⟨fun heq => heq ▸ rfl, fun heq => (cons.inj heq).2⟩
  have := hrest w 0 (zero_le n)
  rwa [drop_zero] at this

/-! ## Suffix sets -/

/-- What can follow the beginnings of the words, for those that are no beginning of `str`. -/
def suffixSets (W : List (List A)) (str : List A) : Set (List A → Bool) :=
  {f | ∃ u, (∃ w ∈ W, u <+: w) ∧ ¬ u <+: str ∧ f = fun x => decide (u ++ x ∈ W)}

/-- The string follows the word for `n` letters and goes on behind it in order. -/
structure Diverges (word str : List A) (n : Nat) : Prop where
  same : ∀ i, i < n → str[i]? = word[i]?
  later : ∀ c c', word[n]? = some c' → str[n]? = some c → c' < c

theorem Diverges.take_eq (h : Diverges word str n) (hi : i ≤ n) : str.take i = word.take i := by
  refine ext_getElem? (fun j => ?_)
  rw [getElem?_take, getElem?_take]
  by_cases hj : j < i
  · rw [if_pos hj, if_pos hj]
    exact h.same j (hj.trans_le hi)
  · rw [if_neg hj, if_neg hj]

/-- A word and its own beginning. -/
theorem Diverges.take (word : List A) (n : Nat) : Diverges word (word.take n) n where
  same := fun i hi => by rw [getElem?_take, if_pos hi]
  later := fun c c' _ hc => by
    rw [getElem?_take, if_neg (lt_irrefl n)] at hc
    cases hc

/-- A beginning of the string that leads somewhere is a beginning of the open word. -/
theorem Spine.take_of_walk (h : Spine M regs word n p) (hm : m ≤ n) (hd : Diverges word str m)
    (hw : M.walk (p 0) u = some t) (hu : u <+: str) : ∃ i ≤ m, u = word.take i ∧ t = p i := by
  have hustr : u = str.take u.length := prefix_iff_eq_take.mp hu
  by_cases hlen : u.length ≤ m
  · rw [hd.take_eq hlen] at hustr
    refine ⟨u.length, hlen, hustr, ?_⟩
    rw [hustr, h.walk_take (hlen.trans hm)] at hw
    exact (some.inj hw).symm
  -- the letter behind the common part leads nowhere
  have hlt : m < u.length := not_le.mp hlen
  obtain ⟨c, hc⟩ : ∃ c, u[m]? = some c := ⟨_, getElem?_eq_getElem hlt⟩
  obtain ⟨v, rfl⟩ := hu
  have hstr : (u ++ v)[m]? = some c := by
    rw [getElem?_append_left hlt, hc]
  have htake : u.take m = word.take m := by
    rw [← hd.take_eq le_rfl, take_append_of_le_length hlt.le]
  have hsplit : u = (word.take m ++ [c]) ++ u.drop (m + 1) := by
    have hsucc : u.take (m + 1) = word.take m ++ [c] := by
      rw [take_add_one, htake, hc, toList_some]
    rw [← hsucc, take_append_drop]
  rw [hsplit, walk_append, walk_snoc, h.walk_take hm] at hw
  obtain ⟨r, hr, -⟩ := bind_eq_some_iff.mp hw
  obtain ⟨c', hc', hle⟩ := h.le_letter hm hr
  exact absurd (hd.later _ c' hc' hstr) (not_lt_of_ge hle)

/-- A beginning of an accepted word leads to the state that accepts its rests. -/
theorem walk_of_words {s : S} (hW : ∀ w, M.accepts s w = decide (w ∈ W)) {w : List A} (hw : w ∈ W)
    (hu : u <+: w) : ∃ t, M.walk s u = some t ∧ M.accepts t = fun x => decide (u ++ x ∈ W) := by
  obtain ⟨v, rfl⟩ := hu
  have hacc : M.accepts s (u ++ v) = true := (hW _).trans (decide_eq_true hw)
  have hwalk : ∃ t, M.walk s u = some t := walk_of_accepts hacc
  obtain ⟨t, ht⟩ := hwalk
  refine ⟨t, ht, funext (fun x => ?_)⟩
  rw [← accepts_append ht x]
  exact hW _

/-- **AS MANY LAYERED STATES AS SUFFIX SETS**: the layers hold one state for every suffix set
    of the beginnings that the string has left behind. -/
theorem Spine.ncard_suffixSets (h : Spine M regs word n p)
    (hW : ∀ w, M.accepts (p 0) w = decide (w ∈ W)) (hd : Diverges word str n) :
    (suffixSets W str).ncard = regs.length := by
  refine ncard_languages (M := M) h.nodup
    (fun s t hs ht heq => h.layered.eq_of_accepts_eq h.nodup h.live h.data hs ht heq)
    (fun f => ?_)
  constructor
  · rintro ⟨u, ⟨w, hw, hu⟩, hnot, rfl⟩
    obtain ⟨t, ht, hacc⟩ := walk_of_words hW hw hu
    refine ⟨t, ?_, hacc⟩
    rcases h.walk_cases ht with hreg | ⟨i, hi, rfl, -⟩
    · exact hreg
    · refine absurd ?_ hnot
      rw [← hd.take_eq hi]
      exact take_prefix i str
  rintro ⟨s, hs, rfl⟩
  obtain ⟨u, hu⟩ := h.reach s hs
  obtain ⟨x, hx⟩ := h.layered.live h.live s hs
  have hmem : u ++ x ∈ W := by
    have := hW (u ++ x)
    rw [accepts_append hu, hx] at this
    exact of_decide_eq_true this.symm
  refine ⟨u, ⟨u ++ x, hmem, prefix_append u x⟩, fun hpre => ?_, funext (fun y => ?_)⟩
  · obtain ⟨i, hi, -, rfl⟩ := h.take_of_walk le_rfl hd hu hpre
    exact h.fresh i hi hs
  · rw [← accepts_append hu]
    exact hW _

/-- With less of the word left open there are more suffix sets. -/
theorem Spine.suffixSets_subset (h : Spine M regs word n p)
    (hW : ∀ w, M.accepts (p 0) w = decide (w ∈ W)) (hm : m ≤ n) (hd : Diverges word str m) :
    suffixSets W (word.take n) ⊆ suffixSets W str := by
  rintro f ⟨u, ⟨w, hw, hu⟩, hnot, rfl⟩
  refine ⟨u, ⟨w, hw, hu⟩, fun hpre => hnot ?_, rfl⟩
  obtain ⟨t, ht, -⟩ := walk_of_words hW hw hu
  obtain ⟨i, hi, rfl, -⟩ := h.take_of_walk hm hd ht hpre
  exact take_prefix_take_left (hi.trans hm)

/-- No more suffix sets than letters. -/
theorem suffixSets_le (W : List (List A)) (str : List A) :
    (suffixSets W str).Finite ∧ (suffixSets W str).ncard ≤ (W.map length).sum := by
  classical
  let l : List (List A) := W.flatMap (fun w => (List.range w.length).map (fun i => w.take (i + 1)))
  let rests : List A → List A → Bool := fun u x => decide (u ++ x ∈ W)
  have hsub : suffixSets W str ⊆ ((l.map rests).toFinset : Set (List A → Bool)) := by
    rintro f ⟨u, ⟨w, hw, hu⟩, hnot, rfl⟩
    have hpos : 0 < u.length := by
      refine length_pos_iff.mpr ?_
      rintro rfl
      exact hnot nil_prefix
    rw [mem_coe, List.mem_toFinset, List.mem_map]
    refine ⟨u, mem_flatMap.mpr ⟨w, hw, mem_map.mpr ⟨u.length - 1, ?_, ?_⟩⟩, rfl⟩
    · have hle := hu.length_le
      rw [List.mem_range]
      omega
    · rw [Nat.sub_add_cancel hpos]
      exact (prefix_iff_eq_take.mp hu).symm
  refine ⟨(Finset.finite_toSet _).subset hsub, ?_⟩
  calc (suffixSets W str).ncard ≤ ((l.map rests).toFinset : Set (List A → Bool)).ncard :=
        Set.ncard_le_ncard hsub (Finset.finite_toSet _)
    _ = (l.map rests).toFinset.card := Set.ncard_coe_finset _
    _ ≤ (l.map rests).length := toFinset_card_le _
    _ = (W.map length).sum := by
        rw [length_map, length_flatMap]
        refine congrArg sum (map_congr_left (fun w _ => ?_))
        rw [length_map, length_range]

end Dfa
