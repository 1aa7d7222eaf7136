import Mathlib.Data.List.Induction

/-! # Runs of a partial step function against an abstract model

    A machine takes operations one after another; a step may be undefined.  An
    abstract model takes the same operations and is always defined.  When for
    every single step "the step is defined and leads to agreeing states" is the
    same as a condition on the concrete state before the step, then for a whole
    run "all states along the run agree" is the same as "the condition holds
    before every step". -/

namespace Runs

open List Option

variable {S A O : Type} (step : S → O → Option S) {Inv : S → Prop} {k : Nat} {Ok : S → O → Prop}
  {spec : A → O → A} {Rel : S → A → Prop}

/-- The state after the operations, if every step was defined. -/
def run (s : S) (ops : List O) : Option S :=
  ops.foldl (fun acc op => acc.bind (fun t => step t op)) (some s)

/-- The abstract state after the operations. -/
def absRun (spec : A → O → A) (a : A) (ops : List O) : A := ops.foldl spec a

/-- A run in two parts. -/
theorem run_append (s : S) (ops rest : List O) :
    run step s (ops ++ rest) = (run step s ops).bind (fun t => run step t rest) := by
  unfold run
  rw [foldl_append]
  cases foldl _ (some s) ops with
  | some t => rfl
  | none =>
    -- a run that has stopped does not go on
    induction rest with
    | nil => rfl
    | cons op rest ih => exact ih

/-- A run and one more call. -/
theorem run_snoc (s : S) (ops : List O) (op : O) :
    run step s (ops ++ [op]) = (run step s ops).bind (fun t => step t op) :=
  run_append step s ops [op]

theorem absRun_snoc (spec : A → O → A) (a : A) (ops : List O) (op : O) :
    absRun spec a (ops ++ [op]) = spec (absRun spec a ops) op := by
  unfold absRun
  rw [foldl_append]
  rfl

variable {s : S} {ops : List O} {Adm : A → O → Prop} {a : A}

/-- What every step keeps holds after every run. -/
theorem run_invariant {step : S → O → Option S} (h0 : Inv s)
    (hstep : ∀ t op t', Inv t → step t op = some t' → Inv t') :
    ∀ ops t, run step s ops = some t → Inv t := by
  intro ops
  induction ops using reverseRecOn with
  | nil =>
    intro t ht
    rw [← some.inj ht]
    exact h0
  | append_singleton ops op ih =>
    intro t' ht
    rw [run_snoc] at ht
    obtain ⟨t, ht1, ht2⟩ := bind_eq_some_iff.mp ht
    exact hstep t op t' (ih t ht1) ht2

/-- A run whose steps are all defined is defined. -/
theorem run_total {step : S → O → Option S} (h : ∀ s, ∀ op ∈ ops, ∃ t, step s op = some t) (s : S) :
    ∃ t, run step s ops = some t := by
  induction ops using reverseRecOn with
  | nil => exact ⟨s, rfl⟩
  | append_singleton ops op ih =>
    obtain ⟨t, ht⟩ := ih (fun s op hop => h s op (mem_append_left _ hop))
    obtain ⟨t', ht'⟩ := h t op (mem_append_right _ (mem_singleton_self op))
    exact ⟨t', by rw [run_snoc, ht, bind_some, ht']⟩

/-- When every step that meets a condition is defined and keeps the invariant, a run whose
    steps all meet the condition is defined and keeps the invariant. -/
theorem run_defined {step : S → O → Option S} (Inv : S → Prop) (Ok : S → O → Prop) (h0 : Inv s)
    (hstep : ∀ t op, Inv t → Ok t op → ∃ t', step t op = some t' ∧ Inv t') (ops : List O)
    (hok : ∀ k (h : k < ops.length) t, run step s (ops.take k) = some t → Ok t ops[k]) :
    ∃ t, run step s ops = some t ∧ Inv t := by
  induction ops using reverseRecOn with
  | nil => exact ⟨s, rfl, h0⟩
  | append_singleton ops op ih =>
    obtain ⟨t, ht, hinv⟩ := ih (fun k hk t ht => by
      have := hok k (Nat.lt_of_lt_of_le hk (by simp)) t
        (by rwa [take_append_of_le_length (Nat.le_of_lt hk)])
      rwa [getElem_append_left hk] at this)
    have hlast := hok ops.length (by simp) t (by rwa [take_left])
    rw [getElem_concat_length rfl] at hlast
    obtain ⟨t', ht', hinv'⟩ := hstep t op hinv hlast
    exact ⟨t', by rw [run_snoc, ht, bind_some, ht'], hinv'⟩

/-- A loop over the numbers below `n` keeps an invariant that counts its rounds. -/
theorem run_range {step : S → Nat → Option S} {n : Nat} (Inv : Nat → S → Prop) (h0 : Inv 0 s)
    (hstep : ∀ k < n, ∀ t, Inv k t → ∃ t', step t k = some t' ∧ Inv (k + 1) t') :
    ∃ t, run step s (range n) = some t ∧ Inv n t := by
  induction n with
  | zero => exact ⟨s, rfl, h0⟩
  | succ n ih =>
    obtain ⟨t, ht, hinv⟩ := ih (fun k hk => hstep k (Nat.lt_succ_of_lt hk))
    rw [range_succ, run_snoc, ht]
    exact hstep n (Nat.lt_succ_self n) t hinv

/-- A loop whose rounds each meet a condition or stop it. -/
theorem run_range_or {step : S → Nat → Option S} {n : Nat} (Inv : Nat → S → Prop) (Ok : Nat → Prop)
    (h0 : Inv 0 s)
    (hstep : ∀ k < n, ∀ t, Inv k t →
      (Ok k ∧ ∃ t', step t k = some t' ∧ Inv (k + 1) t') ∨ ¬ Ok k ∧ step t k = none) :
    ((∀ k < n, Ok k) ∧ ∃ t, run step s (range n) = some t ∧ Inv n t) ∨
      (¬ ∀ k < n, Ok k) ∧ run step s (range n) = none := by
  induction n with
  | zero => exact .inl ⟨fun k hk => absurd hk k.not_lt_zero, s, rfl, h0⟩
  | succ n ih =>
    rw [range_succ, run_snoc]
    rcases ih (fun k hk => hstep k (Nat.lt_succ_of_lt hk)) with ⟨hok, t, ht, hinv⟩ | ⟨hbad, hnone⟩
    · rw [ht]
      rcases hstep n (Nat.lt_succ_self n) t hinv with ⟨hn, hrest⟩ | ⟨hn, hnone⟩
      · refine .inl ⟨fun k hk => ?_, hrest⟩
        rcases Nat.lt_succ_iff_lt_or_eq.mp hk with hk | rfl
        · exact hok k hk
        · exact hn
      · exact .inr ⟨fun hall => hn (hall n (Nat.lt_succ_self n)), hnone⟩
    · rw [hnone]
      exact .inr ⟨fun hall => hbad (fun k hk => hall k (Nat.lt_succ_of_lt hk)), rfl⟩

theorem take_succ_snoc (hk : k < ops.length) : ops.take (k + 1) = ops.take k ++ [ops[k]] :=
  take_succ_eq_append_getElem hk

/-- While the steps meet a condition, a simulation relation is kept. -/
theorem run_related {step : S → O → Option S} (hrel : Rel s a)
    (hstep : ∀ t b op, Rel t b → Adm b op → Ok t op →
      ∃ t', step t op = some t' ∧ Rel t' (spec b op))
    (hadm : ∀ k (h : k < ops.length), Adm (absRun spec a (ops.take k)) ops[k]) (hk : k ≤ ops.length)
    (hok : ∀ i (h : i < k) t, run step s (ops.take i) = some t → Ok t ops[i]) :
    ∃ t, run step s (ops.take k) = some t ∧ Rel t (absRun spec a (ops.take k)) := by
  induction k with
  | zero => exact ⟨s, rfl, hrel⟩
  | succ k ih =>
    obtain ⟨t, ht, hr⟩ := ih (Nat.le_of_lt hk) (fun i hi => hok i (Nat.lt_succ_of_lt hi))
    rw [take_succ_snoc hk, run_snoc, ht, bind_some, absRun_snoc]
    exact hstep _ _ _ hr (hadm k hk) (hok k (Nat.lt_succ_self k) t ht)

/-- When a simulation relation shows what is observed, is kept by the steps that meet a
    condition, and any other step goes wrong at once, then what is observed along the whole
    run is as it should be exactly when all steps meet the condition. -/
theorem run_observed_iff {step : S → O → Option S} {Obs : S → A → Prop} (hrel : Rel s a)
    (hobs : ∀ t b, Rel t b → Obs t b)
    (hstep : ∀ t b op, Rel t b → Adm b op → Ok t op →
      ∃ t', step t op = some t' ∧ Rel t' (spec b op))
    (hbad : ∀ t b op t', Rel t b → Adm b op → ¬ Ok t op → step t op = some t' →
      ¬ Obs t' (spec b op))
    (ops : List O) (hadm : ∀ k (h : k < ops.length), Adm (absRun spec a (ops.take k)) ops[k]) :
    (∀ k, k ≤ ops.length → ∃ t, run step s (ops.take k) = some t ∧
        Obs t (absRun spec a (ops.take k))) ↔
    ∀ k (h : k < ops.length) t, run step s (ops.take k) = some t → Ok t ops[k] := by
  constructor
  · intro hall k
    -- the relation holds up to the step, so a step that does not meet the condition shows
    induction k using Nat.strongRecOn with
    | ind k ih =>
      intro hk t ht
      obtain ⟨t0, ht0, hr⟩ := run_related hrel hstep hadm (Nat.le_of_lt hk)
        (fun i hi => ih i hi (Nat.lt_trans hi hk))
      obtain rfl := mem_unique ht0 ht
      obtain ⟨t', ht', ho'⟩ := hall (k + 1) hk
      rw [take_succ_snoc hk, run_snoc, ht, bind_some] at ht'
      rw [take_succ_snoc hk, absRun_snoc] at ho'
      by_contra hno
      exact hbad _ _ _ t' hr (hadm k hk) hno ht' ho'
  · intro hok k hk
    obtain ⟨t, ht, hr⟩ := run_related hrel hstep hadm hk
      (fun i hi => hok i (Nat.lt_of_lt_of_le hi hk))
    exact ⟨t, ht, hobs _ _ hr⟩

/-- **STEPWISE AGREEMENT IS RUN AGREEMENT.** -/
theorem run_agrees_iff {step : S → O → Option S} {Agree : S → A → Prop} (hinv : Inv s)
    (hkeep : ∀ t op t', Inv t → step t op = some t' → Inv t') (hagree : Agree s a)
    (hstep : ∀ t b op, Inv t → Agree t b → Adm b op →
      ((∃ t', step t op = some t' ∧ Agree t' (spec b op)) ↔ Ok t op)) (ops : List O)
    (hadm : ∀ k (h : k < ops.length), Adm (absRun spec a (ops.take k)) ops[k]) :
    (∀ k, k ≤ ops.length → ∃ t, run step s (ops.take k) = some t ∧
        Agree t (absRun spec a (ops.take k))) ↔
    ∀ k (h : k < ops.length) t, run step s (ops.take k) = some t → Ok t ops[k] := by
  have hobs : ∀ t b, Inv t ∧ Agree t b → Agree t b := fun _ _ h => h.2
  refine run_observed_iff ⟨hinv, hagree⟩ hobs ?_ ?_ ops hadm
  · intro t b op ⟨ht, hb⟩ hop hok
    obtain ⟨t', ht', ha'⟩ := (hstep t b op ht hb hop).mpr hok
    exact ⟨t', ht', hkeep t op t' ht ht', ha'⟩
  · intro t b op t' ⟨ht, hb⟩ hop hno ht' ha'
    exact hno ((hstep t b op ht hb hop).mp ⟨t', ht', ha'⟩)

end Runs
