import Mathlib.Logic.Relation
import ToplingArk.RunProofs

/-! # Searching a graph with a stack

    The nodes are numbers below a bound and have one mark each.  A node is marked when it is
    pushed, so it is pushed once; when the stack is empty, the marked nodes are those that the
    roots lead to. -/

namespace StackSearch

open List Option

/-- A node is marked and pushed unless it is marked already. -/
def visit (s : List Nat × List Bool) (child : Nat) : Option (List Nat × List Bool) :=
  s.2[child]?.map (fun b => if b then s else (child :: s.1, s.2.set child true))

/-- The nodes behind the top of the stack are visited until the stack is empty. -/
def search (next : Nat → Option (List Nat)) : Nat → List Nat × List Bool → Option (List Bool)
  | 0, _ => none
  | _ + 1, ([], mark) => some mark
  | fuel + 1, (parent :: stack, mark) =>
    (next parent).bind (fun children =>
      (Runs.run visit (stack, mark) children).bind (search next fuel))

/-- The roots lead to the node. -/
def Reach (next : Nat → List Nat) (roots : List Nat) (i : Nat) : Prop :=
  ∃ r ∈ roots, Relation.ReflTransGen (fun a b => b ∈ next a) r i

variable {next : Nat → List Nat} {roots stack : List Nat} {n i j : Nat} {mark : List Bool}
  {busy : Nat → Prop} {next' : Nat → Option (List Nat)}

theorem Reach.root {r : Nat} (hr : r ∈ roots) : Reach next roots r := ⟨r, hr, .refl⟩

/-- One step further. -/
theorem Reach.step (hi : Reach next roots i) (hj : j ∈ next i) : Reach next roots j := by
  obtain ⟨r, hr, hri⟩ := hi
  exact ⟨r, hr, hri.tail hj⟩

/-- Nodes that are marked are on the stack or have all their successors marked, those of the
    list apart. -/
structure Marking (next : Nat → List Nat) (roots : List Nat) (n : Nat) (stack : List Nat)
    (mark : List Bool) (busy : Nat → Prop) : Prop where
  length : mark.length = n
  start : ∀ r ∈ roots, mark[r]? = some true
  sound : ∀ i, mark[i]? = some true → Reach next roots i
  stacked : ∀ i ∈ stack, mark[i]? = some true
  done : ∀ i, mark[i]? = some true → i ∉ stack → ¬ busy i → ∀ j ∈ next i, mark[j]? = some true

/-- What is left to do: the nodes without a mark and those on the stack. -/
def work (stack : List Nat) (mark : List Bool) : Nat := mark.count false + stack.length

theorem set_true_self (hi : i < mark.length) :
    (mark.set i true)[j]? = some true ↔ j = i ∨ mark[j]? = some true := by
  by_cases hji : j = i
  · subst hji
    simp [getElem?_set_self hi]
  · rw [getElem?_set_ne (Ne.symm hji)]
    simp [hji]

/-- A mark is set at most once for each state. -/
theorem count_set_true (hi : mark[i]? = some false) :
    (mark.set i true).count false + 1 = mark.count false := by
  induction mark generalizing i with
  | nil => cases hi
  | cons b mark ih =>
    cases i with
    | zero =>
      obtain rfl : b = false := some.inj hi
      simp
    | succ i =>
      have hrest := ih (show mark[i]? = some false from hi)
      cases b <;> simp only [count_cons] <;> simp <;> omega

/-- **VISITING** one node. -/
theorem Marking.visit (h : Marking next roots n stack mark busy) {child : Nat} (hlt : child < n)
    (hreach : Reach next roots child) :
    ∃ stack' mark', visit (stack, mark) child = some (stack', mark') ∧
      Marking next roots n stack' mark' busy ∧ mark'[child]? = some true ∧
      (∀ i : Nat, mark[i]? = some true → mark'[i]? = some true) ∧
      work stack' mark' = work stack mark := by
  have hin : child < mark.length := by
    rw [h.length]
    exact hlt
  obtain ⟨b, hb⟩ : ∃ b, mark[child]? = some b := ⟨_, getElem?_eq_getElem hin⟩
  have hvisit : StackSearch.visit (stack, mark) child =
      some (if b then (stack, mark) else (child :: stack, mark.set child true)) := by
    unfold StackSearch.visit
    rw [hb, map_some]
  -- a marked child is not pushed again
  cases b with
  | true => exact ⟨stack, mark, hvisit, h, hb, fun _ hi => hi, rfl⟩
  | false =>
    have hset : ∀ j, (mark.set child true)[j]? = some true ↔ j = child ∨ mark[j]? = some true :=
      fun j => set_true_self hin
    refine ⟨child :: stack, mark.set child true, hvisit, ?_, (hset child).mpr (.inl rfl),
      fun i hi => (hset i).mpr (.inr hi), ?_⟩
    · refine { length := ?_, start := ?_, sound := ?_, stacked := ?_, done := ?_ }
      · rw [length_set]
        exact h.length
      · intro r hr
        exact (hset r).mpr (.inr (h.start r hr))
      · intro i hi
        rcases (hset i).mp hi with rfl | hi
        · exact hreach
        · exact h.sound i hi
      · intro i hi
        rcases mem_cons.mp hi with rfl | hi
        · exact (hset i).mpr (.inl rfl)
        · exact (hset i).mpr (.inr (h.stacked i hi))
      · intro i hi hstack hbusy j hj
        rw [mem_cons, not_or] at hstack
        have hold := ((hset i).mp hi).resolve_left hstack.1
        exact (hset j).mpr (.inr (h.done i hold hstack.2 hbusy j hj))
    · unfold work
      have := count_set_true hb
      rw [length_cons]
      omega

/-- Visiting all the nodes of a list. -/
theorem Marking.visitAll {children : List Nat} (h : Marking next roots n stack mark busy)
    (hchildren : ∀ j ∈ children, j < n ∧ Reach next roots j) :
    ∃ stack' mark', Runs.run StackSearch.visit (stack, mark) children = some (stack', mark') ∧
      Marking next roots n stack' mark' busy ∧ (∀ j ∈ children, mark'[j]? = some true) ∧
      work stack' mark' = work stack mark := by
  induction children using reverseRecOn with
  | nil => exact ⟨stack, mark, rfl, h, forall_mem_nil _, rfl⟩
  | append_singleton children child ih =>
    obtain ⟨stack1, mark1, hrun, h1, hmarked, hwork⟩ :=
      ih (fun j hj => hchildren j (mem_append_left _ hj))
    obtain ⟨hlt, hreach⟩ := hchildren child (mem_append_right _ (mem_singleton_self _))
    obtain ⟨stack2, mark2, hvisit, h2, hself, hkeep, hwork2⟩ := h1.visit hlt hreach
    refine ⟨stack2, mark2, ?_, h2, fun j hj => ?_, hwork2.trans hwork⟩
    · rw [Runs.run_snoc, hrun, bind_some, hvisit]
    · rcases mem_append.mp hj with hj | hj
      · exact hkeep j (hmarked j hj)
      · rw [mem_singleton.mp hj]
        exact hself

/-- **THE SEARCH** marks exactly the nodes that the roots lead to. -/
theorem search_spec (hnext : ∀ i, i < n → next' i = some (next i))
    (hlt : ∀ i, i < n → ∀ j ∈ next i, j < n) {fuel : Nat}
    (h : Marking next roots n stack mark (fun _ => False)) (hfuel : work stack mark < fuel) :
    ∃ mark', search next' fuel (stack, mark) = some mark' ∧ mark'.length = n ∧
      ∀ i, mark'[i]? = some true ↔ Reach next roots i := by
  induction fuel generalizing stack mark with
  | zero => cases hfuel
  | succ fuel ih =>
    cases stack with
    | nil =>
      refine ⟨mark, rfl, h.length, fun i => ⟨h.sound i, ?_⟩⟩
      rintro ⟨r, hr, hri⟩
      -- along the path the marks go on
      induction hri with
      | refl => exact h.start r hr
      | tail _ hj ihp => exact h.done _ ihp not_mem_nil not_false _ hj
    | cons parent stack =>
      have hmark := h.stacked parent mem_cons_self
      have hin : parent < n := by
        rw [← h.length]
        exact (List.getElem_of_getElem? hmark).1
      have hpop : Marking next roots n stack mark (fun i => i = parent) := by
        refine { h with stacked := ?_, done := ?_ }
        · intro i hi
          exact h.stacked i (mem_cons_of_mem _ hi)
        · intro i hi hstack hne
          refine h.done i hi ?_ not_false
          rw [mem_cons, not_or]
          exact ⟨hne, hstack⟩
      obtain ⟨stack1, mark1, hrun, h1, hmarked, hwork⟩ := hpop.visitAll
        (fun j hj => ⟨hlt parent hin j hj, (h.sound parent hmark).step hj⟩)
      have h1' : Marking next roots n stack1 mark1 (fun _ => False) := by
        refine { h1 with done := ?_ }
        intro i hi hstack _ j hj
        by_cases heq : i = parent
        · subst heq
          exact hmarked j hj
        · exact h1.done i hi hstack heq j hj
      have hless : work stack1 mark1 < fuel := by
        rw [hwork]
        unfold work at hfuel ⊢
        rw [length_cons] at hfuel
        omega
      obtain ⟨mark', hsearch, hres⟩ := ih h1' hless
      refine ⟨mark', ?_, hres⟩
      show (next' parent).bind _ = _
      rw [hnext parent hin, bind_some, hrun]
      exact hsearch

/-- Marked nodes that are all different leave so many marks to set. -/
theorem work_le (hnodup : stack.Nodup) (hstack : ∀ i ∈ stack, mark[i]? = some true) :
    work stack mark ≤ mark.length := by
  unfold work
  induction stack generalizing mark with
  | nil => exact count_le_length
  | cons i stack ih =>
    obtain ⟨hnot, hnodup⟩ := nodup_cons.mp hnodup
    obtain ⟨hi, htrue⟩ := List.getElem_of_getElem? (hstack i mem_cons_self)
    have hkeep : ∀ j ∈ stack, (mark.set i false)[j]? = some true := by
      intro j hj
      have hij := (ne_of_mem_of_not_mem hj hnot).symm
      rw [getElem?_set_ne hij]
      exact hstack j (mem_cons_of_mem _ hj)
    have hrest := ih hnodup hkeep
    rw [count_set hi, htrue] at hrest
    simp at hrest
    rw [length_cons]
    omega

/-- **A SEARCH FROM ITS ROOTS**, which are marked and on the stack. -/
theorem search_roots (hlen : mark.length = n) (hnext : ∀ i, i < n → next' i = some (next i))
    (hlt : ∀ i, i < n → ∀ j ∈ next i, j < n) (hnodup : roots.Nodup)
    (hmark : ∀ i, mark[i]? = some true ↔ i ∈ roots) :
    ∃ mark', search next' (n + 1) (roots, mark) = some mark' ∧ mark'.length = n ∧
      ∀ i, mark'[i]? = some true ↔ Reach next roots i := by
  have hwork := work_le hnodup (fun i hi => (hmark i).mpr hi)
  refine search_spec hnext hlt ?_ (by omega)
  exact { length := hlen
          start := fun i hi => (hmark i).mpr hi
          sound := fun i hi => .root ((hmark i).mp hi)
          stacked := fun i hi => (hmark i).mpr hi
          done := fun i hi hstack => absurd ((hmark i).mp hi) hstack }

end StackSearch
