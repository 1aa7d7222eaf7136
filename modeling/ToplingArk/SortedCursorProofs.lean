import Mathlib.Order.Lattice
import Mathlib.Data.List.Basic

/-! # A cursor in a sorted list

    What a bidirectional iterator is for: it stands at a place of a sorted list or nowhere,
    and every call moves it.  A cursor that has left the list at an end stands nowhere, until
    it is set again.  A machine that stands where the cursor stands after every call shows
    the same entries in every run. -/

namespace Cursor

open List

variable {W : Type} {l : List W}

/-- The calls of a client. -/
inductive Call (W : Type) where
  | seek (key : W)
  | first
  | last
  | next
  | prev

/-- The place after a call. -/
def move [LinearOrder W] (l : List W) : Option Nat → Call W → Option Nat
  | _, .seek key => l.findIdx? (fun w => decide (key ≤ w))
  | _, .first => if l = [] then none else some 0
  | _, .last => if l = [] then none else some (l.length - 1)
  | pos, .next => pos.bind (fun i => if i + 1 < l.length then some (i + 1) else none)
  | pos, .prev => pos.bind (fun i => if i = 0 then none else some (i - 1))

/-- The entry at a place. -/
def entry (l : List W) (pos : Option Nat) : Option W := pos.bind (fun i => l[i]?)

/-- What the calls show, one after the other: an entry, or that there is none. -/
def observe [LinearOrder W] (l : List W) : Option Nat → List (Call W) → List (Option W)
  | _, [] => []
  | pos, c :: calls => entry l (move l pos c) :: observe l (move l pos c) calls

/-- What the calls of a machine show. -/
def watch {I : Type} (call : I → Call W → Option (I × Option W)) :
    I → List (Call W) → Option (List (Option W))
  | _, [] => some []
  | it, c :: calls =>
    (call it c).bind (fun r => (watch call r.1 calls).map (fun os => r.2 :: os))

/-- **A MACHINE THAT FOLLOWS THE CURSOR SHOWS WHAT THE CURSOR SHOWS.** -/
theorem watch_eq_observe [LinearOrder W] {I : Type} {call : I → Call W → Option (I × Option W)}
    {R : I → Option Nat → Prop} (hstep : ∀ it pos c, R it pos →
      ∃ it', call it c = some (it', entry l (move l pos c)) ∧ R it' (move l pos c)) {it : I}
    {pos : Option Nat} (h : R it pos) (calls : List (Call W)) :
    watch call it calls = some (observe l pos calls) := by
  induction calls generalizing it pos with
  | nil => rfl
  | cons c calls ih =>
    obtain ⟨it', hcall, hnext⟩ := hstep it pos c h
    rw [watch, hcall, Option.bind_some, ih hnext]
    rfl

/-! ## Calls at a place that splits the list -/

@[simp] theorem entry_split (u v : List W) (w : W) :
    entry (u ++ w :: v) (some u.length) = some w := by
  show (u ++ w :: v)[u.length]? = some w
  rw [getElem?_append_right (le_rfl), Nat.sub_self]
  rfl

section

variable [LinearOrder W] {u v : List W} {w key : W}

theorem move_next_last (u : List W) (w : W) : move (u ++ [w]) (some u.length) .next = none :=
  if_neg (by simp)

/-- Forward, to the next word. -/
theorem move_next_split (u v : List W) (w w' : W) :
    move (u ++ w :: w' :: v) (some u.length) .next = some (u ++ [w]).length := by
  rw [length_append, length_singleton]
  exact if_pos (by simp)

/-- Backward, to the word before. -/
theorem move_prev_split (u v : List W) (w w' : W) :
    move (u ++ w' :: w :: v) (some (u ++ [w']).length) .prev = some u.length := by
  rw [length_append, length_singleton]
  rfl

/-- The least entry that is no less than the key. -/
theorem move_seek_split (hbefore : ∀ x ∈ u, x < key) (hkey : key ≤ w) (pos : Option Nat) :
    move (u ++ w :: v) pos (.seek key) = some u.length := by
  have hu : u.findIdx? (fun w => decide (key ≤ w)) = none := by
    rw [findIdx?_eq_none_iff]
    intro x hx
    exact decide_eq_false (not_le_of_gt (hbefore x hx))
  show (u ++ w :: v).findIdx? _ = _
  rw [findIdx?_append, hu, findIdx?_cons, decide_eq_true hkey]
  simp

/-- Behind the last word there is nothing to find. -/
theorem move_seek_none (hbefore : ∀ x ∈ l, x < key) (pos : Option Nat) :
    move l pos (.seek key) = none := by
  show l.findIdx? _ = none
  rw [findIdx?_eq_none_iff]
  intro x hx
  exact decide_eq_false (not_le_of_gt (hbefore x hx))

/-- A key that no entry is before. -/
theorem move_seek_least (hkey : ∀ x ∈ l, key ≤ x) (pos : Option Nat) :
    move l pos (.seek key) = move l pos .first := by
  cases l with
  | nil => rfl
  | cons x l =>
    show (x :: l).findIdx? _ = some 0
    rw [findIdx?_cons, decide_eq_true (hkey x mem_cons_self)]
    rfl

end

end Cursor
