import Mathlib.Data.List.Lex
import Mathlib.Order.Defs.LinearOrder

/-! # A cursor in a set of strings

    What an iterator over a set of strings is for.  It stands on a string of the set or
    nowhere, and every call takes it to another string, which is told by the order of the
    strings and by prefixes alone.  From nowhere only a seek leads back. -/

namespace WordCursor

open List

/-- The calls of a client. -/
inductive Call where
  | lowerBound (key : List Nat)
  | last
  | next
  | prev
  | maxPrefix (key : List Nat)
deriving DecidableEq, Repr

/-- The key of the call, if there is one, consists of bytes. -/
def Call.Bytes : Call → Prop
  | .lowerBound key => ∀ b ∈ key, b < 256
  | .maxPrefix key => ∀ b ∈ key, b < 256
  | _ => True

/-- What a call returns: whether there was such a string, or how much of a key was matched. -/
inductive Ret where
  | flag (b : Bool)
  | length (n : Nat)
deriving DecidableEq, Repr

/-- So much of the key, and no more, is a prefix of some string. -/
structure Matched (S : List (List Nat)) (key : List Nat) (n : Nat) : Prop where
  le : n ≤ key.length
  some_string : ∃ x ∈ S, key.take n <+: x
  longest : ∀ m, m ≤ key.length → (∃ x ∈ S, key.take m <+: x) → m ≤ n

/-- One call, from where the cursor stands to where it stands then. -/
inductive Moves (S : List (List Nat)) : Option (List Nat) → Call → Ret → Option (List Nat) → Prop
  | found {pos : Option (List Nat)} {key w : List Nat} (mem : w ∈ S) (le : key ≤ w)
      (least : ∀ x ∈ S, key ≤ x → w ≤ x) : Moves S pos (.lowerBound key) (.flag true) (some w)
  | beyond {pos : Option (List Nat)} {key : List Nat} (all : ∀ x ∈ S, x < key) :
      Moves S pos (.lowerBound key) (.flag false) none
  | greatest {pos : Option (List Nat)} {w : List Nat} (mem : w ∈ S) (all : ∀ x ∈ S, x ≤ w) :
      Moves S pos .last (.flag true) (some w)
  | larger {w w' : List Nat} (mem : w' ∈ S) (lt : w < w') (least : ∀ x ∈ S, w < x → w' ≤ x) :
      Moves S (some w) .next (.flag true) (some w')
  | largest {w : List Nat} (all : ∀ x ∈ S, x ≤ w) : Moves S (some w) .next (.flag false) none
  | smaller {w w' : List Nat} (mem : w' ∈ S) (lt : w' < w) (greatest : ∀ x ∈ S, x < w → x ≤ w') :
      Moves S (some w) .prev (.flag true) (some w')
  | smallest {w : List Nat} (all : ∀ x ∈ S, w ≤ x) : Moves S (some w) .prev (.flag false) none
  | nowhereNext : Moves S none .next (.flag false) none
  | nowherePrev : Moves S none .prev (.flag false) none
  | onPrefix {pos : Option (List Nat)} {key w : List Nat} {n : Nat} (matched : Matched S key n)
      (mem : w ∈ S) (le : w <+: key) (longest : ∀ x ∈ S, x <+: key → x.length ≤ w.length) :
      Moves S pos (.maxPrefix key) (.length n) (some w)
  | noPrefix {pos : Option (List Nat)} {key : List Nat} {n : Nat} (matched : Matched S key n)
      (none_is : ∀ x ∈ S, ¬ x <+: key) : Moves S pos (.maxPrefix key) (.length n) none

/-- What a run of calls shows: after every call what it returned, and where the cursor stands. -/
inductive Shows (S : List (List Nat)) :
    Option (List Nat) → List Call → List (Ret × Option (List Nat)) → Prop
  | nil {pos : Option (List Nat)} : Shows S pos [] []
  | cons {pos pos' : Option (List Nat)} {c : Call} {r : Ret} {calls : List Call}
      {rest : List (Ret × Option (List Nat))} (move : Moves S pos c r pos')
      (then_ : Shows S pos' calls rest) : Shows S pos (c :: calls) ((r, pos') :: rest)

/-- What the calls of a machine show. -/
def watch {I : Type} (call : I → Call → Option (I × Ret)) (stands : I → Option (List Nat)) :
    I → List Call → Option (List (Ret × Option (List Nat)))
  | _, [] => some []
  | it, c :: calls => do
    let (it, r) ← call it c
    let rest ← watch call stands it calls
    some ((r, stands it) :: rest)

/-- The call makes the move of the cursor, and the machine stays good. -/
def Makes {I : Type} (call : I → Call → Option (I × Ret)) (stands : I → Option (List Nat))
    (S : List (List Nat)) (Good : I → Prop) (it : I) (c : Call) : Prop :=
  ∃ it' r, call it c = some (it', r) ∧ Good it' ∧ Moves S (stands it) c r (stands it')

/-- **A MACHINE THAT MAKES THE MOVES OF THE CURSOR SHOWS WHAT THE CURSOR SHOWS.** -/
theorem shows_of_moves {I : Type} {call : I → Call → Option (I × Ret)}
    {stands : I → Option (List Nat)} {S : List (List Nat)} {Good : I → Prop}
    (hstep : ∀ it c, Good it → c.Bytes → Makes call stands S Good it c)
    {it : I} (h : Good it) (calls : List Call) (hbytes : ∀ c ∈ calls, c.Bytes) :
    ∃ shown, watch call stands it calls = some shown ∧ Shows S (stands it) calls shown := by
  induction calls generalizing it with
  | nil => exact ⟨[], rfl, .nil⟩
  | cons c calls ih =>
    rw [forall_mem_cons] at hbytes
    obtain ⟨it', r, hcall, hgood, hmove⟩ := hstep it c h hbytes.1
    obtain ⟨shown, hwatch, hshows⟩ := ih hgood hbytes.2
    refine ⟨(r, stands it') :: shown, ?_, .cons hmove hshows⟩
    rw [watch, hcall]
    simp only [Option.bind_eq_bind, Option.bind_some]
    rw [hwatch]
    rfl

/-! ## Moves in a sorted list -/

section Sorted

variable {S u v : List (List Nat)} {w w' key : List Nat} {pos : Option (List Nat)}

variable (hS : S.Pairwise (· < ·))

include hS

/-- The strings before one and behind it. -/
theorem around (h : S = u ++ w :: v) {x : List Nat} (hx : x ∈ S) :
    (x ∈ u ∧ x < w) ∨ x = w ∨ (x ∈ v ∧ w < x) := by
  subst h
  obtain ⟨-, hafter, hbefore⟩ := pairwise_append.mp hS
  rcases mem_append.mp hx with hx | hx
  · exact .inl ⟨hx, hbefore x hx w mem_cons_self⟩
  · rcases mem_cons.mp hx with rfl | hx
    · exact .inr (.inl rfl)
    · exact .inr (.inr ⟨hx, (pairwise_cons.mp hafter).1 x hx⟩)

theorem le_last (h : S = u ++ [w]) : ∀ x ∈ S, x ≤ w := by
  intro x hx
  rcases around hS h hx with ⟨-, hlt⟩ | rfl | ⟨hx, -⟩
  · exact hlt.le
  · exact le_rfl
  · cases hx

theorem first_le (h : S = w :: v) : ∀ x ∈ S, w ≤ x := by
  intro x hx
  rcases around hS (u := []) h hx with ⟨hx, -⟩ | rfl | ⟨-, hlt⟩
  · cases hx
  · exact le_rfl
  · exact hlt.le

/-- The first string that is not below the key. -/
theorem moves_lowerBound (h : S = u ++ w :: v) (hu : ∀ x ∈ u, x < key) (hw : key ≤ w) :
    Moves S pos (.lowerBound key) (.flag true) (some w) := by
  refine .found (h ▸ mem_append_right _ mem_cons_self) hw (fun x hx hle => ?_)
  rcases around hS h hx with ⟨hx, -⟩ | rfl | ⟨-, hlt⟩
  · exact absurd hle (not_le_of_gt (hu x hx))
  · exact le_rfl
  · exact hlt.le

theorem moves_last (h : S = u ++ [w]) : Moves S pos .last (.flag true) (some w) :=
  .greatest (h ▸ mem_append_right _ mem_cons_self) (le_last hS h)

/-- The next string. -/
theorem moves_next (h : S = u ++ w :: w' :: v) : Moves S (some w) .next (.flag true) (some w') := by
  rw [append_cons] at h
  subst h
  obtain ⟨hsorted, -, hbefore⟩ := pairwise_append.mp hS
  refine .larger (mem_append_right _ mem_cons_self)
    (hbefore w (mem_append_right _ mem_cons_self) w' mem_cons_self) (fun x hx hlt => ?_)
  rcases around hS rfl hx with ⟨hx, -⟩ | rfl | ⟨-, hlt'⟩
  · exact absurd hlt (not_lt_of_ge (le_last hsorted rfl x hx))
  · exact le_rfl
  · exact hlt'.le

/-- Behind the last string there is none. -/
theorem moves_next_last (h : S = u ++ [w]) : Moves S (some w) .next (.flag false) none :=
  .largest (le_last hS h)

/-- The string before. -/
theorem moves_prev (h : S = u ++ w' :: w :: v) : Moves S (some w) .prev (.flag true) (some w') := by
  subst h
  obtain ⟨-, hafter, -⟩ := pairwise_append.mp hS
  obtain ⟨hw', hsorted⟩ := pairwise_cons.mp hafter
  refine .smaller (mem_append_right _ mem_cons_self) (hw' w mem_cons_self) (fun x hx hlt => ?_)
  rcases around hS rfl hx with ⟨-, hlt'⟩ | rfl | ⟨hx, -⟩
  · exact hlt'.le
  · exact le_rfl
  · exact absurd hlt (not_lt_of_ge (first_le hsorted rfl x hx))

/-- Before the first string there is none. -/
theorem moves_prev_first (h : S = w :: v) : Moves S (some w) .prev (.flag false) none :=
  .smallest (first_le hS h)

end Sorted

end WordCursor
