import Mathlib.Algebra.Order.Group.Nat
import Mathlib.Tactic.Ring

/-! # Fields of equal width packed into a number

    `pack w f m` holds the values `f 0, …, f (m - 1)`, each in `w` bits, the first
    one lowest.  As long as every value fits its field, reading a field back
    gives the value. -/

namespace FieldPack

open Nat

/-- The values of `f` packed into `m` fields of `w` bits. -/
def pack (w : Nat) (f : Nat → Nat) : Nat → Nat
  | 0 => 0
  | m + 1 => pack w f m + f m * 2 ^ (w * m)

/-- Field `k` of a number. -/
def field (w x k : Nat) : Nat := x / 2 ^ (w * k) % 2 ^ w

theorem pack_succ (w : Nat) (f : Nat → Nat) (m : Nat) :
    pack w f (m + 1) = pack w f m + f m * 2 ^ (w * m) := rfl

variable {w m : Nat} {f : Nat → Nat}

/-- Fields of `w` bits fill no more than their places. -/
theorem pack_lt (h : ∀ j, j < m → f j < 2 ^ w) : pack w f m < 2 ^ (w * m) := by
  induction m with
  | zero => exact zero_lt_one
  | succ m ih =>
    have hlow := ih (fun j hj => h j (by omega))
    have htop : (f m + 1) * 2 ^ (w * m) ≤ 2 ^ w * 2 ^ (w * m) :=
      mul_le_mul_right _ (h m (lt_succ_self m))
    calc pack w f (m + 1) < 2 ^ (w * m) + f m * 2 ^ (w * m) := Nat.add_lt_add_right hlow _
      _ = (f m + 1) * 2 ^ (w * m) := by ring
      _ ≤ 2 ^ w * 2 ^ (w * m) := htop
      _ = 2 ^ (w * (m + 1)) := by rw [← pow_add, mul_succ, add_comm]

/-- **READING A FIELD BACK.** -/
theorem field_pack {k : Nat} (h : ∀ j, j < m → f j < 2 ^ w) (hk : k < m) :
    field w (pack w f m) k = f k := by
  induction m with
  | zero => cases hk
  | succ m ih =>
    have hlow := pack_lt (m := m) (fun j hj => h j (by omega))
    by_cases hkm : k = m
    · subst hkm
      show (pack w f k + f k * 2 ^ (w * k)) / 2 ^ (w * k) % 2 ^ w = f k
      rw [add_mul_div_right _ _ (Nat.two_pow_pos _), div_eq_of_lt hlow, zero_add,
        mod_eq_of_lt (h k (lt_succ_self k))]
    -- the new top field lies above field `k` and its upper neighbour
    have hih := ih (fun j hj => h j (by omega)) (by omega)
    obtain ⟨d, hd⟩ : ∃ d, m = k + 1 + d := ⟨m - (k + 1), by omega⟩
    have hsplit : f m * 2 ^ (w * m) = 2 ^ w * (f m * 2 ^ (w * d)) * 2 ^ (w * k) := by
      rw [hd, mul_add, mul_succ, pow_add, pow_add]
      ring
    show (pack w f m + f m * 2 ^ (w * m)) / 2 ^ (w * k) % 2 ^ w = f k
    rw [hsplit, add_mul_div_right _ _ (Nat.two_pow_pos _), add_mul_mod_self_left]
    exact hih

end FieldPack
