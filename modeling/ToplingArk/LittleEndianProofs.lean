import Mathlib.Algebra.Order.Group.Nat
import Mathlib.Tactic.Ring

/-! # Numbers as bytes, lowest first

    `bytes c x` are the `c` low bytes of `x` and `value` reads a list of bytes back as
    a number. -/

namespace LittleEndian

/-- A byte. -/
abbrev Byte := Fin 256

instance byteNeZero : NeZero 256 := ⟨by decide⟩

/-- The low byte of a number. -/
def byteOf (x : Nat) : Byte := Fin.ofNat 256 x

theorem byteOf_val (x : Nat) : (byteOf x).val = x % 256 := rfl

/-- The `c` low bytes of `x`. -/
def bytes : Nat → Nat → List Byte
  | 0, _ => []
  | c + 1, x => byteOf x :: bytes c (x / 256)

/-- The number with the given bytes. -/
def value : List Byte → Nat
  | [] => 0
  | b :: bs => b.val + 256 * value bs

theorem bytes_succ (c x : Nat) : bytes (c + 1) x = byteOf x :: bytes c (x / 256) := rfl

@[simp] theorem bytes_length (c x : Nat) : (bytes c x).length = c := by
  induction c generalizing x with
  | zero => rfl
  | succ c ih => rw [bytes_succ, List.length_cons, ih]

/-- **READING BACK**: the bytes of a number give the number, cut to their width. -/
theorem value_bytes (c x : Nat) : value (bytes c x) = x % 256 ^ c := by
  induction c generalizing x with
  | zero => simp [bytes, value, Nat.mod_one]
  | succ c ih =>
    rw [bytes_succ, value, ih, byteOf_val, Nat.pow_succ, Nat.mul_comm (256 ^ c) 256, Nat.mod_mul]

/-- `n` bytes have values below `256 ^ n`. -/
theorem value_lt (bs : List Byte) : value bs < 256 ^ bs.length := by
  induction bs with
  | nil => exact Nat.one_pos
  | cons b bs ih =>
    rw [List.length_cons, Nat.pow_succ]
    unfold value
    omega

end LittleEndian
