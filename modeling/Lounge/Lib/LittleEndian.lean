import Mathlib.Data.List.Basic
import Mathlib.Algebra.Order.Ring.Nat
import Mathlib.Tactic.Common

/-! Fixed-width little-endian numbers, as an unpadded record stores them. -/

namespace LittleEndian

/-- The `w` low-order bytes of `n`, least significant first. -/
def bytesLE : Nat → Nat → List UInt8
  | 0, _ => []
  | w + 1, n => UInt8.ofNat n :: bytesLE w (n / 256)

def natLE : List UInt8 → Nat
  | [] => 0
  | b :: bs => b.toNat + 256 * natLE bs

@[simp] theorem length_bytesLE (w n : Nat) : (bytesLE w n).length = w := by
  induction w generalizing n with
  | zero => rfl
  | succ w ih => simp [bytesLE, ih]

theorem bytesLE_snoc (w n : Nat) :
    bytesLE (w + 1) n = bytesLE w n ++ [UInt8.ofNat (n / 256 ^ w)] := by
  induction w generalizing n with
  | zero => simp [bytesLE]
  | succ w ih =>
    have shift : n / 256 / 256 ^ w = n / 256 ^ (w + 1) := by
      rw [Nat.div_div_eq_div_mul, Nat.pow_succ, Nat.mul_comm]
    rw [bytesLE, ih, shift]
    rfl

theorem natLE_bytesLE (w n : Nat) : natLE (bytesLE w n) = n % 256 ^ w := by
  induction w generalizing n with
  | zero => simp [bytesLE, natLE, Nat.mod_one]
  | succ w ih =>
    have step : n % 256 ^ (w + 1) = n % 256 + 256 * (n / 256 % 256 ^ w) := by
      rw [Nat.pow_succ, Nat.mul_comm, Nat.mod_mul]
    simp only [bytesLE, natLE, ih, step, UInt8.toNat_ofNat']

/-- A number that fits its width survives the round trip. -/
theorem natLE_bytesLE_of_lt {w n : Nat} (h : n < 256 ^ w) : natLE (bytesLE w n) = n := by
  rw [natLE_bytesLE, Nat.mod_eq_of_lt h]

theorem natLE_take_le (bs : List UInt8) (k : Nat) : natLE (bs.take k) ≤ natLE bs := by
  induction bs generalizing k with
  | nil => rw [List.take_nil]
  | cons b rest ih =>
    cases k with
    | zero => exact Nat.zero_le _
    | succ k => exact Nat.add_le_add_left (Nat.mul_le_mul_left 256 (ih k)) b.toNat

theorem natLE_inj {a b : List UInt8} (length : a.length = b.length) (same : natLE a = natLE b) :
    a = b := by
  induction a generalizing b with
  | nil => exact (List.eq_nil_of_length_eq_zero length.symm).symm
  | cons x a ih =>
    cases b with
    | nil => cases length
    | cons y b =>
      have hx := x.toNat_lt
      have hy := y.toNat_lt
      rw [natLE, natLE] at same
      have heads : x = y := UInt8.toNat_inj.mp (by omega)
      rw [heads, ih (Nat.succ.inj length) (by omega)]

end LittleEndian
