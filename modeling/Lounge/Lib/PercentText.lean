import Mathlib.Data.List.Basic
import Mathlib.Tactic.Common

/-!
# Percent-encoded text

Unreserved characters stand for themselves, `+` for a blank, and a percent sign with two
hexadecimal digits for any byte.
-/

namespace PercentText

/-- The value of a hexadecimal digit of either case. -/
def hexValue (c : UInt8) : Option Nat :=
  if 48 ≤ c && c ≤ 57 then some (c.toNat - 48)
  else if 97 ≤ c && c ≤ 102 then some (c.toNat - 87)
  else if 65 ≤ c && c ≤ 70 then some (c.toNat - 55)
  else none

/-- Letters, digits, and the four marks `.`, `-`, `_` and `~`. -/
def isUnreserved (c : UInt8) : Bool :=
  (48 ≤ c && c ≤ 57) || (65 ≤ c && c ≤ 90) || (97 ≤ c && c ≤ 122) ||
    c == 46 || c == 45 || c == 95 || c == 126

/-- A text, and the bytes it stands for. -/
inductive Encodes : List UInt8 → List UInt8 → Prop
  | nil : Encodes [] []
  | blank {text bytes : List UInt8} (rest : Encodes text bytes) :
    Encodes (43 :: text) (32 :: bytes)
  | plain {c : UInt8} (unreserved : isUnreserved c = true) {text bytes : List UInt8}
    (rest : Encodes text bytes) : Encodes (c :: text) (c :: bytes)
  | triple {a b : UInt8} {x y : Nat} (high : hexValue a = some x) (low : hexValue b = some y)
    {text bytes : List UInt8} (rest : Encodes text bytes) :
    Encodes (37 :: a :: b :: text) (UInt8.ofNat (16 * x + y) :: bytes)

/-- `+` to a blank, `%XX` to its byte. A percent sign needs two digits. -/
def decode : List UInt8 → Option (List UInt8)
  | [] => some []
  | c :: rest =>
    if c = 37 then
      match rest with
      | a :: b :: rest =>
        match hexValue a, hexValue b with
        | some x, some y => (decode rest).map (UInt8.ofNat (16 * x + y) :: ·)
        | _, _ => none
      | _ => none
    else (decode rest).map ((if c = 43 then 32 else c) :: ·)

theorem decode_cons {c : UInt8} (noPercent : c ≠ 37) (rest : List UInt8) :
    decode (c :: rest) = (decode rest).map ((if c = 43 then 32 else c) :: ·) := by
  rw [decode.eq_def]
  exact if_neg noPercent

theorem decode_triple {a b : UInt8} {x y : Nat} (high : hexValue a = some x)
    (low : hexValue b = some y) (rest : List UInt8) :
    decode (37 :: a :: b :: rest) = (decode rest).map (UInt8.ofNat (16 * x + y) :: ·) := by
  rw [decode.eq_def]
  simp only [if_true, high, low]

theorem isUnreserved_plain {c : UInt8} (unreserved : isUnreserved c = true) :
    c ≠ 37 ∧ c ≠ 43 := by
  constructor <;> rintro rfl <;> exact absurd unreserved (by decide)

theorem isUnreserved_ascii {c : UInt8} (unreserved : isUnreserved c = true) : c < 128 := by
  simp only [isUnreserved, Bool.or_eq_true, Bool.and_eq_true, decide_eq_true_eq, beq_iff_eq]
    at unreserved
  rw [UInt8.lt_iff_toNat_lt]
  simp only [UInt8.le_iff_toNat_le, ← UInt8.toNat_inj] at unreserved
  simp only [UInt8.toNat_ofNat] at unreserved ⊢
  omega

namespace Encodes
variable {text bytes text' bytes' : List UInt8}

/-- A text is decoded to what it stands for. -/
theorem decoded (h : Encodes text bytes) : decode text = some bytes := by
  induction h with
  | nil => rfl
  | blank rest ih => rw [decode_cons (by decide), ih, if_pos rfl, Option.map_some]
  | plain unreserved rest ih =>
    obtain ⟨noPercent, noPlus⟩ := isUnreserved_plain unreserved
    rw [decode_cons noPercent, ih, if_neg noPlus, Option.map_some]
  | triple high low rest ih => rw [decode_triple high low, ih, Option.map_some]

theorem append (h : Encodes text bytes) (h' : Encodes text' bytes') :
    Encodes (text ++ text') (bytes ++ bytes') := by
  induction h with
  | nil => exact h'
  | blank rest ih => exact .blank ih
  | plain unreserved rest ih => exact .plain unreserved ih
  | triple high low rest ih => exact .triple high low ih

/-- Unreserved text stands for itself. -/
theorem self (unreserved : ∀ c ∈ text, isUnreserved c = true) : Encodes text text := by
  induction text with
  | nil => exact .nil
  | cons c rest ih =>
    exact .plain (unreserved c List.mem_cons_self)
      (ih fun d hd => unreserved d (List.mem_cons_of_mem c hd))

/-- An encoder that works character by character. -/
theorem flatMap {α : Type*} {f g : α → List UInt8} (each : ∀ a, Encodes (f a) (g a))
    (as : List α) : Encodes (as.flatMap f) (as.flatMap g) := by
  induction as with
  | nil => exact .nil
  | cons a rest ih => exact (each a).append ih

end Encodes

end PercentText
