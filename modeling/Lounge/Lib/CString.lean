import Mathlib.Data.List.Basic
import Mathlib.Data.List.TakeWhile

/-! NUL-terminated strings, kept without their terminator. -/

/-- The bytes before the terminator; none of them is NUL. -/
structure CString where
  bytes : List UInt8
  noNul : (0 : UInt8) ∉ bytes
  deriving DecidableEq

namespace CString

@[ext] theorem ext {a b : CString} (h : a.bytes = b.bytes) : a = b := by
  cases a
  cases b
  simpa using h

/-- The string at the start of an array of bytes. -/
def ofBytes (bs : List UInt8) : CString where
  bytes := bs.takeWhile (· != 0)
  noNul := fun h => by simpa using List.mem_takeWhile_imp h

theorem bytes_ofBytes {bs : List UInt8} (h : (0 : UInt8) ∉ bs) : (ofBytes bs).bytes = bs := by
  rw [ofBytes, List.takeWhile_eq_self_iff]
  intro b hb
  have : b ≠ 0 := fun same => h (same ▸ hb)
  simpa using this

theorem ofBytes_bytes (s : CString) : ofBytes s.bytes = s :=
  ext (bytes_ofBytes s.noNul)

/-- A string in memory ends at its terminator. -/
theorem ofBytes_terminated (s : CString) (rest : List UInt8) :
    ofBytes (s.bytes ++ 0 :: rest) = s := by
  apply ext
  have plain : ∀ b ∈ s.bytes, (b != 0) = true := by
    intro b hb
    have ne : b ≠ 0 := fun zero => s.noNul (zero ▸ hb)
    simpa using ne
  simp only [ofBytes]
  rw [List.takeWhile_append_of_pos plain, List.takeWhile_cons_of_neg (by simp), List.append_nil]

/-- `strlen`. -/
def strlen (s : CString) : Nat := s.bytes.length

/-- `s[i]` for an index up to and including the terminator's. -/
def charAt (s : CString) (i : Nat) : UInt8 := s.bytes.getD i 0

theorem charAt_strlen (s : CString) : s.charAt s.strlen = 0 := by
  simp [charAt, strlen]

end CString
