import Lounge.Revgen.RevScan
import Mathlib.Data.Nat.Digits.Lemmas

/-!
# Printing revisions

`la_rev_print` of `revgen/revgen.c`: seventeen `snprintf` calls, each into what is left
of the buffer. The size left is a `size_t`, and what the function returns is the length
of the last piece.
-/

namespace RevPrint
open FlatMemory ObjectStore CouchRevgen RevScan

/-- What `snprintf` leaves of a text in `size` bytes at an offset. -/
def snprintf (m : Memory) (off : Nat) (size : UInt64) (text : List UInt8) : Memory :=
  if size = 0 then m else store m off (text.take (size.toNat - 1) ++ [0])

/-- The locals of `la_rev_print`, with the buffer they point into. -/
structure PrintState where
  buffer : Memory
  off : Nat
  size : UInt64
  ret : Nat

/-- One `snprintf` and the three lines behind it. -/
def printNext (s : PrintState) (text : List UInt8) : PrintState where
  buffer := snprintf s.buffer s.off s.size text
  off := s.off + text.length
  size := s.size - UInt64.ofNat text.length
  ret := text.length

/-- `la_rev_print`. -/
def laRevPrint (rev : LaRev) (buffer : Memory) (size : UInt64) : PrintState :=
  rev.rev.rev.foldl (fun s b => printNext s (hexText [b]))
    (printNext ⟨buffer, 0, size, 0⟩ (decimal rev.seq.toNat ++ [45]))

/-- The string at the start of a buffer. -/
def stringIn (m : Memory) (size : UInt64) : CString := CString.ofBytes (read m 0 size.toNat)

/-- What was printed so far stands in the buffer, terminated, and the rest is counted. -/
structure Printed (m : Memory) (size : UInt64) (text : List UInt8) (s : PrintState) : Prop where
  buffer : s.buffer = store m 0 (text ++ [0])
  off : s.off = text.length
  left : s.size.toNat = size.toNat - text.length
  fits : text.length < size.toNat

/-- A piece that fits is printed whole. -/
theorem snprintf_fits {size : UInt64} {text : List UInt8} (fits : text.length < size.toNat)
    (m : Memory) (off : Nat) : snprintf m off size text = store m off (text ++ [0]) := by
  have room : size ≠ 0 := by
    rintro rfl
    exact absurd fits (Nat.not_lt_zero _)
  rw [snprintf, if_neg room, List.take_of_length_le (by omega)]

theorem size_sub {size : UInt64} {n : Nat} (fits : n < size.toNat) :
    (size - UInt64.ofNat n).toNat = size.toNat - n := by
  have bound := size.toNat_lt
  have same : (UInt64.ofNat n).toNat = n := by
    simp only [UInt64.toNat_ofNat']
    exact Nat.mod_eq_of_lt (by omega)
  rw [UInt64.toNat_sub_of_le _ _ (by rw [UInt64.le_iff_toNat_le, same]; omega), same]

theorem printed_first {size : UInt64} {text : List UInt8} (fits : text.length < size.toNat)
    (m : Memory) : Printed m size text (printNext ⟨m, 0, size, 0⟩ text) :=
  ⟨snprintf_fits fits m 0, Nat.zero_add _, size_sub fits, fits⟩

theorem Printed.next {m : Memory} {size : UInt64} {text more : List UInt8} {s : PrintState}
    (printed : Printed m size text s) (fits : (text ++ more).length < size.toNat) :
    Printed m size (text ++ more) (printNext s more) := by
  rw [List.length_append] at fits
  have room : more.length < s.size.toNat := by
    rw [printed.left]
    omega
  constructor
  · have behind : [(0 : UInt8)].length ≤ (more ++ [0]).length := by simp
    have both : store (store m 0 (text ++ [0])) (0 + text.length) (more ++ [0]) =
        store m 0 (text ++ (more ++ [0])) := store_append behind
    rw [Nat.zero_add, ← printed.buffer, ← List.append_assoc] at both
    rw [printNext, snprintf_fits room, printed.off, both]
  · rw [printNext, printed.off, List.length_append]
  · rw [printNext, size_sub room, printed.left, List.length_append]
    omega
  · rw [List.length_append]
    exact fits

/-- The loop over the hash. -/
theorem Printed.hash {m : Memory} {size : UInt64} (bs : List UInt8) {text : List UInt8}
    {s : PrintState} (printed : Printed m size text s)
    (fits : (text ++ hexText bs).length < size.toNat) :
    Printed m size (text ++ hexText bs) (bs.foldl (fun s b => printNext s (hexText [b])) s) := by
  induction bs generalizing text s with
  | nil => simpa [hexText] using printed
  | cons b rest ih =>
    have split : hexText (b :: rest) = hexText [b] ++ hexText rest := rfl
    rw [split, ← List.append_assoc] at fits ⊢
    have room : (text ++ hexText [b]).length < size.toNat := by
      rw [List.length_append] at fits
      omega
    exact ih (printed.next room) fits

/-- `la_rev_print` into a buffer that has room for the text. -/
theorem laRevPrint_fits {rev : LaRev} {size : UInt64}
    (fits : (textOfRev rev).bytes.length < size.toNat) (buffer : Memory) :
    Printed buffer size (textOfRev rev).bytes (laRevPrint rev buffer size) := by
  have split : (textOfRev rev).bytes = decimal rev.seq.toNat ++ [45] ++ hexText rev.rev.rev := by
    rw [bytes_textOfRev, List.append_assoc, List.singleton_append]
  rw [split] at fits ⊢
  have room : (decimal rev.seq.toNat ++ [45]).length < size.toNat := by
    rw [List.length_append] at fits
    omega
  exact (printed_first room buffer).hash rev.rev.rev fits

/-- A string that was copied with its terminator is the string in the buffer. -/
theorem stringIn_store {size : UInt64} {str : CString} (fits : str.bytes.length < size.toNat)
    (m : Memory) : 0 ∈ read (store m 0 (str.bytes ++ [0])) 0 size.toNat ∧
      stringIn (store m 0 (str.bytes ++ [0])) size = str := by
  have inside : (str.bytes ++ [0]).length ≤ size.toNat := by
    rw [List.length_append, List.length_singleton]
    omega
  obtain ⟨rest, hrest⟩ := Nat.exists_eq_add_of_le inside
  have whole : read (store m 0 (str.bytes ++ [0])) 0 size.toNat = str.bytes ++
      0 :: read (store m 0 (str.bytes ++ [0])) (str.bytes ++ [0]).length rest := by
    rw [hrest, ← read_append, read_store_self, List.append_assoc, List.singleton_append,
      Nat.zero_add]
  constructor
  · rw [whole]
    exact List.mem_append_right _ List.mem_cons_self
  · rw [stringIn, whole, CString.ofBytes_terminated]

/-- So is a text that was printed. -/
theorem Printed.stringIn {m : Memory} {size : UInt64} {str : CString} {s : PrintState}
    (printed : Printed m size str.bytes s) :
    0 ∈ read s.buffer 0 size.toNat ∧ RevPrint.stringIn s.buffer size = str := by
  rw [printed.buffer]
  exact stringIn_store printed.fits m

theorem length_decimal_le {n : Nat} (small : n < 2 ^ 64) : (decimal n).length ≤ 20 := by
  by_cases zero : n = 0
  · subst zero
    decide
  · have digits : (Nat.digits 10 n).length ≤ 20 :=
      (Nat.digits_length_le_iff (by decide) n).mpr (by omega)
    rw [decimal, if_neg zero, List.length_map, List.length_reverse]
    exact digits

/-- The longest text has 53 characters. -/
theorem length_textOfRev_le (rev : LaRev) : (textOfRev rev).bytes.length ≤ 53 := by
  have digits := length_decimal_le rev.seq.toNat_lt
  have hash := rev.rev.length_eq
  rw [bytes_textOfRev, List.length_append, List.length_cons, length_hexText]
  omega

/-- One of `0-9a-f`. -/
def isLowerHex (c : UInt8) : Bool := (48 ≤ c && c ≤ 57) || (97 ≤ c && c ≤ 102)

/-- A decimal number without leading zeros below 2^64, a dash, 32 lowercase hex digits. -/
def RevisionText (str : CString) : Prop :=
  ∃ digits hash, str.bytes = digits ++ 45 :: hash ∧
    digits ≠ [] ∧ (∀ c ∈ digits, isDigit c = true) ∧
    (digits.head? = some 48 → digits.length = 1) ∧
    digits.foldl (fun n c => 10 * n + (c.toNat - 48)) 0 < 2 ^ 64 ∧
    hash.length = 32 ∧ ∀ c ∈ hash, isLowerHex c = true

theorem exists_hexDigit (c : UInt8) (lower : isLowerHex c = true) :
    ∃ x < 16, hexDigit x = c := by
  revert c
  exact forall_byte (by decide +kernel)

/-- Pairs of lowercase hex digits are the text of some bytes. -/
theorem exists_hexText {n : Nat} {text : List UInt8} (length : text.length = 2 * n)
    (lower : ∀ c ∈ text, isLowerHex c = true) :
    ∃ bs : List UInt8, bs.length = n ∧ hexText bs = text := by
  induction n generalizing text with
  | zero =>
    rw [List.length_eq_zero_iff.mp length]
    exact ⟨[], rfl, rfl⟩
  | succ n ih =>
    match text, length with
    | a :: b :: rest, length =>
      have shorter : rest.length = 2 * n := by simpa [Nat.mul_add] using length
      obtain ⟨bs, hlen, hrest⟩ := ih shorter fun c hc =>
        lower c (List.mem_cons_of_mem _ (List.mem_cons_of_mem _ hc))
      obtain ⟨x, hx, rfl⟩ := exists_hexDigit a (lower a List.mem_cons_self)
      obtain ⟨y, hy, rfl⟩ := exists_hexDigit b
        (lower b (List.mem_cons_of_mem _ List.mem_cons_self))
      refine ⟨UInt8.ofNat (16 * x + y) :: bs, by simp [hlen], ?_⟩
      have value : (UInt8.ofNat (16 * x + y)).toNat = 16 * x + y := by
        simp only [UInt8.toNat_ofNat']
        omega
      have high : (16 * x + y) / 16 = x := by omega
      have low : (16 * x + y) % 16 = y := by omega
      rw [hexText_cons, value, high, low, hrest]

theorem digit_value (c : UInt8) (digit : isDigit c = true) :
    c.toNat - 48 < 10 ∧ UInt8.ofNat (48 + (c.toNat - 48)) = c := by
  revert c
  exact forall_byte (by decide +kernel)

/-- A number without leading zeros is the decimal text of its value. -/
theorem decimal_foldl {digits : List UInt8} (nonempty : digits ≠ [])
    (all : ∀ c ∈ digits, isDigit c = true)
    (leading : digits.head? = some 48 → digits.length = 1) :
    decimal (digits.foldl (fun n c => 10 * n + (c.toNat - 48)) 0) = digits := by
  obtain ⟨first, rest, rfl⟩ := List.exists_cons_of_ne_nil nonempty
  by_cases zero : first = 48
  · subst zero
    have single : rest = [] := by simpa using leading rfl
    subst single
    rfl
  · -- The values of the digits, least significant first.
    let ds := ((first :: rest).map fun c => c.toNat - 48).reverse
    have small : ∀ d ∈ ds, d < 10 := by
      intro d hd
      obtain ⟨c, hc, rfl⟩ := List.mem_map.mp (List.mem_reverse.mp hd)
      exact (digit_value c (all c hc)).1
    have back : (ds.reverse.map fun d => UInt8.ofNat (48 + d)) = first :: rest := by
      rw [List.reverse_reverse, List.map_map]
      exact List.map_congr_left (fun c hc => (digit_value c (all c hc)).2) |>.trans (List.map_id _)
    have value := foldl_digits ds small
    rw [back] at value
    have top : ∀ h : ds ≠ [], ds.getLast h ≠ 0 := by
      intro h
      have last : ds.getLast h = first.toNat - 48 := by simp [ds]
      rw [last]
      intro none
      have same := (digit_value first (all first List.mem_cons_self)).2
      rw [none] at same
      exact zero same.symm
    have digits := Nat.digits_ofDigits 10 (by decide) ds small top
    have pos : Nat.ofDigits 10 ds ≠ 0 := by
      intro none
      rw [none, Nat.digits_zero] at digits
      have length := congrArg List.length digits
      simp [ds] at length
    rw [value, decimal, if_neg pos, digits, back]

/-- The texts of this form are those of the revisions. -/
theorem RevisionText.exists_rev {str : CString} (text : RevisionText str) :
    ∃ rev, str = textOfRev rev := by
  obtain ⟨digits, hash, bytes, nonempty, all, leading, small, length, lower⟩ := text
  obtain ⟨bs, hlen, rfl⟩ := exists_hexText (n := 16) length lower
  refine ⟨⟨UInt64.ofNat (digits.foldl (fun n c => 10 * n + (c.toNat - 48)) 0), bs, hlen⟩, ?_⟩
  apply CString.ext
  have seq : (UInt64.ofNat (digits.foldl (fun n c => 10 * n + (c.toNat - 48)) 0)).toNat =
      digits.foldl (fun n c => 10 * n + (c.toNat - 48)) 0 := by
    simp only [UInt64.toNat_ofNat']
    exact Nat.mod_eq_of_lt small
  rw [bytes_textOfRev, seq, decimal_foldl nonempty all leading, bytes]

/-- In a buffer of 54 bytes every revision is printed as a string that `la_rev_scan` reads back,
and every text of a revision is what is printed of what was read. -/
theorem laRevScan_laRevPrint (buffer : Memory) (size : UInt64) (fits : 54 ≤ size.toNat) :
    (∀ rev junk : LaRev,
      0 ∈ read (laRevPrint rev buffer size).buffer 0 size.toNat ∧
      laRevScan (stringIn (laRevPrint rev buffer size).buffer size) junk = (true, rev)) ∧
    ∀ (str : CString) (junk : LaRev), RevisionText str →
      (laRevScan str junk).1 = true ∧
      stringIn (laRevPrint (laRevScan str junk).2 buffer size).buffer size = str := by
  have prints : ∀ rev : LaRev, Printed buffer size (textOfRev rev).bytes
      (laRevPrint rev buffer size) := by
    intro rev
    have short := length_textOfRev_le rev
    exact laRevPrint_fits (by omega) buffer
  constructor
  · intro rev junk
    obtain ⟨terminated, string⟩ := (prints rev).stringIn
    exact ⟨terminated, by rw [string, laRevScan_textOfRev]⟩
  · intro str junk text
    obtain ⟨rev, rfl⟩ := RevisionText.exists_rev text
    rw [laRevScan_textOfRev]
    exact ⟨rfl, (prints rev).stringIn.2⟩

/-- The largest number and a hash, in a buffer of 54 bytes. -/
theorem laRevScan_laRevPrint_largest :
    let rev : LaRev := ⟨UInt64.ofNat (2 ^ 64 - 1), uniformRev 171⟩
    0 ∈ read (laRevPrint rev (fun _ => 255) 54).buffer 0 54 ∧
      laRevScan (stringIn (laRevPrint rev (fun _ => 255) 54).buffer 54) ⟨0, zeroRev⟩ =
        (true, rev) :=
  (laRevScan_laRevPrint (fun _ => 255) 54 (by decide)).1 _ _

end RevPrint
