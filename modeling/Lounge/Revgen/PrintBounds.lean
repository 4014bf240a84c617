import Lounge.Revgen.RevPrint

/-!
# Printing revisions into small buffers

A piece that does not fit is cut by `snprintf`, which returns its whole length all the same. By
that `la_rev_print` moves on, past the end of the buffer if need be, where the size left has
wrapped around. `la_rev_string` prints into a buffer one byte short of the longest text.
-/

namespace PrintBounds
open FlatMemory ObjectStore CouchRevgen RevScan RevPrint

/-- One `snprintf` of `la_rev_print`. -/
structure PrintCall where
  off : Nat
  size : UInt64
  text : List UInt8

/-- How many bytes the call writes, the terminator among them. -/
def PrintCall.extent (c : PrintCall) : Nat :=
  if c.size = 0 then 0 else min c.text.length (c.size.toNat - 1) + 1

def PrintCall.Inside (c : PrintCall) (size : UInt64) : Prop :=
  c.extent = 0 ∨ c.off + c.extent ≤ size.toNat

/-- The texts of the seventeen calls. -/
def pieces (rev : LaRev) : List (List UInt8) :=
  (decimal rev.seq.toNat ++ [45]) :: rev.rev.rev.map fun b => hexText [b]

/-- The calls that print these texts. -/
def printCalls : PrintState → List (List UInt8) → List PrintCall
  | _, [] => []
  | s, text :: rest => ⟨s.off, s.size, text⟩ :: printCalls (printNext s text) rest

/-- As much of the text as goes into `size` bytes with a terminator. -/
def fitting (rev : LaRev) (size : UInt64) : List UInt8 :=
  (textOfRev rev).bytes.take (size.toNat - 1)

/-- Only the buffer is written to, and the text stands in it as far as it fits. -/
structure PrintsBounded (rev : LaRev) (buffer : Memory) (size : UInt64) : Prop where
  inside : ∀ c ∈ printCalls ⟨buffer, 0, size, 0⟩ (pieces rev), c.Inside size
  text : read (laRevPrint rev buffer size).buffer 0 ((fitting rev size).length + 1) =
    fitting rev size ++ [0]

/-- The static buffer of `la_rev_string`. -/
def strbufSize : UInt64 := UInt64.ofNat (20 + laObjectRevisionLen * 2 + 1)

/-- `la_rev_string`. -/
def laRevString (strbuf : Memory) (rev : LaRev) : CString :=
  stringIn (laRevPrint rev strbuf strbufSize).buffer strbufSize

theorem flatten_pieces (rev : LaRev) : (pieces rev).flatten = (textOfRev rev).bytes := by
  have hash : (rev.rev.rev.map fun b => hexText [b]).flatten = hexText rev.rev.rev := by
    simp [hexText, List.flatMap]
  rw [pieces, List.flatten_cons, hash, bytes_textOfRev, List.append_assoc, List.singleton_append]

section Locals
variable (s : PrintState) (texts : List (List UInt8))

/-- The offset and the size left only depend on the lengths. -/
theorem foldl_printNext : (texts.foldl printNext s).off = s.off + texts.flatten.length ∧
    (texts.foldl printNext s).size = s.size - UInt64.ofNat texts.flatten.length := by
  induction texts generalizing s with
  | nil => simp
  | cons text rest ih =>
    obtain ⟨off, size⟩ := ih (printNext s text)
    rw [List.foldl_cons, off, size, List.flatten_cons, List.length_append, UInt64.ofNat_add]
    constructor
    · simp only [printNext]
      omega
    · simp only [printNext]
      grind

theorem printCalls_snoc (last : List UInt8) :
    printCalls s (texts ++ [last]) = printCalls s texts ++
      [⟨(texts.foldl printNext s).off, (texts.foldl printNext s).size, last⟩] := by
  induction texts generalizing s with
  | nil => rfl
  | cons text rest ih => exact congrArg (_ :: ·) (ih (printNext s text))

end Locals

/-- What was printed so far stands in the buffer as far as it fits. -/
structure Cut (m : Memory) (size : UInt64) (text : List UInt8) (s : PrintState) : Prop where
  buffer : s.buffer = store m 0 (text.take (size.toNat - 1) ++ [0])
  off : s.off = text.length
  left : s.size = size - UInt64.ofNat text.length

section Pieces
variable {m : Memory} {size : UInt64} {text : List UInt8} {s : PrintState}

theorem cut_first (pos : size ≠ 0) (m : Memory) (text : List UInt8) :
    Cut m size text (printNext ⟨m, 0, size, 0⟩ text) := by
  refine ⟨?_, Nat.zero_add _, rfl⟩
  simp only [printNext, snprintf, if_neg pos]

/-- A piece that starts in the buffer, or right behind it, stays inside. -/
theorem Cut.next (cut : Cut m size text s) (room : text.length ≤ size.toNat)
    (more : List UInt8) :
    Cut m size (text ++ more) (printNext s more) ∧
      (⟨s.off, s.size, more⟩ : PrintCall).Inside size := by
  have left : (printNext s more).size = size - UInt64.ofNat (text ++ more).length := by
    rw [printNext, cut.left, List.length_append, UInt64.ofNat_add]
    grind
  have off : (printNext s more).off = (text ++ more).length := by
    rw [printNext, cut.off, List.length_append]
  rcases Nat.lt_or_eq_of_le room with fits | full
  · have rest : s.size.toNat = size.toNat - text.length := by rw [cut.left, size_sub fits]
    have pos : s.size ≠ 0 := by
      intro zero
      rw [zero] at rest
      simp at rest
      omega
    refine ⟨⟨?_, off, left⟩, Or.inr ?_⟩
    · have whole : text.take (size.toNat - 1) = text := List.take_of_length_le (by omega)
      have cutMore : (text ++ more).take (size.toNat - 1) =
          text ++ more.take (s.size.toNat - 1) := by
        have split : size.toNat - 1 = text.length + (s.size.toNat - 1) := by omega
        rw [split, List.take_length_add_append]
      have both : store (store m 0 (text ++ [0])) (0 + text.length)
          (more.take (s.size.toNat - 1) ++ [0]) =
          store m 0 (text ++ (more.take (s.size.toNat - 1) ++ [0])) :=
        store_append (by simp)
      rw [printNext, snprintf, if_neg pos, cut.buffer, cut.off, whole, cutMore,
        List.append_assoc, ← both, Nat.zero_add]
    · simp only [PrintCall.extent, if_neg pos, cut.off]
      omega
  · have none : s.size = 0 := by
      rw [cut.left, full, UInt64.ofNat_toNat, UInt64.sub_self]
    refine ⟨⟨?_, off, left⟩, Or.inl ?_⟩
    · rw [printNext, snprintf, if_pos none, cut.buffer,
        List.take_append_of_le_length (by omega)]
    · simp [PrintCall.extent, none]

/-- The loop over the hash, by induction: each piece but the first has a piece before it. -/
theorem Cut.hash (cut : Cut m size text s) (bs : List UInt8)
    (room : bs ≠ [] → text.length + 2 * (bs.length - 1) ≤ size.toNat) :
    Cut m size (text ++ hexText bs) (bs.foldl (fun s b => printNext s (hexText [b])) s) ∧
      ∀ c ∈ printCalls s (bs.map fun b => hexText [b]), c.Inside size := by
  induction bs generalizing text s with
  | nil => simpa [hexText, printCalls] using cut
  | cons b rest ih =>
    have here := room (List.cons_ne_nil b rest)
    have split : hexText (b :: rest) = hexText [b] ++ hexText rest := rfl
    obtain ⟨next, inside⟩ := cut.next (by omega) (hexText [b])
    have behind : rest ≠ [] → (text ++ hexText [b]).length + 2 * (rest.length - 1) ≤
        size.toNat := by
      intro some
      have pos := List.length_pos_iff.mpr some
      simp only [List.length_append, length_hexText, List.length_cons, List.length_nil] at here ⊢
      omega
    obtain ⟨whole, others⟩ := ih next behind
    refine ⟨?_, ?_⟩
    · rw [split, ← List.append_assoc]
      exact whole
    · intro c made
      rcases List.mem_cons.mp made with rfl | made
      · exact inside
      · exact others c made

end Pieces

section Bounds
variable {rev : LaRev} {size : UInt64}

theorem length_textOfRev (rev : LaRev) :
    (textOfRev rev).bytes.length = (decimal rev.seq.toNat).length + 33 := by
  have hash := rev.rev.length_eq
  rw [bytes_textOfRev, List.length_append, List.length_cons, length_hexText]
  omega

/-- With two bytes less than the text has characters, every call stays inside. -/
theorem printsBounded (room : (textOfRev rev).bytes.length ≤ size.toNat + 2) (buffer : Memory) :
    PrintsBounded rev buffer size ∧
      (laRevPrint rev buffer size).buffer = store buffer 0 (fitting rev size ++ [0]) := by
  have hash := rev.rev.length_eq
  rw [length_textOfRev] at room
  have pos : size ≠ 0 := by
    rintro rfl
    simp at room
  have first := cut_first pos buffer (decimal rev.seq.toNat ++ [45])
  have fits : rev.rev.rev ≠ [] →
      (decimal rev.seq.toNat ++ [45]).length + 2 * (rev.rev.rev.length - 1) ≤ size.toNat := by
    intro _
    rw [List.length_append, List.length_singleton, hash]
    omega
  obtain ⟨whole, inside⟩ := first.hash rev.rev.rev fits
  have text : decimal rev.seq.toNat ++ [45] ++ hexText rev.rev.rev = (textOfRev rev).bytes := by
    rw [bytes_textOfRev, List.append_assoc, List.singleton_append]
  have buffered : (laRevPrint rev buffer size).buffer =
      store buffer 0 (fitting rev size ++ [0]) := by
    rw [fitting, ← text]
    exact whole.buffer
  refine ⟨⟨?_, ?_⟩, buffered⟩
  · intro c made
    rcases List.mem_cons.mp made with rfl | made
    · right
      simp only [PrintCall.extent, if_neg pos, Nat.zero_add]
      omega
    · exact inside c made
  · have length : (fitting rev size).length + 1 = (fitting rev size ++ [0]).length := by
      rw [List.length_append, List.length_singleton]
    rw [buffered, length, read_store_self]

/-- With less, the last call starts behind the buffer, and is given a size that has wrapped. -/
theorem not_inside (short : size.toNat + 2 < (textOfRev rev).bytes.length) (buffer : Memory) :
    ∃ c ∈ printCalls ⟨buffer, 0, size, 0⟩ (pieces rev), ¬c.Inside size := by
  have hash := rev.rev.length_eq
  have digits := length_decimal_le rev.seq.toNat_lt
  rw [length_textOfRev] at short
  have some : rev.rev.rev ≠ [] := by
    intro none
    rw [none] at hash
    cases hash
  -- The last byte of the hash, and the pieces before its own.
  obtain ⟨bs, last, split⟩ : ∃ bs last, rev.rev.rev = bs ++ [last] :=
    ⟨_, _, (List.dropLast_append_getLast some).symm⟩
  obtain ⟨front, hfront⟩ : ∃ front, front =
      (decimal rev.seq.toNat ++ [45]) :: bs.map fun b => hexText [b] := ⟨_, rfl⟩
  have whole : pieces rev = front ++ [hexText [last]] := by
    rw [pieces, split, List.map_append, hfront]
    rfl
  have length : front.flatten.length = (decimal rev.seq.toNat).length + 31 := by
    have all := congrArg (fun texts => texts.flatten.length) whole
    simp only [flatten_pieces, length_textOfRev, List.flatten_append, List.length_append,
      List.flatten_singleton, length_hexText, List.length_singleton] at all
    omega
  obtain ⟨off, left⟩ := foldl_printNext ⟨buffer, 0, size, 0⟩ front
  rw [whole, printCalls_snoc]
  refine ⟨_, List.mem_append_right _ List.mem_cons_self, ?_⟩
  have wrapped : 3 ≤ (front.foldl printNext ⟨buffer, 0, size, 0⟩).size.toNat := by
    rw [left, UInt64.toNat_sub, UInt64.toNat_ofNat']
    dsimp only
    omega
  have pos : (front.foldl printNext ⟨buffer, 0, size, 0⟩).size ≠ 0 := by
    intro zero
    rw [zero] at wrapped
    simp at wrapped
  simp only [PrintCall.Inside, PrintCall.extent, if_neg pos, off, length_hexText,
    List.length_singleton]
  omega

/-- The first `size` bytes are all that is written, and hold what fits of the text, exactly if
there are at most two characters more than bytes. -/
theorem printsBounded_iff (rev : LaRev) (buffer : Memory) (size : UInt64) :
    PrintsBounded rev buffer size ↔ (textOfRev rev).bytes.length ≤ size.toNat + 2 := by
  constructor
  · intro bounded
    by_contra short
    obtain ⟨c, made, outside⟩ := not_inside (Nat.not_le.mp short) buffer
    exact outside (bounded.inside c made)
  · exact fun room => (printsBounded room buffer).1

/-- Into a single byte, 1-00.. is printed behind it. -/
theorem single_byte_overrun : ¬PrintsBounded ⟨1, uniformRev 0⟩ (fun _ => 255) 1 := by
  intro bounded
  have short : (1 : UInt64).toNat + 2 < (textOfRev ⟨1, uniformRev 0⟩).bytes.length := by
    rw [length_textOfRev]
    exact Nat.lt_of_lt_of_le (by decide) (Nat.le_add_left 33 _)
  obtain ⟨c, made, outside⟩ := not_inside short fun _ => 255
  exact outside (bounded.inside c made)

end Bounds

section Strbuf

/-- The numbers of twenty digits make the text of 53 characters. -/
theorem length_textOfRev_lt_iff (rev : LaRev) :
    (textOfRev rev).bytes.length < 53 ↔ rev.seq.toNat < 10 ^ 19 := by
  rw [length_textOfRev]
  by_cases zero : rev.seq.toNat = 0
  · rw [zero]
    decide
  · have digits := Nat.digits_length_le_iff (by decide : 1 < 10) (k := 19) rev.seq.toNat
    rw [decimal, if_neg zero, List.length_map, List.length_reverse, ← digits]
    omega

/-- A string without 32 characters behind its first dash is not scanned. -/
theorem laRevScan_short {str : CString} (short : (str.bytes.dropWhile (· != 45)).length ≤ 32)
    (junk : LaRev) : (laRevScan str junk).1 = false := by
  unfold laRevScan
  split
  · rfl
  · split
    · rfl
    · rename_i dash
      rw [dash, List.length_cons] at short
      rw [if_pos (by rw [laObjectRevisionLen]; omega)]

/-- The text of a revision that was cut is such a string. -/
theorem dropWhile_cut (rev : LaRev) {n : Nat} (cut : n < (textOfRev rev).bytes.length) :
    (((textOfRev rev).bytes.take n).dropWhile (· != 45)).length ≤ 32 := by
  have hash := rev.rev.length_eq
  obtain ⟨digits, -, -⟩ := decimal_digits rev.seq.toNat
  have plain : ∀ c ∈ (decimal rev.seq.toNat).take n, (c != 45) = true := by
    intro c hc
    simpa using (isDigit_plain c (digits c (List.mem_of_mem_take hc))).2.2
  rw [length_textOfRev] at cut
  rw [bytes_textOfRev, List.take_append, List.dropWhile_append_of_pos plain]
  refine (List.length_dropWhile_le _ _).trans ?_
  rw [List.length_take, List.length_cons, length_hexText]
  omega

/-- What is printed into the static buffer is read back exactly if the number has fewer than
twenty digits. -/
theorem laRevScan_laRevString_iff (strbuf : Memory) (rev junk : LaRev) :
    laRevScan (laRevString strbuf rev) junk = (true, rev) ↔ rev.seq.toNat < 10 ^ 19 := by
  rw [← length_textOfRev_lt_iff]
  have longest := length_textOfRev_le rev
  have size : strbufSize.toNat = 53 := by decide
  constructor
  · intro scanned
    by_contra long
    have room : (textOfRev rev).bytes.length ≤ strbufSize.toNat + 2 := by omega
    -- The last digit has no place in front of the terminator.
    let cut : CString := ⟨fitting rev strbufSize,
      fun zero => (textOfRev rev).noNul (List.mem_of_mem_take zero)⟩
    have length : cut.bytes.length < strbufSize.toNat := by
      simp only [cut, fitting, List.length_take]
      omega
    have string : laRevString strbuf rev = cut := by
      rw [laRevString, (printsBounded room strbuf).2]
      exact (stringIn_store length strbuf).2
    have short : (cut.bytes.dropWhile (· != 45)).length ≤ 32 :=
      dropWhile_cut rev (n := strbufSize.toNat - 1) (by omega)
    have refused := laRevScan_short short junk
    rw [← string, scanned] at refused
    cases refused
  · intro short
    have fits : (textOfRev rev).bytes.length < strbufSize.toNat := by omega
    obtain ⟨-, string⟩ := (laRevPrint_fits fits strbuf).stringIn
    rw [laRevString, string, laRevScan_textOfRev]

/-- 10000000000000000000-ff.. comes back with 31 digits of its hash. -/
theorem largest_numbers_cut :
    (laRevScan (laRevString (fun _ => 0) ⟨10000000000000000000, uniformRev 255⟩)
      ⟨0, zeroRev⟩).1 = false := by
  decide +kernel

end Strbuf

end PrintBounds
