import Lounge.Revgen.RevScan

/-!
# What `la_rev_scan` accepts

A number as `sscanf` reads it at the front, and 32 hex digits behind the first dash. What
stands between the two, and behind them, is not looked at. `hx` also takes a `G`; texts with
one are left aside here.
-/

namespace RevFormat
open ObjectStore CouchRevgen RevScan
open FlatMemory (forall_byte)

/-- The value of a row of digits. -/
def decimalValue (digits : List UInt8) : Nat := digits.foldl (fun n c => 10 * n + (c.toNat - 48)) 0

/-- What `strtoull` makes of a sign and the digits behind it. -/
def converted (sign digits : List UInt8) : UInt64 :=
  if 2 ^ 64 ≤ decimalValue digits then UInt64.ofNat (2 ^ 64 - 1)
  else if sign = [45] then 0 - UInt64.ofNat (decimalValue digits)
  else UInt64.ofNat (decimalValue digits)

/-- A text has a number at its front: after white space and a sign, both optional, at least
one digit. The number takes all the digits there are. -/
def StartsWithNumber (str : List UInt8) (seq : UInt64) : Prop :=
  ∃ space sign digits rest, str = space ++ (sign ++ (digits ++ rest)) ∧
    (∀ c ∈ space, isSpace c = true) ∧ (sign = [] ∨ sign = [43] ∨ sign = [45]) ∧
    digits ≠ [] ∧ (∀ c ∈ digits, isDigit c = true) ∧ (∀ c ∈ rest.head?, isDigit c = false) ∧
    seq = converted sign digits

/-- The characters that `la_rev_scan` takes for the hash, as far as there are as many. -/
def hashPart (str : List UInt8) : List UInt8 :=
  ((str.dropWhile (· != 45)).drop 1).take (2 * laObjectRevisionLen)

/-- The texts of revisions, with what is allowed around them. -/
structure Accepted (str : List UInt8) (seq : UInt64) : Prop where
  number : StartsWithNumber str seq
  length : (hashPart str).length = 32
  hex : ∀ c ∈ hashPart str, isHexDigit c = true

/-- A text of the plain format: digits, a dash, a hash and nothing else. -/
structure PlainText (str digits hash : List UInt8) : Prop where
  text : str = digits ++ 45 :: hash
  nonempty : digits ≠ []
  decimal : ∀ c ∈ digits, isDigit c = true
  small : decimalValue digits < 2 ^ 64
  length : hash.length = 32
  hex : ∀ c ∈ hash, isHexDigit c = true

theorem takeWhile_stops {p : UInt8 → Bool} {rest : List UInt8}
    (stops : ∀ c ∈ rest.head?, p c = false) (xs : List UInt8) (all : ∀ c ∈ xs, p c = true) :
    (xs ++ rest).takeWhile p = xs ∧ (xs ++ rest).dropWhile p = rest := by
  rw [List.takeWhile_append_of_pos all, List.dropWhile_append_of_pos all]
  cases rest with
  | nil => simp
  | cons c tail =>
    have stop := stops c rfl
    simp [stop]

/-- A sign, and what stands behind it. -/
inductive Signed : List UInt8 → List UInt8 → Prop
  | none {tail : List UInt8} (plain : ∀ c ∈ tail.head?, c ≠ 43 ∧ c ≠ 45) : Signed [] tail
  | plus (tail : List UInt8) : Signed [43] tail
  | minus (tail : List UInt8) : Signed [45] tail

theorem exists_signed (str : List UInt8) : ∃ sign tail, str = sign ++ tail ∧ Signed sign tail := by
  cases str with
  | nil => exact ⟨[], [], rfl, .none (by simp)⟩
  | cons c rest =>
    by_cases plus : c = 43
    · subst plus
      exact ⟨[43], rest, rfl, .plus rest⟩
    · by_cases minus : c = 45
      · subst minus
        exact ⟨[45], rest, rfl, .minus rest⟩
      · exact ⟨[], c :: rest, rfl, .none (by simp [plus, minus])⟩

theorem Signed.head {sign tail : List UInt8} (signed : Signed sign tail) :
    (if (sign ++ tail).head? = some 43 ∨ (sign ++ tail).head? = some 45 then (sign ++ tail).tail
      else sign ++ tail) = tail ∧
    ((sign ++ tail).head? = some 45 ↔ sign = [45]) := by
  cases signed with
  | none plain =>
    have noPlus : tail.head? ≠ some 43 := fun head => (plain 43 head).1 rfl
    have noMinus : tail.head? ≠ some 45 := fun head => (plain 45 head).2 rfl
    simp [noPlus, noMinus]
  | plus => simp
  | minus => simp

/-- What `%llu` makes of a text that is cut behind its white space and sign. -/
theorem scanUnsigned_signed {str sign tail : List UInt8}
    (cut : str.dropWhile isSpace = sign ++ tail) (signed : Signed sign tail) :
    scanUnsigned str =
      if (tail.takeWhile isDigit).isEmpty then none
      else some (converted sign (tail.takeWhile isDigit)) := by
  obtain ⟨behind, negative⟩ := signed.head
  simp only [scanUnsigned, cut, behind]
  simp only [negative]
  congr 1
  generalize tail.takeWhile isDigit = digits
  rw [converted, decimalValue]
  by_cases large : 2 ^ 64 ≤ digits.foldl (fun n c => 10 * n + (c.toNat - 48)) 0
  · rw [if_pos large, if_pos large]
  · rw [if_neg large, if_neg large]
    split <;> rfl

/-- `%llu` converts exactly the texts with a number at the front. -/
theorem scanUnsigned_iff (str : List UInt8) (seq : UInt64) :
    scanUnsigned str = some seq ↔ StartsWithNumber str seq := by
  constructor
  · intro scanned
    obtain ⟨sign, tail, cut, signed⟩ := exists_signed (str.dropWhile isSpace)
    rw [scanUnsigned_signed cut signed] at scanned
    split at scanned
    · cases scanned
    · rename_i nonempty
      refine ⟨str.takeWhile isSpace, sign, tail.takeWhile isDigit, tail.dropWhile isDigit, ?_,
        ?_, ?_, by simpa using nonempty, ?_, ?_, (Option.some.inj scanned).symm⟩
      · rw [List.takeWhile_append_dropWhile, ← cut, List.takeWhile_append_dropWhile]
      · exact fun c hc => List.mem_takeWhile_imp hc
      · cases signed <;> simp
      · exact fun c hc => List.mem_takeWhile_imp hc
      · intro c hc
        have stopped := List.head?_dropWhile_not isDigit tail
        rw [Option.mem_def.mp hc] at stopped
        exact stopped
  · rintro ⟨space, sign, digits, rest, rfl, spaces, signs, nonempty, all, stops, rfl⟩
    obtain ⟨d, ds, rfl⟩ := List.exists_cons_of_ne_nil nonempty
    obtain ⟨noSpace, noPlus, noMinus⟩ := isDigit_plain d (all d List.mem_cons_self)
    have signed : Signed sign (d :: ds ++ rest) := by
      rcases signs with rfl | rfl | rfl
      · exact .none (by simp [noPlus, noMinus])
      · exact .plus _
      · exact .minus _
    have start : ∀ c ∈ (sign ++ (d :: ds ++ rest)).head?, isSpace c = false := by
      rcases signs with rfl | rfl | rfl
      · simpa using noSpace
      · exact fun c hc => by cases hc; rfl
      · exact fun c hc => by cases hc; rfl
    have cut := (takeWhile_stops start space spaces).2
    rw [scanUnsigned_signed cut signed, (takeWhile_stops stops (d :: ds) all).1]
    rfl

/-- On anything but a `G` the two decoders agree, and take the hexadecimal digits. -/
theorem hx_eq_nybble {c : UInt8} (noG : c ≠ 71) :
    hx c = nybble (toLower c) ∧ ((hx c).isSome = true ↔ isHexDigit c = true) := by
  have all : ∀ d : UInt8, d ≠ 71 →
      hx d = nybble (toLower d) ∧ ((hx d).isSome = true ↔ isHexDigit d = true) :=
    forall_byte (by decide +kernel)
  exact all c noG

/-- So do the two loops: by induction on the number of pairs. -/
theorem scanHash_iff {n : Nat} {p : List UInt8} (long : 2 * n ≤ p.length)
    (noG : 71 ∉ p.take (2 * n)) :
    ((scanHash n p).2 = true ↔ ∀ c ∈ p.take (2 * n), isHexDigit c = true) ∧
      ((scanHash n p).2 = true → (scanHash n p).1 = stringUnhex (p.take (2 * n))) := by
  induction n generalizing p with
  | zero => simp [scanHash, stringUnhex]
  | succ n ih =>
    obtain ⟨a, b, rest, rfl⟩ : ∃ a b rest, p = a :: b :: rest := by
      rcases p with - | ⟨a, - | ⟨b, rest⟩⟩
      · simp at long
      · simp only [List.length_singleton] at long
        omega
      · exact ⟨a, b, rest, rfl⟩
    have pairs : (a :: b :: rest).take (2 * (n + 1)) = a :: b :: rest.take (2 * n) := rfl
    rw [pairs] at noG ⊢
    simp only [List.mem_cons, not_or] at noG
    obtain ⟨agreeA, digitA⟩ := hx_eq_nybble (Ne.symm noG.1)
    obtain ⟨agreeB, digitB⟩ := hx_eq_nybble (Ne.symm noG.2.1)
    have shorter : 2 * n ≤ rest.length := by
      simp only [List.length_cons] at long
      omega
    obtain ⟨accepts, decodes⟩ := ih shorter noG.2.2
    simp only [List.forall_mem_cons, ← digitA, ← digitB, stringUnhex, ← agreeA, ← agreeB]
    cases ha : hx a with
    | none => simp [scanHash, ha]
    | some x =>
      cases hb : hx b with
      | none => simp [scanHash, ha, hb]
      | some y =>
        simp only [scanHash, ha, hb, Option.isSome_some, true_and, List.cons.injEq]
        exact ⟨accepts, decodes⟩

theorem hashPart_eq {str p : List UInt8} {c : UInt8} (dash : str.dropWhile (· != 45) = c :: p) :
    hashPart str = p.take 32 := by
  rw [hashPart, dash]
  rfl

theorem length_hashPart {str : List UInt8} (length : (hashPart str).length = 32) :
    ∃ c p, str.dropWhile (· != 45) = c :: p ∧ 32 ≤ p.length := by
  cases dash : str.dropWhile (· != 45) with
  | nil => simp [hashPart, dash] at length
  | cons c p =>
    rw [hashPart_eq dash, List.length_take] at length
    exact ⟨c, p, rfl, by omega⟩

/-- The digits of the hash make sixteen bytes. -/
theorem Accepted.unhexed {str : List UInt8} {seq : UInt64} (accepted : Accepted str seq) :
    (stringUnhex (hashPart str)).length = 16 := by
  rw [length_stringUnhex accepted.hex, accepted.length]

section Scan
variable {str : CString}

theorem laRevScan_of_accepted {seq : UInt64} (noG : 71 ∉ hashPart str.bytes)
    (accepted : Accepted str.bytes seq) (rev : LaRev) :
    laRevScan str rev = (true, ⟨seq, overwrite rev.rev (stringUnhex (hashPart str.bytes))⟩) := by
  have number := (scanUnsigned_iff str.bytes seq).mpr accepted.number
  obtain ⟨c, p, dash, long⟩ := length_hashPart accepted.length
  have hash := hashPart_eq dash
  have hex := accepted.hex
  rw [hash] at noG hex ⊢
  obtain ⟨accepts, decodes⟩ := scanHash_iff (n := laObjectRevisionLen) long noG
  have scanned := accepts.mpr hex
  have enough : ¬p.length < 2 * laObjectRevisionLen := Nat.not_lt.mpr long
  simp only [laRevScan, number, dash, if_neg enough, scanned, decodes scanned]
  rfl

theorem accepted_of_laRevScan {rev : LaRev} (noG : 71 ∉ hashPart str.bytes)
    (ok : (laRevScan str rev).1 = true) : ∃ seq, Accepted str.bytes seq := by
  simp only [laRevScan] at ok
  cases number : scanUnsigned str.bytes with
  | none => simp [number] at ok
  | some seq =>
    cases dash : str.bytes.dropWhile (· != 45) with
    | nil => simp [number, dash] at ok
    | cons c p =>
      simp only [number, dash] at ok
      split at ok
      · cases ok
      · rename_i long
        have hash := hashPart_eq dash
        rw [hash] at noG
        have hex := (scanHash_iff (n := laObjectRevisionLen) (Nat.not_lt.mp long) noG).1.mp ok
        refine ⟨seq, (scanUnsigned_iff str.bytes seq).mp number, ?_, ?_⟩
        · rw [hash, List.length_take]
          exact Nat.min_eq_left (Nat.not_lt.mp long)
        · rw [hash]
          exact hex

/-- A text of the plain format is accepted, with its number and its hash. -/
theorem PlainText.accepted {text digits hash : List UInt8} (plain : PlainText text digits hash) :
    Accepted text (UInt64.ofNat (decimalValue digits)) ∧ hashPart text = hash := by
  have noDash : ∀ c ∈ digits, (c != 45) = true := by
    intro c hc
    simpa using (isDigit_plain c (plain.decimal c hc)).2.2
  have dash : text.dropWhile (· != 45) = 45 :: hash := by
    rw [plain.text, List.dropWhile_append_of_pos noDash]
    rfl
  have whole : hashPart text = hash := by
    rw [hashPart_eq dash, List.take_of_length_le (by rw [plain.length])]
  refine ⟨⟨⟨[], [], digits, 45 :: hash, plain.text, by simp, Or.inl rfl, plain.nonempty,
    plain.decimal, ?_, ?_⟩, ?_, ?_⟩, whole⟩
  · exact fun c hc => by cases hc; rfl
  · rw [converted, if_neg (Nat.not_le.mpr plain.small)]
    rfl
  · rw [whole, plain.length]
  · rw [whole]
    exact plain.hex

/-- On texts without a `G` in the place of the hash, `la_rev_scan` returns 0 exactly where a
number stands at the front and 32 hex digits behind the first dash. It then has that number, and
the sixteen bytes that `la_storage_scan_rev` makes of those digits. The plain format is one of
these. -/
theorem laRevScan_accepts_iff (noG : 71 ∉ hashPart str.bytes) (rev : LaRev) :
    ((laRevScan str rev).1 = true ↔ ∃ seq, Accepted str.bytes seq) ∧
    (∀ seq, Accepted str.bytes seq → ∀ junk,
      laRevScan str rev =
        (true, ⟨seq, laStorageScanRev (CString.ofBytes (hashPart str.bytes)) junk⟩) ∧
      (stringUnhex (CString.ofBytes (hashPart str.bytes)).bytes).length = 16) ∧
    ∀ digits hash, PlainText str.bytes digits hash →
      Accepted str.bytes (UInt64.ofNat (decimalValue digits)) ∧ hashPart str.bytes = hash := by
  refine ⟨⟨accepted_of_laRevScan noG, ?_⟩, ?_, ?_⟩
  · rintro ⟨seq, accepted⟩
    rw [laRevScan_of_accepted noG accepted]
  · intro seq accepted junk
    have noNul : (0 : UInt8) ∉ hashPart str.bytes := by
      intro zero
      exact absurd (accepted.hex 0 zero) (by decide)
    have bytes := CString.bytes_ofBytes noNul
    have length := accepted.unhexed
    refine ⟨?_, by rw [bytes, length]⟩
    rw [laRevScan_of_accepted noG accepted, laStorageScanRev, bytes,
      List.take_of_length_le (by rw [length]; rfl), overwrite_full (by omega) rev.rev junk]
  · exact fun digits hash plain => plain.accepted

end Scan

section Samples

private def sampleHash : List UInt8 := List.replicate 32 102

/-- The text `1-ff..ff` and a character behind it. -/
private def longer : CString := CString.ofBytes ([49, 45] ++ sampleHash ++ [120])

private theorem longer_bytes : longer.bytes = [49, 45] ++ sampleHash ++ [120] :=
  CString.bytes_ofBytes (by decide)

private theorem longer_noG : 71 ∉ hashPart longer.bytes := by
  rw [longer_bytes]
  decide

theorem trailing_text_accepted :
    ∃ rev, (laRevScan longer rev).1 = true ∧
      ¬∃ digits hash, PlainText longer.bytes digits hash := by
  refine ⟨⟨0, zeroRev⟩, by decide +kernel, ?_⟩
  rintro ⟨digits, hash, plain⟩
  have behind : 120 ∈ longer.bytes := by
    rw [longer_bytes]
    decide
  rw [plain.text, List.mem_append, List.mem_cons] at behind
  rcases behind with digit | dash | hex
  · exact absurd (plain.decimal 120 digit) (by decide)
  · exact absurd dash (by decide)
  · exact absurd (plain.hex 120 hex) (by decide)

theorem longer_read : ∃ seq, Accepted longer.bytes seq :=
  (laRevScan_accepts_iff longer_noG ⟨0, zeroRev⟩).1.mp (by decide +kernel)

end Samples

end RevFormat
