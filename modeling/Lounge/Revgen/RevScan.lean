import Lounge.Revgen.CouchRevgen

/-!
# Revision texts

`la_rev_scan` of `revgen/revgen.c` reads `7-0123..`; `la_storage_scan_rev` reads the
hash alone, by `string_unhex` of `utils/stringutils.c`. Both leave what they could not
read as it was, so the previous contents of the revision are an argument.
-/

namespace RevScan
open ObjectStore CouchRevgen
open FlatMemory (forall_byte)

/-- `rev` with its first bytes overwritten. -/
def overwrite (rev : LaStorageRev) (bs : List UInt8) : LaStorageRev where
  rev := (bs ++ rev.rev.drop bs.length).take 16
  length_eq := by
    have := rev.length_eq
    simp
    omega

/-- Sixteen bytes leave nothing of what was there. -/
theorem overwrite_full {bs : List UInt8} (full : 16 ≤ bs.length) (r r' : LaStorageRev) :
    overwrite r bs = overwrite r' bs := by
  have hr := r.length_eq
  have hr' := r'.length_eq
  simp only [overwrite, LaStorageRev.mk.injEq]
  rw [List.drop_of_length_le (by omega), List.drop_of_length_le (by omega)]

def isDigit (c : UInt8) : Bool := 48 ≤ c && c ≤ 57

/-- `isspace` in the C locale. -/
def isSpace (c : UInt8) : Bool := c == 32 || (9 ≤ c && c ≤ 13)

/-- `sscanf` of `"%llu"`: the conversion of `strtoull`, which saturates, and negates what
follows a minus. -/
def scanUnsigned (str : List UInt8) : Option UInt64 :=
  let rest := str.dropWhile isSpace
  let digits := (if rest.head? = some 43 ∨ rest.head? = some 45 then rest.tail else rest).takeWhile
    isDigit
  if digits.isEmpty then none
  else
    let value := digits.foldl (fun n c => 10 * n + (c.toNat - 48)) 0
    if 2 ^ 64 ≤ value then some (UInt64.ofNat (2 ^ 64 - 1))
    else if rest.head? = some 45 then some (0 - UInt64.ofNat value)
    else some (UInt64.ofNat value)

/-- `hx`, which takes `G` for a digit. -/
def hx (c : UInt8) : Option Nat :=
  if 48 ≤ c && c ≤ 57 then some (c.toNat - 48)
  else if 97 ≤ c && c ≤ 102 then some (c.toNat - 97 + 10)
  else if 65 ≤ c && c ≤ 71 then some (c.toNat - 65 + 10)
  else none

/-- The bytes `la_rev_scan` stores before it returns, and whether it got through. -/
def scanHash : Nat → List UInt8 → List UInt8 × Bool
  | 0, _ => ([], true)
  | n + 1, a :: b :: rest =>
    match hx a, hx b with
    | some x, some y =>
      let r := scanHash n rest
      (UInt8.ofNat (x <<< 4 ||| y) :: r.1, r.2)
    | _, _ => ([], false)
  | _, _ => ([], false)

/-- `la_rev_scan`: whether it returns 0, and the revision then. -/
def laRevScan (str : CString) (rev : LaRev) : Bool × LaRev :=
  match scanUnsigned str.bytes with
  | none => (false, rev)
  | some seq =>
    match str.bytes.dropWhile (· != 45) with
    | [] => (false, { rev with seq := seq })
    | _ :: p =>
      if p.length < 2 * laObjectRevisionLen then (false, { rev with seq := seq })
      else
        let r := scanHash laObjectRevisionLen p
        (r.2, ⟨seq, overwrite rev.rev r.1⟩)

/-- `tolower` in the C locale. -/
def toLower (c : UInt8) : UInt8 := if 65 ≤ c && c ≤ 90 then c + 32 else c

def nybble (c : UInt8) : Option Nat :=
  if 48 ≤ c && c ≤ 57 then some (c.toNat - 48)
  else if 97 ≤ c && c ≤ 102 then some (c.toNat - 97 + 10)
  else none

/-- `string_unhex` into a buffer without end; it returns the number of bytes. -/
def stringUnhex : List UInt8 → List UInt8
  | a :: b :: rest =>
    match nybble (toLower a), nybble (toLower b) with
    | some x, some y => UInt8.ofNat (x <<< 4 ||| y) :: stringUnhex rest
    | _, _ => []
  | _ => []

/-- `la_storage_scan_rev`. -/
def laStorageScanRev (str : CString) (rev : LaStorageRev) : LaStorageRev :=
  overwrite rev ((stringUnhex str.bytes).take laObjectRevisionLen)

def hexDigit (n : Nat) : UInt8 := UInt8.ofNat (if n < 10 then 48 + n else 87 + n)

/-- `"%02x"` of every byte. -/
def hexText (bs : List UInt8) : List UInt8 :=
  bs.flatMap fun b => [hexDigit (b.toNat / 16), hexDigit (b.toNat % 16)]

theorem hexText_cons (b : UInt8) (bs : List UInt8) :
    hexText (b :: bs) = hexDigit (b.toNat / 16) :: hexDigit (b.toNat % 16) :: hexText bs := rfl

/-- `"%u"`. -/
def decimal (n : Nat) : List UInt8 :=
  if n = 0 then [48] else (Nat.digits 10 n).reverse.map fun d => UInt8.ofNat (48 + d)

/-- The text of a revision: its number, a dash, its hash. -/
def textOfRev (rev : LaRev) : CString :=
  CString.ofBytes (decimal rev.seq.toNat ++ 45 :: hexText rev.rev.rev)

theorem length_scanHash {n : Nat} {str : List UInt8} (ok : (scanHash n str).2 = true) :
    (scanHash n str).1.length = n := by
  fun_induction scanHash n str with
  | case1 => rfl
  | case2 n a b rest x y hx hy r ih => simpa using ih ok
  | case3 => cases ok
  | case4 => cases ok

/-- A revision that was read does not depend on what was there before. -/
theorem laRevScan_determined {str : CString} {rev : LaRev}
    (ok : (laRevScan str rev).1 = true) (rev' : LaRev) :
    laRevScan str rev' = laRevScan str rev := by
  simp only [laRevScan] at ok ⊢
  cases hs : scanUnsigned str.bytes with
  | none => simp [hs] at ok
  | some seq =>
    simp only [hs] at ok ⊢
    split at ok
    · cases ok
    · rename_i p hp
      by_cases short : p.length < 2 * laObjectRevisionLen
      · simp [short] at ok
      · simp only [if_neg short] at ok ⊢
        have full := length_scanHash ok
        rw [overwrite_full (by rw [full]; decide) rev'.rev rev.rev]

theorem laStorageScanRev_determined {str : CString}
    (full : laObjectRevisionLen ≤ (stringUnhex str.bytes).length) (r r' : LaStorageRev) :
    laStorageScanRev str r = laStorageScanRev str r' := by
  apply overwrite_full
  rw [List.length_take, laObjectRevisionLen] at *
  omega

theorem nybble_hexDigit : ∀ n < 16, nybble (toLower (hexDigit n)) = some n := by decide

theorem hx_hexDigit : ∀ n < 16, hx (hexDigit n) = some n := by decide

theorem hexDigit_ne_zero : ∀ n < 16, hexDigit n ≠ 0 := by decide

theorem byte_of_nybbles (b : UInt8) :
    UInt8.ofNat ((b.toNat / 16) <<< 4 ||| b.toNat % 16) = b := by
  have low : b.toNat % 16 < 2 ^ 4 := Nat.mod_lt _ (by decide)
  have value : (b.toNat / 16) <<< 4 + b.toNat % 16 = b.toNat := by
    rw [Nat.shiftLeft_eq]
    omega
  rw [← Nat.shiftLeft_add_eq_or_of_lt low, value, UInt8.ofNat_toNat]

theorem nybbles_lt (b : UInt8) : b.toNat / 16 < 16 ∧ b.toNat % 16 < 16 := by
  have := b.toNat_lt
  omega

theorem stringUnhex_hexText (bs : List UInt8) : stringUnhex (hexText bs) = bs := by
  induction bs with
  | nil => rfl
  | cons b rest ih =>
    obtain ⟨high, low⟩ := nybbles_lt b
    rw [hexText_cons, stringUnhex, nybble_hexDigit _ high, nybble_hexDigit _ low]
    simp only [byte_of_nybbles, ih]

/-- A hexadecimal digit of either case. -/
def isHexDigit (c : UInt8) : Bool :=
  (48 ≤ c && c ≤ 57) || (97 ≤ c && c ≤ 102) || (65 ≤ c && c ≤ 70)

theorem nybble_of_isHexDigit {c : UInt8} (hex : isHexDigit c = true) :
    ∃ x, nybble (toLower c) = some x := by
  have all : ∀ d, isHexDigit d = true → (nybble (toLower d)).isSome = true :=
    forall_byte (by decide +kernel)
  exact Option.isSome_iff_exists.mp (all c hex)

/-- Every pair of digits makes a byte. -/
theorem length_stringUnhex {str : List UInt8} (hex : ∀ c ∈ str, isHexDigit c = true) :
    (stringUnhex str).length = str.length / 2 := by
  fun_induction stringUnhex str with
  | case1 a b rest x y ha hb ih =>
    have digits := ih fun c hc => hex c (List.mem_cons_of_mem a (List.mem_cons_of_mem b hc))
    rw [List.length_cons, List.length_cons, List.length_cons, digits]
    omega
  | case2 a b rest stop =>
    obtain ⟨x, hx⟩ := nybble_of_isHexDigit (hex a List.mem_cons_self)
    obtain ⟨y, hy⟩ := nybble_of_isHexDigit
      (hex b (List.mem_cons_of_mem a List.mem_cons_self))
    exact absurd hy (stop x y hx)
  | case3 rest short =>
    rcases rest with _ | ⟨a, _ | ⟨b, rest⟩⟩
    · rfl
    · simp
    · exact absurd rfl (short a b rest)

theorem scanHash_hexText (bs : List UInt8) : scanHash bs.length (hexText bs) = (bs, true) := by
  induction bs with
  | nil => rfl
  | cons b rest ih =>
    obtain ⟨high, low⟩ := nybbles_lt b
    rw [hexText_cons, List.length_cons, scanHash, hx_hexDigit _ high, hx_hexDigit _ low]
    simp only [byte_of_nybbles, ih]

theorem hexText_noNul (bs : List UInt8) : (0 : UInt8) ∉ hexText bs := by
  intro h
  obtain ⟨b, _, hb⟩ := List.mem_flatMap.mp h
  obtain ⟨high, low⟩ := nybbles_lt b
  simp only [List.mem_cons, List.not_mem_nil, or_false] at hb
  rcases hb with hb | hb
  · exact hexDigit_ne_zero _ high hb.symm
  · exact hexDigit_ne_zero _ low hb.symm

@[simp] theorem length_hexText (bs : List UInt8) : (hexText bs).length = 2 * bs.length := by
  induction bs with
  | nil => rfl
  | cons b rest ih =>
    simp only [hexText, List.flatMap_cons, List.length_append, List.length_cons,
      List.length_nil] at ih ⊢
    omega

theorem overwrite_self (r junk : LaStorageRev) : overwrite junk r.rev = r := by
  obtain ⟨bs, hbs⟩ := r
  have hj := junk.length_eq
  simp only [overwrite, LaStorageRev.mk.injEq]
  rw [List.drop_of_length_le (by omega), List.append_nil, List.take_of_length_le (by omega)]

/-- A hash that was printed is read back. -/
theorem laStorageScanRev_hexText (r junk : LaStorageRev) :
    laStorageScanRev (CString.ofBytes (hexText r.rev)) junk = r := by
  have hr := r.length_eq
  rw [laStorageScanRev, CString.bytes_ofBytes (hexText_noNul r.rev), stringUnhex_hexText,
    List.take_of_length_le (by rw [laObjectRevisionLen]; omega), overwrite_self]

theorem decimal_digit : ∀ d < 10, isDigit (UInt8.ofNat (48 + d)) = true ∧
    (UInt8.ofNat (48 + d)).toNat - 48 = d := by decide

theorem isDigit_plain (c : UInt8) (h : isDigit c = true) :
    isSpace c = false ∧ c ≠ 43 ∧ c ≠ 45 := by
  revert c
  exact forall_byte (by decide +kernel)

/-- Digits, least significant first, are what `strtoull` adds up in the other direction. -/
theorem foldl_digits (ds : List Nat) (small : ∀ d ∈ ds, d < 10) :
    (ds.reverse.map fun d => UInt8.ofNat (48 + d)).foldl
      (fun n c => 10 * n + (c.toNat - 48)) 0 = Nat.ofDigits 10 ds := by
  rw [List.foldl_map, List.foldl_reverse]
  induction ds with
  | nil => rfl
  | cons d rest ih =>
    rw [List.foldr_cons, ih fun e he => small e (List.mem_cons_of_mem d he),
      (decimal_digit d (small d List.mem_cons_self)).2, Nat.ofDigits_cons]
    simp [Nat.add_comm]

theorem decimal_digits (n : Nat) :
    (∀ c ∈ decimal n, isDigit c = true) ∧ decimal n ≠ [] ∧
      (decimal n).foldl (fun n c => 10 * n + (c.toNat - 48)) 0 = n := by
  by_cases zero : n = 0
  · subst zero
    have one : decimal 0 = [48] := rfl
    rw [one]
    refine ⟨fun c hc => ?_, List.cons_ne_nil _ _, rfl⟩
    rw [List.mem_singleton.mp hc]
    rfl
  · have small : ∀ d ∈ Nat.digits 10 n, d < 10 := fun d hd => Nat.digits_lt_base (by decide) hd
    simp only [decimal, if_neg zero]
    refine ⟨?_, ?_, ?_⟩
    · intro c hc
      obtain ⟨d, hd, rfl⟩ := List.mem_map.mp hc
      exact (decimal_digit d (small d (List.mem_reverse.mp hd))).1
    · simpa [Nat.digits_eq_nil_iff_eq_zero] using zero
    · rw [foldl_digits _ small, Nat.ofDigits_digits]

/-- A number that was printed is read back, up to the dash behind it. -/
theorem scanUnsigned_decimal {n : Nat} (small : n < 2 ^ 64) (rest : List UInt8) :
    scanUnsigned (decimal n ++ 45 :: rest) = some (UInt64.ofNat n) := by
  obtain ⟨digits, nonempty, value⟩ := decimal_digits n
  have whole : (decimal n ++ 45 :: rest).takeWhile isDigit = decimal n := by
    rw [List.takeWhile_append_of_pos digits]
    have stop : (45 :: rest).takeWhile isDigit = [] := by
      rw [List.takeWhile_cons_of_neg]
      decide
    rw [stop, List.append_nil]
  obtain ⟨c, cs, hc⟩ := List.exists_cons_of_ne_nil nonempty
  obtain ⟨noSpace, noPlus, noMinus⟩ := isDigit_plain c (digits c (hc ▸ List.mem_cons_self))
  have start : (decimal n ++ 45 :: rest).dropWhile isSpace = decimal n ++ 45 :: rest := by
    rw [hc, List.cons_append, List.dropWhile_cons_of_neg]
    simp [noSpace]
  have head : (decimal n ++ 45 :: rest).head? = some c := by rw [hc]; rfl
  have fits : ¬ 2 ^ 64 ≤ n := by omega
  simp only [scanUnsigned, start, head, Option.some.injEq, noPlus, noMinus, or_self, if_false,
    whole, value, fits]
  simp [nonempty]

theorem revBytes_noNul (rev : LaRev) :
    (0 : UInt8) ∉ decimal rev.seq.toNat ++ 45 :: hexText rev.rev.rev := by
  obtain ⟨digits, _, _⟩ := decimal_digits rev.seq.toNat
  simp only [List.mem_append, List.mem_cons, not_or]
  refine ⟨fun h => ?_, by decide, hexText_noNul _⟩
  exact absurd (digits 0 h) (by decide)

theorem bytes_textOfRev (rev : LaRev) :
    (textOfRev rev).bytes = decimal rev.seq.toNat ++ 45 :: hexText rev.rev.rev :=
  CString.bytes_ofBytes (revBytes_noNul rev)

/-- A revision that was printed is read back by `la_rev_scan`. -/
theorem laRevScan_textOfRev (rev junk : LaRev) :
    laRevScan (textOfRev rev) junk = (true, rev) := by
  obtain ⟨digits, _, _⟩ := decimal_digits rev.seq.toNat
  have plain : ∀ c ∈ decimal rev.seq.toNat, c ≠ 45 :=
    fun c hc => (isDigit_plain c (digits c hc)).2.2
  have dash : (decimal rev.seq.toNat ++ 45 :: hexText rev.rev.rev).dropWhile (· != 45) =
      45 :: hexText rev.rev.rev := by
    rw [List.dropWhile_append_of_pos (by simpa using plain)]
    rfl
  have hlen := rev.rev.length_eq
  have scan := scanHash_hexText rev.rev.rev
  rw [hlen] at scan
  have long : ¬ (hexText rev.rev.rev).length < 2 * laObjectRevisionLen := by
    rw [length_hexText, hlen]
    decide
  have hash : scanHash laObjectRevisionLen (hexText rev.rev.rev) = (rev.rev.rev, true) := scan
  simp only [laRevScan, bytes_textOfRev, scanUnsigned_decimal rev.seq.toNat_lt, dash, if_neg long,
    hash, overwrite_self, UInt64.ofNat_toNat]

end RevScan
