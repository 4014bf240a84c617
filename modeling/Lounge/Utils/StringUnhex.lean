import Lounge.Lib.FlatMemory
import Lounge.Lib.PercentText
import Lounge.Revgen.RevScan

/-!
# Hex decoding

`string_unhex` of `utils/stringutils.c` with the buffer it decodes into. It counts every pair of
digits, and stores as many bytes as the buffer takes.
-/

namespace StringUnhex
open FlatMemory ObjectStore PercentText RevScan

/-- The loop of `string_unhex` on the characters from `str[i]` on. -/
def unhexLoop (size : UInt64) : List UInt8 → Nat → Nat → Memory → Nat × Memory
  | a :: b :: rest, j, count, buf =>
    match nybble (toLower a), nybble (toLower b) with
    | some x, some y =>
      unhexLoop size rest (j + 1) (count + 1)
        (if j < size.toNat then store buf j [UInt8.ofNat (x <<< 4 ||| y)] else buf)
    | _, _ => (count, buf)
  | _, _, count, buf => (count, buf)

/-- `string_unhex`: what it returns, and the buffer. The length of the string is an `int`. -/
def stringUnhexInto (str : CString) (buf : Memory) (size : UInt64) : Nat × Memory :=
  unhexLoop size (str.bytes.take (Int32.ofNat str.strlen).toInt.toNat) 0 0 buf

/-- The byte of the `j`-th pair of characters, if both are hex digits. -/
def pairAt (bytes : List UInt8) (j : Nat) : Option UInt8 :=
  match bytes[2 * j]?, bytes[2 * j + 1]? with
  | some a, some b =>
    match hexValue a, hexValue b with
    | some x, some y => some (UInt8.ofNat (16 * x + y))
    | _, _ => none
  | _, _ => none

/-- The pairs at the front of a string are counted, and stored as far as there is room. -/
structure Unhexed (bytes : List UInt8) (buf : Memory) (size : UInt64) (ret : Nat × Memory) :
    Prop where
  pairs : ∀ j, j < ret.1 → (pairAt bytes j).isSome = true
  stops : pairAt bytes ret.1 = none
  stored : ∀ j, j < min ret.1 size.toNat → pairAt bytes j = some (ret.2 j)
  rest : ∀ j, min ret.1 size.toNat ≤ j → ret.2 j = buf j

/-- `toupper` in the C locale. -/
def toUpper (c : UInt8) : UInt8 := if 97 ≤ c && c ≤ 122 then c - 32 else c

/-- Both cases of a digit have its value. -/
theorem nybble_toLower (c : UInt8) : nybble (toLower c) = hexValue c :=
  forall_byte (p := fun c => nybble (toLower c) = hexValue c) (by decide +kernel) c

theorem hexValue_lt {c : UInt8} {x : Nat} (digit : hexValue c = some x) : x < 16 :=
  forall_byte (p := fun c => ∀ v ∈ hexValue c, v < 16) (by decide +kernel) c x digit

theorem shift_or {x y : Nat} (low : y < 16) : x <<< 4 ||| y = 16 * x + y := by
  rw [← Nat.shiftLeft_add_eq_or_of_lt (by omega : y < 2 ^ 4), Nat.shiftLeft_eq]
  omega

/-- What the loop stores is what `stringUnhex` lists. -/
theorem unhexLoop_eq (size : UInt64) (cs : List UInt8) (j count : Nat) (buf : Memory) :
    unhexLoop size cs j count buf = (count + (stringUnhex cs).length,
      store buf j ((stringUnhex cs).take (size.toNat - j))) := by
  fun_induction unhexLoop size cs j count buf with
  | case1 a b rest j count buf x y ha hb ih =>
    have decoded : stringUnhex (a :: b :: rest) =
        UInt8.ofNat (x <<< 4 ||| y) :: stringUnhex rest := by simp only [stringUnhex, ha, hb]
    rw [ih, decoded, List.length_cons, Prod.mk.injEq]
    refine ⟨by omega, ?_⟩
    by_cases room : j < size.toNat
    · obtain ⟨left, hleft⟩ : ∃ left, size.toNat - j = left + 1 :=
        ⟨size.toNat - j - 1, by omega⟩
      have next : size.toNat - (j + 1) = left := by omega
      rw [if_pos room, hleft, next, List.take_succ_cons, store_cons]
    · have full : size.toNat - j = 0 := by omega
      have next : size.toNat - (j + 1) = 0 := by omega
      rw [if_neg room, full, next, List.take_zero, List.take_zero, store_nil, store_nil]
  | case2 a b rest j count buf stop =>
    have decoded : stringUnhex (a :: b :: rest) = [] := by
      rw [stringUnhex]
      split
      · rename_i x y ha hb
        exact absurd hb (stop x y ha)
      · rfl
    simp [decoded]
  | case3 rest j count buf short =>
    have decoded : stringUnhex rest = [] := by
      rcases rest with - | ⟨a, - | ⟨b, rest⟩⟩
      · rfl
      · rfl
      · exact absurd rfl (short a b rest)
    simp [decoded]

theorem pairAt_zero (a b : UInt8) (rest : List UInt8) :
    pairAt (a :: b :: rest) 0 = match hexValue a, hexValue b with
      | some x, some y => some (UInt8.ofNat (16 * x + y))
      | _, _ => none := rfl

theorem pairAt_succ (a b : UInt8) (rest : List UInt8) (j : Nat) :
    pairAt (a :: b :: rest) (j + 1) = pairAt rest j := by
  have even : 2 * (j + 1) = 2 * j + 1 + 1 := by omega
  simp only [pairAt, even, List.getElem?_cons_succ]

/-- `stringUnhex` lists the pairs at the front, up to the first that is none. -/
theorem pairAt_stringUnhex (cs : List UInt8) :
    (∀ j, j < (stringUnhex cs).length → pairAt cs j = (stringUnhex cs)[j]?) ∧
      pairAt cs (stringUnhex cs).length = none := by
  fun_induction stringUnhex cs with
  | case1 a b rest x y hb ha ih =>
    rw [nybble_toLower] at ha hb
    rw [shift_or (hexValue_lt hb)]
    constructor
    · intro j hj
      cases j with
      | zero => rw [pairAt_zero, ha, hb, List.getElem?_cons_zero]
      | succ j =>
        rw [pairAt_succ, List.getElem?_cons_succ]
        exact ih.1 j (by simpa using hj)
    · rw [List.length_cons, pairAt_succ]
      exact ih.2
  | case2 a b rest stop =>
    refine ⟨fun j hj => absurd hj (Nat.not_lt_zero j), ?_⟩
    rw [List.length_nil, pairAt_zero]
    split
    · rename_i x y ha hb
      rw [← nybble_toLower] at ha hb
      exact absurd hb (stop x y ha)
    · rfl
  | case3 rest short =>
    refine ⟨fun j hj => absurd hj (Nat.not_lt_zero j), ?_⟩
    rcases rest with - | ⟨a, - | ⟨b, rest⟩⟩
    · rfl
    · rfl
    · exact absurd rfl (short a b rest)

/-- Up to 2^31 characters the `int` is the length. -/
theorem stringUnhexInto_eq {str : CString} (short : str.strlen < 2 ^ 31) (buf : Memory)
    (size : UInt64) : stringUnhexInto str buf size =
      ((stringUnhex str.bytes).length,
        store buf 0 ((stringUnhex str.bytes).take size.toNat)) := by
  have length : (Int32.ofNat str.strlen).toInt.toNat = str.bytes.length := by
    rw [Int32.toInt_ofNat_of_lt short]
    rfl
  rw [stringUnhexInto, length, List.take_length, unhexLoop_eq, Nat.zero_add, Nat.sub_zero]

theorem unhexed {str : CString} (short : str.strlen < 2 ^ 31) (buf : Memory) (size : UInt64) :
    Unhexed str.bytes buf size (stringUnhexInto str buf size) := by
  obtain ⟨pairs, stops⟩ := pairAt_stringUnhex str.bytes
  rw [stringUnhexInto_eq short]
  have length : ((stringUnhex str.bytes).take size.toNat).length =
      min (stringUnhex str.bytes).length size.toNat := by
    rw [List.length_take, Nat.min_comm]
  constructor
  · intro j hj
    rw [pairs j hj, List.getElem?_eq_getElem hj]
    rfl
  · exact stops
  · intro j hj
    have counted : j < (stringUnhex str.bytes).length := by omega
    have cut : j < ((stringUnhex str.bytes).take size.toNat).length := by rwa [length]
    have inside : store buf 0 ((stringUnhex str.bytes).take size.toNat) (0 + j) = _ :=
      store_inside cut
    rw [Nat.zero_add, List.getElem_take] at inside
    rw [pairs j counted, List.getElem?_eq_getElem counted]
    exact congrArg some inside.symm
  · intro j hj
    exact store_outside (by rw [length]; omega)

/-- Only the lowercase of a string matters. -/
theorem stringUnhex_map_toLower (cs : List UInt8) :
    stringUnhex (cs.map toLower) = stringUnhex cs := by
  have twice : ∀ c, toLower (toLower c) = toLower c :=
    forall_byte (p := fun c => toLower (toLower c) = toLower c) (by decide +kernel)
  fun_induction stringUnhex cs with
  | case1 a b rest x y ha hb ih =>
    simp only [List.map_cons, stringUnhex, twice, ha, hb, ih]
  | case2 a b rest stop =>
    rw [List.map_cons, List.map_cons, stringUnhex, twice, twice]
    split
    · rename_i x y ha hb
      exact absurd hb (stop x y ha)
    · rfl
  | case3 rest short =>
    rcases rest with - | ⟨a, - | ⟨b, rest⟩⟩
    · rfl
    · rfl
    · exact absurd rfl (short a b rest)

theorem toLower_toUpper (c : UInt8) : toLower (toUpper c) = toLower c :=
  forall_byte (p := fun c => toLower (toUpper c) = toLower c) (by decide +kernel) c

/-- Hex text of either case is decoded to what it was written from. -/
theorem stringUnhex_text {text bs : List UInt8}
    (written : text = hexText bs ∨ text = (hexText bs).map toUpper) : stringUnhex text = bs := by
  rcases written with rfl | rfl
  · exact stringUnhex_hexText bs
  · have lower : ((hexText bs).map toUpper).map toLower = (hexText bs).map toLower := by
      rw [List.map_map]
      exact List.map_congr_left fun c _ => toLower_toUpper c
    rw [← stringUnhex_map_toLower, lower, stringUnhex_map_toLower, stringUnhex_hexText]

/-- `string_unhex` counts and stores the pairs at the front of a string, whatever their case, and
gives back the bytes that a text was written from. -/
theorem stringUnhexInto_decodes {str : CString} (short : str.strlen < 2 ^ 31) (buf : Memory)
    (size : UInt64) :
    Unhexed str.bytes buf size (stringUnhexInto str buf size) ∧
    (∀ other : CString, other.bytes.map toLower = str.bytes.map toLower →
      stringUnhexInto other buf size = stringUnhexInto str buf size) ∧
    ∀ bs, str.bytes = hexText bs ∨ str.bytes = (hexText bs).map toUpper →
      bs.length ≤ size.toNat →
      (stringUnhexInto str buf size).1 = bs.length ∧
        read (stringUnhexInto str buf size).2 0 bs.length = bs := by
  refine ⟨unhexed short buf size, ?_, ?_⟩
  · intro other same
    have length : other.strlen = str.strlen := by
      simpa [CString.strlen] using congrArg List.length same
    rw [stringUnhexInto_eq short, stringUnhexInto_eq (length ▸ short),
      ← stringUnhex_map_toLower, same, stringUnhex_map_toLower]
  · intro bs written room
    rw [stringUnhexInto_eq short, stringUnhex_text written, List.take_of_length_le room]
    exact ⟨rfl, read_store_self buf 0 bs⟩

/-- `la_storage_scan_rev` decodes into the sixteen bytes of a revision. -/
theorem laStorageScanRev_unhexed {str : CString} (short : str.strlen < 2 ^ 31)
    (rev : LaStorageRev) (behind : Memory) :
    (laStorageScanRev str rev).rev =
      read (stringUnhexInto str (load rev.rev behind) 16).2 0 16 := by
  have length := rev.length_eq
  rw [stringUnhexInto_eq short]
  apply List.ext_getElem
  · rw [length_read]
    exact (laStorageScanRev str rev).length_eq
  · intro i hi _
    have small : i < 16 := by rwa [(laStorageScanRev str rev).length_eq] at hi
    rw [getElem_read, Nat.zero_add]
    simp only [laStorageScanRev, overwrite, laObjectRevisionLen, List.getElem_take]
    by_cases decoded : i < ((stringUnhex str.bytes).take 16).length
    · have inside : store (load rev.rev behind) 0 ((stringUnhex str.bytes).take 16) (0 + i) = _ :=
        store_inside decoded
      rw [Nat.zero_add] at inside
      rw [List.getElem_append_left decoded]
      exact inside.symm
    · have outside : store (load rev.rev behind) 0 ((stringUnhex str.bytes).take 16) i =
          load rev.rev behind i := store_outside (by omega)
      rw [List.getElem_append_right (Nat.not_lt.mp decoded), List.getElem_drop]
      refine Eq.trans ?_ outside.symm
      rw [load_of_lt (by omega)]
      congr 1
      omega

/-- `aBg` has one pair, for a buffer of none. -/
theorem one_pair : Unhexed [97, 66, 103] (fun _ => 7) 0
    (stringUnhexInto (CString.ofBytes [97, 66, 103]) (fun _ => 7) 0) := by
  have bytes : (CString.ofBytes [97, 66, 103]).bytes = [97, 66, 103] :=
    CString.bytes_ofBytes (by decide)
  have short : (CString.ofBytes [97, 66, 103]).strlen < 2 ^ 31 := by
    rw [CString.strlen, bytes]
    decide
  have decoded := (stringUnhexInto_decodes short (fun _ => 7) 0).1
  rwa [bytes] at decoded

end StringUnhex
