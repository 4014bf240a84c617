import Lounge.Lib.PercentText
import Lounge.Lib.PrefixCode
import Lounge.Pull.PullModel

/-!
# Document keys in URLs

`url_encode` of `pull/pull.c` with its `int` length. Formatting a negative character as an `int`
makes it eight hex digits, so a decoder reads six characters too many.
-/

namespace UrlEncode
open PullModel (urlEncodeChar isAlnum)
open PercentText PrefixCode RevScan

/-- `int len = strlen(s)`. -/
def intLength (s : CString) : Int := Int.bmod s.strlen (2 ^ 32)

/-- `url_encode`. With a negative length no buffer is allocated, and the missing one is read. -/
def urlEncode (s : CString) : Option (List UInt8) :=
  if intLength s < 0 then none
  else some ((s.bytes.take (intLength s).toNat).flatMap urlEncodeChar)

/-- The encoded key consists of unreserved characters, `+` and `%XX`, and is decoded to the key. -/
def SurvivesEncoding (key : CString) (text : List UInt8) : Prop :=
  (∃ bytes, Encodes text bytes) ∧ decode text = some key.bytes

/-- What a decoder makes of a character: an ASCII one, or a byte 255 and the six hex digits that
follow it. -/
def decodedChar (c : UInt8) : List UInt8 :=
  if c < 128 then [c] else 255 :: 102 :: 102 :: 102 :: 102 :: hexText [c]

theorem hexValue_hexDigit : ∀ n < 16, hexValue (hexDigit n) = some n := by decide

theorem hexDigit_unreserved : ∀ n < 16, isUnreserved (hexDigit n) = true := by decide

theorem hexText_unreserved (bs : List UInt8) : ∀ c ∈ hexText bs, isUnreserved c = true := by
  intro c hc
  obtain ⟨b, -, digit⟩ := List.mem_flatMap.mp hc
  obtain ⟨high, low⟩ := nybbles_lt b
  simp only [List.mem_cons, List.not_mem_nil, or_false] at digit
  rcases digit with rfl | rfl
  · exact hexDigit_unreserved _ high
  · exact hexDigit_unreserved _ low

/-- A byte in hexadecimal, behind a percent sign. -/
theorem encodes_byte (c : UInt8) : Encodes (37 :: hexText [c]) [c] := by
  obtain ⟨high, low⟩ := nybbles_lt c
  have byte := Encodes.triple (hexValue_hexDigit _ high) (hexValue_hexDigit _ low) .nil
  have whole : 16 * (c.toNat / 16) + c.toNat % 16 = c.toNat := by omega
  rwa [whole, UInt8.ofNat_toNat] at byte

/-- The text of one character. -/
theorem urlEncodeChar_encodes (c : UInt8) : Encodes (urlEncodeChar c) (decodedChar c) := by
  unfold urlEncodeChar decodedChar
  by_cases blank : c = 32
  · subst blank
    exact .blank .nil
  by_cases plain : (isAlnum c || c = 46 || c = 45 || c = 95 || c = 126) = true
  · have unreserved : isUnreserved c = true := by
      simpa [isAlnum, isUnreserved] using plain
    rw [if_neg blank, if_pos plain, if_pos (isUnreserved_ascii unreserved)]
    exact .plain unreserved .nil
  rw [if_neg blank, if_neg plain]
  by_cases ascii : c < 128
  · rw [if_pos ascii, if_pos ascii]
    exact encodes_byte c
  · -- `%ff` is a byte, and the rest of the digits are plain characters.
    rw [if_neg ascii, if_neg ascii]
    have digits : ∀ d ∈ [102, 102, 102, 102] ++ hexText [c], isUnreserved d = true := by
      intro d hd
      rcases List.mem_append.mp hd with four | two
      · obtain rfl : d = 102 := by simpa using four
        rfl
      · exact hexText_unreserved [c] d two
    exact .triple (x := 15) (y := 15) rfl rfl (Encodes.self digits)

/-- The text of a key, of whatever characters. -/
theorem urlEncode_encodes {s : CString} {text : List UInt8} (encoded : urlEncode s = some text) :
    Encodes text ((s.bytes.take (intLength s).toNat).flatMap decodedChar) := by
  unfold urlEncode at encoded
  split at encoded
  · cases encoded
  · obtain rfl := Option.some.inj encoded
    exact Encodes.flatMap urlEncodeChar_encodes _

@[simp] theorem length_decodedChar (c : UInt8) :
    (decodedChar c).length = if c < 128 then 1 else 7 := by
  unfold decodedChar
  split <;> rfl

/-- Every character that is not ASCII is decoded to six bytes too many. -/
theorem length_decoded (cs : List UInt8) :
    (cs.flatMap decodedChar).length = cs.length + 6 * cs.countP fun c => 128 ≤ c := by
  induction cs with
  | nil => rfl
  | cons c rest ih =>
    rw [List.flatMap_cons, List.length_append, ih, length_decodedChar, List.countP_cons,
      List.length_cons]
    by_cases ascii : c < 128
    · have other : ¬128 ≤ c := UInt8.not_le.mpr ascii
      simp [ascii, other]
      omega
    · have other : 128 ≤ c := UInt8.not_lt.mp ascii
      simp [ascii, other]
      omega

theorem decoded_ascii {cs : List UInt8} (ascii : ∀ c ∈ cs, c < 128) :
    cs.flatMap decodedChar = cs := by
  induction cs with
  | nil => rfl
  | cons c rest ih =>
    rw [List.flatMap_cons, ih fun d hd => ascii d (List.mem_cons_of_mem c hd), decodedChar,
      if_pos (ascii c List.mem_cons_self)]
    rfl

/-- Below 2^31 characters the `int` is the length. -/
theorem intLength_of_lt {s : CString} (short : s.strlen < 2 ^ 31) : intLength s = s.strlen := by
  unfold intLength
  rw [Int.bmod_def]
  omega

theorem intLength_wraps {s : CString} (nonneg : 0 ≤ intLength s) :
    (s.strlen - (intLength s).toNat) % 2 ^ 32 = 0 ∧ (intLength s).toNat ≤ s.strlen ∧
      (intLength s).toNat < 2 ^ 31 := by
  unfold intLength at nonneg ⊢
  rw [Int.bmod_def] at nonneg ⊢
  split at nonneg <;> omega

theorem urlEncode_short {s : CString} (short : s.strlen < 2 ^ 31) :
    urlEncode s = some (PullModel.urlEncode s) := by
  have length := intLength_of_lt short
  rw [urlEncode, length, if_neg (by omega), Int.toNat_natCast, CString.strlen, List.take_length]
  rfl

/-- What a decoder makes of a whole key. -/
theorem decode_urlEncode (s : CString) :
    decode (PullModel.urlEncode s) = some (s.bytes.flatMap decodedChar) :=
  (Encodes.flatMap urlEncodeChar_encodes s.bytes).decoded

/-- Six bytes for each character that is not ASCII cannot make up for a multiple of 2^32. -/
theorem no_compensation {n len extra : Nat} (wraps : (n - len) % 2 ^ 32 = 0)
    (small : len < 2 ^ 31) (few : extra ≤ len) (total : n = len + 6 * extra) :
    n = len ∧ extra = 0 := by
  rw [total, Nat.add_sub_cancel_left] at wraps
  have split : 2 * 2 ^ 31 ∣ 2 * (3 * extra) := by
    rw [← Nat.mul_assoc]
    exact Nat.dvd_of_mod_eq_zero wraps
  have half : 2 ^ 31 ∣ 3 * extra := Nat.dvd_of_mul_dvd_mul_left (by decide) split
  have odd : Nat.Coprime (2 ^ 31) 3 := by decide
  have none := Nat.eq_zero_of_dvd_of_lt (odd.dvd_of_dvd_mul_left half)
    (Nat.lt_of_le_of_lt few small)
  rw [total, none]
  exact ⟨rfl, rfl⟩

/-- A key survives exactly if it is ASCII and its length fits an `int`. -/
theorem survives_iff (key : CString) :
    (∃ text, urlEncode key = some text ∧ SurvivesEncoding key text) ↔
      key.strlen < 2 ^ 31 ∧ ∀ c ∈ key.bytes, c < 128 := by
  constructor
  · rintro ⟨text, encoded, -, decoded⟩
    have stands := (urlEncode_encodes encoded).decoded
    rw [decoded, Option.some.injEq] at stands
    have nonneg : 0 ≤ intLength key := by
      by_contra negative
      rw [urlEncode, if_pos (Int.not_le.mp negative)] at encoded
      cases encoded
    obtain ⟨wraps, below, small⟩ := intLength_wraps nonneg
    have total := congrArg List.length stands
    have few := List.countP_le_length (p := fun c : UInt8 => 128 ≤ c)
      (l := key.bytes.take (intLength key).toNat)
    have taken : (key.bytes.take (intLength key).toNat).length = (intLength key).toNat :=
      List.length_take_of_le below
    rw [length_decoded, taken] at total
    rw [taken] at few
    obtain ⟨whole, ascii⟩ := no_compensation wraps small few total
    refine ⟨lt_of_eq_of_lt whole small, fun c hc => ?_⟩
    have none := List.countP_eq_zero.mp ascii
    rw [← whole, CString.strlen, List.take_length] at none
    simpa using none c hc
  · rintro ⟨short, ascii⟩
    refine ⟨_, urlEncode_short short, ⟨_, Encodes.flatMap urlEncodeChar_encodes key.bytes⟩, ?_⟩
    rw [decode_urlEncode, decoded_ascii ascii]

/-- Decoded characters can be told apart. -/
theorem splits_decodedChar (c d : UInt8) : Splits (decodedChar c) (decodedChar d) (c = d) := by
  unfold decodedChar
  by_cases hc : c < 128 <;> by_cases hd : d < 128
  · rw [if_pos hc, if_pos hd]
    have words := Splits.of_length_eq (x := [c]) (y := [d]) rfl
    exact words.imp fun same => (List.cons.inj same).1
  · rw [if_pos hc, if_neg hd]
    exact (Splits.of_head_ne (by rintro rfl; exact absurd hc (by decide))).imp False.elim
  · rw [if_neg hc, if_pos hd]
    exact (Splits.of_head_ne (by rintro rfl; exact absurd hd (by decide))).imp False.elim
  · rw [if_neg hc, if_neg hd]
    have words := Splits.of_length_eq (x := 255 :: 102 :: 102 :: 102 :: 102 :: hexText [c])
      (y := 255 :: 102 :: 102 :: 102 :: 102 :: hexText [d]) rfl
    refine words.imp fun same => ?_
    have digits : hexText [c] = hexText [d] := by simpa only [List.cons.injEq, true_and] using same
    have bytes := congrArg stringUnhex digits
    rw [stringUnhex_hexText, stringUnhex_hexText] at bytes
    exact (List.cons.inj bytes).1

/-- Different keys are fetched from different paths all the same, where the length fits. -/
theorem urlEncode_eq_iff {s t : CString} (hs : s.strlen < 2 ^ 31) (ht : t.strlen < 2 ^ 31) :
    urlEncode s = urlEncode t ↔ s = t := by
  constructor
  · intro same
    rw [urlEncode_short hs, urlEncode_short ht, Option.some.injEq] at same
    have decoded := congrArg decode same
    rw [decode_urlEncode, decode_urlEncode, Option.some.injEq] at decoded
    have nonempty : ∀ c, decodedChar c ≠ [] := by
      intro c
      unfold decodedChar
      split <;> simp
    exact CString.ext (flatMap_injective splits_decodedChar nonempty decoded)
  · rintro rfl
    rfl

/-- The keys `é` and `è`: neither survives, but they are not mixed up. -/
theorem urlEncode_eq_iff_accents :
    urlEncode (CString.ofBytes [195, 169]) ≠ urlEncode (CString.ofBytes [195, 168]) := by
  intro same
  have keys := (urlEncode_eq_iff (by decide) (by decide)).mp same
  exact absurd keys (by decide)

/-- The key `é`, in UTF-8. -/
theorem accented_key_lost :
    ∃ text, urlEncode (CString.ofBytes [195, 169]) = some text ∧
      ¬SurvivesEncoding (CString.ofBytes [195, 169]) text := by
  refine ⟨[37, 102, 102, 102, 102, 102, 102, 99, 51, 37, 102, 102, 102, 102, 102, 102, 97, 57],
    by decide +kernel, ?_⟩
  rintro ⟨-, decoded⟩
  exact absurd decoded (by decide +kernel)

end UrlEncode
