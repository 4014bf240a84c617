import Lounge.Compress.Lz4Plain

/-!
# LZ4 blocks

A block is a number of sequences, literals and then a repetition of earlier text, and the last
literals. The last repetition starts twelve bytes before the end of the text at the latest, and
the last five bytes of a text with repetitions are literals. The decoder takes every block back to
its text, as soon as the destination has room for it.
-/

namespace Lz4Format
open FlatMemory LittleEndian StepLoop CyclicCopy Lz4Decoder Lz4Plain

def minMatch : Nat := 4
def lastLiterals : Nat := 5
def mfLimit : Nat := 12

/-- What does not fit the token of a length. -/
def lengthBytes (n : Nat) : List UInt8 :=
  if n < 15 then []
  else List.replicate ((n - 15) / 255) 255 ++ [UInt8.ofNat ((n - 15) % 255)]

def tokenOf (literals repeated : Nat) : UInt8 :=
  UInt8.ofNat (16 * min literals 15 + min repeated 15)

/-- Literals, without what the token says of a repetition. -/
def literalBytes (token : UInt8) (literals : List UInt8) : List UInt8 :=
  token :: (lengthBytes literals.length ++ literals)

/-- Literals, and a repetition of this length from so far before. -/
def sequenceBytes (literals : List UInt8) (offset length : Nat) : List UInt8 :=
  literalBytes (tokenOf literals.length (length - minMatch)) literals ++ bytesLE 2 offset ++
    lengthBytes (length - minMatch)

def lastBytes (literals : List UInt8) : List UInt8 :=
  literalBytes (tokenOf literals.length 0) literals

/-- The text from `start` on repeats what came `offset` before. -/
structure Repeats (text : List UInt8) (start offset length : Nat) : Prop where
  long : minMatch ≤ length
  positive : 0 < offset
  short : offset < 2 ^ 16
  back : offset ≤ start
  early : start + mfLimit ≤ text.length
  ends : start + length + lastLiterals ≤ text.length
  same : ∀ k < length, text[start - offset + k]? = text[start + k]?

/-- The bytes are a block of the text from a position on, for a decoder that has the text before. -/
inductive Encodes (text : List UInt8) : Nat → List UInt8 → Prop where
  | last {pos} (inside : pos ≤ text.length) : Encodes text pos (lastBytes (text.drop pos))
  | sequence {pos start offset length rest} (from_pos : pos ≤ start)
      (repeats : Repeats text start offset length)
      (more : Encodes text (start + length) rest) :
      Encodes text pos (sequenceBytes ((text.take start).drop pos) offset length ++ rest)

section Lengths

theorem length_lengthBytes (n : Nat) :
    (lengthBytes n).length = if n < 15 then 0 else (n - 15) / 255 + 1 := by
  rw [lengthBytes]
  split <;> simp

theorem lengthFrom_replicate (q r n : Nat) (small : r < 255) (fits : n + 255 * q + r < 2 ^ 31)
    (rest : List UInt8) :
    lengthFrom n (List.replicate q 255 ++ UInt8.ofNat r :: rest) =
      some (n + 255 * q + r, rest) := by
  induction q generalizing n with
  | zero =>
    have value : (UInt8.ofNat r).toNat = r := by
      rw [UInt8.toNat_ofNat']
      omega
    have other : UInt8.ofNat r ≠ 255 := by
      intro same
      rw [same] at value
      have top : (255 : UInt8).toNat = 255 := rfl
      omega
    rw [List.replicate_zero, List.nil_append, lengthFrom, value, if_neg (by omega), if_neg other,
      Nat.mul_zero, Nat.add_zero]
  | succ q ih =>
    have top : (255 : UInt8).toNat = 255 := rfl
    rw [List.replicate_succ, List.cons_append, lengthFrom, top, if_neg (by omega), if_pos rfl,
      ih (n + 255) (by omega)]
    have sum : n + 255 + 255 * q + r = n + 255 * (q + 1) + r := by omega
    rw [sum]

/-- A length is read back from its half of the token and its bytes. -/
theorem lengthOf_lengthBytes {n : Nat} (fits : n < 2 ^ 31) (rest : List UInt8) :
    lengthOf (min n 15) (lengthBytes n ++ rest) = some (n, rest) := by
  rw [lengthOf, lengthBytes]
  by_cases small : n < 15
  · have itself : min n 15 = n := by omega
    have other : n ≠ runMask := fun same => absurd same (Nat.ne_of_lt small)
    rw [if_pos small, itself, if_neg other, List.nil_append]
  · have top : min n 15 = runMask := by
      have mask : runMask = 15 := rfl
      omega
    have split := Nat.div_add_mod (n - 15) 255
    have low := Nat.mod_lt (n - 15) (y := 255) (by decide)
    have mask : runMask = 15 := rfl
    rw [if_neg small, top, if_pos rfl, List.append_assoc, List.singleton_append,
      lengthFrom_replicate _ _ _ low (by omega)]
    have sum : runMask + 255 * ((n - 15) / 255) + (n - 15) % 255 = n := by omega
    rw [sum]

theorem toNat_tokenOf (literals repeated : Nat) :
    (tokenOf literals repeated).toNat = 16 * min literals 15 + min repeated 15 := by
  rw [tokenOf, UInt8.toNat_ofNat']
  omega

theorem tokenOf_literals (literals repeated : Nat) :
    (tokenOf literals repeated).toNat >>> mlBits = min literals 15 := by
  have bits : 2 ^ mlBits = 16 := rfl
  rw [toNat_tokenOf, Nat.shiftRight_eq_div_pow, bits]
  omega

theorem tokenOf_repeated (literals repeated : Nat) :
    (tokenOf literals repeated).toNat &&& mlMask = min repeated 15 := by
  have mask : mlMask = 2 ^ 4 - 1 := rfl
  rw [toNat_tokenOf, mask, Nat.and_two_pow_sub_one_eq_mod]
  omega

end Lengths
section Decoding
variable {text : List UInt8} {isize : Nat} {oend : Int}

theorem Encodes.inside {pos : Nat} {bytes : List UInt8} (encodes : Encodes text pos bytes) :
    pos ≤ text.length := by
  cases encodes with
  | last inside => exact inside
  | sequence from_pos repeats more =>
    have early := repeats.early
    omega

/-- A block ends with a token and five literals. -/
theorem Encodes.six_le {pos : Nat} {bytes : List UInt8} (encodes : Encodes text pos bytes)
    (ends : pos + lastLiterals ≤ text.length) : 6 ≤ bytes.length := by
  have five : lastLiterals = 5 := rfl
  induction encodes with
  | last inside =>
    rw [lastBytes, literalBytes, List.length_cons, List.length_append, List.length_drop]
    omega
  | sequence from_pos repeats more ih =>
    have rest := ih repeats.ends
    rw [List.length_append]
    omega

/-- The bytes behind a token. -/
theorem plainRound_literals (isize : Nat) (oend : Int) {token : UInt8}
    {literals : List UInt8} (more : List UInt8)
    (fits : literals.length < 2 ^ 31)
    (half : token.toNat >>> mlBits = min literals.length 15) (out : List (Option UInt8)) :
    plainRound isize oend ⟨literalBytes token literals ++ more, out⟩ =
      if oend - copyLength < (out.length + literals.length : Nat) ∨
          more.length < copyLength then
        plainLast isize oend out (literals ++ more) literals.length
      else if out.length + literals.length < natLE (more.take 2) then
        malformed isize (more.length - 2)
      else
        (lengthOf (token.toNat &&& mlMask) (more.drop 2)).bind fun run =>
          plainMatch isize oend (out ++ literals.map some) run.2 (natLE (more.take 2)) run.1 := by
  have sum : literals.length + more.length < literals.length + copyLength ↔
      more.length < copyLength := by omega
  have drop : (literals ++ more).drop (literals.length + 2) = more.drop 2 := by
    rw [List.drop_append, Nat.add_sub_cancel_left, List.drop_of_length_le (by omega),
      List.nil_append]
  rw [plainRound, literalBytes]
  simp only [List.cons_append, List.append_assoc, half, lengthOf_lengthBytes fits,
    List.length_append, sum, List.take_left, List.drop_left, drop, List.length_map,
    List.length_drop, Nat.add_sub_add_left, Option.bind_eq_bind, Option.bind_some]

theorem plainRound_last (isize : Nat) (oend : Int) {literals : List UInt8}
    (fits : literals.length < 2 ^ 31) (out : List (Option UInt8)) :
    plainRound isize oend ⟨lastBytes literals, out⟩ =
      plainLast isize oend out literals literals.length := by
  have all := plainRound_literals isize oend [] fits
    (tokenOf_literals literals.length 0) out
  rw [List.append_nil] at all
  rw [lastBytes, all, if_pos (Or.inr (by decide)), List.append_nil]

theorem plainRound_sequence (isize : Nat) (oend : Int) {literals rest : List UInt8}
    {offset length : Nat}
    (fits : literals.length < 2 ^ 31) (short : length < 2 ^ 31) (near : offset < 2 ^ 16)
    (long : minMatch ≤ length) (ends : 6 ≤ rest.length) (out : List (Option UInt8)) :
    plainRound isize oend ⟨sequenceBytes literals offset length ++ rest, out⟩ =
      if oend - copyLength < (out.length + literals.length : Nat) then
        plainLast isize oend out
          (literals ++ (bytesLE 2 offset ++ lengthBytes (length - minMatch) ++ rest))
          literals.length
      else if out.length + literals.length < offset then
        malformed isize ((lengthBytes (length - minMatch) ++ rest).length)
      else plainMatch isize oend (out ++ literals.map some) rest offset (length - minMatch) := by
  have all := plainRound_literals isize oend
    (bytesLE 2 offset ++ lengthBytes (length - minMatch) ++ rest) fits
    (tokenOf_literals literals.length (length - minMatch)) out
  have two : (bytesLE 2 offset).length = 2 := length_bytesLE 2 offset
  have take : (bytesLE 2 offset ++ (lengthBytes (length - minMatch) ++ rest)).take 2 =
      bytesLE 2 offset := List.take_left' two
  have drop : (bytesLE 2 offset ++ (lengthBytes (length - minMatch) ++ rest)).drop 2 =
      lengthBytes (length - minMatch) ++ rest := List.drop_left' two
  have eight : copyLength = 8 := rfl
  have enough : ¬(bytesLE 2 offset ++ (lengthBytes (length - minMatch) ++ rest)).length <
      copyLength := by
    rw [List.length_append, List.length_append, two]
    omega
  have left : (bytesLE 2 offset ++ (lengthBytes (length - minMatch) ++ rest)).length - 2 =
      (lengthBytes (length - minMatch) ++ rest).length := by
    rw [List.length_append, two, Nat.add_sub_cancel_left]
  simp only [List.append_assoc] at all
  rw [take, drop, left, tokenOf_repeated, lengthOf_lengthBytes (by omega),
    natLE_bytesLE_of_lt near] at all
  simp only [enough, or_false, Option.bind_some] at all
  simp only [sequenceBytes, List.append_assoc]
  exact all

/-- Literals that run into the end of the destination are an error where more follows. -/
theorem plainLast_more (isize : Nat) (oend : Int) {rest : List UInt8} {length : Nat}
    (more : length < rest.length)
    (out : List (Option UInt8)) :
    ∃ left ≤ rest.length, plainLast isize oend out rest length = malformed isize left := by
  rw [plainLast]
  split
  · exact ⟨_, Nat.le_refl _, rfl⟩
  · exact ⟨_, Nat.sub_le _ _, rfl⟩

/-- What the decoder makes of a block of this text: the text where there is room for it, and
otherwise an error, or the size of a destination that a repetition has filled. -/
structure Decoded (text : List UInt8) (oend : Int) (answer : PlainAnswer) : Prop where
  fits : text.length ≤ oend → answer = ((text.length : Int), text.map some)
  small : oend < text.length → answer.1 < 0 ∨ answer.1 = oend

theorem decoded_error {left : Nat} (small : oend < text.length) (read : left < isize) :
    Decoded text oend (-((isize - left : Nat) : Int), []) where
  fits room := by omega
  small _ := Or.inl (by simp only; omega)

theorem loop_last {pos fuel : Nat} (short : text.length < 2 ^ 31) (inside : pos ≤ text.length)
    (read : text.length - pos < isize) :
    ∃ answer, loop (plainRound isize oend) (fuel + 1)
        ⟨lastBytes (text.drop pos), (text.take pos).map some⟩ = some answer ∧
      Decoded text oend answer := by
  have before : ((text.take pos).map some).length = pos := by
    rw [List.length_map, List.length_take, Nat.min_eq_left inside]
  have whole : pos + (text.drop pos).length = text.length := by
    rw [List.length_drop]
    omega
  have lits : (text.drop pos).length < 2 ^ 31 := by omega
  have step := plainRound_last isize oend lits ((text.take pos).map some)
  rw [plainLast, before, whole] at step
  by_cases room : oend < text.length
  · rw [if_pos (Or.inl room)] at step
    refine ⟨_, loop_stop step, decoded_error room ?_⟩
    rw [List.length_drop]
    exact read
  · rw [if_neg (by omega), if_neg (Nat.lt_irrefl _), ← List.map_append,
      List.take_append_drop] at step
    exact ⟨_, loop_stop step, fun _ => rfl, fun small => absurd small room⟩

/-- A repetition that the text repeats goes on with the text. -/
theorem Repeats.continued {start offset length : Nat} (repeats : Repeats text start offset length) :
    extend none offset ((text.take start).map some) length =
      (text.take (start + length)).map some := by
  have inside := repeats.ends
  have mapped : extend none offset ((text.map some).take start) length = _ :=
    extend_take repeats.back repeats.positive (by rw [List.length_map]; omega) fun k small => by
      rw [List.getElem?_map, List.getElem?_map, repeats.same k small]
  rw [List.map_take, List.map_take]
  exact mapped

theorem Encodes.loop {pos fuel : Nat} {bytes : List UInt8} (encodes : Encodes text pos bytes)
    (short : text.length < 2 ^ 31) (read : bytes.length ≤ isize) (enough : bytes.length < fuel) :
    ∃ answer, loop (plainRound isize oend) fuel ⟨bytes, (text.take pos).map some⟩ =
        some answer ∧ Decoded text oend answer := by
  induction encodes generalizing fuel with
  | @last pos inside =>
    obtain ⟨fuel, rfl⟩ : ∃ more, fuel = more + 1 := ⟨fuel - 1, by omega⟩
    apply loop_last short inside
    have length : (lastBytes (text.drop pos)).length =
        (lengthBytes (text.drop pos).length ++ text.drop pos).length + 1 := rfl
    rw [List.length_append, List.length_drop] at length
    omega
  | @sequence pos start offset length rest from_pos repeats more ih =>
    obtain ⟨fuel, rfl⟩ : ∃ more, fuel = more + 1 := ⟨fuel - 1, by omega⟩
    have twelve : mfLimit = 12 := rfl
    have eight : copyLength = 8 := rfl
    have four : minMatch = 4 := rfl
    have five : lastLiterals = 5 := rfl
    have early := repeats.early
    have ends := repeats.ends
    have back := repeats.back
    have long := repeats.long
    have lits : ((text.take start).drop pos).length = start - pos := by
      rw [List.length_drop, List.length_take]
      omega
    have before : ((text.take pos).map some).length = pos := by
      rw [List.length_map, List.length_take]
      omega
    have joined : (text.take pos).map some ++ ((text.take start).drop pos).map some =
        (text.take start).map some := by
      have again : text.take pos = (text.take start).take pos := by
        rw [List.take_take, Nat.min_eq_left from_pos]
      rw [← List.map_append, again, List.take_append_drop]
    have atStart : ((text.take start).map some).length = start := by
      rw [List.length_map, List.length_take]
      omega
    have cut : pos + (start - pos) = start := by omega
    have whole : length - minMatch + 4 = length := by omega
    have shorter : rest.length <
        (sequenceBytes ((text.take start).drop pos) offset length ++ rest).length := by
      simp only [sequenceBytes, literalBytes, List.length_append, List.length_cons]
      omega
    have fewLits : ((text.take start).drop pos).length < 2 ^ 31 := by omega
    have step := plainRound_sequence isize oend fewLits (by omega) repeats.short long
      (more.six_le repeats.ends) ((text.take pos).map some)
    rw [before, lits, cut, joined] at step
    by_cases literalsFit : oend - copyLength < start
    · -- the literals run into the end of the destination, and more follows
      have further : start - pos < ((text.take start).drop pos ++
          (bytesLE 2 offset ++ lengthBytes (length - minMatch) ++ rest)).length := by
        simp [lits]
      obtain ⟨left, small, error⟩ := plainLast_more isize oend further ((text.take pos).map some)
      have all : (sequenceBytes ((text.take start).drop pos) offset length ++ rest).length =
          ((text.take start).drop pos ++
            (bytesLE 2 offset ++ lengthBytes (length - minMatch) ++ rest)).length +
              ((lengthBytes (start - pos)).length + 1) := by
        simp only [sequenceBytes, literalBytes, List.length_append, List.length_cons, lits]
        omega
      rw [if_pos literalsFit, error] at step
      exact ⟨_, loop_stop step, decoded_error (by omega) (by omega)⟩
    · rw [if_neg literalsFit, if_neg (by omega), plainMatch, atStart, whole] at step
      by_cases beyond : oend < (start + length : Nat)
      · rw [if_pos beyond] at step
        exact ⟨_, loop_stop step, decoded_error (by omega) (by omega)⟩
      · rw [if_neg beyond] at step
        by_cases full : ((start + length : Nat) : Int) = oend
        · rw [if_pos full] at step
          exact ⟨_, loop_stop step, fun room => by omega, fun _ => Or.inr full⟩
        · rw [if_neg full, repeats.continued] at step
          rw [loop_again step]
          exact ih (by omega) (by omega)

/-- A block is taken back to its text by the decoder, in a destination that has room for it. In a
smaller one it meets an error, or the end of a repetition at the end of the destination. -/
theorem Encodes.uncompress {bytes : List UInt8} (encodes : Encodes text 0 bytes)
    (short : text.length < 2 ^ 31) (maxOutputSize : Int) (dest : Memory) :
    ∃ answer, lz4UncompressUnknownOutputSize bytes maxOutputSize dest = some answer ∧
      (text.length ≤ maxOutputSize →
        answer.1 = text.length ∧ read answer.2 0 text.length = text) ∧
      (maxOutputSize < text.length → answer.1 < 0 ∨ answer.1 = maxOutputSize) := by
  have same : Option.Rel SameAnswer (lz4UncompressUnknownOutputSize bytes maxOutputSize dest)
      (plainUncompress bytes maxOutputSize) :=
    loop_rounds_alike _ (Same.start bytes dest)
  obtain ⟨plain, decodes, decoded⟩ : ∃ answer,
      plainUncompress bytes maxOutputSize = some answer ∧ Decoded text maxOutputSize answer :=
    encodes.loop short (Nat.le_refl _) (Nat.lt_succ_self _)
  rw [decodes] at same
  obtain ⟨answer, returned, code, known⟩ := some_right same
  refine ⟨answer, returned, fun room => ?_, fun small => ?_⟩
  · rw [decoded.fits room] at code known
    exact ⟨code, known.read⟩
  · rw [code]
    exact decoded.small small

end Decoding
end Lz4Format
