import Lounge.Lib.ChunkedStream
import Mathlib.Algebra.Order.Ring.Nat

/-!
# Compressing with zlib

`_zlib_compress` and `_zlib_decompress` of `compress-zlib/compress-zlib.c`. Both loops go on while
the output chunk is filled, and the second takes the lack of more input for no error.
-/

namespace ZlibStream
open ChunkedStream

/-- What `deflate` and `inflate` return. -/
inductive ZResult where
  | ok | streamEnd | bufError | error
  deriving DecidableEq

/-- zlib, with streams of types `D` and `I`. A stream is begun with its input, and a call with
`Z_FINISH` is given the room that there is. -/
structure Zlib (D I : Type) where
  deflateInit : List UInt8 → D
  deflate : D → Nat → ZResult × List UInt8 × D
  inflateInit : List UInt8 → I
  inflate : I → Nat → ZResult × List UInt8 × I

/-- The allocations of a call: the buffer, the stream, the buffer as it grows, and the copy. -/
structure ZlibCalls where
  buffer : Bool
  init : Bool
  appended : Nat → Bool
  copied : Bool

/-- `avail_in` is an `uInt`. -/
def availIn (input : List UInt8) : List UInt8 := input.take (UInt32.ofNat input.length).toNat

/-- What both functions do around their loop. `*outlen` is the length of what is returned. -/
def ZlibCalls.around (c : ZlibCalls) (loop : Option (Option (List UInt8))) :
    Option (Option (List UInt8)) :=
  if !c.buffer then some none
  else if !c.init then some none
  else loop.map fun buffer => if c.copied then buffer else none

/-- The results that the loop of `_zlib_compress` goes on with. -/
def deflateAccepts (ret : ZResult) : Bool := ret = .ok ∨ ret = .streamEnd

/-- The results that the loop of `_zlib_decompress` goes on with. -/
def inflateAccepts (ret : ZResult) : Bool := ret = .ok ∨ ret = .streamEnd ∨ ret = .bufError

/-- `_zlib_compress`, with fuel for its loop. -/
def zlibCompress {D I : Type} (z : Zlib D I) (c : ZlibCalls) (input : List UInt8) (fuel : Nat) :
    Option (Option (List UInt8)) :=
  c.around
    (drain z.deflate deflateAccepts c.appended 4096 fuel 0 (z.deflateInit (availIn input)) [])

/-- `_zlib_decompress`. -/
def zlibDecompress {D I : Type} (z : Zlib D I) (c : ZlibCalls) (input : List UInt8) (fuel : Nat) :
    Option (Option (List UInt8)) :=
  c.around
    (drain z.inflate inflateAccepts c.appended 4096 fuel 0 (z.inflateInit (availIn input)) [])

/-- How the input of `inflate` ends: with the end of the stream, before it, or in an error. -/
inductive Ending where
  | complete | starved | corrupt
  deriving DecidableEq

/-- What `inflate` reports once the input is used up. -/
def Ending.report : Ending → ZResult
  | .complete => .streamEnd
  | .starved => .bufError
  | .corrupt => .error

/-- A compressed format: what an input is compressed to, what an input stands for as far as it
goes, and how it ends. A part of the input stands for a part of the text. -/
structure Format where
  format : List UInt8 → List UInt8
  text : List UInt8 → List UInt8
  ending : List UInt8 → Ending
  text_format : ∀ x, text (format x) = x
  ending_format : ∀ x, ending (format x) = .complete
  text_take : ∀ y n, text (y.take n) <+: text y

/-- What `zlib.h` says of the streams. -/
structure Documented {D I : Type} (z : Zlib D I) (f : Format) (deflateLeft : D → List UInt8)
    (inflateLeft : I → List UInt8) (inflateEnding : I → Ending) : Prop where
  deflates : ∀ x, deflateLeft (z.deflateInit x) = f.format x
  deflating : HandsOut z.deflate deflateLeft (fun _ => ZResult.streamEnd) .ok
  inflates : ∀ y, inflateLeft (z.inflateInit y) = f.text y
  ends : ∀ y, inflateEnding (z.inflateInit y) = f.ending y
  inflating : HandsOut z.inflate inflateLeft (fun s => (inflateEnding s).report) .bufError

/-- All allocations succeed that are made for this many bytes. -/
def ZlibCalls.Succeed (c : ZlibCalls) (length : Nat) : Prop :=
  c.buffer = true ∧ c.init = true ∧ KeepsAll c.appended 4096 0 length ∧ c.copied = true

instance (c : ZlibCalls) (length : Nat) : Decidable (c.Succeed length) :=
  inferInstanceAs (Decidable (_ ∧ _ ∧ _ ∧ _))

section Wrapper
variable {D I : Type} {z : Zlib D I} {f : Format} {deflateLeft : D → List UInt8}
  {inflateLeft : I → List UInt8} {inflateEnding : I → Ending}

/-- Compressing and decompressing returns the input. -/
def RoundTrips (z : Zlib D I) (c c' : ZlibCalls) (x : List UInt8) : Prop :=
  ∃ y, Returns (zlibCompress z c x) (some y) ∧ Returns (zlibDecompress z c' y) (some x)

/-- Decompressing returns, and nothing but NULL if the end of the stream was not reached in what
`inflate` is given. -/
def Reports (z : Zlib D I) (f : Format) (c : ZlibCalls) (y : List UInt8) : Prop :=
  ∃ ret, Returns (zlibDecompress z c y) ret ∧ (ret ≠ none → f.ending (availIn y) = .complete)

/-- What the loop gets is what is returned, if the other allocations succeed as well. -/
theorem ZlibCalls.around_returns (c : ZlibCalls) {loop : Nat → Option (Option (List UInt8))}
    {accepted : Prop} [Decidable accepted] {bytes : List UInt8}
    (drained : Returns loop
      (if accepted ∧ KeepsAll c.appended 4096 0 bytes.length then some bytes else none)) :
    Returns (fun fuel => c.around (loop fuel))
      (if accepted ∧ c.Succeed bytes.length then some bytes else none) := by
  by_cases begun : c.buffer = true ∧ c.init = true
  · have mapped := drained.map fun buffer => if c.copied then buffer else none
    simp only [ZlibCalls.around, begun, ZlibCalls.Succeed, true_and, Bool.not_true,
      Bool.false_eq_true, if_false]
    cases copied : c.copied with
    | false => simpa [copied] using mapped
    | true => simpa [copied] using mapped
  · refine ⟨0, fun fuel _ => ?_⟩
    show c.around (loop fuel) = _
    rw [if_neg (fun all => begun ⟨all.2.1, all.2.2.1⟩), ZlibCalls.around]
    cases hb : c.buffer with
    | false => simp
    | true =>
      have hi : c.init = false := by simpa [hb] using begun
      simp [hi]

/-- The input is compressed, as far as `avail_in` goes. -/
theorem zlibCompress_returns
    (documented : Documented z f deflateLeft inflateLeft inflateEnding) (c : ZlibCalls)
    (x : List UInt8) :
    Returns (zlibCompress z c x)
      (if c.Succeed (f.format (availIn x)).length then some (f.format (availIn x)) else none) := by
  have goes : deflateAccepts .ok = true := rfl
  have drained := drain_returns documented.deflating goes (by decide : 0 < 4096) c.appended 0
    (z.deflateInit (availIn x)) []
  rw [documented.deflates, List.nil_append] at drained
  have whole := c.around_returns drained
  have accepted : deflateAccepts .streamEnd = true := rfl
  simp only [accepted, true_and] at whole
  exact whole

/-- What the input stands for is returned unless there is an error in it. -/
theorem zlibDecompress_returns
    (documented : Documented z f deflateLeft inflateLeft inflateEnding) (c : ZlibCalls)
    (y : List UInt8) :
    Returns (zlibDecompress z c y)
      (if f.ending (availIn y) ≠ .corrupt ∧ c.Succeed (f.text (availIn y)).length then
        some (f.text (availIn y)) else none) := by
  have goes : inflateAccepts .bufError = true := rfl
  have drained := drain_returns documented.inflating goes (by decide : 0 < 4096) c.appended 0
    (z.inflateInit (availIn y)) []
  rw [documented.inflates, documented.ends, List.nil_append] at drained
  have whole := c.around_returns drained
  have accepted : inflateAccepts (f.ending (availIn y)).report = true ↔
      f.ending (availIn y) ≠ .corrupt := by
    cases f.ending (availIn y) <;> decide
  simp only [accepted] at whole
  exact whole

theorem availIn_of_small {x : List UInt8} (short : x.length < 2 ^ 32) : availIn x = x := by
  rw [availIn, UInt32.toNat_ofNat_of_lt' short, List.take_length]

theorem length_availIn_lt (x : List UInt8) : (availIn x).length < 2 ^ 32 := by
  have bound := (UInt32.ofNat x.length).toNat_lt
  rw [availIn, List.length_take]
  omega

/-- What there is to say about an input that comes back: all of it was seen, and so was what it
was compressed to, or as much of that as it takes. -/
theorem roundTrips_iff (documented : Documented z f deflateLeft inflateLeft inflateEnding)
    (c c' : ZlibCalls) (x : List UInt8) :
    RoundTrips z c c' x ↔
      c.Succeed (f.format x).length ∧ c'.Succeed x.length ∧ x.length < 2 ^ 32 ∧
        ((f.format x).length < 2 ^ 32 ∨
          f.ending (availIn (f.format x)) ≠ .corrupt ∧ f.text (availIn (f.format x)) = x) := by
  have compressed := zlibCompress_returns documented c x
  constructor
  · rintro ⟨y, made, back⟩
    have first := made.unique compressed
    by_cases enough : c.Succeed (f.format (availIn x)).length
    · rw [if_pos enough] at first
      obtain rfl := Option.some.inj first
      have second := back.unique (zlibDecompress_returns documented c' _)
      split at second <;> rename_i fine
      · have text := Option.some.inj second
        -- what comes back is a part of what was seen of the input
        have part := f.text_take (f.format (availIn x))
          (UInt32.ofNat (f.format (availIn x)).length).toNat
        rw [f.text_format] at part
        have short : x.length < 2 ^ 32 := by
          have shorter := part.length_le
          rw [← availIn, ← text] at shorter
          have limit := length_availIn_lt x
          omega
        rw [availIn_of_small short] at enough fine text
        rw [← text] at fine
        exact ⟨enough, fine.2, short, Or.inr ⟨fine.1, text.symm⟩⟩
      · cases second
    · rw [if_neg enough] at first
      cases first
  · rintro ⟨enough, enough', short, seen⟩
    have inflated : f.ending (availIn (f.format x)) ≠ .corrupt ∧
        f.text (availIn (f.format x)) = x := by
      rcases seen with small | inflated
      · rw [availIn_of_small small, f.ending_format, f.text_format]
        exact ⟨by decide, rfl⟩
      · exact inflated
    have back := zlibDecompress_returns documented c' (f.format x)
    rw [availIn_of_small short, if_pos enough] at compressed
    rw [inflated.2, if_pos ⟨inflated.1, enough'⟩] at back
    exact ⟨_, compressed, back⟩

/-- The end of the stream is missed silently where the input lacks it. -/
theorem reports_iff (documented : Documented z f deflateLeft inflateLeft inflateEnding)
    (c : ZlibCalls) (y : List UInt8) :
    Reports z f c y ↔
      ¬c.Succeed (f.text (availIn y)).length ∨ f.ending (availIn y) ≠ .starved := by
  have returned := zlibDecompress_returns documented c y
  constructor
  · rintro ⟨ret, answered, honest⟩
    rw [answered.unique returned] at honest
    by_cases enough : c.Succeed (f.text (availIn y)).length
    · refine Or.inr fun starved => ?_
      rw [if_pos ⟨by rw [starved]; decide, enough⟩, starved] at honest
      exact absurd (honest (by simp)) (by decide)
    · exact Or.inl enough
  · intro reported
    refine ⟨_, returned, fun some => ?_⟩
    by_cases fine : f.ending (availIn y) ≠ .corrupt ∧ c.Succeed (f.text (availIn y)).length
    · have ended := reported.resolve_left (not_not_intro fine.2)
      cases ending : f.ending (availIn y) with
      | complete => rfl
      | starved => exact absurd ending ended
      | corrupt => exact absurd ending fine.1
    · rw [if_neg fine] at some
      exact absurd rfl some

end Wrapper

/-- With zlib as documented: exactly when an input comes back, and exactly when a missing end is
reported. -/
theorem zlib_wrapper_iff {D I : Type} {z : Zlib D I} {f : Format}
    {deflateLeft : D → List UInt8} {inflateLeft : I → List UInt8} {inflateEnding : I → Ending}
    (documented : Documented z f deflateLeft inflateLeft inflateEnding) :
    (∀ c c' x, RoundTrips z c c' x ↔
      c.Succeed (f.format x).length ∧ c'.Succeed x.length ∧ x.length < 2 ^ 32 ∧
        ((f.format x).length < 2 ^ 32 ∨
          f.ending (availIn (f.format x)) ≠ .corrupt ∧ f.text (availIn (f.format x)) = x)) ∧
    ∀ c y, Reports z f c y ↔
      ¬c.Succeed (f.text (availIn y)).length ∨ f.ending (availIn y) ≠ .starved :=
  ⟨roundTrips_iff documented, reports_iff documented⟩

/-- What the empty text is compressed to. -/
def emptyStream : List UInt8 := [0x78, 0x9C, 0x03, 0x00, 0x00, 0x00, 0x00, 0x01]

/-- What the text `a` is compressed to; the letter is in its first four bytes. -/
def letterStream : List UInt8 := [0x78, 0x9C, 0x4B, 0x04, 0x00, 0x00, 0x62, 0x00, 0x62]

private def plainHead : List UInt8 := [0x78, 0x9C, 0x00]

private theorem isPrefixOf_of_take {head y : List UInt8} {n : Nat}
    (short : head.isPrefixOf (y.take n) = true) : head.isPrefixOf y = true := by
  rw [List.isPrefixOf_iff_prefix] at short ⊢
  exact short.trans (List.take_prefix n y)

/-- A format that has the streams of these two texts, and writes every other one behind the header
and a byte. -/
def plainFormat : Format where
  format x :=
    if x = [] then emptyStream else if x = [97] then letterStream else plainHead ++ x
  text y :=
    if plainHead.isPrefixOf y then y.drop 3
    else if (letterStream.take 4).isPrefixOf y then [97] else []
  ending y :=
    if y = emptyStream ∨ y = letterStream ∨ plainHead.isPrefixOf y then .complete
    else if y.isPrefixOf emptyStream ∨ y.isPrefixOf letterStream then .starved else .corrupt
  text_format x := by
    by_cases empty : x = []
    · subst empty
      rfl
    · by_cases letter : x = [97]
      · subst letter
        rfl
      · simp [empty, letter, plainHead]
  ending_format x := by
    by_cases empty : x = []
    · subst empty
      rfl
    · by_cases letter : x = [97]
      · subst letter
        rfl
      · simp [empty, letter, plainHead]
  text_take y n := by
    by_cases short : plainHead.isPrefixOf (y.take n) = true
    · rw [if_pos short, if_pos (isPrefixOf_of_take short), List.drop_take]
      exact List.take_prefix _ _
    · rw [if_neg short]
      by_cases letter : (letterStream.take 4).isPrefixOf (y.take n) = true
      · have other : ¬plainHead.isPrefixOf y = true := by
          obtain ⟨rest, rfl⟩ := List.isPrefixOf_iff_prefix.mp (isPrefixOf_of_take letter)
          simp [plainHead, letterStream]
        have whole := isPrefixOf_of_take letter
        simp [letter, other, whole]
      · rw [if_neg letter]
        exact List.nil_prefix

/-- zlib for it: a stream is what is left, with the way its input ends. -/
def plainZlib : Zlib (List UInt8) (List UInt8 × Ending) where
  deflateInit x := plainFormat.format x
  deflate s n := (if s.length ≤ n then .streamEnd else .ok, s.take n, s.drop n)
  inflateInit y := (plainFormat.text y, plainFormat.ending y)
  inflate s n :=
    (if s.1.length ≤ n then s.2.report else .bufError, s.1.take n, (s.1.drop n, s.2))

theorem plainZlib_documented : Documented plainZlib plainFormat id Prod.fst Prod.snd where
  deflates _ := rfl
  deflating := ⟨fun _ _ => rfl, fun _ _ => rfl, fun _ _ => rfl, fun _ _ => rfl⟩
  inflates _ := rfl
  ends _ := rfl
  inflating := ⟨fun _ _ => rfl, fun _ _ => rfl, fun _ _ => rfl, fun _ _ => rfl⟩

/-- Calls that are given all the memory they ask for. -/
def amplyGiven : ZlibCalls := ⟨true, true, fun _ => true, true⟩

theorem amplyGiven_succeed (length : Nat) : amplyGiven.Succeed length :=
  ⟨rfl, rfl, fun _ _ => rfl, rfl⟩

/-- The text `a` comes back. -/
theorem letter_back :
    plainFormat.format [97] = letterStream ∧ RoundTrips plainZlib amplyGiven amplyGiven [97] :=
  ⟨rfl, ((zlib_wrapper_iff plainZlib_documented).1 amplyGiven amplyGiven [97]).mpr
    ⟨amplyGiven_succeed _, amplyGiven_succeed _, by decide, Or.inl (by decide)⟩⟩

/-- The stream of the empty text without its last byte is no error. -/
theorem missing_byte_unreported :
    plainFormat.format [] = emptyStream ∧ ¬Reports plainZlib plainFormat amplyGiven
      (emptyStream.take 7) := by
  refine ⟨rfl, ?_⟩
  rw [reports_iff plainZlib_documented]
  rintro (failed | ended)
  · exact failed (amplyGiven_succeed _)
  · rw [availIn_of_small (by decide)] at ended
    exact ended (by decide)

end ZlibStream
