import Lounge.Api.LoungeApi
import Mathlib.Tactic.Linarith

/-!
# Decompressing LZ4

`lz4_decompress` of `compress-lz4/compress-lz4.c` does not know how long the decoded text is. It
tries a buffer, and a larger one whenever the decoder gives up or fills it, for whatever reason
the decoder has given up.
-/

namespace Lz4Growth
open FlatMemory CouchRevgen CodecValue ObjectStore BdbDriver LoungeApi

/-- The largest `int`. -/
def intMax : Int := 2 ^ 31 - 1

/-- `LZ4_uncompress_unknownOutputSize` on the bytes of a source, with the size of the buffer: what
it returns, and the buffer. -/
abbrev Uncompress := List UInt8 → Int → Int × Memory

/-- The loop of `lz4_decompress`. The size is an `int`, whose overflow is a trap; NULL comes
from `realloc`. -/
def growLoop (uncompress : Uncompress) (allocates : Int → Bool) (source : List UInt8)
    (alloclen : Int) : Option (Option (Memory × Int)) :=
  let osize := (uncompress source alloclen).1
  if osize < 0 ∨ osize = alloclen then
    if intMax < alloclen + 1024 then none
    else if !allocates (alloclen + 1024) then some none
    else growLoop uncompress allocates source (alloclen + 1024)
  else some (some ((uncompress source alloclen).2, osize))
termination_by (intMax - alloclen).toNat

/-- `isize`, an `int`. -/
def sourceSize (inlen : Nat) : Int := (Int32.ofNat inlen).toInt

/-- The first size of the buffer. -/
def firstSize (inlen : Nat) : Int := (Int32.ofNat (inlen + inlen / 2)).toInt

/-- What the decoder sees of an input: no byte of a source of negative size. -/
def seen (input : List UInt8) : List UInt8 := input.take (sourceSize input.length).toNat

/-- `lz4_decompress`: the buffer and `*outlen`, or NULL. The first buffer is written to whether or
not it was allocated, a trap. -/
def lz4Decompress (uncompress : Uncompress) (allocates : Int → Bool) (input : List UInt8) :
    Option (Option (Memory × Int)) :=
  if !allocates (firstSize input.length) then none
  else growLoop uncompress allocates (seen input) (firstSize input.length)

/-- What `lz4.h` says of the decoder on a source, which stands for this text if it is well formed.
Without room for the text, or without one, it gives up, unless it has filled the buffer. -/
structure Documented (uncompress : Uncompress) (source : List UInt8)
    (text : Option (List UInt8)) : Prop where
  fits : ∀ out, text = some out → ∀ bound : Int, out.length ≤ bound →
    (uncompress source bound).1 = out.length ∧ read (uncompress source bound).2 0 out.length = out
  short : ∀ bound : Int, 0 ≤ bound → (∀ out, text = some out → bound < out.length) →
    (uncompress source bound).1 < 0 ∨ (uncompress source bound).1 = bound

/-- `malloc` and `realloc`. A negative size, as a `size_t`, is more than there can be. -/
structure Allocates (allocates : Int → Bool) : Prop where
  granted : ∀ n, 0 ≤ n → allocates n = true
  refused : ∀ n < 0, allocates n = false

/-- Where the decompressor of a host answers NULL for the bytes of a live document, reading it
by key and meeting it in a view are errors. -/
structure Reported (host : LaHost) (input : List UInt8) : Prop where
  get : ∀ {σ : Type} (driver : LaObjectStoreDriver σ) (s : σ) (key : CString) (rev : Option LaRev)
    (object : LaStorageObject), driver.get s key (rev.map LaRev.rev) = (.ok, some object) →
      object.header.deleted = false → object.laStorageObjectGetData = input →
        (laDbGet ⟨host, driver⟩ s key rev).result = .error
  next : ∀ (view : LaView) (heap : CString → Memory) (accum : Option LaCodecValue)
    (e : List UInt8 × List UInt8) (rest : List (Option (List UInt8 × List UInt8))),
      (entryObject heap e).header.deleted = false →
        (entryObject heap e).laStorageObjectGetData = input →
          (laViewIteratorNext host view heap ⟨⟨some e :: rest⟩, accum, []⟩).1 = .error

/-- The call returns: the decoded text and its length, or, for a malformed input, NULL, which
every host that decompresses with it reports. -/
def Decompresses (uncompress : Uncompress) (allocates : Int → Bool)
    (decode : List UInt8 → Option (List UInt8)) (input : List UInt8) : Prop :=
  ∃ ret, lz4Decompress uncompress allocates input = some ret ∧
    (decode input = none → ret = none ∧
      ∀ (host : LaHost) (c : LaCompressor), host.compressor = some c →
        c.decompressor input = none → Reported host input) ∧
    ∀ out, decode input = some out →
      ∃ dest, ret = some (dest, (out.length : Int)) ∧ read dest 0 out.length = out

/-- Some size that the loop comes to is above this length. -/
def Reaches (first : Int) (length : Nat) : Prop :=
  ∃ k : Nat, (length : Int) < first + 1024 * k ∧ first + 1024 * k ≤ intMax

/-- A NULL is reported. -/
theorem reported {host : LaHost} {c : LaCompressor} {input : List UInt8}
    (installed : host.compressor = some c) (null : c.decompressor input = none) :
    Reported host input := by
  have inflated : host.inflate input = none := by
    rw [LaHost.inflate, installed]
    exact null
  constructor
  · intro σ driver s key rev object found live data
    simp [laDbGet, found, live, data, inflated]
  · intro view heap accum e rest live data
    simp [laViewIteratorNext, fillMapped, live, data, inflated]

section Loop
variable {uncompress : Uncompress} {text : Option (List UInt8)} {allocates : Int → Bool}
  {source out : List UInt8}

/-- An answer that the loop takes is the text. -/
theorem Documented.answer (documented : Documented uncompress source text) {bound : Int}
    (size : 0 ≤ bound)
    (accepted : ¬((uncompress source bound).1 < 0 ∨ (uncompress source bound).1 = bound)) :
    ∃ out, text = some out ∧ (uncompress source bound).1 = out.length ∧
      read (uncompress source bound).2 0 out.length = out ∧ (out.length : Int) ≤ bound := by
  by_contra none
  refine accepted (documented.short bound size fun out sameText => ?_)
  by_contra room
  obtain ⟨length, bytes⟩ := documented.fits out sameText bound (by omega)
  exact none ⟨out, sameText, length, bytes, by omega⟩

/-- With memory, the wrapper is its loop. -/
theorem lz4Decompress_eq {input : List UInt8} (allocated : ∀ n, 0 ≤ n → allocates n = true)
    (size : 0 ≤ firstSize input.length) :
    lz4Decompress uncompress allocates input =
      growLoop uncompress allocates (seen input) (firstSize input.length) := by
  simp [lz4Decompress, allocated _ size]

/-- With memory, the loop does not return NULL. -/
theorem growLoop_ne_null (allocated : ∀ n, 0 ≤ n → allocates n = true) {alloclen : Int}
    (size : 0 ≤ alloclen) : growLoop uncompress allocates source alloclen ≠ some none := by
  fun_induction growLoop uncompress allocates source alloclen with
  | case1 => simp
  | case2 alloclen osize again small failed =>
    rw [allocated _ (by omega)] at failed
    cases failed
  | case3 alloclen osize again small made ih => exact ih (by omega)
  | case4 => simp

/-- What it returns is the answer for one of its sizes. -/
theorem growLoop_answer {alloclen : Int} (small : alloclen ≤ intMax) {dest : Memory} {n : Int}
    (returned : growLoop uncompress allocates source alloclen = some (some (dest, n))) :
    ∃ k : Nat, alloclen + 1024 * k ≤ intMax ∧
      uncompress source (alloclen + 1024 * k) = (n, dest) ∧ ¬(n < 0 ∨ n = alloclen + 1024 * k) := by
  fun_induction growLoop uncompress allocates source alloclen with
  | case1 => cases returned
  | case2 => cases returned
  | case3 alloclen osize again room made ih =>
    obtain ⟨k, below, answer, accepted⟩ := ih (by omega) returned
    have size : alloclen + 1024 + 1024 * (k : Int) = alloclen + 1024 * ((k + 1 : Nat) : Int) := by
      omega
    rw [size] at below answer accepted
    exact ⟨k + 1, below, answer, accepted⟩
  | case4 alloclen osize stop =>
    simp only [Option.some.injEq, Prod.mk.injEq] at returned
    obtain ⟨rfl, rfl⟩ := returned
    refine ⟨0, ?_, ?_, ?_⟩
    · simpa using small
    · simp [osize]
    · simpa using stop

/-- A text is found as soon as there is a size for it. -/
theorem growLoop_reaches (documented : Documented uncompress source (some out))
    (allocated : ∀ n, 0 ≤ n → allocates n = true) {alloclen : Int} (size : 0 ≤ alloclen)
    (reaches : Reaches alloclen out.length) :
    ∃ dest, growLoop uncompress allocates source alloclen =
        some (some (dest, (out.length : Int))) ∧ read dest 0 out.length = out := by
  fun_induction growLoop uncompress allocates source alloclen with
  | case1 alloclen osize again overflows =>
    -- no size comes after this one, and this one is too small
    obtain ⟨k, above, below⟩ := reaches
    obtain rfl : k = 0 := by omega
    have answer := (documented.fits out rfl alloclen (by omega)).1
    omega
  | case2 alloclen osize again room failed =>
    rw [allocated _ (by omega)] at failed
    cases failed
  | case3 alloclen osize again room made ih =>
    obtain ⟨k, above, below⟩ := reaches
    cases k with
    | zero =>
      have answer := (documented.fits out rfl alloclen (by omega)).1
      omega
    | succ k => exact ih (by omega) ⟨k, by omega, by omega⟩
  | case4 alloclen osize stop =>
    obtain ⟨found, sameText, length, bytes, -⟩ := documented.answer size stop
    obtain rfl := Option.some.inj sameText
    exact ⟨_, by rw [← length], bytes⟩

/-- What it returns is the text, and one of its sizes was above the length. -/
theorem growLoop_decoded (documented : Documented uncompress source text) {alloclen : Int}
    (size : 0 ≤ alloclen) (small : alloclen ≤ intMax) {dest : Memory}
    (returned : growLoop uncompress allocates source alloclen =
      some (some (dest, (out.length : Int)))) (bytes : read dest 0 out.length = out) :
    text = some out ∧ Reaches alloclen out.length := by
  obtain ⟨k, below, answer, accepted⟩ := growLoop_answer small returned
  have taken : ¬((uncompress source (alloclen + 1024 * k)).1 < 0 ∨
      (uncompress source (alloclen + 1024 * k)).1 = alloclen + 1024 * k) := by
    rw [answer]
    exact accepted
  obtain ⟨found, sameText, length, content, room⟩ := documented.answer (by omega) taken
  rw [answer] at length content
  have sameLength : out.length = found.length := Int.ofNat.inj length
  obtain rfl : found = out := by rw [← content, ← sameLength, bytes]
  refine ⟨sameText, k, ?_, below⟩
  have other := mt Or.inr accepted
  omega

/-- The decoder sees the whole of an input of ordinary size. -/
theorem seen_of_small {input : List UInt8} (short : input.length < 2 ^ 31) :
    seen input = input := by
  rw [seen, sourceSize, Int32.toInt_ofNat_of_lt short, Int.toNat_natCast, List.take_length]

theorem firstSize_of_small {inlen : Nat} (short : inlen + inlen / 2 < 2 ^ 31) :
    firstSize inlen = (inlen + inlen / 2 : Nat) := by
  rw [firstSize, Int32.toInt_ofNat_of_lt short]

/-- An input of ordinary size has room for every text up to almost the largest `int`. -/
theorem reaches_of_small {inlen length : Nat} (short : inlen + inlen / 2 < 2 ^ 31)
    (room : length + 1024 < 2 ^ 31) : Reaches (firstSize inlen) length := by
  have first := firstSize_of_small short
  have limit : intMax = 2147483647 := rfl
  by_cases enough : length < inlen + inlen / 2
  · exact ⟨0, by omega, by omega⟩
  · exact ⟨(length - (inlen + inlen / 2)) / 1024 + 1, by omega, by omega⟩

end Loop

/-- The wrapper decompresses exactly the well-formed inputs whose text the loop gets room for:
as the decoder sees them, through an `int`, and before the size overflows. A malformed input never
gives NULL, the loop goes on up to the overflow. -/
theorem decompresses_iff {uncompress : Uncompress} {decode : List UInt8 → Option (List UInt8)}
    {allocates : Int → Bool} {input : List UInt8}
    (documented : Documented uncompress (seen input) (decode (seen input)))
    (allocated : Allocates allocates) :
    Decompresses uncompress allocates decode input ↔
      0 ≤ firstSize input.length ∧ ∃ out, decode input = some out ∧
        decode (seen input) = some out ∧ Reaches (firstSize input.length) out.length := by
  have small : firstSize input.length ≤ intMax := Int.le_sub_one_of_lt (Int32.toInt_lt _)
  constructor
  · rintro ⟨ret, returned, malformed, wellFormed⟩
    have size : 0 ≤ firstSize input.length := by
      by_contra negative
      simp [lz4Decompress, allocated.refused _ (not_le.mp negative)] at returned
    rw [lz4Decompress_eq allocated.granted size] at returned
    refine ⟨size, ?_⟩
    cases decoded : decode input with
    | none =>
      rw [(malformed decoded).1] at returned
      exact absurd returned (growLoop_ne_null allocated.granted size)
    | some out =>
      obtain ⟨dest, rfl, bytes⟩ := wellFormed out decoded
      exact ⟨out, rfl, growLoop_decoded documented size small returned bytes⟩
  · rintro ⟨size, out, decoded, sameText, reaches⟩
    rw [sameText] at documented
    obtain ⟨dest, returned, bytes⟩ :=
      growLoop_reaches documented allocated.granted size reaches
    refine ⟨_, (lz4Decompress_eq allocated.granted size).trans returned,
      fun malformed => ⟨?_, fun _ _ => reported⟩, fun text found => ?_⟩
    · rw [decoded] at malformed
      cases malformed
    · obtain rfl := Option.some.inj (decoded.symm.trans found)
      exact ⟨dest, rfl, bytes⟩

end Lz4Growth
