import Lounge.Compress.Lz4Growth
import Lounge.Compress.Lz4RoundTrip

/-!
# Documents through LZ4

`lz4_compress` and `lz4_decompress` of `compress-lz4/compress-lz4.c`, over the encoder and the
decoder of the library. The second of the two finds the size of the text by trying.
-/

namespace Lz4Wrapper
open FlatMemory StepLoop Lz4Growth Lz4Decoder Lz4Plain Lz4Format Lz4Encoder Lz4RoundTrip

/-- `lz4_compress`: the buffer and `*outlen`, or NULL. The number of bytes goes through an `int`;
to compress a negative number of them is a trap. -/
def lz4CompressDocument (allocates : Int → Bool) (fresh : Memory) (input : List UInt8) :
    Option (Option (Memory × Int)) :=
  let isize := sourceSize input.length
  match lz4CompressBound isize with
  | none => none
  | some maxlen =>
    if !allocates maxlen then some none
    else if isize < 0 then none
    else (lz4Compress (input.take isize.toNat) maxlen.toNat fresh).map fun r => some (r.2, r.1)

/-- The decoder as `lz4_decompress` calls it, with what is in the buffer of each size. -/
def uncompressIn (fresh : Int → Memory) : Uncompress := fun source bound =>
  (lz4UncompressUnknownOutputSize source bound (fresh bound)).getD (0, fresh bound)

/-- Of a block the decoder of the library is as documented, whatever is in its buffers. -/
theorem block_documented {text source : List UInt8} (encodes : Encodes text 0 source)
    (short : text.length < 2 ^ 31) (fresh : Int → Memory) :
    Documented (uncompressIn fresh) source (some text) := by
  have decodes := encodes.uncompress short
  constructor
  · rintro out same bound room
    obtain rfl := Option.some.inj same
    obtain ⟨answer, returned, fits, -⟩ := decodes bound (fresh bound)
    rw [uncompressIn, returned]
    exact fits room
  · intro bound _ room
    obtain ⟨answer, returned, -, small⟩ := decodes bound (fresh bound)
    rw [uncompressIn, returned]
    exact small (room text rfl)

/-- What `lz4_compress` makes of a document below a gigabyte. -/
theorem lz4CompressDocument_spec {input : List UInt8} (short : input.length < 2 ^ 30)
    {allocates : Int → Bool} (allocated : ∀ n, 0 ≤ n → allocates n = true) (fresh : Memory) :
    ∃ (n : Nat) (m : Memory),
      lz4CompressDocument allocates fresh input = some (some (m, (n : Int))) ∧
      n ≤ input.length + input.length / 255 + 2 ∧ Encodes input 0 (read m 0 n) := by
  have size : sourceSize input.length = input.length :=
    Int32.toInt_ofNat_of_lt (by omega)
  obtain ⟨_, encoded, n, m, rfl, few, block⟩ := lz4Compress_spec input
    (Nat.le_refl (input.length + input.length / 255 + 16)) fresh
  refine ⟨n, m, ?_, few, block⟩
  rw [lz4CompressDocument, size, lz4CompressBound_of_lt (by omega)]
  simp only [allocated _ (Int.natCast_nonneg _), Bool.not_true, Bool.false_eq_true, if_false]
  rw [if_neg (by omega), Int.toNat_natCast, Int.toNat_natCast, List.take_length, encoded]
  rfl

/-- And what `lz4_decompress` makes of that. -/
theorem lz4Decompress_block {text bytes : List UInt8} (encodes : Encodes text 0 bytes)
    (short : text.length < 2 ^ 30) (few : bytes.length + bytes.length / 2 < 2 ^ 31)
    {allocates : Int → Bool} (allocated : ∀ n, 0 ≤ n → allocates n = true)
    (grown : Int → Memory) :
    ∃ dest, lz4Decompress (uncompressIn grown) allocates bytes =
      some (some (dest, (text.length : Int))) ∧ read dest 0 text.length = text := by
  have size : 0 ≤ firstSize bytes.length := by
    rw [firstSize_of_small few]
    exact Int.natCast_nonneg _
  rw [lz4Decompress_eq allocated size, seen_of_small (by omega)]
  exact growLoop_reaches (block_documented encodes (by omega) grown) allocated size
    (reaches_of_small few (by omega))

/-- A document below a gigabyte comes back from `lz4_decompress` as it went into `lz4_compress`,
however small the first buffer was, and no call of the decoder traps on the way. -/
theorem lz4_documents {input : List UInt8} (short : input.length < 2 ^ 30)
    {allocates : Int → Bool} (allocated : ∀ n, 0 ≤ n → allocates n = true) (fresh : Memory)
    (grown : Int → Memory) :
    ∃ (n : Nat) (m dest : Memory),
      lz4CompressDocument allocates fresh input = some (some (m, (n : Int))) ∧
      (∀ bound, (lz4UncompressUnknownOutputSize (read m 0 n) bound (grown bound)).isSome) ∧
      lz4Decompress (uncompressIn grown) allocates (read m 0 n) =
        some (some (dest, (input.length : Int))) ∧
      read dest 0 input.length = input := by
  obtain ⟨n, m, compressed, few, block⟩ := lz4CompressDocument_spec short allocated fresh
  obtain ⟨dest, found, bytes⟩ := lz4Decompress_block block short
    (by rw [length_read]; omega) allocated grown
  refine ⟨n, m, dest, compressed, fun bound => ?_, found, bytes⟩
  obtain ⟨answer, returned, -⟩ := block.uncompress (by omega) bound (grown bound)
  rw [returned]
  rfl

/-- A document of fourteen equal bytes. -/
theorem lz4_documents_fourteen : ∃ (n : Nat) (m dest : Memory),
    lz4CompressDocument (fun _ => true) (fun _ => 0) (List.replicate 14 7) =
      some (some (m, (n : Int))) ∧
    (∀ bound, (lz4UncompressUnknownOutputSize (read m 0 n) bound (fun _ => 0)).isSome) ∧
    lz4Decompress (uncompressIn fun _ _ => 0) (fun _ => true) (read m 0 n) =
      some (some (dest, ((List.replicate 14 (7 : UInt8)).length : Int))) ∧
    read dest 0 (List.replicate 14 (7 : UInt8)).length = List.replicate 14 7 :=
  lz4_documents (by decide) (fun _ _ => rfl) _ _

section Samples

/-- The text of a source, as far as the plain decoder makes it out in the largest buffer. -/
def blockText (source : List UInt8) : Option (List UInt8) :=
  (plainUncompress source intMax).bind fun answer =>
    if answer.1 < 0 then none else answer.2.mapM id

private def emptyBuffers : Int → Memory := fun _ _ => 0

/-- `malloc` in a process with memory. -/
private def ample (n : Int) : Bool := decide (0 ≤ n)

private theorem ample_allocates : Allocates ample :=
  ⟨fun _ size => decide_eq_true size, fun _ size => decide_eq_false (not_le.mpr size)⟩

/-- One literal. -/
theorem one_literal_decompressed :
    Decompresses (uncompressIn emptyBuffers) ample blockText [0x10, 0x61] := by
  have whole : seen [0x10, 0x61] = [0x10, 0x61] := seen_of_small (by decide)
  have text : blockText [0x10, 0x61] = some [0x61] := by decide +kernel
  have block : Encodes [0x61] 0 [0x10, 0x61] := .last (Nat.zero_le _)
  refine (decompresses_iff ?_ ample_allocates).mpr ⟨by decide, [0x61], text, ?_, ?_⟩
  · rw [whole, text]
    exact block_documented block (by decide) emptyBuffers
  · rw [whole, text]
  · exact reaches_of_small (by decide) (by decide)

/-- A token that promises more than there is: the decoder gives up in every buffer. -/
private theorem promise_documented (fresh : Int → Memory) :
    Documented (uncompressIn fresh) [0xFF] none := by
  refine ⟨nofun, fun bound _ _ => Or.inl ?_⟩
  have stops : plainUncompress [0xFF] bound = some (-1, []) := by
    have step : plainRound 1 bound ⟨[0xFF], []⟩ = some (.stop (-1, [])) := by
      simp [plainRound, lengthOf, lengthFrom, plainLast, malformed, mlBits, runMask, copyLength]
    simp [plainUncompress, loop, step]
  have same := uncompress_plain [0xFF] bound (fresh bound)
  rw [stops] at same
  obtain ⟨answer, returned, code, -⟩ := some_right same
  rw [uncompressIn, returned, Option.getD_some, code]
  decide

/-- No NULL comes back for it. -/
theorem malformed_no_null :
    Documented (uncompressIn emptyBuffers) (seen [0xFF]) (blockText (seen [0xFF])) ∧
      blockText [0xFF] = none ∧
      ¬Decompresses (uncompressIn emptyBuffers) ample blockText [0xFF] := by
  have malformed : blockText [0xFF] = none := by decide +kernel
  refine ⟨?_, malformed, ?_⟩
  · rw [seen_of_small (by decide), malformed]
    exact promise_documented emptyBuffers
  · rintro ⟨ret, returned, null, -⟩
    rw [(null malformed).1, lz4Decompress_eq ample_allocates.granted (by decide)] at returned
    exact growLoop_ne_null ample_allocates.granted (by decide) returned

end Samples

end Lz4Wrapper
