import Lounge.Revgen.RevgenTerms

/-!
# Documents that differ in an integer

What `la_revgen` hashes of a document is cut at a leaf into the bytes before it, those of the
leaf, and those behind it. So two documents that differ in one integer are told apart exactly
if `hash_value` tells the integers apart, and it takes the low byte of everything below 256.
-/

namespace IntegerHashes
open CodecValue CouchRevgen ExternalTerm ObjectStore PrefixCode RevgenTerms

/-- One value around a place in a document: an array with the elements on both sides, or an
object with the members on both sides and the key. -/
inductive Frame where
  | array (before behind : List LaCodecValue)
  | object (before : List (CString × LaCodecValue)) (key : CString)
    (behind : List (CString × LaCodecValue))

/-- A document with one leaf left out; the innermost frame comes first. -/
abbrev DocContext := List Frame

def Frame.fill : Frame → LaCodecValue → LaCodecValue
  | .array before behind, leaf => .array (before ++ leaf :: behind)
  | .object before key behind, leaf => .object (before ++ (key, leaf) :: behind)

/-- The document with the leaf put in. -/
def DocContext.fill (ctx : DocContext) (leaf : LaCodecValue) : LaCodecValue :=
  ctx.foldl (fun value frame => frame.fill value) leaf

/-- A frame is hashed around what it holds. -/
theorem hashValue_frame (lib : RevgenLib) (frame : Frame) :
    ∃ before behind, ∀ value,
      hashValue lib (frame.fill value) = before ++ hashValue lib value ++ behind := by
  cases frame with
  | array xs ys =>
    refine ⟨list :: bytesBE 4 (xs.length + (ys.length + 1)) ++ hashElements lib xs,
      hashElements lib ys ++ [nil], fun value => ?_⟩
    simp [Frame.fill, hashValue, hashElements_eq_flatMap]
  | object ms key ns =>
    refine ⟨[104, 1] ++ list :: bytesBE 4 (ms.length + (ns.length + 1)) ++ hashMembers lib ms ++
      [104, 2] ++ hashString key, hashMembers lib ns ++ [nil], fun value => ?_⟩
    simp [Frame.fill, hashValue, hashMembers_eq_flatMap, hashMember]

/-- And so is a context, by induction from the inside out. -/
theorem hashValue_fill (lib : RevgenLib) (ctx : DocContext) :
    ∃ before behind, ∀ leaf,
      hashValue lib (ctx.fill leaf) = before ++ hashValue lib leaf ++ behind := by
  induction ctx with
  | nil => exact ⟨[], [], fun leaf => by simp [DocContext.fill]⟩
  | cons frame rest ih =>
    obtain ⟨inner, inner', framed⟩ := hashValue_frame lib frame
    obtain ⟨outer, outer', rested⟩ := ih
    refine ⟨outer ++ inner, inner' ++ outer', fun leaf => ?_⟩
    have unfolded : DocContext.fill (frame :: rest) leaf = DocContext.fill rest (frame.fill leaf) :=
      rfl
    rw [unfolded, rested, framed]
    simp only [List.append_assoc]

/-- Two leaves are hashed alike in a context exactly if they are hashed alike. -/
theorem revgenInput_fill_iff (lib : RevgenLib) (ctx : DocContext) (v w : LaCodecValue)
    (oldStart : UInt64) (oldrev : Option LaStorageRev) (isDelete : Bool) :
    revgenInput lib (ctx.fill v) oldStart oldrev isDelete =
        revgenInput lib (ctx.fill w) oldStart oldrev isDelete ↔
      hashValue lib v = hashValue lib w := by
  obtain ⟨before, behind, cut⟩ := hashValue_fill lib ctx
  simp only [revgenInput, cut, List.append_cancel_left_eq, List.append_cancel_right_eq,
    List.append_assoc]

theorem toUInt64_emod (i : Int64) : (i.toUInt64.toNat : Int) % 256 = i.toInt % 256 := by
  have cond := i.toBitVec.toInt_eq_toNat_cond
  change (i.toBitVec.toNat : Int) % 256 = i.toBitVec.toInt % 256
  split at cond <;> omega

theorem lowByte_eq_iff (i j : Int64) :
    UInt8.ofNat i.toUInt64.toNat = UInt8.ofNat j.toUInt64.toNat ↔
      i.toInt % 256 = j.toInt % 256 := by
  have hi := toUInt64_emod i
  have hj := toUInt64_emod j
  rw [← UInt8.toNat_inj, UInt8.toNat_ofNat', UInt8.toNat_ofNat']
  omega

theorem hashInteger_below {i : Int64} (below : i.toInt < 256) :
    hashInteger i = [smallInt, UInt8.ofNat i.toUInt64.toNat] := if_pos below

/-- From 256 on the first byte is another one. -/
theorem hashInteger_above {i : Int64} (above : 256 ≤ i.toInt) :
    ∃ tag tail, hashInteger i = tag :: tail ∧ tag ≠ smallInt := by
  unfold hashInteger
  rw [if_neg (by omega)]
  split
  · exact ⟨int, _, rfl, by decide⟩
  · exact ⟨smallBig, _, rfl, by decide⟩

/-- Numbers from 256 on are hashed as the term format writes them, each in its own way. -/
theorem hashInteger_inj_above {i j : Int64} (hi : 256 ≤ i.toInt) (hj : 256 ≤ j.toInt)
    (same : hashInteger i = hashInteger j) : i = j := by
  have short : ∀ k : Int64, (ExternalTerm.magnitude k.toInt.natAbs).length < 256 ^ 4 := by
    intro k
    have := length_magnitude_le (w := 8) (n := k.toInt.natAbs)
      (by have := k.toInt_lt; have := k.le_toInt; omega)
    omega
  rw [hashInteger_encode (by omega), hashInteger_encode (by omega)] at same
  have value := (encodeInt_splits (short i) (short j) [] [] (by rw [same])).1
  exact Int64.toInt_inj.mp value

/-- The integers that `hash_value` does not tell apart: those below 256 with the same low byte. -/
theorem hashInteger_eq_iff (i j : Int64) :
    hashInteger i = hashInteger j ↔
      i = j ∨ (i.toInt < 256 ∧ j.toInt < 256 ∧ i.toInt % 256 = j.toInt % 256) := by
  rcases Int.lt_or_le i.toInt 256 with hi | hi <;> rcases Int.lt_or_le j.toInt 256 with hj | hj
  · rw [hashInteger_below hi, hashInteger_below hj]
    simp only [List.cons.injEq, true_and, and_true, lowByte_eq_iff]
    constructor
    · exact fun low => Or.inr ⟨hi, hj, low⟩
    · rintro (rfl | ⟨-, -, low⟩)
      · rfl
      · exact low
  · obtain ⟨tag, tail, written, other⟩ := hashInteger_above hj
    rw [hashInteger_below hi, written]
    constructor
    · intro same
      exact absurd (List.cons.inj same).1.symm other
    · rintro (rfl | ⟨-, below, -⟩) <;> omega
  · obtain ⟨tag, tail, written, other⟩ := hashInteger_above hi
    rw [hashInteger_below hj, written]
    constructor
    · intro same
      exact absurd (List.cons.inj same).1 other
    · rintro (rfl | ⟨below, -, -⟩) <;> omega
  · constructor
    · exact fun same => Or.inl (hashInteger_inj_above hi hj same)
    · rintro (rfl | ⟨below, -, -⟩)
      · rfl
      · omega

/-- Different integers in one place of a document change what is hashed, unless both are below
256 and agree in their low bytes: then one of them at least is negative. -/
theorem integers_told_apart_iff (lib : RevgenLib) (ctx : DocContext) (i j : Int64)
    (oldStart : UInt64) (oldrev : Option LaStorageRev) (isDelete : Bool) :
    (i ≠ j → revgenInput lib (ctx.fill (.integer i)) oldStart oldrev isDelete ≠
      revgenInput lib (ctx.fill (.integer j)) oldStart oldrev isDelete) ↔
    i = j ∨ 256 ≤ i.toInt ∨ 256 ≤ j.toInt ∨ i.toInt % 256 ≠ j.toInt % 256 := by
  have leaves : ∀ k, hashValue lib (.integer k) = hashInteger k := fun _ => by rw [hashValue]
  simp only [ne_eq, revgenInput_fill_iff, leaves, hashInteger_eq_iff]
  by_cases same : i = j
  · simp [same]
  · simp only [same, false_or, not_false_eq_true, forall_const]
    omega

/-- Two nonnegative integers are always told apart. -/
theorem hashInteger_inj_nonneg {i j : Int64} (hi : 0 ≤ i.toInt) (hj : 0 ≤ j.toInt)
    (same : hashInteger i = hashInteger j) : i = j := by
  rcases (hashInteger_eq_iff i j).mp same with eq | ⟨below, below', low⟩
  · exact eq
  · exact Int64.toInt_inj.mp (by omega)

private def counterKey : CString := CString.ofBytes [110]

/-- `{"n":-1}` and `{"n":255}`, edits of one parent, get the same revision. -/
theorem minus_one_hashes_as_byte :
    ∃ lib oldrev, (-1 : Int64) ≠ 255 ∧
      revgenInput lib (DocContext.fill [.object [] counterKey []] (.integer (-1))) 1
          (some oldrev) false =
        revgenInput lib (DocContext.fill [.object [] counterKey []] (.integer 255)) 1
          (some oldrev) false := by
  refine ⟨⟨fun _ => zeroRev, fun _ => []⟩, uniformRev 7, by decide, ?_⟩
  rw [revgenInput_fill_iff]
  decide

end IntegerHashes
