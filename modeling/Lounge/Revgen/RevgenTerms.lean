import Lounge.Lib.ExternalTerm
import Lounge.Revgen.CouchRevgen

/-!
# What a revision hashes, as a term

The comment in `couch-revgen.c` shows the term CouchDB hashes for a document.
`hash_value` writes the image of that term, except that it takes every integer
below 256 for a small one, writes a bignum as a big number whatever its value,
and never writes a list of bytes as a string.
-/

namespace RevgenTerms
open CodecValue CouchRevgen ExternalTerm LittleEndian ObjectStore PrefixCode

def falseAtom : Term := .atom [102, 97, 108, 115, 101]
def trueAtom : Term := .atom [116, 114, 117, 101]
def nullAtom : Term := .atom [110, 117, 108, 108]

/-- The 31 bytes of a real. -/
def floatText (lib : RevgenLib) (bits : UInt64) : List UInt8 :=
  (lib.realText bits ++ List.replicate 31 0).take 31

mutual

/-- The term of a document value: an object is a 1-tuple around its member list. -/
def docTerm (lib : RevgenLib) : LaCodecValue → Term
  | .true => trueAtom
  | .false => falseAtom
  | .null => nullAtom
  | .integer i => .int i.toInt
  | .bignum i => .int i
  | .real bits => .float (floatText lib bits)
  | .string s => .binary s.bytes
  | .array elements => .list (elementTerms lib elements)
  | .object members => .tuple [.list (memberTerms lib members)]

def elementTerms (lib : RevgenLib) : List LaCodecValue → List Term
  | [] => []
  | v :: rest => docTerm lib v :: elementTerms lib rest

def memberTerms (lib : RevgenLib) : List (CString × LaCodecValue) → List Term
  | [] => []
  | (key, v) :: rest => .tuple [.binary key.bytes, docTerm lib v] :: memberTerms lib rest

end

/-- The base of a revision, the integer 0 where there is none. -/
def baseTerm : Option LaStorageRev → Term
  | none => .int 0
  | some rev => .binary rev.rev

/-- `[Deleted, OldStart, OldRev, {Props}, []]`. -/
def revTerm (lib : RevgenLib) (value : LaCodecValue) (oldStart : UInt64)
    (oldrev : Option LaStorageRev) (isDelete : Bool) : Term :=
  .list [if isDelete then trueAtom else falseAtom, .int oldStart.toNat, baseTerm oldrev,
    docTerm lib value, .list []]

/-- The number an integer or a bignum stands for. -/
def numberOf : LaCodecValue → Option Int
  | .integer i => some i.toInt
  | .bignum i => some i
  | _ => none

/-- A number that fits a byte. -/
def isByte (v : LaCodecValue) : Bool :=
  match numberOf v with
  | some i => 0 ≤ i && i ≤ 255
  | none => false

/-- What `hash_value` writes as the term format does: no negative integer, no
bignum of the signed 32-bit range, no list that `STRING_EXT` stands for. -/
def plainNode : LaCodecValue → Bool
  | .integer i => 0 ≤ i.toInt
  | .bignum i => i < -2 ^ 31 || 2 ^ 31 ≤ i
  | .array elements => elements.isEmpty || 65535 < elements.length || !elements.all isByte
  | _ => true

theorem elementTerms_eq_map (lib : RevgenLib) (elements : List LaCodecValue) :
    elementTerms lib elements = elements.map (docTerm lib) := by
  induction elements with
  | nil => rfl
  | cons v rest ih => simp [elementTerms, ih]

/-- The pair a member is translated to. -/
def memberTerm (lib : RevgenLib) (m : CString × LaCodecValue) : Term :=
  .tuple [.binary m.1.bytes, docTerm lib m.2]

theorem memberTerms_eq_map (lib : RevgenLib) (members : List (CString × LaCodecValue)) :
    memberTerms lib members = members.map (memberTerm lib) := by
  induction members with
  | nil => rfl
  | cons m rest ih => simp [memberTerms, memberTerm, ih]

theorem hashElements_eq_flatMap (lib : RevgenLib) (elements : List LaCodecValue) :
    hashElements lib elements = elements.flatMap (hashValue lib) := by
  induction elements with
  | nil => rfl
  | cons v rest ih => simp [hashElements, ih]

theorem hashMembers_eq_flatMap (lib : RevgenLib) (members : List (CString × LaCodecValue)) :
    hashMembers lib members = members.flatMap (hashMember lib) := by
  induction members with
  | nil => rfl
  | cons m rest ih => simp [hashMembers, ih]

theorem bytesBE_eq (w n : Nat) : bytesBE w n = bigEndian w n := by
  induction w with
  | zero => rfl
  | succ w ih => simp [bytesBE, ih, bigEndian, bytesLE_snoc]

/-- The significant bytes of a number are its digits in base 256. -/
theorem significant_eq {w n : Nat} (small : n < 256 ^ w) :
    ((bytesBE w n).dropWhile (· == 0)).reverse = ExternalTerm.magnitude n := by
  induction w generalizing n with
  | zero =>
    have zero : n = 0 := by simpa using small
    subst zero
    rfl
  | succ w ih =>
    have digits := ih (n := n / 256) (by
      rw [Nat.pow_succ] at small
      exact Nat.div_lt_of_lt_mul (by omega))
    have split : bytesBE (w + 1) n = bytesBE w (n / 256) ++ [UInt8.ofNat n] := by
      simp [bytesBE_eq, bigEndian, bytesLE]
    rw [split, List.dropWhile_append]
    by_cases high : n / 256 = 0
    · have none : (bytesBE w (n / 256)).dropWhile (· == 0) = [] := by simpa [high] using digits
      by_cases zero : n = 0
      · subst zero
        rw [none]
        simp
      · have nonzero : UInt8.ofNat n ≠ 0 := by
          intro h
          have := congrArg UInt8.toNat h
          rw [UInt8.toNat_ofNat'] at this
          simp at this
          omega
        rw [none, magnitude_step (by omega), high]
        simp [nonzero]
    · have some : (bytesBE w (n / 256)).dropWhile (· == 0) ≠ [] := by
        intro h
        rw [h, magnitude_step (by omega)] at digits
        cases digits
      rw [if_neg (by simpa using some), List.reverse_append, digits,
        magnitude_step (n := n) (by omega)]
      rfl

theorem toNat_of_nonneg {i : Int64} (h : 0 ≤ i.toInt) : (i.toUInt64.toNat : Int) = i.toInt := by
  have cond := i.toBitVec.toInt_eq_toNat_cond
  have := i.toBitVec.isLt
  change (i.toBitVec.toNat : Int) = i.toBitVec.toInt
  change 0 ≤ i.toBitVec.toInt at h
  split at cond <;> omega

/-- A nonnegative integer is written as the term format writes it. -/
theorem hashInteger_encode {i : Int64} (h : 0 ≤ i.toInt) :
    hashInteger i = encodeInt i.toInt := by
  have value := toNat_of_nonneg h
  have bound : i.toUInt64.toNat < 256 ^ 8 := i.toUInt64.toNat_lt
  by_cases byte : i.toInt < 256
  · have image : i.toInt.toNat = i.toUInt64.toNat := by omega
    rw [encodeInt, if_pos (by omega), image]
    exact if_pos byte
  · by_cases word : i.toInt ≤ 2 ^ 31 - 1
    · have image : (i.toInt % 2 ^ 32).toNat = i.toUInt64.toNat := by omega
      rw [encodeInt, if_neg (by omega), if_pos (by omega), image, ← bytesBE_eq]
      exact (if_neg byte).trans (if_pos word)
    · have digits := significant_eq bound
      have image : i.toInt.natAbs = i.toUInt64.toNat := by omega
      have length : ((bytesBE 8 i.toUInt64.toNat).dropWhile (· == 0)).length =
          (ExternalTerm.magnitude i.toInt.natAbs).length := by
        rw [image, ← digits, List.length_reverse]
      have short : (ExternalTerm.magnitude i.toInt.natAbs).length ≤ 255 := by
        rw [image]
        exact (length_magnitude_le bound).trans (by decide)
      have big : hashInteger i = smallBig ::
          UInt8.ofNat ((bytesBE 8 i.toUInt64.toNat).dropWhile (· == 0)).length :: 0 ::
          ((bytesBE 8 i.toUInt64.toNat).dropWhile (· == 0)).reverse :=
        (if_neg byte).trans (if_neg word)
      rw [encodeInt, if_neg (by omega), if_neg (by omega), big, digits, length, encodeBig, image]
      rw [image] at short
      simp only [if_neg (by omega : ¬i.toInt < 0)]
      exact (if_pos short).symm

theorem hashBignum_eq (i : Int) : hashBignum i = encodeBig i := by
  have same : CouchRevgen.magnitude i.natAbs = ExternalTerm.magnitude i.natAbs := rfl
  unfold hashBignum encodeBig
  rw [same]
  by_cases short : (ExternalTerm.magnitude i.natAbs).length < 256
  · simp only [if_pos short, if_pos (Nat.le_of_lt_succ short)]
    rfl
  · simp only [if_neg short, if_neg (mt Nat.lt_succ_of_le short), bytesBE_eq]
    rfl

theorem hashInteger_splits (i : Int64) :
    Splits (hashInteger i) (encodeInt i.toInt) (0 ≤ i.toInt) := by
  by_cases h : 0 ≤ i.toInt
  · rw [hashInteger_encode h]
    exact (Splits.self _).imp fun _ => h
  · have small : hashInteger i = [smallInt, UInt8.ofNat i.toUInt64.toNat] := if_pos (by omega)
    rw [small, encodeInt, if_neg (by omega)]
    by_cases word : -2 ^ 31 ≤ i.toInt ∧ i.toInt < 2 ^ 31
    · rw [if_pos word]
      exact (Splits.of_head_ne (by decide)).imp False.elim
    · rw [if_neg word]
      obtain ⟨tail, big | big⟩ := encodeBig_head i.toInt <;> rw [big]
      · exact (Splits.of_head_ne (by decide)).imp False.elim
      · exact (Splits.of_head_ne (by decide)).imp False.elim

theorem hashBignum_splits (i : Int) :
    Splits (hashBignum i) (encodeInt i) (i < -2 ^ 31 ∨ 2 ^ 31 ≤ i) := by
  rw [hashBignum_eq]
  by_cases h : i < -2 ^ 31 ∨ 2 ^ 31 ≤ i
  · rw [encodeInt_big h]
    exact (Splits.self _).imp fun _ => h
  · obtain ⟨small, hs⟩ := encodeInt_head (i := i) (by omega)
    obtain ⟨big, hb⟩ := encodeBig_head i
    rcases hs with hs | hs <;> rcases hb with hb | hb <;> rw [hs, hb] <;>
      exact (Splits.of_head_ne (by decide)).imp False.elim

theorem isByte_docTerm (lib : RevgenLib) (v : LaCodecValue) :
    (byteOf (docTerm lib v)).isSome = isByte v := by
  cases v <;> simp [docTerm, byteOf, isByte, numberOf, trueAtom, falseAtom, nullAtom] <;>
    split <;> simp_all

theorem mapM_eq_none {α β : Type} {f : α → Option β} {xs : List α} :
    xs.mapM f = none ↔ ∃ x ∈ xs, f x = none := by
  induction xs with
  | nil => simp
  | cons x rest ih =>
    cases h : f x with
    | none => simp [h]
    | some b => cases hr : rest.mapM f <;> simp_all

/-- The arrays that go out as a list of terms. -/
theorem stringOf_eq_none (lib : RevgenLib) (elements : List LaCodecValue) :
    stringOf (elements.map (docTerm lib)) = none ↔
      65535 < elements.length ∨ elements.all isByte = false := by
  unfold stringOf
  rw [List.length_map]
  split
  · rename_i short
    rw [mapM_eq_none]
    simp [← isByte_docTerm lib, show ¬65535 < elements.length by omega]
  · simp
    omega

theorem hashValue_array (lib : RevgenLib) (elements : List LaCodecValue) :
    hashValue lib (.array elements) = listOf (hashValue lib) elements := by
  cases elements with
  | nil => rfl
  | cons v rest => simp [hashValue, hashElements_eq_flatMap, bytesBE_eq, list, nil, listOf]

theorem hashMember_eq (lib : RevgenLib) (m : CString × LaCodecValue) :
    hashMember lib m = 104 :: 2 :: (hashString m.1 ++ hashValue lib m.2) := by
  cases m
  simp [hashMember]

theorem hashValue_object (lib : RevgenLib) (members : List (CString × LaCodecValue)) :
    hashValue lib (.object members) = 104 :: 1 :: listOf (hashMember lib) members := by
  cases members with
  | nil => rfl
  | cons m rest => simp [hashValue, hashMembers_eq_flatMap, bytesBE_eq, list, nil, listOf]

theorem hashString_eq (s : CString) :
    hashString s = 109 :: (bigEndian 4 s.bytes.length ++ s.bytes) := by
  simp [hashString, CString.strlen, bytesBE_eq, binary]

theorem encode_docTerm_array (lib : RevgenLib) {elements : List LaCodecValue}
    (plain : plainNode (.array elements) = true) :
    encode (docTerm lib (.array elements)) =
      listOf (fun v => encode (docTerm lib v)) elements := by
  rw [docTerm, elementTerms_eq_map, encode_list, listOf_map]
  rw [stringOf_eq_none]
  simpa [plainNode, or_assoc] using plain

/-- The other arrays go out as strings. -/
theorem encode_docTerm_string (lib : RevgenLib) {elements : List LaCodecValue}
    (bytes : plainNode (.array elements) = false) :
    elements ≠ [] ∧ ∃ tail, encode (docTerm lib (.array elements)) = 107 :: tail := by
  have notList := stringOf_eq_none lib elements
  cases elements with
  | nil => cases bytes
  | cons v rest =>
    refine ⟨List.cons_ne_nil v rest, ?_⟩
    rw [docTerm, elementTerms_eq_map]
    cases string : stringOf ((v :: rest).map (docTerm lib)) with
    | none =>
      have := notList.mp string
      simp [plainNode] at bytes
      simp at this
      grind
    | some bs =>
      rw [List.map_cons] at string ⊢
      simp [encode, string]

theorem encode_docTerm_object (lib : RevgenLib) (members : List (CString × LaCodecValue)) :
    encode (docTerm lib (.object members)) =
      104 :: 1 :: listOf (fun m => encode (memberTerm lib m)) members := by
  have noString : members.map (memberTerm lib) = [] ∨
      stringOf (members.map (memberTerm lib)) = none := by
    cases members with
    | nil => exact Or.inl rfl
    | cons m rest => simp [stringOf, memberTerm, byteOf]
  rw [docTerm, memberTerms_eq_map]
  simp [encode, encodeAll, encode_list noString, listOf_map]

theorem encode_memberTerm (lib : RevgenLib) (m : CString × LaCodecValue) :
    encode (memberTerm lib m) = 104 :: 2 :: (hashString m.1 ++ encode (docTerm lib m.2)) := by
  simp [memberTerm, encode, encodeAll, hashString_eq]

theorem listOf_congr {α : Type} {f g : α → List UInt8} {xs : List α} (h : ∀ x ∈ xs, f x = g x) :
    listOf f xs = listOf g xs := by
  rw [listOf, listOf, List.flatMap_congr h]

/-- Where it deviates nowhere, `hash_value` writes the term's image. -/
theorem hashValue_encode (lib : RevgenLib) (v : LaCodecValue)
    (plain : v.everywhere plainNode = true) : hashValue lib v = encode (docTerm lib v) := by
  induction v using LaCodecValue.induction_on with
  | true => rfl
  | false => rfl
  | null => rfl
  | integer i =>
    exact hashInteger_encode (by simpa [LaCodecValue.everywhere, plainNode] using plain)
  | bignum i =>
    have big : i < -2 ^ 31 ∨ 2 ^ 31 ≤ i := by
      simpa [LaCodecValue.everywhere, plainNode] using plain
    exact (hashBignum_eq i).trans (encodeInt_big big).symm
  | real bits => rfl
  | string s => exact hashString_eq s
  | array elements ih =>
    obtain ⟨here, inside⟩ := LaCodecValue.everywhere_array.mp plain
    rw [hashValue_array, encode_docTerm_array lib here]
    exact listOf_congr fun v hv => ih v hv (inside v hv)
  | object members ih =>
    obtain ⟨-, inside⟩ := LaCodecValue.everywhere_object.mp plain
    rw [hashValue_object, encode_docTerm_object]
    refine congrArg _ (congrArg _ (listOf_congr fun m hm => ?_))
    rw [hashMember_eq, encode_memberTerm, ih m hm (inside m hm)]

/-- Where `hash_value` and the term format agree on a stream's front, they agree
on all of the value. -/
theorem hashValue_splits (lib : RevgenLib) (v : LaCodecValue) :
    Splits (hashValue lib v) (encode (docTerm lib v)) (v.everywhere plainNode = true) := by
  induction v using LaCodecValue.induction_on with
  | true => exact (Splits.self _).imp fun _ => rfl
  | false => exact (Splits.self _).imp fun _ => rfl
  | null => exact (Splits.self _).imp fun _ => rfl
  | integer i =>
    refine (hashInteger_splits i).imp fun h => ?_
    simpa [LaCodecValue.everywhere, plainNode] using h
  | bignum i =>
    refine (hashBignum_splits i).imp fun h => ?_
    simpa [LaCodecValue.everywhere, plainNode] using h
  | real bits => exact (Splits.self _).imp fun _ => rfl
  | string s =>
    rw [hashValue, hashString_eq]
    exact (Splits.self _).imp fun _ => rfl
  | array elements ih =>
    by_cases plain : plainNode (.array elements) = true
    · rw [hashValue_array, encode_docTerm_array lib plain]
      have pairs : List.Forall₂ (fun v w => Splits (hashValue lib v) (encode (docTerm lib w))
          (v.everywhere plainNode = true)) elements elements :=
        List.forall₂_same.mpr ih
      refine (splits_listOf (fun _ => rfl) fun _ => pairs).imp fun all => ?_
      exact LaCodecValue.everywhere_array.mpr ⟨plain, List.forall₂_same.mp all⟩
    · obtain ⟨nonempty, tail, string⟩ :=
        encode_docTerm_string lib (Bool.eq_false_of_not_eq_true plain)
      rw [hashValue_array, string, listOf, if_neg nonempty]
      exact (Splits.of_head_ne (by decide)).imp False.elim
  | object members ih =>
    rw [hashValue_object, encode_docTerm_object]
    have pairs : List.Forall₂ (fun m n => Splits (hashMember lib m) (encode (memberTerm lib n))
        (m.2.everywhere plainNode = true)) members members := by
      refine List.forall₂_same.mpr fun m hm => ?_
      rw [hashMember_eq, encode_memberTerm]
      have key := (Splits.self (hashString m.1)).append fun _ => ih m hm
      exact (Splits.cons fun _ => Splits.cons fun _ => key).imp fun all => all.2.2.2
    have body := splits_listOf (fun _ => rfl) fun _ => pairs
    refine (Splits.cons fun _ => Splits.cons fun _ => body).imp fun all => ?_
    exact LaCodecValue.everywhere_object.mpr ⟨rfl, List.forall₂_same.mp all.2.2⟩

theorem revTerm_encode (lib : RevgenLib) (value : LaCodecValue) (oldStart : UInt64)
    (oldrev : Option LaStorageRev) (isDelete : Bool) :
    termToBinary (revTerm lib value oldStart oldrev isDelete) =
      [131, list, 0, 0, 0, 5] ++ (if isDelete then trueTerm else falseTerm) ++
        encodeInt oldStart.toNat ++ encode (baseTerm oldrev) ++
        encode (docTerm lib value) ++ [nil, nil] := by
  have flag : encode (if isDelete then trueAtom else falseAtom) =
      if isDelete then trueTerm else falseTerm := by cases isDelete <;> rfl
  have noString : stringOf [if isDelete then trueAtom else falseAtom, .int oldStart.toNat,
      baseTerm oldrev, docTerm lib value, .list []] = none := by
    cases isDelete <;> simp [stringOf, byteOf, trueAtom, falseAtom]
  rw [termToBinary, revTerm, encode_list (Or.inr noString), listOf, if_neg (List.cons_ne_nil _ _)]
  simp [flag, encode, list, nil]
  rfl

/-- What `la_revgen` hashes, with the old start and the base as terms. -/
theorem revgenInput_eq (lib : RevgenLib) (value : LaCodecValue) {oldStart : UInt64}
    (oldrev : Option LaStorageRev) (isDelete : Bool) (start : oldStart.toNat < 2 ^ 63) :
    revgenInput lib value oldStart oldrev isDelete =
      [131, list, 0, 0, 0, 5] ++ (if isDelete then trueTerm else falseTerm) ++
        encodeInt oldStart.toNat ++ encode (baseTerm oldrev) ++
        hashValue lib value ++ [nil, nil] := by
  have signed : oldStart.toInt64.toInt = oldStart.toNat := by
    have cond := oldStart.toBitVec.toInt_eq_toNat_cond
    change oldStart.toBitVec.toInt = oldStart.toBitVec.toNat
    change oldStart.toBitVec.toNat < 2 ^ 63 at start
    rw [cond, if_pos (by omega)]
  have startTerm : hashInteger oldStart.toInt64 = encodeInt oldStart.toNat := by
    rw [hashInteger_encode (by omega), signed]
  cases oldrev with
  | none => simp [revgenInput, startTerm, baseTerm, encode, encodeInt, smallInt]
  | some rev =>
    simp [revgenInput, startTerm, baseTerm, encode, bytesBE_eq, rev.length_eq,
      laObjectRevisionLen, binary]

/-- `la_revgen` hashes what CouchDB hashes for exactly the documents in which
`hash_value` deviates nowhere. -/
theorem revgenInput_external_iff (lib : RevgenLib) (value : LaCodecValue) (oldStart : UInt64)
    (oldrev : Option LaStorageRev) (isDelete : Bool) (start : oldStart.toNat < 2 ^ 63) :
    revgenInput lib value oldStart oldrev isDelete =
        termToBinary (revTerm lib value oldStart oldrev isDelete) ↔
      value.everywhere plainNode = true := by
  rw [revTerm_encode, revgenInput_eq lib value oldrev isDelete start]
  simp only [List.append_assoc, List.append_cancel_left_eq]
  constructor
  · intro same
    exact (hashValue_splits lib value _ _ same).1
  · intro plain
    rw [hashValue_encode lib value plain]

section Couch

/-- A revision library whose digest is of no interest. -/
private def plainLib : RevgenLib := ⟨fun _ => zeroRev, fun _ => []⟩

private def text (bs : List UInt8) : CString := .ofBytes bs

/-- `{"foo":"bar","quux":1234,"boolean":true}`. -/
private def plainDoc : LaCodecValue :=
  .object [(text [102, 111, 111], .string (text [98, 97, 114])),
    (text [113, 117, 117, 120], .integer 1234),
    (text [98, 111, 111, 108, 101, 97, 110], .true)]

/-- `{"list":[1,2,3],"obj":{"a":"b"}}`, the end of the document in the file's comment. -/
private def listDoc : LaCodecValue :=
  .object [(text [108, 105, 115, 116], .array [.integer 1, .integer 2, .integer 3]),
    (text [111, 98, 106], .object [(text [97], .string (text [98]))])]

theorem revgenInput_plain :
    (2 : UInt64).toNat < 2 ^ 63 ∧
      revgenInput plainLib plainDoc 2 (some (uniformRev 7)) false =
        termToBinary (revTerm plainLib plainDoc 2 (some (uniformRev 7)) false) :=
  ⟨by decide, (revgenInput_external_iff plainLib plainDoc 2 (some (uniformRev 7)) false
    (by decide)).mpr (by decide)⟩

/-- The list that the comment shows as `107,0,3,1,2,3` goes out as `108,0,0,0,3,...`. -/
theorem byte_list_not_external :
    revgenInput plainLib listDoc 3 (some (uniformRev 7)) false ≠
      termToBinary (revTerm plainLib listDoc 3 (some (uniformRev 7)) false) := by
  decide +kernel

/-- The bytes the comment shows for these two members. -/
example : encode (docTerm plainLib listDoc) =
    [104, 1, 108, 0, 0, 0, 2, 104, 2, 109, 0, 0, 0, 4, 108, 105, 115, 116, 107, 0, 3, 1, 2, 3,
      104, 2, 109, 0, 0, 0, 3, 111, 98, 106, 104, 1, 108, 0, 0, 0, 1, 104, 2, 109, 0, 0, 0, 1, 97,
      109, 0, 0, 0, 1, 98, 106, 106] := by
  decide

end Couch

end RevgenTerms
