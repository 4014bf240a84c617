import Lounge.Codec.CodecValue
import Lounge.Storage.ObjectStore
import Mathlib.Data.Nat.Digits.Defs

/-!
# Revision numbers

`revgen-couch/couch-revgen.c`: a revision is the MD5 of an external term format
image of the document and its base. MD5 and the `"%.20e"` text of a double are
arguments; what is hashed is spelled out.
-/

namespace CouchRevgen
open ObjectStore CodecValue

/-- `la_rev_t`. -/
structure LaRev where
  seq : UInt64
  rev : LaStorageRev
  deriving DecidableEq

/-- The library calls of `la_revgen`. -/
structure RevgenLib where
  md5 : List UInt8 → LaStorageRev
  realText : UInt64 → List UInt8

/-- The low `w` bytes of a number, most significant first. -/
def bytesBE : Nat → Nat → List UInt8
  | 0, _ => []
  | w + 1, n => UInt8.ofNat (n / 256 ^ w) :: bytesBE w n

def trueTerm : List UInt8 := [100, 0, 4, 116, 114, 117, 101]
def falseTerm : List UInt8 := [100, 0, 5, 102, 97, 108, 115, 101]
def nullTerm : List UInt8 := [100, 0, 4, 110, 117, 108, 108]
def smallInt : UInt8 := 97
def int : UInt8 := 98
def nil : UInt8 := 106
def list : UInt8 := 108
def binary : UInt8 := 109
def float : UInt8 := 99
def smallBig : UInt8 := 110
def largeBig : UInt8 := 111

/-- Everything below 256 is a small integer, the negative ones too. -/
def hashInteger (i : Int64) : List UInt8 :=
  let n := i.toUInt64.toNat
  if i.toInt < 256 then [smallInt, UInt8.ofNat n]
  else if i.toInt ≤ 2 ^ 31 - 1 then int :: bytesBE 4 n
  else
    let bin := (bytesBE 8 n).dropWhile (· == 0)
    smallBig :: UInt8.ofNat bin.length :: 0 :: bin.reverse

/-- `mp_to_unsigned_bin`, least significant byte first. -/
def magnitude (n : Nat) : List UInt8 := (Nat.digits 256 n).map UInt8.ofNat

def hashBignum (i : Int) : List UInt8 :=
  let bin := magnitude i.natAbs
  let sign : UInt8 := if i < 0 then 1 else 0
  if bin.length < 256 then smallBig :: UInt8.ofNat bin.length :: sign :: bin
  else largeBig :: bytesBE 4 bin.length ++ sign :: bin

def hashString (s : CString) : List UInt8 := binary :: bytesBE 4 s.strlen ++ s.bytes

mutual

/-- `hash_value`: the bytes that it feeds to MD5. -/
def hashValue (lib : RevgenLib) : LaCodecValue → List UInt8
  | .true => trueTerm
  | .false => falseTerm
  | .null => nullTerm
  | .integer i => hashInteger i
  | .bignum i => hashBignum i
  | .real bits => float :: (lib.realText bits ++ List.replicate 31 0).take 31
  | .string s => hashString s
  | .array elements =>
    (if elements.length = 0 then [] else list :: bytesBE 4 elements.length ++
      hashElements lib elements) ++ [nil]
  | .object members =>
    [104, 1] ++ (if members.length = 0 then [] else list :: bytesBE 4 members.length ++
      hashMembers lib members) ++ [nil]

def hashElements (lib : RevgenLib) : List LaCodecValue → List UInt8
  | [] => []
  | v :: rest => hashValue lib v ++ hashElements lib rest

def hashMembers (lib : RevgenLib) : List (CString × LaCodecValue) → List UInt8
  | [] => []
  | m :: rest => hashMember lib m ++ hashMembers lib rest

def hashMember (lib : RevgenLib) : CString × LaCodecValue → List UInt8
  | (key, v) => [104, 2] ++ hashString key ++ hashValue lib v

end

/-- What `la_revgen` hashes. The old start goes through a signed integer. -/
def revgenInput (lib : RevgenLib) (value : LaCodecValue) (oldStart : UInt64)
    (oldrev : Option LaStorageRev) (isDelete : Bool) : List UInt8 :=
  [131, list, 0, 0, 0, 5] ++ (if isDelete then trueTerm else falseTerm) ++
    hashInteger oldStart.toInt64 ++
    (match oldrev with
      | none => [smallInt, 0]
      | some rev => binary :: bytesBE 4 laObjectRevisionLen ++ rev.rev) ++
    hashValue lib value ++ [nil, nil]

def laRevgen (lib : RevgenLib) (value : LaCodecValue) (oldStart : UInt64)
    (oldrev : Option LaStorageRev) (isDelete : Bool) : LaStorageRev :=
  lib.md5 (revgenInput lib value oldStart oldrev isDelete)

end CouchRevgen
