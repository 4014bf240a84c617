import Lounge.Lib.LittleEndian
import Lounge.Lib.PrefixCode
import Mathlib.Data.Nat.Digits.Lemmas

/-!
# Erlang's external term format

Terms and the encoding `term_to_binary` gives them, without compression. Only
the terms that JSON documents are translated to are here.
-/

namespace ExternalTerm
open LittleEndian PrefixCode

inductive Term where
  | int (value : Int)
  | float (text : List UInt8)
  | atom (name : List UInt8)
  | binary (bytes : List UInt8)
  | tuple (elements : List Term)
  | list (elements : List Term)

/-- The `w` low-order bytes of `n`, most significant first. -/
def bigEndian (w n : Nat) : List UInt8 := (bytesLE w n).reverse

/-- The digits of a number in base 256, least significant first. -/
def magnitude (n : Nat) : List UInt8 := (Nat.digits 256 n).map UInt8.ofNat

/-- `SMALL_BIG_EXT` and `LARGE_BIG_EXT`. -/
def encodeBig (i : Int) : List UInt8 :=
  let digits := magnitude i.natAbs
  let sign : UInt8 := if i < 0 then 1 else 0
  if digits.length ≤ 255 then [110, UInt8.ofNat digits.length, sign] ++ digits
  else 111 :: bigEndian 4 digits.length ++ sign :: digits

/-- `SMALL_INTEGER_EXT` and `INTEGER_EXT` where the value fits, a big number elsewhere. -/
def encodeInt (i : Int) : List UInt8 :=
  if 0 ≤ i ∧ i ≤ 255 then [97, UInt8.ofNat i.toNat]
  else if -2 ^ 31 ≤ i ∧ i < 2 ^ 31 then 98 :: bigEndian 4 (i % 2 ^ 32).toNat
  else encodeBig i

/-- The integer that a byte of a `STRING_EXT` stands for. -/
def byteOf : Term → Option UInt8
  | .int i => if 0 ≤ i ∧ i ≤ 255 then some (UInt8.ofNat i.toNat) else none
  | _ => none

/-- The bytes of a list that goes out as a `STRING_EXT`. -/
def stringOf (elements : List Term) : Option (List UInt8) :=
  if elements.length ≤ 65535 then elements.mapM byteOf else none

mutual

def encode : Term → List UInt8
  | .int i => encodeInt i
  | .float text => 99 :: text
  | .atom name => 100 :: bigEndian 2 name.length ++ name
  | .binary bytes => 109 :: bigEndian 4 bytes.length ++ bytes
  | .tuple elements =>
    (if elements.length ≤ 255 then [104, UInt8.ofNat elements.length]
      else 105 :: bigEndian 4 elements.length) ++ encodeAll elements
  | .list [] => [106]
  | .list (head :: tail) =>
    match stringOf (head :: tail) with
    | some bytes => 107 :: bigEndian 2 bytes.length ++ bytes
    | none => 108 :: bigEndian 4 (tail.length + 1) ++ (encode head ++ encodeAll tail) ++ [106]

def encodeAll : List Term → List UInt8
  | [] => []
  | t :: rest => encode t ++ encodeAll rest

end

/-- The version byte and one term. -/
def termToBinary (t : Term) : List UInt8 := 131 :: encode t

theorem encodeAll_eq_flatMap (ts : List Term) : encodeAll ts = ts.flatMap encode := by
  induction ts with
  | nil => rfl
  | cons t rest ih => simp [encodeAll, ih]

@[simp] theorem length_bigEndian (w n : Nat) : (bigEndian w n).length = w := by
  simp [bigEndian]

/-- `NIL_EXT`, or a `LIST_EXT` of elements written by `f`. -/
def listOf {α : Type} (f : α → List UInt8) (xs : List α) : List UInt8 :=
  if xs = [] then [106] else 108 :: (bigEndian 4 xs.length ++ (xs.flatMap f ++ [106]))

theorem listOf_map {α β : Type} (g : α → β) (f : β → List UInt8) (xs : List α) :
    listOf f (xs.map g) = listOf (fun a => f (g a)) xs := by
  simp [listOf, List.flatMap_map]

/-- A list that is no string goes out element by element. -/
theorem encode_list {ts : List Term} (h : ts = [] ∨ stringOf ts = none) :
    encode (.list ts) = listOf encode ts := by
  cases ts with
  | nil => simp [encode, listOf]
  | cons t rest =>
    have none : stringOf (t :: rest) = none := by simpa using h
    simp [encode, none, encodeAll_eq_flatMap, listOf]

theorem splits_listOf {α β : Type} {f : α → List UInt8} {g : β → List UInt8} {R : α → β → Prop}
    {xs : List α} {ys : List β}
    (lengths : bigEndian 4 xs.length = bigEndian 4 ys.length → xs.length = ys.length)
    (h : xs.length = ys.length → List.Forall₂ (fun a b => Splits (f a) (g b) (R a b)) xs ys) :
    Splits (listOf f xs) (listOf g ys) (List.Forall₂ R xs ys) := by
  unfold listOf
  by_cases hx : xs = []
  · by_cases hy : ys = []
    · subst hx hy
      exact (Splits.self _).imp fun _ => .nil
    · rw [if_pos hx, if_neg hy]
      exact (Splits.of_head_ne (by decide)).imp False.elim
  · by_cases hy : ys = []
    · rw [if_neg hx, if_pos hy]
      exact (Splits.of_head_ne (by decide)).imp False.elim
    · rw [if_neg hx, if_neg hy]
      have count : Splits (bigEndian 4 xs.length) (bigEndian 4 ys.length)
          (xs.length = ys.length) :=
        Splits.imp (Splits.of_length_eq (by rw [length_bigEndian, length_bigEndian])) lengths
      have body := count.append fun len =>
        (Splits.flatMap (h len)).append fun _ => Splits.self [106]
      exact (Splits.cons fun _ => body).imp fun all => all.2.2.1

@[simp] theorem magnitude_zero : magnitude 0 = [] := by simp [magnitude]

theorem magnitude_step {n : Nat} (pos : 0 < n) :
    magnitude n = UInt8.ofNat n :: magnitude (n / 256) := by
  have low : UInt8.ofNat (n % 256) = UInt8.ofNat n := by
    apply UInt8.toNat_inj.mp
    simp [UInt8.toNat_ofNat']
  rw [magnitude, Nat.digits_def' (by decide) pos, List.map_cons, low, magnitude]

theorem natLE_magnitude (n : Nat) : natLE (magnitude n) = n := by
  induction n using Nat.strongRecOn with
  | ind n ih =>
    by_cases zero : n = 0
    · subst zero
      rfl
    · rw [magnitude_step (by omega), natLE, ih _ (by omega), UInt8.toNat_ofNat']
      omega

theorem length_magnitude_le {w n : Nat} (small : n < 256 ^ w) : (magnitude n).length ≤ w := by
  rw [magnitude, List.length_map]
  exact (Nat.digits_length_le_iff (by decide) n).mpr small

theorem magnitude_injective {m n : Nat} (h : magnitude m = magnitude n) : m = n := by
  rw [← natLE_magnitude m, h, natLE_magnitude]

theorem bigEndian_injective {w m n : Nat} (hm : m < 256 ^ w) (hn : n < 256 ^ w)
    (h : bigEndian w m = bigEndian w n) : m = n := by
  have bytes : bytesLE w m = bytesLE w n := List.reverse_injective h
  rw [← natLE_bytesLE_of_lt hm, bytes, natLE_bytesLE_of_lt hn]

/-- A length field and as many bytes behind it. -/
theorem splits_counted {w : Nat} {x y : List UInt8} (hx : x.length < 256 ^ w)
    (hy : y.length < 256 ^ w) :
    Splits (bigEndian w x.length ++ x) (bigEndian w y.length ++ y) (x = y) := by
  have lengths : Splits (bigEndian w x.length) (bigEndian w y.length) (x.length = y.length) :=
    Splits.imp (Splits.of_length_eq (by rw [length_bigEndian, length_bigEndian]))
      fun h => bigEndian_injective hx hy h
  exact (lengths.append fun h => Splits.of_length_eq h).imp And.right

/-- The first byte of a big number. -/
theorem encodeBig_head (i : Int) :
    ∃ tail, encodeBig i = 110 :: tail ∨ encodeBig i = 111 :: tail := by
  unfold encodeBig
  dsimp only
  split
  · exact ⟨_, Or.inl rfl⟩
  · exact ⟨_, Or.inr rfl⟩

/-- The first byte of a number of the signed 32-bit range. -/
theorem encodeInt_head {i : Int} (h : -2 ^ 31 ≤ i ∧ i < 2 ^ 31) :
    ∃ tail, encodeInt i = 97 :: tail ∨ encodeInt i = 98 :: tail := by
  unfold encodeInt
  split
  · exact ⟨_, Or.inl rfl⟩
  · exact ⟨_, Or.inr rfl⟩

theorem encodeInt_big {i : Int} (h : i < -2 ^ 31 ∨ 2 ^ 31 ≤ i) : encodeInt i = encodeBig i := by
  rw [encodeInt, if_neg (by omega), if_neg (by omega)]

/-- A small number never begins like a big one. -/
theorem splits_small_big {i : Int} (h : -2 ^ 31 ≤ i ∧ i < 2 ^ 31) (j : Int) :
    Splits (encodeInt i) (encodeBig j) False := by
  obtain ⟨small, hs⟩ := encodeInt_head h
  obtain ⟨big, hb⟩ := encodeBig_head j
  rcases hs with hs | hs <;> rcases hb with hb | hb <;> rw [hs, hb] <;>
    exact Splits.of_head_ne (by decide)

theorem splits_signed {i j : Int}
    (length : (magnitude i.natAbs).length = (magnitude j.natAbs).length) :
    Splits ((if i < 0 then 1 else 0 : UInt8) :: magnitude i.natAbs)
      ((if j < 0 then 1 else 0 : UInt8) :: magnitude j.natAbs) (i = j) := by
  refine (Splits.cons fun _ => Splits.of_length_eq length).imp fun both => ?_
  have value := magnitude_injective both.2
  have sign : i < 0 ↔ j < 0 := by
    have := both.1
    split at this <;> split at this <;> grind
  omega

theorem encodeBig_splits {i j : Int} (hi : (magnitude i.natAbs).length < 256 ^ 4)
    (hj : (magnitude j.natAbs).length < 256 ^ 4) :
    Splits (encodeBig i) (encodeBig j) (i = j) := by
  unfold encodeBig
  dsimp only
  by_cases si : (magnitude i.natAbs).length ≤ 255 <;>
    by_cases sj : (magnitude j.natAbs).length ≤ 255
  · rw [if_pos si, if_pos sj]
    refine (Splits.cons fun _ => Splits.cons fun count => splits_signed ?_).imp fun all => all.2.2
    have := congrArg UInt8.toNat count
    rw [UInt8.toNat_ofNat', UInt8.toNat_ofNat'] at this
    omega
  · rw [if_pos si, if_neg sj]
    exact (Splits.of_head_ne (by decide)).imp False.elim
  · rw [if_neg si, if_pos sj]
    exact (Splits.of_head_ne (by decide)).imp False.elim
  · rw [if_neg si, if_neg sj]
    have count : Splits (bigEndian 4 (magnitude i.natAbs).length)
        (bigEndian 4 (magnitude j.natAbs).length)
        ((magnitude i.natAbs).length = (magnitude j.natAbs).length) :=
      Splits.imp (Splits.of_length_eq (by rw [length_bigEndian, length_bigEndian]))
        fun h => bigEndian_injective hi hj h
    exact (Splits.cons fun _ => count.append splits_signed).imp fun all => all.2.2

theorem encodeInt_splits {i j : Int} (hi : (magnitude i.natAbs).length < 256 ^ 4)
    (hj : (magnitude j.natAbs).length < 256 ^ 4) :
    Splits (encodeInt i) (encodeInt j) (i = j) := by
  by_cases wi : -2 ^ 31 ≤ i ∧ i < 2 ^ 31 <;> by_cases wj : -2 ^ 31 ≤ j ∧ j < 2 ^ 31
  · unfold encodeInt
    rw [if_pos wi, if_pos wj]
    by_cases bi : 0 ≤ i ∧ i ≤ 255 <;> by_cases bj : 0 ≤ j ∧ j ≤ 255
    · rw [if_pos bi, if_pos bj]
      have bytes :=
        Splits.of_length_eq (x := [UInt8.ofNat i.toNat]) (y := [UInt8.ofNat j.toNat]) rfl
      refine (Splits.cons fun _ => bytes).imp fun all => ?_
      have := congrArg UInt8.toNat (List.cons.inj all.2).1
      rw [UInt8.toNat_ofNat', UInt8.toNat_ofNat'] at this
      omega
    · rw [if_pos bi, if_neg bj]
      exact (Splits.of_head_ne (by decide)).imp False.elim
    · rw [if_neg bi, if_pos bj]
      exact (Splits.of_head_ne (by decide)).imp False.elim
    · rw [if_neg bi, if_neg bj]
      have words := Splits.of_length_eq (x := bigEndian 4 (i % 2 ^ 32).toNat)
        (y := bigEndian 4 (j % 2 ^ 32).toNat) (by rw [length_bigEndian, length_bigEndian])
      refine (Splits.cons fun _ => words).imp fun all => ?_
      have := bigEndian_injective (by omega) (by omega) all.2
      omega
  · rw [encodeInt_big (i := j) (by omega)]
    exact (splits_small_big wi j).imp False.elim
  · rw [encodeInt_big (i := i) (by omega)]
    exact (splits_small_big wj i).symm.imp False.elim
  · rw [encodeInt_big (i := i) (by omega), encodeInt_big (i := j) (by omega)]
    exact encodeBig_splits hi hj

end ExternalTerm
