import Lounge.Revgen.RevgenTerms

/-!
# What a revision hash commits to

Over documents without negative integers the bytes that `la_revgen` hashes
determine the delete flag, the old start, the base and the document.
-/

namespace RevgenUnambiguous
open CodecValue CouchRevgen ExternalTerm ObjectStore PrefixCode RevgenTerms

/-- One document up to the form of its leaves: numbers by value, reals by text. -/
inductive Same (lib : RevgenLib) : LaCodecValue → LaCodecValue → Prop
  | true : Same lib .true .true
  | false : Same lib .false .false
  | null : Same lib .null .null
  | number {v w : LaCodecValue} {i : Int} (hv : numberOf v = some i) (hw : numberOf w = some i) :
    Same lib v w
  | real {a b : UInt64} (text : floatText lib a = floatText lib b) : Same lib (.real a) (.real b)
  | string (s : CString) : Same lib (.string s) (.string s)
  | array {xs ys : List LaCodecValue} (elements : List.Forall₂ (Same lib) xs ys) :
    Same lib (.array xs) (.array ys)
  | object {ms ns : List (CString × LaCodecValue)} (keys : ms.map Prod.fst = ns.map Prod.fst)
    (values : List.Forall₂ (Same lib) (ms.map Prod.snd) (ns.map Prod.snd)) :
    Same lib (.object ms) (.object ns)

/-- No integer is negative. A bignum has its sign in a byte of its own. -/
def nonnegNode : LaCodecValue → Bool
  | .integer i => 0 ≤ i.toInt
  | _ => true

/-- Every length fits an `int`. -/
def sizedNode : LaCodecValue → Bool
  | .string s => s.strlen < 2 ^ 31
  | .bignum i => (CouchRevgen.magnitude i.natAbs).length < 2 ^ 31
  | .array elements => elements.length < 2 ^ 31
  | .object members => members.length < 2 ^ 31 && members.all fun m => m.1.strlen < 2 ^ 31
  | _ => true

inductive Kind where
  | atom | number | real | string | array | object
  deriving DecidableEq

def kindOf : LaCodecValue → Kind
  | .true | .false | .null => .atom
  | .integer _ | .bignum _ => .number
  | .real _ => .real
  | .string _ => .string
  | .array _ => .array
  | .object _ => .object

/-- The kind of value that a first byte announces. -/
def kindOfTag (tag : UInt8) : Kind :=
  if tag = 100 then .atom
  else if tag = 99 then .real
  else if tag = 109 then .string
  else if tag = 104 then .object
  else if tag = 106 ∨ tag = 108 then .array
  else .number

theorem hashValue_tag (lib : RevgenLib) (v : LaCodecValue) :
    ∃ tag tail, hashValue lib v = tag :: tail ∧ kindOfTag tag = kindOf v := by
  cases v with
  | integer i =>
    rw [hashValue]
    unfold hashInteger
    dsimp only
    split
    · exact ⟨_, _, rfl, rfl⟩
    · split <;> exact ⟨_, _, rfl, rfl⟩
  | bignum i =>
    obtain ⟨tail, big | big⟩ := encodeBig_head i
    · exact ⟨_, _, (hashBignum_eq i).trans big, rfl⟩
    · exact ⟨_, _, (hashBignum_eq i).trans big, rfl⟩
  | array elements =>
    rw [hashValue_array]
    unfold listOf
    split <;> exact ⟨_, _, rfl, rfl⟩
  | object members => exact ⟨_, _, hashValue_object lib members, rfl⟩
  | _ => exact ⟨_, _, rfl, rfl⟩

theorem splits_kinds {lib : RevgenLib} {v w : LaCodecValue} (ne : kindOf v ≠ kindOf w) :
    Splits (hashValue lib v) (hashValue lib w) False := by
  obtain ⟨a, x, hx, ka⟩ := hashValue_tag lib v
  obtain ⟨b, y, hy, kb⟩ := hashValue_tag lib w
  rw [hx, hy]
  refine Splits.of_head_ne fun eq => ne ?_
  rw [← ka, ← kb, eq]

theorem length_floatText (lib : RevgenLib) (bits : UInt64) : (floatText lib bits).length = 31 := by
  simp [floatText]

/-- A number is written in its short or in its long form. -/
theorem hashValue_number (lib : RevgenLib) {v : LaCodecValue} {i : Int}
    (number : numberOf v = some i)
    (nonneg : v.everywhere nonnegNode = true) (sized : v.everywhere sizedNode = true) :
    (ExternalTerm.magnitude i.natAbs).length < 256 ^ 4 ∧
      (hashValue lib v = encodeInt i ∨ hashValue lib v = encodeBig i) := by
  cases v with
  | integer n =>
    cases number
    have short := length_magnitude_le (w := 8) (n := n.toInt.natAbs)
      (by have := n.toInt_lt; have := n.le_toInt; omega)
    have pos : 0 ≤ n.toInt := by simpa [LaCodecValue.everywhere, nonnegNode] using nonneg
    exact ⟨by omega, Or.inl (hashInteger_encode pos)⟩
  | bignum n =>
    cases number
    have short : (CouchRevgen.magnitude i.natAbs).length < 2 ^ 31 := by
      simpa [LaCodecValue.everywhere, sizedNode] using sized
    exact ⟨Nat.lt_trans short (by decide), Or.inr (hashBignum_eq i)⟩
  | _ => cases number

theorem splits_numbers {i j : Int} {x y : List UInt8}
    (hi : (ExternalTerm.magnitude i.natAbs).length < 256 ^ 4)
    (hj : (ExternalTerm.magnitude j.natAbs).length < 256 ^ 4)
    (hx : x = encodeInt i ∨ x = encodeBig i) (hy : y = encodeInt j ∨ y = encodeBig j) :
    Splits x y (i = j) := by
  have mixed : ∀ {i j : Int}, (ExternalTerm.magnitude i.natAbs).length < 256 ^ 4 →
      (ExternalTerm.magnitude j.natAbs).length < 256 ^ 4 →
      Splits (encodeInt i) (encodeBig j) (i = j) := by
    intro i j hi hj
    by_cases word : -2 ^ 31 ≤ i ∧ i < 2 ^ 31
    · exact (splits_small_big word j).imp False.elim
    · rw [encodeInt_big (by omega)]
      exact encodeBig_splits hi hj
  rcases hx with rfl | rfl <;> rcases hy with rfl | rfl
  · exact encodeInt_splits hi hj
  · exact mixed hi hj
  · exact (mixed hj hi).symm.imp Eq.symm
  · exact encodeBig_splits hi hj

theorem numberOf_kind {w : LaCodecValue} (kind : Kind.number = kindOf w) :
    ∃ j, numberOf w = some j := by
  cases w with
  | integer n => exact ⟨_, rfl⟩
  | bignum n => exact ⟨_, rfl⟩
  | _ => cases kind

theorem splits_number {lib : RevgenLib} {v w : LaCodecValue} {i : Int}
    (number : numberOf v = some i)
    (hv : v.everywhere nonnegNode = true) (hw : w.everywhere nonnegNode = true)
    (sv : v.everywhere sizedNode = true) (sw : w.everywhere sizedNode = true)
    (kind : Kind.number = kindOf w) :
    Splits (hashValue lib v) (hashValue lib w) (Same lib v w) := by
  obtain ⟨j, other⟩ := numberOf_kind kind
  obtain ⟨hi, wordv⟩ := hashValue_number lib number hv sv
  obtain ⟨hj, wordw⟩ := hashValue_number lib other hw sw
  refine (splits_numbers hi hj wordv wordw).imp fun eq => ?_
  exact .number number (eq ▸ other)

theorem splits_strings {s t : CString} (hs : s.strlen < 2 ^ 31) (ht : t.strlen < 2 ^ 31) :
    Splits (hashString s) (hashString t) (s = t) := by
  rw [hashString_eq, hashString_eq]
  have bytes := splits_counted (w := 4) (x := s.bytes) (y := t.bytes)
    (Nat.lt_trans hs (by decide)) (Nat.lt_trans ht (by decide))
  exact (Splits.cons fun _ => bytes).imp fun all => CString.ext all.2

theorem forall₂_pairs {α β : Type} {R : α → β → Prop} {xs : List α} {ys : List β}
    (len : xs.length = ys.length) (h : ∀ a ∈ xs, ∀ b ∈ ys, R a b) : List.Forall₂ R xs ys := by
  induction xs generalizing ys with
  | nil =>
    cases ys with
    | nil => exact .nil
    | cons y ys => cases len
  | cons x xs ih =>
    cases ys with
    | nil => cases len
    | cons y ys =>
      refine .cons (h x (by simp) y (by simp)) (ih (Nat.succ.inj len) fun a ha b hb => ?_)
      exact h a (by simp [ha]) b (by simp [hb])

/-- The three atoms. -/
def atoms : List (List UInt8) := [trueTerm, falseTerm, nullTerm]

theorem splits_atoms {x y : List UInt8} (hx : x ∈ atoms) (hy : y ∈ atoms) (ne : x ≠ y) :
    Splits x y False := by
  have apart : ∀ x ∈ atoms, ∀ y ∈ atoms, x ≠ y → ¬x <+: y := by decide
  exact Splits.of_not_prefix (apart x hx y hy ne) (apart y hy x hx ne.symm)

theorem splits_members {lib : RevgenLib} {m n : CString × LaCodecValue}
    (hm : m.1.strlen < 2 ^ 31) (hn : n.1.strlen < 2 ^ 31)
    (values : Splits (hashValue lib m.2) (hashValue lib n.2) (Same lib m.2 n.2)) :
    Splits (hashMember lib m) (hashMember lib n) (m.1 = n.1 ∧ Same lib m.2 n.2) := by
  rw [hashMember_eq, hashMember_eq]
  have member := (splits_strings hm hn).append fun _ => values
  exact (Splits.cons fun _ => Splits.cons fun _ => member).imp fun all => all.2.2

/-- Values of different kinds are told apart by their first byte. -/
theorem splits_of_kind {lib : RevgenLib} {v w : LaCodecValue}
    (alike : kindOf v = kindOf w → Splits (hashValue lib v) (hashValue lib w) (Same lib v w)) :
    Splits (hashValue lib v) (hashValue lib w) (Same lib v w) := by
  by_cases kind : kindOf v = kindOf w
  · exact alike kind
  · exact (splits_kinds kind).imp False.elim

theorem splits_atom {lib : RevgenLib} {v w : LaCodecValue} (hv : kindOf v = .atom)
    (hw : kindOf w = .atom) : Splits (hashValue lib v) (hashValue lib w) (Same lib v w) := by
  have apart : ∀ {x y}, x ∈ atoms → y ∈ atoms → x ≠ y → Splits x y (Same lib v w) :=
    fun hx hy ne => (splits_atoms hx hy ne).imp False.elim
  cases v with
  | true =>
    cases w with
    | true => exact (Splits.self _).imp fun _ => .true
    | false => exact apart (x := trueTerm) (y := falseTerm) (by decide) (by decide) (by decide)
    | null => exact apart (x := trueTerm) (y := nullTerm) (by decide) (by decide) (by decide)
    | _ => cases hw
  | false =>
    cases w with
    | true => exact apart (x := falseTerm) (y := trueTerm) (by decide) (by decide) (by decide)
    | false => exact (Splits.self _).imp fun _ => .false
    | null => exact apart (x := falseTerm) (y := nullTerm) (by decide) (by decide) (by decide)
    | _ => cases hw
  | null =>
    cases w with
    | true => exact apart (x := nullTerm) (y := trueTerm) (by decide) (by decide) (by decide)
    | false => exact apart (x := nullTerm) (y := falseTerm) (by decide) (by decide) (by decide)
    | null => exact (Splits.self _).imp fun _ => .null
    | _ => cases hw
  | _ => cases hv

theorem splits_reals (lib : RevgenLib) (a b : UInt64) :
    Splits (hashValue lib (.real a)) (hashValue lib (.real b)) (Same lib (.real a) (.real b)) := by
  have texts := Splits.of_length_eq (x := floatText lib a) (y := floatText lib b)
    (by rw [length_floatText, length_floatText])
  exact (Splits.cons fun _ => texts).imp fun all => .real all.2

/-- Arrays whose elements can be split off. -/
theorem splits_arrays {lib : RevgenLib} {xs ys : List LaCodecValue}
    (hx : xs.length < 2 ^ 31) (hy : ys.length < 2 ^ 31)
    (elements : ∀ a ∈ xs, ∀ b ∈ ys, Splits (hashValue lib a) (hashValue lib b) (Same lib a b)) :
    Splits (hashValue lib (.array xs)) (hashValue lib (.array ys))
      (Same lib (.array xs) (.array ys)) := by
  rw [hashValue_array, hashValue_array]
  refine (splits_listOf (fun h => ?_) fun len => ?_).imp .array
  · exact bigEndian_injective (Nat.lt_trans hx (by decide)) (Nat.lt_trans hy (by decide)) h
  · exact forall₂_pairs len elements

/-- Objects whose members can be split off. -/
theorem splits_objects {lib : RevgenLib} {ms ns : List (CString × LaCodecValue)}
    (hm : ms.length < 2 ^ 31) (hn : ns.length < 2 ^ 31)
    (each : ∀ a ∈ ms, ∀ b ∈ ns,
      Splits (hashMember lib a) (hashMember lib b) (a.1 = b.1 ∧ Same lib a.2 b.2)) :
    Splits (hashValue lib (.object ms)) (hashValue lib (.object ns))
      (Same lib (.object ms) (.object ns)) := by
  rw [hashValue_object, hashValue_object]
  have members := splits_listOf (f := hashMember lib) (g := hashMember lib)
    (fun h => bigEndian_injective (Nat.lt_trans hm (by decide)) (Nat.lt_trans hn (by decide)) h)
    fun len => forall₂_pairs len each
  refine (Splits.cons fun _ => Splits.cons fun _ => members).imp fun all => ?_
  have keys : List.Forall₂ Eq (ms.map Prod.fst) (ns.map Prod.fst) := by
    rw [List.forall₂_map_left_iff, List.forall₂_map_right_iff]
    exact all.2.2.imp fun _ _ both => both.1
  apply Same.object (List.forall₂_eq_eq_eq ▸ keys)
  rw [List.forall₂_map_left_iff, List.forall₂_map_right_iff]
  exact all.2.2.imp fun _ _ both => both.2

/-- A document's encoding can be split off the front of whatever follows it. -/
theorem hashValue_unambiguous (lib : RevgenLib) (v w : LaCodecValue)
    (hv : v.everywhere nonnegNode = true) (hw : w.everywhere nonnegNode = true)
    (sv : v.everywhere sizedNode = true) (sw : w.everywhere sizedNode = true) :
    Splits (hashValue lib v) (hashValue lib w) (Same lib v w) := by
  induction v using LaCodecValue.induction_on generalizing w with
  | true => exact splits_of_kind fun kind => splits_atom rfl kind.symm
  | false => exact splits_of_kind fun kind => splits_atom rfl kind.symm
  | null => exact splits_of_kind fun kind => splits_atom rfl kind.symm
  | integer i => exact splits_of_kind fun kind => splits_number rfl hv hw sv sw kind
  | bignum i => exact splits_of_kind fun kind => splits_number rfl hv hw sv sw kind
  | real a =>
    apply splits_of_kind
    intro kind
    cases w with
    | real b => exact splits_reals lib a b
    | _ => cases kind
  | string s =>
    apply splits_of_kind
    intro kind
    cases w with
    | string t =>
      refine (splits_strings ?_ ?_).imp fun eq => eq ▸ .string s
      · simpa [LaCodecValue.everywhere, sizedNode] using sv
      · simpa [LaCodecValue.everywhere, sizedNode] using sw
    | _ => cases kind
  | array xs ih =>
    apply splits_of_kind
    intro kind
    cases w with
    | array ys =>
      rw [LaCodecValue.everywhere_array] at hv hw sv sw
      apply splits_arrays
      · simpa [sizedNode] using sv.1
      · simpa [sizedNode] using sw.1
      · intro a ha b hb
        exact ih a ha b (hv.2 a ha) (hw.2 b hb) (sv.2 a ha) (sw.2 b hb)
    | _ => cases kind
  | object ms ih =>
    apply splits_of_kind
    intro kind
    cases w with
    | object ns =>
      rw [LaCodecValue.everywhere_object] at hv hw sv sw
      have hm : ms.length < 2 ^ 31 ∧ ∀ m ∈ ms, m.1.strlen < 2 ^ 31 := by
        simpa [sizedNode] using sv.1
      have hn : ns.length < 2 ^ 31 ∧ ∀ n ∈ ns, n.1.strlen < 2 ^ 31 := by
        simpa [sizedNode] using sw.1
      apply splits_objects hm.1 hn.1
      intro a ha b hb
      apply splits_members (hm.2 a ha) (hn.2 b hb)
      exact ih a ha b.2 (hv.2 a ha) (hw.2 b hb) (sv.2 a ha) (sw.2 b hb)
    | _ => cases kind

theorem splits_flags (a b : Bool) :
    Splits (if a then trueTerm else falseTerm) (if b then trueTerm else falseTerm) (a = b) := by
  cases a <;> cases b
  · exact (Splits.self _).imp fun _ => rfl
  · exact (splits_atoms (by decide) (by decide) (by decide)).imp False.elim
  · exact (splits_atoms (by decide) (by decide) (by decide)).imp False.elim
  · exact (Splits.self _).imp fun _ => rfl

theorem splits_starts {a b : UInt64} (ha : a.toNat < 2 ^ 63) (hb : b.toNat < 2 ^ 63) :
    Splits (encodeInt a.toNat) (encodeInt b.toNat) (a = b) := by
  have short : ∀ n : Nat, n < 2 ^ 63 →
      (ExternalTerm.magnitude (n : Int).natAbs).length < 256 ^ 4 := by
    intro n small
    have := length_magnitude_le (w := 8) (n := (n : Int).natAbs) (by omega)
    omega
  refine (encodeInt_splits (short _ ha) (short _ hb)).imp fun eq => ?_
  exact UInt64.toNat_inj.mp (Int.ofNat.inj eq)

theorem splits_bases (a b : Option LaStorageRev) :
    Splits (encode (baseTerm a)) (encode (baseTerm b)) (a = b) := by
  cases a with
  | none =>
    cases b with
    | none => exact (Splits.self _).imp fun _ => rfl
    | some r => exact (Splits.of_head_ne (by decide)).imp False.elim
  | some r =>
    cases b with
    | none => exact (Splits.of_head_ne (by decide)).imp False.elim
    | some r' =>
      have revs := splits_counted (w := 4) (x := r.rev) (y := r'.rev)
        (by rw [r.length_eq]; decide) (by rw [r'.length_eq]; decide)
      refine (Splits.cons fun _ => revs).imp fun all => ?_
      obtain ⟨bytes, length⟩ := r
      obtain ⟨bytes', length'⟩ := r'
      exact congrArg some (by simpa using all.2)

theorem revgenInput_unambiguous (lib : RevgenLib) (v w : LaCodecValue)
    (start start' : UInt64) (oldrev oldrev' : Option LaStorageRev) (isDelete isDelete' : Bool)
    (hv : v.everywhere nonnegNode = true) (hw : w.everywhere nonnegNode = true)
    (sv : v.everywhere sizedNode = true) (sw : w.everywhere sizedNode = true)
    (hs : start.toNat < 2 ^ 63) (hs' : start'.toNat < 2 ^ 63) :
    (revgenInput lib v start oldrev isDelete = revgenInput lib w start' oldrev' isDelete' →
      isDelete = isDelete' ∧ start = start' ∧ oldrev = oldrev' ∧ Same lib v w) ∧
    (hashValue lib v <+: hashValue lib w → hashValue lib v = hashValue lib w) := by
  have value := hashValue_unambiguous lib v w hv hw sv sw
  refine ⟨fun same => ?_, fun pre => (value.eq_of_prefix pre).2⟩
  rw [revgenInput_eq lib v oldrev isDelete hs, revgenInput_eq lib w oldrev' isDelete' hs'] at same
  simp only [List.append_assoc, List.append_cancel_left_eq] at same
  obtain ⟨flags, rest⟩ := splits_flags isDelete isDelete' _ _ same
  obtain ⟨starts, rest⟩ := splits_starts hs hs' _ _ rest
  obtain ⟨bases, rest⟩ := splits_bases oldrev oldrev' _ _ rest
  exact ⟨flags, starts, bases, (value _ _ rest).1⟩

section TwoForms

private def textLib : RevgenLib := ⟨fun _ => zeroRev, fun _ => [48, 46, 48]⟩

private def key : CString := .ofBytes [110]

/-- `{"n":4294967296}`, read as an integer and as a bignum. -/
private def asInteger : LaCodecValue := .object [(key, .integer 4294967296)]

private def asBignum : LaCodecValue := .object [(key, .bignum 4294967296)]

theorem two_forms_same :
    revgenInput textLib asInteger 1 none true = revgenInput textLib asBignum 1 none true ∧
      Same textLib asInteger asBignum := by
  have same : revgenInput textLib asInteger 1 none true =
      revgenInput textLib asBignum 1 none true := by decide +kernel
  exact ⟨same, ((revgenInput_unambiguous textLib asInteger asBignum 1 1 none none true true
    (by decide) (by decide) (by decide) (by decide +kernel) (by decide) (by decide)).1
    same).2.2.2⟩

end TwoForms

end RevgenUnambiguous
