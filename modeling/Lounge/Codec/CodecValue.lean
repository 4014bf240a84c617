import Lounge.Lib.CString

/-!
# Codec values

`Codec/Codec.h` over `codec-json/codec-json.c`, where a codec value is a Jansson
value. Values are immutable here: the API layer copies a document before it
deletes members of it. An object keeps its members in iteration order.
-/

namespace CodecValue

inductive LaCodecValue where
  | object (members : List (CString × LaCodecValue))
  | array (elements : List LaCodecValue)
  | string (value : CString)
  | integer (value : Int64)
  | real (bits : UInt64)
  | true
  | false
  | null
  | bignum (value : Int)

namespace LaCodecValue

def laCodecIsObject : LaCodecValue → Bool
  | .object _ => Bool.true
  | _ => Bool.false

/-- `la_codec_is_true`, false also of NULL. -/
def laCodecIsTrue : Option LaCodecValue → Bool
  | some .true => Bool.true
  | _ => Bool.false

def laCodecObjectSize : LaCodecValue → Nat
  | .object members => members.length
  | _ => 0

def laCodecObjectGet (value : LaCodecValue) (key : CString) : Option LaCodecValue :=
  match value with
  | .object members => (members.find? fun m => m.1 == key).map Prod.snd
  | _ => none

def laCodecObjectDel (value : LaCodecValue) (key : CString) : LaCodecValue :=
  match value with
  | .object members => .object (members.filter fun m => m.1 != key)
  | v => v

/-- `la_codec_string_value`, NULL for anything but a string. -/
def laCodecStringValue : LaCodecValue → Option CString
  | .string s => some s
  | _ => none

theorem laCodecObjectGet_del_self (value : LaCodecValue) (key : CString) :
    (value.laCodecObjectDel key).laCodecObjectGet key = none := by
  cases value <;> simp [laCodecObjectDel, laCodecObjectGet]

theorem laCodecObjectGet_del_other (value : LaCodecValue) {key other : CString}
    (ne : other ≠ key) :
    (value.laCodecObjectDel key).laCodecObjectGet other = value.laCodecObjectGet other := by
  cases value with
  | object members =>
    simp only [laCodecObjectDel, laCodecObjectGet, List.find?_filter]
    congr 2
    funext m
    by_cases h : m.1 = other
    · simp [h, ne]
    · simp [h]
  | _ => rfl

mutual

/-- A check made at a value and at every value inside it. -/
def everywhere (p : LaCodecValue → Bool) : LaCodecValue → Bool
  | .array elements => p (.array elements) && everywhereIn p elements
  | .object members => p (.object members) && everywhereUnder p members
  | v => p v

def everywhereIn (p : LaCodecValue → Bool) : List LaCodecValue → Bool
  | [] => Bool.true
  | v :: rest => everywhere p v && everywhereIn p rest

def everywhereUnder (p : LaCodecValue → Bool) : List (CString × LaCodecValue) → Bool
  | [] => Bool.true
  | (_, v) :: rest => everywhere p v && everywhereUnder p rest

end

theorem everywhereIn_iff {p : LaCodecValue → Bool} {elements : List LaCodecValue} :
    everywhereIn p elements = Bool.true ↔ ∀ v ∈ elements, everywhere p v = Bool.true := by
  induction elements with
  | nil => simp [everywhereIn]
  | cons v rest ih => simp [everywhereIn, ih]

theorem everywhereUnder_iff {p : LaCodecValue → Bool} {members : List (CString × LaCodecValue)} :
    everywhereUnder p members = Bool.true ↔ ∀ m ∈ members, everywhere p m.2 = Bool.true := by
  induction members with
  | nil => simp [everywhereUnder]
  | cons m rest ih => simp [everywhereUnder, ih]

theorem everywhere_array {p : LaCodecValue → Bool} {elements : List LaCodecValue} :
    (array elements).everywhere p = Bool.true ↔
      p (.array elements) = Bool.true ∧ ∀ v ∈ elements, v.everywhere p = Bool.true := by
  simp [everywhere, everywhereIn_iff]

theorem everywhere_object {p : LaCodecValue → Bool} {members : List (CString × LaCodecValue)} :
    (object members).everywhere p = Bool.true ↔
      p (.object members) = Bool.true ∧ ∀ m ∈ members, m.2.everywhere p = Bool.true := by
  simp [everywhere, everywhereUnder_iff]

/-- Induction over the elements of arrays and the members of objects. -/
@[elab_as_elim]
theorem induction_on {motive : LaCodecValue → Prop} (value : LaCodecValue)
    (true : motive .true) (false : motive .false) (null : motive .null)
    (integer : ∀ i, motive (.integer i)) (bignum : ∀ i, motive (.bignum i))
    (real : ∀ bits, motive (.real bits)) (string : ∀ s, motive (.string s))
    (array : ∀ elements, (∀ v ∈ elements, motive v) → motive (.array elements))
    (object : ∀ members, (∀ m ∈ members, motive (Prod.snd m)) → motive (.object members)) :
    motive value :=
  LaCodecValue.rec (motive_1 := motive) (motive_2 := fun members => ∀ m ∈ members, motive m.2)
    (motive_3 := fun elements => ∀ v ∈ elements, motive v) (motive_4 := fun m => motive m.2)
    (fun members h => object members h) (fun elements h => array elements h) string integer real
    true false null bignum (fun _ h => nomatch h)
    (fun _ _ head tail => List.forall_mem_cons.2 ⟨head, tail⟩) (fun _ h => nomatch h)
    (fun _ _ head tail => List.forall_mem_cons.2 ⟨head, tail⟩) (fun _ _ h => h) value

@[simp] theorem laCodecIsObject_del (value : LaCodecValue) (key : CString) :
    (value.laCodecObjectDel key).laCodecIsObject = value.laCodecIsObject := by
  cases value <;> rfl

end LaCodecValue

end CodecValue
