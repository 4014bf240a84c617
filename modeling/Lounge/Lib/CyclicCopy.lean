import Lounge.Lib.FlatMemory
import Mathlib.Tactic.Linarith

/-!
# Copies from a little before

A dictionary coder goes on with a text by repeating what came a number of bytes before, also where
the bytes repeated are themselves being written. In memory such a copy may be made in larger
pieces, from any multiple of the distance before.
-/

namespace CyclicCopy
open FlatMemory
variable {α : Type*}

/-- `n` more elements, each the one `offset` before it; a blank where none is. -/
def extend (blank : α) (offset : Nat) (out : List α) : Nat → List α
  | 0 => out
  | n + 1 =>
    let longer := extend blank offset out n
    longer ++ [longer.getD (longer.length - offset) blank]

/-- The memory goes round every `period` bytes, from `base` on and before `stop`. -/
def Cyclic (m : Memory) (base period stop : Nat) : Prop :=
  ∀ i, base ≤ i → i < stop → m i = m (base + (i - base) % period)

/-- What is known of the bytes of a memory holds of it. -/
def Known (out : List (Option UInt8)) (m : Memory) : Prop :=
  ∀ i b, out[i]? = some (some b) → m i = b

section Lists
variable {blank : α} {offset : Nat} {out : List α}

@[simp] theorem length_extend (n : Nat) :
    (extend blank offset out n).length = out.length + n := by
  induction n with
  | zero => rfl
  | succ n ih =>
    rw [extend, List.length_append, ih, List.length_singleton, Nat.add_assoc]

theorem extend_succ (n : Nat) : extend blank offset out (n + 1) =
    extend blank offset out n ++
      [(extend blank offset out n).getD (out.length + n - offset) blank] := by
  rw [extend, length_extend]

/-- A text is gone on with as long as it repeats itself. -/
theorem extend_take {text : List α} {pos n : Nat} (back : offset ≤ pos) (positive : 0 < offset)
    (inside : pos + n ≤ text.length)
    (repeats : ∀ k < n, text[pos - offset + k]? = text[pos + k]?) :
    extend blank offset (text.take pos) n = text.take (pos + n) := by
  induction n with
  | zero => rfl
  | succ n ih =>
    have before := ih (by omega) fun k small => repeats k (by omega)
    have length : (text.take pos).length = pos := by
      rw [List.length_take]
      omega
    have here := repeats n (by omega)
    have shift : pos + n - offset = pos - offset + n := by omega
    have there : pos + n < text.length := by omega
    have next : text[pos + n]? = some text[pos + n] := List.getElem?_eq_getElem there
    rw [extend_succ, before, length, shift, List.getD_eq_getElem?_getD,
      List.getElem?_take_of_lt (by omega), here, next, Option.getD_some, ← Nat.add_assoc,
      List.take_add_one, next]
    rfl

end Lists
section Memory
variable {m : Memory} {base period stop : Nat}

theorem Cyclic.start (m : Memory) (base period : Nat) : Cyclic m base period (base + period) := by
  intro i from_base before
  rw [Nat.mod_eq_of_lt (by omega), Nat.add_sub_cancel' from_base]

/-- A byte is the one a period before. -/
theorem Cyclic.back (cyclic : Cyclic m base period stop) {i : Nat} (far : base + period ≤ i)
    (before : i < stop) : m i = m (i - period) := by
  rw [cyclic i (by omega) before, cyclic (i - period) (by omega) (by omega)]
  have shift : i - base = i - period - base + period := by omega
  rw [shift, Nat.add_mod_right]

/-- Bytes copied from a number of periods before go round with the others. -/
theorem Cyclic.move (cyclic : Cyclic m base period stop) {k n : Nat} (periods : period ∣ k)
    (room : base + k ≤ stop) (apart : n ≤ k) :
    Cyclic (move m stop (stop - k) n) base period (stop + n) := by
  intro i from_base before
  by_cases old : i < stop
  · have low : (i - base) % period ≤ i - base := Nat.mod_le _ _
    rw [move_outside (Or.inl old), move_outside (Or.inl (by omega)), cyclic i from_base old]
  · have positive : 0 < k := by omega
    have below : (i - base) % period < k := by
      have inside := Nat.le_of_dvd positive periods
      have nonzero := Nat.pos_of_dvd_of_pos periods positive
      exact Nat.lt_of_lt_of_le (Nat.mod_lt _ nonzero) inside
    obtain ⟨j, rfl⟩ := Nat.exists_eq_add_of_le (Nat.le_of_not_lt old)
    have source : stop - k + j - base + k = stop + j - base := by omega
    obtain ⟨q, rfl⟩ := periods
    rw [move_inside _ _ _ (by omega), move_outside (Or.inl (by omega)),
      cyclic _ (by omega) (by omega), ← source, Nat.add_mul_mod_self_left]

end Memory
section Known
variable {out : List (Option UInt8)} {m m' : Memory}

theorem known_nil (m : Memory) : Known [] m := by
  intro i b found
  simp at found

/-- Only the bytes of the text matter. -/
theorem Known.congr (known : Known out m) (same : ∀ i < out.length, m' i = m i) :
    Known out m' := by
  intro i b found
  have inside : i < out.length := by
    rw [List.getElem?_eq_some_iff] at found
    exact found.1
  rw [same i inside]
  exact known i b found

theorem known_append {more : List (Option UInt8)} :
    Known (out ++ more) m ↔
      Known out m ∧ ∀ i b, more[i]? = some (some b) → m (out.length + i) = b := by
  constructor
  · intro known
    constructor
    · intro i b found
      have inside : i < out.length := by
        rw [List.getElem?_eq_some_iff] at found
        exact found.1
      apply known
      rw [List.getElem?_append_left inside]
      exact found
    · intro i b found
      apply known
      rw [List.getElem?_append_right (Nat.le_add_right _ _), Nat.add_sub_cancel_left]
      exact found
  · rintro ⟨first, second⟩ i b found
    by_cases inside : i < out.length
    · rw [List.getElem?_append_left inside] at found
      exact first i b found
    · obtain ⟨j, rfl⟩ := Nat.exists_eq_add_of_le (Nat.le_of_not_lt inside)
      rw [List.getElem?_append_right (Nat.le_add_right _ _), Nat.add_sub_cancel_left] at found
      exact second j b found

/-- Bytes copied to the end of a text. -/
theorem Known.store (known : Known out m) (bs tail : List UInt8) :
    Known (out ++ bs.map some) (store m out.length (bs ++ tail)) := by
  refine known_append.mpr ⟨known.congr fun i inside => store_outside (Or.inl inside), ?_⟩
  intro i b found
  obtain ⟨inside, here⟩ := List.getElem?_eq_some_iff.mp found
  rw [List.length_map] at inside
  have longer : i < (bs ++ tail).length := by
    rw [List.length_append]
    omega
  rw [List.getElem_map, Option.some.injEq] at here
  rw [store_inside longer, List.getElem_append_left inside, here]

/-- A text that memory goes on with: each byte is the one `offset` before. Nothing is known of
the bytes at an offset of zero. -/
theorem Known.extend (known : Known out m) {offset n : Nat} (back : offset ≤ out.length)
    (repeats : 0 < offset → ∀ i, out.length ≤ i → i < out.length + n → m i = m (i - offset)) :
    Known (extend none offset out n) m := by
  induction n with
  | zero => exact known
  | succ n ih =>
    have before := ih fun positive i behind small => repeats positive i behind (by omega)
    rw [extend_succ]
    refine known_append.mpr ⟨before, ?_⟩
    intro i b found
    obtain rfl : i = 0 := by
      have inside := (List.getElem?_eq_some_iff.mp found).1
      simpa using inside
    rw [List.getElem?_cons_zero, Option.some.injEq, List.getD_eq_getElem?_getD] at found
    have positive : 0 < offset := by
      by_contra zero
      have beyond : out.length + n - offset = (CyclicCopy.extend none offset out n).length := by
        rw [length_extend]
        omega
      rw [beyond, List.getElem?_eq_none (Nat.le_refl _)] at found
      cases found
    have source : (CyclicCopy.extend none offset out n)[out.length + n - offset]? =
        some (some b) := by
      cases here : (CyclicCopy.extend none offset out n)[out.length + n - offset]? with
      | none => rw [here] at found; cases found
      | some c => rw [here, Option.getD_some] at found; rw [found]
    rw [length_extend, Nat.add_zero, repeats positive _ (by omega) (by omega)]
    exact before _ b source

/-- A text of which every byte is known is there to read. -/
theorem Known.read {text : List UInt8} (known : Known (text.map some) m) :
    FlatMemory.read m 0 text.length = text := by
  apply read_eq_iff.mpr
  intro i inside
  rw [Nat.zero_add]
  apply known
  rw [List.getElem?_map, List.getElem?_eq_getElem inside, Option.map_some]

end Known
end CyclicCopy
