import Mathlib.Data.List.Forall2

/-!
# Splitting words off a stream

Two encodings of possibly different things, read off the front of two equal
streams. `Splits` is closed under concatenation and under lists of equal length,
so an encoder over a recursive type is compared constructor by constructor.
-/

namespace PrefixCode

universe u v w
variable {γ : Type u}

/-- Whatever follows them, `x` and `y` begin equal streams only where `P` holds,
and then neither is longer than the other. -/
def Splits (x y : List γ) (P : Prop) : Prop := ∀ r s, x ++ r = y ++ s → P ∧ r = s

namespace Splits
variable {x y x' y' : List γ} {P Q : Prop}

theorem imp (h : Splits x y P) (hpq : P → Q) : Splits x y Q := by
  intro r s eq
  obtain ⟨hp, rest⟩ := h r s eq
  exact ⟨hpq hp, rest⟩

theorem symm (h : Splits x y P) : Splits y x P := by
  intro r s eq
  obtain ⟨hp, rest⟩ := h s r eq.symm
  exact ⟨hp, rest.symm⟩

theorem append (h : Splits x y P) (h' : P → Splits x' y' Q) :
    Splits (x ++ x') (y ++ y') (P ∧ Q) := by
  intro r s eq
  rw [List.append_assoc, List.append_assoc] at eq
  obtain ⟨hp, rest⟩ := h _ _ eq
  obtain ⟨hq, rest'⟩ := h' hp r s rest
  exact ⟨⟨hp, hq⟩, rest'⟩

theorem cons {a b : γ} (h : a = b → Splits x y P) : Splits (a :: x) (b :: y) (a = b ∧ P) := by
  intro r s eq
  simp only [List.cons_append, List.cons.injEq] at eq
  obtain ⟨hp, rest⟩ := h eq.1 r s eq.2
  exact ⟨⟨eq.1, hp⟩, rest⟩

theorem of_head_ne {a b : γ} (ne : a ≠ b) : Splits (a :: x) (b :: y) False := by
  intro r s eq
  simp only [List.cons_append, List.cons.injEq] at eq
  exact absurd eq.1 ne

theorem of_length_eq (len : x.length = y.length) : Splits x y (x = y) := by
  intro r s eq
  exact List.append_inj eq len

theorem of_not_prefix (h : ¬x <+: y) (h' : ¬y <+: x) : Splits x y False := by
  intro r s eq
  have left : x <+: y ++ s := eq ▸ List.prefix_append x r
  rcases List.prefix_or_prefix_of_prefix left (List.prefix_append y s) with pre | pre
  · exact absurd pre h
  · exact absurd pre h'

theorem self (x : List γ) : Splits x x True := by
  intro r s eq
  exact ⟨trivial, List.append_cancel_left eq⟩

/-- Words that split are equal as soon as one begins with the other. -/
theorem eq_of_prefix (h : Splits x y P) (pre : x <+: y) : P ∧ x = y := by
  obtain ⟨r, rfl⟩ := pre
  obtain ⟨hp, rest⟩ := h r [] (by simp)
  exact ⟨hp, by simp [rest]⟩

theorem flatMap {α : Type v} {β : Type w} {f : α → List γ} {g : β → List γ}
    {R : α → β → Prop} {xs : List α} {ys : List β}
    (h : List.Forall₂ (fun a b => Splits (f a) (g b) (R a b)) xs ys) :
    Splits (xs.flatMap f) (ys.flatMap g) (List.Forall₂ R xs ys) := by
  induction h with
  | nil => exact (self []).imp fun _ => .nil
  | cons head tail ih =>
    simp only [List.flatMap_cons]
    exact (head.append fun _ => ih).imp fun both => .cons both.1 both.2

end Splits

/-- Words that can be split off one after the other, none of them empty, can be read back. -/
theorem flatMap_injective {α : Type v} {f : α → List γ}
    (splits : ∀ a b, Splits (f a) (f b) (a = b)) (nonempty : ∀ a, f a ≠ []) {as bs : List α}
    (same : as.flatMap f = bs.flatMap f) : as = bs := by
  induction as generalizing bs with
  | nil =>
    cases bs with
    | nil => rfl
    | cons b rest => exact absurd (List.append_eq_nil_iff.mp same.symm).1 (nonempty b)
  | cons a rest ih =>
    cases bs with
    | nil => exact absurd (List.append_eq_nil_iff.mp same).1 (nonempty a)
    | cons b others =>
      obtain ⟨rfl, tails⟩ := splits a b _ _ same
      rw [ih tails]

end PrefixCode
