import Mathlib.Data.Option.Basic
import Mathlib.Tactic.Common

/-!
# Loops with a budget of rounds

A loop goes round until a round leaves it. The budget is explicit; a loop whose rounds lower a
rank is left within any budget above the rank.
-/

namespace StepLoop
variable {σ τ ρ π : Type*} {fuel : Nat}

/-- What a round comes to: the loop goes on, or it is left. -/
inductive Round (σ ρ : Type*) where
  | again (s : σ)
  | stop (r : ρ)

/-- `none` is a trap in a round, or the end of the budget. -/
def loop (round : σ → Option (Round σ ρ)) : Nat → σ → Option ρ
  | 0, _ => none
  | fuel + 1, s =>
    match round s with
    | none => none
    | some (.again s') => loop round fuel s'
    | some (.stop r) => some r

/-- Two rounds come to the same, up to these relations. -/
inductive Alike (R : σ → τ → Prop) (Q : ρ → π → Prop) :
    Option (Round σ ρ) → Option (Round τ π) → Prop where
  | trap : Alike R Q none none
  | again {s t} : R s t → Alike R Q (some (.again s)) (some (.again t))
  | stop {r q} : Q r q → Alike R Q (some (.stop r)) (some (.stop q))

section Rules
variable {round : σ → Option (Round σ ρ)} {round' : τ → Option (Round τ π)}

theorem loop_trap {s : σ} (h : round s = none) : loop round fuel s = none := by
  cases fuel with
  | zero => rfl
  | succ fuel => simp only [loop, h]

theorem loop_again {s s' : σ} (h : round s = some (.again s')) :
    loop round (fuel + 1) s = loop round fuel s' := by
  simp only [loop, h]

theorem loop_stop {s : σ} {r : ρ} (h : round s = some (.stop r)) :
    loop round (fuel + 1) s = some r := by
  simp only [loop, h]

/-- Rounds that keep an invariant and lower a rank leave the loop. -/
theorem loop_total (Inv : σ → Prop) {Post : ρ → Prop} (rank : σ → Nat)
    (rounds : ∀ s, Inv s →
      (∃ s', round s = some (.again s') ∧ Inv s' ∧ rank s' < rank s) ∨
        ∃ r, round s = some (.stop r) ∧ Post r)
    {s : σ} (start : Inv s) (enough : rank s < fuel) :
    ∃ r, loop round fuel s = some r ∧ Post r := by
  induction fuel generalizing s with
  | zero => omega
  | succ fuel ih =>
    rcases rounds s start with ⟨s', goes, inv, lower⟩ | ⟨r, left, post⟩
    · rw [loop_again goes]
      exact ih inv (by omega)
    · exact ⟨r, loop_stop left, post⟩

/-- Loops whose rounds are alike come to the same. -/
theorem loop_alike {R : σ → τ → Prop} {Q : ρ → π → Prop}
    (rounds : ∀ s t, R s t → Alike R Q (round s) (round' t)) {s : σ} {t : τ} (start : R s t) :
    Option.Rel Q (loop round fuel s) (loop round' fuel t) := by
  induction fuel generalizing s t with
  | zero => exact .none
  | succ fuel ih =>
    have here := rounds s t start
    generalize came : round s = next at here
    generalize came' : round' t = next' at here
    cases here with
    | trap =>
      rw [loop_trap came, loop_trap came']
      exact .none
    | again related =>
      rw [loop_again came, loop_again came']
      exact ih related
    | stop related =>
      rw [loop_stop came, loop_stop came']
      exact .some related

end Rules

/-- The other side of a result. -/
theorem some_right {α β : Type*} {R : α → β → Prop} {a : Option α} {b : β}
    (related : Option.Rel R a (some b)) : ∃ a', a = some a' ∧ R a' b := by
  cases related with
  | some here => exact ⟨_, rfl, here⟩

end StepLoop
