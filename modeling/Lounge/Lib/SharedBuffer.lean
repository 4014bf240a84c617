import Mathlib.Data.List.Pairwise
import Mathlib.Tactic.Common

/-!
# A buffer for many transfers

Transfers that append to one buffer, one after the other. One that goes through takes all that
is there, one that fails leaves what it appended.
-/

namespace SharedBuffer
variable {α : Type*}

/-- A transfer: what it appends, and whether it goes through. -/
abbrev Delivery (α : Type*) := List α × Bool

/-- What each transfer that goes through takes, next to what it has appended itself. -/
def taken : List α → List (Delivery α) → List (List α × List α)
  | _, [] => []
  | buffer, (delivered, true) :: rest => (buffer ++ delivered, delivered) :: taken [] rest
  | buffer, (delivered, false) :: rest => taken (buffer ++ delivered) rest

/-- The transfers take their own exactly if none goes through over what was there before, or
behind one that failed halfway. -/
theorem taken_own_iff (buffer : List α) (ds : List (Delivery α)) :
    (∀ t ∈ taken buffer ds, t.1 = t.2) ↔
      (buffer ≠ [] → ∀ d ∈ ds, d.2 = false) ∧
        ds.Pairwise fun d d' => d.2 = false → d.1 ≠ [] → d'.2 = false := by
  induction ds generalizing buffer with
  | nil => simp [taken]
  | cons d rest ih =>
    obtain ⟨delivered, ok⟩ := d
    rw [List.pairwise_cons, List.forall_mem_cons]
    cases ok with
    | true =>
      rw [taken, List.forall_mem_cons, ih []]
      simp
    | false =>
      rw [taken, ih (buffer ++ delivered)]
      have filled : buffer ++ delivered ≠ [] ↔ buffer ≠ [] ∨ delivered ≠ [] := by
        rw [ne_eq, List.append_eq_nil_iff]
        tauto
      rw [filled]
      constructor
      · rintro ⟨later, apart⟩
        exact ⟨fun before => ⟨rfl, later (Or.inl before)⟩,
          fun d mem _ halfway => later (Or.inr halfway) d mem, apart⟩
      · rintro ⟨before, after, apart⟩
        refine ⟨?_, apart⟩
        rintro (here | halfway)
        · exact (before here).2
        · exact fun d mem => after d mem rfl halfway

end SharedBuffer
