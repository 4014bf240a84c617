import Mathlib.Data.List.Basic
import Mathlib.Tactic.Common

/-!
# Draining a stream in chunks

A stream hands out what is left of it, as much as it is given room for, and tells how it went. A
loop that takes one chunk at a time, and goes on while the chunk was filled, gets all of it.
-/

namespace ChunkedStream
variable {σ ρ α β : Type*}

/-- A stream by the calls that are made to it: `left` is still to come, `more` is reported where
there was no room for all of it, and `final` otherwise. -/
structure HandsOut (call : σ → Nat → ρ × List α × σ) (left : σ → List α) (final : σ → ρ)
    (more : ρ) : Prop where
  handed : ∀ s n, (call s n).2.1 = (left s).take n
  rest : ∀ s n, left (call s n).2.2 = (left s).drop n
  code : ∀ s n, (call s n).1 = if (left s).length ≤ n then final s else more
  final_rest : ∀ s n, final (call s n).2.2 = final s

/-- The loop, with the number of the chunk and what was taken so far. It stops without a result
at a report that it does not accept, and where the chunk is not kept. -/
def drain (call : σ → Nat → ρ × List α × σ) (accepts : ρ → Bool) (keeps : Nat → Bool)
    (chunk : Nat) : Nat → Nat → σ → List α → Option (Option (List α))
  | 0, _, _, _ => none
  | fuel + 1, i, s, taken =>
    let r := call s chunk
    if !accepts r.1 || !keeps i then some none
    else if r.2.1.length = chunk then
      drain call accepts keeps chunk fuel (i + 1) r.2.2 (taken ++ r.2.1)
    else some (some (taken ++ r.2.1))

/-- A function of the fuel returns, given enough of it. -/
def Returns (run : Nat → Option β) (ret : β) : Prop :=
  ∃ enough, ∀ fuel ≥ enough, run fuel = some ret

theorem Returns.unique {run : Nat → Option β} {ret ret' : β} (h : Returns run ret)
    (h' : Returns run ret') : ret = ret' := by
  obtain ⟨enough, returned⟩ := h
  obtain ⟨enough', returned'⟩ := h'
  have here := returned (max enough enough') (Nat.le_max_left _ _)
  have there := returned' (max enough enough') (Nat.le_max_right _ _)
  exact Option.some.inj (here.symm.trans there)

/-- The chunks from the `i`-th on, of a stream with this much left, are all kept. -/
def KeepsAll (keeps : Nat → Bool) (chunk i length : Nat) : Prop :=
  ∀ j ≤ length / chunk, keeps (i + j) = true

instance (keeps : Nat → Bool) (chunk i length : Nat) :
    Decidable (KeepsAll keeps chunk i length) :=
  inferInstanceAs (Decidable (∀ j ≤ length / chunk, keeps (i + j) = true))

theorem Returns.map {γ : Type*} {run : Nat → Option β} {ret : β} (g : β → γ)
    (h : Returns run ret) : Returns (fun fuel => (run fuel).map g) (g ret) := by
  obtain ⟨enough, returned⟩ := h
  refine ⟨enough, fun fuel more => ?_⟩
  show (run fuel).map g = some (g ret)
  rw [returned fuel more, Option.map_some]

section Drain
variable {call : σ → Nat → ρ × List α × σ} {left : σ → List α} {final : σ → ρ} {more : ρ}
  {accepts : ρ → Bool} {keeps : Nat → Bool} {chunk : Nat}

theorem keepsAll_succ {i length : Nat} (positive : 0 < chunk) (full : chunk ≤ length) :
    KeepsAll keeps chunk i length ↔
      keeps i = true ∧ KeepsAll keeps chunk (i + 1) (length - chunk) := by
  have count : length / chunk = (length - chunk) / chunk + 1 := Nat.div_eq_sub_div positive full
  constructor
  · intro all
    refine ⟨all 0 (Nat.zero_le _), fun j small => ?_⟩
    rw [Nat.add_assoc, Nat.add_comm 1]
    exact all (j + 1) (by omega)
  · rintro ⟨first, others⟩ j small
    cases j with
    | zero => exact first
    | succ j =>
      have here := others j (by omega)
      rwa [Nat.add_assoc, Nat.add_comm 1] at here

/-- A stream with less than a chunk left takes one turn. -/
theorem keepsAll_last {i length : Nat} (less : length < chunk) :
    KeepsAll keeps chunk i length ↔ keeps i = true := by
  rw [KeepsAll, Nat.div_eq_of_lt less]
  constructor
  · intro all
    exact all 0 (Nat.le_refl 0)
  · intro kept j small
    obtain rfl := Nat.le_zero.mp small
    exact kept

/-- With fuel for every chunk the loop gets all that is left, if every chunk is kept and the
final report accepted: by induction on the fuel. -/
theorem drain_eq (stream : HandsOut call left final more) (goes : accepts more = true)
    (positive : 0 < chunk) {fuel i : Nat} {s : σ} (taken : List α)
    (enough : (left s).length / chunk < fuel) :
    drain call accepts keeps chunk fuel i s taken =
      some (if accepts (final s) = true ∧ KeepsAll keeps chunk i (left s).length then
        some (taken ++ left s) else none) := by
  induction fuel generalizing i s taken with
  | zero => exact absurd enough (Nat.not_lt_zero _)
  | succ fuel ih =>
    rw [drain]
    simp only [stream.handed, stream.code]
    by_cases full : chunk ≤ (left s).length
    · -- a whole chunk: what is left behind it is shorter by one
      have behind : (left (call s chunk).2.2).length = (left s).length - chunk := by
        rw [stream.rest, List.length_drop]
      have count : (left s).length / chunk = ((left s).length - chunk) / chunk + 1 :=
        Nat.div_eq_sub_div positive full
      have next := ih (i := i + 1) (s := (call s chunk).2.2) (taken ++ (left s).take chunk)
        (by rw [behind]; omega)
      rw [behind, stream.final_rest, stream.rest, List.append_assoc, List.take_append_drop] at next
      have filled : ((left s).take chunk).length = chunk := by
        rw [List.length_take, Nat.min_eq_left full]
      rw [if_pos filled, next]
      simp only [keepsAll_succ positive full]
      by_cases accepted : accepts (final s) = true <;> by_cases kept : keeps i = true <;>
        by_cases some : (left s).length ≤ chunk <;> simp [accepted, kept, some, goes]
    · have less : (left s).length < chunk := Nat.lt_of_not_le full
      have short : ((left s).take chunk).length ≠ chunk := by
        rw [List.length_take]
        omega
      rw [if_pos (Nat.le_of_lt less), if_neg short, List.take_of_length_le (Nat.le_of_lt less)]
      simp only [keepsAll_last less]
      by_cases accepted : accepts (final s) = true <;> by_cases kept : keeps i = true <;>
        simp [accepted, kept]

/-- The loop returns. -/
theorem drain_returns (stream : HandsOut call left final more) (goes : accepts more = true)
    (positive : 0 < chunk) (keeps : Nat → Bool) (i : Nat) (s : σ) (taken : List α) :
    Returns (fun fuel => drain call accepts keeps chunk fuel i s taken)
      (if accepts (final s) = true ∧ KeepsAll keeps chunk i (left s).length then
        some (taken ++ left s) else none) :=
  ⟨(left s).length / chunk + 1, fun _ enough => drain_eq stream goes positive taken enough⟩

end Drain

end ChunkedStream
