import Mathlib.Data.List.Dedup
import Mathlib.Data.List.DropRight
import Mathlib.Data.List.Pairwise
import Mathlib.Data.List.Sort

/-!
# Keys in the order of their last use

A list that moves a key to its end on every use, and a measure that gives the key
used last the greatest value: the list is then what sorting by the measure makes.
Where only so many keys are kept, those are the ones used last.
-/

namespace Recency
variable {κ ν : Type*}

theorem rtake_append_of_le {old recent : List κ} {n : Nat} (inside : n ≤ recent.length) :
    (old ++ recent).rtake n = recent.rtake n := by
  have skip : (old ++ recent).length - n = old.length + (recent.length - n) := by
    rw [List.length_append]
    omega
  rw [List.rtake, List.rtake, skip, ← List.drop_drop, List.drop_left]

theorem rtake_of_length_le {l : List κ} {n : Nat} (short : l.length ≤ n) : l.rtake n = l := by
  rw [List.rtake, Nat.sub_eq_zero_of_le short, List.drop_zero]

section Touch
variable [DecidableEq κ]

/-- The key moves to the end. -/
def touch (order : List κ) (key : κ) : List κ := order.filter (· ≠ key) ++ [key]

@[simp] theorem mem_touch {order : List κ} {key k : κ} :
    k ∈ touch order key ↔ k = key ∨ k ∈ order := by
  by_cases h : k = key
  · simp [touch, h]
  · simp [touch, h]

/-- A key that is given a value above all others comes last, the others stay in order. -/
theorem pairwise_touch [Preorder ν] {f g : κ → ν} {order : List κ} {key : κ}
    (sorted : order.Pairwise fun a b => f a < f b) (same : ∀ k, k ≠ key → g k = f k)
    (above : ∀ k ∈ order, f k < g key) :
    (touch order key).Pairwise fun a b => g a < g b := by
  refine List.pairwise_append.mpr ⟨?_, List.pairwise_singleton _ _, ?_⟩
  · refine List.Pairwise.imp_of_mem ?_ (sorted.filter _)
    intro a b ha hb lt
    have hane : a ≠ key := by simpa using (List.mem_filter.mp ha).2
    have hbne : b ≠ key := by simpa using (List.mem_filter.mp hb).2
    rw [same a hane, same b hbne]
    exact lt
  · intro a ha b hb
    obtain ⟨hmem, hne⟩ := List.mem_filter.mp ha
    rw [List.mem_singleton.mp hb, same a (by simpa using hne)]
    exact above a hmem

/-- After any uses the keys stand in the order of their last one. -/
theorem dedup_concat (uses : List κ) (key : κ) :
    (uses ++ [key]).dedup = touch uses.dedup key := by
  induction uses with
  | nil => simp [touch]
  | cons k rest ih =>
    by_cases later : k ∈ rest
    · have again : k ∈ rest ++ [key] := List.mem_append_left _ later
      rw [List.cons_append, List.dedup_cons_of_mem again, List.dedup_cons_of_mem later, ih]
    · by_cases last : k = key
      · subst last
        have again : k ∈ rest ++ [k] := List.mem_append_right _ List.mem_cons_self
        rw [List.cons_append, List.dedup_cons_of_mem again, List.dedup_cons_of_notMem later, ih]
        simp [touch]
      · have once : k ∉ rest ++ [key] := by simp [later, last]
        rw [List.cons_append, List.dedup_cons_of_notMem once, List.dedup_cons_of_notMem later, ih]
        simp [touch, last]

/-- A key that was not in use is appended. -/
theorem touch_of_notMem {order : List κ} {key : κ} (new : key ∉ order) :
    touch order key = order ++ [key] := by
  have all : order.filter (· ≠ key) = order := by
    rw [List.filter_eq_self]
    intro k hk
    simpa using ne_of_mem_of_not_mem hk new
  rw [touch, all]

theorem length_touch_of_mem {order : List κ} (nodup : order.Nodup) {key : κ}
    (used : key ∈ order) : (touch order key).length = order.length := by
  have erased := List.length_erase_of_mem used
  have pos := List.length_pos_of_mem used
  have filtered : order.filter (· ≠ key) = order.erase key := by
    rw [nodup.erase_eq_filter]
    exact List.filter_congr fun k _ => by by_cases same : k = key <;> simp [same]
  rw [touch, filtered, List.length_append, erased, List.length_singleton]
  omega

theorem length_touch_le {order : List κ} (nodup : order.Nodup) (key : κ) :
    order.length ≤ (touch order key).length ∧ (touch order key).length ≤ order.length + 1 := by
  by_cases used : key ∈ order
  · rw [length_touch_of_mem nodup used]
    omega
  · rw [touch_of_notMem used, List.length_append, List.length_singleton]
    omega

/-- A use where only `bound` keys are kept: the least recently used one goes. -/
def touchWithin (bound : Nat) (order : List κ) (key : κ) : List κ := (touch order key).rtake bound

/-- Forgetting all but the last keys does not change which ones the next use leaves. -/
theorem touchWithin_rtake {bound : Nat} {order : List κ} (nodup : order.Nodup) (key : κ) :
    touchWithin bound (order.rtake bound) key = (touch order key).rtake bound := by
  by_cases short : order.length ≤ bound
  · rw [rtake_of_length_le short, touchWithin]
  · have split : order = order.take (order.length - bound) ++ order.rtake bound :=
      (List.take_append_drop _ _).symm
    have parts : touch order key = (order.take (order.length - bound)).filter (· ≠ key) ++
        touch (order.rtake bound) key := by
      conv_lhs => rw [split]
      rw [touch, List.filter_append, List.append_assoc, touch]
    have kept : (order.rtake bound).length = bound := by
      rw [List.rtake, List.length_drop]
      omega
    have recent : (order.rtake bound).Nodup := nodup.sublist (List.drop_sublist _ _)
    have long := (length_touch_le recent key).1
    rw [touchWithin, parts, rtake_append_of_le (by omega)]

/-- A key is forgotten by the use of a new one, when the list is full, and then it was the
oldest. -/
theorem touchWithin_forgets {bound : Nat} {order : List κ} (nodup : order.Nodup)
    (bounded : order.length ≤ bound) {key old : κ} (was : old ∈ order)
    (gone : old ∉ touchWithin bound order key) :
    order.head? = some old ∧ order.length = bound ∧ key ∉ order := by
  have new : key ∉ order := by
    intro used
    have kept := length_touch_of_mem nodup used
    rw [touchWithin, rtake_of_length_le (by omega)] at gone
    exact gone (mem_touch.mpr (Or.inr was))
  have appended : touch order key = order ++ [key] := touch_of_notMem new
  have full : order.length = bound := by
    by_contra room
    have short : (touch order key).length ≤ bound := by
      rw [appended, List.length_append, List.length_singleton]
      omega
    rw [touchWithin, rtake_of_length_le short] at gone
    exact gone (mem_touch.mpr (Or.inr was))
  refine ⟨?_, full, new⟩
  cases order with
  | nil => cases was
  | cons oldest rest =>
    have one : (oldest :: rest ++ [key]).length - bound = 1 := by
      rw [List.length_append, full, List.length_singleton]
      omega
    rw [touchWithin, appended, List.rtake, one, List.cons_append, List.drop_one,
      List.tail_cons] at gone
    rcases List.mem_cons.mp was with rfl | later
    · rfl
    · exact absurd (List.mem_append_left _ later) gone

theorem getLast_touchWithin {bound : Nat} (pos : 0 < bound) (order : List κ) (key : κ) :
    (touchWithin bound order key).getLast? = some key := by
  obtain ⟨n, rfl⟩ := Nat.exists_eq_succ_of_ne_zero (Nat.ne_of_gt pos)
  rw [touchWithin, touch, List.rtake_concat_succ, List.getLast?_concat]

theorem mem_touchWithin_self {bound : Nat} (pos : 0 < bound) (order : List κ)
    (key : κ) : key ∈ touchWithin bound order key :=
  List.mem_of_getLast? (getLast_touchWithin pos order key)

end Touch

theorem nodup_of_pairwise [Preorder ν] {f : κ → ν} {l : List κ}
    (sorted : l.Pairwise fun a b => f a < f b) : l.Nodup :=
  sorted.imp fun lt eq => absurd (congrArg f eq) (ne_of_lt lt)

/-- Sorting a list by a measure gives the strictly sorted list of the same members. -/
theorem insertionSort_eq [LinearOrder ν] {f : κ → ν} {l sorted : List κ} (nodup : l.Nodup)
    (strict : sorted.Pairwise fun a b => f a < f b) (same : ∀ a, a ∈ l ↔ a ∈ sorted) :
    (l.insertionSort fun a b => f a ≤ f b) = sorted := by
  have total : Std.Total fun a b : κ => f a ≤ f b := ⟨fun a b => le_total (f a) (f b)⟩
  have trans : IsTrans κ fun a b => f a ≤ f b := ⟨fun _ _ _ => le_trans⟩
  have perm : (l.insertionSort fun a b => f a ≤ f b).Perm sorted :=
    (List.perm_insertionSort _ l).trans
      ((List.perm_ext_iff_of_nodup nodup (nodup_of_pairwise strict)).mpr same)
  refine perm.eq_of_pairwise ?_ (List.pairwise_insertionSort _ l) (strict.imp le_of_lt)
  intro a b ha hb hab hba
  by_contra hne
  -- A strictly sorted list has no two members of one measure.
  have symm : Std.Symm fun a b => f a ≠ f b := ⟨fun _ _ h => h.symm⟩
  have apart : sorted.Pairwise fun a b => f a ≠ f b := strict.imp ne_of_lt
  exact apart.forall (perm.subset ha) hb hne (le_antisymm hab hba)

end Recency
