import Lounge.Lib.ParentChains
import Lounge.Storage.ObjectStore

/-!
# Comparing revision lists

`la_storage_revs_overlap` looks for the first list at every position of the second
but the last. On chains of one forest it finds it exactly where its head occurs.
-/

namespace RevsOverlap
open ObjectStore ParentChains

theorem overlap_iff (xs ys : List LaStorageRev) :
    laStorageRevsOverlap xs ys = true ↔ ∃ i, i + 1 < ys.length ∧
      xs.take (min xs.length (ys.length - i)) =
        (ys.drop i).take (min xs.length (ys.length - i)) := by
  simp only [laStorageRevsOverlap, List.any_eq_true, List.mem_range, beq_iff_eq]
  constructor
  · rintro ⟨i, hi, h⟩
    exact ⟨i, by omega, h⟩
  · rintro ⟨i, hi, h⟩
    exact ⟨i, by omega, h⟩

/-- A position before the last one is one of `dropLast`. -/
theorem mem_dropLast_of_drop {ys : List LaStorageRev} {i : Nat} (hi : i + 1 < ys.length)
    {a : LaStorageRev} {rest : List LaStorageRev} (h : ys.drop i = a :: rest) :
    a ∈ ys.dropLast := by
  have hget : ys[i]? = some a := by
    have := congrArg (·[0]?) h
    simpa using this
  refine List.mem_of_getElem? (i := i) ?_
  rw [List.getElem?_dropLast, if_pos (by omega), hget]

theorem drop_of_mem_dropLast {ys : List LaStorageRev} {a : LaStorageRev}
    (h : a ∈ ys.dropLast) : ∃ i rest, i + 1 < ys.length ∧ ys.drop i = a :: rest := by
  obtain ⟨i, hi, ha⟩ := List.getElem_of_mem h
  rw [List.length_dropLast] at hi
  refine ⟨i, ys.drop (i + 1), by omega, ?_⟩
  rw [List.drop_eq_getElem_cons (by omega)]
  rw [List.getElem_dropLast] at ha
  rw [ha]

/-- Whatever the lists are, a match starts with the head of the first. -/
theorem head_mem_of_overlap {a : LaStorageRev} {xs ys : List LaStorageRev}
    (h : laStorageRevsOverlap (a :: xs) ys = true) : a ∈ ys.dropLast := by
  obtain ⟨i, hi, same⟩ := (overlap_iff _ _).mp h
  cases hd : ys.drop i with
  | nil =>
    have := congrArg List.length hd
    rw [List.length_drop, List.length_nil] at this
    omega
  | cons b rest =>
    have hn : min (a :: xs).length (ys.length - i) =
        min xs.length (ys.length - i - 1) + 1 := by
      simp only [List.length_cons]
      omega
    rw [hd, hn, List.take_succ_cons, List.take_succ_cons, List.cons.injEq] at same
    rw [same.1]
    exact mem_dropLast_of_drop hi hd

/-- On chains the whole match follows from that. -/
theorem overlap_chains {f : Forest LaStorageRev} {a : LaStorageRev} {xs ys : List LaStorageRev}
    (hx : f.Chain (a :: xs)) (hy : f.Chain ys) :
    laStorageRevsOverlap (a :: xs) ys = true ↔ a ∈ ys.dropLast := by
  constructor
  · exact head_mem_of_overlap
  · intro h
    obtain ⟨i, rest, hi, hd⟩ := drop_of_mem_dropLast h
    refine (overlap_iff _ _).mpr ⟨i, hi, ?_⟩
    have hlen : rest.length + 1 = ys.length - i := by
      rw [← List.length_drop, hd, List.length_cons]
    have chain : f.Chain (a :: rest) := hd ▸ hy.drop i
    rw [hd]
    exact hx.agree chain _ (Nat.min_le_left _ _) (by omega)

end RevsOverlap
