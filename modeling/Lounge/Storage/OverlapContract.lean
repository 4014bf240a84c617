import Lounge.Storage.BdbRecord
import Lounge.Storage.RevsOverlap

/-!
# What comparing revision lists promises

`ObjectStore.h` has `la_storage_revs_overlap` find the first list anywhere in the second,
up to the end of the shorter part. The loop of `ObjectStore.c` stops one position early.
-/

namespace OverlapContract
open FlatMemory ObjectStore BdbRecord RevsOverlap

/-- The revisions that `memcmp` looks at from position `i` of the second array on. -/
def window (count1 count2 i : Nat) : Nat := min count1 (count2 - i)

/-- `la_storage_revs_overlap` on two arrays in memory. -/
def laStorageRevsOverlapAt (revs1 : Memory) (count1 : Nat) (revs2 : Memory) (count2 : Nat) :
    Bool :=
  (List.range (count2 - 1)).any fun i =>
    read revs1 0 (16 * window count1 count2 i) == read revs2 (16 * i) (16 * window count1 count2 i)

/-- The first list stands at position `i` of the second, as far as the second goes. -/
def OverlapsAt (revs1 revs2 : List LaStorageRev) (i : Nat) : Prop :=
  ∀ j, j < window revs1.length revs2.length i → revs1[j]? = revs2[i + j]?

/-- The contract: the answer is 1 for a match at any position, whatever lies behind the arrays,
and no comparison leaves them. -/
structure MeetsContract (revs1 revs2 : List LaStorageRev) : Prop where
  answer : ∀ behind1 behind2 : Memory,
    laStorageRevsOverlapAt (load (revBytes revs1) behind1) revs1.length
        (load (revBytes revs2) behind2) revs2.length = true ↔
      ∃ i, i < revs2.length ∧ OverlapsAt revs1 revs2 i
  inside : ∀ i, i + 1 < revs2.length →
    window revs1.length revs2.length i ≤ revs1.length ∧
      i + window revs1.length revs2.length i ≤ revs2.length

theorem revsAt_load (revs : List LaStorageRev) (behind : Memory) {i n : Nat}
    (inside : i + n ≤ revs.length) :
    revsAt (load (revBytes revs) behind) (16 * i) n = (revs.drop i).take n := by
  have mid : ((revs.drop i).take n).length = n := by
    rw [List.length_take, List.length_drop]
    omega
  have split : revBytes revs =
      revBytes (revs.take i) ++ revBytes ((revs.drop i).take n) ++
        revBytes ((revs.drop i).drop n) := by
    simp only [revBytes, ← List.flatMap_append]
    rw [List.append_assoc, List.take_append_drop, List.take_append_drop]
  have bytes := read_load_append (revBytes (revs.take i)) (revBytes ((revs.drop i).take n))
    (revBytes ((revs.drop i).drop n)) behind (16 * i) (by
      rw [length_revBytes, List.length_take, Nat.min_eq_left (by omega)])
  rw [← split, length_revBytes] at bytes
  have back := revsAt_of_read bytes
  rwa [mid] at back

theorem revBytes_inj {xs ys : List LaStorageRev} (h : revBytes xs = revBytes ys) : xs = ys := by
  have length : xs.length = ys.length := by
    have := congrArg List.length h
    rw [length_revBytes, length_revBytes] at this
    omega
  have back : ∀ zs : List LaStorageRev,
      revsAt (load (revBytes zs) fun _ => 0) (16 * 0) zs.length = zs := by
    intro zs
    rw [revsAt_load zs _ (by omega), List.drop_zero, List.take_length]
  rw [← back xs, ← back ys, h, length]

theorem overlapsAt_iff (revs1 revs2 : List LaStorageRev) (i : Nat) :
    OverlapsAt revs1 revs2 i ↔
      revs1.take (window revs1.length revs2.length i) =
        (revs2.drop i).take (window revs1.length revs2.length i) := by
  constructor
  · intro same
    apply List.ext_getElem?
    intro j
    by_cases inside : j < window revs1.length revs2.length i
    · rw [List.getElem?_take_of_lt inside, List.getElem?_take_of_lt inside, List.getElem?_drop]
      exact same j inside
    · rw [List.getElem?_take_eq_none (by omega), List.getElem?_take_eq_none (by omega)]
  · intro same j inside
    have here := congrArg (·[j]?) same
    simpa only [List.getElem?_take_of_lt inside, List.getElem?_drop] using here

theorem window_inside (count1 : Nat) {count2 i : Nat} (inside : i ≤ count2) :
    window count1 count2 i ≤ count1 ∧ i + window count1 count2 i ≤ count2 := by
  unfold window
  omega

/-- On arrays the loop compares what it is given as lists, and nothing else. -/
theorem laStorageRevsOverlapAt_eq (revs1 revs2 : List LaStorageRev) (behind1 behind2 : Memory) :
    laStorageRevsOverlapAt (load (revBytes revs1) behind1) revs1.length
        (load (revBytes revs2) behind2) revs2.length = laStorageRevsOverlap revs1 revs2 := by
  simp only [laStorageRevsOverlapAt, laStorageRevsOverlap]
  rw [Bool.eq_iff_iff, List.any_eq_true, List.any_eq_true]
  have same : ∀ i ∈ List.range (revs2.length - 1),
      (read (load (revBytes revs1) behind1) 0 (16 * window revs1.length revs2.length i) ==
          read (load (revBytes revs2) behind2) (16 * i)
            (16 * window revs1.length revs2.length i)) =
        (revs1.take (min revs1.length (revs2.length - i)) ==
          (revs2.drop i).take (min revs1.length (revs2.length - i))) := by
    intro i hi
    have below : i < revs2.length - 1 := List.mem_range.mp hi
    obtain ⟨in1, in2⟩ := window_inside revs1.length (Nat.le_of_lt (by omega : i < revs2.length))
    have first := revsAt_load revs1 behind1 (i := 0) (n := window revs1.length revs2.length i)
      (by omega)
    have second := revsAt_load revs2 behind2 in2
    rw [Nat.mul_zero, List.drop_zero] at first
    rw [← revBytes_revsAt, ← revBytes_revsAt, first, second, Bool.eq_iff_iff, beq_iff_eq,
      beq_iff_eq]
    exact ⟨revBytes_inj, congrArg revBytes⟩
  constructor
  · rintro ⟨i, hi, found⟩
    exact ⟨i, hi, same i hi ▸ found⟩
  · rintro ⟨i, hi, found⟩
    exact ⟨i, hi, (same i hi).symm ▸ found⟩

theorem overlapAt_iff (revs1 revs2 : List LaStorageRev) (behind1 behind2 : Memory) :
    laStorageRevsOverlapAt (load (revBytes revs1) behind1) revs1.length
        (load (revBytes revs2) behind2) revs2.length = true ↔
      ∃ i, i + 1 < revs2.length ∧ OverlapsAt revs1 revs2 i := by
  rw [laStorageRevsOverlapAt_eq, overlap_iff]
  constructor
  · rintro ⟨i, hi, same⟩
    exact ⟨i, hi, (overlapsAt_iff revs1 revs2 i).mpr same⟩
  · rintro ⟨i, hi, found⟩
    exact ⟨i, hi, (overlapsAt_iff revs1 revs2 i).mp found⟩

/-- At the oldest entry there is one revision left to compare. -/
theorem overlapsAt_last {revs1 revs2 : List LaStorageRev} (some1 : revs1 ≠ [])
    (some2 : revs2 ≠ []) :
    OverlapsAt revs1 revs2 (revs2.length - 1) ↔ revs1.head? = revs2.getLast? := by
  have pos1 := List.length_pos_iff.mpr some1
  have pos2 := List.length_pos_iff.mpr some2
  have one : window revs1.length revs2.length (revs2.length - 1) = 1 := by
    unfold window
    omega
  rw [OverlapsAt, one, List.head?_eq_getElem?, List.getLast?_eq_getElem?]
  constructor
  · exact fun same => same 0 (by omega)
  · intro same j hj
    obtain rfl : j = 0 := by omega
    exact same

/-- The contract is met unless the first list starts with the oldest entry of the second and
stands at no position before it. -/
theorem meetsContract_iff {revs1 revs2 : List LaStorageRev} (some1 : revs1 ≠ [])
    (some2 : revs2 ≠ []) :
    MeetsContract revs1 revs2 ↔
      revs1.head? ≠ revs2.getLast? ∨ ∃ i, i + 1 < revs2.length ∧ OverlapsAt revs1 revs2 i := by
  have pos := List.length_pos_iff.mpr some2
  constructor
  · intro meets
    by_cases last : revs1.head? = revs2.getLast?
    · right
      refine (overlapAt_iff revs1 revs2 (fun _ => 0) fun _ => 0).mp ((meets.answer _ _).mpr ?_)
      exact ⟨revs2.length - 1, by omega, (overlapsAt_last some1 some2).mpr last⟩
    · exact Or.inl last
  · intro condition
    refine ⟨fun behind1 behind2 => ?_, fun i hi => window_inside revs1.length (by omega)⟩
    rw [overlapAt_iff]
    constructor
    · rintro ⟨i, hi, found⟩
      exact ⟨i, by omega, found⟩
    · rintro ⟨i, hi, found⟩
      rcases condition with differs | early
      · by_cases last : i = revs2.length - 1
        · subst last
          exact absurd ((overlapsAt_last some1 some2).mp found) differs
        · exact ⟨i, by omega, found⟩
      · exact early

theorem meetsContract_middle :
    MeetsContract [uniformRev 2] [uniformRev 3, uniformRev 2, uniformRev 1] :=
  (meetsContract_iff (by simp) (by simp)).mpr (Or.inl (by decide))

/-- Two histories of the same single revision do not overlap. -/
theorem single_revision_missed : ¬ MeetsContract [uniformRev 1] [uniformRev 1] := by
  intro meets
  have found : OverlapsAt [uniformRev 1] [uniformRev 1] 0 := by
    intro j hj
    rw [Nat.zero_add]
  have answer := (meets.answer (fun _ => 0) fun _ => 0).mpr ⟨0, by simp, found⟩
  obtain ⟨i, hi, -⟩ := (overlapAt_iff _ _ _ _).mp answer
  simp at hi

end OverlapContract
