import Lounge.Utils.BufferRuns

/-!
# Editing a byte buffer

`la_buffer_insert`, `la_buffer_remove` and `la_buffer_get` against the splicing of lists. An
insert forgets the size; a removal is refused at the end, and tests a sum that may have wrapped.
-/

namespace BufferEdits
open FlatMemory Buffer BufferRuns

/-- All the calls that change a buffer. -/
inductive AnyCall where
  | call (call : BufferCall)
  | insert (index : UInt64) (data : Memory) (length : UInt64)
  | remove (offset length : UInt64)
  | move (index newindex length : UInt64)

def makeCall (c : Realloc) (b : LaBuffer) : AnyCall → BufferReturn
  | .call call => callBuffer c b call
  | .insert index data length => laBufferInsert c b index data length
  | .remove offset length => laBufferRemove b offset length
  | .move index newindex length => laBufferMove c b index newindex length

/-- No sum of sizes of the call exceeds a `size_t`, and `vsnprintf` does not fail. -/
def Ordinary (b : LaBuffer) : AnyCall → Prop
  | .call call => SumsFit b call ∧ Formats call
  | .insert index _ length =>
    GrowthFits b (index.toNat + length.toNat + (b.size.toNat - index.toNat))
  | .remove offset length => offset.toNat + length.toNat < 2 ^ 64
  | .move index newindex length =>
    index.toNat + length.toNat < 2 ^ 64 ∧ GrowthFits b (newindex.toNat + length.toNat)

def anyStep (b : LaBuffer) (i : Realloc × AnyCall) : BufferReturn × LaBuffer :=
  (makeCall i.1 b i.2, (makeCall i.1 b i.2).buffer)

/-- A buffer that a run of ordinary calls leaves. -/
def Reachable (b : LaBuffer) : Prop :=
  ∃ r calls, Made r ∧ Runs.final anyStep r.buffer calls = b ∧
    ∀ e ∈ Runs.events anyStep r.buffer calls, Ordinary e.before e.input.2

/-- The bytes get between those before and behind the index, and are counted. -/
def InsertRight (c : Realloc) (b : LaBuffer) (index : UInt64) (data : Memory)
    (length : UInt64) : Prop :=
  (laBufferInsert c b index data length).ret = 0 ∧
    (laBufferInsert c b index data length).buffer.contents =
      b.contents.take index.toNat ++ read data 0 length.toNat ++ b.contents.drop index.toNat ∧
    (laBufferInsert c b index data length).buffer.size.toNat = b.size.toNat + length.toNat

/-- A range of the contents is cut out, any other is refused. -/
def RemoveRight (b : LaBuffer) (offset length : UInt64) : Prop :=
  (offset.toNat + length.toNat ≤ b.size.toNat →
    (laBufferRemove b offset length).ret = 0 ∧
      (laBufferRemove b offset length).buffer.contents =
        b.contents.take offset.toNat ++ b.contents.drop (offset.toNat + length.toNat)) ∧
  (b.size.toNat < offset.toNat + length.toNat →
    (laBufferRemove b offset length).ret = -1 ∧ (laBufferRemove b offset length).buffer = b)

/-- The contents from the offset on are copied, as many as there are. -/
def GetRight (b : LaBuffer) (offset : UInt64) (dst : Memory) (length : UInt64) : Prop :=
  (laBufferGet b offset dst length).1.toNat =
      min length.toNat (b.size.toNat - offset.toNat) ∧
    (laBufferGet b offset dst length).2 =
      store dst 0 ((b.contents.drop offset.toNat).take length.toNat)

section Safe
variable {b : LaBuffer} {c : Realloc}

theorem safe_insert {index length : UInt64} {data : Memory} (sound : Sound b)
    (fits : GrowthFits b (index.toNat + length.toNat + (b.size.toNat - index.toNat))) :
    Sound (laBufferInsert c b index data length).buffer ∧
      TouchesInside (laBufferInsert c b index data length) := by
  have limit := fits.1
  have remain : (if index < b.size then b.size - index else 0).toNat =
      b.size.toNat - index.toNat := by
    split <;> rename_i before
    · exact UInt64.toNat_sub_of_le _ _ (UInt64.le_of_lt before)
    · rw [UInt64.lt_iff_toNat_lt] at before
      show 0 = _
      omega
  have start : (index + length).toNat = index.toNat + length.toNat :=
    toNat_add_of_fits (by omega)
  have sum : (index + length + (if index < b.size then b.size - index else 0)).toNat =
      index.toNat + length.toNat + (b.size.toNat - index.toNat) := by
    rw [toNat_add_of_fits (by rw [start, remain]; exact limit), start, remain]
  rw [← sum] at fits
  rw [laBufferInsert]
  rcases laBufferEnsureCapacity_cases c sound fits with failed | ⟨b', returned, ensured⟩
  · rw [failed]
    exact ⟨sound, touchesInside_nil _ _⟩
  · have room := ensured.room
    have behind := ensured.sound.capacity
    have old := ensured.sound.size
    rw [ensured.size] at old
    rw [sum] at room
    rw [returned]
    refine ⟨⟨ensured.sound.size, behind⟩, ?_⟩
    rw [remain, start]
    refine touchesInside_cons ?_ (touchesInside_cons ?_ (touchesInside_cons ?_
      (touchesInside_nil _ _)))
    · show index.toNat + (b.size.toNat - index.toNat) ≤ b'.alloc
      omega
    · show index.toNat + length.toNat + (b.size.toNat - index.toNat) ≤ b'.alloc
      omega
    · show index.toNat + length.toNat ≤ b'.alloc
      omega

/-- The sizes of a removal inside the contents. -/
theorem toNat_remove {offset length : UInt64}
    (inside : offset.toNat + length.toNat ≤ b.size.toNat) :
    (offset + length).toNat = offset.toNat + length.toNat ∧
      (b.size - length).toNat = b.size.toNat - length.toNat ∧
      (b.size - (offset + length)).toNat = b.size.toNat - (offset.toNat + length.toNat) := by
  have bound := b.size.toNat_lt
  have sum := toNat_add_of_fits (x := offset) (y := length) (by omega)
  have shorter : length ≤ b.size := UInt64.le_iff_toNat_le.mpr (by omega)
  have within : offset + length ≤ b.size := by
    rw [UInt64.le_iff_toNat_le, sum]
    exact inside
  refine ⟨sum, UInt64.toNat_sub_of_le _ _ shorter, ?_⟩
  rw [UInt64.toNat_sub_of_le _ _ within, sum]

theorem safe_remove {offset length : UInt64} (sound : Sound b)
    (fits : offset.toNat + length.toNat < 2 ^ 64) :
    Sound (laBufferRemove b offset length).buffer ∧
      TouchesInside (laBufferRemove b offset length) := by
  have sum := toNat_add_of_fits fits
  have inside := sound.size
  have behind := sound.capacity
  rw [laBufferRemove]
  split <;> rename_i refused
  · exact ⟨sound, touchesInside_nil _ _⟩
  · rw [not_or, UInt64.not_le, UInt64.not_le, UInt64.lt_iff_toNat_lt, UInt64.lt_iff_toNat_lt,
      sum] at refused
    obtain ⟨-, shorter, left⟩ := toNat_remove (Nat.le_of_lt refused.2)
    refine ⟨⟨?_, behind⟩, ?_⟩
    · show (b.size - length).toNat ≤ b.capacity.toNat
      omega
    · simp only [left, sum]
      refine touchesInside_cons ?_ (touchesInside_cons ?_ (touchesInside_nil _ _))
      · show offset.toNat + length.toNat + (b.size.toNat - (offset.toNat + length.toNat)) ≤ b.alloc
        omega
      · show offset.toNat + (b.size.toNat - (offset.toNat + length.toNat)) ≤ b.alloc
        omega

theorem safe_move {index newindex length : UInt64} (sound : Sound b)
    (source : index.toNat + length.toNat < 2 ^ 64)
    (fits : GrowthFits b (newindex.toNat + length.toNat)) :
    Sound (laBufferMove c b index newindex length).buffer ∧
      TouchesInside (laBufferMove c b index newindex length) := by
  have sum := toNat_add_of_fits source
  have target := toNat_add_of_fits fits.1
  rw [← target] at fits
  rw [laBufferMove]
  split <;> rename_i refused
  · exact ⟨sound, touchesInside_nil _ _⟩
  · rw [not_or, UInt64.not_lt, UInt64.le_iff_toNat_le, sum] at refused
    have ensures : (if b.capacity < newindex + length then
        laBufferEnsureCapacity c b (newindex + length) else ⟨0, b, []⟩) =
          laBufferEnsureCapacity c b (newindex + length) := by
      split <;> rename_i short
      · rfl
      · rw [laBufferEnsureCapacity, if_neg short]
    rw [ensures]
    rcases laBufferEnsureCapacity_cases c sound fits with failed | ⟨b', returned, ensured⟩
    · rw [failed]
      exact ⟨sound, touchesInside_nil _ _⟩
    · have room := ensured.room
      have behind := ensured.sound.capacity
      have old := ensured.sound.size
      rw [target] at room
      rw [returned]
      refine ⟨⟨?_, behind⟩, ?_⟩
      · show (if b'.size < newindex + length then newindex + length else b'.size).toNat ≤
          b'.capacity.toNat
        split
        · rw [target]
          exact room
        · exact old
      · rw [ensured.size] at old
        refine touchesInside_cons ?_ (touchesInside_cons ?_ (touchesInside_nil _ _))
        · show index.toNat + length.toNat ≤ b'.alloc
          omega
        · show newindex.toNat + length.toNat ≤ b'.alloc
          omega

/-- No ordinary call leaves the block. -/
theorem safe_any (c : Realloc) (call : AnyCall) (sound : Sound b) (ordinary : Ordinary b call) :
    Sound (makeCall c b call).buffer ∧ TouchesInside (makeCall c b call) := by
  cases call with
  | call call => exact safe_call c call sound ordinary.1 ordinary.2
  | insert index data length => exact safe_insert sound ordinary
  | remove offset length => exact safe_remove sound ordinary
  | move index newindex length => exact safe_move sound ordinary.1 ordinary.2

theorem Reachable.sound (reachable : Reachable b) : Sound b := by
  obtain ⟨r, calls, made, rfl, ordinary⟩ := reachable
  exact (Runs.preserved Sound (fun b i sound here => (safe_any i.1 i.2 sound here).1)
    made.sound.1 ordinary).2

end Safe

section Splicing
variable {b : LaBuffer}

theorem size_laBufferEnsureCapacity (c : Realloc) (b : LaBuffer) (n : UInt64) :
    (laBufferEnsureCapacity c b n).buffer.size = b.size := by
  rw [laBufferEnsureCapacity]
  split
  · cases b.ptrOwned <;> cases c.allocated <;> rfl
  · rfl

theorem size_laBufferInsert (c : Realloc) (b : LaBuffer) (index : UInt64) (data : Memory)
    (length : UInt64) : (laBufferInsert c b index data length).buffer.size = b.size := by
  simp only [laBufferInsert]
  generalize (if index < b.size then b.size - index else 0) = remain
  split <;> exact size_laBufferEnsureCapacity c b _

/-- An insert makes room and copies, but the bytes are not counted. -/
theorem insertRight_iff (sound : Sound b) (c : Realloc) {index : UInt64} (inside : index ≤ b.size)
    (data : Memory) (length : UInt64) : InsertRight c b index data length ↔ length = 0 := by
  constructor
  · rintro ⟨-, -, counted⟩
    rw [size_laBufferInsert] at counted
    exact UInt64.toNat_inj.mp (show length.toNat = 0 by omega)
  · rintro rfl
    have whole := sound.size
    have remain : index + 0 + (if index < b.size then b.size - index else 0) = b.size := by
      rw [UInt64.add_zero]
      split <;> rename_i before
      · rw [UInt64.add_comm, UInt64.sub_add_cancel]
      · rw [UInt64.add_zero]
        exact UInt64.le_antisymm inside (UInt64.not_lt.mp before)
    have enough : laBufferEnsureCapacity c b b.size = ⟨0, b, []⟩ := by
      rw [laBufferEnsureCapacity, if_neg (by rw [UInt64.lt_iff_toNat_lt]; omega)]
    have same : laBufferInsert c b index data 0 = ⟨0, b,
        [(index.toNat, (if index < b.size then b.size - index else 0).toNat),
          (index.toNat, (if index < b.size then b.size - index else 0).toNat),
          (index.toNat, 0)]⟩ := by
      rw [laBufferInsert, remain, enough]
      simp
    rw [InsertRight, same]
    refine ⟨rfl, ?_, rfl⟩
    simp

/-- A removal that ends before the end, as numbers, cuts the range out. -/
theorem laBufferRemove_inside {offset length : UInt64}
    (inside : offset.toNat + length.toNat < b.size.toNat) :
    (laBufferRemove b offset length).ret = 0 ∧
      (laBufferRemove b offset length).buffer.contents =
        b.contents.take offset.toNat ++ b.contents.drop (offset.toNat + length.toNat) := by
  obtain ⟨sum, shorter, left⟩ := toNat_remove (Nat.le_of_lt inside)
  have accepted : ¬(b.size ≤ offset ∨ b.size ≤ offset + length) := by
    rw [UInt64.le_iff_toNat_le, UInt64.le_iff_toNat_le, sum]
    omega
  have some : 0 < b.size - (offset + length) := by
    rw [UInt64.lt_iff_toNat_lt, left]
    show 0 < _
    omega
  rw [laBufferRemove, if_neg accepted]
  refine ⟨rfl, ?_⟩
  simp only [if_pos some, LaBuffer.contents, left, sum, shorter]
  exact read_move_cut b.ptr (by omega)

/-- A removal up to the end is refused, and a sum that has wrapped may pass for a small one. -/
theorem removeRight_iff (b : LaBuffer) (offset length : UInt64) :
    RemoveRight b offset length ↔
      offset.toNat + length.toNat ≠ b.size.toNat ∧
        (offset.toNat + length.toNat < 2 ^ 64 ∨ b.size ≤ offset) := by
  have bound := b.size.toNat_lt
  have short := length.toNat_lt
  have sum := UInt64.toNat_add offset length
  have compare : b.size ≤ offset ↔ b.size.toNat ≤ offset.toNat := UInt64.le_iff_toNat_le
  by_cases refused : b.size ≤ offset ∨ b.size ≤ offset + length
  · have returned : laBufferRemove b offset length = ⟨-1, b, []⟩ := by
      rw [laBufferRemove, if_pos refused]
    rw [RemoveRight, returned, compare]
    rw [compare, UInt64.le_iff_toNat_le, sum] at refused
    constructor
    · rintro ⟨cut, -⟩
      have beyond : ¬offset.toNat + length.toNat ≤ b.size.toNat := fun inside =>
        absurd (show (-1 : Int) = 0 from (cut inside).1) (by decide)
      omega
    · intro apart
      exact ⟨fun inside => by omega, fun _ => ⟨rfl, rfl⟩⟩
  · have returned : (laBufferRemove b offset length).ret = 0 := by
      rw [laBufferRemove, if_neg refused]
    rw [compare, UInt64.le_iff_toNat_le, sum] at refused
    rw [compare]
    constructor
    · rintro ⟨-, beyond⟩
      have inside : ¬b.size.toNat < offset.toNat + length.toNat := fun beyondEnd =>
        absurd (returned.symm.trans (beyond beyondEnd).1) (by decide)
      omega
    · intro apart
      have inside : offset.toNat + length.toNat < b.size.toNat := by omega
      exact ⟨fun _ => laBufferRemove_inside inside, fun beyond => by omega⟩

/-- Behind the end there is nothing to copy, but the difference wraps. -/
theorem getRight_iff (b : LaBuffer) (offset : UInt64) (dst : Memory) (length : UInt64) :
    GetRight b offset dst length ↔ offset ≤ b.size ∨ length = 0 := by
  have compare : offset ≤ b.size ↔ offset.toNat ≤ b.size.toNat := UInt64.le_iff_toNat_le
  have counted : (laBufferGet b offset dst length).1.toNat =
      min length.toNat (b.size - offset).toNat := by
    simp only [laBufferGet]
    split <;> rename_i less <;> rw [UInt64.lt_iff_toNat_lt] at less <;> omega
  by_cases before : offset ≤ b.size
  · have left : (b.size - offset).toNat = b.size.toNat - offset.toNat :=
      UInt64.toNat_sub_of_le _ _ before
    rw [left] at counted
    refine ⟨fun _ => Or.inl before, fun _ => ⟨counted, ?_⟩⟩
    have copied : (laBufferGet b offset dst length).2 =
        store dst 0 (read b.ptr offset.toNat (laBufferGet b offset dst length).1.toNat) := rfl
    rw [copied, counted, LaBuffer.contents, drop_read, Nat.zero_add]
    congr 1
    rcases Nat.le_total length.toNat (b.size.toNat - offset.toNat) with most | all
    · rw [Nat.min_eq_left most, take_read _ _ most]
    · rw [Nat.min_eq_right all, List.take_of_length_le (by rwa [length_read])]
  · have left := UInt64.toNat_sub b.size offset
    have bound := offset.toNat_lt
    rw [compare] at before
    constructor
    · rintro ⟨none, -⟩
      right
      exact UInt64.toNat_inj.mp (show length.toNat = 0 by omega)
    · rintro (inside | rfl)
      · exact absurd (compare.mp inside) before
      · have empty : laBufferGet b offset dst 0 = (0, dst) := by
          rw [laBufferGet, if_neg (by rw [UInt64.lt_iff_toNat_lt]; exact Nat.not_lt_zero _)]
          simp
        rw [GetRight, empty]
        simp

theorem laBufferGet_whole (b : LaBuffer) (dst : Memory) :
    (laBufferGet b 0 dst b.size).2 = store dst 0 b.contents := by
  have whole : (0 : UInt64) ≤ b.size := UInt64.le_iff_toNat_le.mpr (Nat.zero_le _)
  rw [((getRight_iff b 0 dst b.size).mpr (Or.inl whole)).2]
  show store dst 0 ((b.contents.drop 0).take b.size.toNat) = _
  rw [List.drop_zero, LaBuffer.contents, take_read _ _ (le_refl _)]

/-- A copy holds the contents. -/
theorem read_laBufferCopy {allocated : Bool} {heap copy : Memory}
    (copied : laBufferCopy allocated heap b = some copy) :
    read copy 0 b.size.toNat = b.contents := by
  cases allocated with
  | false => simp [laBufferCopy] at copied
  | true =>
    obtain rfl := Option.some.inj copied
    have length : b.contents.length = b.size.toNat := length_read _ _ _
    rw [laBufferGet_whole, ← length, read_store_self]

/-- A string holds the contents and a terminator. -/
theorem read_laBufferString {allocated : Bool} {heap str : Memory}
    (made : laBufferString allocated heap b = some str) :
    read str 0 (b.size.toNat + 1) = b.contents ++ [0] := by
  cases allocated with
  | false => simp [laBufferString] at made
  | true =>
    obtain rfl := Option.some.inj made
    have length : b.contents.length = b.size.toNat := length_read _ _ _
    have ends := read_store_end (store heap 0 b.contents) b.size.toNat [0]
    rw [← length, read_store_self] at ends
    rwa [laBufferGet_whole, ← length]

end Splicing

/-- Of a buffer that a run leaves, exactly which insertions, removals and copies are what the
contents promise. -/
theorem edits_right_iff {b : LaBuffer} (reachable : Reachable b) :
    (∀ c index data length, b.ptrOwned = true → c.allocated = true → index ≤ b.size →
      (InsertRight c b index data length ↔ length = 0)) ∧
    (∀ offset length, RemoveRight b offset length ↔
      offset.toNat + length.toNat ≠ b.size.toNat ∧
        (offset.toNat + length.toNat < 2 ^ 64 ∨ b.size ≤ offset)) ∧
    ∀ offset dst length, GetRight b offset dst length ↔ offset ≤ b.size ∨ length = 0 :=
  ⟨fun c _ data length _ _ inside => insertRight_iff reachable.sound c inside data length,
    removeRight_iff b, getRight_iff b⟩

theorem reachable_freshBuffer : Reachable freshBuffer :=
  ⟨_, [], made_freshBuffer, rfl, fun _ mem => absurd mem List.not_mem_nil⟩

/-- Of the empty buffer: no byte is inserted, one too many is refused, and none is copied. -/
theorem fresh_edits_right :
    InsertRight ⟨true, fun _ => 0⟩ freshBuffer 0 (fun _ => 97) 0 ∧ RemoveRight freshBuffer 0 1 ∧
      GetRight freshBuffer 0 (fun _ => 0) 1 := by
  obtain ⟨inserts, removes, gets⟩ := edits_right_iff reachable_freshBuffer
  refine ⟨(inserts _ 0 _ 0 rfl rfl (by decide)).mpr rfl, (removes 0 1).mpr ?_,
    (gets 0 _ 1).mpr (Or.inl (by decide))⟩
  exact ⟨by decide, Or.inl (by decide)⟩

/-- A byte inserted into the empty buffer is not counted, nothing cannot be removed at its end, and
a byte is copied from behind it. -/
theorem fresh_edits_wrong :
    ¬InsertRight ⟨true, fun _ => 0⟩ freshBuffer 0 (fun _ => 97) 1 ∧ ¬RemoveRight freshBuffer 0 0 ∧
      ¬GetRight freshBuffer 1 (fun _ => 0) 1 := by
  rw [insertRight_iff reachable_freshBuffer.sound _ (by decide), removeRight_iff, getRight_iff]
  exact ⟨by decide, fun right => right.1 rfl, by decide⟩

end BufferEdits
