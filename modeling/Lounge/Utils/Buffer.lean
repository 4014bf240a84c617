import Lounge.Lib.FlatMemory

/-!
# Byte buffers

`la_buffer` of `utils/buffer.c`. A call is given what `realloc` will answer, and tells which
bytes of the block it has read or written.
-/

namespace Buffer
open FlatMemory

/-- `struct la_buffer`. The block behind `ptr` is seen from its first byte on; `alloc` is its
size. -/
structure LaBuffer where
  ptr : Memory
  alloc : Nat
  size : UInt64
  capacity : UInt64
  ptrOwned : Bool

/-- `realloc` during a call: whether it gives the block, and what it finds behind the old one. -/
structure Realloc where
  allocated : Bool
  heap : Memory

/-- A call returned. Bytes are touched by offset and length. -/
structure BufferReturn where
  ret : Int
  buffer : LaBuffer
  touched : List (Nat × Nat) := []

/-- What `vsnprintf` makes of a format and its arguments, or nothing if it fails. -/
abbrev Formatted := Option (List UInt8)

/-- The valid bytes. -/
def LaBuffer.contents (b : LaBuffer) : List UInt8 := read b.ptr 0 b.size.toNat

/-- `__cap`, with `MIN_ALLOC`. -/
def cap (n : UInt64) : UInt64 := if 1024 < n then n else 1024

/-- `la_buffer_new`. `header` and `block` tell whether the two allocations succeed. -/
def laBufferNew (header block : Bool) (heap : Memory) (capacity : UInt64) : Option BufferReturn :=
  if !header then none
  else
    let capacity := cap capacity
    if !block then none
    else
      some ⟨0, ⟨regrow (fun _ => 0xaa) capacity.toNat heap, capacity.toNat, 0, capacity, true⟩,
        [(0, capacity.toNat)]⟩

/-- `la_buffer_wrap`, of a block of `alloc` bytes. -/
def laBufferWrap (header : Bool) (ptr : Memory) (alloc : Nat) (capacity size : UInt64) :
    Option BufferReturn :=
  if !header then none else some ⟨0, ⟨ptr, alloc, size, capacity, false⟩, []⟩

/-- `realloc` of the block to `n` bytes. -/
def LaBuffer.realloc (b : LaBuffer) (heap : Memory) (n : UInt64) : LaBuffer :=
  { b with ptr := regrow b.ptr (min b.alloc n.toNat) heap, alloc := n.toNat }

/-- `la_buffer_ensure_capacity`. -/
def laBufferEnsureCapacity (c : Realloc) (b : LaBuffer) (capacity : UInt64) : BufferReturn :=
  if b.capacity < capacity then
    if !b.ptrOwned then ⟨-1, b, []⟩
    else
      let delta := cap (capacity - b.capacity)
      let capacity := b.capacity + delta
      if !c.allocated then ⟨-1, b, []⟩
      else ⟨0, { b.realloc c.heap capacity with capacity := capacity }, []⟩
  else ⟨0, b, []⟩

/-- `la_buffer_append` of the first `length` bytes of `data`. -/
def laBufferAppend (c : Realloc) (b : LaBuffer) (data : Memory) (length : UInt64) :
    BufferReturn :=
  let ensured := laBufferEnsureCapacity c b (b.size + length)
  if ensured.ret ≠ 0 then { ensured with ret := -1 }
  else
    let b := ensured.buffer
    let bytes := read data 0 length.toNat
    ⟨0, { b with ptr := store b.ptr b.size.toNat bytes, size := b.size + length },
      [(b.size.toNat, length.toNat)]⟩

/-- `la_buffer_insert`. The size stays. -/
def laBufferInsert (c : Realloc) (b : LaBuffer) (index : UInt64) (data : Memory)
    (length : UInt64) : BufferReturn :=
  let remain := if index < b.size then b.size - index else 0
  let ensured := laBufferEnsureCapacity c b (index + length + remain)
  if ensured.ret ≠ 0 then { ensured with ret := -1 }
  else
    let b := ensured.buffer
    let ptr :=
      if 0 < remain then move b.ptr (index + length).toNat index.toNat remain.toNat else b.ptr
    ⟨0, { b with ptr := store ptr index.toNat (read data 0 length.toNat) },
      [(index.toNat, remain.toNat), ((index + length).toNat, remain.toNat),
        (index.toNat, length.toNat)]⟩

/-- `la_buffer_overwrite`. -/
def laBufferOverwrite (c : Realloc) (b : LaBuffer) (index : UInt64) (data : Memory)
    (length : UInt64) : BufferReturn :=
  let ensured := laBufferEnsureCapacity c b (index + length)
  if ensured.ret ≠ 0 then { ensured with ret := -1 }
  else
    let b := ensured.buffer
    ⟨0, { b with
        ptr := store b.ptr index.toNat (read data 0 length.toNat)
        size := if b.size < index + length then index + length else b.size },
      [(index.toNat, length.toNat)]⟩

/-- `la_buffer_move`. -/
def laBufferMove (c : Realloc) (b : LaBuffer) (index newindex length : UInt64) : BufferReturn :=
  if b.size < index + length ∨ b.size < newindex then ⟨-1, b, []⟩
  else
    let ensured :=
      if b.capacity < newindex + length then laBufferEnsureCapacity c b (newindex + length)
      else ⟨0, b, []⟩
    if ensured.ret ≠ 0 then { ensured with ret := -1 }
    else
      let b := ensured.buffer
      ⟨0, { b with
          ptr := move b.ptr newindex.toNat index.toNat length.toNat
          size := if b.size < newindex + length then newindex + length else b.size },
        [(index.toNat, length.toNat), (newindex.toNat, length.toNat)]⟩

/-- `la_buffer_remove`. -/
def laBufferRemove (b : LaBuffer) (offset length : UInt64) : BufferReturn :=
  if b.size ≤ offset ∨ b.size ≤ offset + length then ⟨-1, b, []⟩
  else
    let remainOffset := offset + length
    let remainLength := b.size - remainOffset
    let ptr :=
      if 0 < remainLength then
        move b.ptr offset.toNat remainOffset.toNat remainLength.toNat
      else b.ptr
    ⟨0, { b with ptr := ptr, size := b.size - length },
      [(remainOffset.toNat, remainLength.toNat), (offset.toNat, remainLength.toNat)]⟩

/-- `la_buffer_compact`. An empty buffer keeps `MIN_ALLOC` bytes, and a capacity of none. -/
def laBufferCompact (c : Realloc) (b : LaBuffer) : BufferReturn :=
  if !b.ptrOwned then ⟨0, b, []⟩
  else if b.size < b.capacity then
    let newsize := if b.size = 0 then 1024 else b.size
    if !c.allocated then ⟨-1, b, []⟩
    else ⟨0, { b.realloc c.heap newsize with capacity := b.size }, []⟩
  else ⟨0, b, []⟩

/-- `la_buffer_truncate`. -/
def laBufferTruncate (b : LaBuffer) (newsize : UInt64) : BufferReturn :=
  if b.size < newsize then ⟨-1, b, []⟩ else ⟨0, { b with size := newsize }, []⟩

/-- `la_buffer_clear`. The macro drops both results. -/
def laBufferClear (c : Realloc) (b : LaBuffer) : BufferReturn :=
  let truncated := laBufferTruncate b 0
  let compacted := laBufferCompact c truncated.buffer
  ⟨0, compacted.buffer, truncated.touched ++ compacted.touched⟩

/-- `vsnprintf` to `n` bytes from `off` on: what it returns, which is negative also for a text
that is too long for an `int`, and the block. Where there is no text it leaves nothing. -/
def vsnprintf (m : Memory) (off n : Nat) (text : Formatted) : Int × Memory :=
  match text with
  | none => (-1, m)
  | some bs =>
    (if bs.length < 2 ^ 31 then bs.length else -1,
      if n = 0 then m else store m off (bs.take (n - 1) ++ [0]))

/-- How many bytes it writes. -/
def vsnprintfWrites (n : Nat) (text : Formatted) : Nat :=
  match text with
  | none => 0
  | some bs => if n = 0 then 0 else min (n - 1) bs.length + 1

/-- `la_buffer_vappendf`, and `la_buffer_appendf`. What `vsnprintf` returns is added as it is. -/
def laBufferVappendf (c : Realloc) (b : LaBuffer) (text : Formatted) : BufferReturn :=
  let needed := (vsnprintf b.ptr 0 0 text).1
  let ensured := laBufferEnsureCapacity c b (b.size + UInt64.ofInt needed + 1)
  if ensured.ret ≠ 0 then { ensured with ret := -1 }
  else
    let b := ensured.buffer
    let remaining := b.capacity - b.size
    let p := b.size.toNat
    let added := vsnprintf (store b.ptr p [0]) p remaining.toNat text
    ⟨0, { b with ptr := added.2, size := b.size + UInt64.ofInt added.1 },
      [(p, 1), (p, vsnprintfWrites remaining.toNat text)]⟩

/-- `la_buffer_get` to `dst`: how many bytes, and the block behind `dst`. -/
def laBufferGet (b : LaBuffer) (offset : UInt64) (dst : Memory) (length : UInt64) :
    UInt64 × Memory :=
  let length := if b.size - offset < length then b.size - offset else length
  (length, store dst 0 (read b.ptr offset.toNat length.toNat))

/-- `la_buffer_copy`. -/
def laBufferCopy (allocated : Bool) (heap : Memory) (b : LaBuffer) : Option Memory :=
  if !allocated then none else some (laBufferGet b 0 heap b.size).2

/-- `la_buffer_string`. The block is written to whether or not it was allocated, a trap. -/
def laBufferString (allocated : Bool) (heap : Memory) (b : LaBuffer) : Option Memory :=
  if !allocated then none
  else some (store (laBufferGet b 0 heap b.size).2 b.size.toNat [0])

/-- What the three size fields promise. -/
structure Sound (b : LaBuffer) : Prop where
  size : b.size.toNat ≤ b.capacity.toNat
  capacity : b.capacity.toNat ≤ b.alloc

/-- Every byte touched is one of the block. -/
def TouchesInside (r : BufferReturn) : Prop :=
  ∀ t ∈ r.touched, ∀ i, t.1 ≤ i → i < t.1 + t.2 → i < r.buffer.alloc

/-- The sums made on the way to `n` bytes fit a `size_t`. -/
def GrowthFits (b : LaBuffer) (n : Nat) : Prop :=
  n < 2 ^ 64 ∧ (b.ptrOwned = true → b.capacity.toNat < n →
    b.capacity.toNat + max (n - b.capacity.toNat) 1024 < 2 ^ 64)

/-- A buffer after the request for `n` bytes was met. -/
structure Ensured (b : LaBuffer) (n : Nat) (b' : LaBuffer) : Prop where
  sound : Sound b'
  size : b'.size = b.size
  owned : b'.ptrOwned = b.ptrOwned
  room : n ≤ b'.capacity.toNat
  kept : ∀ off len, off + len ≤ b.capacity.toNat → read b'.ptr off len = read b.ptr off len

section Facts
variable {b : LaBuffer} {c : Realloc}

theorem toNat_cap (n : UInt64) : (cap n).toNat = max n.toNat 1024 := by
  rw [cap]
  split <;> rename_i h <;> rw [UInt64.lt_iff_toNat_lt] at h
  · exact (Nat.max_eq_left (by simpa using Nat.le_of_lt h)).symm
  · exact (Nat.max_eq_right (by simpa using h)).symm

theorem toNat_add_of_fits {x y : UInt64} (fits : x.toNat + y.toNat < 2 ^ 64) :
    (x + y).toNat = x.toNat + y.toNat := by
  rw [UInt64.toNat_add, Nat.mod_eq_of_lt fits]

theorem Ensured.contents {n : Nat} {b' : LaBuffer} (sound : Sound b) (h : Ensured b n b') :
    b'.contents = b.contents := by
  have inside := sound.size
  rw [LaBuffer.contents, LaBuffer.contents, h.size]
  exact h.kept 0 _ (by omega)

/-- A request is met, or it fails and nothing has changed. -/
theorem laBufferEnsureCapacity_cases (c : Realloc) (sound : Sound b) {n : UInt64}
    (fits : GrowthFits b n.toNat) :
    laBufferEnsureCapacity c b n = ⟨-1, b, []⟩ ∨
      ∃ b', laBufferEnsureCapacity c b n = ⟨0, b', []⟩ ∧ Ensured b n.toNat b' := by
  rw [laBufferEnsureCapacity]
  by_cases short : b.capacity < n
  · rw [if_pos short]
    have less := short
    rw [UInt64.lt_iff_toNat_lt] at short
    cases owned : b.ptrOwned with
    | false => exact Or.inl (by simp)
    | true =>
      cases allocated : c.allocated with
      | false => exact Or.inl (by simp)
      | true =>
        have delta : (cap (n - b.capacity)).toNat = max (n.toNat - b.capacity.toNat) 1024 := by
          rw [toNat_cap, UInt64.toNat_sub_of_le _ _ (UInt64.le_of_lt less)]
        have total := toNat_add_of_fits (x := b.capacity) (y := cap (n - b.capacity))
          (by rw [delta]; exact fits.2 owned short)
        refine Or.inr ⟨_, by simp; rfl, ?_⟩
        have inside := sound.size
        have within := sound.capacity
        refine ⟨⟨?_, ?_⟩, rfl, rfl, ?_, ?_⟩
        · simp only [LaBuffer.realloc]
          omega
        · exact le_refl _
        · simp only
          omega
        · intro off len behind
          exact read_regrow (by omega)
  · rw [if_neg short]
    rw [UInt64.lt_iff_toNat_lt] at short
    exact Or.inr ⟨b, rfl, sound, rfl, rfl, by omega, fun _ _ _ => rfl⟩

end Facts

end Buffer
