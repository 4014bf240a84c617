import Lounge.Lib.CString
import Lounge.Lib.FlatMemory

/-!
# Building strings

`string_join` and `string_append` of `utils/stringutils.c`. The size is added up first, and the
parts are then copied behind one another by `strcat`, each with a terminator.
-/

namespace StringJoin
open FlatMemory

/-- A block from `malloc`: the size that was asked for, and how many bytes from its start on have
been written. -/
structure StrBlock where
  alloc : UInt64
  bytes : Memory
  written : Nat

/-- The string in a block. -/
def StrBlock.text (b : StrBlock) : CString := CString.ofBytes (read b.bytes 0 b.written)

/-- `strcat`. -/
def strcat (b : StrBlock) (s : CString) : StrBlock :=
  { b with
    bytes := store b.bytes b.text.strlen (s.bytes ++ [0])
    written := max b.written (b.text.strlen + s.strlen + 1) }

/-- A new block after `buf[0] = '\\0'`. -/
def emptied (heap : Memory) (alloc : UInt64) : StrBlock := ⟨alloc, store heap 0 [0], 1⟩

/-- One turn of the first loop of `string_join`. -/
def sizePart (sep : CString) (length : Nat) (size : UInt64) (part : CString × Nat) : UInt64 :=
  let size := size + UInt64.ofNat part.1.strlen
  if part.2 < length - 1 then size + UInt64.ofNat sep.strlen else size

/-- One turn of the second. -/
def catPart (sep : CString) (length : Nat) (buf : StrBlock) (part : CString × Nat) : StrBlock :=
  let buf := strcat buf part.1
  if part.2 < length - 1 then strcat buf sep else buf

/-- The first loop, and `size++`. -/
def joinSize (sep : CString) (parts : List CString) : UInt64 :=
  parts.zipIdx.foldl (sizePart sep parts.length) 0 + 1

/-- `string_join`. The index is an `int`, which must not overflow; NULL if `malloc` failed. -/
def stringJoin (heap : Memory) (allocated : Bool) (sep : CString) (parts : List CString) :
    Option (Option StrBlock) :=
  if 2 ^ 31 ≤ parts.length then none
  else if !allocated then some none
  else
    let buf := emptied heap (joinSize sep parts)
    some (some (parts.zipIdx.foldl (catPart sep parts.length) buf))

/-- `string_append`. The block is written to whether or not it was allocated, a trap. -/
def stringAppend (heap : Memory) (allocated : Bool) (pre suffix : CString) :
    Option (Option StrBlock) :=
  if !allocated then none
  else
    let buf := emptied heap (UInt64.ofNat pre.strlen + UInt64.ofNat suffix.strlen)
    some (some (strcat (strcat buf pre) suffix))

/-- The parts with the separator between them. -/
def joined (sep : CString) (parts : List CString) : List UInt8 :=
  sep.bytes.intercalate (parts.map CString.bytes)

/-- A block has the text with its terminator, and was not written to behind its end. -/
structure HoldsText (b : StrBlock) (text : List UInt8) : Prop where
  text : read b.bytes 0 (text.length + 1) = text ++ [0]
  inside : b.written ≤ b.alloc.toNat

/-- The call returns, with the text unless there was no memory. -/
def Builds (allocated : Bool) (ret : Option (Option StrBlock)) (text : List UInt8) : Prop :=
  ∃ block, ret = some block ∧ block.isSome = allocated ∧ ∀ b ∈ block, HoldsText b text

/-- What was written to a block is a string and its terminator. -/
structure Terminated (b : StrBlock) (text : List UInt8) : Prop where
  noNul : (0 : UInt8) ∉ text
  written : b.written = text.length + 1
  bytes : read b.bytes 0 (text.length + 1) = text ++ [0]

section Strcat
variable {b : StrBlock} {text : List UInt8}

theorem terminated_emptied (heap : Memory) (alloc : UInt64) :
    Terminated (emptied heap alloc) [] :=
  ⟨List.not_mem_nil, rfl, read_store_self heap 0 [0]⟩

theorem Terminated.strlen (h : Terminated b text) : b.text.strlen = text.length := by
  have string := CString.ofBytes_terminated ⟨text, h.noNul⟩ []
  rw [CString.strlen, StrBlock.text, h.written, h.bytes, string]

theorem Terminated.strcat (h : Terminated b text) (s : CString) :
    Terminated (strcat b s) (text ++ s.bytes) := by
  have length := h.strlen
  have kept : read (StringJoin.strcat b s).bytes 0 text.length = text := by
    have before : read b.bytes 0 text.length = text := by
      have cut := congrArg (List.take text.length) h.bytes
      rwa [take_read _ _ (Nat.le_succ _), List.take_left] at cut
    simp only [StringJoin.strcat, length]
    rw [read_store_outside (by omega), before]
  refine ⟨?_, ?_, ?_⟩
  · rw [List.mem_append, not_or]
    exact ⟨h.noNul, s.noNul⟩
  · have part : s.strlen = s.bytes.length := rfl
    simp only [StringJoin.strcat, length, h.written, part, List.length_append]
    omega
  · have split : (text ++ s.bytes).length + 1 = text.length + (s.bytes ++ [0]).length := by
      simp only [List.length_append, List.length_singleton]
      omega
    have behind : read (StringJoin.strcat b s).bytes (0 + text.length) (s.bytes ++ [0]).length =
        s.bytes ++ [0] := by
      simp only [StringJoin.strcat, length, Nat.zero_add]
      exact read_store_self _ _ _
    rw [split, ← read_append, kept, behind, List.append_assoc]

@[simp] theorem alloc_strcat (b : StrBlock) (s : CString) : (strcat b s).alloc = b.alloc := rfl

end Strcat

section Join
variable {sep : CString}

theorem joined_cons (sep p : CString) {rest : List CString} (more : rest ≠ []) :
    joined sep (p :: rest) = p.bytes ++ sep.bytes ++ joined sep rest := by
  have mapped : rest.map CString.bytes ≠ [] := by simpa using more
  rw [joined, List.map_cons, List.intercalate_cons_of_ne_nil mapped]
  rfl

/-- The second loop, from the `k`-th part on: by induction on the parts that are left. -/
theorem Terminated.join {b : StrBlock} {text : List UInt8} (h : Terminated b text) (sep : CString)
    (parts : List CString) {k n : Nat} (count : n = k + parts.length) :
    Terminated ((parts.zipIdx k).foldl (catPart sep n) b) (text ++ joined sep parts) ∧
      ((parts.zipIdx k).foldl (catPart sep n) b).alloc = b.alloc := by
  induction parts generalizing b text k with
  | nil => exact ⟨by simpa [joined] using h, rfl⟩
  | cons p rest ih =>
    rw [List.zipIdx_cons, List.foldl_cons]
    rw [List.length_cons] at count
    by_cases last : rest = []
    · subst last
      have stop : ¬k < n - 1 := by
        rw [List.length_nil] at count
        omega
      rw [catPart, if_neg stop]
      refine ⟨?_, rfl⟩
      simpa [joined] using h.strcat p
    · have more : k < n - 1 := by
        have pos := List.length_pos_iff.mpr last
        omega
      rw [catPart, if_pos more, joined_cons sep p last, ← List.append_assoc, ← List.append_assoc]
      exact ih ((h.strcat p).strcat sep) (by omega)

/-- The first loop adds up the same parts. -/
theorem foldl_size {parts : List CString} (size : UInt64) {k n : Nat}
    (count : n = k + parts.length) :
    (parts.zipIdx k).foldl (sizePart sep n) size =
      size + UInt64.ofNat (joined sep parts).length := by
  induction parts generalizing size k with
  | nil => simp [joined]
  | cons p rest ih =>
    rw [List.zipIdx_cons, List.foldl_cons]
    rw [List.length_cons] at count
    by_cases last : rest = []
    · subst last
      have stop : ¬k < n - 1 := by
        rw [List.length_nil] at count
        omega
      rw [sizePart, if_neg stop]
      simp [joined, CString.strlen]
    · have more : k < n - 1 := by
        have pos := List.length_pos_iff.mpr last
        omega
      have next := ih (size + UInt64.ofNat p.strlen + UInt64.ofNat sep.strlen) (k := k + 1)
        (by omega)
      rw [sizePart, if_pos more, next, joined_cons sep p last, List.length_append,
        List.length_append, UInt64.ofNat_add, UInt64.ofNat_add, CString.strlen, CString.strlen]
      grind

/-- The two loops agree: what is written is what was asked for. -/
theorem stringJoin_builds {parts : List CString} (few : parts.length < 2 ^ 31)
    (short : (joined sep parts).length < 2 ^ 31) (heap : Memory) (allocated : Bool) :
    Builds allocated (stringJoin heap allocated sep parts) (joined sep parts) := by
  rw [stringJoin, if_neg (Nat.not_le.mpr few)]
  cases allocated with
  | false => exact ⟨none, rfl, rfl, by simp⟩
  | true =>
    obtain ⟨string, alloc⟩ := (terminated_emptied heap (joinSize sep parts)).join sep parts
      (k := 0) (n := parts.length) (Nat.zero_add _).symm
    rw [List.nil_append] at string
    refine ⟨_, rfl, rfl, ?_⟩
    rintro b hb
    obtain rfl := Option.some.inj hb
    refine ⟨string.bytes, ?_⟩
    have size : joinSize sep parts = UInt64.ofNat ((joined sep parts).length + 1) := by
      rw [joinSize, foldl_size _ (Nat.zero_add _).symm, UInt64.zero_add, UInt64.ofNat_add]
      rfl
    have total : (joinSize sep parts).toNat = (joined sep parts).length + 1 := by
      rw [size, UInt64.toNat_ofNat']
      exact Nat.mod_eq_of_lt (by omega)
    rw [string.written, alloc]
    exact Nat.le_of_eq total.symm

end Join

/-- The terminator of an appended string has no room. -/
theorem stringAppend_overruns (heap : Memory) (allocated : Bool) (pre suffix : CString) :
    ¬Builds allocated (stringAppend heap allocated pre suffix) (pre.bytes ++ suffix.bytes) := by
  rintro ⟨block, returned, made, holds⟩
  cases allocated with
  | false => cases returned
  | true =>
    obtain rfl := Option.some.inj returned
    have string := ((terminated_emptied heap
      (UInt64.ofNat pre.strlen + UInt64.ofNat suffix.strlen)).strcat pre).strcat suffix
    have inside := (holds _ rfl).inside
    rw [string.written] at inside
    simp only [alloc_strcat, emptied, UInt64.toNat_add, UInt64.toNat_ofNat', List.nil_append,
      List.length_append, CString.strlen] at inside
    omega

/-- `string_join` builds its string in what it allocates as long as its index does not overflow,
and `string_append` writes behind the end of every block. -/
theorem builds_iff {sep : CString} {parts : List CString}
    (short : (joined sep parts).length < 2 ^ 31) (heap : Memory) (allocated : Bool)
    (pre suffix : CString) :
    (Builds allocated (stringJoin heap allocated sep parts) (joined sep parts) ↔
        parts.length < 2 ^ 31) ∧
      ¬Builds allocated (stringAppend heap allocated pre suffix) (pre.bytes ++ suffix.bytes) := by
  refine ⟨⟨?_, fun few => stringJoin_builds few short heap allocated⟩,
    stringAppend_overruns heap allocated pre suffix⟩
  rintro ⟨block, returned, -⟩
  by_contra many
  rw [stringJoin, if_pos (Nat.not_lt.mp many)] at returned
  cases returned

section Samples

private def slash : CString := CString.ofBytes [47]

/-- The path `d`, an empty part and `/`. -/
private def pathParts : List CString := [CString.ofBytes [100], CString.ofBytes [], slash]

private def seqName : CString := CString.ofBytes [46, 115, 101, 113]

theorem path_joined :
    (Builds true (stringJoin (fun _ => 170) true slash pathParts) (joined slash pathParts) ↔
        pathParts.length < 2 ^ 31) ∧
      ¬Builds true (stringAppend (fun _ => 170) true slash seqName)
        (slash.bytes ++ seqName.bytes) :=
  builds_iff (by decide) (fun _ => 170) true slash seqName

/-- The name of the sequence database in `bdb_la_storage_open`. -/
theorem seqpath_overruns :
    ¬Builds true (stringAppend (fun _ => 170) true slash seqName)
      (slash.bytes ++ seqName.bytes) :=
  stringAppend_overruns (fun _ => 170) true slash seqName

end Samples

end StringJoin
