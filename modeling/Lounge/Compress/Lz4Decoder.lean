import Lounge.Lib.StepLoop
import Lounge.Lib.CyclicCopy
import Lounge.Lib.LittleEndian

/-!
# The LZ4 decoder

`LZ4_uncompress_unknownOutputSize` of `compress-lz4/lz4/lz4.c`, on a 64-bit little-endian machine.
It copies eight bytes at a time wherever the buffers have room for that, past the end of what it
means to copy, and repeats a short sequence from a multiple of its length.

The source is the list of its `isize` bytes, the destination a memory of which the first
`maxOutputSize` bytes may be touched. A pointer is its offset.
-/

namespace Lz4Decoder
open FlatMemory LittleEndian StepLoop CyclicCopy

def mlBits : Nat := 4
def mlMask : Nat := 15
def runMask : Nat := 15
def copyLength : Nat := 8
def stepSize : Nat := 8

/-- `dec` and `dec2table`: how far back `ref` goes where the sequence is shorter than a step. -/
def dec (distance : Nat) : Nat := [0, 3, 2, 3, 0, 0, 0, 0].getD distance 0
def dec2 (distance : Nat) : Int := [0, 0, 0, -1, 0, 1, 2, 3].getD distance 0

structure Decoding where
  ip : Nat
  op : Nat
  dest : Memory

/-- What the function returns, and the destination. -/
abbrev Answer := Int × Memory

section Source
variable (source : List UInt8)

/-- The bytes of a length that does not fit its half of the token. The length is an `int`, whose
overflow is a trap. -/
def addLength (ip length : Nat) : Option (Nat × Nat) :=
  if inside : ip < source.length then
    let s := source[ip]
    if 2 ^ 31 ≤ length + s.toNat then none
    else if s = 255 then addLength (ip + 1) (length + s.toNat)
    else some (ip + 1, length + s.toNat)
  else some (ip, length)
termination_by source.length - ip

def getLength (ip nibble : Nat) : Option (Nat × Nat) :=
  if nibble = runMask then addLength source ip nibble else some (ip, nibble)

/-- `n` bytes of the source; to leave either buffer is a trap. -/
def copyIn (oend : Int) (n : Nat) (dest : Memory) (op ip : Nat) : Option Memory :=
  if ip + n ≤ source.length ∧ ((op + n : Nat) : Int) ≤ oend then
    some (store dest op ((source.drop ip).take n))
  else none

/-- `LZ4_READ_LITTLEENDIAN_16`, the distance only. -/
def readOffset (ip : Nat) : Option Nat :=
  if ip + 2 ≤ source.length then some (natLE ((source.drop ip).take 2)) else none

end Source
section Destination
variable (oend : Int)

/-- `n` bytes of the destination, read at once and then written. -/
def copyWithin (n : Nat) (dest : Memory) (op ref : Nat) : Option Memory :=
  if ((ref + n : Nat) : Int) ≤ oend ∧ ((op + n : Nat) : Int) ≤ oend then
    some (move dest op ref n)
  else none

/-- `*op++ = *ref++`, a number of times. -/
def copyBytes : Nat → Memory → Nat → Nat → Option Memory
  | 0, dest, _, _ => some dest
  | n + 1, dest, op, ref => do
    let dest ← copyWithin oend 1 dest op ref
    copyBytes n dest (op + 1) (ref + 1)

/-- `LZ4_WILDCOPY`: a packet at a time, and one at least. The pointers come back moved. -/
def wildCopy (packet : Memory → Nat → Nat → Option Memory) (e : Int) (dest : Memory)
    (d s : Nat) : Option (Memory × Nat × Nat) :=
  match packet dest d s with
  | none => none
  | some dest =>
    if ((d + 8 : Nat) : Int) < e then wildCopy packet e dest (d + 8) (s + 8)
    else some (dest, d + 8, s + 8)
termination_by (e - d).toNat

/-- `LZ4_SECURECOPY`. -/
def secureCopy (e : Int) (dest : Memory) (d s : Nat) : Option (Memory × Nat × Nat) :=
  if (d : Int) < e then wildCopy (copyWithin oend 8) e dest d s else some (dest, d, s)

/-- The first eight bytes of a repeated sequence. Where it is shorter than that, four bytes come
one by one and four more from a table's distance, and `ref` stays behind. -/
def firstStep (dest : Memory) (op ref : Nat) : Option (Memory × Nat × Nat) :=
  if op - ref < stepSize then do
    let distance := op - ref
    let dest ← copyBytes oend 4 dest op ref
    let ref := ref + 4 - dec distance
    let dest ← copyWithin oend 4 dest (op + 4) ref
    some (dest, op + 4 + (stepSize - 4), ((ref : Int) - dec2 distance).toNat)
  else do
    let dest ← copyWithin oend 8 dest op ref
    some (dest, op + 8, ref + 8)

/-- `_output_error`. -/
def outputError (ip : Nat) (dest : Memory) : Option (Round Decoding Answer) :=
  some (.stop (-(ip : Int), dest))

/-- The repeated sequence, of this length less four. -/
def copyMatch (ip : Nat) (dest : Memory) (op ref length : Nat) :
    Option (Round Decoding Answer) := do
  let (dest, op, ref) ← firstStep oend dest op ref
  let cpy := op + length - (stepSize - 4)
  if oend - copyLength < cpy then
    if oend < cpy then outputError ip dest
    else do
      let (dest, op, ref) ← secureCopy oend (oend - copyLength) dest op ref
      let dest ← copyBytes oend (cpy - op) dest op ref
      if (cpy : Int) = oend then some (.stop (cpy, dest)) else some (.again ⟨ip, cpy, dest⟩)
  else do
    let (dest, _, _) ← secureCopy oend cpy dest op ref
    some (.again ⟨ip, cpy, dest⟩)

end Destination
section Loop
variable (source : List UInt8) (oend : Int)

/-- A sequence at the end of either buffer is the last one, of literals only. -/
def lastSequence (dest : Memory) (op ip length : Nat) : Option (Round Decoding Answer) :=
  if oend < (op + length : Nat) then outputError ip dest
  else if source.length < ip + length then outputError ip dest
  else do
    let dest ← copyIn source oend length dest op ip
    if ip + length < source.length then outputError (ip + length) dest
    else some (.stop ((op + length : Nat), dest))

/-- The body of the main loop. -/
def round (s : Decoding) : Option (Round Decoding Answer) :=
  if inside : s.ip < source.length then do
    let token := source[s.ip].toNat
    let (ip, length) ← getLength source (s.ip + 1) (token >>> mlBits)
    let cpy := s.op + length
    if oend - copyLength < cpy ∨ (source.length : Int) - copyLength < (ip + length : Nat) then
      lastSequence source oend s.dest s.op ip length
    else do
      let (dest, op, ip) ← wildCopy (copyIn source oend 8) cpy s.dest s.op ip
      let ip := ip - (op - cpy)
      let offset ← readOffset source ip
      if cpy < offset then outputError (ip + 2) dest
      else do
        let (ip, length) ← getLength source (ip + 2) (token &&& mlMask)
        copyMatch oend ip dest cpy (cpy - offset) length
  else some (.stop (s.op, s.dest))

/-- The length of the decoded text, or the position of an error, negative. Every round of the
loop reads a token at least. -/
def lz4UncompressUnknownOutputSize (maxOutputSize : Int) (dest : Memory) : Option Answer :=
  loop (round source maxOutputSize) (source.length + 1) ⟨0, 0, dest⟩

end Loop
section Copies
variable {oend : Int}

theorem copyWithin_eq {n op ref : Nat} (behind : ref ≤ op) (room : ((op + n : Nat) : Int) ≤ oend)
    (dest : Memory) : copyWithin oend n dest op ref = some (move dest op ref n) := by
  rw [copyWithin, if_pos ⟨by omega, room⟩]

/-- Literals in packets of eight: so many bytes of the source as the packets hold. -/
theorem wildCopy_in (source : List UInt8) (oend : Int) (length : Nat) (dest : Memory)
    (op ip : Nat) {cpy : Int} (goal : cpy = (op + length : Nat))
    (insideSource : ip + length + copyLength ≤ source.length)
    (insideDest : cpy + copyLength ≤ oend) :
    ∃ k, length ≤ k ∧ ip + k ≤ source.length ∧
      wildCopy (copyIn source oend 8) cpy dest op ip =
        some (store dest op ((source.drop ip).take k), op + k, ip + k) := by
  have eight : copyLength = 8 := rfl
  induction length using Nat.strongRecOn generalizing dest op ip with
  | ind length ih =>
    have packet : copyIn source oend 8 dest op ip =
        some (store dest op ((source.drop ip).take 8)) := by
      rw [copyIn, if_pos ⟨by omega, by omega⟩]
    have first : ((source.drop ip).take 8).length = 8 := by
      rw [List.length_take, List.length_drop]
      omega
    rw [wildCopy, packet]
    by_cases more : 8 < length
    · obtain ⟨k, enough, inside, copied⟩ := ih (length - 8) (by omega)
        (store dest op ((source.drop ip).take 8)) (op + 8) (ip + 8) (by omega) (by omega)
      have joined : (source.drop ip).take 8 ++ (source.drop (ip + 8)).take k =
          (source.drop ip).take (8 + k) := by
        rw [List.take_add, List.drop_drop]
      have after : store (store dest op ((source.drop ip).take 8 ++ []))
          (op + ((source.drop ip).take 8).length) ((source.drop (ip + 8)).take k) = _ :=
        store_append (Nat.zero_le _)
      rw [List.append_nil, first, joined] at after
      refine ⟨8 + k, by omega, by omega, ?_⟩
      simp only
      rw [if_pos (by omega), copied, after, Nat.add_assoc, Nat.add_assoc]
    · refine ⟨8, by omega, by omega, ?_⟩
      simp only
      rw [if_neg (by omega)]

/-- A repeated sequence on its way: the text before `op` is as it was, the bytes behind it go
round, and the next ones come from a number of distances before. -/
structure Repeating (dest : Memory) (op offset : Nat) (m : Memory) (d k : Nat) : Prop where
  kept : ∀ i < op, m i = dest i
  reached : op ≤ d
  inside : k ≤ d
  cyclic : 0 < offset → Cyclic m (op - offset) offset d
  periods : 0 < offset → offset ∣ k ∧ op - offset + k ≤ d

section Repeating
variable {dest m : Memory} {op offset d k : Nat}

theorem Repeating.move (repeating : Repeating dest op offset m d k) {n : Nat}
    (apart : 0 < offset → n ≤ k) :
    Repeating dest op offset (move m d (d - k) n) (d + n) k where
  kept i before := by
    rw [move_outside (Or.inl (Nat.lt_of_lt_of_le before repeating.reached))]
    exact repeating.kept i before
  reached := Nat.le_trans repeating.reached (Nat.le_add_right _ _)
  inside := Nat.le_trans repeating.inside (Nat.le_add_right _ _)
  cyclic positive :=
    (repeating.cyclic positive).move (repeating.periods positive).1
      (repeating.periods positive).2 (apart positive)
  periods positive :=
    ⟨(repeating.periods positive).1,
      Nat.le_trans (repeating.periods positive).2 (Nat.le_add_right _ _)⟩

/-- Another distance to go on from. -/
theorem Repeating.distance (repeating : Repeating dest op offset m d k) (k' : Nat)
    (inside : k' ≤ d) (periods : 0 < offset → offset ∣ k' ∧ op - offset + k' ≤ d) :
    Repeating dest op offset m d k' :=
  ⟨repeating.kept, repeating.reached, inside, repeating.cyclic, periods⟩

theorem Repeating.start (dest : Memory) (back : offset ≤ op) :
    Repeating dest op offset dest op offset where
  kept _ _ := rfl
  reached := Nat.le_refl _
  inside := back
  cyclic _ := by
    have whole := Cyclic.start dest (op - offset) offset
    rwa [Nat.sub_add_cancel back] at whole
  periods _ := ⟨Nat.dvd_refl _, by omega⟩

/-- What is known of the text behind `op`. -/
theorem Repeating.known (repeating : Repeating dest op offset m d k) {out : List (Option UInt8)}
    (known : Known out dest) (length : out.length = op) (back : offset ≤ op) {n : Nat}
    (far : op + n ≤ d) : Known (extend none offset out n) m := by
  subst length
  refine (known.congr repeating.kept).extend back fun positive i behind before => ?_
  exact (repeating.cyclic positive).back (by omega) (by omega)

theorem copyBytes_repeating (oend : Int) (n : Nat) (repeating : Repeating dest op offset m d k)
    (room : ((d + n : Nat) : Int) ≤ oend) (positive : 0 < offset → 0 < k) :
    ∃ m', copyBytes oend n m d (d - k) = some m' ∧ Repeating dest op offset m' (d + n) k := by
  induction n generalizing m d with
  | zero => exact ⟨m, rfl, repeating⟩
  | succ n ih =>
    have one := repeating.move (n := 1) positive
    have next : d - k + 1 = d + 1 - k := by
      have inside := repeating.inside
      omega
    obtain ⟨m', copied, after⟩ := ih one (by omega)
    refine ⟨m', ?_, ?_⟩
    · rw [copyBytes, copyWithin_eq (Nat.sub_le _ _) (by omega), next]
      exact copied
    · rwa [Nat.add_assoc, Nat.add_comm 1] at after

/-- The packets of a sequence end less than eight bytes behind where they are to. -/
theorem secureCopy_repeating (oend : Int) {e : Int} (repeating : Repeating dest op offset m d k)
    (room : e + copyLength ≤ oend) (apart : 0 < offset → 8 ≤ k) :
    ∃ m' d', secureCopy oend e m d (d - k) = some (m', d', d' - k) ∧
      Repeating dest op offset m' d' k ∧ e ≤ d' ∧ ((d' : Int) < e + 8 ∨ d' = d) := by
  have eight : copyLength = 8 := rfl
  rw [secureCopy]
  by_cases before : (d : Int) < e
  · rw [if_pos before]
    -- induction on what is still to come
    obtain ⟨left, more⟩ : ∃ left : Nat, e = d + left := ⟨(e - d).toNat, by omega⟩
    induction left using Nat.strongRecOn generalizing m d with
    | ind left ih =>
      have packet := repeating.move apart
      have shift : d - k + 8 = d + 8 - k := by
        have inside := repeating.inside
        omega
      rw [wildCopy, copyWithin_eq (Nat.sub_le _ _) (by omega), shift]
      by_cases again : ((d + 8 : Nat) : Int) < e
      · obtain ⟨m', d', copied, after, reached, near⟩ :=
          ih (left - 8) (by omega) packet again (by omega)
        refine ⟨m', d', ?_, after, reached, Or.inl ?_⟩
        · simp only
          rw [if_pos again]
          exact copied
        · omega
      · refine ⟨_, d + 8, ?_, packet, by omega, Or.inl (by omega)⟩
        simp only
        rw [if_neg again]
  · rw [if_neg before]
    exact ⟨m, d, rfl, repeating, by omega, Or.inr rfl⟩

/-- The tables keep to multiples of the distance, of four bytes at least and then of eight. -/
theorem dec_spec : ∀ d < 8, 0 < d →
    (d ∣ d + dec d ∧ 4 ≤ d + dec d ∧ dec d ≤ 4) ∧
      ∃ k : Nat, k < 15 ∧ (k : Int) = d + dec d + 4 + dec2 d ∧ d ∣ k ∧ 8 ≤ k ∧ k ≤ d + 8 := by
  decide

theorem firstStep_repeating (dest : Memory) (back : offset ≤ op)
    (room : ((op + 8 : Nat) : Int) ≤ oend) :
    ∃ m k, firstStep oend dest op (op - offset) = some (m, op + 8, op + 8 - k) ∧
      Repeating dest op offset m (op + 8) k ∧ (0 < offset → 8 ≤ k) := by
  have distance : op - (op - offset) = offset := by omega
  rw [firstStep, distance]
  by_cases short : offset < stepSize
  · have tables : 0 < offset → _ := dec_spec offset short
    have small : dec offset ≤ 4 := by
      by_cases positive : 0 < offset
      · exact (tables positive).1.2.2
      · obtain rfl : offset = 0 := by omega
        decide
    obtain ⟨m, copied, four⟩ := copyBytes_repeating oend 4
      (Repeating.start dest back) (by omega) id
    have second : op - offset + 4 - dec offset = op + 4 - (offset + dec offset) := by omega
    have eight := (four.distance (offset + dec offset) (by omega)
      fun positive => ⟨(tables positive).1.1, by omega⟩).move (n := 4)
      fun positive => (tables positive).1.2.1
    rw [if_pos short, copied]
    simp only [Option.bind_eq_bind, Option.bind_some, second]
    rw [copyWithin_eq (by omega) (by omega)]
    by_cases positive : 0 < offset
    · obtain ⟨k, -, back', divides, far, near⟩ := (tables positive).2
      refine ⟨_, k, ?_, eight.distance k (by omega) fun _ => ⟨divides, by omega⟩, fun _ => far⟩
      have third : (((op + 4 - (offset + dec offset) : Nat) : Int) - dec2 offset).toNat =
          op + 8 - k := by omega
      rw [Option.bind_some, third]
      rfl
    · obtain rfl : offset = 0 := by omega
      exact ⟨_, 4, rfl, eight.distance 4 (by omega) fun positive => absurd positive (by decide),
        fun positive => absurd positive (by decide)⟩
  · have eight : stepSize = 8 := rfl
    refine ⟨move dest op (op - offset) 8, offset, ?_, ?_, fun _ => by omega⟩
    · have shift : op - offset + 8 = op + 8 - offset := by omega
      rw [if_neg short, copyWithin_eq (by omega) room, shift]
      rfl
    · exact (Repeating.start dest back).move fun _ => by omega

end Repeating
end Copies
end Lz4Decoder
