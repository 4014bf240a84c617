import Lounge.Compress.Lz4Decoder
import Mathlib.Tactic.IntervalCases

/-!
# The plain LZ4 decoder

The same decoder over lists: literals are appended, a sequence is repeated byte by byte. The one
that copies eight bytes at a time comes to the same, on every source and every size of the
destination, and touches neither buffer outside.

A distance of zero repeats bytes that nobody wrote. The plain decoder does not know them.
-/

namespace Lz4Plain
open FlatMemory LittleEndian StepLoop CyclicCopy Lz4Decoder

structure Plain where
  rest : List UInt8
  out : List (Option UInt8)

/-- What the function returns, and the text where that is not an error. -/
abbrev PlainAnswer := Int × List (Option UInt8)

/-- The bytes of a length, added up; the last of them is not 255. -/
def lengthFrom : Nat → List UInt8 → Option (Nat × List UInt8)
  | n, [] => some (n, [])
  | n, s :: rest =>
    if 2 ^ 31 ≤ n + s.toNat then none
    else if s = 255 then lengthFrom (n + s.toNat) rest else some (n + s.toNat, rest)

def lengthOf (nibble : Nat) (rest : List UInt8) : Option (Nat × List UInt8) :=
  if nibble = runMask then lengthFrom nibble rest else some (nibble, rest)

section Loop
variable (isize : Nat) (oend : Int)

/-- An error, with so much of the source left. -/
def malformed (left : Nat) : Option (Round Plain PlainAnswer) :=
  some (.stop (-((isize - left : Nat) : Int), []))

def plainLast (out : List (Option UInt8)) (rest : List UInt8) (length : Nat) :
    Option (Round Plain PlainAnswer) :=
  if oend < (out.length + length : Nat) ∨ rest.length < length then malformed isize rest.length
  else if length < rest.length then malformed isize (rest.length - length)
  else some (.stop ((out.length + length : Nat), out ++ rest.map some))

/-- A repeated sequence, of this length less four. -/
def plainMatch (out : List (Option UInt8)) (rest : List UInt8) (offset length : Nat) :
    Option (Round Plain PlainAnswer) :=
  if oend < (out.length + (length + 4) : Nat) then malformed isize rest.length
  else if ((out.length + (length + 4) : Nat) : Int) = oend then
    some (.stop ((out.length + (length + 4) : Nat), extend none offset out (length + 4)))
  else some (.again ⟨rest, extend none offset out (length + 4)⟩)

def plainRound (s : Plain) : Option (Round Plain PlainAnswer) :=
  match s.rest with
  | [] => some (.stop (s.out.length, s.out))
  | token :: rest => do
    let (length, rest) ← lengthOf (token.toNat >>> mlBits) rest
    if oend - copyLength < (s.out.length + length : Nat) ∨ rest.length < length + copyLength then
      plainLast isize oend s.out rest length
    else do
      let out := s.out ++ (rest.take length).map some
      let offset := natLE ((rest.drop length).take 2)
      let rest := rest.drop (length + 2)
      if out.length < offset then malformed isize rest.length
      else do
        let (length, rest) ← lengthOf (token.toNat &&& mlMask) rest
        plainMatch isize oend out rest offset length

end Loop

/-- The plain decoder. -/
def plainUncompress (source : List UInt8) (maxOutputSize : Int) : Option PlainAnswer :=
  loop (plainRound source.length maxOutputSize) (source.length + 1) ⟨source, []⟩

section Lengths
variable {source : List UInt8}

theorem lengthFrom_suffix {n k : Nat} {bs rest : List UInt8}
    (h : lengthFrom n bs = some (k, rest)) : rest <:+ bs := by
  induction bs generalizing n with
  | nil =>
    simp only [lengthFrom, Option.some.injEq, Prod.mk.injEq] at h
    obtain ⟨-, rfl⟩ := h
    exact List.suffix_refl _
  | cons s bs ih =>
    rw [lengthFrom] at h
    split at h
    · cases h
    · split at h
      · exact (ih h).trans (List.suffix_cons s bs)
      · simp only [Option.some.injEq, Prod.mk.injEq] at h
        rw [← h.2]
        exact List.suffix_cons s bs

theorem lengthOf_suffix {nibble k : Nat} {bs rest : List UInt8}
    (h : lengthOf nibble bs = some (k, rest)) : rest <:+ bs := by
  rw [lengthOf] at h
  split at h
  · exact lengthFrom_suffix h
  · simp only [Option.some.injEq, Prod.mk.injEq] at h
    obtain ⟨-, rfl⟩ := h
    exact List.suffix_refl _

/-- A pointer into the source, and what is left there. -/
def Points (source : List UInt8) (ip : Nat) (rest : List UInt8) : Prop :=
  ip ≤ source.length ∧ rest = source.drop ip

theorem Points.length {ip : Nat} {rest : List UInt8} (points : Points source ip rest) :
    rest.length = source.length - ip := by
  rw [points.2, List.length_drop]

/-- How far a pointer is from the start. -/
theorem Points.ip {ip : Nat} {rest : List UInt8} (points : Points source ip rest) :
    source.length - rest.length = ip := by
  have inside := points.1
  rw [points.length]
  omega

theorem Points.drop {ip : Nat} {rest : List UInt8} (points : Points source ip rest) {n : Nat}
    (inside : n ≤ rest.length) : Points source (ip + n) (rest.drop n) := by
  have length := points.length
  have inside' := points.1
  constructor
  · omega
  · rw [points.2, List.drop_drop]

theorem addLength_eq (n ip : Nat) (inside : ip ≤ source.length) :
    addLength source ip n = (lengthFrom n (source.drop ip)).map fun r =>
      (source.length - r.2.length, r.1) := by
  fun_induction addLength source ip n with
  | case1 ip n here s big =>
    rw [List.drop_eq_getElem_cons here, lengthFrom, if_pos big]
    rfl
  | case2 ip n here s fits more ih =>
    rw [List.drop_eq_getElem_cons here, lengthFrom, if_neg fits, if_pos more]
    exact ih here
  | case3 ip n here s fits last =>
    have back : source.length - (source.length - (ip + 1)) = ip + 1 := by omega
    rw [List.drop_eq_getElem_cons here, lengthFrom, if_neg fits, if_neg last]
    simp only [Option.map_some, List.length_drop, back]
    rfl
  | case4 ip n past =>
    have beyond : source.drop ip = [] := List.drop_eq_nil_of_le (by omega)
    have there : ip = source.length := by omega
    rw [beyond, lengthFrom]
    simp [there]

theorem getLength_eq {ip : Nat} {rest : List UInt8} (points : Points source ip rest)
    (nibble : Nat) :
    getLength source ip nibble = (lengthOf nibble rest).map fun r =>
      (source.length - r.2.length, r.1) := by
  rw [getLength, lengthOf]
  split
  · rw [addLength_eq _ _ points.1, points.2]
  · rw [Option.map_some, points.ip]

/-- The pointer behind a length. -/
theorem points_suffix {ip : Nat} {rest rest' : List UInt8} (points : Points source ip rest)
    (suffix : rest' <:+ rest) : Points source (source.length - rest'.length) rest' := by
  constructor
  · exact Nat.sub_le _ _
  · have whole : rest' <:+ source := by
      rw [points.2] at suffix
      exact suffix.trans (List.drop_suffix _ _)
    exact List.suffix_iff_eq_drop.mp whole

end Lengths
section Simulation
variable {source : List UInt8} {oend : Int}

/-- The two decoders are at the same place, and what is known of the text is in memory. -/
structure Same (source : List UInt8) (s : Decoding) (p : Plain) : Prop where
  points : Points source s.ip p.rest
  length : p.out.length = s.op
  known : Known p.out s.dest

def SameAnswer (a : Answer) (b : PlainAnswer) : Prop := a.1 = b.1 ∧ Known b.2 a.2

theorem outputError_alike {ip : Nat} {rest : List UInt8} (points : Points source ip rest)
    (dest : Memory) :
    Alike (Same source) SameAnswer (outputError ip dest)
      (malformed source.length rest.length) := by
  refine .stop ⟨?_, known_nil _⟩
  rw [points.ip]

theorem copyMatch_alike {dest : Memory} {ip op offset : Nat} {out : List (Option UInt8)}
    {rest : List UInt8} (points : Points source ip rest) (known : Known out dest)
    (outLength : out.length = op) (back : offset ≤ op) (room : ((op + 8 : Nat) : Int) ≤ oend)
    (length : Nat) :
    Alike (Same source) SameAnswer (copyMatch oend ip dest op (op - offset) length)
      (plainMatch source.length oend out rest offset length) := by
  have eight : copyLength = 8 := rfl
  obtain ⟨m, k, started, first, apart⟩ := firstStep_repeating dest back room
  have ends : op + 8 + length - (stepSize - 4) = op + (length + 4) := by
    have step : stepSize = 8 := rfl
    omega
  have extended : (extend none offset out (length + 4)).length = op + (length + 4) := by
    rw [length_extend, outLength]
  rw [copyMatch, started, plainMatch, outLength]
  simp only [Option.bind_eq_bind, Option.bind_some, ends]
  by_cases nearEnd : oend - copyLength < (op + (length + 4) : Nat)
  · rw [if_pos nearEnd]
    by_cases beyond : oend < (op + (length + 4) : Nat)
    · rw [if_pos beyond, if_pos beyond]
      exact outputError_alike points m
    · obtain ⟨m', d, copied, second, reached, near⟩ :=
        secureCopy_repeating oend (e := oend - copyLength) first (by omega) apart
      obtain ⟨m'', bytes, third⟩ := copyBytes_repeating oend
        (op + (length + 4) - d) second (by omega) fun positive => by
          have far := apart positive
          omega
      have text := third.known (n := length + 4) known outLength back (by omega)
      rw [if_neg beyond, if_neg beyond, copied]
      simp only [Option.bind_some, bytes]
      split
      · exact .stop ⟨rfl, text⟩
      · exact .again ⟨points, extended, text⟩
  · obtain ⟨m', d, copied, second, reached, near⟩ :=
      secureCopy_repeating oend (e := (op + (length + 4) : Nat)) first (by omega) apart
    have text := second.known (n := length + 4) known outLength back (by omega)
    rw [if_neg nearEnd, if_neg (by omega), if_neg (by omega), copied]
    exact .again ⟨points, extended, text⟩

theorem lastSequence_alike {dest : Memory} {ip op : Nat} {out : List (Option UInt8)}
    {rest : List UInt8} (points : Points source ip rest) (known : Known out dest)
    (outLength : out.length = op) (length : Nat) :
    Alike (Same source) SameAnswer (lastSequence source oend dest op ip length)
      (plainLast source.length oend out rest length) := by
  have left := points.length
  have inside := points.1
  rw [lastSequence, plainLast, outLength]
  by_cases beyond : oend < (op + length : Nat)
  · rw [if_pos beyond, if_pos (Or.inl beyond)]
    exact outputError_alike points dest
  · by_cases short : source.length < ip + length
    · rw [if_neg beyond, if_pos short, if_pos (Or.inr (by omega))]
      exact outputError_alike points dest
    · have copied : copyIn source oend length dest op ip =
          some (store dest op ((source.drop ip).take length)) := by
        rw [copyIn, if_pos ⟨by omega, by omega⟩]
      rw [if_neg beyond, if_neg short, if_neg (by omega), copied]
      simp only [Option.bind_eq_bind, Option.bind_some]
      by_cases more : length < rest.length
      · have behind := outputError_alike (points.drop (n := length) (by omega))
          (store dest op ((source.drop ip).take length))
        rw [List.length_drop] at behind
        rw [if_pos (by omega), if_pos more]
        exact behind
      · have whole : (source.drop ip).take length = rest := by
          rw [← points.2, List.take_of_length_le (by omega)]
        have text := known.store rest []
        rw [List.append_nil, outLength] at text
        rw [if_neg (by omega), if_neg more, whole]
        exact .stop ⟨rfl, text⟩

/-- Literals that are not the last ones, and the pointer behind them. -/
theorem literals_known {dest : Memory} {ip op length k : Nat} {out : List (Option UInt8)}
    {rest : List UInt8} (points : Points source ip rest) (known : Known out dest)
    (outLength : out.length = op) (enough : length ≤ k) :
    Known (out ++ (rest.take length).map some)
      (store dest op ((source.drop ip).take k)) := by
  have split : (source.drop ip).take k =
      rest.take length ++ ((source.drop ip).take k).drop length := by
    rw [← points.2]
    nth_rewrite 1 [← List.take_append_drop length (rest.take k)]
    rw [List.take_take, Nat.min_eq_left enough]
  rw [split, ← outLength]
  exact known.store _ _

theorem round_alike {s : Decoding} {p : Plain} (same : Same source s p) :
    Alike (Same source) SameAnswer (round source oend s)
      (plainRound source.length oend p) := by
  have eight : copyLength = 8 := rfl
  have start := same.points.length
  rw [Lz4Decoder.round, plainRound]
  cases left : p.rest with
  | nil =>
    have done : ¬s.ip < source.length := by
      rw [left, List.length_nil] at start
      omega
    rw [dif_neg done, ← same.length]
    exact .stop ⟨rfl, same.known⟩
  | cons token rest =>
    have inside : s.ip < source.length := by
      rw [left, List.length_cons] at start
      omega
    have here : source.drop s.ip = source[s.ip] :: source.drop (s.ip + 1) :=
      List.drop_eq_getElem_cons inside
    rw [← same.points.2, left, List.cons.injEq] at here
    obtain ⟨sameToken, behind⟩ := here
    have points : Points source (s.ip + 1) rest := ⟨inside, behind⟩
    simp only [dif_pos inside, ← sameToken, getLength_eq points, Option.bind_eq_bind]
    cases run : lengthOf (token.toNat >>> mlBits) rest with
    | none => exact .trap
    | some found =>
      obtain ⟨length, rest1⟩ := found
      have points1 := points_suffix points (lengthOf_suffix run)
      have left1 := points1.length
      simp only [Option.map_some, Option.bind_some]
      generalize source.length - rest1.length = ip at points1 left1
      have inside1 := points1.1
      rw [same.length]
      by_cases last : oend - copyLength < (s.op + length : Nat) ∨
          rest1.length < length + copyLength
      · rw [if_pos last, if_pos (by omega)]
        exact lastSequence_alike points1 same.known same.length length
      · rw [not_or] at last
        obtain ⟨k, enough, insideSource, copied⟩ := wildCopy_in source oend length s.dest
          s.op ip rfl (by omega) (by omega)
        have back : ip + k - (s.op + k - (s.op + length)) = ip + length := by omega
        have points2 := points1.drop (n := length) (by omega)
        have points3 := points1.drop (n := length + 2) (by omega)
        have text := literals_known points1 same.known same.length enough
        have outLength : (p.out ++ (rest1.take length).map some).length = s.op + length := by
          rw [List.length_append, List.length_map, List.length_take, same.length]
          omega
        rw [if_neg (by omega), if_neg (by omega), copied]
        simp only [Option.bind_some, back, outLength]
        rw [readOffset, if_pos (by omega)]
        simp only [Option.bind_some, ← points2.2]
        by_cases far : s.op + length < natLE ((rest1.drop length).take 2)
        · rw [if_pos far, if_pos far]
          exact outputError_alike points3 _
        · rw [if_neg far, if_neg far, Nat.add_assoc ip, getLength_eq points3]
          cases again : lengthOf (token.toNat &&& mlMask) (rest1.drop (length + 2)) with
          | none => exact .trap
          | some found =>
            exact copyMatch_alike (points_suffix points3 (lengthOf_suffix again)) text outLength
              (Nat.le_of_not_lt far) (by omega) found.1

theorem Same.start (source : List UInt8) (dest : Memory) :
    Same source ⟨0, 0, dest⟩ ⟨source, []⟩ :=
  ⟨⟨Nat.zero_le _, rfl⟩, rfl, known_nil dest⟩

theorem loop_rounds_alike (fuel : Nat) {s : Decoding} {p : Plain} (same : Same source s p) :
    Option.Rel SameAnswer (loop (round source oend) fuel s)
      (loop (plainRound source.length oend) fuel p) :=
  loop_alike (fun _ _ same => round_alike same) same

end Simulation

/-- Eight bytes at a time and past the end, or byte by byte: on every source, and for every size
and contents of the destination, the two decoders return the same number and what the plain one
knows of the text is in the destination. -/
theorem uncompress_plain (source : List UInt8) (maxOutputSize : Int) (dest : Memory) :
    Option.Rel SameAnswer (lz4UncompressUnknownOutputSize source maxOutputSize dest)
      (plainUncompress source maxOutputSize) :=
  loop_rounds_alike _ (Same.start source dest)

section Safety
variable {isize : Nat} {oend : Int}

/-- Sources of this size cannot overflow the `int` of a length, longer ones can. -/
def safeSize : Nat := 8421505

theorem lengthFrom_total {n : Nat} {bs : List UInt8} (fits : n + 255 * bs.length < 2 ^ 31) :
    ∃ run, lengthFrom n bs = some run := by
  induction bs generalizing n with
  | nil => exact ⟨_, rfl⟩
  | cons s bs ih =>
    have byte := s.toNat_lt
    rw [List.length_cons] at fits
    rw [lengthFrom, if_neg (by omega)]
    split
    · exact ih (by omega)
    · exact ⟨_, rfl⟩

theorem lengthOf_total (nibble : Nat) (bs : List UInt8) (fits : 15 + 255 * bs.length < 2 ^ 31) :
    ∃ run, lengthOf nibble bs = some run := by
  rw [lengthOf]
  split
  · next mask =>
    rw [mask]
    exact lengthFrom_total fits
  · exact ⟨_, rfl⟩

theorem lengthFrom_overflow {n k : Nat} (much : 2 ^ 31 ≤ n + 255 * k) (small : n < 2 ^ 31) :
    lengthFrom n (List.replicate k 255) = none := by
  induction k generalizing n with
  | zero => omega
  | succ k ih =>
    have top : (255 : UInt8).toNat = 255 := rfl
    rw [List.replicate_succ, lengthFrom, top]
    split
    · rfl
    · rw [if_pos rfl]
      exact ih (by omega) (by omega)

/-- A number that the decoder may return. -/
def InRange (isize : Nat) (oend : Int) (n : Int) : Prop := -(isize : Int) ≤ n ∧ n ≤ max 0 oend

theorem malformed_inRange (left : Nat) :
    ∃ q, malformed isize left = some (.stop q) ∧ InRange isize oend q.1 :=
  ⟨_, rfl, by simp only; omega, by simp only; omega⟩

/-- A round leaves the loop within range, or goes on with less of the source. -/
def Goes (isize : Nat) (oend : Int) (left : Nat)
    (came : Option (Round Plain PlainAnswer)) : Prop :=
  (∃ p, came = some (.again p) ∧ (p.rest.length ≤ isize ∧ (p.out.length : Int) ≤ max 0 oend) ∧
      p.rest.length < left) ∨
    ∃ q, came = some (.stop q) ∧ InRange isize oend q.1

theorem plainLast_goes {out : List (Option UInt8)} {rest : List UInt8} {length left : Nat} :
    Goes isize oend left (plainLast isize oend out rest length) := by
  rw [plainLast]
  split
  · exact Or.inr (malformed_inRange _)
  · split
    · exact Or.inr (malformed_inRange _)
    · refine Or.inr ⟨_, rfl, ?_, ?_⟩
      · simp only
        omega
      · simp only
        omega

theorem plainMatch_goes {out : List (Option UInt8)} {rest : List UInt8}
    {offset length left : Nat} (less : rest.length < left) (inside : left ≤ isize) :
    Goes isize oend left (plainMatch isize oend out rest offset length) := by
  rw [plainMatch]
  split
  · exact Or.inr (malformed_inRange _)
  · split
    · refine Or.inr ⟨_, rfl, ?_, ?_⟩
      · simp only
        omega
      · simp only
        omega
    · refine Or.inl ⟨_, rfl, ⟨?_, ?_⟩, less⟩
      · simp only
        omega
      · simp only [length_extend]
        omega

theorem plainRound_goes {p : Plain} (fits : 15 + 255 * (isize - 1) < 2 ^ 31)
    (inside : p.rest.length ≤ isize) (room : (p.out.length : Int) ≤ max 0 oend) :
    Goes isize oend p.rest.length (plainRound isize oend p) := by
  rw [plainRound]
  cases left : p.rest with
  | nil =>
    refine Or.inr ⟨_, rfl, ?_, room⟩
    simp only
    omega
  | cons token rest =>
    rw [left, List.length_cons] at inside
    obtain ⟨⟨length, rest1⟩, first⟩ := lengthOf_total
      (token.toNat >>> mlBits) rest (by omega)
    have less1 := (lengthOf_suffix first).length_le
    simp only [first, Option.bind_eq_bind, Option.bind_some]
    split
    · exact plainLast_goes
    · split
      · exact Or.inr (malformed_inRange _)
      · have less2 : (rest1.drop (length + 2)).length ≤ rest1.length := by
          rw [List.length_drop]
          omega
        obtain ⟨⟨length2, rest2⟩, second⟩ := lengthOf_total
          (token.toNat &&& mlMask) (rest1.drop (length + 2)) (by omega)
        have less3 := (lengthOf_suffix second).length_le
        rw [second, Option.bind_some]
        apply plainMatch_goes
        · rw [List.length_cons]
          simp only
          omega
        · rw [List.length_cons]
          omega

theorem plainUncompress_total {source : List UInt8} (short : source.length ≤ safeSize)
    (oend : Int) :
    ∃ q, plainUncompress source oend = some q ∧ InRange source.length oend q.1 := by
  have size : safeSize = 8421505 := rfl
  refine loop_total (fun p => p.rest.length ≤ source.length ∧
    (p.out.length : Int) ≤ max 0 oend) (fun p => p.rest.length) ?_ ⟨Nat.le_refl _, ?_⟩
    (Nat.lt_succ_self _)
  · intro p inv
    exact plainRound_goes (by omega) inv.1 inv.2
  · exact Int.le_max_left _ _

/-- A length that goes on for the whole of the source. -/
theorem plainUncompress_overflow {k : Nat} (much : safeSize ≤ k) (oend : Int) :
    plainUncompress (0xF0 :: List.replicate k 255) oend = none := by
  have size : safeSize = 8421505 := rfl
  have run : lengthOf ((0xF0 : UInt8).toNat >>> mlBits) (List.replicate k 255) = none := by
    have nibble : (0xF0 : UInt8).toNat >>> mlBits = runMask := by decide
    have mask : runMask = 15 := rfl
    rw [nibble, lengthOf, if_pos rfl]
    exact lengthFrom_overflow (by omega) (by omega)
  apply loop_trap
  rw [plainRound]
  simp only [run, Option.bind_eq_bind, Option.bind_none]

end Safety

/-- Whatever the source, the decoder stays inside both buffers, returns, and returns no more than
the size of the destination and no position behind the source: for all sources of a size exactly
if that size cannot overflow a length. -/
theorem uncompress_safe_iff (isize : Nat) :
    (∀ source : List UInt8, source.length = isize → ∀ (maxOutputSize : Int) (dest : Memory),
      ∃ answer, lz4UncompressUnknownOutputSize source maxOutputSize dest = some answer ∧
        InRange isize maxOutputSize answer.1) ↔ isize ≤ safeSize := by
  constructor
  · intro all
    by_contra long
    obtain ⟨k, rfl⟩ : ∃ k, isize = k + 1 := ⟨isize - 1, by omega⟩
    obtain ⟨answer, returned, -⟩ := all (0xF0 :: List.replicate k 255)
      (by rw [List.length_cons, List.length_replicate]) 0 (fun _ => 0)
    have same : Option.Rel SameAnswer
        (lz4UncompressUnknownOutputSize (0xF0 :: List.replicate k 255) 0 fun _ => 0)
        (plainUncompress (0xF0 :: List.replicate k 255) 0) :=
      loop_rounds_alike _ (Same.start _ _)
    rw [returned, plainUncompress_overflow (by omega)] at same
    cases same
  · rintro short source rfl maxOutputSize dest
    obtain ⟨plain, decodes, range⟩ := plainUncompress_total short maxOutputSize
    have same : Option.Rel SameAnswer
        (lz4UncompressUnknownOutputSize source maxOutputSize dest)
        (plainUncompress source maxOutputSize) :=
      loop_rounds_alike _ (Same.start source dest)
    rw [decodes] at same
    obtain ⟨answer, returned, code, -⟩ := some_right same
    exact ⟨answer, returned, by rw [code]; exact range⟩

end Lz4Plain
