import Lounge.Compress.Lz4Search

/-!
# What the LZ4 encoder writes

The bytes written so far are the beginning of a block of the source, whatever comes next, and there
are no more of them than `LZ4_compressBound` has room for, the eight bytes of the last packet
included. So the encoder never leaves its destination, and the decoder takes its output back.
-/

namespace Lz4RoundTrip
open FlatMemory LittleEndian StepLoop Lz4Decoder Lz4Format Lz4Encoder Lz4Search

section Output
variable {capacity : Nat}

theorem put_eq {op : Nat} {bs : List UInt8} (room : op + bs.length ≤ capacity) (dest : Memory) :
    put capacity dest op bs = some (store dest op bs) := if_pos room

/-- The bytes of a length of fifteen or more, the fifteen taken off. -/
def runBytes (len : Nat) : List UInt8 :=
  List.replicate (len / 255) 255 ++ [UInt8.ofNat (len % 255)]

theorem runBytes_succ {len : Nat} (more : 255 ≤ len) :
    runBytes len = 255 :: runBytes (len - 255) := by
  have count : len / 255 = (len - 255) / 255 + 1 := by omega
  have rest : len % 255 = (len - 255) % 255 := by omega
  rw [runBytes, runBytes, count, rest, List.replicate_succ, List.cons_append]

theorem runBytes_last {len : Nat} (small : len < 255) : runBytes len = [UInt8.ofNat len] := by
  rw [runBytes, Nat.div_eq_of_lt small, Nat.mod_eq_of_lt small, List.replicate_zero,
    List.nil_append]

theorem lengthBytes_of_le {n : Nat} (big : 15 ≤ n) : lengthBytes n = runBytes (n - 15) :=
  if_neg (by omega)

theorem putRun_eq {len op : Nat} (room : op + (runBytes len).length ≤ capacity) (dest : Memory) :
    putRun capacity len dest op =
      some (store dest op (runBytes len), op + (runBytes len).length) := by
  induction len using Nat.strongRecOn generalizing op dest with
  | ind len ih =>
    rw [putRun]
    by_cases more : 254 < len
    · rw [runBytes_succ more, List.length_cons] at room ⊢
      rw [if_pos more, put_eq (by rw [List.length_singleton]; omega)]
      simp only
      rw [ih (len - 255) (by omega) (by omega), store_cons, Nat.add_assoc, Nat.add_comm 1]
    · have small : len < 255 := by omega
      rw [runBytes_last small] at room ⊢
      rw [if_neg more, put_eq room]
      rfl

/-- Two bytes at a time come to the same as one. -/
theorem putMatchRun_eq_putRun (len op : Nat) (dest : Memory) :
    putMatchRun capacity len dest op = putRun capacity len dest op := by
  induction len using Nat.strongRecOn generalizing op dest with
  | ind len ih =>
    rw [putMatchRun, putRun]
    by_cases more : 509 < len
    · rw [if_pos more, if_pos (by omega)]
      cases first : put capacity dest op [255] with
      | none => rfl
      | some dest1 =>
        simp only [Option.bind_some]
        rw [putRun, if_pos (by omega)]
        cases second : put capacity dest1 (op + 1) [255] with
        | none => rfl
        | some dest2 =>
          have twice : len - 255 - 255 = len - 510 := by omega
          simp only
          rw [ih (len - 510) (by omega), twice]
    · rw [if_neg more]
      by_cases again : 254 < len
      · rw [if_pos again, if_pos again]
        cases first : put capacity dest op [255] with
        | none => rfl
        | some dest1 =>
          simp only [Option.bind_eq_bind, Option.bind_some]
          rw [putRun, if_neg (by omega)]
          cases put capacity dest1 (op + 1) [UInt8.ofNat (len - 255)] with
          | none => rfl
          | some dest2 => rfl
      · rw [if_neg again, if_neg again]

theorem encodeRun_eq {length op : Nat}
    (room : op + 1 + (lengthBytes length).length ≤ capacity) (dest : Memory) :
    encodeRun capacity dest op length =
      some (store dest op (tokenOf length 0 :: lengthBytes length),
        op + 1 + (lengthBytes length).length) := by
  have mask : runMask = 15 := rfl
  have bits : mlBits = 4 := rfl
  rw [encodeRun]
  by_cases big : runMask ≤ length
  · have token : UInt8.ofNat (runMask <<< mlBits) = tokenOf length 0 := by
      rw [tokenOf, Nat.min_eq_right (by omega)]
      rfl
    rw [lengthBytes_of_le (by omega)] at room ⊢
    rw [if_pos big, token, put_eq (by rw [List.length_singleton]; omega)]
    simp only [Option.bind_eq_bind, Option.bind_some]
    rw [mask, putRun_eq room, store_cons]
  · have token : UInt8.ofNat (length <<< mlBits) = tokenOf length 0 := by
      rw [tokenOf, Nat.min_eq_left (by omega), Nat.shiftLeft_eq, bits, Nat.zero_min, Nat.add_zero,
        Nat.mul_comm]
    have none : lengthBytes length = [] := if_pos (by omega)
    rw [none, List.length_nil] at room ⊢
    rw [if_neg big, token, put_eq (by rw [List.length_singleton]; omega)]
    rfl

theorem tokenOf_add (literals len : Nat) :
    tokenOf literals 0 + UInt8.ofNat (min len 15) = tokenOf literals len := by
  rw [tokenOf, tokenOf, ← UInt8.ofNat_add, Nat.zero_min, Nat.add_zero]

theorem encodeMatch_eq {len op token : Nat} (room : op + (lengthBytes len).length ≤ capacity)
    (before : token < op) (dest : Memory) :
    encodeMatch capacity dest op token len =
      some (store (store dest token [dest token + UInt8.ofNat (min len 15)]) op
        (lengthBytes len), op + (lengthBytes len).length) := by
  have mask : mlMask = 15 := rfl
  rw [encodeMatch]
  by_cases big : mlMask ≤ len
  · have top : min len 15 = mlMask := by omega
    rw [lengthBytes_of_le (by omega)] at room ⊢
    rw [if_pos big, top, put_eq (by rw [List.length_singleton]; omega)]
    simp only [Option.bind_eq_bind, Option.bind_some]
    rw [mask, putMatchRun_eq_putRun, putRun_eq room]
  · have itself : min len 15 = len := by omega
    have none : lengthBytes len = [] := if_pos (by omega)
    rw [none, List.length_nil] at room ⊢
    rw [if_neg big, itself, put_eq (by rw [List.length_singleton]; omega), store_nil]
    rfl

end Output
section Written
variable {text : List UInt8}

/-- The bytes before `op` begin a block of the text, up to this position of it. -/
structure Written (text : List UInt8) (dest : Memory) (op pos : Nat) : Prop where
  begins : ∀ rest, Encodes text pos rest → Encodes text 0 (read dest 0 op ++ rest)
  few : op ≤ pos + pos / 255

/-- The literals before `start` are written, and a token that does not know the match yet. -/
structure Pending (text : List UInt8) (dest : Memory) (op token pos start : Nat) : Prop where
  written : Written text dest token pos
  from_pos : pos ≤ start
  inside : start ≤ text.length
  bytes : read dest 0 op = read dest 0 token ++ tokenOf (start - pos) 0 ::
    (lengthBytes (start - pos) ++ (text.take start).drop pos)

/-- A length takes no more bytes than it is. -/
theorem length_lengthBytes_le (n : Nat) : (lengthBytes n).length ≤ n := by
  rw [length_lengthBytes]
  split <;> omega

theorem length_lengthBytes_div (n : Nat) : (lengthBytes n).length ≤ n / 255 + 1 := by
  rw [length_lengthBytes]
  split <;> omega

theorem Pending.op_eq {dest : Memory} {op token pos start : Nat}
    (pending : Pending text dest op token pos start) :
    op = token + (1 + ((lengthBytes (start - pos)).length + (start - pos))) := by
  have inside := pending.inside
  have from_pos := pending.from_pos
  have lengths := congrArg List.length pending.bytes
  simp only [length_read, List.length_append, List.length_cons, List.length_drop,
    List.length_take] at lengths
  rw [Nat.min_eq_left inside] at lengths
  omega

theorem Written.start (text : List UInt8) (dest : Memory) : Written text dest 0 0 :=
  ⟨fun _ more => more, Nat.zero_le _⟩

theorem Written.congr {dest dest' : Memory} {op pos : Nat} (written : Written text dest op pos)
    (same : read dest' 0 op = read dest 0 op) : Written text dest' op pos := by
  constructor
  · rw [same]
    exact written.begins
  · exact written.few

/-- A token and literals, and whatever the last packet of these wrote. -/
theorem Written.literals {dest : Memory} {op pos start k : Nat}
    (written : Written text dest op pos) (from_pos : pos ≤ start) (inside : start ≤ text.length)
    (enough : start - pos ≤ k) :
    Pending text
      (store (store dest op (tokenOf (start - pos) 0 :: lengthBytes (start - pos)))
        (op + 1 + (lengthBytes (start - pos)).length) ((text.drop pos).take k))
      (op + 1 + (lengthBytes (start - pos)).length + (start - pos)) op pos start := by
  have run := read_store_end dest op (tokenOf (start - pos) 0 :: lengthBytes (start - pos))
  have length : ((text.drop pos).take (start - pos)).length = start - pos := by
    rw [List.length_take, List.length_drop]
    omega
  have split : (text.drop pos).take k = (text.drop pos).take (start - pos) ++
      ((text.drop pos).take k).drop (start - pos) := by
    nth_rewrite 1 [← List.take_append_drop (start - pos) ((text.drop pos).take k)]
    rw [List.take_take, Nat.min_eq_left enough]
  have copied := read_store_end_of_append
    (store dest op (tokenOf (start - pos) 0 :: lengthBytes (start - pos)))
    (op + 1 + (lengthBytes (start - pos)).length) ((text.drop pos).take (start - pos))
    (((text.drop pos).take k).drop (start - pos))
  rw [← split, length] at copied
  rw [List.length_cons, Nat.add_comm _ 1, ← Nat.add_assoc] at run
  have before : read (store (store dest op
      (tokenOf (start - pos) 0 :: lengthBytes (start - pos)))
        (op + 1 + (lengthBytes (start - pos)).length) ((text.drop pos).take k)) 0 op =
          read dest 0 op := by
    rw [read_store_outside (by omega), read_store_outside (by omega)]
  refine ⟨written.congr before, from_pos, inside, ?_⟩
  rw [copied, run, before, List.drop_take, List.append_assoc]
  rfl

/-- The offset, and the length of the match, of which the token has its half. -/
theorem Pending.sequence {dest : Memory} {op token pos start offset length : Nat}
    (pending : Pending text dest op token pos start) (repeats : Repeats text start offset length) :
    Written text
      (store (store (store dest op (bytesLE 2 offset)) token
        [store dest op (bytesLE 2 offset) token + UInt8.ofNat (min (length - minMatch) 15)])
          (op + 2) (lengthBytes (length - minMatch)))
      (op + 2 + (lengthBytes (length - minMatch)).length) (start + length) := by
  have place := pending.op_eq
  have inside := pending.inside
  have from_pos := pending.from_pos
  have lits : ((text.take start).drop pos).length = start - pos := by
    rw [List.length_drop, List.length_take, Nat.min_eq_left inside]
  have four : minMatch = 4 := rfl
  have long := repeats.long
  have behind := read_store_end dest op (bytesLE 2 offset)
  rw [length_bytesLE] at behind
  have old : store dest op (bytesLE 2 offset) token = tokenOf (start - pos) 0 := by
    have there : (read dest 0 op)[token]? = some (dest token) := by
      rw [List.getElem?_eq_getElem (by rw [length_read]; omega), getElem_read, Nat.zero_add]
    rw [pending.bytes, List.getElem?_append_right (by rw [length_read]), length_read,
      Nat.sub_self, List.getElem?_cons_zero, Option.some.injEq] at there
    rw [store_outside (by omega), there]
  have before : token ≤ op + 2 := by omega
  have half := read_store_splice (store dest op (bytesLE 2 offset))
    [tokenOf (start - pos) (length - minMatch)] before
  have all := read_store_end (store (store dest op (bytesLE 2 offset)) token
    [tokenOf (start - pos) (length - minMatch)]) (op + 2) (lengthBytes (length - minMatch))
  have few := pending.written.few
  have most := length_lengthBytes_le (length - minMatch)
  have least := length_lengthBytes_div (start - pos)
  rw [old, tokenOf_add]
  constructor
  · intro rest more
    have whole : read (store (store (store dest op (bytesLE 2 offset)) token
        [tokenOf (start - pos) (length - minMatch)]) (op + 2) (lengthBytes (length - minMatch))) 0
          (op + 2 + (lengthBytes (length - minMatch)).length) =
        read dest 0 token ++ sequenceBytes ((text.take start).drop pos) offset length := by
      have reach : max (op + 2) (token + [tokenOf (start - pos) (length - minMatch)].length) =
          op + 2 := by
        rw [List.length_singleton]
        omega
      rw [reach, behind, pending.bytes] at half
      simp only [List.append_assoc, List.cons_append] at half
      rw [List.take_left' (length_read _ _ _), ← List.drop_drop,
        List.drop_left' (length_read _ _ _)] at half
      rw [all, half, sequenceBytes, literalBytes, lits]
      simp only [List.length_cons, List.length_nil, List.drop_succ_cons, List.drop_zero,
        List.append_assoc, List.cons_append, List.nil_append]
    rw [whole, List.append_assoc]
    exact pending.written.begins _ (.sequence from_pos repeats more)
  · omega

end Written
section Loop
variable {v : Variant} {source : List UInt8} {capacity : Nat}

/-- No match that the code takes for near is farther than an offset can say. -/
def Reaches (v : Variant) (source : List UInt8) : Prop :=
  ∀ ref ip, ip + mfLimit ≤ source.length → v.near ref ip = true → ip - ref < 2 ^ 16

theorem reaches_ctx (source : List UInt8) : Reaches ctx source := by
  intro ref ip inside near
  simp only [Variant.near, ctx, Bool.not_eq_true', decide_eq_false_iff_not] at near
  omega

/-- A short source has no places that are too far from each other, nor too large for an entry. -/
theorem reaches_ctx64k (short : source.length < hash64Limit) : Reaches ctx64k source := by
  intro ref ip inside near
  have limit : hash64Limit = 65547 := rfl
  have twelve : mfLimit = 12 := rfl
  omega

/-- A match at `ip`, compared as far as any place is that the table knows. -/
structure Matched (source : List UInt8) (ref ip : Nat) (table : HashTable) : Prop where
  earlier : ref < ip
  reaches : ip - ref < 2 ^ 16
  newest : ∃ newest, ip ≤ newest ∧ newest + mfLimit ≤ source.length ∧
    Agree source ref ip (newest + 4 - ip) ∧ ∀ h, table h < newest + 1

/-- What holds at each label. -/
def Coded (source : List UInt8) : Label × Coding → Prop
  | (.mainLoop _, s) => Written source s.dest s.op s.anchor ∧ s.ip = s.anchor + 1 ∧
      s.anchor + mfLimit ≤ source.length ∧ ∀ h, s.table h < s.ip
  | (.nextMatch ref token, s) =>
      (∃ pos, Pending source s.dest s.op token pos s.ip) ∧ Matched source ref s.ip s.table
  | (.lastLiterals, s) => Written source s.dest s.op s.anchor ∧ s.anchor ≤ source.length

/-- What is left to do at each label, to bound the rounds. -/
def left (source : List UInt8) : Label × Coding → Nat
  | (.mainLoop _, s) => 2 * (source.length - s.anchor) + 2
  | (.nextMatch _ _, s) => 2 * (source.length - s.ip) + 1
  | (.lastLiterals, _) => 0

theorem mainLoop_spec {forwardH : Nat} {s : Coding} (reach : Reaches v source)
    (room : source.length + source.length / 255 + 16 ≤ capacity)
    (coded : Coded source (.mainLoop forwardH, s)) :
    ∃ next, mainLoop v source capacity forwardH s = some next ∧ Coded source next ∧
      left source next < left source (.mainLoop forwardH, s) := by
  obtain ⟨written, atIp, inside, entries⟩ := coded
  have twelve : mfLimit = 12 := rfl
  have eight : copyLength = 8 := rfl
  obtain ⟨ret, searched, spec⟩ := findMatch_spec v source forwardH entries (by omega)
  rw [mainLoop, searched]
  simp only [Option.bind_eq_bind, Option.bind_some]
  cases ret with
  | none =>
    refine ⟨_, rfl, ⟨written, by omega⟩, ?_⟩
    rw [left, left]
    omega
  | some found =>
    obtain ⟨later, early, earlier, near, agree, table⟩ := spec found rfl
    obtain ⟨c, backIp, backRef, behind, same⟩ := catchUp_spec source
      s.anchor found.ref found.ip (by omega)
    simp only
    generalize catchUp source s.anchor found.ip found.ref = back at backIp backRef behind same
    obtain ⟨ip, ref⟩ := back
    simp only at backIp backRef behind same ⊢
    have few := written.few
    have least := length_lengthBytes_div (ip - s.anchor)
    rw [encodeRun_eq (by omega), Option.bind_some]
    simp only
    obtain ⟨k, enough, insideSource, copied⟩ := wildCopy_in source capacity
      (ip - s.anchor) (store s.dest s.op (tokenOf (ip - s.anchor) 0 :: lengthBytes (ip - s.anchor)))
      (s.op + 1 + (lengthBytes (ip - s.anchor)).length) s.anchor rfl
      (by omega) (by omega)
    rw [copied]
    have far := reach found.ref found.ip (by omega) near
    have matched : Matched source ref ip found.table := by
      refine ⟨by omega, by omega, found.ip, by omega, by omega, ?_, table⟩
      have count : found.ip + 4 - ip = c + 4 := by omega
      rw [count]
      apply same.append
      rw [backRef, backIp]
      exact agree
    refine ⟨_, rfl, ⟨⟨s.anchor, written.literals behind (by omega) enough⟩, matched⟩, ?_⟩
    rw [left, left]
    simp only
    omega

/-- A match goes on for longer than any place that the table knows. -/
theorem Matched.counted {ref ip c : Nat} {table : HashTable}
    (matched : Matched source ref ip table)
    (counted : Counted source (ref + minMatch) (ip + minMatch) 1 c) :
    Repeats source ip (ip - ref) (minMatch + c) ∧ ∀ h, table h + 4 ≤ ip + minMatch + c := by
  obtain ⟨earlier, reaches, newest, known, inside, agree, entries⟩ := matched
  obtain ⟨counted, ends, limit⟩ := counted
  have four : minMatch = 4 := rfl
  have five : lastLiterals = 5 := rfl
  have twelve : mfLimit = 12 := rfl
  have first : Agree source ref ip minMatch := agree.mono (by omega)
  have far : newest + 4 ≤ ip + minMatch + c := by
    by_contra short
    rcases limit with close | differ
    · omega
    · apply differ
      rw [Nat.add_assoc, Nat.add_assoc]
      exact (agree.mono (by omega)).drop
  have all : Agree source ref ip (minMatch + c) := first.append counted
  have back : ip - (ip - ref) = ref := by omega
  refine ⟨⟨Nat.le_add_right _ _, by omega, reaches, Nat.sub_le _ _, by omega, by omega, ?_⟩, ?_⟩
  · rw [back]
    exact all
  · intro h
    have entry := entries h
    omega

theorem nextMatch_spec {ref token : Nat} {s : Coding} (reach : Reaches v source)
    (room : source.length + source.length / 255 + 16 ≤ capacity)
    (coded : Coded source (.nextMatch ref token, s)) :
    ∃ next, nextMatch v source capacity ref token s = some next ∧ Coded source next ∧
      left source next < left source (.nextMatch ref token, s) := by
  obtain ⟨⟨pos, pending⟩, matched⟩ := coded
  have four : minMatch = 4 := rfl
  have five : lastLiterals = 5 := rfl
  have twelve : mfLimit = 12 := rfl
  have earlier := matched.earlier
  have near := matched.reaches
  have early : s.ip + mfLimit ≤ source.length := by
    obtain ⟨newest, later, inside, -⟩ := matched.newest
    omega
  obtain ⟨c, count, counted⟩ := countMatch_spec source (ref + minMatch)
    (s.ip + minMatch) (by omega) (by omega)
  obtain ⟨repeats, entries⟩ := matched.counted counted
  have sequence := pending.sequence repeats
  have length : minMatch + c - minMatch = c := Nat.add_sub_cancel_left _ _
  rw [length, ← Nat.add_assoc] at sequence
  have ends := repeats.ends
  have few := sequence.few
  have place := pending.op_eq
  have offset : (((s.ip : Int) - ref) % 2 ^ 16).toNat = s.ip - ref := by omega
  have counted' : s.ip + minMatch + c - (s.ip + minMatch) = c := Nat.add_sub_cancel_left _ _
  rw [nextMatch, offset, put_eq (by rw [length_bytesLE]; omega)]
  simp only [Option.bind_eq_bind, Option.bind_some, count, counted']
  rw [encodeMatch_eq (by omega) (by omega)]
  simp only [Option.bind_some]
  have longer : s.ip + 4 ≤ s.ip + minMatch + c := by omega
  generalize s.ip + minMatch + c = e at *
  by_cases last : mflimit source < e
  · rw [if_pos last]
    refine ⟨_, rfl, ⟨sequence, by simp only; omega⟩, ?_⟩
    rw [left, left]
    omega
  · rw [mflimit] at last
    obtain ⟨h2, hash2⟩ := hashValue_total source v (e - 2) (by omega)
    obtain ⟨h0, hash0⟩ := hashValue_total source v e (by omega)
    obtain ⟨h1, hash1⟩ := hashValue_total source v (e + 1) (by omega)
    rw [mflimit, if_neg last, hash2, hash0, hash1]
    simp only [Option.bind_some]
    have entered : ∀ h, s.table.put h2 ((e - 2) % 2 ^ v.entryBits) h < e :=
      HashTable.put_lt (fun h => by have entry := entries h; omega)
        (Nat.lt_of_le_of_lt (Nat.mod_le _ _) (by omega))
    generalize s.table.put h2 ((e - 2) % 2 ^ v.entryBits) = table at entered
    have entered' : ∀ h, table.put h0 (e % 2 ^ v.entryBits) h < e + 1 :=
      HashTable.put_lt (fun h => Nat.lt_succ_of_lt (entered h))
        (Nat.lt_succ_of_le (Nat.mod_le _ _))
    have before := entered h0
    -- the next place is searched for a match, unless there is one right here
    have goOn : Coded source (.mainLoop h1, ⟨e + 1, e, s.op + 2 + (lengthBytes c).length,
        store (store (store s.dest s.op (bytesLE 2 (s.ip - ref))) token
          [store s.dest s.op (bytesLE 2 (s.ip - ref)) token + UInt8.ofNat (min c 15)])
            (s.op + 2) (lengthBytes c), table.put h0 (e % 2 ^ v.entryBits)⟩) :=
      ⟨sequence, rfl, by simp only; omega, entered'⟩
    cases close : v.near (table h0) e with
    | false =>
      refine ⟨_, rfl, goOn, ?_⟩
      rw [left, left]
      simp only
      omega
    | true =>
      obtain ⟨same, compared, iff⟩ := sameWord_spec source (table h0)
        e 4 (Nat.le_of_lt before) (by omega)
      have far := reach (table h0) e (by omega) close
      rw [if_pos rfl, compared, Option.bind_some]
      cases same with
      | false =>
        refine ⟨_, rfl, goOn, ?_⟩
        rw [left, left]
        simp only
        omega
      | true =>
        -- no literals come before it
        have pending' := sequence.literals (Nat.le_refl e) (by omega) (k := 0) (by omega)
        rw [Nat.sub_self, List.take_zero, store_nil] at pending'
        have matched' : Matched source (table h0) e (table.put h0 (e % 2 ^ v.entryBits)) := by
          refine ⟨before, far, e, Nat.le_refl _, by omega, ?_, entered'⟩
          rw [Nat.add_sub_cancel_left]
          exact iff.mp rfl
        rw [if_pos rfl, put_eq (by rw [List.length_singleton]; omega), Option.bind_some]
        refine ⟨_, rfl, ⟨⟨e, pending'⟩, matched'⟩, ?_⟩
        rw [left, left]
        simp only
        omega

theorem lastLiterals_spec {s : Coding}
    (room : source.length + source.length / 255 + 16 ≤ capacity)
    (written : Written source s.dest s.op s.anchor) (inside : s.anchor ≤ source.length) :
    ∃ (n : Nat) (m : Memory), lastLiteralsFrom source capacity s = some ((n : Int), m) ∧
      n ≤ source.length + source.length / 255 + 2 ∧ Encodes source 0 (read m 0 n) := by
  have few := written.few
  have least := length_lengthBytes_div (source.length - s.anchor)
  rw [lastLiteralsFrom, encodeRun_eq (by omega)]
  simp only [Option.bind_eq_bind, Option.bind_some]
  rw [copyIn, if_pos ⟨by omega, by omega⟩]
  refine ⟨_, _, rfl, by omega, ?_⟩
  have pending := written.literals inside (Nat.le_refl source.length) (Nat.le_refl _)
  have block := pending.written.begins _ (.last inside)
  rw [lastBytes, literalBytes, List.length_drop] at block
  rw [pending.bytes, List.take_length]
  exact block

/-- An answer of the encoder, with a block of the source before it. -/
def Block (source : List UInt8) (answer : Answer) : Prop :=
  ∃ (n : Nat) (m : Memory), answer = ((n : Int), m) ∧
    n ≤ source.length + source.length / 255 + 2 ∧ Encodes source 0 (read m 0 n)

theorem codeRound_spec {here : Label × Coding} (reach : Reaches v source)
    (room : source.length + source.length / 255 + 16 ≤ capacity) (coded : Coded source here) :
    (∃ next, codeRound v source capacity here = some (.again next) ∧ Coded source next ∧
        left source next < left source here) ∨
      ∃ answer, codeRound v source capacity here = some (.stop answer) ∧ Block source answer := by
  obtain ⟨label, s⟩ := here
  cases label with
  | mainLoop forwardH =>
    obtain ⟨next, goes, coded', less⟩ := mainLoop_spec reach room coded
    exact Or.inl ⟨next, by rw [codeRound, goes]; rfl, coded', less⟩
  | nextMatch ref token =>
    obtain ⟨next, goes, coded', less⟩ := nextMatch_spec reach room coded
    exact Or.inl ⟨next, by rw [codeRound, goes]; rfl, coded', less⟩
  | lastLiterals =>
    obtain ⟨n, m, ends, few, encodes⟩ := lastLiterals_spec room coded.1 coded.2
    exact Or.inr ⟨_, by rw [codeRound, ends]; rfl, n, m, rfl, few, encodes⟩

/-- The encoder returns, and what it has written is a block of the source. -/
theorem compressVariant_spec (reach : Reaches v source)
    (room : source.length + source.length / 255 + 16 ≤ capacity) (dest : Memory) :
    ∃ answer, compressVariant v source capacity dest = some answer ∧ Block source answer := by
  rw [compressVariant]
  by_cases tiny : source.length < minLength
  · rw [if_pos tiny]
    obtain ⟨n, m, ends, few, encodes⟩ := lastLiterals_spec
      (s := ⟨0, 0, 0, dest, fun _ => 0⟩) room (Written.start source dest) (Nat.zero_le _)
    exact ⟨_, ends, n, m, rfl, few, encodes⟩
  · have least : minLength = 13 := rfl
    have twelve : mfLimit = 12 := rfl
    obtain ⟨h0, hash0⟩ := hashValue_total source v 0 (by omega)
    obtain ⟨h1, hash1⟩ := hashValue_total source v 1 (by omega)
    have zeros : ∀ h, (if v.entersFirst then HashTable.put (fun _ => 0) h0 0 else fun _ => 0) h <
        1 := by
      intro h
      split
      · exact HashTable.put_lt (fun _ => Nat.one_pos) Nat.one_pos h
      · exact Nat.one_pos
    rw [if_neg tiny, hash0, hash1]
    simp only [Option.bind_eq_bind, Option.bind_some]
    apply loop_total (Coded source) (left source) fun _ coded => codeRound_spec reach room coded
    · exact ⟨Written.start source dest, rfl, by simp only; omega, zeros⟩
    · rw [left]
      simp only
      omega

/-- Whichever of the two encodes it, the destination has room. -/
theorem lz4Compress_spec (source : List UInt8)
    (room : source.length + source.length / 255 + 16 ≤ capacity) (dest : Memory) :
    ∃ answer, lz4Compress source capacity dest = some answer ∧ Block source answer := by
  rw [lz4Compress]
  split
  · next short => exact compressVariant_spec (reaches_ctx64k short) room dest
  · exact compressVariant_spec (reaches_ctx source) room dest

end Loop

theorem lz4CompressBound_eq {isize : Nat} {bound : Int}
    (sized : lz4CompressBound isize = some bound) :
    bound = (isize + isize / 255 + 16 : Nat) ∧ isize + isize / 255 + 16 < 2 ^ 31 := by
  have quotient : (isize : Int).tdiv 255 = (isize / 255 : Nat) := rfl
  rw [lz4CompressBound, quotient] at sized
  split at sized
  · next range =>
    obtain rfl := Option.some.inj sized
    constructor
    · omega
    · omega
  · cases sized

theorem lz4CompressBound_of_lt {isize : Nat} (small : isize + isize / 255 + 16 < 2 ^ 31) :
    lz4CompressBound isize = some ((isize + isize / 255 + 16 : Nat) : Int) := by
  have quotient : (isize : Int).tdiv 255 = (isize / 255 : Nat) := rfl
  have sum : (isize : Int) + (isize / 255 : Nat) + 16 = (isize + isize / 255 + 16 : Nat) := by
    omega
  rw [lz4CompressBound, quotient, sum]
  exact if_pos ⟨by omega, by omega⟩

/-- In a destination of the size that `LZ4_compressBound` gives, the encoder never writes outside,
nor reads outside the source, and leaves a block of the source there. -/
theorem lz4Compress_block {source : List UInt8} {bound : Int}
    (sized : lz4CompressBound source.length = some bound) (dest : Memory) :
    ∃ (n : Nat) (m : Memory), lz4Compress source bound.toNat dest = some ((n : Int), m) ∧
      n ≤ bound ∧ Encodes source 0 (read m 0 n) := by
  obtain ⟨rfl, -⟩ := lz4CompressBound_eq sized
  obtain ⟨_, encoded, n, m, rfl, few, block⟩ := lz4Compress_spec source
    (Nat.le_of_eq (Int.toNat_natCast _).symm) dest
  exact ⟨n, m, encoded, by omega, block⟩

/-- Twenty equal bytes. -/
theorem lz4Compress_block_short : ∃ (n : Nat) (m : Memory),
    lz4Compress (List.replicate 20 7) 36 (fun _ => 0) = some ((n : Int), m) ∧ n ≤ (36 : Int) ∧
      Encodes (List.replicate 20 7) 0 (read m 0 n) := by
  have sized : lz4CompressBound (List.replicate 20 (7 : UInt8)).length = some 36 := by decide
  exact lz4Compress_block sized _

/-- What the encoder makes of a source, the decoder takes back, into whatever buffer has room, and
whatever was in it. In a smaller one it gives up, or comes to its end with a repetition. -/
theorem lz4_round_trip {source : List UInt8} {bound : Int}
    (sized : lz4CompressBound source.length = some bound) (dest dest' : Memory)
    (maxOutputSize : Int) :
    ∃ (n : Nat) (m : Memory) (answer : Answer),
      lz4Compress source bound.toNat dest = some ((n : Int), m) ∧
      lz4UncompressUnknownOutputSize (read m 0 n) maxOutputSize dest' = some answer ∧
      (source.length ≤ maxOutputSize →
        answer.1 = source.length ∧ read answer.2 0 source.length = source) ∧
      (maxOutputSize < source.length → answer.1 < 0 ∨ answer.1 = maxOutputSize) := by
  obtain ⟨rfl, small⟩ := lz4CompressBound_eq sized
  obtain ⟨_, encoded, n, m, rfl, few, block⟩ := lz4Compress_spec source
    (Nat.le_of_eq (Int.toNat_natCast _).symm) dest
  obtain ⟨answer, decoded, fits, short⟩ := block.uncompress (by omega) maxOutputSize dest'
  exact ⟨n, m, answer, encoded, decoded, fits, short⟩

/-- The same, and a buffer of their size. -/
theorem lz4_round_trip_twenty : ∃ (n : Nat) (m : Memory) (answer : Answer),
    lz4Compress (List.replicate 20 7) 36 (fun _ => 0) = some ((n : Int), m) ∧
    lz4UncompressUnknownOutputSize (read m 0 n) 20 (fun _ => 1) = some answer ∧
    ((List.replicate 20 (7 : UInt8)).length ≤ (20 : Int) →
      answer.1 = (List.replicate 20 (7 : UInt8)).length ∧
        read answer.2 0 (List.replicate 20 (7 : UInt8)).length = List.replicate 20 7) ∧
    ((20 : Int) < (List.replicate 20 (7 : UInt8)).length → answer.1 < 0 ∨ answer.1 = 20) := by
  have sized : lz4CompressBound (List.replicate 20 (7 : UInt8)).length = some 36 := by decide
  exact lz4_round_trip sized _ _ 20

end Lz4RoundTrip
