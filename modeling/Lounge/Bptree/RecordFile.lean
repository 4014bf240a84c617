import Lounge.Lib.FlatMemory
import Lounge.Lib.LittleEndian
import Mathlib.Data.List.TakeDrop

/-!
# Records in a file

`file_append`, `file_append_md5` and `file_read` of `bptree/file.c`. A record is a packed header,
the MD5 of the term if it has one, and the term. A write that has written something is taken for
a failed one.
-/

namespace RecordFile
open FlatMemory LittleEndian

/-- `FileError`, and the -1 that `file_read` returns for a term it cannot read. -/
inductive FileError where
  | success | shortRead | seekError | readError | writeError | corruption | memoryError | minusOne
  deriving DecidableEq

/-- `FileTerm`, of a reader. -/
structure FileTerm where
  data : Option Memory
  length : UInt64

/-- `struct RecordHeader`: a bit, and the length in the other 31. -/
def recordHeader (hasMd5 : Bool) (length : Nat) : List UInt8 :=
  bytesLE 4 (hasMd5.toNat + 2 * (length % 2 ^ 31))

/-- Seeking to the end and `writev`, which writes as many bytes as it returns, or fails. -/
def appendRecord (seeks : Bool) (written : Option Nat) (file record : List UInt8) :
    FileError × List UInt8 :=
  if !seeks then (.seekError, file)
  else
    match written with
    | none => (.writeError, file)
    | some n =>
      (if min n record.length ≠ 0 then .writeError else .success, file ++ record.take n)

/-- `file_append`. -/
def fileAppend (seeks : Bool) (written : Option Nat) (file term : List UInt8) :
    FileError × List UInt8 :=
  appendRecord seeks written file (recordHeader false term.length ++ term)

/-- `file_append_md5`. -/
def fileAppendMd5 (seeks : Bool) (written : Option Nat) (file term md5 : List UInt8) :
    FileError × List UInt8 :=
  appendRecord seeks written file (recordHeader true term.length ++ md5 ++ term)

/-- What a read meets: whether seeking succeeds, and the block from `malloc`. -/
structure ReadCalls where
  seeks : Bool
  malloc : Option Memory

/-- `fread` of one item of `n` bytes, and what is left. There is no item of no bytes. -/
def fread (bytes : List UInt8) (n : Nat) : Option (List UInt8 × List UInt8) :=
  if n = 0 ∨ bytes.length < n then none else some (bytes.take n, bytes.drop n)

/-- The block that a term is read to, and how much of it. -/
def readBuffer (c : ReadCalls) (length : Nat) (term : FileTerm) : Option (Memory × UInt64) :=
  match term.data with
  | none => c.malloc.map fun block => (block, UInt64.ofNat length)
  | some data =>
    some (data, if UInt64.ofNat length < term.length then UInt64.ofNat length else term.length)

/-- The part of `file_read` behind the header and the digest. The MD5 is that of as many bytes as
the record has, whatever has been read. -/
def readTerm (md5 : List UInt8 → List UInt8) (c : ReadCalls) (length : Nat)
    (digest : Option (List UInt8)) (bytes : List UInt8) (term : FileTerm) :
    FileError × FileTerm :=
  match readBuffer c length term with
  | none => (.memoryError, ⟨none, UInt64.ofNat length⟩)
  | some (data, n) =>
    let data := store data 0 (bytes.take n.toNat)
    if (fread bytes n.toNat).isNone then (.minusOne, ⟨some data, n⟩)
    else if digest.any (· ≠ md5 (read data 0 length)) then (.corruption, ⟨some data, n⟩)
    else if n < UInt64.ofNat length then (.shortRead, ⟨some data, UInt64.ofNat length⟩)
    else (.success, ⟨some data, n⟩)

/-- `file_read`. -/
def fileRead (md5 : List UInt8 → List UInt8) (c : ReadCalls) (file : List UInt8) (offset : Nat)
    (term : FileTerm) : FileError × FileTerm :=
  if !c.seeks then (.seekError, term)
  else
    match fread (file.drop offset) 4 with
    | none => (.readError, term)
    | some (header, bytes) =>
      if natLE header % 2 = 1 then
        match fread bytes 16 with
        | none => (.readError, term)
        | some (digest, bytes) => readTerm md5 c (natLE header / 2) (some digest) bytes term
      else readTerm md5 c (natLE header / 2) none bytes term

/-- The record of a term, with its MD5 or without. -/
def recordOf (md5 : List UInt8 → List UInt8) (checked : Bool) (term : List UInt8) : List UInt8 :=
  recordHeader checked term.length ++ (if checked then md5 term else []) ++ term

/-- Appending a term, with its MD5 or without. -/
def append (md5 : List UInt8 → List UInt8) (checked seeks : Bool) (written : Option Nat)
    (file term : List UInt8) : FileError × List UInt8 :=
  if checked then fileAppendMd5 seeks written file term (md5 term)
  else fileAppend seeks written file term

/-- Success is reported exactly where the whole record was written. -/
def AppendRight (file record : List UInt8) (ret : FileError × List UInt8) : Prop :=
  ret.1 = .success ↔ ret.2 = file ++ record

/-- The reader gets the term, or the part that its buffer holds, and the length. -/
structure ReadRight (bytes : List UInt8) (term : FileTerm) (ret : FileError × FileTerm) :
    Prop where
  length : ret.2.length.toNat = bytes.length
  whole : term.data = none ∨ bytes.length ≤ term.length.toNat →
    ret.1 = .success ∧ ∃ data, ret.2.data = some data ∧ read data 0 bytes.length = bytes
  short : term.data ≠ none → term.length.toNat < bytes.length →
    ret.1 = .shortRead ∧ ∃ data, ret.2.data = some data ∧
      read data 0 term.length.toNat = bytes.take term.length.toNat

/-- There is something to read and room for it; if only for a part, then the digest is not looked
at, or what lies behind the buffer does not spoil it. -/
structure Readable (md5 : List UInt8 → List UInt8) (c : ReadCalls) (checked : Bool)
    (bytes : List UInt8) (term : FileTerm) : Prop where
  seeks : c.seeks = true
  nonempty : bytes ≠ []
  room : term.data = none → c.malloc ≠ none
  part : ∀ data, term.data = some data → term.length.toNat < bytes.length →
    0 < term.length.toNat ∧ (checked = true →
      md5 (read (store data 0 (bytes.take term.length.toNat)) 0 bytes.length) = md5 bytes)

section Facts
variable {md5 : List UInt8 → List UInt8} {checked : Bool} {bytes : List UInt8}

theorem append_eq (md5 : List UInt8 → List UInt8) (checked seeks : Bool) (written : Option Nat)
    (file term : List UInt8) :
    append md5 checked seeks written file term =
      appendRecord seeks written file (recordOf md5 checked term) := by
  cases checked <;> simp [append, fileAppend, fileAppendMd5, recordOf]

theorem natLE_recordHeader {length : Nat} (short : length < 2 ^ 31) (hasMd5 : Bool) :
    natLE (recordHeader hasMd5 length) = hasMd5.toNat + 2 * length := by
  have bit := Bool.toNat_le hasMd5
  rw [recordHeader, Nat.mod_eq_of_lt short, natLE_bytesLE_of_lt (by omega)]

theorem fread_append {item : List UInt8} (nonempty : item ≠ []) (rest : List UInt8) :
    fread (item ++ rest) item.length = some (item, rest) := by
  have positive := List.length_pos_iff.mpr nonempty
  rw [fread, if_neg (by rw [List.length_append]; omega), List.take_left, List.drop_left]

/-- At the offset of a record the reader comes to its term. -/
theorem fileRead_record (digest : ∀ bs, (md5 bs).length = 16) (short : bytes.length < 2 ^ 31)
    (c : ReadCalls) (before later : List UInt8) (term : FileTerm) :
    fileRead md5 c (before ++ recordOf md5 checked bytes ++ later) before.length term =
      if c.seeks then
        readTerm md5 c bytes.length (if checked then some (md5 bytes) else none) (bytes ++ later)
          term
      else (.seekError, term) := by
  have header : (recordHeader checked bytes.length).length = 4 := length_bytesLE 4 _
  have some : recordHeader checked bytes.length ≠ [] := by
    rw [← List.length_pos_iff, header]
    decide
  have split : (before ++ recordOf md5 checked bytes ++ later).drop before.length =
      recordHeader checked bytes.length ++
        ((if checked then md5 bytes else []) ++ (bytes ++ later)) := by
    simp [recordOf, List.append_assoc]
  have first := fread_append some ((if checked then md5 bytes else []) ++ (bytes ++ later))
  rw [header] at first
  rw [fileRead, split, first]
  simp only [natLE_recordHeader short]
  cases c.seeks with
  | false => simp
  | true =>
    cases checked with
    | false =>
      have even : (2 * bytes.length) % 2 = 0 := by omega
      simp [even]
    | true =>
      have odd : (1 + 2 * bytes.length) % 2 = 1 := by omega
      have half : (1 + 2 * bytes.length) / 2 = bytes.length := by omega
      have nonempty : md5 bytes ≠ [] := by
        rw [← List.length_pos_iff, digest]
        decide
      have second := fread_append nonempty (bytes ++ later)
      rw [digest] at second
      simp [odd, half, second]

theorem toNat_length (short : bytes.length < 2 ^ 31) :
    (UInt64.ofNat bytes.length).toNat = bytes.length :=
  UInt64.toNat_ofNat_of_lt' (Nat.lt_trans short (by decide))

/-- A reader opens no more than the record has. -/
theorem readBuffer_le (short : bytes.length < 2 ^ 31) {c : ReadCalls} {term : FileTerm}
    {data : Memory} {n : UInt64} (opened : readBuffer c bytes.length term = some (data, n)) :
    n.toNat = bytes.length ∨
      term.data = some data ∧ n = term.length ∧ term.length.toNat < bytes.length := by
  have length := toNat_length short
  obtain ⟨target, size⟩ := term
  cases target with
  | none =>
    obtain ⟨block, -, same⟩ := Option.map_eq_some_iff.mp opened
    exact Or.inl ((congrArg (UInt64.toNat ·.2) same).symm.trans length)
  | some buf =>
    simp only [readBuffer, Option.some.injEq, Prod.mk.injEq] at opened
    obtain ⟨rfl, rfl⟩ := opened
    simp only [UInt64.lt_iff_toNat_lt, length]
    split <;> rename_i larger
    · exact Or.inl length
    · rcases Nat.lt_or_eq_of_le (Nat.not_lt.mp larger) with less | same
      · exact Or.inr ⟨trivial, rfl, less⟩
      · exact Or.inl same

/-- What is made of a term, once there is a buffer for it. Nothing depends on what lies behind
the record. -/
theorem readTerm_of_buffer (md5 : List UInt8 → List UInt8) (short : bytes.length < 2 ^ 31)
    {c : ReadCalls} {term : FileTerm} {data : Memory} {n : UInt64}
    (opened : readBuffer c bytes.length term = some (data, n))
    (digest : Option (List UInt8)) (later : List UInt8) :
    readTerm md5 c bytes.length digest (bytes ++ later) term =
      if n.toNat = 0 then (.minusOne, ⟨some (store data 0 (bytes.take n.toNat)), n⟩)
      else if digest.any
          (· ≠ md5 (read (store data 0 (bytes.take n.toNat)) 0 bytes.length)) then
        (.corruption, ⟨some (store data 0 (bytes.take n.toNat)), n⟩)
      else if n.toNat < bytes.length then
        (.shortRead, ⟨some (store data 0 (bytes.take n.toNat)), UInt64.ofNat bytes.length⟩)
      else (.success, ⟨some (store data 0 (bytes.take n.toNat)), n⟩) := by
  have length := toNat_length short
  have inside : n.toNat ≤ bytes.length := by
    rcases readBuffer_le short opened with whole | ⟨-, rfl, part⟩ <;> omega
  have cut : (bytes ++ later).take n.toNat = bytes.take n.toNat :=
    List.take_append_of_le_length inside
  have item : (fread (bytes ++ later) n.toNat).isNone = decide (n.toNat = 0) := by
    by_cases none : n.toNat = 0
    · simp [fread, none]
    · rw [fread, if_neg (by rw [List.length_append]; omega)]
      simp [none]
  simp only [readTerm, opened, cut, item, UInt64.lt_iff_toNat_lt, length, decide_eq_true_eq]

/-- What lies behind the record does not matter. -/
theorem readTerm_append (short : bytes.length < 2 ^ 31) (c : ReadCalls)
    (digest : Option (List UInt8)) (later : List UInt8) (term : FileTerm) :
    readTerm md5 c bytes.length digest (bytes ++ later) term =
      readTerm md5 c bytes.length digest bytes term := by
  cases opened : readBuffer c bytes.length term with
  | none => simp only [readTerm, opened]
  | some buffer =>
    have alone := readTerm_of_buffer md5 short opened digest []
    rw [List.append_nil] at alone
    rw [alone, readTerm_of_buffer md5 short opened]

/-- A reader is right only if it reports one of the two. -/
theorem ReadRight.reported {term : FileTerm} {ret : FileError × FileTerm}
    (right : ReadRight bytes term ret) : ret.1 = .success ∨ ret.1 = .shortRead := by
  by_cases whole : term.data = none ∨ bytes.length ≤ term.length.toNat
  · exact Or.inl (right.whole whole).1
  · rw [not_or] at whole
    exact Or.inr (right.short whole.1 (by omega)).1

/-- The digest of a record that was read whole is its own. -/
theorem digest_whole (checked : Bool) (data : Memory) :
    (if checked then some (md5 bytes) else none).any
      (· ≠ md5 (read (store data 0 bytes) 0 bytes.length)) = false := by
  rw [read_store_self]
  cases checked <;> simp

/-- With a buffer for all of it the term is read, unless there is nothing to read. -/
theorem readTerm_whole (short : bytes.length < 2 ^ 31) {c : ReadCalls} {term : FileTerm}
    {data : Memory} {n : UInt64} (opened : readBuffer c bytes.length term = some (data, n))
    (all : n.toNat = bytes.length) (room : term.data = none ∨ bytes.length ≤ term.length.toNat) :
    ReadRight bytes term
        (readTerm md5 c bytes.length (if checked then some (md5 bytes) else none) bytes term) ↔
      bytes ≠ [] := by
  have answer := readTerm_of_buffer md5 short opened
    (if checked then some (md5 bytes) else none) []
  rw [List.append_nil, all, List.take_length, digest_whole] at answer
  rw [answer]
  by_cases none : bytes = []
  · subst none
    refine ⟨fun right => ?_, fun some => absurd rfl some⟩
    rcases right.reported with done | done <;> cases done
  · have positive : ¬bytes.length = 0 := by rwa [List.length_eq_zero_iff]
    rw [if_neg positive, if_neg (by simp), if_neg (Nat.lt_irrefl _)]
    refine ⟨fun _ => none, fun _ => ⟨all, fun _ => ?_, fun given less => ?_⟩⟩
    · exact ⟨rfl, _, rfl, read_store_self _ _ _⟩
    · exact absurd (room.resolve_left given) (by omega)

/-- With a shorter buffer the part is read, unless there is no room, or the digest is compared to
that of something else. -/
theorem readTerm_part (short : bytes.length < 2 ^ 31) {c : ReadCalls} {term : FileTerm}
    {data : Memory} (given : term.data = some data) (less : term.length.toNat < bytes.length) :
    ReadRight bytes term
        (readTerm md5 c bytes.length (if checked then some (md5 bytes) else none) bytes term) ↔
      0 < term.length.toNat ∧ (checked = true →
        md5 (read (store data 0 (bytes.take term.length.toNat)) 0 bytes.length) = md5 bytes) := by
  have length := toNat_length short
  have opened : readBuffer c bytes.length term = some (data, term.length) := by
    rw [readBuffer, given]
    simp only [UInt64.lt_iff_toNat_lt, length]
    rw [if_neg (by omega)]
  have answer := readTerm_of_buffer md5 short opened
    (if checked then some (md5 bytes) else none) []
  rw [List.append_nil] at answer
  rw [answer]
  by_cases empty : term.length.toNat = 0
  · rw [if_pos empty]
    refine ⟨fun right => ?_, fun some => absurd some.1 (by omega)⟩
    rcases right.reported with done | done <;> cases done
  · rw [if_neg empty]
    by_cases spoiled : (if checked then some (md5 bytes) else none).any
        (· ≠ md5 (read (store data 0 (bytes.take term.length.toNat)) 0 bytes.length)) = true
    · rw [if_pos spoiled]
      refine ⟨fun right => ?_, fun fine => ?_⟩
      · rcases right.reported with done | done <;> cases done
      · cases checked with
        | false => simp at spoiled
        | true => simp [fine.2 rfl] at spoiled
    · rw [if_neg spoiled, if_pos less]
      refine ⟨fun _ => ⟨by omega, fun summed => ?_⟩, fun _ => ⟨length, fun room => ?_, ?_⟩⟩
      · subst summed
        by_contra differs
        exact spoiled (by simpa using fun same => differs same.symm)
      · rcases room with none | enough
        · rw [given] at none
          cases none
        · omega
      · intro _ _
        refine ⟨rfl, _, rfl, ?_⟩
        have cut : (bytes.take term.length.toNat).length = term.length.toNat := by
          rw [List.length_take]
          omega
        have copied := read_store_self data 0 (bytes.take term.length.toNat)
        rwa [cut] at copied

/-- Without a buffer the term is read to a block of its own. -/
theorem readTerm_null (short : bytes.length < 2 ^ 31) {c : ReadCalls} {term : FileTerm}
    (given : term.data = none) :
    ReadRight bytes term
        (readTerm md5 c bytes.length (if checked then some (md5 bytes) else none) bytes term) ↔
      bytes ≠ [] ∧ c.malloc ≠ none := by
  cases block : c.malloc with
  | none =>
    have failed : readBuffer c bytes.length term = none := by
      rw [readBuffer, given, block]
      rfl
    simp only [readTerm, failed]
    refine ⟨fun right => ?_, fun some => absurd rfl some.2⟩
    rcases right.reported with done | done <;> cases done
  | some data =>
    have opened : readBuffer c bytes.length term = some (data, UInt64.ofNat bytes.length) := by
      rw [readBuffer, given, block]
      rfl
    rw [readTerm_whole short opened (toNat_length short) (Or.inl given)]
    exact ⟨fun some => ⟨some, by simp⟩, And.left⟩

/-- With a buffer that is long enough the term is read to it. -/
theorem readTerm_given (short : bytes.length < 2 ^ 31) {c : ReadCalls} {term : FileTerm}
    {data : Memory} (given : term.data = some data) (enough : bytes.length ≤ term.length.toNat) :
    ReadRight bytes term
        (readTerm md5 c bytes.length (if checked then some (md5 bytes) else none) bytes term) ↔
      bytes ≠ [] := by
  obtain ⟨n, opened⟩ : ∃ n, readBuffer c bytes.length term = some (data, n) := by
    rw [readBuffer, given]
    exact ⟨_, rfl⟩
  have all : n.toNat = bytes.length := by
    rcases readBuffer_le short opened with all | ⟨-, -, part⟩
    · exact all
    · exact absurd part (Nat.not_lt.mpr enough)
  exact readTerm_whole short opened all (Or.inr enough)

/-- A record is read right exactly if it is readable. -/
theorem fileRead_right_iff (digest : ∀ bs, (md5 bs).length = 16) (short : bytes.length < 2 ^ 31)
    (c : ReadCalls) (before later : List UInt8) (term : FileTerm) :
    ReadRight bytes term
        (fileRead md5 c (before ++ recordOf md5 checked bytes ++ later) before.length term) ↔
      Readable md5 c checked bytes term := by
  rw [fileRead_record digest short]
  cases seeks : c.seeks with
  | false =>
    refine ⟨fun right => ?_, fun readable => ?_⟩
    · rcases right.reported with done | done <;> cases done
    · rw [readable.seeks] at seeks
      cases seeks
  | true =>
    rw [if_pos rfl, readTerm_append short]
    cases given : term.data with
    | none =>
      rw [readTerm_null short given]
      refine ⟨fun fine => ⟨seeks, fine.1, fun _ => fine.2, fun buf here => ?_⟩,
        fun readable => ⟨readable.nonempty, readable.room given⟩⟩
      rw [given] at here
      cases here
    | some data =>
      by_cases less : term.length.toNat < bytes.length
      · rw [readTerm_part short given less]
        constructor
        · intro fine
          refine ⟨seeks, List.length_pos_iff.mp (by omega), by simp [given], ?_⟩
          intro buf here _
          obtain rfl := Option.some.inj (given.symm.trans here)
          exact fine
        · exact fun readable => readable.part data given less
      · rw [readTerm_given short given (Nat.not_lt.mp less)]
        refine ⟨fun some => ⟨seeks, some, by simp [given], ?_⟩, Readable.nonempty⟩
        exact fun _ _ shorter => absurd shorter less

/-- Whether a record was written is reported right only where it is clear: for a failed seek or
write, and for a part of the record. -/
theorem appendRecord_right_iff (seeks : Bool) (written : Option Nat) (file : List UInt8)
    {record : List UInt8} (nonempty : record ≠ []) :
    AppendRight file record (appendRecord seeks written file record) ↔
      seeks = false ∨ ∀ n ∈ written, 0 < n ∧ n < record.length := by
  have positive := List.length_pos_iff.mpr nonempty
  cases seeks with
  | false => simp [AppendRight, appendRecord, nonempty]
  | true =>
    cases written with
    | none => simp [AppendRight, appendRecord, nonempty]
    | some n =>
      have written : file ++ record.take n = file ++ record ↔ record.length ≤ n := by
        rw [List.append_cancel_left_eq, List.take_eq_self_iff]
      have reported : (if min n record.length ≠ 0 then FileError.writeError else .success) =
          .success ↔ n = 0 := by
        by_cases none : n = 0
        · simp [none]
        · rw [if_pos (by omega)]
          simp [none]
      show ((if min n record.length ≠ 0 then FileError.writeError else .success) = .success ↔
        file ++ record.take n = file ++ record) ↔ _
      rw [written, reported]
      simp only [Option.mem_def, Option.some.injEq, forall_eq', Bool.true_eq_false, false_or]
      omega

/-- Appending leaves what is there. -/
theorem appendRecord_extends (seeks : Bool) (written : Option Nat) (file record : List UInt8) :
    ∃ extra, (appendRecord seeks written file record).2 = file ++ extra := by
  cases seeks with
  | false => exact ⟨[], (List.append_nil _).symm⟩
  | true =>
    cases written with
    | none => exact ⟨[], (List.append_nil _).symm⟩
    | some n => exact ⟨record.take n, rfl⟩

end Facts

/-- Appending a term reports rightly exactly where it is clear from the result of `writev`; the
written record is read back exactly if it is readable, and every earlier one is read as before. -/
theorem record_file_iff {md5 : List UInt8 → List UInt8} (digest : ∀ bs, (md5 bs).length = 16)
    (checked : Bool) {bytes : List UInt8} (short : bytes.length < 2 ^ 31) (file : List UInt8) :
    (∀ seeks written,
      AppendRight file (recordOf md5 checked bytes)
          (append md5 checked seeks written file bytes) ↔
        seeks = false ∨ ∀ n ∈ written, 0 < n ∧ n < (recordOf md5 checked bytes).length) ∧
    (∀ c later term,
      ReadRight bytes term
          (fileRead md5 c (file ++ recordOf md5 checked bytes ++ later) file.length term) ↔
        Readable md5 c checked bytes term) ∧
    ∀ seeks written before earlier summed between, earlier.length < 2 ^ 31 →
      file = before ++ recordOf md5 summed earlier ++ between → ∀ c term,
        fileRead md5 c (append md5 checked seeks written file bytes).2 before.length term =
          fileRead md5 c file before.length term := by
  refine ⟨fun seeks written => ?_, fun c later term => ?_, ?_⟩
  · have header : recordHeader checked bytes.length ≠ [] := by
      rw [← List.length_pos_iff, recordHeader, length_bytesLE]
      decide
    rw [append_eq]
    exact appendRecord_right_iff seeks written file (by simp [recordOf, header])
  · exact fileRead_right_iff digest short c file later term
  · intro seeks written before earlier summed between few here c term
    obtain ⟨extra, extended⟩ := appendRecord_extends seeks written file
      (recordOf md5 checked bytes)
    rw [append_eq, extended, here, List.append_assoc _ between, fileRead_record digest few,
      fileRead_record digest few, readTerm_append few, readTerm_append few]

/-- The MD5 of `a`; any other text has none here. -/
def md5OfA (bs : List UInt8) : List UInt8 :=
  if bs = [97] then
    [0x0c, 0xc1, 0x75, 0xb9, 0xc0, 0xf1, 0xb6, 0xa8, 0x31, 0xc3, 0x99, 0xe2, 0x69, 0x77, 0x26, 0x61]
  else List.replicate 16 0

theorem length_md5OfA (bs : List UInt8) : (md5OfA bs).length = 16 := by
  rw [md5OfA]
  split <;> rfl

/-- `a` is read back, with its MD5. -/
theorem letter_read_back :
    ReadRight [97] ⟨none, 0⟩
      (fileRead md5OfA ⟨true, some fun _ => 0⟩ (recordOf md5OfA true [97]) 0 ⟨none, 0⟩) :=
  ((record_file_iff length_md5OfA true (by decide) []).2.1 ⟨true, some fun _ => 0⟩ [] ⟨none, 0⟩).mpr
    ⟨rfl, by decide, fun _ => by simp, fun _ here => by cases here⟩

/-- Its record is written whole, and the result is a failed write. -/
theorem whole_write_fails :
    ¬AppendRight [] (recordOf md5OfA true [97])
      (append md5OfA true true (some 21) [] [97]) := by
  intro right
  exact absurd (right.mpr (by decide)) (by decide)

end RecordFile
