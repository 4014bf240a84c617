import Lounge.Storage.BdbPut

/-!
# The history cap

`get_all_revs` reads a record up to the cap, and a put moves the history inside an object
that has room for the document and one revision. What a record and a put need for both to
stay inside their blocks.
-/

namespace BdbBounds
open FlatMemory ObjectStore BdbDriver BdbRecord BdbPut

/-- The number of revisions a record says it has. -/
def revCountOf (value : List UInt8) : Nat := (partialHeader (fun _ => 0) value).revCount.toNat

/-- A record with no more revisions than the cap, and with room for them. -/
structure Capped (value : List UInt8) : Prop where
  cap : revCountOf value ≤ laObjectMaxRevisionCount
  room : headerSize + 16 * revCountOf value ≤ value.length

/-- `bdb_la_storage_get_all_revs` copies no more than its partial read fetched. -/
def ReadsFetched (heap : Memory) (value : List UInt8) : Prop :=
  let fetched := value.take (headerSize + 16 * laObjectMaxRevisionCount)
  headerSize + 16 * (headerAt (load fetched heap)).revCount.toNat ≤ fetched.length

theorem headerAt_congr {m m' : Memory} (same : ∀ i < headerSize, m i = m' i) :
    headerAt m = headerAt m' := by
  have seq : read m 0 8 = read m' 0 8 := read_congr fun i _ h => same i (by rw [headerSize]; omega)
  have docSeq : read m 8 8 = read m' 8 8 :=
    read_congr fun i _ h => same i (by rw [headerSize]; omega)
  have flags : read m 16 2 = read m' 16 2 :=
    read_congr fun i _ h => same i (by rw [headerSize]; omega)
  have rev : read m 18 16 = read m' 18 16 :=
    read_congr fun i _ h => same i (by rw [headerSize]; omega)
  simp only [headerAt, revAt, seq, docSeq, flags, rev]

/-- A record of at least a header shows the same one through every read that fetches it. -/
theorem headerAt_take {value : List UInt8} (covers : headerSize ≤ value.length) {n : Nat}
    (enough : headerSize ≤ n) (heap local_ : Memory) :
    headerAt (load (value.take n) heap) = partialHeader local_ value := by
  apply headerAt_congr
  intro i hi
  rw [load_of_lt (by rw [List.length_take]; omega), load_of_lt (by rw [List.length_take]; omega),
    List.getElem_take, List.getElem_take]

theorem Capped.readsFetched {value : List UInt8} (capped : Capped value) (heap : Memory) :
    ReadsFetched heap value := by
  have covers : headerSize ≤ value.length := Nat.le_of_add_right_le capped.room
  have header := headerAt_take covers
    (Nat.le_add_right headerSize (16 * laObjectMaxRevisionCount)) heap fun _ => 0
  have cap := capped.cap
  have room := capped.room
  rw [ReadsFetched, header, List.length_take]
  rw [revCountOf] at cap room
  omega

/-- An object that is stored whole makes such a record. -/
theorem capped_recordBytes {o : LaStorageObject} (small : o.laStorageObjectTotalSize < 2 ^ 32)
    (cap : o.header.revCount.toNat ≤ laObjectMaxRevisionCount) : Capped (recordBytes o) := by
  have count : revCountOf (recordBytes o) = o.header.revCount.toNat := by
    rw [revCountOf, recordBytes_recordOf o small, partialHeader_docRecord, recordOf]
  constructor
  · rw [count]
    exact cap
  · rw [count, recordBytes_recordOf o small, DocRecord.length_bytes]
    simp only [recordOf, length_revsAt]
    omega

/-- The moves of a put that replaces a record with this header stay in the block of its object:
the document goes one revision up, the history too, the replaced revision comes first; and
`rev_count - 1` does not wrap. -/
def MovesInside (header : LaStorageObjectHeader) (obj : LaStorageObject) : Prop :=
  let alloc :=
    if header.revCount.toNat < laObjectMaxRevisionCount then
      obj.laStorageObjectTotalSize + 16 - headerSize
    else obj.alloc
  let count := (pushedCount header obj).toNat
  (header.revCount.toNat < laObjectMaxRevisionCount →
    obj.dataOffset + 16 + obj.dataLength.toNat ≤ alloc) ∧
    0 < count ∧ 16 + 16 * (count - 1) ≤ alloc

instance (header : LaStorageObjectHeader) (obj : LaStorageObject) :
    Decidable (MovesInside header obj) := by
  delta MovesInside
  infer_instance

/-- The block is made for one revision: the rest of the history has to fit over the document. -/
theorem movesInside_iff {header : LaStorageObjectHeader} {obj : LaStorageObject}
    (plain : obj.header.revCount.toNat = 0) :
    MovesInside header obj ↔ header.revCount.toNat < laObjectMaxRevisionCount ∧
      16 * header.revCount.toNat ≤ obj.dataLength.toNat := by
  by_cases below : header.revCount.toNat < laObjectMaxRevisionCount
  · have count := pushedCount_succ below obj
    simp only [MovesInside, below, if_true, count, LaStorageObject.dataOffset,
      LaStorageObject.laStorageObjectTotalSize, plain, forall_const, true_and, Nat.add_sub_cancel]
    omega
  · have count : (pushedCount header obj).toNat = 0 := by rw [pushedCount, if_neg below, plain]
    simp [MovesInside, below, count]

section Put
variable {c : BdbCalls} {s : BdbStore} {rev : Option LaStorageRev} {obj o : LaStorageObject}

/-- What a put of `length` document bytes needs: a record that a DBT can count, and over an
existing record of the named revision a free place in its history that fits over the document. -/
def putRoom (c : BdbCalls) (s : BdbStore) (key : CString) (rev : Option LaStorageRev)
    (length : Nat) : Bool :=
  match s.db.lookup key with
  | none => headerSize + length < 2 ^ 32
  | some value =>
    let header := partialHeader c.stack value
    rev != some header.rev ||
      (header.revCount.toNat < laObjectMaxRevisionCount && 16 * header.revCount.toNat ≤ length &&
        headerSize + 16 * (header.revCount.toNat + 1) + length < 2 ^ 32)

theorem movesInside_of_room (room : putRoom c s obj.key rev obj.dataLength.toNat = true)
    (plain : obj.header.revCount.toNat = 0) {value : List UInt8}
    (found : s.db.lookup obj.key = some value)
    (base : rev = some (partialHeader c.stack value).rev) :
    MovesInside (partialHeader c.stack value) obj := by
  simp only [putRoom, found, base, bne_self_eq_false, Bool.false_or, Bool.and_eq_true,
    decide_eq_true_eq] at room
  exact (movesInside_iff plain).mpr room.1

/-- The object that a put with room stores. -/
theorem Prepared.capped (prep : Prepared c s rev obj o)
    (room : putRoom c s obj.key rev obj.dataLength.toNat = true) :
    Capped (recordBytes (numbered c s o)) := by
  have length := prep.header.2.2
  cases prep with
  | created absent =>
    simp only [putRoom, absent, decide_eq_true_eq] at room
    apply capped_recordBytes
    · simp only [numbered, LaStorageObject.laStorageObjectTotalSize]
      simpa using room
    · simp [numbered]
  | updated value found base p pushed =>
    simp only [putRoom, found, base, bne_self_eq_false, Bool.false_or, Bool.and_eq_true,
      decide_eq_true_eq] at room
    obtain ⟨⟨below, _⟩, small⟩ := room
    have count : (numbered c s o).header.revCount.toNat =
        (partialHeader c.stack value).revCount.toNat + 1 := by
      obtain ⟨_, _, header, _⟩ := pushRevision_cases pushed
      simp only [numbered, header, pushedHeader_revCount]
      exact pushedCount_succ below obj
    have kept : (numbered c s o).dataLength = obj.dataLength := length
    apply capped_recordBytes
    · rw [LaStorageObject.laStorageObjectTotalSize, count, kept]
      exact small
    · rw [count]
      exact below

end Put

end BdbBounds
