import Lounge.Storage.BdbPut

/-!
# The layout of a new object

What `la_storage_create_object` promises of the block it fills: the accessors of
`ObjectStore.h` find in it what was given, in regions of their own. The number of
revisions goes through 15 bits, the copy of the history does not.
-/

namespace ObjectLayout
open FlatMemory ObjectStore BdbRecord BdbPut

/-- The block of an object from its header on. -/
def block (obj : LaStorageObject) : Memory :=
  load obj.header.bytes fun i => obj.revsData (i - headerSize)

/-- Where `rev` stands in the header. -/
def revOffset : Nat := 18

/-- The array that `la_storage_object_get_all_revs` returns: from `header->rev` on, one revision
more than `rev_count`. -/
def allRevsOf (obj : LaStorageObject) : List LaStorageRev :=
  revsAt (block obj) revOffset (obj.header.revCount.toNat + 1)

/-- A stretch of a block. -/
structure Region where
  start : Nat
  length : Nat

/-- One stretch ends where the other starts or before. -/
def Region.Before (a b : Region) : Prop := a.start + a.length ≤ b.start

/-- What `la_storage_create_object` writes: the header, `revcount` revisions, the data. -/
def regions (obj : LaStorageObject) (revcount : Nat) : List Region :=
  [⟨0, headerSize⟩, ⟨headerSize, 16 * revcount⟩,
    ⟨headerSize + obj.dataOffset, obj.dataLength.toNat⟩]

/-- The object shows the revision, the history and the data it was made of. -/
structure Shows (obj : LaStorageObject) (rev : LaStorageRev) (history : List LaStorageRev)
    (data : List UInt8) : Prop where
  current : obj.header.rev = rev
  allRevs : allRevsOf obj = rev :: history
  body : obj.laStorageObjectGetData = data
  apart : (regions obj history.length).Pairwise Region.Before
  total : obj.laStorageObjectTotalSize = headerSize + obj.alloc

/-- The call made an object that shows what it was given. -/
def LaysOut (made : Option (Option LaStorageObject)) (rev : LaStorageRev)
    (history : List LaStorageRev) (data : List UInt8) : Prop :=
  ∃ obj, made = some (some obj) ∧ Shows obj rev history data

/-- The history that an array pointer stands for, none behind NULL. -/
def historyOf (revs : Option (List LaStorageRev)) : List LaStorageRev := revs.getD []

/-- The current revision and the history behind it are one array. -/
theorem allRevsOf_eq (obj : LaStorageObject) :
    allRevsOf obj = obj.laStorageObjectGetAllRevs := by
  have rev : revAt (block obj) revOffset = obj.header.rev := by
    have header := headerAt_load obj.header [] fun i => obj.revsData (i - headerSize)
    rw [List.append_nil] at header
    exact congrArg LaStorageObjectHeader.rev header
  have history : revsAt (block obj) (revOffset + 16) obj.header.revCount.toNat =
      revsAt obj.revsData 0 obj.header.revCount.toNat := by
    apply read_congr_revsAt
    intro i _
    have beyond : obj.header.bytes.length ≤ headerSize + i := by
      rw [length_header_bytes]
      omega
    have edge : revOffset + 16 = headerSize := rfl
    simp only [edge, block, load, List.getD_eq_getElem?_getD, List.getElem?_eq_none beyond,
      Option.getD_none, Nat.add_sub_cancel_left, Nat.zero_add]
  rw [allRevsOf, revsAt_succ, rev, history, LaStorageObject.laStorageObjectGetAllRevs]

/-- The 15 bits of `rev_count` hold the whole history. -/
theorem Shows.few {obj : LaStorageObject} {rev : LaStorageRev} {history : List LaStorageRev}
    {data : List UInt8} (shows : Shows obj rev history data) : history.length < 2 ^ 15 := by
  have count := congrArg List.length shows.allRevs
  rw [allRevsOf, length_revsAt, List.length_cons] at count
  have := obj.header.revCount.isLt
  omega

/-- An object that is laid out as its history and data, in a block of that size. -/
theorem shows_of_laidOut {obj : LaStorageObject} {history : List LaStorageRev}
    {data : List UInt8} (laid : LaidOut obj history data)
    (owned : obj.alloc = 16 * history.length + data.length) :
    Shows obj obj.header.rev history data := by
  obtain ⟨revs, body⟩ := laid.parts
  have offset : obj.dataOffset = 16 * history.length := by
    rw [LaStorageObject.dataOffset, laid.counted]
  refine ⟨rfl, ?_, body, ?_, ?_⟩
  · rw [allRevsOf_eq, LaStorageObject.laStorageObjectGetAllRevs, revs]
  · simp only [regions, offset, List.pairwise_cons, List.mem_cons, Region.Before]
    simp
  · rw [LaStorageObject.laStorageObjectTotalSize, laid.counted, laid.length, owned]
    omega

/-- What the call makes of a history that fits, or of none at all. -/
theorem created_laidOut (heap : Memory) (key : CString) (rev : LaStorageRev) {data : List UInt8}
    {length : UInt32} (sized : data.length = length.toNat) {revs : Option (List LaStorageRev)}
    (few : (historyOf revs).length < 2 ^ 15) :
    ∃ obj, laStorageCreateObject true heap key rev data length revs (historyOf revs).length =
        some (some obj) ∧ obj.header.rev = rev ∧ LaidOut obj (historyOf revs) data ∧
      obj.alloc = 16 * (historyOf revs).length + data.length := by
  have small : data.length < 2 ^ 32 := by
    rw [sized]
    exact length.toNat_lt
  obtain rfl : length = UInt32.ofNat data.length := by rw [sized, UInt32.ofNat_toNat]
  have size : ((UInt32.ofNat data.length).toNat + (historyOf revs).length * 16) % 2 ^ 64 =
      16 * (historyOf revs).length + data.length := by
    rw [← sized]
    omega
  cases revs with
  | none =>
    obtain ⟨obj, made⟩ : ∃ obj, laStorageCreateObject true heap key rev data
        (UInt32.ofNat data.length) none 0 = some (some obj) := ⟨_, rfl⟩
    obtain ⟨-, header, laid, owned⟩ := createObject_plain small made
    exact ⟨obj, made, by rw [header], laid, by simpa [historyOf] using owned⟩
  | some history =>
    have copies : ¬ maxCopy ≤ history.length * 16 % 2 ^ 64 := by
      have : history.length < 2 ^ 15 := few
      rw [maxCopy]
      omega
    obtain ⟨obj, made, owned⟩ : ∃ obj, laStorageCreateObject true heap key rev data
        (UInt32.ofNat data.length) (some history) history.length = some (some obj) ∧
          obj.alloc = ((UInt32.ofNat data.length).toNat + history.length * 16) % 2 ^ 64 := by
      simp only [laStorageCreateObject, if_neg copies]
      exact ⟨_, rfl, rfl⟩
    obtain ⟨-, same, laid⟩ := createObject_history small few made
    exact ⟨obj, made, same, laid, owned.trans size⟩

/-- The object is laid out right exactly if the number of its revisions fits 15 bits. -/
theorem laysOut_iff (heap : Memory) (key : CString) (rev : LaStorageRev) {data : List UInt8}
    {length : UInt32} (sized : data.length = length.toNat) (revs : Option (List LaStorageRev)) :
    LaysOut (laStorageCreateObject true heap key rev data length revs (historyOf revs).length) rev
        (historyOf revs) data ↔
      (historyOf revs).length < 2 ^ 15 := by
  constructor
  · rintro ⟨obj, -, shows⟩
    exact shows.few
  · intro few
    obtain ⟨obj, made, rfl, laid, owned⟩ := created_laidOut heap key rev sized few
    exact ⟨obj, made, shows_of_laidOut laid owned⟩

/-- Two revisions behind the current one, and three bytes of data. -/
theorem laysOut_two :
    LaysOut (laStorageCreateObject true (fun _ => 170) (CString.ofBytes [97]) (uniformRev 3)
      [1, 2, 3] 3 (some [uniformRev 2, uniformRev 1]) 2) (uniformRev 3)
      [uniformRev 2, uniformRev 1] [1, 2, 3] :=
  have sized : [1, 2, 3].length = (3 : UInt32).toNat := rfl
  (laysOut_iff (fun _ => 170) (CString.ofBytes [97]) (uniformRev 3) sized
    (some [uniformRev 2, uniformRev 1])).mpr (by decide)

/-- With 32768 revisions the count is 0, and the data is written over the history. -/
theorem history_overwritten :
    ¬ LaysOut (laStorageCreateObject true (fun _ => 170) (CString.ofBytes [97]) (uniformRev 3)
      [1, 2, 3] 3 (some (List.replicate (2 ^ 15) (uniformRev 1))) (2 ^ 15)) (uniformRev 3)
      (List.replicate (2 ^ 15) (uniformRev 1)) [1, 2, 3] := by
  rintro ⟨obj, -, shows⟩
  have few := shows.few
  rw [List.length_replicate] at few
  exact absurd few (Nat.lt_irrefl _)

end ObjectLayout
