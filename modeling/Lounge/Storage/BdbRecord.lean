import Lounge.Storage.BdbDriver

/-!
# Records as the driver lays them out

A `DocRecord` is a stored record taken apart: header, history and document. Its
`bytes` are what the driver stores and reads back, so `get` and `get_all_revs`
of such a record are known without looking at offsets again.
-/

namespace BdbRecord
open FlatMemory ObjectStore BdbDriver

/-- A record whose `rev_count` counts its history and whose size fits a DBT. -/
structure DocRecord where
  header : LaStorageObjectHeader
  history : List LaStorageRev
  body : List UInt8
  counted : header.revCount.toNat = history.length
  fits : headerSize + 16 * history.length + body.length < 2 ^ 32

def revBytes (revs : List LaStorageRev) : List UInt8 := revs.flatMap LaStorageRev.rev

@[simp] theorem length_revBytes (revs : List LaStorageRev) :
    (revBytes revs).length = 16 * revs.length := by
  induction revs with
  | nil => rfl
  | cons r rest ih =>
    have hr := r.length_eq
    simp only [revBytes, List.flatMap_cons, List.length_append, List.length_cons] at ih ⊢
    omega

def DocRecord.bytes (d : DocRecord) : List UInt8 :=
  d.header.bytes ++ revBytes d.history ++ d.body

theorem DocRecord.length_bytes (d : DocRecord) :
    d.bytes.length = headerSize + 16 * d.history.length + d.body.length := by
  simp [DocRecord.bytes, Nat.add_assoc]

theorem revAt_eq {m : Memory} {off : Nat} {r : LaStorageRev} (h : read m off 16 = r.rev) :
    revAt m off = r := by
  obtain ⟨bs, hbs⟩ := r
  simpa [revAt] using h

@[simp] theorem length_revsAt (m : Memory) (off n : Nat) : (revsAt m off n).length = n := by
  simp [revsAt]

theorem revsAt_succ (m : Memory) (off n : Nat) :
    revsAt m off (n + 1) = revAt m off :: revsAt m (off + 16) n := by
  simp only [revsAt, List.range_succ_eq_map, List.map_cons, List.map_map, Nat.mul_zero,
    Nat.add_zero, List.cons.injEq, true_and]
  apply List.map_congr_left
  intro i _
  simp only [Function.comp_apply]
  congr 1
  omega

/-- Revisions written one behind the other are read back one by one. -/
theorem revsAt_of_read {m : Memory} {off : Nat} {revs : List LaStorageRev}
    (h : read m off (16 * revs.length) = revBytes revs) : revsAt m off revs.length = revs := by
  induction revs generalizing off with
  | nil => rfl
  | cons r rest ih =>
    have hlen : 16 * (r :: rest).length = 16 + 16 * rest.length := by
      simp only [List.length_cons]
      omega
    rw [hlen, ← read_append] at h
    have hsplit : revBytes (r :: rest) = r.rev ++ revBytes rest := rfl
    rw [hsplit] at h
    obtain ⟨hfirst, hrest⟩ := List.append_inj h (by simp [r.length_eq])
    rw [List.length_cons, revsAt_succ, revAt_eq hfirst, ih hrest]

theorem read_congr_revsAt {m m' : Memory} {off off' n : Nat}
    (same : ∀ i, i < 16 * n → m (off + i) = m' (off' + i)) :
    revsAt m off n = revsAt m' off' n := by
  simp only [revsAt]
  apply List.map_congr_left
  intro i hi
  have hin : i < n := List.mem_range.mp hi
  have hread : read m (off + 16 * i) 16 = read m' (off' + 16 * i) 16 := by
    apply read_shift
    intro j hj
    simpa only [Nat.add_assoc] using same (16 * i + j) (by omega)
  simp [revAt, hread]

/-- The record of `key` begins with this header. -/
def StoredHeader (s : BdbStore) (key : CString) (h : LaStorageObjectHeader) : Prop :=
  ∃ tail, s.db.lookup key = some (h.bytes ++ tail)

theorem recordBytes_header {obj : LaStorageObject}
    (covers : headerSize ≤ obj.laStorageObjectTotalSize % 2 ^ 32) :
    ∃ tail, recordBytes obj = obj.header.bytes ++ tail := by
  rw [recordBytes]
  generalize obj.laStorageObjectTotalSize % 2 ^ 32 = size at covers ⊢
  refine ⟨read obj.revsData 0 (size - headerSize), ?_⟩
  apply List.take_of_length_le
  rw [List.length_append, length_header_bytes, length_read]
  omega

theorem partialHeader_bytes (local_ : Memory) (h : LaStorageObjectHeader) (tail : List UInt8) :
    partialHeader local_ (h.bytes ++ tail) = h := by
  have htake : (h.bytes ++ tail).take headerSize = h.bytes ++ [] := by simp
  rw [partialHeader, htake, headerAt_load]

section Stored
variable (d : DocRecord) (heap : Memory)

theorem headerAt_docRecord : headerAt (load d.bytes heap) = d.header := by
  simpa [DocRecord.bytes, List.append_assoc] using
    headerAt_load d.header (revBytes d.history ++ d.body) heap

/-- The partial read of the header sees the stored header. -/
theorem partialHeader_docRecord : partialHeader heap d.bytes = d.header := by
  have htake : d.bytes.take headerSize = d.header.bytes ++ [] := by
    simp [DocRecord.bytes]
  rw [partialHeader, htake, headerAt_load]

theorem read_history :
    read (load d.bytes heap) headerSize (16 * d.history.length) = revBytes d.history := by
  have h := read_load_append d.header.bytes (revBytes d.history) d.body heap headerSize
    (by simp)
  simpa [DocRecord.bytes] using h

theorem read_body :
    read (load d.bytes heap) (headerSize + 16 * d.history.length) d.body.length = d.body := by
  have h := read_load_append (d.header.bytes ++ revBytes d.history) d.body [] heap
    (headerSize + 16 * d.history.length) (by simp)
  simpa [DocRecord.bytes] using h

/-- The object a driver builds around a laid-out record shows its parts. -/
theorem objectOfValue_docRecord (key : CString) :
    let o := objectOfValue heap key d.bytes
    o.key = key ∧ o.header = d.header ∧ o.dataLength.toNat = d.body.length ∧
      o.laStorageObjectGetData = d.body ∧
      o.laStorageObjectGetAllRevs = d.header.rev :: d.history := by
  have hh : headerAt (load d.bytes heap) = d.header := headerAt_docRecord d heap
  have hc := d.counted
  have hf := d.fits
  have hlen : (objectOfValue heap key d.bytes).dataLength.toNat = d.body.length := by
    simp only [objectOfValue, hh, hc, d.length_bytes, headerSize] at hf ⊢
    simp [UInt32.toNat_sub, UInt32.toNat_ofNat']
    omega
  refine ⟨rfl, hh, hlen, ?_, ?_⟩
  · rw [LaStorageObject.laStorageObjectGetData, hlen]
    have hoff : (objectOfValue heap key d.bytes).dataOffset = 16 * d.history.length := by
      simp [LaStorageObject.dataOffset, objectOfValue, hh, hc]
    rw [hoff]
    refine Eq.trans (read_shift fun i _ => ?_) (read_body d heap)
    simp only [objectOfValue, Nat.add_assoc]
  · simp only [LaStorageObject.laStorageObjectGetAllRevs, objectOfValue, hh, hc]
    congr 1
    refine Eq.trans (read_congr_revsAt fun i _ => ?_) (revsAt_of_read (read_history d heap))
    simp only [Nat.zero_add]

/-- `get_all_revs` of a record within the cap: its document sequence and history. -/
theorem getAllRevs_docRecord (c : BdbCalls) (ok : c.Succeed) {s : BdbStore} {key : CString}
    (found : s.db.lookup key = some d.bytes)
    (cap : d.history.length ≤ laObjectMaxRevisionCount) :
    bdbLaStorageGetAllRevs c s key = ⟨d.history.length, some d.header.docSeq, some d.history⟩ := by
  set t := d.bytes.take (headerSize + 16 * laObjectMaxRevisionCount) with ht
  have hpre : t = d.header.bytes ++ revBytes d.history ++
      d.body.take (16 * laObjectMaxRevisionCount - 16 * d.history.length) := by
    rw [ht, DocRecord.bytes, List.take_append, List.take_of_length_le (by simp; omega)]
    congr 2
    simp
    omega
  have hh : headerAt (load t c.heap) = d.header := by
    rw [hpre, List.append_assoc]
    exact headerAt_load _ _ _
  have hr : read (load t c.heap) headerSize (16 * d.history.length) = revBytes d.history := by
    rw [hpre]
    simpa using read_load_append d.header.bytes (revBytes d.history)
      (d.body.take (16 * laObjectMaxRevisionCount - 16 * d.history.length)) c.heap
      headerSize (by simp)
  simp only [bdbLaStorageGetAllRevs, ok.dbGet, found, ok.allocated, ← ht, hh, d.counted,
    revsAt_of_read hr, if_true]

end Stored

/-- The bytes behind an object's header are a history and a document. -/
structure LaidOut (obj : LaStorageObject) (history : List LaStorageRev) (body : List UInt8) :
    Prop where
  counted : obj.header.revCount.toNat = history.length
  length : obj.dataLength.toNat = body.length
  content : read obj.revsData 0 (16 * history.length + body.length) = revBytes history ++ body

/-- A laid-out object that fits is stored as the record it describes. -/
theorem recordBytes_laidOut {obj : LaStorageObject} {d : DocRecord}
    (laid : LaidOut obj d.history d.body) (same : obj.header = d.header) :
    recordBytes obj = d.bytes := by
  have hf := d.fits
  have hsize : obj.laStorageObjectTotalSize % 2 ^ 32 =
      headerSize + 16 * d.history.length + d.body.length := by
    rw [LaStorageObject.laStorageObjectTotalSize, laid.counted, laid.length]
    exact Nat.mod_eq_of_lt hf
  rw [recordBytes, hsize]
  have hsub : headerSize + 16 * d.history.length + d.body.length - headerSize =
      16 * d.history.length + d.body.length := by omega
  simp only [hsub, laid.content, same]
  rw [List.take_of_length_le (by simp; omega), DocRecord.bytes, List.append_assoc]

theorem revBytes_revsAt (m : Memory) (off n : Nat) :
    revBytes (revsAt m off n) = read m off (16 * n) := by
  induction n generalizing off with
  | zero => rfl
  | succ n ih =>
    have hlen : 16 * (n + 1) = 16 + 16 * n := by omega
    have hcons : revBytes (revAt m off :: revsAt m (off + 16) n) =
        read m off 16 ++ revBytes (revsAt m (off + 16) n) := rfl
    rw [revsAt_succ, hcons, ih, hlen, read_append]

/-- Every object is laid out as what its accessors return. -/
theorem laidOut_self (obj : LaStorageObject) :
    LaidOut obj (revsAt obj.revsData 0 obj.header.revCount.toNat) obj.laStorageObjectGetData := by
  refine ⟨by simp, by simp [LaStorageObject.laStorageObjectGetData], ?_⟩
  rw [revBytes_revsAt, LaStorageObject.laStorageObjectGetData, length_revsAt, length_read,
    LaStorageObject.dataOffset, ← read_append, Nat.zero_add]

/-- What an object is laid out as is what its accessors return. -/
theorem LaidOut.parts {obj : LaStorageObject} {history : List LaStorageRev} {body : List UInt8}
    (laid : LaidOut obj history body) :
    revsAt obj.revsData 0 obj.header.revCount.toNat = history ∧
      obj.laStorageObjectGetData = body := by
  have content := laid.content
  rw [← read_append, Nat.zero_add] at content
  obtain ⟨hh, hb⟩ := List.append_inj content (by simp)
  rw [laid.counted, LaStorageObject.laStorageObjectGetData, LaStorageObject.dataOffset,
    laid.counted, laid.length]
  exact ⟨revsAt_of_read hh, hb⟩

/-- The record that an object of less than 4 GiB becomes. -/
def recordOf (obj : LaStorageObject) (fits : obj.laStorageObjectTotalSize < 2 ^ 32) :
    DocRecord where
  header := obj.header
  history := revsAt obj.revsData 0 obj.header.revCount.toNat
  body := obj.laStorageObjectGetData
  counted := by simp
  fits := by
    rw [length_revsAt, LaStorageObject.laStorageObjectGetData, length_read]
    exact fits

theorem recordBytes_recordOf (obj : LaStorageObject)
    (fits : obj.laStorageObjectTotalSize < 2 ^ 32) :
    recordBytes obj = (recordOf obj fits).bytes :=
  recordBytes_laidOut (laidOut_self obj) rfl

end BdbRecord
