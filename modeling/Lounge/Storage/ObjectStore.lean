import Lounge.Lib.CString
import Lounge.Lib.FlatMemory
import Lounge.Lib.LittleEndian

/-!
# Storage objects

The object layout and the driver interface of `Storage/ObjectStore.h`, and the
functions of `Storage/ObjectStore.c` that work on objects and revision lists.
An object is one block: a packed 34-byte header, the revision history, the
document bytes. The bytes behind the header are a flat memory, so the offset
arithmetic of the callers is the arithmetic of the C code.
-/

namespace ObjectStore
open FlatMemory LittleEndian

/-- `LA_OBJECT_REVISION_LEN`. -/
def laObjectRevisionLen : Nat := 16

/-- `LA_OBJECT_MAX_REVISION_COUNT`. -/
def laObjectMaxRevisionCount : Nat := 1024

/-- `la_storage_rev_t`. -/
structure LaStorageRev where
  rev : List UInt8
  length_eq : rev.length = 16
  deriving DecidableEq

/-- `la_storage_object_header` without its flexible array. -/
structure LaStorageObjectHeader where
  seq : UInt64
  docSeq : UInt64
  deleted : Bool
  revCount : BitVec 15
  rev : LaStorageRev
  deriving DecidableEq

/-- `sizeof(la_storage_object_header)`, packed. -/
def headerSize : Nat := 34

/-- `la_storage_object`. `revsData` is the memory from `header->revs_data` on, of
which `alloc` bytes belong to the block. -/
structure LaStorageObject where
  key : CString
  header : LaStorageObjectHeader
  revsData : Memory
  alloc : Nat
  dataLength : UInt32

inductive LaStorageObjectGetResult where
  | ok | notFound | revisionNotFound | error
  deriving DecidableEq

inductive LaStorageObjectPutResult where
  | success | conflict | error
  deriving DecidableEq

inductive LaStorageObjectIteratorResult where
  | gotNext | iterEnd | error
  deriving DecidableEq

/-- The revision at an offset of a block. -/
def revAt (m : Memory) (off : Nat) : LaStorageRev := ⟨read m off 16, by simp⟩

/-- `n` consecutive revisions. -/
def revsAt (m : Memory) (off n : Nat) : List LaStorageRev :=
  (List.range n).map fun i => revAt m (off + 16 * i)

/-- Sixteen times the same byte. -/
def uniformRev (b : UInt8) : LaStorageRev := ⟨List.replicate 16 b, by simp⟩

def zeroRev : LaStorageRev := uniformRev 0

/-- The header in memory. `deleted` and `rev_count` share one little-endian
16-bit unit, `deleted` in its lowest bit. -/
def LaStorageObjectHeader.bytes (h : LaStorageObjectHeader) : List UInt8 :=
  bytesLE 8 h.seq.toNat ++ bytesLE 8 h.docSeq.toNat ++
    bytesLE 2 (h.deleted.toNat + 2 * h.revCount.toNat) ++ h.rev.rev

/-- The header a pointer to `m` shows. -/
def headerAt (m : Memory) : LaStorageObjectHeader where
  seq := UInt64.ofNat (natLE (read m 0 8))
  docSeq := UInt64.ofNat (natLE (read m 8 8))
  deleted := natLE (read m 16 2) % 2 == 1
  revCount := BitVec.ofNat 15 (natLE (read m 16 2) / 2)
  rev := revAt m 18

@[simp] theorem length_header_bytes (h : LaStorageObjectHeader) :
    h.bytes.length = headerSize := by
  simp [LaStorageObjectHeader.bytes, headerSize, h.rev.length_eq]

/-- What was written as a header is read back, whatever follows it. -/
theorem headerAt_load (h : LaStorageObjectHeader) (tail : List UInt8) (rest : Memory) :
    headerAt (load (h.bytes ++ tail) rest) = h := by
  obtain ⟨seq, docSeq, deleted, revCount, rev⟩ := h
  set s := bytesLE 8 seq.toNat with hs
  set d := bytesLE 8 docSeq.toNat with hd
  set f := bytesLE 2 (deleted.toNat + 2 * revCount.toNat) with hf
  have ls : s.length = 8 := by simp [hs]
  have ld : d.length = 8 := by simp [hd]
  have lf : f.length = 2 := by simp [hf]
  have split : LaStorageObjectHeader.bytes ⟨seq, docSeq, deleted, revCount, rev⟩ ++ tail =
      s ++ d ++ f ++ rev.rev ++ tail := rfl
  have rs : read (load (s ++ d ++ f ++ rev.rev ++ tail) rest) 0 8 = s := by
    simpa [ls, List.append_assoc] using
      read_load_append [] s (d ++ f ++ rev.rev ++ tail) rest 0 rfl
  have rd : read (load (s ++ d ++ f ++ rev.rev ++ tail) rest) 8 8 = d := by
    simpa [ld, List.append_assoc] using
      read_load_append s d (f ++ rev.rev ++ tail) rest 8 ls.symm
  have rf : read (load (s ++ d ++ f ++ rev.rev ++ tail) rest) 16 2 = f := by
    simpa [lf, List.append_assoc] using
      read_load_append (s ++ d) f (rev.rev ++ tail) rest 16 (by simp [ls, ld])
  have rr : read (load (s ++ d ++ f ++ rev.rev ++ tail) rest) 18 16 = rev.rev := by
    simpa [rev.length_eq, List.append_assoc] using
      read_load_append (s ++ d ++ f) rev.rev tail rest 18 (by simp [ls, ld, lf])
  have ns : natLE s = seq.toNat := natLE_bytesLE_of_lt (by have := seq.toNat_lt; omega)
  have nd : natLE d = docSeq.toNat := natLE_bytesLE_of_lt (by have := docSeq.toNat_lt; omega)
  have hb : deleted.toNat ≤ 1 := Bool.toNat_le deleted
  have nf : natLE f = deleted.toNat + 2 * revCount.toNat :=
    natLE_bytesLE_of_lt (by have := revCount.isLt; omega)
  simp only [headerAt, split, rs, rd, rf, revAt, rr, ns, nd, nf]
  have hdiv : (deleted.toNat + 2 * revCount.toNat) / 2 = revCount.toNat := by omega
  have hmod : ((deleted.toNat + 2 * revCount.toNat) % 2 == 1) = deleted := by
    cases deleted <;> simp
  simp only [hdiv, hmod, UInt64.ofNat_toNat, BitVec.ofNat_toNat, BitVec.setWidth_eq]

namespace LaStorageObject

/-- Where `la_storage_object_get_data` points, as an offset into `revs_data`. -/
def dataOffset (obj : LaStorageObject) : Nat := 16 * obj.header.revCount.toNat

/-- The document bytes, `data_length` bytes from `la_storage_object_get_data` on. -/
def laStorageObjectGetData (obj : LaStorageObject) : List UInt8 :=
  read obj.revsData obj.dataOffset obj.dataLength.toNat

/-- `la_storage_object_total_size`, a `size_t`. -/
def laStorageObjectTotalSize (obj : LaStorageObject) : Nat :=
  headerSize + 16 * obj.header.revCount.toNat + obj.dataLength.toNat

/-- `la_storage_object_get_all_revs`: the current revision and the ones behind it. -/
def laStorageObjectGetAllRevs (obj : LaStorageObject) : List LaStorageRev :=
  obj.header.rev :: revsAt obj.revsData 0 obj.header.revCount.toNat

end LaStorageObject

/-- No object is this large, so a copy of this many bytes leaves the address space. -/
def maxCopy : Nat := 2 ^ 63

/-- `la_storage_create_object`. `revs` is the array `revs` points to, if it is not
NULL, and `heap` what `malloc` memory behind the block holds. The outer `none` is a
trapping copy, the inner one a failed allocation. -/
def laStorageCreateObject (allocated : Bool) (heap : Memory) (key : CString) (rev : LaStorageRev)
    (data : List UInt8) (length : UInt32) (revs : Option (List LaStorageRev)) (revcount : Nat) :
    Option (Option LaStorageObject) :=
  if !allocated then some none
  else
    let alloc := (length.toNat + revcount * 16) % 2 ^ 64
    let block := load (List.replicate alloc 0) heap
    let header : LaStorageObjectHeader := ⟨0, 0, false, 0, rev⟩
    match revs with
    | none =>
      some (some ⟨key, header, store block 0 (data.take length.toNat), alloc, length⟩)
    | some history =>
      if maxCopy ≤ revcount * 16 % 2 ^ 64 then none
      else
        let count := BitVec.ofNat 15 revcount
        let copied := store block 0 ((history.take revcount).flatMap LaStorageRev.rev)
        some (some ⟨key, { header with revCount := count },
          store copied (16 * count.toNat) (data.take length.toNat), alloc, length⟩)

/-- `la_storage_revs_overlap`. `memcmp` over whole revisions compares two windows of
the lists; the loop index stays below `count2 - 1`. -/
def laStorageRevsOverlap (revs1 revs2 : List LaStorageRev) : Bool :=
  (List.range (revs2.length - 1)).any fun i =>
    let n := min revs1.length (revs2.length - i)
    revs1.take n == (revs2.drop i).take n

/-- What `get_all_revs` returns and stores through its pointers. -/
structure AllRevs where
  count : Int
  start : Option UInt64
  revs : Option (List LaStorageRev)

/-- The part of `la_object_store_driver_t` that the API layer calls. `put` and
`replace` return the object as the driver left it; `none` is a trap. -/
structure LaObjectStoreDriver (σ : Type) where
  get : σ → CString → Option LaStorageRev → LaStorageObjectGetResult × Option LaStorageObject
  getAllRevs : σ → CString → Int × Option (List LaStorageRev)
  put : σ → Option LaStorageRev → LaStorageObject →
    Option (LaStorageObjectPutResult × σ × LaStorageObject)
  replace : σ → LaStorageObject → Option (LaStorageObjectPutResult × σ × LaStorageObject)

end ObjectStore
