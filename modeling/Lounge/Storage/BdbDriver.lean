import Lounge.Storage.ObjectStore
import Mathlib.Data.List.AList
import Mathlib.Data.List.Sort

/-!
# The Berkeley DB driver

`bdb-storage/ObjectStore-BDB.c`. The primary database is a finite map from key
bytes to record bytes; a transaction works on a copy of it that replaces the
original at the commit. What the environment decides (which call fails, what
memory holds that no one wrote) is an argument, `BdbCalls`, of each driver call.
-/

namespace BdbDriver
open FlatMemory LittleEndian ObjectStore

/-- How `db->get` fails, apart from `DB_NOTFOUND`. -/
inductive DbGetFailure where
  | lockNotGranted | other
  deriving DecidableEq

/-- The outcome of each fallible call of one driver function, and the bytes of memory
it did not write: `heap` behind and inside fresh blocks, `stack` in locals. -/
structure BdbCalls where
  txnBegin : Bool := true
  dbGet : Option DbGetFailure := none
  allocated : Bool := true
  seqGet : Bool := true
  dbPut : Bool := true
  txnCommit : Bool := true
  heap : Memory := fun _ => 0
  stack : Memory := fun _ => 0
  uninitSeq : UInt64 := 0

/-- No Berkeley DB call and no allocation fails. -/
structure BdbCalls.Succeed (c : BdbCalls) : Prop where
  txnBegin : c.txnBegin = true
  dbGet : c.dbGet = none
  allocated : c.allocated = true
  seqGet : c.seqGet = true
  dbPut : c.dbPut = true
  txnCommit : c.txnCommit = true

theorem BdbCalls.succeed_default : BdbCalls.Succeed {} := ⟨rfl, rfl, rfl, rfl, rfl, rfl⟩

abbrev BdbTable := AList fun _ : CString => List UInt8

/-- `seqNext` is the value the `DB_SEQUENCE` hands out next. -/
structure BdbStore where
  db : BdbTable
  seqNext : Nat

/-- After `open_store` on a fresh file: `initial_value(store->seq, 1)`. -/
def bdbEmpty : BdbStore := ⟨∅, 1⟩

/-- The last value of a `DB_SEQUENCE` without an explicit range, `INT64_MAX`. -/
def seqMax : Nat := 2 ^ 63 - 1

inductive TxnEnd where
  | committed | commitFailed | aborted
  deriving DecidableEq

/-- A driver call returned: the status, the store, the caller's object as it is now, and
how the transaction begun by the call was ended. -/
structure BdbPutReturn where
  result : LaStorageObjectPutResult
  store : BdbStore
  obj : LaStorageObject
  txnEnds : List TxnEnd

/-- The bytes `db->put` stores. The size goes through the DBT's `u_int32_t`. -/
def recordBytes (obj : LaStorageObject) : List UInt8 :=
  let size := obj.laStorageObjectTotalSize % 2 ^ 32
  (obj.header.bytes ++ read obj.revsData 0 (size - headerSize)).take size

/-- The object a driver builds around a record it fetched. -/
def objectOfValue (heap : Memory) (key : CString) (value : List UInt8) : LaStorageObject :=
  let m := load value heap
  let header := headerAt m
  { key := key
    header := header
    revsData := fun i => m (headerSize + i)
    alloc := value.length - headerSize
    dataLength := UInt32.ofNat value.length - UInt32.ofNat (16 * header.revCount.toNat) -
      UInt32.ofNat headerSize }

/-- A `DB_DBT_PARTIAL` read of the header into an uninitialised local. -/
def partialHeader (local_ : Memory) (value : List UInt8) : LaStorageObjectHeader :=
  headerAt (load (value.take headerSize) local_)

/-- `bdb_la_storage_get` with `obj` NULL or not. A requested revision is compared with the
local header, which is all zeros when the whole record is fetched. -/
def bdbLaStorageGet (c : BdbCalls) (s : BdbStore) (key : CString) (rev : Option LaStorageRev)
    (obj : Bool) : LaStorageObjectGetResult × Option LaStorageObject :=
  match c.dbGet with
  | some _ => (.error, none)
  | none =>
    match s.db.lookup key with
    | none => (.notFound, none)
    | some value =>
      let headerRev := if obj then zeroRev else (partialHeader (fun _ => 0) value).rev
      if rev.any (· != headerRev) then (.notFound, none)
      else if obj then (.ok, some (objectOfValue c.heap key value))
      else (.ok, none)

/-- `bdb_la_storage_get_all_revs`. The partial read covers the header and
`LA_OBJECT_MAX_REVISION_COUNT` revisions. -/
def bdbLaStorageGetAllRevs (c : BdbCalls) (s : BdbStore) (key : CString) : AllRevs :=
  match c.dbGet, s.db.lookup key with
  | none, some value =>
    let m := load (value.take (headerSize + 16 * laObjectMaxRevisionCount)) c.heap
    let header := headerAt m
    let count := header.revCount.toNat
    ⟨count, some header.docSeq, if c.allocated then some (revsAt m headerSize count) else none⟩
  | _, _ => ⟨-1, none, none⟩

/-- `sizeof(la_storage_rev_t) * (rev_count - 1)`: the `int` -1 becomes a `size_t`. -/
def shiftSize (revCount : BitVec 15) : Nat :=
  if revCount.toNat = 0 then 2 ^ 64 - 16 else 16 * (revCount.toNat - 1)

/-- The first half of what `bdb_la_storage_put` does to the object when it replaces a record
with header `header`: number it and, below the cap, move the document one revision up. -/
def growObject (c : BdbCalls) (header : LaStorageObjectHeader) (obj : LaStorageObject) :
    Option LaStorageObject :=
  let numbered := { obj.header with docSeq := header.docSeq + 1 }
  if header.revCount.toNat < laObjectMaxRevisionCount then
    if c.allocated then
      let alloc := obj.laStorageObjectTotalSize + 16 - headerSize
      let m := regrow obj.revsData (min obj.alloc alloc) c.heap
      some { obj with
        header := { numbered with revCount := header.revCount + 1 }
        revsData := move m (obj.dataOffset + 16) obj.dataOffset obj.dataLength.toNat
        alloc := alloc }
    else none
  else some { obj with header := numbered }

/-- The second half: move the history one revision up and copy the replaced revision in. -/
def insertRevision (rev : LaStorageRev) (obj : LaStorageObject) : Option LaStorageObject :=
  let n := shiftSize obj.header.revCount
  if maxCopy ≤ n then none
  else some { obj with revsData := store (move obj.revsData 16 0 n) 0 rev.rev }

def pushRevision (c : BdbCalls) (header : LaStorageObjectHeader) (obj : LaStorageObject) :
    Option LaStorageObject :=
  (growObject c header obj).bind (insertRevision header.rev)

/-- `store->seq->get`: the value delivered and the sequence behind it. -/
def seqGet (c : BdbCalls) (s : BdbStore) : UInt64 × Nat :=
  if c.seqGet && decide (s.seqNext ≤ seqMax) then (UInt64.ofNat s.seqNext, s.seqNext + 1)
  else (c.uninitSeq, s.seqNext)

/-- `bdb_la_storage_lastseq`; `stat` is whether `store->seq->stat` succeeds. -/
def bdbLaStorageLastseq (stat : Bool) (s : BdbStore) : UInt64 :=
  if stat then UInt64.ofNat s.seqNext else 0

/-- The common end of `bdb_la_storage_put` and `bdb_la_storage_replace`: number the
object, store it, commit. The results of `seq->get` and `commit` are not looked at. -/
def bdbWrite (c : BdbCalls) (s : BdbStore) (obj : LaStorageObject) : BdbPutReturn :=
  let seq := seqGet c s
  let obj := { obj with header := { obj.header with seq := seq.1 } }
  if !c.dbPut then ⟨.error, s, obj, [.aborted]⟩
  else if !c.txnCommit then ⟨.success, s, obj, [.commitFailed]⟩
  else ⟨.success, ⟨s.db.insert obj.key (recordBytes obj), seq.2⟩, obj, [.committed]⟩

/-- `bdb_la_storage_put`. -/
def bdbLaStoragePut (c : BdbCalls) (s : BdbStore) (rev : Option LaStorageRev)
    (obj : LaStorageObject) : Option BdbPutReturn :=
  if !c.txnBegin then some ⟨.error, s, obj, []⟩
  else
    match c.dbGet with
    | some .lockNotGranted => some ⟨.conflict, s, obj, [.aborted]⟩
    | some .other => some ⟨.error, s, obj, [.aborted]⟩
    | none =>
      match s.db.lookup obj.key with
      | some value =>
        let header := partialHeader c.stack value
        if rev = some header.rev then (pushRevision c header obj).map (bdbWrite c s)
        else some ⟨.conflict, s, obj, [.aborted]⟩
      | none =>
        some (bdbWrite c s { obj with header := { obj.header with docSeq := 1, revCount := 0 } })

/-- `bdb_la_storage_replace`. -/
def bdbLaStorageReplace (c : BdbCalls) (s : BdbStore) (obj : LaStorageObject) : BdbPutReturn :=
  if !c.txnBegin then ⟨.error, s, obj, []⟩ else bdbWrite c s obj

/-- What `bdb_la_storage_set_revs` writes back for a record: the document moved by `shift`
bytes, the new revisions over the old ones. The count in the header stays. -/
def setRevsValue (c : BdbCalls) (value : List UInt8) (revs : List LaStorageRev) : List UInt8 :=
  let object := objectOfValue c.heap ⟨[], List.not_mem_nil⟩ value
  let shift : Int := revs.length - object.header.revCount.toNat
  let size := ((value.length + shift) % 2 ^ 32).toNat
  let grown := regrow object.revsData (min object.alloc (size - headerSize)) c.heap
  let moved := move (if 0 < shift then grown else object.revsData)
    ((object.dataOffset + shift).toNat) object.dataOffset object.dataLength.toNat
  let filled := FlatMemory.store moved 0 (revs.flatMap LaStorageRev.rev)
  (object.header.bytes ++ read filled 0 (size - headerSize)).take size

/-- Whether `bdb_la_storage_set_revs` has to reallocate the record. -/
def setRevsGrows (c : BdbCalls) (value : List UInt8) (revs : List LaStorageRev) : Bool :=
  (headerAt (load value c.heap)).revCount.toNat < revs.length

/-- What `bdb_la_storage_set_revs` leaves behind. -/
structure BdbSetRevsReturn where
  result : LaStorageObjectPutResult
  store : BdbStore
  txnEnds : List TxnEnd

/-- `bdb_la_storage_set_revs`. A failed `realloc` returns without ending the transaction. -/
def bdbLaStorageSetRevs (c : BdbCalls) (s : BdbStore) (key : CString)
    (revs : List LaStorageRev) : BdbSetRevsReturn :=
  let revs := revs.take laObjectMaxRevisionCount
  if !c.txnBegin then ⟨.error, s, []⟩
  else
    match c.dbGet, s.db.lookup key with
    | some .lockNotGranted, _ => ⟨.conflict, s, [.aborted]⟩
    | some .other, _ => ⟨.error, s, [.aborted]⟩
    | none, none => ⟨.error, s, [.aborted]⟩
    | none, some value =>
      if setRevsGrows c value revs && !c.allocated then ⟨.error, s, []⟩
      else if !c.dbPut then ⟨.error, s, [.aborted]⟩
      else if !c.txnCommit then ⟨.success, s, [.commitFailed]⟩
      else ⟨.success, { s with db := s.db.insert key (setRevsValue c value revs) }, [.committed]⟩

/-- The key of the record that holds the store's `DB_SEQUENCE`. -/
def seqName : List UInt8 := [0, 83, 69, 81]

/-- The primary database as the secondary index sees it, the sequence record included. The
value of that record is Berkeley DB's own. -/
def bdbPrimary (s : BdbStore) : List (List UInt8 × List UInt8) :=
  (seqName, bytesLE 8 s.seqNext) :: s.db.entries.map fun e => (e.1.bytes, e.2)

/-- `seqindex` reads the first byte of the key, the terminator of an empty one, and does
not index a record where it is NUL. -/
def indexed (key : List UInt8) : Bool := key.headD 0 != 0

/-- The `seq` that `seqindex` takes from a record. -/
def seqOf (value : List UInt8) : Nat := natLE (value.take 8)

/-- The secondary index in the order of `compare_seq`. -/
def seqDb (s : BdbStore) : List (List UInt8 × List UInt8) :=
  ((bdbPrimary s).filter fun e => indexed e.1).insertionSort fun a b => seqOf a.2 ≤ seqOf b.2

/-- `keycpy`: a copy of the key with a terminator behind it. -/
def keycpy (key : List UInt8) : CString := CString.ofBytes key

/-- What the cursor's coming `pget` calls deliver; `none` is a failing call. -/
structure LaStorageObjectIterator where
  cursor : List (Option (List UInt8 × List UInt8))

/-- `bdb_la_storage_iterator_open`. `DB_SET` needs the exact key, and the next `DB_NEXT`
moves on from the entry it found. -/
def bdbLaStorageIteratorOpen (s : BdbStore) (since : UInt64) : Option LaStorageObjectIterator :=
  if since = 0 then some ⟨(seqDb s).map some⟩
  else
    match (seqDb s).dropWhile fun e => seqOf e.2 != since.toNat with
    | [] => none
    | _ :: rest => some ⟨rest.map some⟩

/-- The object of an entry. `heap` is the memory behind the block that the record of a key is
read into. -/
def entryObject (heap : CString → Memory) (e : List UInt8 × List UInt8) : LaStorageObject :=
  objectOfValue (heap (keycpy e.1)) (keycpy e.1) e.2

/-- `bdb_la_storage_iterator_next` with `obj` not NULL. -/
def bdbLaStorageIteratorNext (heap : CString → Memory) (it : LaStorageObjectIterator) :
    LaStorageObjectIteratorResult × Option LaStorageObject × LaStorageObjectIterator :=
  match it.cursor with
  | [] => (.iterEnd, none, it)
  | none :: rest => (.error, none, ⟨rest⟩)
  | some e :: rest => (.gotNext, some (entryObject heap e), ⟨rest⟩)

/-- `bdb_driver`, with the environment of the call. -/
def bdbDriver (c : BdbCalls) : LaObjectStoreDriver BdbStore where
  get := fun s key rev => bdbLaStorageGet c s key rev true
  getAllRevs := fun s key =>
    let r := bdbLaStorageGetAllRevs c s key
    (r.count, r.revs)
  put := fun s rev obj => (bdbLaStoragePut c s rev obj).map fun r => (r.result, r.store, r.obj)
  replace := fun s obj =>
    let r := bdbLaStorageReplace c s obj
    some (r.result, r.store, r.obj)

end BdbDriver
