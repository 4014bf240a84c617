import Lounge.Lib.Process
import Lounge.Storage.ObjectStore
import Mathlib.Data.List.AList

/-!
# The SQLite driver

`sqlite-storage/ObjectStore-sqlite.c`. Threads that share a store share its handle and
the one transaction it can have open, so the driver functions that write are processes
that call the handle. How each call of a function ends is an argument, `SqliteCalls`.
-/

namespace SqliteDriver
open FlatMemory ObjectStore Process

/-- A row of `docs` without its id. -/
structure DocsRow where
  deleted : Bool
  rev : LaStorageRev
  oldrevs : List UInt8
  seq : Int64
  docSeq : Int64
  doc : List UInt8
  deriving DecidableEq

abbrev DocsTable := AList fun _ : CString => DocsRow

/-- `metaSeq` is the `seq` in the one row of `meta`. -/
structure SqliteTables where
  docs : DocsTable
  metaSeq : Nat

/-- After `initsql` on a fresh file. -/
def sqliteEmpty : SqliteTables := ⟨∅, 1⟩

/-- The largest `INTEGER`. A sum beyond it is a `REAL`, which reads back as this. -/
def integerMax : Nat := 2 ^ 63 - 1

/-- `INSERT OR REPLACE` and the `oninsert` trigger. `REPLACE` fires no delete trigger, as
`recursive_triggers` is off. -/
def SqliteTables.insertOrReplace (t : SqliteTables) (key : CString) (row : DocsRow) :
    SqliteTables :=
  ⟨t.docs.insert key row, min (t.metaSeq + 1) integerMax⟩

/-- `sqlite3 *`: the committed tables and, while a transaction is open, which call began it
and the tables as it has them. -/
structure Sqlite3 where
  committed : SqliteTables
  txn : Option (Nat × SqliteTables)

def freshHandle : Sqlite3 := ⟨sqliteEmpty, none⟩

/-- What a statement on the handle sees. -/
def Sqlite3.visible (h : Sqlite3) : SqliteTables := (h.txn.map Prod.snd).getD h.committed

/-- A write, to the open transaction or, outside of one, for good. -/
def Sqlite3.update (h : Sqlite3) (t : SqliteTables) : Sqlite3 :=
  match h.txn with
  | none => { h with committed := t }
  | some (who, _) => { h with txn := some (who, t) }

/-- How a call ends. Some errors end the open transaction as well. -/
inductive SqlOutcome where
  | ok | failed | rolledBack
  deriving DecidableEq

def Sqlite3.fail (h : Sqlite3) : SqlOutcome → Sqlite3
  | .rolledBack => { h with txn := none }
  | _ => h

/-- The calls that look at the tables or at the transaction. -/
inductive SqlCall where
  | begintxn (who : Nat) (outcome : SqlOutcome)
  | getseq (outcome : SqlOutcome)
  | getmeta (outcome : SqlOutcome) (key : CString)
  | putdoc (outcome : SqlOutcome) (key : CString) (row : DocsRow)
  | endtxn (outcome : SqlOutcome)
  | rollback (outcome : SqlOutcome)

/-- `sqlite3_step` on a query by id. -/
inductive RowReply where
  | row (row : DocsRow)
  | done
  | error

/-- What comes back: the column or row, or whether the call succeeded. -/
abbrev SqlReply : SqlCall → Type
  | .getseq _ => Option UInt64
  | .getmeta .. => RowReply
  | _ => Bool

/-- How the handle answers. A transaction inside a transaction is refused. -/
def serveSql : Server SqlCall SqlReply Sqlite3
  | .begintxn who outcome, h =>
    if outcome = .ok ∧ h.txn.isNone then
      some (true, { h with txn := some (who, h.committed) })
    else some (false, h)
  | .getseq outcome, h =>
    if outcome = .ok then some (some (UInt64.ofNat h.visible.metaSeq), h)
    else some (none, h.fail outcome)
  | .getmeta outcome key, h =>
    if outcome = .ok then some ((h.visible.docs.lookup key).elim .done .row, h)
    else some (.error, h.fail outcome)
  | .putdoc outcome key row, h =>
    if outcome = .ok then some (true, h.update (h.visible.insertOrReplace key row))
    else some (false, h.fail outcome)
  | .endtxn outcome, h =>
    match h.txn with
    | none => some (false, h)
    | some (_, t) =>
      if outcome = .ok then some (true, ⟨t, none⟩) else some (false, h.fail outcome)
  | .rollback outcome, h =>
    match h.txn with
    | none => some (false, h)
    | some _ =>
      if outcome = .ok then some (true, { h with txn := none }) else some (false, h.fail outcome)

/-- How the calls of one driver function end, and the memory it gets from `malloc`. -/
structure SqliteCalls where
  begintxn : SqlOutcome := .ok
  prepareGetseq : Bool := true
  getseq : SqlOutcome := .ok
  prepareGetmeta : Bool := true
  bindGetmeta : Bool := true
  getmeta : SqlOutcome := .ok
  allocated : Bool := true
  preparePutdoc : Bool := true
  bindPutdoc : Nat → Bool := fun _ => true
  putdoc : SqlOutcome := .ok
  endtxn : SqlOutcome := .ok
  rollback : SqlOutcome := .ok
  heap : Memory := fun _ => 0

structure SqlitePutReturn where
  result : LaStorageObjectPutResult
  obj : LaStorageObject

abbrev PutProc := Proc SqlCall SqlReply SqlitePutReturn

/-- The row that `putdoc` is bound to. -/
def rowOf (obj : LaStorageObject) : DocsRow where
  deleted := obj.header.deleted
  rev := obj.header.rev
  oldrevs := read obj.revsData 0 (16 * obj.header.revCount.toNat)
  seq := obj.header.seq.toInt64
  docSeq := obj.header.docSeq.toInt64
  doc := obj.laStorageObjectGetData

/-- `ROLLBACK`, whatever comes of it, and return. -/
def rollbackReturn (c : SqliteCalls) (result : LaStorageObjectPutResult) (obj : LaStorageObject) :
    PutProc :=
  .call (.rollback c.rollback) fun _ => .done ⟨result, obj⟩

/-- The seven columns are bound. A document of 2 GiB has a negative length as an `int`. -/
def bindsPutdoc (c : SqliteCalls) (obj : LaStorageObject) : Bool :=
  (List.range' 1 7).all c.bindPutdoc && decide (obj.dataLength.toNat < 2 ^ 31)

/-- After `putdoc`: `COMMIT`, what it returns is not looked at. -/
def insertedReturn (c : SqliteCalls) (obj : LaStorageObject) (inserted : Bool) : PutProc :=
  if inserted then .call (.endtxn c.endtxn) fun _ => .done ⟨.success, obj⟩
  else rollbackReturn c .error obj

/-- The common end of `sqlite_la_storage_put` and `sqlite_la_storage_replace`. -/
def putdocReturn (c : SqliteCalls) (obj : LaStorageObject) : PutProc :=
  if !c.preparePutdoc || !bindsPutdoc c obj then rollbackReturn c .error obj
  else .call (.putdoc c.putdoc obj.key (rowOf obj)) (insertedReturn c obj)

/-- The revisions that fit below the cap when one is added. -/
def grownCount (oldrevs : List UInt8) : Nat :=
  if oldrevs.length / 16 < laObjectMaxRevisionCount then oldrevs.length / 16 + 1
  else oldrevs.length / 16

/-- `obj` with the new `rev_count`, before its block is reallocated. -/
def countedObject (row : DocsRow) (obj : LaStorageObject) : LaStorageObject :=
  { obj with header := { obj.header with revCount := BitVec.ofNat 15 (grownCount row.oldrevs) } }

/-- What `sqlite_la_storage_put` makes of the object to replace `row`: the document moved
behind the new history, the old history copied in behind the replaced revision. -/
def pushRow (heap : Memory) (row : DocsRow) (obj : LaStorageObject) : LaStorageObject :=
  let counted := countedObject row obj
  let alloc := counted.laStorageObjectTotalSize - headerSize
  let grown := regrow obj.revsData (min obj.alloc alloc) heap
  let moved := move grown counted.dataOffset obj.dataOffset obj.dataLength.toNat
  let copied := store moved 16 (row.oldrevs.take (laObjectMaxRevisionCount * 16))
  { counted with revsData := store copied 0 row.rev.rev, alloc := alloc }

/-- After `getmeta`: compare the base, push the row, store. -/
def comparedReturn (c : SqliteCalls) (rev : Option LaStorageRev) (obj : LaStorageObject)
    (seq : UInt64) : RowReply → PutProc
  | .error => rollbackReturn c .error obj
  | .done => putdocReturn c { obj with header := { obj.header with revCount := 0, seq := seq } }
  | .row row =>
    if rev ≠ some row.rev then rollbackReturn c .conflict obj
    else if !c.allocated then rollbackReturn c .error (countedObject row obj)
    else
      let pushed := pushRow c.heap row obj
      putdocReturn c { pushed with header := { pushed.header with seq := seq } }

/-- After `getseq`. -/
def numberedReturn (c : SqliteCalls) (rev : Option LaStorageRev) (obj : LaStorageObject) :
    Option UInt64 → PutProc
  | none => rollbackReturn c .error obj
  | some seq =>
    if !c.prepareGetmeta || !c.bindGetmeta then rollbackReturn c .error obj
    else .call (.getmeta c.getmeta obj.key) (comparedReturn c rev obj seq)

/-- `sqlite_la_storage_put`. What `BEGIN` returns is not looked at, and a `getseq` that cannot
be prepared is an early return. -/
def sqliteLaStoragePut (who : Nat) (c : SqliteCalls) (rev : Option LaStorageRev)
    (obj : LaStorageObject) : PutProc :=
  .call (.begintxn who c.begintxn) fun _ =>
    if !c.prepareGetseq then .done ⟨.error, obj⟩
    else .call (.getseq c.getseq) (numberedReturn c rev obj)

/-- `sqlite_la_storage_replace`. -/
def sqliteLaStorageReplace (who : Nat) (c : SqliteCalls) (obj : LaStorageObject) : PutProc :=
  .call (.begintxn who c.begintxn) fun begun =>
    if begun then putdocReturn c obj else .done ⟨.error, obj⟩

/-- The values of `la_storage_object_get_result`. -/
def getResultValue : LaStorageObjectGetResult → Int
  | .ok => 0
  | .notFound => 1
  | .revisionNotFound => 2
  | .error => 3

/-- `sqlite_la_storage_get_all_revs`. It returns a status; the current revision stands at
`*revs` and the old ones 16 revisions further on, past the end of the block. -/
def sqliteLaStorageGetAllRevs (c : SqliteCalls) (h : Sqlite3) (key : CString) : AllRevs :=
  if !c.prepareGetmeta || !c.bindGetmeta then ⟨getResultValue .error, none, none⟩
  else
    match c.getmeta, h.visible.docs.lookup key with
    | .ok, some row =>
      if !c.allocated then ⟨getResultValue .error, none, none⟩
      else
        let block := store (load row.rev.rev c.heap) (16 * 16) row.oldrevs
        ⟨getResultValue .ok, some row.docSeq.toUInt64,
          some (revsAt block 0 (getResultValue .ok).toNat)⟩
    | _, _ => ⟨getResultValue .notFound, none, none⟩

/-- `sqlite_la_storage_lastseq`. -/
def sqliteLaStorageLastseq (c : SqliteCalls) (h : Sqlite3) : UInt64 :=
  if c.prepareGetseq && decide (c.getseq = .ok) then UInt64.ofNat h.visible.metaSeq else 0

/-- What the coming `sqlite3_step` calls deliver; `none` is a failing call. SQL leaves the
order of the rows open. -/
structure SqliteIterator where
  rows : List (Option (CString × DocsRow))

/-- `sqlite_la_storage_iterator_open`; `prepared` and `bound` are how its calls end. -/
def sqliteLaStorageIteratorOpen (allocated prepared bound : Bool) (h : Sqlite3) (since : UInt64) :
    Option SqliteIterator :=
  let rows := h.visible.docs.entries.map fun e => (e.1, e.2)
  if !allocated || !prepared then none
  else if 0 < since then
    if bound then some ⟨(rows.filter fun r => since.toInt64 ≤ r.2.seq).map some⟩ else none
  else some ⟨rows.map some⟩

/-- The object that `sqlite_la_storage_get` and `sqlite_la_storage_iterator_next` build from a
row. The length of `oldrevs` in bytes is taken for the number of revisions; `heap` is the
memory of the new block and behind the column. -/
def rowObject (heap : Memory) (key : CString) (row : DocsRow) : LaStorageObject :=
  let bytes := row.oldrevs.length
  let count := BitVec.ofNat 15 bytes
  let copied := store heap 0 (read (load row.oldrevs heap) 0 (bytes * 16))
  { key := key
    header := ⟨row.seq.toUInt64, row.docSeq.toUInt64, row.deleted, count, row.rev⟩
    revsData := store copied (16 * count.toNat) row.doc
    alloc := bytes * 16 + row.doc.length
    dataLength := UInt32.ofNat row.doc.length }

/-- `sqlite_la_storage_iterator_next` with `obj` not NULL. -/
def sqliteLaStorageIteratorNext (heap : CString → Memory) (it : SqliteIterator) :
    LaStorageObjectIteratorResult × Option LaStorageObject × SqliteIterator :=
  match it.rows with
  | [] => (.iterEnd, none, it)
  | none :: rest => (.error, none, ⟨rest⟩)
  | some r :: rest => (.gotNext, some (rowObject (heap r.1) r.1 r.2), ⟨rest⟩)

end SqliteDriver
