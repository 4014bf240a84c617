import Lounge.Lib.Runs
import Lounge.Storage.BdbChains
import Lounge.Storage.SqlitePut

/-!
# One interface, two drivers

The same puts go to a Berkeley DB store and to a SQLite store, and nothing fails underneath.
The drivers return the same statuses and store the same revisions. They number documents
differently, and what they return for the revisions of a key never is the same.
-/

namespace DriversAgree
open FlatMemory ObjectStore BdbDriver BdbRecord BdbPut BdbChains Process SqliteDriver SqlitePut Runs

/-- A put of an object without history that no call under either driver fails. SQLite binds no
document of 2 GiB. -/
structure QuietPut where
  key : CString
  base : Option LaStorageRev
  version : Version
  deleted : Bool
  bdb : BdbCalls
  sqlite : SqliteCalls
  block : Memory
  small : version.data.length < 2 ^ 31
  bdbSucceeds : bdb.Succeed
  sqliteSucceeds : Succeed sqlite

/-- The object, with its `deleted` bit set as `do_la_db_put` sets it. -/
def QuietPut.object (p : QuietPut) : Option LaStorageObject :=
  (plainObject p.block p.key p.version).map fun obj =>
    { obj with header := { obj.header with deleted := p.deleted } }

structure Stores where
  bdb : BdbStore
  sqlite : Sqlite3

def emptyStores : Stores := ⟨bdbEmpty, freshHandle⟩

/-- Both drivers put the object: the two statuses, unless a driver crashes. -/
def putBoth (s : Stores) (p : QuietPut) :
    Option (LaStorageObjectPutResult × LaStorageObjectPutResult) × Stores :=
  match p.object with
  | none => (none, s)
  | some obj =>
    match bdbLaStoragePut p.bdb s.bdb p.base obj,
      run serveSql (sqliteLaStoragePut 0 p.sqlite p.base obj) s.sqlite with
    | some b, some q => (some (b.result, q.1.result), ⟨b.store, q.2⟩)
    | _, _ => (none, s)

/-- Revision, document number and deleted bit of a record. -/
abbrev Stamp := LaStorageRev × UInt64 × Bool

def bdbStamp (s : BdbStore) (key : CString) : Option Stamp :=
  (s.db.lookup key).map fun value =>
    let header := partialHeader (fun _ => 0) value
    (header.rev, header.docSeq, header.deleted)

def sqliteStamp (h : Sqlite3) (key : CString) : Option Stamp :=
  (h.visible.docs.lookup key).map fun row => (row.rev, row.docSeq.toUInt64, row.deleted)

/-- The promise of one interface, for a sequence of puts on empty stores. -/
structure Agree (puts : List QuietPut) : Prop where
  statuses : ∀ e ∈ events putBoth emptyStores puts, ∃ result, e.output = some (result, result)
  stamps : ∀ key, bdbStamp (final putBoth emptyStores puts).bdb key =
    sqliteStamp (final putBoth emptyStores puts).sqlite key
  allRevs : ∀ key (c : BdbCalls) (c' : SqliteCalls), c.Succeed → Succeed c' →
    bdbLaStorageGetAllRevs c (final putBoth emptyStores puts).bdb key =
      sqliteLaStorageGetAllRevs c' (final putBoth emptyStores puts).sqlite key

/-- What the two stores hold for a key. The Berkeley DB record is numbered by the revisions it
has had, the SQLite row keeps the 0 of the new object. -/
inductive PairedAt (b : BdbTable) (t : DocsTable) (key : CString) : Prop
  | absent (bdb : b.lookup key = none) (sqlite : t.lookup key = none)
  | stored (header : LaStorageObjectHeader) (tail : List UInt8) (row : DocsRow)
      (bdb : b.lookup key = some (header.bytes ++ tail)) (sqlite : t.lookup key = some row)
      (rev : row.rev = header.rev) (deleted : row.deleted = header.deleted)
      (numbered : header.docSeq.toNat = header.revCount.toNat + 1)
      (capped : header.revCount.toNat ≤ laObjectMaxRevisionCount) (unnumbered : row.docSeq = 0)

structure Paired (s : Stores) : Prop where
  idle : s.sqlite.txn = none
  pairs : ∀ key, PairedAt s.bdb.db s.sqlite.committed.docs key

theorem paired_empty : Paired emptyStores := ⟨rfl, fun _ => .absent rfl rfl⟩

theorem object_spec (p : QuietPut) :
    ∃ obj, p.object = some obj ∧ obj.key = p.key ∧
      obj.header = ⟨0, 0, p.deleted, 0, p.version.rev⟩ ∧
        obj.dataLength.toNat = p.version.data.length := by
  have small := p.small
  obtain ⟨obj, plain, key, header, laid, -⟩ :=
    plainObject_spec p.block p.key (v := p.version) (by omega)
  refine ⟨{ obj with header := { obj.header with deleted := p.deleted } }, ?_, key, ?_, ?_⟩
  · rw [QuietPut.object, plain]
    rfl
  · rw [header]
  · exact laid.length

theorem putBoth_returned {s : Stores} {p : QuietPut} {obj : LaStorageObject} {b : BdbPutReturn}
    {q : SqlitePutReturn} {h : Sqlite3} (made : p.object = some obj)
    (put : bdbLaStoragePut p.bdb s.bdb p.base obj = some b)
    (ran : run serveSql (sqliteLaStoragePut 0 p.sqlite p.base obj) s.sqlite = some (q, h)) :
    putBoth s p = (some (b.result, q.result), ⟨b.store, h⟩) := by
  simp only [putBoth, made, put, ran]

/-- Two objects that a put prepares for the same key, one for each driver. -/
structure Twins (obj o q : LaStorageObject) : Prop where
  bdbKey : o.key = obj.key
  sqliteKey : q.key = obj.key
  rev : q.header.rev = o.header.rev
  deleted : q.header.deleted = o.header.deleted
  small : o.dataLength.toNat < 2 ^ 31
  numbered : o.header.docSeq.toNat = o.header.revCount.toNat + 1
  capped : o.header.revCount.toNat ≤ laObjectMaxRevisionCount
  unnumbered : q.header.docSeq = 0

theorem paired_written {s : BdbStore} {t : SqliteTables} {obj o q : LaStorageObject}
    (c : BdbCalls) (paired : Paired ⟨s, ⟨t, none⟩⟩) (twins : Twins obj o q) :
    Paired ⟨written c s o, ⟨t.insertOrReplace q.key (rowOf q), none⟩⟩ := by
  refine ⟨rfl, fun key => ?_⟩
  have pairs := paired.pairs key
  simp only [written, SqliteTables.insertOrReplace, twins.bdbKey, twins.sqliteKey]
  by_cases here : key = obj.key
  · have covers : headerSize ≤ (numbered c s o).laStorageObjectTotalSize % 2 ^ 32 := by
      have small := twins.small
      have capped := twins.capped
      have size : (numbered c s o).laStorageObjectTotalSize =
          headerSize + 16 * o.header.revCount.toNat + o.dataLength.toNat := rfl
      rw [laObjectMaxRevisionCount] at capped
      rw [size, headerSize]
      omega
    obtain ⟨tail, bytes⟩ := recordBytes_header covers
    rw [bytes, here]
    exact .stored _ tail _ (AList.lookup_insert _) (AList.lookup_insert _) twins.rev
      twins.deleted twins.numbered twins.capped
      (by rw [rowOf, twins.unnumbered]; rfl)
  · cases pairs with
    | absent bdb sqlite =>
      exact .absent (by rw [AList.lookup_insert_ne here, bdb])
        (by rw [AList.lookup_insert_ne here, sqlite])
    | stored header tail row bdb sqlite rev deleted numbered capped unnumbered =>
      exact .stored header tail row (by rw [AList.lookup_insert_ne here, bdb])
        (by rw [AList.lookup_insert_ne here, sqlite]) rev deleted numbered capped unnumbered

/-- The Berkeley DB driver stores an object numbered one up, or crashes. -/
theorem bdbLaStoragePut_update {c : BdbCalls} (ok : c.Succeed) {s : BdbStore}
    {obj : LaStorageObject} {header : LaStorageObjectHeader} {tail : List UInt8}
    (found : s.db.lookup obj.key = some (header.bytes ++ tail))
    (plain : obj.header.revCount = 0) :
    bdbLaStoragePut c s (some header.rev) obj = none ∨
      ∃ o, bdbLaStoragePut c s (some header.rev) obj =
          some ⟨.success, written c s o, numbered c s o, [.committed]⟩ ∧
        Prepared c s (some header.rev) obj o ∧ o.header.docSeq = header.docSeq + 1 ∧
        o.header.revCount.toNat = header.revCount.toNat + 1 ∧
        o.header.revCount.toNat ≤ laObjectMaxRevisionCount := by
  have seen : partialHeader c.stack (header.bytes ++ tail) = header := partialHeader_bytes ..
  cases push : pushRevision c header obj with
  | none =>
    left
    simp [bdbLaStoragePut, ok.txnBegin, ok.dbGet, found, seen, push]
  | some o =>
    right
    obtain ⟨some_, -, hh, -, -⟩ := pushRevision_cases push
    -- At the cap the count of the new object, 0, is kept, and the driver crashes.
    have below : header.revCount.toNat < laObjectMaxRevisionCount := by
      by_contra full
      rw [pushedCount, if_neg full, plain] at some_
      exact some_ rfl
    have count := pushedCount_succ below obj
    have prepared : Prepared c s (some header.rev) obj o :=
      .updated _ found (by rw [seen]) o (by rw [seen, push])
    refine ⟨o, bdbLaStoragePut_prepared ok prepared, prepared, ?_, ?_, ?_⟩
    · rw [hh, pushedHeader_docSeq]
    · rw [hh, pushedHeader_revCount, count]
    · rw [hh, pushedHeader_revCount, count]
      exact below

/-- What one put does to both stores. -/
theorem putBoth_paired {s : Stores} (paired : Paired s) (p : QuietPut) :
    Paired (putBoth s p).2 ∧
      ((putBoth s p).1 = none ∨ ∃ result, (putBoth s p).1 = some (result, result)) := by
  obtain ⟨obj, made, -, header, length⟩ := object_spec p
  have small : obj.dataLength.toNat < 2 ^ 31 := length ▸ p.small
  obtain ⟨bdb, committed, txn⟩ := s
  cases paired.idle
  have plain : obj.header.revCount = 0 := by rw [header]
  have unnumbered : obj.header.docSeq = 0 := by rw [header]
  have accepted : ∀ {o q : LaStorageObject},
      bdbLaStoragePut p.bdb bdb p.base obj =
        some ⟨.success, written p.bdb bdb o, numbered p.bdb bdb o, [.committed]⟩ →
      Prepared p.bdb bdb p.base obj o → PreparedRow p.sqlite committed p.base obj q →
      o.header.docSeq.toNat = o.header.revCount.toNat + 1 →
      o.header.revCount.toNat ≤ laObjectMaxRevisionCount →
      Paired (putBoth ⟨bdb, committed, none⟩ p).2 ∧
        ∃ result, (putBoth ⟨bdb, committed, none⟩ p).1 = some (result, result) := by
    intro o q put prepared row numbered capped
    have stored := put_prepared p.sqliteSucceeds 0 row small
    have twins : Twins obj o q := by
      obtain ⟨rev, deleted, length⟩ := prepared.header
      obtain ⟨rev', deleted', docSeq, -⟩ := row.header
      exact ⟨prepared.key, row.key, rev'.trans rev.symm, deleted'.trans deleted.symm,
        length ▸ small, numbered, capped, docSeq.trans unnumbered⟩
    rw [putBoth_returned made put stored]
    exact ⟨paired_written p.bdb paired twins, .success, rfl⟩
  cases paired.pairs obj.key with
  | absent absent absent' =>
    have created : Prepared p.bdb bdb p.base obj _ := .created absent
    refine (accepted (bdbLaStoragePut_prepared p.bdbSucceeds created) created
      (.created absent') ?_ ?_).imp_right Or.inr
    · rfl
    · exact Nat.zero_le _
  | stored header tail row found found' rev deleted numbered capped =>
    by_cases base : p.base = some header.rev
    · rcases bdbLaStoragePut_update p.bdbSucceeds found plain with
        crash | ⟨o, put, prepared, docSeq, count, capped'⟩
      · simp only [putBoth, made, base, crash]
        exact ⟨paired, Or.inl trivial⟩
      · rw [← base] at put prepared
        refine (accepted put prepared (.updated row found' (by rw [base, rev])) ?_
          capped').imp_right Or.inr
        rw [laObjectMaxRevisionCount] at capped
        rw [docSeq, count, UInt64.toNat_add, numbered]
        exact Nat.mod_eq_of_lt (by simp; omega)
    · have conflict := bdbLaStoragePut_conflict p.bdbSucceeds found
        (by rwa [partialHeader_bytes])
      have conflict' := put_conflict p.sqliteSucceeds 0 found' (by rwa [rev])
      rw [putBoth_returned made conflict conflict']
      exact ⟨paired, Or.inr ⟨.conflict, rfl⟩⟩

theorem run_paired (puts : List QuietPut) :
    (∀ e ∈ events putBoth emptyStores puts, Paired e.before ∧ Paired e.after) ∧
      Paired (final putBoth emptyStores puts) :=
  invariant Paired (fun _ p paired => (putBoth_paired paired p).1) puts paired_empty

/-- What the drivers do agree on: the statuses, and the revision and deleted bit of every
record, until the Berkeley DB driver crashes. -/
theorem statuses_agree (puts : List QuietPut) :
    ∀ e ∈ events putBoth emptyStores puts,
      e.output = none ∨ ∃ result, e.output = some (result, result) := by
  intro e he
  rw [event_of_mem he]
  exact (putBoth_paired ((run_paired puts).1 e he).1 e.input).2

theorem Paired.stamps {s : Stores} (paired : Paired s) (key : CString) :
    (bdbStamp s.bdb key = none ∧ sqliteStamp s.sqlite key = none) ∨
      ∃ rev deleted docSeq, docSeq ≠ 0 ∧ bdbStamp s.bdb key = some (rev, docSeq, deleted) ∧
        sqliteStamp s.sqlite key = some (rev, 0, deleted) := by
  obtain ⟨bdb, committed, txn⟩ := s
  cases paired.idle
  cases paired.pairs key with
  | absent found found' => exact Or.inl ⟨by simp [bdbStamp, found], by simp [sqliteStamp, found']⟩
  | stored header tail row found found' rev deleted numbered capped unnumbered =>
    refine Or.inr ⟨header.rev, header.deleted, header.docSeq, ?_, ?_, ?_⟩
    · intro zero
      rw [zero] at numbered
      simp at numbered
    · simp [bdbStamp, found, partialHeader_bytes]
    · simp only [sqliteStamp, visible_idle, found', Option.map_some, rev, deleted, unnumbered]
      rfl

/-- Of an absent key one driver returns -1 and the other `LA_STORAGE_OBJECT_GET_NOT_FOUND`; of
a stored one they return different document numbers. -/
theorem allRevs_differ {s : Stores} (paired : Paired s) (key : CString) {c : BdbCalls}
    {c' : SqliteCalls} (ok : c.Succeed) (ok' : Succeed c') :
    bdbLaStorageGetAllRevs c s.bdb key ≠ sqliteLaStorageGetAllRevs c' s.sqlite key := by
  obtain ⟨bdb, committed, txn⟩ := s
  cases paired.idle
  cases paired.pairs key with
  | absent found found' =>
    intro same
    have count := congrArg AllRevs.count same
    simp [bdbLaStorageGetAllRevs, sqliteLaStorageGetAllRevs, ok.dbGet, found, ok'.prepareGetmeta,
      ok'.bindGetmeta, ok'.getmeta, found', getResultValue] at count
  | stored header tail row found found' rev deleted numbered capped unnumbered =>
    intro same
    have start := congrArg AllRevs.start same
    have partial_ : (header.bytes ++ tail).take (headerSize + 16 * laObjectMaxRevisionCount) =
        header.bytes ++ tail.take (16 * laObjectMaxRevisionCount) := by
      rw [List.take_append, List.take_of_length_le (by simp), length_header_bytes,
        Nat.add_sub_cancel_left]
    simp only [bdbLaStorageGetAllRevs, ok.dbGet, found, partial_, headerAt_load,
      sqliteLaStorageGetAllRevs, ok'.prepareGetmeta, ok'.bindGetmeta, ok'.getmeta, ok'.allocated,
      visible_idle, found', unnumbered] at start
    have zero : header.docSeq = 0 := Option.some.inj start
    rw [zero] at numbered
    simp at numbered

/-- There is no sequence of puts after which the drivers agree. -/
theorem drivers_never_agree (puts : List QuietPut) : ¬Agree puts := by
  intro agree
  have ok : BdbCalls.Succeed {} := BdbCalls.succeed_default
  have ok' : Succeed {} := succeed_default
  have same := agree.allRevs (.ofBytes []) {} {} ok ok'
  exact allRevs_differ (run_paired puts).2 (.ofBytes []) ok ok' same

section TwoPuts

private theorem empty_small : ([] : List UInt8).length < 2 ^ 31 := by decide

private def putOfA (base : Option LaStorageRev) (rev : LaStorageRev) : QuietPut :=
  ⟨.ofBytes [97], base, ⟨rev, []⟩, false, {}, {}, fun _ => 0, empty_small,
    BdbCalls.succeed_default, succeed_default⟩

/-- A document and an update of it. -/
private def putAndUpdate : List QuietPut :=
  [putOfA none (uniformRev 1), putOfA (some (uniformRev 1)) (uniformRev 2)]

/-- Both drivers accept both puts. The document is number 2 in one store and 0 in the other, and
one driver counts one old revision where the other returns that it found the document. -/
theorem two_puts_disagree :
    (events putBoth emptyStores putAndUpdate).map Event.output =
        [some (.success, .success), some (.success, .success)] ∧
      (bdbLaStorageGetAllRevs {} (final putBoth emptyStores putAndUpdate).bdb
          (.ofBytes [97])).count = 1 ∧
      (sqliteLaStorageGetAllRevs {} (final putBoth emptyStores putAndUpdate).sqlite
          (.ofBytes [97])).count = 0 ∧
      ¬Agree putAndUpdate := by
  refine ⟨by decide +kernel, by decide +kernel, by decide +kernel, fun agree => ?_⟩
  have two : bdbStamp (final putBoth emptyStores putAndUpdate).bdb (.ofBytes [97]) =
      some (uniformRev 2, 2, false) := by decide +kernel
  have zero : sqliteStamp (final putBoth emptyStores putAndUpdate).sqlite (.ofBytes [97]) =
      some (uniformRev 2, 0, false) := by decide +kernel
  have same := agree.stamps (.ofBytes [97])
  rw [two, zero] at same
  exact absurd same (by decide)

end TwoPuts

end DriversAgree
