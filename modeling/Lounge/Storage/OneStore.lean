import Mathlib.Logic.Function.Basic
import Lounge.Storage.BdbAtomicity
import Lounge.Storage.DriversAgree

/-!
# The store behind both drivers

What quiet puts make of either driver is one optimistic store: a document has a current revision,
and a put replaces it on the base of that revision only. Both drivers follow that store step for
step until the Berkeley DB driver crashes: on a full history, or on a document that is too short
for the history to be moved over it.
-/

namespace OneStore
open ObjectStore BdbDriver BdbRecord BdbPut BdbBounds BdbAtomicity SqliteDriver SqlitePut
  DriversAgree Runs

/-- What both drivers keep of a document. `replaced` counts the revisions before this one. -/
structure Entry where
  rev : LaStorageRev
  deleted : Bool
  replaced : Nat

abbrev Documents := CString → Option Entry

/-- There is room for one more revision, and the document is as long as those there are. -/
def Entry.takes (entry : Entry) (p : QuietPut) : Bool :=
  entry.replaced < laObjectMaxRevisionCount && 16 * entry.replaced ≤ p.version.data.length

/-- A put. Where nothing is stored the base is not looked at, and where there is no room nothing is
returned. -/
def put (docs : Documents) (p : QuietPut) : Option LaStorageObjectPutResult × Documents :=
  match docs p.key with
  | none => (some .success, Function.update docs p.key (some ⟨p.version.rev, p.deleted, 0⟩))
  | some entry =>
    if p.base = some entry.rev then
      if entry.takes p then
        (some .success,
          Function.update docs p.key (some ⟨p.version.rev, p.deleted, entry.replaced + 1⟩))
      else (none, docs)
    else (some .conflict, docs)

/-- Both drivers put the object, unless the Berkeley DB one comes to a write past the end of its
block. -/
def putInside (s : Stores) (p : QuietPut) :
    Option (LaStorageObjectPutResult × LaStorageObjectPutResult) × Stores :=
  match p.object with
  | none => (none, s)
  | some obj =>
    if (WriteCall.put p.base obj).overruns p.bdb s.bdb then (none, s) else putBoth s p

/-- The documents of a Berkeley DB store. -/
def documents (s : BdbStore) : Documents := fun key =>
  (s.db.lookup key).map fun value =>
    let header := partialHeader (fun _ => 0) value
    ⟨header.rev, header.deleted, header.revCount.toNat⟩

/-- The stamp of an entry under Berkeley DB, where a document is numbered by its revisions. -/
def Entry.bdbStamp (entry : Entry) : Stamp :=
  (entry.rev, UInt64.ofNat (entry.replaced + 1), entry.deleted)

/-- The stamp of an entry under SQLite. -/
def Entry.sqliteStamp (entry : Entry) : Stamp := (entry.rev, 0, entry.deleted)

theorem documents_stored {s : BdbStore} {key : CString} {header : LaStorageObjectHeader}
    {tail : List UInt8} (found : s.db.lookup key = some (header.bytes ++ tail)) :
    documents s key = some ⟨header.rev, header.deleted, header.revCount.toNat⟩ := by
  simp [documents, found, partialHeader_bytes]

/-- A committed write changes the document of its key and no other. -/
theorem documents_written (c : BdbCalls) (s : BdbStore) {o : LaStorageObject}
    (small : o.dataLength.toNat < 2 ^ 31)
    (capped : o.header.revCount.toNat ≤ laObjectMaxRevisionCount) :
    documents (written c s o) = Function.update (documents s) o.key
      (some ⟨o.header.rev, o.header.deleted, o.header.revCount.toNat⟩) := by
  have covers : headerSize ≤ (numbered c s o).laStorageObjectTotalSize % 2 ^ 32 := by
    have size : (numbered c s o).laStorageObjectTotalSize =
        headerSize + 16 * o.header.revCount.toNat + o.dataLength.toNat := rfl
    rw [laObjectMaxRevisionCount] at capped
    rw [size, headerSize]
    omega
  obtain ⟨tail, bytes⟩ := recordBytes_header covers
  funext key
  by_cases here : key = o.key
  · subst here
    have found : (written c s o).db.lookup o.key =
        some ((numbered c s o).header.bytes ++ tail) := by
      rw [written, bytes]
      exact AList.lookup_insert _
    rw [documents_stored found, Function.update_self]
    rfl
  · rw [Function.update_of_ne here, documents, documents, written, AList.lookup_insert_ne here]

/-- Where both drivers prepare an object, both store theirs. -/
theorem putBoth_stored {s : Stores} (idle : s.sqlite.txn = none) {p : QuietPut}
    {obj o q : LaStorageObject} (made : p.object = some obj) (small : obj.dataLength.toNat < 2 ^ 31)
    (prepared : Prepared p.bdb s.bdb p.base obj o)
    (row : PreparedRow p.sqlite s.sqlite.committed p.base obj q) :
    (putBoth s p).1 = some (.success, .success) ∧
      (putBoth s p).2.bdb = written p.bdb s.bdb o := by
  obtain ⟨bdb, committed, txn⟩ := s
  cases idle
  rw [putBoth_returned made (bdbLaStoragePut_prepared p.bdbSucceeds prepared)
    (put_prepared p.sqliteSucceeds 0 row small)]
  exact ⟨rfl, rfl⟩

theorem putBoth_crashed {s : Stores} {p : QuietPut} {obj : LaStorageObject}
    (made : p.object = some obj) (crash : bdbLaStoragePut p.bdb s.bdb p.base obj = none) :
    putBoth s p = (none, s) := by
  simp only [putBoth, made, crash]

section Overruns
variable {s : Stores} {p : QuietPut} {obj : LaStorageObject}

theorem putInside_overruns (made : p.object = some obj)
    (overruns : (WriteCall.put p.base obj).overruns p.bdb s.bdb = true) :
    putInside s p = (none, s) := by
  simp only [putInside, made, overruns, if_true]

theorem putInside_inside (made : p.object = some obj)
    (inside : (WriteCall.put p.base obj).overruns p.bdb s.bdb = false) :
    putInside s p = putBoth s p := by
  simp only [putInside, made, inside, Bool.false_eq_true, if_false]

/-- Without a record on this base there is nothing to move. -/
theorem overruns_unbased
    (other : ∀ value, s.bdb.db.lookup obj.key = some value →
      p.base ≠ some (partialHeader p.bdb.stack value).rev) :
    (WriteCall.put p.base obj).overruns p.bdb s.bdb = false := by
  have nothing : (WriteCall.put p.base obj).replaces p.bdb s.bdb = none := by
    rw [WriteCall.replaces, Option.filter_eq_none_iff]
    intro value found
    simpa using other value found
  simp [WriteCall.overruns, WriteCall.inside, nothing]

/-- Over a record on this base there is a write past the end if a free place in the history does
not fit over the document. -/
theorem overruns_based {header : LaStorageObjectHeader} {tail : List UInt8}
    (plain : obj.header.revCount = 0)
    (found : s.bdb.db.lookup obj.key = some (header.bytes ++ tail))
    (base : p.base = some header.rev) :
    (WriteCall.put p.base obj).overruns p.bdb s.bdb =
      (decide (header.revCount.toNat < laObjectMaxRevisionCount) &&
        !decide (16 * header.revCount.toNat ≤ obj.dataLength.toNat)) := by
  have none_ : obj.header.revCount.toNat = 0 := by rw [plain]; rfl
  have replaces : (WriteCall.put p.base obj).replaces p.bdb s.bdb =
      some (header.bytes ++ tail) := by
    simp [WriteCall.replaces, found, base, partialHeader_bytes, Option.filter]
  have reaches : (WriteCall.put p.base obj).reaches p.bdb s.bdb = true := by
    simp [WriteCall.reaches, replaces, p.bdbSucceeds.txnBegin, p.bdbSucceeds.dbGet]
  have resizes : (WriteCall.put p.base obj).resizes p.bdb s.bdb =
      decide (header.revCount.toNat < laObjectMaxRevisionCount) := by
    simp [WriteCall.resizes, replaces, partialHeader_bytes, p.bdbSucceeds.allocated, none_]
  have inside : (WriteCall.put p.base obj).inside p.bdb s.bdb =
      decide (header.revCount.toNat < laObjectMaxRevisionCount ∧
        16 * header.revCount.toNat ≤ obj.dataLength.toNat) := by
    simp [WriteCall.inside, replaces, partialHeader_bytes, movesInside_iff none_]
  rw [WriteCall.overruns, reaches, resizes, inside]
  by_cases below : header.revCount.toNat < laObjectMaxRevisionCount <;> simp [below]

end Overruns

/-- The object that a put is made with. -/
structure MadeFrom (p : QuietPut) (obj : LaStorageObject) : Prop where
  made : p.object = some obj
  key : obj.key = p.key
  plain : obj.header = ⟨0, 0, p.deleted, 0, p.version.rev⟩
  length : obj.dataLength.toNat = p.version.data.length

section Put
variable {s : Stores} {p : QuietPut} {obj : LaStorageObject}

theorem exists_madeFrom (p : QuietPut) : ∃ obj, MadeFrom p obj := by
  obtain ⟨obj, made, key, plain, length⟩ := object_spec p
  exact ⟨obj, made, key, plain, length⟩

/-- Where both drivers prepare an object with `n` revisions, it is the document then. -/
theorem putBoth_replaces (idle : s.sqlite.txn = none) (object : MadeFrom p obj)
    {o q : LaStorageObject} {n : Nat} (prepared : Prepared p.bdb s.bdb p.base obj o)
    (row : PreparedRow p.sqlite s.sqlite.committed p.base obj q)
    (count : o.header.revCount.toNat = n) (capped : n ≤ laObjectMaxRevisionCount) :
    (putBoth s p).1 = some (.success, .success) ∧
      documents (putBoth s p).2.bdb = Function.update (documents s.bdb) p.key
        (some ⟨p.version.rev, p.deleted, n⟩) := by
  subst count
  have small : obj.dataLength.toNat < 2 ^ 31 := object.length ▸ p.small
  obtain ⟨answer, store⟩ := putBoth_stored idle object.made small prepared row
  obtain ⟨rev, deleted, kept⟩ := prepared.header
  refine ⟨answer, ?_⟩
  rw [store, documents_written _ _ (kept ▸ small) capped, prepared.key, object.key, rev, deleted,
    object.plain]

variable {header : LaStorageObjectHeader} {tail : List UInt8} {row : DocsRow}

/-- A put on the base of the record that is there. -/
theorem putInside_based (idle : s.sqlite.txn = none) (object : MadeFrom p obj)
    (found : s.bdb.db.lookup obj.key = some (header.bytes ++ tail))
    (found' : s.sqlite.committed.docs.lookup obj.key = some row) (rev : row.rev = header.rev)
    (base : p.base = some header.rev) :
    (putInside s p).1 = (put (documents s.bdb) p).1.map (fun result => (result, result)) ∧
      documents (putInside s p).2.bdb = (put (documents s.bdb) p).2 := by
  have entry := documents_stored found
  rw [object.key] at entry
  have unreplaced : obj.header.revCount = 0 := by rw [object.plain]
  have overruns := overruns_based unreplaced found base
  rw [object.length] at overruns
  by_cases below : header.revCount.toNat < laObjectMaxRevisionCount
  · by_cases long : 16 * header.revCount.toNat ≤ p.version.data.length
    · rw [putInside_inside object.made (by rw [overruns]; simp [long])]
      have pushes := (pushRevision_isSome_iff p.bdbSucceeds.allocated header obj).mpr
        (by rw [pushedCount_succ below]; exact Nat.succ_ne_zero _)
      obtain ⟨o, pushed⟩ := Option.isSome_iff_exists.mp pushes
      have count : o.header.revCount.toNat = header.revCount.toNat + 1 := by
        rw [(pushRevision_cases pushed).2.2.1, pushedHeader_revCount, pushedCount_succ below]
      have taken : (⟨header.rev, header.deleted, header.revCount.toNat⟩ : Entry).takes p =
          true := by
        simp [Entry.takes, below, long]
      have answers : put (documents s.bdb) p = (some .success, Function.update
          (documents s.bdb) p.key
            (some ⟨p.version.rev, p.deleted, header.revCount.toNat + 1⟩)) := by
        simp only [put, entry, base, taken, if_true]
      rw [answers]
      exact putBoth_replaces idle object (.updated _ found (by rw [partialHeader_bytes, base]) o
        (by rw [partialHeader_bytes, pushed])) (.updated row found' (by rw [base, rev]))
        count below
    · -- The history does not fit over the document, and is moved past the end of the block.
      rw [putInside_overruns object.made (by rw [overruns]; simp [below, long])]
      simp [put, entry, base, Entry.takes, long]
  · -- The count stays that of the new object, 0, and the history is moved by -16 bytes.
    have crash : pushRevision p.bdb header obj = none := by
      rw [← Option.not_isSome_iff_eq_none,
        pushRevision_isSome_iff p.bdbSucceeds.allocated header obj, pushedCount, if_neg below,
        unreplaced]
      exact fun some_ => some_ rfl
    have returned : bdbLaStoragePut p.bdb s.bdb p.base obj = none := by
      simp [bdbLaStoragePut, p.bdbSucceeds.txnBegin, p.bdbSucceeds.dbGet, found, base,
        partialHeader_bytes, crash]
    rw [putInside_inside object.made (by rw [overruns]; simp [below]),
      putBoth_crashed object.made returned]
    simp [put, entry, base, Entry.takes, below]

/-- A put on another base is a conflict for both. -/
theorem putInside_conflict (idle : s.sqlite.txn = none) (object : MadeFrom p obj)
    (found : s.bdb.db.lookup obj.key = some (header.bytes ++ tail))
    (found' : s.sqlite.committed.docs.lookup obj.key = some row) (rev : row.rev = header.rev)
    (base : p.base ≠ some header.rev) :
    (putInside s p).1 = (put (documents s.bdb) p).1.map (fun result => (result, result)) ∧
      documents (putInside s p).2.bdb = (put (documents s.bdb) p).2 := by
  have entry := documents_stored found
  rw [object.key] at entry
  have other : p.base ≠ some (partialHeader p.bdb.stack (header.bytes ++ tail)).rev := by
    rwa [partialHeader_bytes]
  have conflict := bdbLaStoragePut_conflict p.bdbSucceeds found other
  rw [putInside_inside object.made (overruns_unbased fun value here => by
    rw [found] at here
    rw [← Option.some.inj here]
    exact other)]
  obtain ⟨bdb, committed, txn⟩ := s
  cases idle
  have conflict' := put_conflict p.sqliteSucceeds 0 found' (by rw [rev]; exact base)
  rw [putBoth_returned object.made conflict conflict']
  simp [put, entry, base]

end Put

/-- A put on both drivers is a put on the documents. -/
theorem putInside_put {s : Stores} (paired : Paired s) (p : QuietPut) :
    (putInside s p).1 = (put (documents s.bdb) p).1.map (fun result => (result, result)) ∧
      documents (putInside s p).2.bdb = (put (documents s.bdb) p).2 := by
  obtain ⟨obj, object⟩ := exists_madeFrom p
  cases paired.pairs p.key with
  | absent absent absent' =>
    have nothing : documents s.bdb p.key = none := by rw [documents, absent, Option.map_none]
    rw [← object.key] at absent absent'
    rw [putInside_inside object.made (overruns_unbased fun value found => by
      simp [absent] at found)]
    have replaces := putBoth_replaces paired.idle object (.created absent) (.created absent')
      (by rw [object.plain]; rfl) (Nat.zero_le _)
    simpa only [put, nothing, Option.map_some] using replaces
  | stored header tail row found found' rev =>
    rw [← object.key] at found found'
    by_cases base : p.base = some header.rev
    · exact putInside_based paired.idle object found found' rev base
    · exact putInside_conflict paired.idle object found found' rev base

/-- What does not crash leaves the stores paired. -/
theorem putInside_paired {s : Stores} (paired : Paired s) (p : QuietPut) :
    Paired (putInside s p).2 := by
  obtain ⟨obj, made, -⟩ := object_spec p
  cases overruns : (WriteCall.put p.base obj).overruns p.bdb s.bdb with
  | true =>
    rw [putInside_overruns made overruns]
    exact paired
  | false =>
    rw [putInside_inside made overruns]
    exact (putBoth_paired paired p).1

/-- Paired stores hold the same documents, each under the driver's own number. -/
theorem stamps_documents {s : Stores} (paired : Paired s) (key : CString) :
    bdbStamp s.bdb key = (documents s.bdb key).map Entry.bdbStamp ∧
      sqliteStamp s.sqlite key = (documents s.bdb key).map Entry.sqliteStamp := by
  obtain ⟨bdb, committed, txn⟩ := s
  cases paired.idle
  cases paired.pairs key with
  | absent found found' => simp [bdbStamp, sqliteStamp, documents, found, found']
  | stored header tail row found found' rev deleted numbered capped unnumbered =>
    constructor
    · simp [bdbStamp, documents, found, partialHeader_bytes, Entry.bdbStamp, ← numbered]
    · simp only [sqliteStamp, visible_idle, found', documents_stored found, Option.map_some,
        Entry.sqliteStamp, rev, deleted, unnumbered]
      rfl

/-- The two stores hold these documents. -/
structure Follows (s : Stores) (docs : Documents) : Prop where
  paired : Paired s
  documents : documents s.bdb = docs

theorem follows_empty : Follows emptyStores fun _ => none := ⟨paired_empty, rfl⟩

theorem putInside_follows {s : Stores} {docs : Documents} (follows : Follows s docs)
    (p : QuietPut) :
    (putInside s p).1 = (put docs p).1.map (fun result => (result, result)) ∧
      Follows (putInside s p).2 (put docs p).2 := by
  obtain ⟨paired, rfl⟩ := follows
  obtain ⟨answer, after⟩ := putInside_put paired p
  exact ⟨answer, putInside_paired paired p, after⟩

/-- Whatever is put and in whatever order: both drivers answer as the one store does, and both
hold its documents. -/
theorem drivers_follow_store (puts : List QuietPut) :
    outputs putInside emptyStores puts =
        (outputs put (fun _ => none) puts).map (Option.map fun result => (result, result)) ∧
      ∀ key,
        bdbStamp (final putInside emptyStores puts).bdb key =
            (final put (fun _ => none) puts key).map Entry.bdbStamp ∧
          sqliteStamp (final putInside emptyStores puts).sqlite key =
            (final put (fun _ => none) puts key).map Entry.sqliteStamp := by
  have always : ∀ e ∈ events putInside emptyStores puts, True := fun _ _ => trivial
  obtain ⟨answers, paired, held⟩ := outputs_refined Follows _
    (fun _ _ p follows _ => putInside_follows follows p) follows_empty always
  refine ⟨answers, fun key => ?_⟩
  rw [← held]
  exact stamps_documents paired key

end OneStore
