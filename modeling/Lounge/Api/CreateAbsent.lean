import Lounge.Api.ApiMap
import Lounge.Api.BdbApi

/-!
# Creating a document

`la_db_put` without a base creates a document where there is no record. Where there is one
that `la_db_get` hides, a deletion or a tombstone, the put is a conflict.
-/

namespace CreateAbsent
open FlatMemory ObjectStore CodecValue CouchRevgen LoungeApi ApiWrites BdbDriver BdbRecord BdbPut
  BdbApi

/-- The allocations of an API call succeed. -/
structure Allocates (c : ApiCalls) : Prop where
  copied : c.copied = true
  buffer : c.buffer = true
  created : c.created = true

/-- A document that `la_db_put` takes and whose record has a size that Berkeley DB can count. -/
structure ValidDocument (host : LaHost) (doc : LaCodecValue) : Prop where
  isObject : doc.laCodecIsObject = true
  notDeleted : doc.laCodecObjectGet laApiDeletedName = none
  encoded : ∃ data, host.encode (putDoc doc) = some data ∧ headerSize + data.length < 2 ^ 32

/-- A put without a base returns OK, and `la_db_get` then returns the document. -/
def Creates (host : LaHost) (calls again : BdbCalls) (c : ApiCalls) (s : BdbStore)
    (key : CString) (doc : LaCodecValue) : Prop :=
  ∃ ret rev, laDbPut (bdbDb host calls) c s (some key) none (some doc) = some ret ∧
    ret.result = .ok ∧ ret.newrev = some rev ∧
    laDbGet (bdbDb host again) ret.store key none = ⟨.ok, some (putDoc doc), some rev⟩

section Put
variable {host : LaHost} {calls again : BdbCalls} {c : ApiCalls} {s : BdbStore} {key : CString}
  {doc : LaCodecValue}

/-- A put of a valid document reaches the driver. -/
theorem laDbPut_reaches (calls : BdbCalls) (s : BdbStore) (key : CString)
    (allocates : Allocates c) (valid : ValidDocument host doc) (base : Option LaRev) :
    ∃ data o, PutsObject host c (some key) base doc false data o ∧
      headerSize + data.length < 2 ^ 32 ∧
      laDbPut (bdbDb host calls) c s (some key) base (some doc) =
        (bdbLaStoragePut calls s (base.map LaRev.rev) (markDeleted o false)).map fun ret =>
          ⟨putResult ret.result, ret.store,
            some ⟨ret.obj.header.docSeq, nextRev host base doc false⟩⟩ := by
  obtain ⟨data, encoded, fits⟩ := valid.encoded
  obtain ⟨o, made⟩ : ∃ o, laStorageCreateObject c.created c.heap key
      (nextRev host base doc false) data (UInt32.ofNat data.length) none 0 = some (some o) := by
    simp only [laStorageCreateObject, allocates.created, Bool.not_true, Bool.false_eq_true,
      if_false]
    exact ⟨_, rfl⟩
  refine ⟨data, o, ⟨valid.isObject, fun _ => valid.notDeleted, encoded, made⟩, fits, ?_⟩
  simp only [nextRev] at made
  simp only [laDbPut, doLaDbPut, bdbDb, valid.isObject, valid.notDeleted, allocates.copied,
    allocates.buffer, encoded, Option.getD_some, made, Bool.not_true, Bool.not_false,
    Option.isSome_none, Bool.and_false, Bool.or_self, Bool.false_eq_true, if_false, bdbDriver,
    Option.map_map]
  rfl

/-- The object that a put without a base stores. -/
def asCreated (o : LaStorageObject) : LaStorageObject :=
  { o with header := { o.header with docSeq := 1, revCount := 0 } }

/-- A put without a base creates the document where the key has no record, and is a conflict
that changes nothing where it has one, whatever `la_db_get` says of that. -/
theorem put_without_base (trips : RoundTrips host (putDoc doc)) (ok : calls.Succeed)
    (reads : again.dbGet = none) (allocates : Allocates c) (valid : ValidDocument host doc) :
    (s.db.lookup key = none → Creates host calls again c s key doc) ∧
    (s.db.lookup key ≠ none → ∃ ret,
      laDbPut (bdbDb host calls) c s (some key) none (some doc) = some ret ∧
        ret.result = .conflict ∧ ret.store = s) := by
  obtain ⟨data, o, puts, fits, reached⟩ := laDbPut_reaches calls s key allocates valid none
  obtain ⟨hkey, header, laid, _⟩ := createObject_plain (by omega) puts.created
  have marked : (markDeleted o false).key = key := hkey
  constructor
  · intro absent
    have prep : Prepared calls s none (markDeleted o false) (asCreated (markDeleted o false)) :=
      .created (marked ▸ absent)
    have created : LaidOut (asCreated (markDeleted o false)) [] data :=
      ⟨rfl, laid.length, laid.content⟩
    obtain ⟨d, db, stamped, _, rfl⟩ := written_record calls s created (by simpa using fits)
    have fresh : (asCreated (markDeleted o false)).key = key := marked
    have newRev : d.header.docSeq = 1 ∧ d.header.rev = nextRev host none doc false ∧
        d.header.deleted = false := by
      rw [stamped]
      exact ⟨rfl, congrArg LaStorageObjectHeader.rev header, rfl⟩
    obtain ⟨docSeq, rev, live⟩ := newRev
    have shown : LiveRecord host (written calls s (asCreated (markDeleted o false))) key d
        (putDoc doc) := by
      refine ⟨?_, live, ?_, ?_⟩
      · rw [db, fresh, AList.lookup_insert]
      · obtain ⟨data, inflated, loaded⟩ := encode_shown trips puts.encoded
        rw [inflated, Option.bind_some, loaded]
      · apply ApiMap.isTombstone_of_absent
        rw [ApiMap.putDoc_get_deleted, valid.notDeleted]
    rw [Option.map_none, bdbLaStoragePut_prepared ok prep] at reached
    refine ⟨_, _, reached, rfl, rfl, ?_⟩
    rw [shown.get reads, docSeq, rev]
    rfl
  · intro present
    obtain ⟨value, found⟩ := Option.ne_none_iff_exists'.mp present
    rw [Option.map_none, bdbLaStoragePut_conflict ok (marked ▸ found) (by simp)] at reached
    exact ⟨_, reached, rfl, rfl⟩

end Put

section Samples

private def bareHost : LaHost := ⟨emptyObjectCodec, ⟨fun _ => zeroRev, fun _ => []⟩, none⟩

private def bareKey : CString := CString.ofBytes [97]

private theorem bare_valid : ValidDocument bareHost (.object []) :=
  ⟨rfl, rfl, [123, 125], rfl, by decide⟩

/-- A document is put and deleted. Then it is not found, and cannot be put without a base. -/
theorem deleted_not_created :
    ∃ first ∈ laDbPut (bdbDb bareHost {}) {} bdbEmpty (some bareKey) none (some (.object [])),
    ∃ gone ∈ laDbDelete (bdbDb bareHost {}) {} true first.store (some bareKey) first.newrev,
      gone.1 = .ok ∧ (laDbGet (bdbDb bareHost {}) gone.2 bareKey none).result = .notFound ∧
      ¬Creates bareHost {} {} {} gone.2 bareKey (.object []) := by
  have run : ∃ first ∈ laDbPut (bdbDb bareHost {}) {} bdbEmpty (some bareKey) none
        (some (.object [])),
      ∃ gone ∈ laDbDelete (bdbDb bareHost {}) {} true first.store (some bareKey) first.newrev,
        gone.1 = .ok ∧ (laDbGet (bdbDb bareHost {}) gone.2 bareKey none).result = .notFound ∧
        ∃ second ∈ laDbPut (bdbDb bareHost {}) {} gone.2 (some bareKey) none (some (.object [])),
          second.result = .conflict := by
    decide +kernel
  obtain ⟨first, put, gone, deleted, ok, notFound, second, again, conflict⟩ := run
  refine ⟨first, put, gone, deleted, ok, notFound, ?_⟩
  rintro ⟨ret, rev, created, success, _⟩
  have same : second = ret := Option.some.inj (again.symm.trans created)
  rw [← same, conflict] at success
  cases success

theorem created_in_empty : Creates bareHost {} {} {} bdbEmpty bareKey (.object []) :=
  (put_without_base (emptyObjectCodec_roundTrips _ _) BdbCalls.succeed_default rfl ⟨rfl, rfl, rfl⟩
    bare_valid).1 rfl

end Samples

end CreateAbsent
