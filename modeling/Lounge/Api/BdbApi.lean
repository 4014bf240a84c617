import Lounge.Api.ApiWrites
import Lounge.Storage.BdbPut

/-!
# The API over Berkeley DB

What the write calls and `la_db_get` do when the store is a Berkeley DB one: the
inversion lemmas of the two layers put together, and records as documents.
-/

namespace BdbApi
open FlatMemory ObjectStore CodecValue CouchRevgen LoungeApi ApiWrites BdbDriver BdbRecord BdbPut

section Get
variable {host : LaHost} {s : BdbStore} {key : CString}

/-- A record that `la_db_get` does not show: deleted in its header, or with a body of the
shape of a tombstone. What lies behind a short record counts to the body. -/
def Hidden (host : LaHost) (s : BdbStore) (key : CString) : Prop :=
  ∃ value heap, s.db.lookup key = some value ∧
    ((objectOfValue heap key value).header.deleted = true ∨
      ∃ doc, (host.inflate (objectOfValue heap key value).laStorageObjectGetData).bind
        host.codec.loadb = some doc ∧ isTombstone doc = true)

/-- If a key has a record, `la_db_get` does not find it only when it hides it. -/
theorem laDbGet_notFound {calls : BdbCalls} {value : List UInt8}
    (found : s.db.lookup key = some value)
    (h : (laDbGet (bdbDb host calls) s key none).result = .notFound) : Hidden host s key := by
  refine ⟨value, calls.heap, found, ?_⟩
  simp only [laDbGet, bdbDb, bdbDriver, bdbLaStorageGet, found, Option.map_none, Option.any_none,
    Bool.false_eq_true, if_false, if_true] at h
  by_cases deleted : (objectOfValue calls.heap key value).header.deleted = true
  · exact Or.inl deleted
  right
  cases hg : calls.dbGet with
  | some f => simp [hg] at h
  | none =>
    simp only [hg, if_neg deleted] at h
    cases hi : host.inflate (objectOfValue calls.heap key value).laStorageObjectGetData with
    | none => simp [hi] at h
    | some data =>
      cases hl : host.codec.loadb data with
      | none => simp [hi, hl] at h
      | some doc =>
        refine ⟨doc, by simp [hl], ?_⟩
        by_cases tomb : isTombstone doc = true
        · exact tomb
        · simp [hi, hl, tomb] at h

/-- What `la_db_get` reports as current is the stored header's. -/
theorem laDbGet_current {calls : BdbCalls} {h : LaStorageObjectHeader}
    (stored : StoredHeader s key h) {rev : LaRev}
    (current : (laDbGet (bdbDb host calls) s key none).currentRev = some rev) :
    rev = ⟨h.docSeq, h.rev⟩ := by
  obtain ⟨tail, found⟩ := stored
  have header : (objectOfValue calls.heap key (h.bytes ++ tail)).header = h :=
    headerAt_load h tail calls.heap
  simp only [laDbGet, bdbDb, bdbDriver, bdbLaStorageGet, found, Option.map_none, Option.any_none,
    Bool.false_eq_true, if_false, if_true] at current
  cases hg : calls.dbGet with
  | some f => simp [hg] at current
  | none =>
    simp only [hg, header] at current
    split at current
    · cases current
    · split at current
      · cases current
      · split at current
        · exact (Option.some.inj current).symm
        · split at current <;> exact (Option.some.inj current).symm

/-- A record that `la_db_get` shows. -/
structure LiveRecord (host : LaHost) (s : BdbStore) (key : CString) (d : DocRecord)
    (doc : LaCodecValue) : Prop where
  stored : s.db.lookup key = some d.bytes
  notDeleted : d.header.deleted = false
  decoded : (host.inflate d.body).bind host.codec.loadb = some doc
  notTombstone : isTombstone doc = false

theorem LiveRecord.get {d : DocRecord} {doc : LaCodecValue} (live : LiveRecord host s key d doc)
    {calls : BdbCalls} (ok : calls.dbGet = none) :
    laDbGet (bdbDb host calls) s key none =
      ⟨.ok, some doc, some ⟨d.header.docSeq, d.header.rev⟩⟩ := by
  obtain ⟨_, hheader, _, hdata, _⟩ := objectOfValue_docRecord d calls.heap key
  obtain ⟨data, hinflate, hload⟩ := Option.bind_eq_some_iff.mp live.decoded
  simp [laDbGet, bdbDb, bdbDriver, bdbLaStorageGet, ok, live.stored, hheader, hdata,
    live.notDeleted, hinflate, hload, live.notTombstone]

theorem laDbGet_undecoded {d : DocRecord} (stored : s.db.lookup key = some d.bytes)
    (notDeleted : d.header.deleted = false)
    (undecoded : (host.inflate d.body).bind host.codec.loadb = none) (calls : BdbCalls) :
    (laDbGet (bdbDb host calls) s key none).result = .error := by
  obtain ⟨_, hheader, _, hdata, _⟩ := objectOfValue_docRecord d calls.heap key
  cases failure : calls.dbGet with
  | some f => simp [laDbGet, bdbDb, bdbDriver, bdbLaStorageGet, failure]
  | none =>
    cases hinflate : host.inflate d.body with
    | none =>
      simp [laDbGet, bdbDb, bdbDriver, bdbLaStorageGet, failure, stored, hheader, hdata, notDeleted,
        hinflate]
    | some data =>
      rw [hinflate, Option.bind_some] at undecoded
      simp [laDbGet, bdbDb, bdbDriver, bdbLaStorageGet, failure, stored, hheader, hdata, notDeleted,
        hinflate, undecoded]

end Get

section Put
variable {host : LaHost} {calls : BdbCalls} {c : ApiCalls} {s : BdbStore}

/-- A put either stored nothing, and if it says otherwise its commit failed, or committed
the object that the driver prepared. -/
theorem doLaDbPut_bdb {key : Option CString} {oldrev : Option LaRev}
    {doc : Option LaCodecValue} {isDelete : Bool} {ret : LaDbPutReturn BdbStore}
    (h : doLaDbPut (bdbDb host calls) c s key oldrev doc isDelete = some ret) :
    (ret.store = s ∧ (ret.result = .ok → calls.txnCommit = false)) ∨
    ∃ d data o p, doc = some d ∧ PutsObject host c key oldrev d isDelete data o ∧
      Prepared calls s (oldrev.map LaRev.rev) (markDeleted o isDelete) p ∧
      ret = ⟨.ok, written calls s p, some ⟨p.header.docSeq, nextRev host oldrev d isDelete⟩⟩ ∧
      calls.txnCommit = true := by
  rcases doLaDbPut_cases h with ⟨hs, hr⟩ | ⟨d, data, o, r, s', o', hd, puts, hput, rfl⟩
  · exact Or.inl ⟨hs, fun ok => absurd ok hr⟩
  obtain ⟨put, hdriver, hmap⟩ := Option.map_eq_some_iff.mp hput
  simp only [Prod.mk.injEq] at hmap
  obtain ⟨rfl, rfl, rfl⟩ := hmap
  rcases bdbLaStoragePut_cases hdriver with unstored | ⟨p, prep, stored⟩
  · refine Or.inl ⟨unstored.store, fun ok => unstored.claimed ?_⟩
    cases hres : put.result with
    | success => rfl
    | conflict => simp [hres, putResult] at ok
    | error => simp [hres, putResult] at ok
  · refine Or.inr ⟨d, data, o, p, hd, puts, prep, ?_, stored.commit⟩
    rw [stored.store, stored.obj, stored.result]
    rfl

/-- A put under a key writes no other record. -/
theorem doLaDbPut_frame {key : CString} {oldrev : Option LaRev} {doc : Option LaCodecValue}
    {isDelete : Bool} {ret : LaDbPutReturn BdbStore}
    (h : doLaDbPut (bdbDb host calls) c s (some key) oldrev doc isDelete = some ret)
    {other : CString} (ne : other ≠ key) : ret.store.db.lookup other = s.db.lookup other := by
  rcases doLaDbPut_bdb h with ⟨hs, _⟩ | ⟨d, data, o, p, _, puts, prep, rfl, _⟩
  · rw [hs]
  · have hkey : p.key = key := prep.key.trans (createObject_shows puts.created).1
    rw [written, hkey]
    exact AList.lookup_insert_ne ne

end Put

section Replace
variable {host : LaHost} {calls : BdbCalls} {c : ApiCalls} {s : BdbStore}

/-- A replace either stored nothing, and if it says otherwise a driver call failed, or committed
the object with the marks of its caller. -/
theorem laDbReplace_bdb {key : CString} {rev : LaRev} {doc : LaCodecValue}
    {oldrevs : Option (List LaStorageRev)} {revcount : Nat} {ret : LaDbPutReturn BdbStore}
    (h : laDbReplace (bdbDb host calls) c s (some key) (some rev) (some doc) oldrevs revcount =
      some ret) :
    (ret.store = s ∧ (WritesThrough calls → ret.result ≠ .ok)) ∨
    ∃ data o, WritesThrough calls ∧ host.encode (replaceDoc doc) = some data ∧
      laStorageCreateObject c.created c.heap key rev.rev data (UInt32.ofNat data.length) oldrevs
        revcount = some (some o) ∧
      ret = ⟨.ok, written calls s (markReplaced o (isDeleted doc) rev.seq), none⟩ := by
  rcases laDbReplace_cases h with ⟨hs, hr⟩ |
    ⟨k, v, d, data, o, r, s', o', hk, hv, hd, _, encoded, created, replaced, rfl⟩
  · exact Or.inl ⟨hs, fun _ => hr⟩
  obtain rfl := Option.some.inj hk
  obtain rfl := Option.some.inj hv
  obtain rfl := Option.some.inj hd
  obtain ⟨rfl, rfl, rfl⟩ := Prod.mk.inj (Option.some.inj replaced) |>.imp_right Prod.mk.inj
  by_cases through : WritesThrough calls
  · refine Or.inr ⟨data, o, through, encoded, created, ?_⟩
    rw [bdbLaStorageReplace_through through]
    rfl
  · exact Or.inl ⟨bdbLaStorageReplace_fails through s _, fun ok => absurd ok through⟩

/-- A replace whose document can be encoded and whose driver calls succeed returns OK. -/
theorem laDbReplace_ok {key : CString} {rev : LaRev} {doc : LaCodecValue}
    {oldrevs : Option (List LaStorageRev)} {revcount : Nat} {ret : LaDbPutReturn BdbStore}
    (h : laDbReplace (bdbDb host calls) c s (some key) (some rev) (some doc) oldrevs revcount =
      some ret) (through : WritesThrough calls) (object : doc.laCodecIsObject = true)
    (buffer : c.buffer = true) (copied : c.copied = true)
    (encodes : (host.encode (replaceDoc doc)).isSome = true) : ret.result = .ok := by
  obtain ⟨data, encoded⟩ := Option.isSome_iff_exists.mp encodes
  simp only [laDbReplace, bdbDb, object, buffer, copied, encoded, Bool.not_true, Bool.or_self,
    Bool.false_eq_true, if_false] at h
  split at h
  · cases h
  · simp only [bdbDriver, bdbLaStorageReplace_through through] at h
    cases h
    rfl

/-- Only the record of the key is written. -/
theorem laDbReplace_frame {key : CString} {rev : LaRev} {doc : LaCodecValue}
    {oldrevs : Option (List LaStorageRev)} {revcount : Nat} {ret : LaDbPutReturn BdbStore}
    (h : laDbReplace (bdbDb host calls) c s (some key) (some rev) (some doc) oldrevs revcount =
      some ret) {other : CString} (ne : other ≠ key) :
    ret.store.db.lookup other = s.db.lookup other := by
  rcases laDbReplace_bdb h with ⟨hs, _⟩ | ⟨data, o, _, _, created, rfl⟩
  · rw [hs]
  · have hkey : (markReplaced o (isDeleted doc) rev.seq).key = key := (createObject_shows created).1
    rw [written, hkey]
    exact AList.lookup_insert_ne ne

end Replace

theorem LaidOut.numbered {calls : BdbCalls} {s : BdbStore} {o : LaStorageObject}
    {history : List LaStorageRev} {body : List UInt8} (laid : LaidOut o history body) :
    LaidOut (numbered calls s o) history body :=
  ⟨laid.counted, laid.length, laid.content⟩

theorem LaidOut.marked {o : LaStorageObject} {history : List LaStorageRev} {body : List UInt8}
    (laid : LaidOut o history body) (deleted : Bool) :
    LaidOut (markDeleted o deleted) history body :=
  ⟨laid.counted, laid.length, laid.content⟩

/-- The record of an object that is laid out and fits. -/
theorem written_record (calls : BdbCalls) (s : BdbStore) {o : LaStorageObject}
    {history : List LaStorageRev} {body : List UInt8} (laid : LaidOut o history body)
    (fits : headerSize + 16 * history.length + body.length < 2 ^ 32) :
    ∃ d : DocRecord, (written calls s o).db = s.db.insert o.key d.bytes ∧
      d.header = (BdbPut.numbered calls s o).header ∧ d.history = history ∧ d.body = body := by
  have hlaid : LaidOut (BdbPut.numbered calls s o) history body := LaidOut.numbered laid
  have hcount : (BdbPut.numbered calls s o).header.revCount.toNat = history.length := hlaid.counted
  refine ⟨⟨(BdbPut.numbered calls s o).header, history, body, hcount, fits⟩, ?_, rfl, rfl, rfl⟩
  rw [written, ← recordBytes_laidOut hlaid rfl]

/-- What a put did to the record of its key. An accepted one names the stored revision and
leaves it in the history. -/
theorem doLaDbPut_record {host : LaHost} {calls : BdbCalls} {c : ApiCalls} {s : BdbStore}
    {key : Option CString} {oldrev : Option LaRev} {doc : Option LaCodecValue} {isDelete : Bool}
    {ret : LaDbPutReturn BdbStore}
    (h : doLaDbPut (bdbDb host calls) c s key oldrev doc isDelete = some ret)
    (fits : ∀ v ∈ doc, ∀ data ∈ host.encode (putDoc v),
      headerSize + 16 * laObjectMaxRevisionCount + data.length < 2 ^ 32) :
    (ret.store = s ∧ (ret.result = .ok → calls.txnCommit = false)) ∨
    ∃ (v : LaCodecValue) (d : DocRecord), doc = some v ∧
      ret.store.db = s.db.insert (key.getD (keyOfDoc c v)) d.bytes ∧
      ret.newrev = some ⟨d.header.docSeq, d.header.rev⟩ ∧
      ∀ value, s.db.lookup (key.getD (keyOfDoc c v)) = some value →
        oldrev.map LaRev.rev = some (partialHeader calls.stack value).rev ∧
          (partialHeader calls.stack value).rev ∈ d.history := by
  rcases doLaDbPut_bdb h with unstored | ⟨v, data, o, p, rfl, puts, prep, rfl, _⟩
  · exact Or.inl unstored
  have size := fits v rfl data puts.encoded
  obtain ⟨hkey, hheader, hlaid, _⟩ := createObject_plain (by omega) puts.created
  have hkey' : (markDeleted o isDelete).key = key.getD (keyOfDoc c v) := hkey
  have length : (markDeleted o isDelete).dataLength.toNat = data.length := hlaid.length
  obtain ⟨d, hdb, hd, base⟩ := prep.record hlaid.counted (by omega)
  rw [hkey'] at hdb base
  refine Or.inr ⟨v, d, rfl, hdb, ?_, base⟩
  have newRev : d.header.rev = nextRev host oldrev v isDelete := by
    have markedRev : (markDeleted o isDelete).header.rev = nextRev host oldrev v isDelete := by
      rw [markDeleted, hheader]
    rw [hd, ← markedRev]
    exact prep.header.1
  have newSeq : d.header.docSeq = p.header.docSeq := by rw [hd]; rfl
  rw [newRev, newSeq]

/-- What a replace did to the record of its key. -/
theorem laDbReplace_record {host : LaHost} {calls : BdbCalls} {c : ApiCalls} {s : BdbStore}
    {key : CString} {rev : LaRev} {doc : LaCodecValue} {history : List LaStorageRev}
    {ret : LaDbPutReturn BdbStore}
    (h : laDbReplace (bdbDb host calls) c s (some key) (some rev) (some doc) (some history)
      history.length = some ret)
    (fits : WritesThrough calls → history.length < 2 ^ 15 ∧
      ∀ data ∈ host.encode (replaceDoc doc),
        headerSize + 16 * history.length + data.length < 2 ^ 32) :
    (ret.store = s ∧ (WritesThrough calls → ret.result ≠ .ok)) ∨
    ∃ d : DocRecord, WritesThrough calls ∧ ret.store.db = s.db.insert key d.bytes ∧
      d.header.rev = rev.rev ∧ d.header.deleted = isDeleted doc ∧ d.history = history ∧
      host.encode (replaceDoc doc) = some d.body := by
  rcases laDbReplace_bdb h with unstored | ⟨data, o, through, encoded, created, rfl⟩
  · exact Or.inl unstored
  obtain ⟨few, small⟩ := fits through
  have size := small data encoded
  obtain ⟨hkey, hrev, hlaid⟩ := createObject_history (by omega) few created
  have marked : LaidOut (markReplaced o (isDeleted doc) rev.seq) history data :=
    ⟨hlaid.counted, hlaid.length, hlaid.content⟩
  obtain ⟨d, hdb, hh, hhistory, rfl⟩ := written_record calls s marked size
  have hkey' : (markReplaced o (isDeleted doc) rev.seq).key = key := hkey
  rw [hkey'] at hdb
  exact Or.inr ⟨d, through, hdb, by rw [hh]; exact hrev, by rw [hh]; rfl, hhistory, encoded⟩

end BdbApi
