import Lounge.Api.ApiMap
import Lounge.Api.BdbApi
import Lounge.Storage.BdbBounds

/-!
# Histories within the cap

Puts, deletes and replaces over Berkeley DB. `la_db_replace` stores whatever history it is
given, and a put makes room for one revision only, so the cap and the blocks are kept as
long as the callers keep them.
-/

namespace HistoryCap
open FlatMemory ObjectStore CodecValue CouchRevgen LoungeApi ApiWrites ApiMap BdbDriver BdbRecord
  BdbPut BdbApi BdbBounds Runs

/-- A call of the API, with the environment of its driver calls. -/
structure BdbOp where
  calls : BdbCalls
  op : ApiOp

def bdbStep (host : LaHost) (s : BdbStore) (i : BdbOp) : Option Reply × BdbStore :=
  apiStep (bdbDb host i.calls) s i.op

/-- What a put or a delete calls `do_la_db_put` with. -/
structure PutArgs where
  c : ApiCalls
  key : Option CString
  rev : Option LaRev
  doc : LaCodecValue
  isDelete : Bool

def putArgs : ApiOp → Option PutArgs
  | .put c key rev (some doc) => some ⟨c, key, rev, doc, false⟩
  | .delete c true key rev => some ⟨c, key, rev, .object [], true⟩
  | _ => none

/-- No record has more revisions than the cap or than it has room for. -/
def AllCapped (s : BdbStore) : Prop :=
  ∀ key value, s.db.lookup key = some value → Capped value

/-- What a put moves when it replaces a record stays inside its object. -/
def PutsInside (host : LaHost) (s : BdbStore) (i : BdbOp) : Prop :=
  ∀ a, putArgs i.op = some a →
    ∀ data o, PutsObject host a.c a.key a.rev a.doc a.isDelete data o →
      i.calls.txnBegin = true → i.calls.dbGet = none →
      ∀ value, s.db.lookup o.key = some value →
        a.rev.map LaRev.rev = some (partialHeader i.calls.stack value).rev →
        MovesInside (partialHeader i.calls.stack value) (markDeleted o a.isDelete)

/-- The histories after a call are within the cap, `get_all_revs` reads them where they were
fetched, and the call itself moved nothing outside its object. -/
structure WithinBounds (host : LaHost) (e : Event BdbStore BdbOp (Option Reply)) : Prop where
  capped : AllCapped e.after
  fetched : ∀ key value, e.after.db.lookup key = some value → ∀ heap, ReadsFetched heap value
  moves : PutsInside host e.before e.input

/-- The number of revisions that the header of a replaced record shows. -/
def keptCount (oldrevs : Option (List LaStorageRev)) (revcount : Nat) : Nat :=
  if oldrevs.isNone then 0 else revcount % 2 ^ 15

/-- A put or delete that comes to write has room for it. -/
def putWithin (host : LaHost) (calls : BdbCalls) (s : BdbStore) (a : PutArgs) : Bool :=
  !calls.txnBegin || calls.dbGet.isSome ||
    (host.encode (putDoc a.doc)).all fun data =>
      putRoom calls s (a.key.getD (keyOfDoc a.c a.doc)) (a.rev.map LaRev.rev)
        (data.length % 2 ^ 32)

/-- A replace that writes has a history within the cap, and a record that a DBT can count. -/
def replaceWithin (host : LaHost) (calls : BdbCalls) (doc : LaCodecValue)
    (oldrevs : Option (List LaStorageRev)) (revcount : Nat) : Bool :=
  !decide (WritesThrough calls) ||
    (host.encode (replaceDoc doc)).all fun data =>
      keptCount oldrevs revcount ≤ laObjectMaxRevisionCount &&
        headerSize + 16 * keptCount oldrevs revcount + data.length % 2 ^ 32 < 2 ^ 32

/-- The condition on a call. -/
def withinCap (host : LaHost) (s : BdbStore) (i : BdbOp) : Bool :=
  match i.op with
  | .replace _ _ _ (some doc) oldrevs revcount =>
    replaceWithin host i.calls doc oldrevs revcount
  | op => (putArgs op).all (putWithin host i.calls s)

section Step
variable {host : LaHost} {calls : BdbCalls} {c : ApiCalls} {s : BdbStore}

theorem AllCapped.written (all : AllCapped s) {o : LaStorageObject}
    (new : Capped (recordBytes (numbered calls s o))) : AllCapped (written calls s o) := by
  intro key value found
  by_cases same : key = o.key
  · subst same
    rw [BdbPut.written, AList.lookup_insert] at found
    exact Option.some.inj found ▸ new
  · rw [BdbPut.written, AList.lookup_insert_ne same] at found
    exact all key value found

theorem length_dataLength {o : LaStorageObject} {data : List UInt8}
    (length : o.dataLength = UInt32.ofNat data.length) :
    o.dataLength.toNat = data.length % 2 ^ 32 := by
  rw [length, UInt32.toNat_ofNat']

/-- A put that could not read the record stores nothing. -/
theorem doLaDbPut_unread {key : Option CString} {oldrev : Option LaRev}
    {doc : Option LaCodecValue} {isDelete : Bool} {ret : LaDbPutReturn BdbStore}
    (h : doLaDbPut (bdbDb host calls) c s key oldrev doc isDelete = some ret)
    (unread : calls.txnBegin = false ∨ calls.dbGet.isSome = true) : ret.store = s := by
  rcases doLaDbPut_cases h with ⟨hs, _⟩ | ⟨d, data, o, r, s', o', _, _, hput, rfl⟩
  · exact hs
  obtain ⟨put, hdriver, hmap⟩ := Option.map_eq_some_iff.mp hput
  obtain ⟨rfl, rfl, rfl⟩ := Prod.mk.inj hmap |>.imp_right Prod.mk.inj
  cases bdbLaStoragePut_returns hdriver with
  | unbegun => rfl
  | unread => rfl
  | conflict => rfl
  | ended begun get => simp [begun, get] at unread

/-- A put with room keeps every record within the cap. -/
theorem doLaDbPut_capped (all : AllCapped s) {a : PutArgs}
    (within : putWithin host calls s a = true) {ret : LaDbPutReturn BdbStore}
    (h : doLaDbPut (bdbDb host calls) a.c s a.key a.rev (some a.doc) a.isDelete = some ret) :
    AllCapped ret.store := by
  simp only [putWithin, Bool.or_eq_true, Bool.not_eq_true'] at within
  rcases within with unread | room
  · rw [doLaDbPut_unread h unread]
    exact all
  rcases doLaDbPut_bdb h with ⟨hs, _⟩ | ⟨d, data, o, p, hd, puts, prep, rfl, _⟩
  · rw [hs]
    exact all
  obtain rfl := Option.some.inj hd
  rw [puts.encoded, Option.all_some] at room
  have key : (markDeleted o a.isDelete).key = a.key.getD (keyOfDoc a.c a.doc) :=
    (createObject_shows puts.created).1
  have length := length_dataLength (createObject_counts puts.created).2
  rw [← key, ← length] at room
  exact all.written (Prepared.capped prep room)

theorem putsInside_of_within {i : BdbOp}
    (within : ∀ a, putArgs i.op = some a → putWithin host i.calls s a = true) :
    PutsInside host s i := by
  intro a ha data o puts begun read value found base
  have room := within a ha
  simp only [putWithin, begun, read, puts.encoded, Option.all_some, Bool.not_true,
    Option.isSome_none, Bool.false_or] at room
  have key : (markDeleted o a.isDelete).key = a.key.getD (keyOfDoc a.c a.doc) :=
    (createObject_shows puts.created).1
  obtain ⟨count, length⟩ := createObject_counts puts.created
  rw [← key, ← length_dataLength length] at room
  exact movesInside_of_room room (Nat.le_zero.mp count) found base

theorem createObject_keptCount {allocated : Bool} {heap : Memory} {key : CString}
    {rev : LaStorageRev} {data : List UInt8} {length : UInt32}
    {oldrevs : Option (List LaStorageRev)} {revcount : Nat} {o : LaStorageObject}
    (h : laStorageCreateObject allocated heap key rev data length oldrevs revcount =
      some (some o)) : o.header.revCount.toNat = keptCount oldrevs revcount := by
  simp only [laStorageCreateObject] at h
  split at h
  · simp at h
  · split at h
    · obtain rfl := Option.some.inj (Option.some.inj h)
      rfl
    · split at h
      · cases h
      · obtain rfl := Option.some.inj (Option.some.inj h)
        simp [keptCount]

/-- A replace within the cap keeps every record there. -/
theorem laDbReplace_capped (all : AllCapped s) {key : Option CString} {rev : Option LaRev}
    {doc : LaCodecValue} {oldrevs : Option (List LaStorageRev)} {revcount : Nat}
    (within : replaceWithin host calls doc oldrevs revcount = true)
    {ret : LaDbPutReturn BdbStore}
    (h : laDbReplace (bdbDb host calls) c s key rev (some doc) oldrevs revcount = some ret) :
    AllCapped ret.store := by
  rcases laDbReplace_cases h with ⟨hs, _⟩ |
    ⟨k, v, d, data, o, r, s', o', _, _, hd, _, encoded, created, replaced, rfl⟩
  · rw [hs]
    exact all
  obtain rfl := Option.some.inj hd
  obtain ⟨rfl, rfl, rfl⟩ := Prod.mk.inj (Option.some.inj replaced) |>.imp_right Prod.mk.inj
  by_cases through : WritesThrough calls
  · rw [bdbLaStorageReplace_through through]
    simp only [replaceWithin, through, decide_true, Bool.not_true, Bool.false_or] at within
    have encoded' : host.encode (replaceDoc doc) = some data := encoded
    simp only [encoded', Option.all_some, Bool.and_eq_true, decide_eq_true_eq] at within
    have count := createObject_keptCount created
    have length := length_dataLength (createObject_counts created).2
    apply all.written
    apply capped_recordBytes
    · simp only [numbered, markReplaced, LaStorageObject.laStorageObjectTotalSize, count, length]
      exact within.2
    · simp only [numbered, markReplaced, count]
      exact within.1
  · rw [bdbLaStorageReplace_fails through]
    exact all

theorem bdbStep_capped (all : AllCapped s) {i : BdbOp} (within : withinCap host s i = true) :
    AllCapped (bdbStep host s i).2 ∧ PutsInside host s i := by
  obtain ⟨calls, op⟩ := i
  cases op with
  | put c key rev doc =>
    cases doc with
    | none => exact ⟨all, fun a ha => by cases ha⟩
    | some doc =>
      have room : putWithin host calls s ⟨c, key, rev, doc, false⟩ = true := within
      constructor
      · simp only [bdbStep, apiStep]
        cases put : laDbPut (bdbDb host calls) c s key rev (some doc) with
        | none => exact all
        | some ret => exact doLaDbPut_capped all room put
      · apply putsInside_of_within
        intro a ha
        obtain rfl := Option.some.inj ha
        exact room
  | delete c object key rev =>
    cases object with
    | false => exact ⟨all, fun a ha => by cases ha⟩
    | true =>
      have room : putWithin host calls s ⟨c, key, rev, .object [], true⟩ = true := within
      constructor
      · simp only [bdbStep, apiStep]
        cases deleted : laDbDelete (bdbDb host calls) c true s key rev with
        | none => exact all
        | some ret =>
          obtain ⟨put, returned, rfl⟩ := Option.map_eq_some_iff.mp deleted
          exact doLaDbPut_capped all room returned
      · apply putsInside_of_within
        intro a ha
        obtain rfl := Option.some.inj ha
        exact room
  | replace c key rev doc oldrevs revcount =>
    refine ⟨?_, fun a ha => by cases ha⟩
    simp only [bdbStep, apiStep]
    cases replaced : laDbReplace (bdbDb host calls) c s key rev doc oldrevs revcount with
    | none => exact all
    | some ret =>
      cases doc with
      | none =>
        cases key <;> cases rev <;> (cases replaced; exact all)
      | some doc => exact laDbReplace_capped all within replaced

end Step

/-- In every run from the empty database whose calls have room for what they store, the
histories stay within the cap, are read inside what was fetched, and are moved inside the
object of the put. -/
theorem histories_capped (host : LaHost) (ops : List BdbOp)
    (within : ∀ e ∈ events (bdbStep host) bdbEmpty ops, withinCap host e.before e.input = true) :
    ∀ e ∈ events (bdbStep host) bdbEmpty ops, WithinBounds host e := by
  have start : AllCapped bdbEmpty := by
    intro key value found
    cases found
  have run := preserved AllCapped (fun s i all fair => (bdbStep_capped all fair).1) start within
  intro e he
  refine ⟨(run.1 e he).2, fun key value found heap => ?_, ?_⟩
  · exact ((run.1 e he).2 key value found).readsFetched heap
  · exact (bdbStep_capped (run.1 e he).1 (within e he)).2

section Samples

private def capHost : LaHost := ⟨emptyObjectCodec, ⟨fun _ => zeroRev, fun _ => []⟩, none⟩

private def capKey : CString := CString.ofBytes [97]

private def capPut (rev : Option LaRev) : BdbOp :=
  ⟨{}, .put {} (some capKey) rev (some (.object []))⟩

private def capReplace (revs : List LaStorageRev) : BdbOp :=
  ⟨{}, .replace {} (some capKey) (some ⟨1, uniformRev 1⟩) (some (.object [])) (some revs)
    revs.length⟩

/-- A replace with two revisions, behind two puts. -/
theorem short_histories_capped :
    WithinBounds capHost (event (bdbStep capHost)
      (final (bdbStep capHost) bdbEmpty [capPut none, capPut (some ⟨1, zeroRev⟩)])
      (capReplace [uniformRev 2, uniformRev 3])) :=
  histories_capped capHost
    [capPut none, capPut (some ⟨1, zeroRev⟩), capReplace [uniformRev 2, uniformRev 3]]
    (by decide +kernel) _ (List.mem_cons_of_mem _ (List.mem_cons_of_mem _ List.mem_cons_self))

/-- A replace with more revisions than the cap stores them all. -/
private theorem capReplace_uncapped {revs : List LaStorageRev}
    (above : laObjectMaxRevisionCount < revs.length) (few : revs.length < 2 ^ 15) :
    ∃ e ∈ events (bdbStep capHost) bdbEmpty [capReplace revs], ¬WithinBounds capHost e := by
  refine ⟨_, List.mem_cons_self, fun within => ?_⟩
  obtain ⟨ret, returned⟩ : ∃ ret, laDbReplace (bdbDb capHost {}) {} bdbEmpty (some capKey)
      (some ⟨1, uniformRev 1⟩) (some (.object [])) (some revs) revs.length = some ret := by
    have copies : ¬maxCopy ≤ revs.length * 16 % 2 ^ 64 := by
      rw [maxCopy]
      omega
    have encoded : capHost.encode (replaceDoc (.object [])) = some [123, 125] := rfl
    simp only [laDbReplace, bdbDb, encoded, laStorageCreateObject, if_neg copies]
    exact ⟨_, rfl⟩
  have small : ∀ data ∈ capHost.encode (replaceDoc (.object [])),
      headerSize + 16 * revs.length + data.length < 2 ^ 32 := by
    intro data encoded
    obtain rfl : [123, 125] = data := Option.some.inj encoded
    simp only [headerSize, List.length_cons, List.length_nil]
    omega
  have ok := laDbReplace_ok returned ⟨rfl, rfl, rfl⟩ rfl rfl rfl rfl
  rcases laDbReplace_record returned fun _ => ⟨few, small⟩ with ⟨_, failed⟩ |
    ⟨d, _, db, _, _, history, _⟩
  · exact failed ⟨rfl, rfl, rfl⟩ ok
  · have after : (bdbStep capHost bdbEmpty (capReplace revs)).2 = ret.store := by
      simp only [bdbStep, apiStep, capReplace, returned]
    have found : (bdbStep capHost bdbEmpty (capReplace revs)).2.db.lookup capKey =
        some d.bytes := by rw [after, db, AList.lookup_insert]
    have cap := (within.capped capKey d.bytes found).cap
    rw [revCountOf, partialHeader_docRecord, d.counted, history] at cap
    omega

/-- The object of a put of the empty document. -/
private def capObject : LaStorageObject :=
  ⟨capKey, ⟨0, 0, false, 0, zeroRev⟩,
    store (load (List.replicate 2 0) fun _ => 0) 0 [123, 125], 2, 2⟩

/-- Two bytes of document are no room for the moves over a record with a history. -/
private theorem capPut_moves {s : BdbStore} {value : List UInt8}
    (found : s.db.lookup capKey = some value)
    (base : (partialHeader (fun _ => 0) value).rev = zeroRev)
    (history : 0 < revCountOf value) : ¬PutsInside capHost s (capPut (some ⟨2, zeroRev⟩)) := by
  intro inside
  have puts : PutsObject capHost {} (some capKey) (some ⟨2, zeroRev⟩) (.object []) false
      [123, 125] capObject := ⟨rfl, fun _ => rfl, rfl, rfl⟩
  have moves := inside _ rfl _ _ puts rfl rfl value found (congrArg some base.symm)
  have fits : 16 * revCountOf value ≤ 2 := ((movesInside_iff rfl).mp moves).2
  omega

/-- A pulled history of 1025 revisions is stored with all of them, and the third put of a small
document moves its history past the end of the object. -/
theorem histories_uncapped :
    (∃ e ∈ events (bdbStep capHost) bdbEmpty [capReplace (List.replicate 1025 (uniformRev 2))],
      ¬WithinBounds capHost e) ∧
    ∃ e ∈ events (bdbStep capHost) bdbEmpty
        [capPut none, capPut (some ⟨1, zeroRev⟩), capPut (some ⟨2, zeroRev⟩)],
      ¬WithinBounds capHost e := by
  constructor
  · apply capReplace_uncapped <;> rw [List.length_replicate]
    · rw [laObjectMaxRevisionCount]
      omega
    · omega
  · refine ⟨_, List.mem_cons_of_mem _ (List.mem_cons_of_mem _ List.mem_cons_self), fun within => ?_⟩
    have stored : ∃ value, (final (bdbStep capHost) bdbEmpty
        [capPut none, capPut (some ⟨1, zeroRev⟩)]).db.lookup capKey = some value ∧
        (partialHeader (fun _ => 0) value).rev = zeroRev ∧ 0 < revCountOf value := by
      refine ⟨_, Option.eq_some_of_isSome ?_, ?_, ?_⟩ <;> decide +kernel
    obtain ⟨value, found, base, history⟩ := stored
    exact capPut_moves found base history within.moves

end Samples

end HistoryCap
