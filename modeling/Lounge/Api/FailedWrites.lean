import Lounge.Api.HashChain

/-!
# Writes that fail

A write call that does not return OK leaves the store as it was. `do_la_db_put` copies into
`*newrev` as soon as the driver has been asked, whatever the driver answered.
-/

namespace FailedWrites
open FlatMemory ObjectStore CodecValue CouchRevgen LoungeApi ApiWrites BdbDriver BdbPut HashChain
  Runs

/-- What a caller has after a write call returned: whether it was OK, the store, and what the
revision passed as `newrev` holds. -/
structure Outcome where
  ok : Bool
  store : BdbStore
  newrev : Option LaRev

/-- A write call on the revision that `newrev` points to, if it is not NULL. `la_db_delete`
passes NULL on. -/
def outcome (host : LaHost) (s : BdbStore) (newrev : Option LaRev) : WriteCall → Option Outcome
  | .put calls c key rev doc =>
    (laDbPut (bdbDb host calls) c s key rev doc).map fun ret =>
      ⟨ret.result == .ok, ret.store, newrev.map fun before => ret.newrev.getD before⟩
  | .delete calls c object key rev =>
    (laDbDelete (bdbDb host calls) c object s key rev).map fun ret =>
      ⟨ret.1 == .ok, ret.2, newrev⟩

/-- Nothing tells that there was a call: not the records, nor their order, nor `*newrev`. -/
structure Invisible (s : BdbStore) (newrev : Option LaRev) (after : Outcome) : Prop where
  records : ∀ key, after.store.db.lookup key = s.db.lookup key
  order : ∀ since, bdbLaStorageIteratorOpen after.store since = bdbLaStorageIteratorOpen s since
  lastseq : ∀ stat, bdbLaStorageLastseq stat after.store = bdbLaStorageLastseq stat s
  newrev : after.newrev = newrev

theorem invisible_iff {s : BdbStore} {newrev : Option LaRev} {after : Outcome}
    (same : after.store = s) : Invisible s newrev after ↔ after.newrev = newrev := by
  constructor
  · exact Invisible.newrev
  · intro unwritten
    constructor
    · exact fun key => by rw [same]
    · exact fun since => by rw [same]
    · exact fun stat => by rw [same]
    · exact unwritten

section Driver
variable {calls : BdbCalls} {s : BdbStore}

/-- The `doc_seq` that a refused put leaves in a new object: none yet while the record has not
been read or is not the base, and the next one where a later call fails. -/
def numberLeft (calls : BdbCalls) (s : BdbStore) (base : Option LaStorageRev) (key : CString) :
    UInt64 :=
  if calls.txnBegin = true ∧ calls.dbGet = none then
    match s.db.lookup key with
    | none => 1
    | some value =>
      let header := partialHeader calls.stack value
      if base = some header.rev then header.docSeq + 1 else 0
  else 0

theorem bdbWrite_refused {o : LaStorageObject}
    (refused : (bdbWrite calls s o).result ≠ .success) :
    (bdbWrite calls s o).store = s ∧
      (bdbWrite calls s o).obj.header.docSeq = o.header.docSeq := by
  cases put : calls.dbPut with
  | false => simp [bdbWrite, put]
  | true => cases commit : calls.txnCommit <;> simp [bdbWrite, put, commit] at refused

/-- What a refused put of a new object leaves: the store, and a number in the object. -/
theorem bdbLaStoragePut_refused {base : Option LaStorageRev} {o : LaStorageObject}
    {ret : BdbPutReturn} (h : bdbLaStoragePut calls s base o = some ret)
    (refused : ret.result ≠ .success) (fresh : o.header.docSeq = 0) :
    ret.store = s ∧ ret.obj.header.docSeq = numberLeft calls s base o.key := by
  cases bdbLaStoragePut_returns h with
  | unbegun begun => exact ⟨rfl, by simp [numberLeft, begun, fresh]⟩
  | unread begun failure get => exact ⟨rfl, by simp [numberLeft, get, fresh]⟩
  | conflict begun get value found other =>
    exact ⟨rfl, by simp [numberLeft, begun, get, found, other, fresh]⟩
  | ended begun get p prepared =>
    obtain ⟨store, number⟩ := bdbWrite_refused refused
    refine ⟨store, number.trans ?_⟩
    cases prepared with
    | created absent => simp [numberLeft, begun, get, absent]
    | updated value found base p pushed =>
      obtain ⟨-, -, header, -, -⟩ := pushRevision_cases pushed
      simp [header, numberLeft, begun, get, found, base]

end Driver

section Calls
variable {host : LaHost} {s : BdbStore}

/-- A put that does not return OK: the driver was not asked, and `*newrev` is not written, or
it was, and then it is written with what the driver left in the object. -/
theorem doLaDbPut_refused {calls : BdbCalls} {c : ApiCalls} {key : Option CString}
    {rev : Option LaRev} {doc : Option LaCodecValue} {isDelete : Bool}
    {ret : LaDbPutReturn BdbStore}
    (h : doLaDbPut (bdbDb host calls) c s key rev doc isDelete = some ret)
    (refused : ret.result ≠ .ok) :
    ret.store = s ∧
      (((∀ d data o, doc = some d → ¬AsksDriver host c key rev d isDelete data o) ∧
          ret.newrev = none) ∨
        ∃ d data o, doc = some d ∧ AsksDriver host c key rev d isDelete data o ∧
          ret.newrev = some ⟨numberLeft calls s (rev.map LaRev.rev) (key.getD (keyOfDoc c d)),
            nextRev host rev d isDelete⟩) := by
  rcases doLaDbPut_split h with ⟨silent, store, unset, -⟩ |
    ⟨d, data, o, r, s', o', hdoc, asks, put, rfl⟩
  · exact ⟨store, Or.inl ⟨silent, unset⟩⟩
  obtain ⟨out, called, returned⟩ := Option.map_eq_some_iff.mp put
  simp only [Prod.mk.injEq] at returned
  obtain ⟨rfl, rfl, rfl⟩ := returned
  have failed : out.result ≠ .success := by
    intro success
    exact refused (by rw [success]; rfl)
  obtain ⟨hkey, hseq⟩ := createObject_fresh asks.created
  obtain ⟨store, number⟩ := bdbLaStoragePut_refused called failed hseq
  refine ⟨store, Or.inr ⟨d, data, o, hdoc, asks, ?_⟩⟩
  rw [number, ← hkey]
  rfl

/-- A call that does not return OK leaves the store as it was. -/
theorem outcome_store {w : WriteCall} {newrev : Option LaRev} {after : Outcome}
    (h : outcome host s newrev w = some after) (failed : after.ok = false) : after.store = s := by
  cases w with
  | put calls c key rev doc =>
    obtain ⟨ret, returned, rfl⟩ := Option.map_eq_some_iff.mp h
    exact (doLaDbPut_refused returned (by simpa using failed)).1
  | delete calls c object key rev =>
    obtain ⟨ret, returned, rfl⟩ := Option.map_eq_some_iff.mp h
    cases object with
    | false =>
      cases returned
      rfl
    | true =>
      obtain ⟨put, put_returned, rfl⟩ := Option.map_eq_some_iff.mp returned
      refine (doLaDbPut_refused put_returned fun ok => ?_).1
      simp [ok, deleteResult] at failed

/-- If the driver is asked, `*newrev` already holds what `do_la_db_put` is going to copy there:
the number that a refused put leaves, with the hash of the document. -/
def Unnoticed (host : LaHost) (s : BdbStore) (newrev : Option LaRev) : WriteCall → Prop
  | .put calls c key rev doc =>
    ∀ before ∈ newrev, ∀ d ∈ doc, ∀ data o, AsksDriver host c key rev d false data o →
      before = ⟨numberLeft calls s (rev.map LaRev.rev) (key.getD (keyOfDoc c d)),
        nextRev host rev d false⟩
  | .delete .. => True

/-- A call that fails is invisible exactly if it is a delete, passes no `newrev`, does not get as
far as the driver, or finds in `*newrev` what it copies there. -/
theorem failed_invisible_iff {w : WriteCall} {newrev : Option LaRev} {after : Outcome}
    (h : outcome host s newrev w = some after) (failed : after.ok = false) :
    Invisible s newrev after ↔ Unnoticed host s newrev w := by
  rw [invisible_iff (outcome_store h failed)]
  cases w with
  | delete calls c object key rev =>
    obtain ⟨ret, -, rfl⟩ := Option.map_eq_some_iff.mp h
    simp [Unnoticed]
  | put calls c key rev doc =>
    obtain ⟨ret, returned, rfl⟩ := Option.map_eq_some_iff.mp h
    obtain ⟨-, ⟨silent, unset⟩ | ⟨d, data, o, rfl, asks, copied⟩⟩ :=
      doLaDbPut_refused returned (by simpa using failed)
    · constructor
      · rintro - before - d hdoc data o asks
        exact absurd asks (silent d data o hdoc)
      · intro
        simp [unset]
    · cases newrev with
      | none => simp [Unnoticed]
      | some before =>
        simp only [copied, Option.map_some, Option.getD_some, Option.some.injEq, Unnoticed,
          Option.mem_some_iff, forall_eq']
        constructor
        · rintro same - - -
          exact same.symm
        · intro same
          exact (same data o asks).symm

theorem writeStep_outcome (host : LaHost) (s : BdbStore) (newrev : Option LaRev)
    (w : WriteCall) :
    writeStep host s w =
      match outcome host s newrev w with
      | none => (false, s)
      | some after => (after.ok, after.store) := by
  cases w with
  | put calls c key rev doc =>
    cases h : laDbPut (bdbDb host calls) c s key rev doc <;> simp [writeStep, outcome, h]
  | delete calls c object key rev =>
    cases h : laDbDelete (bdbDb host calls) c object s key rev <;> simp [writeStep, outcome, h]

/-- The calls of a run that did not return OK can be left out of it. -/
theorem failed_left_out (s : BdbStore) (ws : List WriteCall) :
    final (writeStep host) s
      (((events (writeStep host) s ws).filter Event.output).map Event.input) =
    final (writeStep host) s ws := by
  apply final_filter
  intro s w refused
  simp only [event, writeStep_outcome host s none] at refused ⊢
  cases h : outcome host s none w with
  | none => rfl
  | some after =>
    rw [h] at refused
    exact outcome_store h refused

end Calls

section Samples

private def onceHost : LaHost := ⟨emptyObjectCodec, ⟨fun _ => zeroRev, fun _ => []⟩, none⟩

private def onceKey : CString := CString.ofBytes [97]

/-- One document stored, with revision 1-00... -/
private def onceStored : BdbStore :=
  final (writeStep onceHost) bdbEmpty [.put {} {} (some onceKey) none (some (.object []))]

private def onceStale : LaRev := ⟨7, uniformRev 7⟩

/-- A client puts on a base that is not the current one, and has the result written over it. -/
private def onceAgain : WriteCall := .put {} {} (some onceKey) (some onceStale) (some (.object []))

theorem conflict_replaces_base :
    ∃ after ∈ outcome onceHost onceStored (some onceStale) onceAgain, after.ok = false ∧
      ¬Invisible onceStored (some onceStale) after := by
  have run : ∃ after ∈ outcome onceHost onceStored (some onceStale) onceAgain,
      after.ok = false ∧ after.newrev ≠ some onceStale := by
    decide +kernel
  obtain ⟨after, returned, failed, changed⟩ := run
  exact ⟨after, returned, failed, fun unseen => changed unseen.newrev⟩

/-- Without a `newrev` the conflict is not seen. -/
theorem conflict_without_newrev :
    ∃ after ∈ outcome onceHost onceStored none onceAgain, after.ok = false ∧
      Invisible onceStored none after := by
  have run : ∃ after ∈ outcome onceHost onceStored none onceAgain, after.ok = false := by
    decide +kernel
  obtain ⟨after, returned, failed⟩ := run
  exact ⟨after, returned, failed,
    (failed_invisible_iff returned failed).mpr fun _ passed => by cases passed⟩

end Samples

end FailedWrites
