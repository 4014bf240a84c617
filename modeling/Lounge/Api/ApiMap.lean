import Lounge.Api.ApiWrites
import Lounge.Lib.Runs
import Mathlib.Logic.Function.Basic

/-!
# The API as a map of documents

Over a driver that keeps what it is given, puts, deletes and replaces make a map
from keys to documents, and `la_db_get` reads it. Deletion is stored in the header
and refused in documents, so the two tombstone tests agree with the map.
-/

namespace ApiMap
open ObjectStore CodecValue CouchRevgen LoungeApi ApiWrites Runs
open LaCodecValue (laCodecIsTrue laCodecObjectGet laCodecObjectDel laCodecObjectGet_del_self
  laCodecObjectGet_del_other)

/-- What a driver keeps of an object. -/
abbrev Kept := LaStorageObjectHeader × List UInt8

def keptOf (o : LaStorageObject) : Kept := (o.header, o.laStorageObjectGetData)

/-- A driver whose `get` returns the header and data of the last object put or replaced.
A driver may number the object it is given; `replace` leaves the document sequence. -/
structure KeepingDriver {σ : Type} (driver : LaObjectStoreDriver σ) where
  kept : σ → CString → Option Kept
  get_kept : ∀ s key k, kept s key = some k →
    ∃ o, driver.get s key none = (.ok, some o) ∧ keptOf o = k
  get_absent : ∀ s key, kept s key = none → driver.get s key none = (.notFound, none)
  put_success : ∀ s base o s' o', driver.put s base o = some (.success, s', o') →
    o'.header.rev = o.header.rev ∧ o'.header.deleted = o.header.deleted ∧
      kept s' = Function.update (kept s) o.key (some (o'.header, o.laStorageObjectGetData))
  put_refused : ∀ s base o r s' o', driver.put s base o = some (r, s', o') → r ≠ .success →
    kept s' = kept s
  replace_success : ∀ s o s' o', driver.replace s o = some (.success, s', o') →
    o'.header.rev = o.header.rev ∧ o'.header.deleted = o.header.deleted ∧
      o'.header.docSeq = o.header.docSeq ∧
      kept s' = Function.update (kept s) o.key (some (o'.header, o.laStorageObjectGetData))
  replace_refused : ∀ s o r s' o', driver.replace s o = some (r, s', o') → r ≠ .success →
    kept s' = kept s

inductive ApiOp where
  | put (c : ApiCalls) (key : Option CString) (rev : Option LaRev) (doc : Option LaCodecValue)
  | delete (c : ApiCalls) (object : Bool) (key : Option CString) (rev : Option LaRev)
  | replace (c : ApiCalls) (key : Option CString) (rev : Option LaRev)
      (doc : Option LaCodecValue) (oldrevs : Option (List LaStorageRev)) (revcount : Nat)

/-- What a client sees of a call that returned. -/
structure Reply where
  ok : Bool
  newrev : Option LaRev

section Step
variable {σ : Type}

/-- A call that traps changes nothing that is stored. -/
def apiStep (db : LaDb σ) (s : σ) : ApiOp → Option Reply × σ
  | .put c key rev doc =>
    match laDbPut db c s key rev doc with
    | none => (none, s)
    | some ret => (some ⟨ret.result == .ok, ret.newrev⟩, ret.store)
  | .delete c object key rev =>
    match laDbDelete db c object s key rev with
    | none => (none, s)
    | some ret => (some ⟨ret.1 == .ok, none⟩, ret.2)
  | .replace c key rev doc oldrevs revcount =>
    match laDbReplace db c s key rev doc oldrevs revcount with
    | none => (none, s)
    | some ret => (some ⟨ret.result == .ok, none⟩, ret.store)

end Step

/-- What the map holds for a key that was written. -/
inductive Entry where
  | live (doc : LaCodecValue) (rev : LaRev)
  | gone

abbrev Table := CString → Option Entry

/-- The map after a successful call: the document without its top-level `_id`, `_rev` and
`_deleted`, under the revision that the write stored. -/
def record (t : Table) : ApiOp → Option Reply → Table
  | .put c key _ (some doc), some ⟨true, some rev⟩ =>
    Function.update t (key.getD (keyOfDoc c doc)) (some (.live (replaceDoc doc) rev))
  | .delete c _ key _, some ⟨true, _⟩ =>
    Function.update t (key.getD (keyOfDoc c (.object []))) (some .gone)
  | .replace _ (some key) (some rev) (some doc) _ _, some ⟨true, _⟩ =>
    Function.update t key (some (if isDeleted doc then .gone else .live (replaceDoc doc) rev))
  | _, _ => t

/-- The map as a client follows it from call to call. -/
def recordEvent {σ : Type} (t : Table) (e : Event σ ApiOp (Option Reply)) : Table :=
  record t e.input e.output

/-- The document a call encodes. -/
def ApiOp.stored : ApiOp → Option LaCodecValue
  | .put _ _ _ doc => doc.map putDoc
  | .delete _ _ _ _ => some (putDoc (.object []))
  | .replace _ _ _ doc _ _ => doc.map replaceDoc

/-- What a call stores is smaller than 4 GiB. -/
def Small (host : LaHost) (op : ApiOp) : Prop :=
  ∀ doc data, op.stored = some doc → host.encode doc = some data → data.length < 2 ^ 32

/-- How a kept object shows an entry of the map. -/
def Shows (host : LaHost) : Option Kept → Option Entry → Prop
  | none, none => True
  | some k, some .gone => k.1.deleted = true
  | some k, some (.live doc rev) =>
    k.1.deleted = false ∧ rev = ⟨k.1.docSeq, k.1.rev⟩ ∧
      (∃ data, host.inflate k.2 = some data ∧ host.codec.loadb data = some doc) ∧
      doc.laCodecObjectGet laApiDeletedName = none
  | _, _ => False

/-- What `la_db_get` is to return for an entry. -/
def Answers (ret : LaDbGetReturn) : Option Entry → Prop
  | some (.live doc rev) => ret = ⟨.ok, some doc, some rev⟩
  | _ => ret.result = .notFound

theorem del_absent {doc : LaCodecValue} {key : CString}
    (absent : doc.laCodecObjectGet key = none) : doc.laCodecObjectDel key = doc := by
  cases doc with
  | object members =>
    simp only [laCodecObjectGet, Option.map_eq_none_iff, List.find?_eq_none] at absent
    simp only [laCodecObjectDel, LaCodecValue.object.injEq, List.filter_eq_self]
    intro m hm
    simpa using absent m hm
  | _ => rfl

theorem putDoc_get_deleted (doc : LaCodecValue) :
    (putDoc doc).laCodecObjectGet laApiDeletedName = doc.laCodecObjectGet laApiDeletedName := by
  rw [putDoc, laCodecObjectGet_del_other _ (by decide), laCodecObjectGet_del_other _ (by decide)]

theorem replaceDoc_get_deleted (doc : LaCodecValue) :
    (replaceDoc doc).laCodecObjectGet laApiDeletedName = none :=
  laCodecObjectGet_del_self _ _

theorem isTombstone_of_absent {doc : LaCodecValue}
    (absent : doc.laCodecObjectGet laApiDeletedName = none) : isTombstone doc = false := by
  simp [isTombstone, absent, laCodecIsTrue]

section Refinement
variable {σ : Type} {db : LaDb σ}

/-- `la_db_get` answers from what the driver keeps. -/
theorem laDbGet_answers (driver : KeepingDriver db.driver) {s : σ} {key : CString}
    {entry : Option Entry} (shows : Shows db.host (driver.kept s key) entry) :
    Answers (laDbGet db s key none) entry := by
  cases hk : driver.kept s key with
  | none =>
    rw [hk] at shows
    have hget := driver.get_absent s key hk
    cases entry with
    | none => simp [Answers, laDbGet, hget]
    | some _ => exact shows.elim
  | some k =>
    rw [hk] at shows
    obtain ⟨o, hget, rfl⟩ := driver.get_kept s key k hk
    rcases entry with _ | ⟨doc, rev⟩ | _
    · exact shows.elim
    · obtain ⟨hdeleted, hrev, ⟨data, hinflate, hload⟩, habsent⟩ := shows
      simp only [keptOf] at hdeleted hrev hinflate
      simp [Answers, laDbGet, hget, hdeleted, hinflate, hload, isTombstone_of_absent habsent, hrev]
    · have hdeleted : o.header.deleted = true := shows
      simp [Answers, laDbGet, hget, hdeleted]

/-- What the driver keeps and the map agree on every key. -/
def Refines (driver : KeepingDriver db.driver) (s : σ) (t : Table) : Prop :=
  ∀ key, Shows db.host (driver.kept s key) (t key)

theorem Refines.update {driver : KeepingDriver db.driver} {s s' : σ} {t : Table}
    (h : Refines driver s t) {key : CString} {k : Kept} {entry : Entry}
    (kept : driver.kept s' = Function.update (driver.kept s) key (some k))
    (shows : Shows db.host (some k) (some entry)) :
    Refines driver s' (Function.update t key (some entry)) := by
  intro other
  rw [kept]
  by_cases same : other = key
  · subst same
    simpa using shows
  · simpa [same] using h other

/-- A call that is not acknowledged does not count. -/
theorem record_unacknowledged (t : Table) (op : ApiOp) {reply : Option Reply}
    (h : ∀ r, reply = some r → r.ok = false) : record t op reply = t := by
  rcases reply with _ | ⟨ok, newrev⟩
  · unfold record
    split <;> simp_all
  · obtain rfl : ok = false := h _ rfl
    unfold record
    split <;> simp_all

theorem Refines.unchanged {driver : KeepingDriver db.driver} {s s' : σ} {t : Table}
    (h : Refines driver s t) (op : ApiOp) {reply : Option Reply}
    (kept : driver.kept s' = driver.kept s) (fails : ∀ r, reply = some r → r.ok = false) :
    Refines driver s' (record t op reply) := by
  intro key
  rw [record_unacknowledged t op fails, kept]
  exact h key

theorem putResult_ne_ok {r : LaStorageObjectPutResult} (h : r ≠ .success) :
    (putResult r == .ok) = false := by
  cases r with
  | success => exact absurd rfl h
  | conflict => rfl
  | error => rfl

theorem put_refines (driver : KeepingDriver db.driver) {s : σ} {t : Table}
    (h : Refines driver s t) {c : ApiCalls} {key : Option CString} {rev : Option LaRev}
    {doc : Option LaCodecValue}
    (trips : ∀ d ∈ ApiOp.stored (.put c key rev doc), RoundTrips db.host d)
    (small : Small db.host (.put c key rev doc)) :
    Refines driver (apiStep db s (.put c key rev doc)).2
      (record t (.put c key rev doc) (apiStep db s (.put c key rev doc)).1) := by
  simp only [apiStep]
  cases hret : laDbPut db c s key rev doc with
  | none => exact h.unchanged _ rfl (by simp)
  | some ret =>
    rcases doLaDbPut_cases hret with ⟨hs, hr⟩ | ⟨d, data, o, r, s', o', rfl, puts, hput, rfl⟩
    · exact h.unchanged _ (congrArg driver.kept hs) (by simp [hr])
    obtain ⟨hkey, hrev, hdata⟩ := createObject_shows puts.created
    by_cases hr : r = .success
    · subst hr
      obtain ⟨hrev', hdeleted', hkept⟩ := driver.put_success _ _ _ _ _ hput
      have hdoc : putDoc d = replaceDoc d :=
        (del_absent ((putDoc_get_deleted d).trans (puts.notDeleted rfl))).symm
      have hmark : (markDeleted o false).laStorageObjectGetData = data :=
        hdata (small _ _ rfl puts.encoded)
      have hkey' : (markDeleted o false).key = key.getD (keyOfDoc c d) := hkey
      rw [hmark, hkey'] at hkept
      have shown := encode_shown (trips (putDoc d) rfl) puts.encoded
      refine h.update hkept ⟨hdeleted', ?_, hdoc ▸ shown, replaceDoc_get_deleted d⟩
      rw [hrev']
      exact congrArg _ hrev.symm
    · exact h.unchanged _ (driver.put_refused _ _ _ _ _ _ hput hr) (by simp [putResult_ne_ok hr])

theorem delete_refines (driver : KeepingDriver db.driver) {s : σ} {t : Table}
    (h : Refines driver s t) (c : ApiCalls) (object : Bool) (key : Option CString)
    (rev : Option LaRev) :
    Refines driver (apiStep db s (.delete c object key rev)).2
      (record t (.delete c object key rev) (apiStep db s (.delete c object key rev)).1) := by
  simp only [apiStep, laDbDelete]
  cases object with
  | false => exact h.unchanged _ rfl (by simp)
  | true =>
    cases hret : doLaDbPut db c s key rev (some (.object [])) true with
    | none => exact h.unchanged _ rfl (by simp)
    | some ret =>
      rcases doLaDbPut_cases hret with ⟨hs, hr⟩ | ⟨d, data, o, r, s', o', hd, puts, hput, rfl⟩
      · refine h.unchanged _ (congrArg driver.kept hs) ?_
        rintro _ ⟨⟩
        cases hres : ret.result <;> simp_all [deleteResult]
      obtain rfl := Option.some.inj hd
      obtain ⟨hkey, _, _⟩ := createObject_shows puts.created
      by_cases hr : r = .success
      · subst hr
        obtain ⟨_, hdeleted', hkept⟩ := driver.put_success _ _ _ _ _ hput
        have hkey' : (markDeleted o true).key = key.getD (keyOfDoc c (.object [])) := hkey
        rw [hkey'] at hkept
        exact h.update hkept hdeleted'
      · refine h.unchanged _ (driver.put_refused _ _ _ _ _ _ hput hr) ?_
        rintro _ ⟨⟩
        cases r <;> simp_all [deleteResult, putResult]

theorem replace_refines (driver : KeepingDriver db.driver) {s : σ} {t : Table}
    (h : Refines driver s t) {c : ApiCalls} {key : Option CString} {rev : Option LaRev}
    {doc : Option LaCodecValue} {oldrevs : Option (List LaStorageRev)} {revcount : Nat}
    (trips : ∀ d ∈ ApiOp.stored (.replace c key rev doc oldrevs revcount), RoundTrips db.host d)
    (small : Small db.host (.replace c key rev doc oldrevs revcount)) :
    Refines driver (apiStep db s (.replace c key rev doc oldrevs revcount)).2
      (record t (.replace c key rev doc oldrevs revcount)
        (apiStep db s (.replace c key rev doc oldrevs revcount)).1) := by
  simp only [apiStep]
  cases hret : laDbReplace db c s key rev doc oldrevs revcount with
  | none => exact h.unchanged _ rfl (by simp)
  | some ret =>
    rcases laDbReplace_cases hret with ⟨hs, hr⟩ |
      ⟨k, v, d, data, o, r, s', o', rfl, rfl, rfl, _, hencoded, hcreated, hreplace, rfl⟩
    · exact h.unchanged _ (congrArg driver.kept hs) (by simp [hr])
    obtain ⟨hkey, hrev, hdata⟩ := createObject_shows hcreated
    by_cases hr : r = .success
    · subst hr
      obtain ⟨hrev', hdeleted', hseq', hkept⟩ := driver.replace_success _ _ _ _ hreplace
      have hmark : (markReplaced o (isDeleted d) v.seq).laStorageObjectGetData = data :=
        hdata (small _ _ rfl hencoded)
      have hkey' : (markReplaced o (isDeleted d) v.seq).key = k := hkey
      rw [hmark, hkey'] at hkept
      cases hd : isDeleted d with
      | true =>
        rw [hd] at hdeleted'
        simp only [record, hd, if_true, beq_self_eq_true]
        exact h.update hkept hdeleted'
      | false =>
        rw [hd] at hdeleted'
        simp only [record, hd, if_true, beq_self_eq_true]
        refine h.update hkept ⟨hdeleted', ?_, encode_shown (trips _ rfl) hencoded,
          replaceDoc_get_deleted d⟩
        rw [hrev', hseq']
        exact congrArg (LaRev.mk v.seq) hrev.symm
    · exact h.unchanged _ (driver.replace_refused _ _ _ _ _ hreplace hr) (by simp [hr])

theorem step_refines (driver : KeepingDriver db.driver) {s : σ} {t : Table}
    (h : Refines driver s t) (op : ApiOp) (trips : ∀ d ∈ op.stored, RoundTrips db.host d)
    (small : Small db.host op) :
    Refines driver (apiStep db s op).2 (record t op (apiStep db s op).1) := by
  cases op with
  | put c key rev doc => exact put_refines driver h trips small
  | delete c object key rev => exact delete_refines driver h c object key rev
  | replace c key rev doc oldrevs revcount => exact replace_refines driver h trips small

/-- After any calls on any keys, `la_db_get` answers from the map that the acknowledged ones
make, as long as no document is stored in 4 GiB or more. -/
theorem laDbGet_after_run (db : LaDb σ) (driver : KeepingDriver db.driver)
    (s : σ) (empty : ∀ key, driver.kept s key = none) (ops : List ApiOp)
    (trips : ∀ op ∈ ops, ∀ doc ∈ op.stored, RoundTrips db.host doc)
    (small : ∀ op ∈ ops, Small db.host op) (key : CString) :
    Answers (laDbGet db (final (apiStep db) s ops) key none)
      (replay recordEvent (fun _ => none) (events (apiStep db) s ops) key) := by
  have start : Refines driver s fun _ => none := fun k => by
    rw [empty k]
    trivial
  have fair : ∀ e ∈ events (apiStep db) s ops,
      (∀ doc ∈ e.input.stored, RoundTrips db.host doc) ∧ Small db.host e.input := fun e he =>
    ⟨trips _ (input_mem he), small _ (input_mem he)⟩
  have refined : Refines driver (final (apiStep db) s ops)
      (replay recordEvent (fun _ => none) (events (apiStep db) s ops)) :=
    simulated (Refines driver) (fun s t op h hs => step_refines driver h op hs.1 hs.2) start fair
  exact laDbGet_answers driver (refined key)

end Refinement

/-- The store that `ObjectStore.h` describes, as a table of objects. -/
def tableDriver : LaObjectStoreDriver (CString → Option LaStorageObject) where
  get := fun s key rev =>
    match s key with
    | none => (.notFound, none)
    | some o => if rev.any (· != o.header.rev) then (.revisionNotFound, none) else (.ok, some o)
  getAllRevs := fun s key =>
    match s key with
    | none => (-1, none)
    | some o => (o.header.revCount.toNat, some (revsAt o.revsData 0 o.header.revCount.toNat))
  put := fun s rev o =>
    let store := fun docSeq : UInt64 =>
      let o' := { o with header := { o.header with docSeq := docSeq } }
      some (.success, Function.update s o.key (some o'), o')
    match s o.key with
    | none => store 1
    | some old =>
      if rev = some old.header.rev then store (old.header.docSeq + 1) else some (.conflict, s, o)
  replace := fun s o => some (.success, Function.update s o.key (some o), o)

theorem update_map_keptOf (s : CString → Option LaStorageObject) (key : CString)
    (o : LaStorageObject) :
    (fun k => (Function.update s key (some o) k).map keptOf) =
      Function.update (fun k => (s k).map keptOf) key (some (keptOf o)) := by
  funext k
  by_cases same : k = key
  · subst same
    simp
  · simp [same]

/-- A table keeps what it is given. -/
def tableKeeps : KeepingDriver tableDriver where
  kept := fun s key => (s key).map keptOf
  get_kept := by
    intro s key k h
    obtain ⟨o, ho, rfl⟩ := Option.map_eq_some_iff.mp h
    exact ⟨o, by simp [tableDriver, ho], rfl⟩
  get_absent := by
    intro s key h
    simp [tableDriver, Option.map_eq_none_iff.mp h]
  put_success := by
    intro s base o s' o' h
    have stored : ∀ docSeq : UInt64, some (LaStorageObjectPutResult.success,
        Function.update s o.key (some { o with header := { o.header with docSeq := docSeq } }),
        { o with header := { o.header with docSeq := docSeq } }) = some (.success, s', o') →
        o'.header.rev = o.header.rev ∧ o'.header.deleted = o.header.deleted ∧
          (fun key => (s' key).map keptOf) = Function.update (fun key => (s key).map keptOf) o.key
            (some (o'.header, o.laStorageObjectGetData)) := by
      rintro docSeq ⟨⟩
      exact ⟨rfl, rfl, update_map_keptOf s o.key _⟩
    simp only [tableDriver] at h
    split at h
    · exact stored _ h
    · split at h
      · exact stored _ h
      · simp at h
  put_refused := by
    intro s base o r s' o' h hr
    simp only [tableDriver] at h
    split at h
    · simp at h
      exact absurd h.1.symm hr
    · split at h
      · simp at h
        exact absurd h.1.symm hr
      · simp at h
        rw [h.2.1]
  replace_success := by
    rintro s o s' o' ⟨⟩
    exact ⟨rfl, rfl, rfl, update_map_keptOf s o.key o⟩
  replace_refused := by
    rintro s o r s' o' ⟨⟩ hr
    exact absurd rfl hr

section Runs
/-- `a`. -/
def memberName : CString := CString.ofBytes [97]

/-- The text of the object with the one member `a`, a string. -/
def objectText (s : List UInt8) : List UInt8 :=
  [123, 34, 97, 34, 58, 32, 34] ++ s ++ [34, 125]

/-- A codec that knows the objects with one member `a`, a string without escapes. -/
def textHost : LaHost where
  codec := {
    dump := fun v => match v with
      | .object [(k, .string s)] => if k = memberName then some (objectText s.bytes) else none
      | _ => none
    loadb := fun b =>
      let s := ((b.drop 7).dropLast).dropLast
      if h : (0 : UInt8) ∉ s ∧ b = objectText s then some (.object [(memberName, .string ⟨s, h.1⟩)])
      else none }
  revgen := ⟨fun _ => zeroRev, fun _ => []⟩
  compressor := none

theorem textHost_roundTrips (doc : LaCodecValue) : RoundTrips textHost doc := by
  refine ⟨fun b h => ?_, fun c h => by cases h⟩
  simp only [textHost] at h
  split at h
  · rename_i k s
    split at h
    · rename_i hk
      obtain rfl := Option.some.inj h
      have hmid : (((objectText s.bytes).drop 7).dropLast).dropLast = s.bytes := by
        have hdrop : (objectText s.bytes).drop 7 = s.bytes ++ [34] ++ [125] := by
          simp [objectText]
        rw [hdrop, List.dropLast_concat, List.dropLast_concat]
      simp only [textHost, hmid, s.noNul, not_false_eq_true, and_self, dite_true, hk]
    · cases h
  · cases h

private def textDb : LaDb (CString → Option LaStorageObject) := ⟨textHost, tableDriver⟩

private def putText (s : CString) : ApiOp :=
  .put {} (some memberName) none (some (.object [(memberName, .string s)]))

theorem laDbGet_after_text :
    Answers (laDbGet textDb (final (apiStep textDb) (fun _ => none)
        [putText (CString.ofBytes [98])]) memberName none)
      (replay recordEvent (fun _ => none) (events (apiStep textDb) (fun _ => none)
        [putText (CString.ofBytes [98])]) memberName) := by
  refine laDbGet_after_run textDb tableKeeps _ (fun _ => rfl) _
    (fun _ _ doc _ => textHost_roundTrips doc) ?_ _
  intro op hop doc data hdoc hdata
  obtain rfl := List.mem_singleton.mp hop
  obtain rfl := Option.some.inj hdoc
  obtain rfl := Option.some.inj hdata
  decide

/-- With a text of `2 ^ 32` bytes, the put is acknowledged and keeps no bytes. -/
private theorem putText_huge {s : CString} (huge : s.strlen = 2 ^ 32 - 9) :
    ∃ o, apiStep textDb (fun _ => none) (putText s) =
      (some ⟨true, some ⟨1, zeroRev⟩⟩, Function.update (fun _ => none) memberName (some o)) ∧
      o.header.deleted = false ∧ o.laStorageObjectGetData = [] := by
  have hlen : (objectText s.bytes).length = 2 ^ 32 := by
    simp only [CString.strlen] at huge
    simp [objectText, huge]
  have hcut : UInt32.ofNat (objectText s.bytes).length = 0 := by rw [hlen]; rfl
  have hencode : textHost.encode (putDoc (.object [(memberName, .string s)])) =
      some (objectText s.bytes) := rfl
  refine ⟨⟨memberName, ⟨0, 1, false, 0, zeroRev⟩,
    FlatMemory.store (FlatMemory.load [] fun _ => 0) 0 [], 0, 0⟩, ?_, rfl, rfl⟩
  simp only [apiStep, putText, laDbPut, doLaDbPut, textDb, hencode, hcut]
  rfl

/-- A document whose text has `2 ^ 32` bytes is acknowledged and stored as none of them. -/
theorem huge_document_not_answered :
    (∀ doc, RoundTrips textHost doc) ∧ (∀ key, tableKeeps.kept (fun _ => none) key = none) ∧
    ∃ s : CString, s.strlen = 2 ^ 32 - 9 ∧
      ¬ Answers (laDbGet textDb (final (apiStep textDb) (fun _ => none) [putText s]) memberName
          none)
        (replay recordEvent (fun _ => none) (events (apiStep textDb) (fun _ => none) [putText s])
          memberName) := by
  have huge : ∀ s : CString, s.strlen = 2 ^ 32 - 9 →
      ¬ Answers (laDbGet textDb (final (apiStep textDb) (fun _ => none) [putText s]) memberName
          none)
        (replay recordEvent (fun _ => none) (events (apiStep textDb) (fun _ => none) [putText s])
          memberName) := by
    intro s hs
    obtain ⟨o, hstep, hdeleted, hdata⟩ := putText_huge hs
    have hstore : final (apiStep textDb) (fun _ => none) [putText s] =
        Function.update (fun _ => none) memberName (some o) := by
      rw [final, final, hstep]
    have hentry : replay recordEvent (fun _ => none) (events (apiStep textDb) (fun _ => none)
        [putText s]) memberName =
        some (.live (replaceDoc (.object [(memberName, .string s)])) ⟨1, zeroRev⟩) := by
      simp only [replay, events, event, List.foldl_cons, List.foldl_nil, hstep]
      rfl
    have hget : (laDbGet textDb (Function.update (fun _ => none) memberName (some o))
        memberName none).result = .error := by
      simp [laDbGet, textDb, tableDriver, hdeleted, hdata, LaHost.inflate, textHost, objectText]
    rw [hstore, hentry]
    intro h
    rw [Answers] at h
    rw [h] at hget
    cases hget
  refine ⟨textHost_roundTrips, fun _ => rfl,
    ⟨List.replicate (2 ^ 32 - 9) 98, fun h => by simpa using List.eq_of_mem_replicate h⟩,
    List.length_replicate, huge _ List.length_replicate⟩

end Runs

end ApiMap
