import Lounge.Api.BdbApi
import Lounge.Lib.Runs

/-!
# The revision hash chain

`do_la_db_put` hashes the base the client names, the driver compares only its
hash and numbers the record itself. The two agree as long as clients name the
sequence they were given and a key is not written a third time.
-/

namespace HashChain
open FlatMemory ObjectStore CodecValue CouchRevgen LoungeApi ApiWrites BdbDriver BdbRecord BdbPut
  BdbApi Runs

inductive WriteCall where
  | put (calls : BdbCalls) (c : ApiCalls) (key : Option CString) (rev : Option LaRev)
      (doc : Option LaCodecValue)
  | delete (calls : BdbCalls) (c : ApiCalls) (object : Bool) (key : Option CString)
      (rev : Option LaRev)

namespace WriteCall

def calls : WriteCall → BdbCalls
  | .put calls .. => calls
  | .delete calls .. => calls

/-- The revision the client names. -/
def base : WriteCall → Option LaRev
  | .put _ _ _ rev _ => rev
  | .delete _ _ _ _ rev => rev

/-- The key that is written. -/
def target : WriteCall → CString
  | .put _ c key _ doc => key.getD (keyOfDoc c (doc.getD .null))
  | .delete _ c _ key _ => key.getD (keyOfDoc c (.object []))

/-- The document that is hashed and stored. -/
def body : WriteCall → LaCodecValue
  | .put _ _ _ _ doc => putDoc (doc.getD .null)
  | .delete _ _ _ _ _ => putDoc (.object [])

def isDelete : WriteCall → Bool
  | .put .. => false
  | .delete .. => true

end WriteCall

/-- The call with its acknowledgement. A call that traps stores nothing. -/
def writeStep (host : LaHost) (s : BdbStore) : WriteCall → Bool × BdbStore
  | .put calls c key rev doc =>
    match laDbPut (bdbDb host calls) c s key rev doc with
    | none => (false, s)
    | some ret => (ret.result == .ok, ret.store)
  | .delete calls c object key rev =>
    match laDbDelete (bdbDb host calls) c object s key rev with
    | none => (false, s)
    | some ret => (ret.1 == .ok, ret.2)

abbrev WriteEvent := Event BdbStore WriteCall Bool

/-- The current revision of a stored record. -/
def storedRev (s : BdbStore) (key : CString) : Option LaStorageRev :=
  (s.db.lookup key).map fun value => (partialHeader (fun _ => 0) value).rev

abbrev Parents := CString → Option LaStorageRev

/-- A write is successful if it is acknowledged and its commit did not fail. Its parent is the
revision the record had before. -/
def noteParent (parents : Parents) (e : WriteEvent) : Parents :=
  if e.output && e.input.calls.txnCommit then
    Function.update parents e.input.target (storedRev e.before e.input.target)
  else parents

/-- The parents of all records after a run from the empty database. -/
def parentsAfter (host : LaHost) (ws : List WriteCall) : Parents :=
  replay noteParent (fun _ => none) (events (writeStep host) bdbEmpty ws)

/-- What `get` reads of a record, whatever the memory behind it, is hashed from its parent. -/
def RecordChained (host : LaHost) (parent : Option LaStorageRev) (value : List UInt8) : Prop :=
  ∀ heap key, let o := objectOfValue heap key value
    ∃ data body, host.inflate o.laStorageObjectGetData = some data ∧
      host.codec.loadb data = some body ∧
      o.header.rev = laRevgen host.revgen body (o.header.docSeq - 1) parent o.header.deleted ∧
      (parent = none ↔ o.header.docSeq = 1)

/-- Every stored record is. -/
def Chained (host : LaHost) (s : BdbStore) (parents : Parents) : Prop :=
  ∀ key value, s.db.lookup key = some value → RecordChained host (parents key) value

/-- The base of a call belongs to the record: none for a new key; else, if it names the
current hash, also the current sequence, and the record has no history yet. And the record
it would make fits. -/
def Honest (host : LaHost) (e : WriteEvent) : Prop :=
  (e.before.db.lookup e.input.target = none → e.input.base = none) ∧
  (∀ value ∈ e.before.db.lookup e.input.target, ∀ rev ∈ e.input.base,
    rev.rev = (partialHeader e.input.calls.stack value).rev →
      rev.seq = (partialHeader e.input.calls.stack value).docSeq ∧
        (partialHeader e.input.calls.stack value).revCount.toNat = 0) ∧
  ∀ data ∈ host.encode e.input.body, headerSize + 16 + data.length < 2 ^ 32

instance (host : LaHost) (e : WriteEvent) : Decidable (Honest host e) :=
  inferInstanceAs (Decidable (_ ∧ _ ∧ _))

/-- A record of the first or second write of its key. -/
structure EarlyRecord (host : LaHost) (parent : Option LaStorageRev) (d : DocRecord)
    (body : LaCodecValue) : Prop where
  encoded : host.encode body = some d.body
  trips : RoundTrips host body
  hashed : d.header.rev =
    laRevgen host.revgen body (d.header.docSeq - 1) parent d.header.deleted
  age : (parent = none ∧ d.header.docSeq = 1 ∧ d.history = []) ∨
    ∃ r, parent = some r ∧ d.header.docSeq = 2 ∧ d.history = [r]

/-- All records are early ones. -/
def Early (host : LaHost) (s : BdbStore) (parents : Parents) : Prop :=
  ∀ key value, s.db.lookup key = some value →
    ∃ d body, value = DocRecord.bytes d ∧ EarlyRecord host (parents key) d body

section Step
variable {host : LaHost} {s : BdbStore}

/-- What a call stores: an object with the encoded body, hashed from the base it names. -/
structure Commits (host : LaHost) (s : BdbStore) (w : WriteCall) (data : List UInt8)
    (o p : LaStorageObject) : Prop where
  encoded : host.encode w.body = some data
  created : ∃ c : ApiCalls, laStorageCreateObject c.created c.heap w.target
    (laRevgen host.revgen w.body ((w.base.map LaRev.seq).getD 0) (w.base.map LaRev.rev)
      w.isDelete) data (UInt32.ofNat data.length) none 0 = some (some o)
  prepared : Prepared w.calls s (w.base.map LaRev.rev) (markDeleted o w.isDelete) p

theorem writeStep_cases (host : LaHost) (s : BdbStore) (w : WriteCall) :
    ((writeStep host s w).2 = s ∧
      ((writeStep host s w).1 = true → w.calls.txnCommit = false)) ∨
    ∃ data o p, Commits host s w data o p ∧
      writeStep host s w = (true, written w.calls s p) ∧ w.calls.txnCommit = true := by
  cases w with
  | put calls c key rev doc =>
    simp only [writeStep]
    cases hret : laDbPut (bdbDb host calls) c s key rev doc with
    | none => exact Or.inl ⟨rfl, by simp⟩
    | some ret =>
      rcases doLaDbPut_bdb hret with ⟨hs, hr⟩ | ⟨d, data, o, p, rfl, puts, prep, rfl, hc⟩
      · exact Or.inl ⟨hs, fun ack => hr (by simpa using ack)⟩
      · exact Or.inr ⟨data, o, p, ⟨puts.encoded, ⟨c, puts.created⟩, prep⟩, rfl, hc⟩
  | delete calls c object key rev =>
    simp only [writeStep, laDbDelete]
    cases object with
    | false => exact Or.inl ⟨rfl, by simp⟩
    | true =>
      cases hret : doLaDbPut (bdbDb host calls) c s key rev (some (.object [])) true with
      | none => exact Or.inl ⟨rfl, by simp⟩
      | some ret =>
        rcases doLaDbPut_bdb hret with ⟨hs, hr⟩ | ⟨d, data, o, p, hd, puts, prep, rfl, hc⟩
        · refine Or.inl ⟨hs, fun ack => hr ?_⟩
          cases hres : ret.result <;> simp [hres, deleteResult] at ack ⊢
        · obtain rfl := Option.some.inj hd
          exact Or.inr ⟨data, o, p, ⟨puts.encoded, ⟨c, puts.created⟩, prep⟩, rfl, hc⟩

/-- The record a call commits is an early one, with the current revision as its parent. -/
theorem commits_early {parents : Parents} (early : Early host s parents) {w : WriteCall}
    (trips : RoundTrips host w.body) (honest : Honest host (event (writeStep host) s w))
    {data : List UInt8} {o p : LaStorageObject} (commits : Commits host s w data o p) :
    ∃ d, (written w.calls s p).db = s.db.insert w.target (DocRecord.bytes d) ∧
      EarlyRecord host (storedRev s w.target) d w.body := by
  obtain ⟨hnew, hbase, hsmall⟩ := honest
  obtain ⟨c, hcreated⟩ := commits.created
  have hsize : headerSize + 16 + data.length < 2 ^ 32 := hsmall data commits.encoded
  obtain ⟨hkey, hheader, hlaid, halloc⟩ := createObject_plain (by omega) hcreated
  have hmarked : LaidOut (markDeleted o w.isDelete) [] data := LaidOut.marked hlaid _
  have hrev : (markDeleted o w.isDelete).header.rev = laRevgen host.revgen w.body
      ((w.base.map LaRev.seq).getD 0) (w.base.map LaRev.rev) w.isDelete := by
    rw [markDeleted, hheader]
  have hpkey : p.key = w.target := commits.prepared.key.trans hkey
  have encoded := commits.encoded
  cases commits.prepared with
  | created absent =>
    have absent' : s.db.lookup w.target = none := hkey ▸ absent
    have hnone : w.base = none := hnew absent'
    obtain ⟨d, hdb, hh, hhistory, rfl⟩ := written_record w.calls s
      (o := { markDeleted o w.isDelete with
        header := { (markDeleted o w.isDelete).header with docSeq := 1, revCount := 0 } })
      ⟨rfl, hmarked.length, hmarked.content⟩ (by simpa using (by omega))
    refine ⟨d, hpkey ▸ hdb, encoded, trips, ?_, Or.inl ⟨by simp [storedRev, absent'], ?_, hhistory⟩⟩
    · have hzero : (1 : UInt64) - 1 = 0 := by decide
      rw [hnone] at hrev
      rw [hh]
      simp only [storedRev, absent', Option.map_none, numbered, hzero]
      exact hrev
    · rw [hh]
      rfl
  | updated value found base _ pushed =>
    have found' : s.db.lookup w.target = some value := hkey ▸ found
    obtain ⟨d₀, body₀, rfl, record⟩ := early w.target value found'
    obtain ⟨rev, hw, hr⟩ := Option.map_eq_some_iff.mp base
    obtain ⟨hseq, hcount⟩ := hbase d₀.bytes found' rev hw hr
    have hheader₀ := partialHeader_docRecord d₀ w.calls.stack
    rw [hheader₀] at pushed hr
    rw [show (event (writeStep host) s w).input = w from rfl, hheader₀] at hseq hcount
    -- Without history this was the first write.
    have hfirst : d₀.header.docSeq = 1 := by
      rcases record.age with ⟨_, h1, _⟩ | ⟨r, _, _, hr⟩
      · exact h1
      · rw [d₀.counted, hr] at hcount
        simp at hcount
    obtain ⟨_, _, hp, _, _⟩ := pushRevision_cases pushed
    have laid := pushRevision_laidOut pushed hcount hmarked (by
      simpa [markDeleted] using halloc.ge)
    obtain ⟨d, hdb, hh, hhistory, rfl⟩ := written_record w.calls s laid (by simpa using hsize)
    have hparent : storedRev s w.target = some d₀.header.rev := by
      simp [storedRev, found', partialHeader_docRecord]
    refine ⟨d, hpkey ▸ hdb, encoded, trips, ?_, Or.inr ⟨d₀.header.rev, hparent, ?_, hhistory⟩⟩
    · have hone : (1 : UInt64) + 1 - 1 = 1 := by decide
      rw [hw, Option.map_some, Option.map_some, Option.getD_some, hseq, hr, hfirst] at hrev
      rw [hh, hparent]
      simp only [numbered, hp, pushedHeader_rev, pushedHeader_docSeq, pushedHeader_deleted,
        hfirst, hone]
      exact hrev
    · rw [hh]
      simp only [numbered, hp, pushedHeader_docSeq, hfirst]
      decide

theorem step_early {parents : Parents} (early : Early host s parents) (w : WriteCall)
    (trips : RoundTrips host w.body) (honest : Honest host (event (writeStep host) s w)) :
    Early host (writeStep host s w).2 (noteParent parents (event (writeStep host) s w)) := by
  rcases writeStep_cases host s w with ⟨hs, hack⟩ | ⟨data, o, p, commits, hstep, hcommit⟩
  · have hsame : noteParent parents (event (writeStep host) s w) = parents := by
      by_cases hout : (writeStep host s w).1 = true
      · simp [noteParent, event, hack hout]
      · simp [noteParent, event, hout]
    rw [hs, hsame]
    exact early
  · obtain ⟨d, hdb, record⟩ := commits_early early trips honest commits
    have hnote : noteParent parents (event (writeStep host) s w) =
        Function.update parents w.target (storedRev s w.target) := by
      simp [noteParent, event, hstep, hcommit]
    rw [hstep, hnote]
    intro key value hvalue
    by_cases same : key = w.target
    · subst same
      rw [hdb, AList.lookup_insert] at hvalue
      obtain rfl := Option.some.inj hvalue
      exact ⟨d, w.body, rfl, by rwa [Function.update_self]⟩
    · rw [hdb, AList.lookup_insert_ne same] at hvalue
      rw [Function.update_of_ne same]
      exact early key value hvalue

theorem EarlyRecord.chained {parent : Option LaStorageRev} {d : DocRecord}
    {body : LaCodecValue} (record : EarlyRecord host parent d body) :
    RecordChained host parent d.bytes := by
  intro heap key
  obtain ⟨_, hheader, _, hdata, _⟩ := objectOfValue_docRecord d heap key
  obtain ⟨data, hinflate, hload⟩ := encode_shown record.trips record.encoded
  refine ⟨data, body, by rw [hdata, hinflate], hload, by rw [hheader]; exact record.hashed, ?_⟩
  rw [hheader]
  rcases record.age with ⟨hp, hseq, _⟩ | ⟨r, hp, hseq, _⟩
  · simp [hp, hseq]
  · have hne : (2 : UInt64) ≠ 1 := by decide
    simp [hp, hseq, hne]

end Step

/-- In a run whose clients name bases that belong to the records, and write no key a third
time, every stored revision is the hash of its document and parent. -/
theorem honest_writes_chained (host : LaHost) (ws : List WriteCall)
    (trips : ∀ w ∈ ws, RoundTrips host w.body)
    (honest : ∀ e ∈ events (writeStep host) bdbEmpty ws, Honest host e) :
    Chained host (final (writeStep host) bdbEmpty ws) (parentsAfter host ws) := by
  have start : Early host bdbEmpty fun _ => none := by
    intro key value h
    cases h
  have fair : ∀ e ∈ events (writeStep host) bdbEmpty ws,
      RoundTrips host e.input.body ∧ Honest host e :=
    fun e he => ⟨trips _ (input_mem he), honest e he⟩
  have early : Early host (final (writeStep host) bdbEmpty ws) (parentsAfter host ws) :=
    simulated (Early host) (fun s parents w h hw => step_early h w hw.1 hw.2) start fair
  intro key value hvalue
  obtain ⟨d, body, rfl, record⟩ := early key value hvalue
  exact record.chained

section Runs
private def firstRev : LaStorageRev :=
  ⟨[150, 122, 0, 223, 245, 224, 42, 221, 65, 129, 145, 56, 171, 179, 40, 77], by decide⟩

/-- The image of the empty document under base number `seq` with base `term`. -/
private def imageOf (seq : UInt8) (term : List UInt8) : List UInt8 :=
  [131, 108, 0, 0, 0, 5, 100, 0, 5, 102, 97, 108, 115, 101, 97, seq] ++ term ++
    [104, 1, 106, 106, 106]

/-- MD5 on the images of the empty document that the runs below hash. -/
private def digestOf (image : List UInt8) : LaStorageRev :=
  if image = imageOf 0 [97, 0] then firstRev
  else if image = imageOf 1 ([109, 0, 0, 0, 16] ++ firstRev.rev) then
    ⟨[112, 81, 203, 229, 200, 250, 236, 208, 133, 163, 250, 97, 158, 110, 99, 55], by decide⟩
  else
    ⟨[108, 186, 167, 8, 252, 205, 201, 77, 111, 204, 203, 28, 219, 179, 169, 133], by decide⟩

private def emptyDocHost : LaHost := ⟨emptyObjectCodec, ⟨digestOf, fun _ => []⟩, none⟩

theorem emptyDocHost_roundTrips (doc : LaCodecValue) : RoundTrips emptyDocHost doc :=
  emptyObjectCodec_roundTrips _ doc

/-- Puts of the empty document, the second against the first with base number `seq`. -/
private def putTwice (seq : UInt64) : List WriteCall :=
  [.put {} {} (some (CString.ofBytes [97])) none (some (.object [])),
    .put {} {} (some (CString.ofBytes [97])) (some ⟨seq, firstRev⟩) (some (.object []))]

theorem honest_putTwice_chained :
    Chained emptyDocHost (final (writeStep emptyDocHost) bdbEmpty (putTwice 1))
      (parentsAfter emptyDocHost (putTwice 1)) :=
  honest_writes_chained emptyDocHost (putTwice 1) (fun w _ => emptyDocHost_roundTrips w.body)
    (by decide +kernel)

/-- A client that names the right hash under number 7 breaks the chain. -/
theorem stale_number_not_chained :
    (∀ doc, RoundTrips emptyDocHost doc) ∧
    ¬ Chained emptyDocHost (final (writeStep emptyDocHost) bdbEmpty (putTwice 7))
      (parentsAfter emptyDocHost (putTwice 7)) := by
  refine ⟨emptyDocHost_roundTrips, fun chained => ?_⟩
  let key := CString.ofBytes [97]
  let s := final (writeStep emptyDocHost) bdbEmpty (putTwice 7)
  have hstored : (s.db.lookup key).isSome := by decide +kernel
  obtain ⟨value, hvalue⟩ := Option.isSome_iff_exists.mp hstored
  obtain ⟨data, body, _, hload, hhash, _⟩ := chained key value hvalue (fun _ => 0) key
  have hbody : body = .object [] := by
    simp only [emptyDocHost, emptyObjectCodec] at hload
    split at hload
    · exact (Option.some.inj hload).symm
    · cases hload
  have hdiffers : ∀ value ∈ s.db.lookup key,
      (objectOfValue (fun _ => 0) key value).header.rev ≠
        laRevgen emptyDocHost.revgen (.object [])
          ((objectOfValue (fun _ => 0) key value).header.docSeq - 1)
          (parentsAfter emptyDocHost (putTwice 7) key)
          (objectOfValue (fun _ => 0) key value).header.deleted := by decide +kernel
  rw [hbody] at hhash
  exact hdiffers value hvalue hhash

end Runs

end HashChain
