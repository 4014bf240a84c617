import Lounge.Api.ApiMap
import Lounge.Api.BdbApi
import Lounge.Compress.Lz4Wrapper

/-!
# The whole store

The API over the Berkeley DB driver with the compressor that the nginx module configures.
Every layer is the one of the source: documents are dumped, compressed, laid out behind a
header and a history, and read back from the bytes of the record.
-/

namespace CompressedMap
open FlatMemory ObjectStore CodecValue CouchRevgen LoungeApi ApiWrites BdbDriver BdbRecord BdbPut
  BdbApi ApiMap Runs Lz4Format Lz4Growth Lz4Wrapper

/-- What one call finds around it: the outcomes of the driver's calls, which of the
compressor's allocations succeed, and what is in the buffers it gets. -/
structure Surroundings where
  calls : BdbCalls := {}
  allocates : Int → Bool := fun _ => true
  fresh : Memory := fun _ => 0
  grown : Int → Memory := fun _ _ => 0

/-- `la_lz4_compressor`. A trap of one of the two functions is taken for NULL. -/
def laLz4Compressor (around : Surroundings) : LaCompressor where
  compressor := fun input =>
    (lz4CompressDocument around.allocates around.fresh input).join.map fun r =>
      read r.1 0 r.2.toNat
  decompressor := fun input =>
    (lz4Decompress (uncompressIn around.grown) around.allocates input).join.map fun r =>
      read r.1 0 r.2.toNat

/-- The host after `la_host_configure_compressor`. -/
def lz4Host (codec : CodecLib) (revgen : RevgenLib) (around : Surroundings) : LaHost :=
  ⟨codec, revgen, some (laLz4Compressor around)⟩

section Compressor

/-- A buffer was returned, so its allocation had succeeded. -/
theorem lz4CompressDocument_allocated {allocates : Int → Bool} {fresh : Memory}
    {input : List UInt8} {r : Memory × Int}
    (h : lz4CompressDocument allocates fresh input = some (some r)) :
    lz4CompressDocument (fun _ => true) fresh input = some (some r) := by
  simp only [lz4CompressDocument] at h ⊢
  split at h
  · cases h
  · split at h
    · cases h
    · simpa using h

/-- `z` is an LZ4 block of a text that the codec loads as `doc`, and not much longer. -/
def Compressed (codec : CodecLib) (doc : LaCodecValue) (z : List UInt8) : Prop :=
  ∃ text, codec.loadb text = some doc ∧ text.length < 2 ^ 30 ∧ Encodes text 0 z ∧
    z.length ≤ text.length + text.length / 255 + 2

/-- The text of the document is below a gigabyte, and is loaded as the document. -/
def Texts (codec : CodecLib) (doc : LaCodecValue) : Prop :=
  ∀ text ∈ codec.dump doc, text.length < 2 ^ 30 ∧ codec.loadb text = some doc

variable {codec : CodecLib} {revgen : RevgenLib} {around : Surroundings} {doc : LaCodecValue}
  {z : List UInt8}

/-- What is stored of such a document. -/
theorem encode_compressed (encoded : (lz4Host codec revgen around).encode doc = some z)
    (texts : Texts codec doc) : Compressed codec doc z := by
  obtain ⟨text, dumped, deflated⟩ := Option.bind_eq_some_iff.mp encoded
  obtain ⟨short, loaded⟩ := texts text dumped
  obtain ⟨⟨m, size⟩, made, bytes⟩ := Option.map_eq_some_iff.mp deflated
  have returned := lz4CompressDocument_allocated (Option.join_eq_some_iff.mp made)
  have always : ∀ n, 0 ≤ n → (fun _ : Int => true) n = true := fun _ _ => rfl
  obtain ⟨n, m', compressed, few, block⟩ := lz4CompressDocument_spec short always around.fresh
  rw [compressed, Option.some.injEq, Option.some.injEq, Prod.mk.injEq] at returned
  obtain ⟨rfl, rfl⟩ := returned
  rw [Int.toNat_natCast] at bytes
  subst bytes
  exact ⟨text, loaded, short, block, by rwa [length_read]⟩

theorem Compressed.length_lt (compressed : Compressed codec doc z) : z.length < 2 ^ 31 := by
  obtain ⟨text, -, short, -, few⟩ := compressed
  omega

/-- A stored document is read back, whatever the buffers of the call. -/
theorem Compressed.decoded (compressed : Compressed codec doc z)
    (allocated : ∀ n, 0 ≤ n → around.allocates n = true) :
    ((lz4Host codec revgen around).inflate z).bind codec.loadb = some doc := by
  obtain ⟨text, loaded, short, block, few⟩ := compressed
  obtain ⟨dest, found, bytes⟩ := lz4Decompress_block block short (by omega) allocated around.grown
  have inflated : (lz4Host codec revgen around).inflate z = some text := by
    simp only [LaHost.inflate, lz4Host, laLz4Compressor, found, Option.join_some, Option.map_some,
      Int.toNat_natCast, bytes]
  rw [inflated, Option.bind_some, loaded]

end Compressor

section Records
variable {calls : BdbCalls} {s : BdbStore}

/-- The record that an accepted put leaves when none with a history was there. -/
theorem prepared_record {rev : Option LaStorageRev} {obj p : LaStorageObject} {body : List UInt8}
    (prep : Prepared calls s rev obj p) (laid : LaidOut obj [] body)
    (owned : body.length ≤ obj.alloc)
    (early : ∀ value ∈ s.db.lookup obj.key, rev = some (partialHeader calls.stack value).rev →
      (partialHeader calls.stack value).revCount.toNat = 0)
    (fits : headerSize + 16 + body.length < 2 ^ 32) :
    ∃ d : DocRecord, (written calls s p).db = s.db.insert obj.key d.bytes ∧
      d.header = (numbered calls s p).header ∧ d.body = body := by
  rw [← prep.key]
  cases prep with
  | created absent =>
    have laid' : LaidOut { obj with header := { obj.header with docSeq := 1, revCount := 0 } } []
        body := ⟨rfl, laid.length, laid.content⟩
    obtain ⟨d, stored, header, -, same⟩ := written_record calls s laid' (by simpa using (by omega))
    exact ⟨d, stored, header, same⟩
  | updated value found base p pushed =>
    have pushedLaid := pushRevision_laidOut pushed (early value found base) laid owned
    obtain ⟨d, stored, header, -, same⟩ := written_record calls s pushedLaid (by simpa using fits)
    exact ⟨d, stored, header, same⟩

end Records

/-- What a stored value shows of an entry of the map: a laid-out record, with the deleted bit
or with a compressed document. -/
def Reads (codec : CodecLib) : Option (List UInt8) → Option Entry → Prop
  | none, none => True
  | some value, some .gone => ∃ d : DocRecord, value = d.bytes ∧ d.header.deleted = true
  | some value, some (.live doc rev) =>
    ∃ d : DocRecord, value = d.bytes ∧ d.header.deleted = false ∧
      rev = ⟨d.header.docSeq, d.header.rev⟩ ∧
      doc.laCodecObjectGet laApiDeletedName = none ∧ Compressed codec doc d.body
  | _, _ => False

/-- Every record of the database shows the map's entry. -/
def Mirrors (codec : CodecLib) (s : BdbStore) (t : Table) : Prop :=
  ∀ key, Reads codec (s.db.lookup key) (t key)

theorem Mirrors.update {codec : CodecLib} {s s' : BdbStore} {t : Table}
    (mirrors : Mirrors codec s t) {key : CString} {value : List UInt8} {entry : Entry}
    (stored : s'.db = s.db.insert key value) (reads : Reads codec (some value) (some entry)) :
    Mirrors codec s' (Function.update t key (some entry)) := by
  intro other
  rw [stored]
  by_cases same : other = key
  · subst same
    rwa [AList.lookup_insert, Function.update_self]
  · rw [AList.lookup_insert_ne same, Function.update_of_ne same]
    exact mirrors other

/-- A call of the API in its surroundings. -/
abbrev StoreCall := Surroundings × ApiOp

section Step
variable (codec : CodecLib) (revgen : RevgenLib)

/-- The database as one call sees it. -/
def lz4Db (around : Surroundings) : LaDb BdbStore :=
  bdbDb (lz4Host codec revgen around) around.calls

def storeStep (s : BdbStore) (call : StoreCall) : Option Reply × BdbStore :=
  apiStep (lz4Db codec revgen call.1) s call.2

/-- The map as a client follows it, whatever was around its calls. -/
def recordCall (t : Table) (e : Event BdbStore StoreCall (Option Reply)) : Table :=
  record t e.input.2 e.output

/-- The key that a call writes. -/
def keyOf : ApiOp → Option CString
  | .put c key _ doc => doc.map fun doc => key.getD (keyOfDoc c doc)
  | .delete c _ key _ => some (key.getD (keyOfDoc c (.object [])))
  | .replace _ key _ _ _ _ => key

/-- There is no history to move in the record that a write on this base replaces. -/
def Early (s : BdbStore) (around : Surroundings) (key : CString) (base : Option LaRev) : Prop :=
  ∀ value ∈ s.db.lookup key,
    base.map LaRev.rev = some (partialHeader around.calls.stack value).rev →
      (partialHeader around.calls.stack value).revCount.toNat = 0

/-- The record under a call's key takes what the call stores: a put and a delete, which would
garble a history or write past their block, find none there, and a replace is given the revisions
it counts. -/
def Takes (s : BdbStore) (around : Surroundings) : ApiOp → Prop
  | .put c key rev doc => Early s around (key.getD (keyOfDoc c (doc.getD .null))) rev
  | .delete c _ key rev => Early s around (key.getD (keyOfDoc c (.object []))) rev
  | .replace _ _ _ _ oldrevs revcount =>
    revcount = (oldrevs.getD []).length ∧ revcount < 2 ^ 15

instance (s : BdbStore) (around : Surroundings) (key : CString) (base : Option LaRev) :
    Decidable (Early s around key base) := by
  delta Early
  infer_instance

instance (s : BdbStore) (around : Surroundings) : (op : ApiOp) → Decidable (Takes s around op)
  | .put .. => inferInstanceAs (Decidable (Early ..))
  | .delete .. => inferInstanceAs (Decidable (Early ..))
  | .replace .. => inferInstanceAs (Decidable (_ ∧ _))

/-- A call whose commit does not fail, of a document below a gigabyte that the codec loads again,
on a record that takes it. Its other driver calls and its allocations may fail. -/
structure Fair (e : Event BdbStore StoreCall (Option Reply)) : Prop where
  commits : e.input.1.calls.txnCommit = true
  texts : ∀ doc ∈ e.input.2.stored, Texts codec doc
  takes : Takes e.before e.input.1 e.input.2

variable {codec revgen} {s : BdbStore} {t : Table} {around : Surroundings}

/-- What an acknowledged call did: the committed object is the map's entry for its key. -/
structure Stores (codec : CodecLib) (revgen : RevgenLib) (s : BdbStore) (call : StoreCall)
    (o : LaStorageObject) (entry : Entry) : Prop where
  committed : (storeStep codec revgen s call).2 = written call.1.calls s o
  acknowledged : (storeStep codec revgen s call).1.any Reply.ok = true
  key : keyOf call.2 = some o.key
  recorded : ∀ t, record t call.2 (storeStep codec revgen s call).1 =
    Function.update t o.key (some entry)
  reads : Reads codec (some (recordBytes (numbered call.1.calls s o))) (some entry)

/-- A call that was not acknowledged. -/
structure Refuses (codec : CodecLib) (revgen : RevgenLib) (s : BdbStore) (call : StoreCall) :
    Prop where
  store : (storeStep codec revgen s call).2 = s
  reply : (storeStep codec revgen s call).1.any Reply.ok = false

/-- The bytes stored are those of the record that was found to be inserted. -/
theorem recordBytes_of_insert {calls : BdbCalls} {s : BdbStore} {o : LaStorageObject}
    {key : CString} {bytes : List UInt8} (same : o.key = key)
    (stored : (written calls s o).db = s.db.insert key bytes) :
    recordBytes (numbered calls s o) = bytes := by
  have found : (written calls s o).db.lookup o.key = some (recordBytes (numbered calls s o)) :=
    AList.lookup_insert s.db
  rw [stored, same, AList.lookup_insert] at found
  exact (Option.some.inj found).symm

theorem put_cases {c : ApiCalls} {key : Option CString} {rev : Option LaRev}
    {doc : Option LaCodecValue}
    (fair : Fair codec (event (storeStep codec revgen) s (around, .put c key rev doc))) :
    Refuses codec revgen s (around, .put c key rev doc) ∨
      ∃ o entry, Stores codec revgen s (around, .put c key rev doc) o entry := by
  have commits : around.calls.txnCommit = true := fair.commits
  cases hret : laDbPut (lz4Db codec revgen around) c s key rev doc with
  | none => exact Or.inl ⟨by simp [storeStep, apiStep, hret], by simp [storeStep, apiStep, hret]⟩
  | some ret =>
    have step : storeStep codec revgen s (around, .put c key rev doc) =
        (some ⟨ret.result == .ok, ret.newrev⟩, ret.store) := by
      simp [storeStep, apiStep, hret]
    rcases doLaDbPut_bdb hret with ⟨store, claimed⟩ | ⟨v, data, o, p, rfl, puts, prep, rfl, -⟩
    · refine Or.inl ⟨by rw [step, store], ?_⟩
      rw [step]
      cases result : ret.result with
      | ok => simp [claimed result] at commits
      | _ => rfl
    have compressed := encode_compressed puts.encoded (fair.texts _ rfl)
    have short := compressed.length_lt
    obtain ⟨name, header, laid, owned⟩ := createObject_plain (by omega) puts.created
    have target : (markDeleted o false).key = key.getD (keyOfDoc c v) := name
    have takes : Early s around (markDeleted o false).key rev := by
      rw [target]
      exact fair.takes
    obtain ⟨d, stored, same, rfl⟩ := prepared_record prep (LaidOut.marked laid false) owned.ge
      takes (by simp only [headerSize]; omega)
    have unmarked : putDoc v = replaceDoc v :=
      (del_absent ((putDoc_get_deleted v).trans (puts.notDeleted rfl))).symm
    have newRev : d.header.rev = nextRev (lz4Host codec revgen around) rev v false := by
      rw [same]
      exact prep.header.1.trans (by rw [markDeleted, header])
    have docSeq : d.header.docSeq = p.header.docSeq := by rw [same]; rfl
    have deleted : d.header.deleted = false := by
      rw [same]
      exact prep.header.2.1
    have named : p.key = key.getD (keyOfDoc c v) := prep.key.trans target
    refine Or.inr ⟨p, .live (replaceDoc v) ⟨d.header.docSeq, d.header.rev⟩, ?_⟩
    refine ⟨by rw [step], by rw [step]; rfl, by rw [keyOf, named]; rfl, fun t => ?_, ?_⟩
    · rw [step, named, newRev, docSeq]
      rfl
    · rw [recordBytes_of_insert prep.key stored]
      exact ⟨d, rfl, deleted, rfl, replaceDoc_get_deleted v, unmarked ▸ compressed⟩

theorem delete_cases {c : ApiCalls} {object : Bool} {key : Option CString} {rev : Option LaRev}
    (fair : Fair codec (event (storeStep codec revgen) s (around, .delete c object key rev))) :
    Refuses codec revgen s (around, .delete c object key rev) ∨
      ∃ o entry, Stores codec revgen s (around, .delete c object key rev) o entry := by
  have commits : around.calls.txnCommit = true := fair.commits
  cases object with
  | false => exact Or.inl ⟨rfl, rfl⟩
  | true =>
    cases hret : doLaDbPut (lz4Db codec revgen around) c s key rev (some (.object [])) true with
    | none =>
      exact Or.inl ⟨by simp [storeStep, apiStep, laDbDelete, hret],
        by simp [storeStep, apiStep, laDbDelete, hret]⟩
    | some ret =>
      have step : storeStep codec revgen s (around, .delete c true key rev) =
          (some ⟨deleteResult ret.result == .ok, none⟩, ret.store) := by
        simp [storeStep, apiStep, laDbDelete, hret]
      rcases doLaDbPut_bdb hret with ⟨store, claimed⟩ | ⟨v, data, o, p, hv, puts, prep, rfl, -⟩
      · refine Or.inl ⟨by rw [step, store], ?_⟩
        rw [step]
        cases result : ret.result with
        | ok => simp [claimed result] at commits
        | _ => rfl
      obtain rfl := Option.some.inj hv
      have compressed := encode_compressed puts.encoded (fair.texts _ rfl)
      have short := compressed.length_lt
      obtain ⟨name, -, laid, -⟩ := createObject_plain (by omega) puts.created
      have length : (markDeleted o true).dataLength.toNat = data.length := laid.length
      obtain ⟨d, stored, same, -⟩ := prep.record laid.counted
        (by simp only [headerSize, laObjectMaxRevisionCount]; omega)
      have named : p.key = key.getD (keyOfDoc c (.object [])) := prep.key.trans name
      refine Or.inr ⟨p, .gone, by rw [step], by rw [step]; rfl, by rw [keyOf, named],
        fun t => ?_, ?_⟩
      · rw [step, named]
        rfl
      · rw [recordBytes_of_insert prep.key stored]
        refine ⟨d, rfl, ?_⟩
        rw [same]
        exact prep.header.2.1

theorem replace_cases {c : ApiCalls} {key : Option CString} {rev : Option LaRev}
    {doc : Option LaCodecValue} {oldrevs : Option (List LaStorageRev)} {revcount : Nat}
    (fair : Fair codec
      (event (storeStep codec revgen) s (around, .replace c key rev doc oldrevs revcount))) :
    Refuses codec revgen s (around, .replace c key rev doc oldrevs revcount) ∨
      ∃ o entry,
        Stores codec revgen s (around, .replace c key rev doc oldrevs revcount) o entry := by
  have commits : around.calls.txnCommit = true := fair.commits
  obtain ⟨given, few⟩ : revcount = (oldrevs.getD []).length ∧ revcount < 2 ^ 15 := fair.takes
  cases hret : laDbReplace (lz4Db codec revgen around) c s key rev doc oldrevs revcount with
  | none => exact Or.inl ⟨by simp [storeStep, apiStep, hret], by simp [storeStep, apiStep, hret]⟩
  | some ret =>
    have step : storeStep codec revgen s (around, .replace c key rev doc oldrevs revcount) =
        (some ⟨ret.result == .ok, none⟩, ret.store) := by
      simp [storeStep, apiStep, hret]
    rcases laDbReplace_cases hret with ⟨store, failed⟩ |
      ⟨k, v, d, data, o, r, s', o', rfl, rfl, rfl, -, encoded, created, replaced, rfl⟩
    · exact Or.inl ⟨by rw [step, store], by simp [step, failed]⟩
    obtain ⟨rfl, rfl, -⟩ := Prod.mk.inj (Option.some.inj replaced) |>.imp_right Prod.mk.inj
    rcases bdbLaStorageReplace_cases around.calls s (markReplaced o (isDeleted d) v.seq) with
      unstored | stored
    · have refused : (bdbLaStorageReplace around.calls s
          (markReplaced o (isDeleted d) v.seq)).result ≠ .success := by
        intro success
        simp [unstored.claimed success] at commits
      exact Or.inl ⟨by rw [step]; exact unstored.store, by simp [step, refused]⟩
    have compressed := encode_compressed encoded (fair.texts _ rfl)
    have short := compressed.length_lt
    obtain ⟨name, same, laid⟩ := createObject_laidOut (by omega) given few created
    have marked : LaidOut (markReplaced o (isDeleted d) v.seq) (oldrevs.getD []) data :=
      ⟨laid.counted, laid.length, laid.content⟩
    obtain ⟨e, db, header, -, rfl⟩ := written_record around.calls s marked
      (by simp only [headerSize]; omega)
    have named : (markReplaced o (isDeleted d) v.seq).key = k := name
    have newRev : v = ⟨e.header.docSeq, e.header.rev⟩ := by
      rw [header]
      exact congrArg (LaRev.mk v.seq) same.symm
    have deleted : e.header.deleted = isDeleted d := by rw [header]; rfl
    refine Or.inr ⟨markReplaced o (isDeleted d) v.seq,
      if isDeleted d then .gone else .live (replaceDoc d) v, ?_⟩
    refine ⟨by rw [step]; exact stored.store, by simp [step, stored.result],
      by rw [keyOf, named], fun t => ?_, ?_⟩
    · rw [step, named, stored.result]
      rfl
    · rw [recordBytes_of_insert rfl db]
      cases hd : isDeleted d with
      | true => exact ⟨e, rfl, deleted.trans hd⟩
      | false =>
        exact ⟨e, rfl, deleted.trans hd, newRev, replaceDoc_get_deleted d, compressed⟩

/-- A call either is not acknowledged and stores nothing, or stores the map's entry. -/
theorem storeStep_cases (call : StoreCall)
    (fair : Fair codec (event (storeStep codec revgen) s call)) :
    Refuses codec revgen s call ∨ ∃ o entry, Stores codec revgen s call o entry := by
  obtain ⟨around, op⟩ := call
  cases op with
  | put c key rev doc => exact put_cases fair
  | delete c object key rev => exact delete_cases fair
  | replace c key rev doc oldrevs revcount => exact replace_cases fair

theorem step_mirrors (mirrors : Mirrors codec s t) (call : StoreCall)
    (fair : Fair codec (event (storeStep codec revgen) s call)) :
    Mirrors codec (storeStep codec revgen s call).2
      (recordCall t (event (storeStep codec revgen) s call)) := by
  rcases storeStep_cases call fair with refused | ⟨o, entry, stored⟩
  · have unrecorded : recordCall t (event (storeStep codec revgen) s call) = t := by
      refine record_unacknowledged t call.2 fun r hr => ?_
      have reply := refused.reply
      rw [show (storeStep codec revgen s call).1 = some r from hr] at reply
      exact reply
    rw [refused.store, unrecorded]
    exact mirrors
  · have recorded : recordCall t (event (storeStep codec revgen) s call) =
        Function.update t o.key (some entry) := stored.recorded t
    rw [stored.committed, recorded]
    exact mirrors.update rfl stored.reads

/-- `la_db_get` answers from the map that the records show, if its own calls succeed. -/
theorem Mirrors.answers (mirrors : Mirrors codec s t) (read : around.calls.dbGet = none)
    (allocated : ∀ n, 0 ≤ n → around.allocates n = true) (key : CString) :
    Answers (laDbGet (lz4Db codec revgen around) s key none) (t key) := by
  have reads := mirrors key
  cases stored : s.db.lookup key with
  | none =>
    rw [stored] at reads
    cases entry : t key with
    | some _ => rw [entry] at reads; exact reads.elim
    | none =>
      simp [Answers, laDbGet, lz4Db, bdbDb, bdbDriver, bdbLaStorageGet, read, stored]
  | some value =>
    rw [stored] at reads
    rcases entry : t key with _ | ⟨doc, rev⟩ | _
    · rw [entry] at reads
      exact reads.elim
    · rw [entry] at reads
      obtain ⟨d, rfl, notDeleted, rfl, absent, compressed⟩ := reads
      have live : LiveRecord (lz4Host codec revgen around) s key d doc :=
        ⟨stored, notDeleted, compressed.decoded allocated, isTombstone_of_absent absent⟩
      exact live.get read
    · rw [entry] at reads
      obtain ⟨d, rfl, deleted⟩ := reads
      obtain ⟨-, header, -⟩ := objectOfValue_docRecord d around.calls.heap key
      simp [Answers, laDbGet, lz4Db, bdbDb, bdbDriver, bdbLaStorageGet, read, stored, header,
        deleted]

/-- After any calls, each in surroundings of its own, `la_db_get` returns the documents that
the acknowledged ones stored: through the codec, LZ4 and the records of Berkeley DB. -/
theorem laDbGet_stored (codec : CodecLib) (revgen : RevgenLib) (calls : List StoreCall)
    (fair : ∀ e ∈ events (storeStep codec revgen) bdbEmpty calls, Fair codec e)
    {around : Surroundings} (read : around.calls.dbGet = none)
    (allocated : ∀ n, 0 ≤ n → around.allocates n = true) (key : CString) :
    Answers
      (laDbGet (lz4Db codec revgen around) (final (storeStep codec revgen) bdbEmpty calls) key none)
      (replay recordCall (fun _ => none) (events (storeStep codec revgen) bdbEmpty calls) key) := by
  have start : Mirrors codec bdbEmpty fun _ => none := fun _ => trivial
  have mirrors : Mirrors codec (final (storeStep codec revgen) bdbEmpty calls)
      (replay recordCall (fun _ => none) (events (storeStep codec revgen) bdbEmpty calls)) :=
    simulated (Mirrors codec) (fun s t call here fair => step_mirrors here call fair) start fair
  exact mirrors.answers read allocated key

end Step

section Runs
private def firstName : CString := CString.ofBytes [97]

private def secondName : CString := CString.ofBytes [98]

private def textDoc (text : List UInt8) : LaCodecValue :=
  .object [(memberName, .string (CString.ofBytes text))]

/-- Every document is hashed to zeros. -/
def zeroRevgen : RevgenLib := ⟨fun _ => zeroRev, fun _ => []⟩

/-- A run of calls on short documents of this codec is fair if its records take them. -/
theorem fair_of_takes {calls : List StoreCall}
    (short : ∀ call ∈ calls, ∀ doc ∈ call.2.stored, ∀ text ∈ textHost.codec.dump doc,
      text.length < 2 ^ 30)
    (takes : ∀ e ∈ events (storeStep textHost.codec zeroRevgen) bdbEmpty calls,
      e.input.1.calls.txnCommit = true ∧ Takes e.before e.input.1 e.input.2) :
    ∀ e ∈ events (storeStep textHost.codec zeroRevgen) bdbEmpty calls,
      Fair textHost.codec e := by
  intro e he
  obtain ⟨commits, taken⟩ := takes e he
  refine ⟨commits, fun doc stored text dumped => ?_, taken⟩
  exact ⟨short _ (input_mem he) doc stored text dumped,
    (textHost_roundTrips doc).codec text dumped⟩

/-- A put, a replace with a history of two, another put on the first revision, and a delete in
full memory. -/
private def putReplaceDelete : List StoreCall :=
  [({}, .put {} (some firstName) none (some (textDoc [98]))),
    ({}, .replace {} (some secondName) (some ⟨3, uniformRev 3⟩) (some (textDoc [99]))
      (some [uniformRev 2, uniformRev 1]) 2),
    ({}, .put {} (some firstName) (some ⟨1, zeroRev⟩) (some (textDoc [100]))),
    ({ allocates := fun _ => false }, .delete {} true (some secondName) (some ⟨2, uniformRev 2⟩))]

theorem laDbGet_stored_putReplaceDelete :
    Answers
      (laDbGet (lz4Db textHost.codec zeroRevgen {})
        (final (storeStep textHost.codec zeroRevgen) bdbEmpty putReplaceDelete) firstName none)
      (replay recordCall (fun _ => none)
        (events (storeStep textHost.codec zeroRevgen) bdbEmpty putReplaceDelete) firstName) :=
  laDbGet_stored textHost.codec zeroRevgen putReplaceDelete
    (fair_of_takes (by decide +kernel) (by decide +kernel)) rfl (fun _ _ => rfl) firstName

end Runs

end CompressedMap
